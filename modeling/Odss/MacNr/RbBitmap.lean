import Odss.Mac.SchedPhyResource

/-!
# `Odss.MacNr.RbBitmap`: the PRBs and the RBGs of a BWP

The model of `bwp_rb_bitmap` (`srsenb/hdr/stack/mac/nr/sched_nr_rb.h`,
`srsenb/src/stack/mac/nr/sched_nr_rb.cc`). `none` is a failing assertion of a bitset.
-/

set_option linter.all false

namespace Odss.MacNr

open Odss.Mac (BoundedBitset PrbInterval)

/-- What a bitmap is created for. The size of the BWP is what `get_P` asserts. -/
structure Bwp where
  nofPrbs : Nat
  prbStart : Nat
  config1or2 : Bool
  nofPrbs_pos : 0 < nofPrbs
  nofPrbs_le : nofPrbs ≤ 275

/-- An `int` as an `uint32_t`. -/
def toU32 (x : Int) : Nat := (x % 2 ^ 32).toNat

namespace Bwp

variable (bwp : Bwp)

/-- `get_P` -/
def p : Nat :=
  if bwp.nofPrbs ≤ 36 then if bwp.config1or2 then 2 else 4
  else if bwp.nofPrbs ≤ 72 then if bwp.config1or2 then 4 else 8
  else if bwp.nofPrbs ≤ 144 then if bwp.config1or2 then 8 else 16
  else 16

/-- `get_nof_rbgs` -/
def nofRbgs : Nat := (bwp.nofPrbs + bwp.prbStart % bwp.p + bwp.p - 1) / bwp.p

/-- `get_rbg_size` -/
def rbgSize (rbgIdx : Nat) : Nat :=
  if rbgIdx = 0 then bwp.p - bwp.prbStart % bwp.p
  else if rbgIdx = bwp.nofRbgs - 1 then
    let ret := (bwp.prbStart + bwp.nofPrbs) % bwp.p
    if ret > 0 then ret else bwp.p
  else bwp.p

/-- `first_rbg_size` -/
def firstRbgSize : Nat := bwp.rbgSize 0

/-- `Pnofbits` -/
def pNofbits : Nat := Nat.log2 bwp.p

/-- `prb_to_rbg_idx` -/
def prbToRbgIdx (prbIdx : Nat) : Nat := (prbIdx + bwp.p - bwp.firstRbgSize) >>> bwp.pNofbits

end Bwp

/-- `prb_grant`, with the intervals that lie in the BWP. -/
inductive PrbGrant (bwp : Bwp) where
  | rbgs (rbgs : BoundedBitset bwp.nofRbgs)
  | prbs (interv : PrbInterval) (le : interv.stop ≤ bwp.nofPrbs)

/-- `bwp_rb_bitmap` -/
structure BwpRbBitmap (bwp : Bwp) where
  prbs : BoundedBitset bwp.nofPrbs
  rbgs : BoundedBitset bwp.nofRbgs

namespace BwpRbBitmap

variable {bwp : Bwp}

/-- `bwp_rb_bitmap(bwp_nof_prbs, bwp_prb_start, config1_or_2)` -/
def create (bwp : Bwp) : BwpRbBitmap bwp := ⟨.empty _, .empty _⟩

/-- The loop of `add_prbs_to_rbgs` for a bitmap. Each round moves at least one PRB, so their number
of rounds reaches the end. -/
def addPrbsToRbgs (grant : BoundedBitset bwp.nofPrbs) :
    Nat → Nat → BoundedBitset bwp.nofRbgs → Option (BoundedBitset bwp.nofRbgs)
  | 0, _, rbgs => some rbgs
  | fuel + 1, idx, rbgs =>
    match grant.findLowest idx bwp.nofPrbs true with
    | none => none
    | some none => some rbgs
    | some (some idx) =>
      match rbgs.set (bwp.prbToRbgIdx idx) with
      | none => none
      | some rbgs =>
        if idx + 1 = bwp.nofPrbs then some rbgs else addPrbsToRbgs grant fuel (idx + 1) rbgs

/-- The first PRB of an RBG. The index is an `int`, and the rest is computed in `uint32_t`. -/
def rbgPrbIdx (bwp : Bwp) (idx : Nat) : Nat := toU32 (((idx : Int) - 1) * bwp.p + bwp.firstRbgSize)

/-- The loop of `add_rbgs_to_prbs`. -/
def addRbgsToPrbs (grant : BoundedBitset bwp.nofRbgs) :
    Nat → Nat → BoundedBitset bwp.nofPrbs → Option (BoundedBitset bwp.nofPrbs)
  | 0, _, prbs => some prbs
  | fuel + 1, idx, prbs =>
    match grant.findLowest idx bwp.nofRbgs true with
    | none => none
    | some none => some prbs
    | some (some idx) =>
      let prbIdx := rbgPrbIdx bwp idx
      let size := if idx = 0 then bwp.firstRbgSize else bwp.p
      match prbs.fill prbIdx (min (toU32 (prbIdx + size)) bwp.nofPrbs) with
      | none => none
      | some prbs =>
        if idx + 1 = bwp.nofPrbs then some prbs else addRbgsToPrbs grant fuel (idx + 1) prbs

/-- `add` of a PRB interval -/
def addInterval (b : BwpRbBitmap bwp) (interv : PrbInterval) : Option (BwpRbBitmap bwp) := do
  let prbs ← b.prbs.fill interv.start interv.stop
  let rbgStart := bwp.prbToRbgIdx interv.start
  let rbgStop := min (bwp.prbToRbgIdx (interv.stop - 1) + 1) bwp.nofRbgs
  let rbgs ← b.rbgs.fill rbgStart rbgStop
  some ⟨prbs, rbgs⟩

/-- `add` of a PRB bitmap -/
def addPrbs (b : BwpRbBitmap bwp) (grant : BoundedBitset bwp.nofPrbs) :
    Option (BwpRbBitmap bwp) := do
  let rbgs ← addPrbsToRbgs grant bwp.nofPrbs 0 b.rbgs
  some ⟨b.prbs.union grant, rbgs⟩

/-- `add` of an RBG bitmap -/
def addRbgs (b : BwpRbBitmap bwp) (grant : BoundedBitset bwp.nofRbgs) :
    Option (BwpRbBitmap bwp) := do
  let prbs ← addRbgsToPrbs grant bwp.nofRbgs 0 b.prbs
  some ⟨prbs, b.rbgs.union grant⟩

/-- `set` -/
def set (b : BwpRbBitmap bwp) (prbIdx : Nat) : Option (BwpRbBitmap bwp) := do
  let prbs ← b.prbs.set prbIdx
  let rbgs ← b.rbgs.set (bwp.prbToRbgIdx prbIdx)
  some ⟨prbs, rbgs⟩

/-- `collides` -/
def collides (b : BwpRbBitmap bwp) : PrbGrant bwp → Option Bool
  | .rbgs rbgs => some (b.rbgs.inter rbgs).any
  | .prbs interv _ => b.prbs.anyIn interv.start interv.stop

end BwpRbBitmap

end Odss.MacNr
