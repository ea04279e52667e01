import Odss.Asn1.PackSequence
import Odss.Proofs.BitString

/-!
# `Odss.Proofs.PackSequence`: what a writer says about space

`HonestCall` is what a call of a writer owes: it succeeds exactly when its bits fit, they are then
written, and what was written before stays. `PackRoundTrips` adds the way back, when all calls have
succeeded.

Two calls say that there is no room although there is: `pack` of 64 bits, and `pack_bytes` from the
start of a byte up to the end of the buffer. The way back fails for numbers that the reader shifts
out of 32 bits. `packRoundTrips_iff_clean` says that this is all.
-/

set_option linter.all false

namespace Odss.Asn1

open Odss.Lib BitRef Per
open Odss.Rlc (Bytes)

namespace PackOp

/-- The bits of a call, those up to the next byte for `align_bytes_zero`. -/
def bitLen (w : BitRef) : PackOp → Nat
  | pack _ nBits => nBits
  | packBytes bytes => 8 * bytes.length
  | alignBytesZero => alignUp w.distance - w.distance

/-- All bits of a call fit in the rest of the buffer. -/
def Fits (op : PackOp) (w : BitRef) : Prop := op.bitLen w = 0 ∨ w.HasRoom (op.bitLen w)

/-- The bits of a call are in the buffer. -/
def Wrote (w w' : BitRef) : PackOp → Prop
  | pack val nBits => field w'.bits w.distance nBits = val.toNat % 2 ^ nBits.val
  | packBytes bytes => ∀ i < 8 * bytes.length, w'.bits (w.distance + i) = bitAt bytes i
  | alignBytesZero => ∀ i, w.distance ≤ i → i < w'.distance → w'.bits i = false

/-- The call of a reader for a call of a writer, with its result. -/
def ReadBack (r r' : BitRef) : PackOp → Prop
  | pack val nBits => ∀ width ∈ [8, 16, 32, 64], nBits.val ≤ width →
    (unpack width nBits).Runs r (val.toNat % 2 ^ nBits.val) r'
  | packBytes bytes => (bitRefUnpackBytes bytes.length).Runs r bytes r'
  | alignBytesZero => alignBytes.Runs r () r'

/-- Not one of the two calls that fail with room. -/
def Clean (w : BitRef) : PackOp → Prop
  | pack _ nBits => ¬ (nBits.val = 64 ∧ w.HasRoom 64)
  | packBytes bytes =>
    ¬ (bytes ≠ [] ∧ w.offset = 0 ∧ w.ptr + bytes.length = w.buf.length)
  | alignBytesZero => True

/-- The reader does not shift bits out of 32. -/
def Readable (w : BitRef) : PackOp → Prop
  | pack val nBits =>
    nBits.val = 0 ∨ (nBits.val + w.offset ≤ 39 ∧ val.toNat % 2 ^ nBits.val < 2 ^ 32)
  | packBytes _ => True
  | alignBytesZero => True

end PackOp

/-- What a call owes. -/
structure HonestCall (op : PackOp) (w : BitRef) (code : Except SrsasnCode Unit) (w' : BitRef) :
    Prop where
  ok_iff : code = .ok () ↔ op.Fits w
  before : w.Extends w'
  distance_eq : code = .ok () → w'.distance = w.distance + op.bitLen w
  wrote : code = .ok () → op.Wrote w w'

/-- Something holds at each call of a sequence. -/
def AtEach (P : PackOp → BitRef → Prop) : List PackOp → BitRef → Prop
  | [], _ => True
  | op :: ops, w => P op w ∧ ∀ code w', op.call w = some (code, w') → AtEach P ops w'

/-- The calls of a reader succeed with what was written. -/
def ReadsBack : List PackOp → BitRef → Prop
  | [], _ => True
  | op :: ops, r => ∃ r', op.ReadBack r r' ∧ ReadsBack ops r'

/-- Each call is honest, and when all succeed, everything is read back. -/
def PackRoundTrips (buf : Bytes) (ops : List PackOp) : Prop :=
  AtEach (fun op w => ∃ code w', op.call w = some (code, w') ∧ HonestCall op w code w') ops
    (start buf) ∧
  ∀ codes w', packAll ops (start buf) = some (codes, w') → (∀ code ∈ codes, code = .ok ()) →
    ReadsBack ops (w'.readFrom (start buf))

/-! ### Octets -/

theorem bitAt_copyTo {buf buf' bytes : Bytes} {ptr : Nat} (h : copyTo buf ptr bytes = some buf') :
    buf'.length = buf.length ∧ (∀ i, i < 8 * ptr → bitAt buf' i = bitAt buf i) ∧
      ∀ i < 8 * bytes.length, bitAt buf' (8 * ptr + i) = bitAt bytes i := by
  unfold copyTo at h
  split at h
  · next hle =>
    cases h
    refine ⟨?_, fun i hi => ?_, fun i hi => ?_⟩
    · simp only [List.length_append, List.length_take, List.length_drop]
      omega
    · have hget : (buf.take ptr ++ bytes ++ buf.drop (ptr + bytes.length)).getD (i / 8) 0
          = buf.getD (i / 8) 0 := by
        rw [List.getD_eq_getElem?_getD, List.getD_eq_getElem?_getD, List.append_assoc,
          List.getElem?_append_left (by rw [List.length_take]; omega),
          List.getElem?_take_of_lt (by omega)]
      unfold bitAt
      rw [hget]
    · have hdiv : (8 * ptr + i) / 8 = ptr + i / 8 := by omega
      have hmod : (8 * ptr + i) % 8 = i % 8 := by omega
      have hget : (buf.take ptr ++ bytes ++ buf.drop (ptr + bytes.length)).getD (ptr + i / 8) 0
          = bytes.getD (i / 8) 0 := by
        rw [List.getD_eq_getElem?_getD, List.getD_eq_getElem?_getD, List.append_assoc,
          List.getElem?_append_right (by rw [List.length_take]; omega), List.length_take,
          Nat.min_eq_left (by omega), Nat.add_sub_cancel_left,
          List.getElem?_append_left (by omega)]
      unfold bitAt
      rw [hdiv, hmod, hget]
  · exact nomatch h

/-- The bits of a list of octets, read. -/
theorem runs_unpackOctets {octets : Bytes} {r : BitRef} (hroom : r.HasRoom (8 * octets.length))
    (hbits : ∀ i < 8 * octets.length, r.bits (r.distance + i) = bitAt octets i) :
    (unpackOctets octets.length).Runs r octets (r.advance (8 * octets.length)) := by
  induction octets generalizing r with
  | nil =>
    rw [List.length_nil, Nat.mul_zero, advance_zero]
    exact runs_pure [] r
  | cons octet octets ih =>
    rw [List.length_cons] at hroom hbits ⊢
    have hoffset := r.offset_lt
    have hbyte := UInt8.toNat_lt octet
    have hfield : field r.bits r.distance 8 = octet.toNat := by
      rw [field_shift (g := bitAt (octet :: octets)) (q := 8 * 0 + 0)
        (fun i hi => by rw [hbits i (by omega), Nat.mul_zero, Nat.zero_add]),
        field_bitAt _ _ (by decide)]
      show octet.toNat / 1 % 2 ^ 8 = octet.toNat
      rw [Nat.div_one, Nat.mod_eq_of_lt hbyte]
    have hfirst := @BitRef.runs_unpack 8 8 r (by decide) (hroom.mono (by omega)) (by omega)
    rw [hfield, Nat.mod_eq_of_lt (by omega)] at hfirst
    have hrest := @ih (r.advance 8) (by
      unfold HasRoom at hroom ⊢
      rw [advance_distance, advance_buf]
      omega) (fun i hi => by
      have hbit := hbits (8 + i) (by omega)
      rw [advance_distance, Nat.add_assoc]
      show r.bits _ = _
      rw [hbit]
      unfold bitAt
      rw [show (8 + i) / 8 = i / 8 + 1 by omega, show (8 + i) % 8 = i % 8 by omega]
      rfl)
    rw [advance_advance, show 8 + 8 * octets.length = 8 * (octets.length + 1) by omega] at hrest
    refine hfirst.bind (hrest.bind ?_)
    rw [UInt8.ofNat_toNat]
    exact runs_pure _ _

/-- Bytes are read from where they were written. -/
theorem runs_bitRefUnpackBytes {bytes : Bytes} {r : BitRef}
    (hroom : bytes ≠ [] → r.HasRoom (8 * bytes.length))
    (hbits : ∀ i < 8 * bytes.length, r.bits (r.distance + i) = bitAt bytes i) :
    (bitRefUnpackBytes bytes.length).Runs r bytes (r.advance (8 * bytes.length)) := by
  by_cases hnil : bytes = []
  · subst hnil
    rw [List.length_nil, Nat.mul_zero, advance_zero]
    rfl
  have hroom := hroom hnil
  have hpos := List.length_pos_of_ne_nil hnil
  have hoffset := r.offset_lt
  have hend : 8 * r.ptr + r.offset + 8 * bytes.length ≤ 8 * r.buf.length := hroom
  unfold Runs bitRefUnpackBytes
  rw [if_neg (Nat.ne_of_gt hpos)]
  by_cases hzero : r.offset = 0
  · have hcopy : copyFrom r.buf r.ptr bytes.length = some bytes := by
      have hlen : ((r.buf.drop r.ptr).take bytes.length).length = bytes.length := by
        rw [List.length_take, List.length_drop]
        omega
      unfold copyFrom
      rw [if_pos (by omega), eq_of_bitAt hlen fun i hi => ?_]
      rw [hlen] at hi
      rw [← hbits i hi]
      have hget : ((r.buf.drop r.ptr).take bytes.length).getD (i / 8) 0
          = r.buf.getD (r.ptr + i / 8) 0 := by
        rw [List.getD_eq_getElem?_getD, List.getD_eq_getElem?_getD,
          List.getElem?_take_of_lt (by omega), List.getElem?_drop]
      have hdiv : (r.distance + i) / 8 = r.ptr + i / 8 := by unfold distance; omega
      have hmod : (r.distance + i) % 8 = i % 8 := by unfold distance; omega
      unfold bits bitAt
      rw [hget, hdiv, hmod]
    have hnext : (⟨r.buf, r.ptr + bytes.length, 0, by decide⟩ : BitRef)
        = r.advance (8 * bytes.length) := by
      refine distance_ext rfl ?_
      rw [distance_mk, advance_distance]
      unfold distance
      omega
    rw [if_pos hzero, if_neg (by omega), hcopy, ← hnext]
    rfl
  · rw [if_neg hzero, if_neg (by omega)]
    exact runs_unpackOctets hroom hbits

/-! ### One call -/

namespace PackOp

/-- What a call does. -/
structure Performs (op : PackOp) (w : BitRef) (code : Except SrsasnCode Unit) (w' : BitRef) :
    Prop where
  runs : op.call w = some (code, w')
  ok_iff : code = .ok () ↔ op.Fits w ∧ op.Clean w
  before : w.Extends w'
  distance_eq : code = .ok () → w'.distance = w.distance + op.bitLen w
  wrote : code = .ok () → op.Wrote w w'

/-- A call that fails has done nothing. -/
theorem Performs.of_fail {op : PackOp} {w : BitRef} {code : SrsasnCode}
    (hcall : op.call w = some (.error code, w)) (hfit : ¬ (op.Fits w ∧ op.Clean w)) :
    op.Performs w (.error code) w :=
  ⟨hcall, iff_of_false nofun hfit, Extends.refl w, nofun, nofun⟩

theorem performs_pack (val : UInt64) (nBits : Fin 65) (w : BitRef) :
    ∃ code w', (pack val nBits).Performs w code w' := by
  obtain ⟨n, hn⟩ := nBits
  by_cases hmax : n ≥ 64
  · obtain rfl : n = 64 := by omega
    have hcall : (pack val ⟨64, hn⟩).call w = some (.error .encodeFail, w) := rfl
    refine ⟨_, _, .of_fail hcall ?_⟩
    rintro ⟨hzero | hroom, hclean⟩
    · exact absurd hzero (show 64 ≠ 0 by decide)
    · exact hclean ⟨rfl, hroom⟩
  · have hcall : (pack val ⟨n, hn⟩).call w = some (packLoop n w val.toNat n) := if_neg hmax
    have hwritten : (packLoop n w val.toNat n).1 = .ok () →
        (n = 0 ∨ w.HasRoom n) ∧ w.Written (packLoop n w val.toNat n).2 val.toNat n := by
      intro hok
      have hrun : (BitRef.pack val.toNat n).Runs w () (packLoop n w val.toNat n).2 := by
        unfold Runs
        rw [← hok]
        exact hcall
      exact (of_runs_pack hrun).2
    refine ⟨_, _, hcall, ⟨fun hok => ?_, fun h => ?_⟩, packLoop_extends n w val.toNat n,
      fun hok => (hwritten hok).2.distance_eq, fun hok => (hwritten hok).2.value⟩
    · exact ⟨(hwritten hok).1, fun h => hmax (Nat.le_of_eq h.1.symm)⟩
    · rcases h.1 with hzero | hroom
      · obtain rfl : n = 0 := hzero
        rfl
      · obtain ⟨w', hrun, -⟩ := @packLoop_spec n w val.toNat n (Nat.le_refl n) hroom
        rw [hrun]

theorem performs_packBytes (bytes : Bytes) (w : BitRef) :
    ∃ code w', (packBytes bytes).Performs w code w' := by
  have hoffset := w.offset_lt
  by_cases hnil : bytes = []
  · subst hnil
    exact ⟨.ok (), w, rfl, iff_of_true rfl ⟨.inl rfl, fun h => h.1 rfl⟩, Extends.refl w,
      fun _ => rfl, fun _ i hi => absurd hi (Nat.not_lt_zero i)⟩
  have hpos := List.length_pos_of_ne_nil hnil
  have hcall : (packBytes bytes).call w = bitRefPackBytes bytes w := rfl
  unfold bitRefPackBytes at hcall
  rw [if_neg (Nat.ne_of_gt hpos)] at hcall
  by_cases hend : w.ptr + bytes.length ≥ w.buf.length
  · rw [if_pos hend] at hcall
    refine ⟨_, _, .of_fail hcall ?_⟩
    rintro ⟨hzero | hroom, hclean⟩
    · have hzero' : 8 * bytes.length = 0 := hzero
      omega
    · have hroom' : 8 * w.ptr + w.offset + 8 * bytes.length ≤ 8 * w.buf.length := hroom
      exact hclean ⟨hnil, by omega, by omega⟩
  rw [if_neg hend] at hcall
  have hroom : w.HasRoom (8 * bytes.length) := by
    unfold HasRoom distance
    omega
  have hfits : (packBytes bytes).Fits w ∧ (packBytes bytes).Clean w :=
    ⟨.inr hroom, fun h => hend (Nat.le_of_eq h.2.2.symm)⟩
  by_cases hzero : w.offset = 0
  · rw [if_pos hzero] at hcall
    obtain ⟨buf, hcopy⟩ : ∃ buf, copyTo w.buf w.ptr bytes = some buf :=
      ⟨_, if_pos (by omega)⟩
    rw [hcopy] at hcall
    obtain ⟨hlen, hbefore, hbits⟩ := bitAt_copyTo hcopy
    have hdist : w.distance = 8 * w.ptr := by unfold distance; omega
    have hdist' : 8 * (w.ptr + bytes.length) + 0 = w.distance + 8 * bytes.length := by omega
    refine ⟨_, _, hcall, iff_of_true rfl hfits, ⟨hlen, ?_, ?_⟩, fun _ => hdist', ?_⟩
    · show w.distance ≤ 8 * (w.ptr + bytes.length) + 0
      omega
    · exact fun i hi => hbefore i (by omega)
    · intro _ i hi
      rw [hdist]
      exact hbits i hi
  · rw [if_neg hzero] at hcall
    obtain ⟨w', hrun, hext, hdist, hbits⟩ := packBytes_spec bytes hroom
    exact ⟨.ok (), w', hcall.trans hrun, iff_of_true rfl hfits, hext, fun _ => hdist,
      fun _ => hbits⟩

theorem performs_alignBytesZero (w : BitRef) : ∃ code w', alignBytesZero.Performs w code w' := by
  have hoffset := w.offset_lt
  by_cases hroom : w.HasRoom 1 ∨ w.offset = 0
  · obtain ⟨w', hrun, hext, hdist, hbits⟩ := runs_alignBytesZero hroom
    refine ⟨.ok (), w', hrun, iff_of_true rfl ⟨?_, trivial⟩, hext, fun _ => ?_, fun _ => hbits⟩
    · show alignUp w.distance - w.distance = 0 ∨ w.distance + (alignUp w.distance - w.distance)
        ≤ 8 * w.buf.length
      unfold HasRoom distance at hroom
      unfold alignUp distance
      omega
    · show w'.distance = w.distance + (alignUp w.distance - w.distance)
      rw [hdist]
      unfold alignUp
      omega
  · have hoff : w.offset ≠ 0 := fun h => hroom (.inr h)
    have hptr : w.buf.length ≤ w.ptr := by
      by_contra hlt
      refine hroom (.inl ?_)
      unfold HasRoom distance
      omega
    have hcall : alignBytesZero.call w = some (.error .encodeFail, w) := by
      show BitRef.alignBytesZero w = _
      unfold BitRef.alignBytesZero
      rw [if_neg hoff, List.getElem?_eq_none hptr]
    refine ⟨_, _, .of_fail hcall ?_⟩
    rintro ⟨hfits, -⟩
    have hfits' : alignUp w.distance - w.distance = 0 ∨
        w.distance + (alignUp w.distance - w.distance) ≤ 8 * w.buf.length := hfits
    unfold alignUp distance at hfits'
    omega

/-- Every call is defined, and fails when its bits do not fit or it is one of the two. -/
theorem performs (op : PackOp) (w : BitRef) : ∃ code w', op.Performs w code w' := by
  cases op with
  | pack val nBits => exact performs_pack val nBits w
  | packBytes bytes => exact performs_packBytes bytes w
  | alignBytesZero => exact performs_alignBytesZero w

/-- One of the two calls has room. -/
theorem fits_of_not_clean {op : PackOp} {w : BitRef} (h : ¬ op.Clean w) : op.Fits w := by
  refine .inr ?_
  cases op with
  | pack val nBits =>
    obtain ⟨hmax, hroom⟩ := not_not.mp h
    show w.HasRoom nBits.val
    rw [hmax]
    exact hroom
  | packBytes bytes =>
    obtain ⟨-, hzero, hend⟩ := not_not.mp h
    show 8 * w.ptr + w.offset + 8 * bytes.length ≤ 8 * w.buf.length
    omega
  | alignBytesZero => exact absurd trivial h

/-- A call is honest exactly when it is none of the two. -/
theorem Performs.honest_iff {op : PackOp} {w w' : BitRef} {code : Except SrsasnCode Unit}
    (h : op.Performs w code w') : HonestCall op w code w' ↔ op.Clean w := by
  constructor
  · intro honest
    by_contra hclean
    have hok := honest.ok_iff.mpr (fits_of_not_clean hclean)
    exact hclean (h.ok_iff.mp hok).2
  · intro hclean
    exact ⟨h.ok_iff.trans (and_iff_left hclean), h.before, h.distance_eq, h.wrote⟩

/-- A field comes back exactly when the reader can shift it. -/
theorem Performs.readBack_pack_iff {val : UInt64} {nBits : Fin 65} {w w₁ w' r' : BitRef}
    (h : (PackOp.pack val nBits).Performs w (.ok ()) w₁) (hext : w₁.Extends w') :
    (PackOp.pack val nBits).ReadBack (w'.readFrom w) r' ↔
      (PackOp.pack val nBits).Readable w ∧ r' = w'.readFrom w₁ := by
  obtain ⟨n, hn⟩ := nBits
  obtain ⟨-, hroom, hwritten⟩ := of_runs_pack h.runs
  have hwidth : 64 ∈ [8, 16, 32, 64] ∧ n ≤ 64 := ⟨by decide, Nat.le_of_lt_succ hn⟩
  rcases Nat.eq_zero_or_pos n with rfl | hpos
  · have hstay : w'.readFrom w = w'.readFrom w₁ := by
      obtain ⟨-, rfl⟩ := Prod.mk.inj (Option.some.inj h.runs)
      rfl
    have hread : ∀ width, (unpack width 0).Runs (w'.readFrom w) 0 (w'.readFrom w) :=
      fun width => rfl
    constructor
    · intro hback
      obtain ⟨-, rfl⟩ := (hback 64 hwidth.1 hwidth.2).unique (hread 64)
      exact ⟨.inl rfl, hstay⟩
    · rintro ⟨-, rfl⟩ width _ _
      rw [← hstay]
      show (unpack width 0).Runs _ (val.toNat % 2 ^ 0) _
      rw [Nat.pow_zero, Nat.mod_one]
      exact hread width
  · have hroom := hroom.resolve_left (Nat.ne_of_gt hpos)
    constructor
    · intro hback
      have hrun := hback 64 hwidth.1 hwidth.2
      obtain ⟨-, -, hshift, -, -⟩ := of_runs_unpack hrun hpos
      obtain ⟨hvalue, rfl⟩ := hrun.unique (hwritten.runs_unpack hext hroom hwidth.2 hshift)
      refine ⟨.inr ⟨hshift, ?_⟩, rfl⟩
      show val.toNat % 2 ^ n < 2 ^ 32
      have hlt := Nat.mod_lt (val.toNat % 2 ^ n) (Nat.two_pow_pos 32)
      rw [← hvalue] at hlt
      exact hlt
    · rintro ⟨hzero | ⟨hshift, hvalue⟩, rfl⟩ width _ hle
      · exact absurd hzero (Nat.ne_of_gt hpos)
      · have hread := hwritten.runs_unpack hext hroom hle hshift
        rw [Nat.mod_eq_of_lt hvalue] at hread
        exact hread

/-- Bytes come back. -/
theorem Performs.runs_unpackBytes {bytes : Bytes} {w w₁ w' : BitRef}
    (h : (PackOp.packBytes bytes).Performs w (.ok ()) w₁) (hext : w₁.Extends w') :
    (bitRefUnpackBytes bytes.length).Runs (w'.readFrom w) bytes (w'.readFrom w₁) := by
  have hdist : w₁.distance = w.distance + 8 * bytes.length := h.distance_eq rfl
  have hfits : 8 * bytes.length = 0 ∨ w.HasRoom (8 * bytes.length) := (h.ok_iff.mp rfl).1
  rw [← readFrom_advance hdist]
  refine runs_bitRefUnpackBytes (fun hnil => ?_) fun i hi => ?_
  · have hpos := List.length_pos_of_ne_nil hnil
    exact (hfits.resolve_left (by omega)).readFrom (h.before.trans hext)
  · show w'.bits (w.distance + i) = _
    rw [hext.before _ (by omega)]
    exact h.wrote rfl i hi

/-- The reader aligns where the writer did. -/
theorem Performs.runs_alignBytes {w w₁ w' : BitRef}
    (h : PackOp.alignBytesZero.Performs w (.ok ()) w₁) (hext : w₁.Extends w') :
    alignBytes.Runs (w'.readFrom w) () (w'.readFrom w₁) := by
  have hdist : w₁.distance = w.distance + (alignUp w.distance - w.distance) := h.distance_eq rfl
  have hfits : alignUp w.distance - w.distance = 0 ∨
      w.distance + (alignUp w.distance - w.distance) ≤ 8 * w.buf.length := (h.ok_iff.mp rfl).1
  refine readFrom_runs_alignBytes ?_ (h.before.trans hext) ?_
  · rw [hdist]
    unfold alignUp
    omega
  · have hoffset := w.offset_lt
    unfold alignUp distance at hfits
    unfold HasRoom distance
    omega

/-- What was written comes back exactly when the reader can shift it. -/
theorem Performs.readBack_iff {op : PackOp} {w w₁ w' r' : BitRef}
    (h : op.Performs w (.ok ()) w₁) (hext : w₁.Extends w') :
    op.ReadBack (w'.readFrom w) r' ↔ op.Readable w ∧ r' = w'.readFrom w₁ := by
  cases op with
  | pack val nBits => exact h.readBack_pack_iff hext
  | packBytes bytes =>
    have hread := h.runs_unpackBytes hext
    exact ⟨fun hback => ⟨trivial, (hback.unique hread).2⟩, fun ⟨_, heq⟩ => heq ▸ hread⟩
  | alignBytesZero =>
    have hread := h.runs_alignBytes hext
    exact ⟨fun hback => ⟨trivial, (hback.unique hread).2⟩, fun ⟨_, heq⟩ => heq ▸ hread⟩

end PackOp

/-! ### Sequences -/

/-- Each call of a sequence is honest exactly when each is none of the two. -/
theorem honest_iff_clean (ops : List PackOp) (w : BitRef) :
    AtEach (fun op w => ∃ code w', op.call w = some (code, w') ∧ HonestCall op w code w') ops w ↔
      AtEach (fun op w => op.Clean w) ops w := by
  induction ops generalizing w with
  | nil => exact Iff.rfl
  | cons op ops ih =>
    obtain ⟨code, w', hperforms⟩ := op.performs w
    refine and_congr ⟨?_, fun hclean => ?_⟩
      (forall_congr' fun _ => forall_congr' fun w₁ => imp_congr_right fun _ => ih w₁)
    · rintro ⟨code₁, w₁, hcall, honest⟩
      obtain ⟨rfl, rfl⟩ := Prod.mk.inj (Option.some.inj (hperforms.runs.symm.trans hcall))
      exact hperforms.honest_iff.mp honest
    · exact ⟨code, w', hperforms.runs, hperforms.honest_iff.mpr hclean⟩

/-- The first call of a sequence, and the rest. -/
theorem packAll_cons {op : PackOp} {ops : List PackOp} {w w₁ : BitRef}
    {code : Except SrsasnCode Unit} (hcall : op.call w = some (code, w₁)) :
    packAll (op :: ops) w
      = (packAll ops w₁).map fun p => (code :: p.1, p.2) := by
  rw [packAll, hcall]
  cases hrest : packAll ops w₁ <;> simp only [Option.bind_eq_bind, Option.bind, hrest] <;> rfl

/-- A sequence is defined. It succeeds exactly when all bits fit and no call is one of the two, and
then everything is read back exactly when the reader can shift it. -/
theorem packAll_spec (ops : List PackOp) (w : BitRef) :
    ∃ codes w', packAll ops w = some (codes, w') ∧ w.Extends w' ∧
      ((∀ code ∈ codes, code = .ok ()) ↔
        AtEach (fun op w => op.Fits w ∧ op.Clean w) ops w) ∧
      ((∀ code ∈ codes, code = .ok ()) → ∀ v, w'.Extends v →
        (ReadsBack ops (v.readFrom w) ↔ AtEach (fun op w => op.Readable w) ops w)) := by
  induction ops generalizing w with
  | nil =>
    exact ⟨[], w, rfl, Extends.refl w, iff_of_true nofun trivial, fun _ v _ => Iff.rfl⟩
  | cons op ops ih =>
    obtain ⟨code, w₁, hop⟩ := op.performs w
    obtain ⟨codes, w', hrun, hext, hok, hread⟩ := ih w₁
    have hrest : ∀ P : PackOp → BitRef → Prop,
        (∀ code w', op.call w = some (code, w') → AtEach P ops w') ↔ AtEach P ops w₁ := by
      refine fun P => ⟨fun h => h code w₁ hop.runs, fun h code' w' hcall => ?_⟩
      obtain ⟨-, rfl⟩ := Prod.mk.inj (Option.some.inj (hop.runs.symm.trans hcall))
      exact h
    refine ⟨code :: codes, w', by rw [packAll_cons hop.runs, hrun]; rfl, hop.before.trans hext,
      ?_, fun hall v hv => ?_⟩
    · rw [List.forall_mem_cons, hok, hop.ok_iff]
      exact and_congr Iff.rfl (hrest _).symm
    · rw [List.forall_mem_cons] at hall
      obtain ⟨rfl, hcodes⟩ := hall
      have hback := hread hcodes v hv
      constructor
      · rintro ⟨r', hfirst, hothers⟩
        obtain ⟨hreadable, rfl⟩ := (hop.readBack_iff (hext.trans hv)).mp hfirst
        exact ⟨hreadable, (hrest _).mpr (hback.mp hothers)⟩
      · rintro ⟨hreadable, hothers⟩
        exact ⟨_, (hop.readBack_iff (hext.trans hv)).mpr ⟨hreadable, rfl⟩,
          hback.mpr ((hrest _).mp hothers)⟩

theorem atEach_and (P Q : PackOp → BitRef → Prop) (ops : List PackOp) (w : BitRef) :
    AtEach (fun op w => P op w ∧ Q op w) ops w ↔ AtEach P ops w ∧ AtEach Q ops w := by
  induction ops generalizing w with
  | nil => exact (and_self_iff).symm
  | cons op ops ih =>
    constructor
    · rintro ⟨⟨hP, hQ⟩, hrest⟩
      exact ⟨⟨hP, fun code w' hcall => ((ih w').mp (hrest code w' hcall)).1⟩,
        hQ, fun code w' hcall => ((ih w').mp (hrest code w' hcall)).2⟩
    · rintro ⟨⟨hP, hPs⟩, hQ, hQs⟩
      exact ⟨⟨hP, hQ⟩, fun code w' hcall => (ih w').mpr ⟨hPs code w' hcall, hQs code w' hcall⟩⟩

/-- A sequence of calls is honest and comes back exactly when no call is one of the two, and, where
all bits fit, the reader can shift them. -/
theorem packRoundTrips_iff_clean (buf : Bytes) (ops : List PackOp) :
    PackRoundTrips buf ops ↔
      AtEach (fun op w => op.Clean w) ops (start buf) ∧
        (AtEach (fun op w => op.Fits w) ops (start buf) →
          AtEach (fun op w => op.Readable w) ops (start buf)) := by
  unfold PackRoundTrips
  rw [honest_iff_clean]
  refine and_congr_right fun hclean => ?_
  obtain ⟨codes, w', hrun, hext, hok, hread⟩ := packAll_spec ops (start buf)
  rw [atEach_and, and_iff_left hclean] at hok
  constructor
  · intro hback hfits
    have hcodes := hok.mpr hfits
    exact (hread hcodes w' (Extends.refl w')).mp (hback codes w' hrun hcodes)
  · intro hreadable codes' w'' hrun' hcodes
    obtain ⟨rfl, rfl⟩ := Prod.mk.inj (Option.some.inj (hrun.symm.trans hrun'))
    exact (hread hcodes w' (Extends.refl w')).mpr (hreadable (hok.mp hcodes))

/-- One byte fits in a buffer of one byte, and `pack_bytes` fails. -/
theorem not_packRoundTrips_lastByte : ¬ PackRoundTrips [0] [.packBytes [1]] := by
  rintro ⟨⟨⟨code, w', hcall, honest⟩, -⟩, -⟩
  obtain ⟨rfl, rfl⟩ := Prod.mk.inj (Option.some.inj hcall)
  exact nomatch honest.ok_iff.mpr (.inr (Nat.le_refl 8))

end Odss.Asn1
