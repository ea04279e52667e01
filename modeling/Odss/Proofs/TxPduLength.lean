import Odss.Mac.TxPdu
import Odss.Lib.Run

/-!
# `Odss.Proofs.TxPduLength`: the length of MAC PDUs that are written

A `Ledger` follows the insertions on its own: what `write_packet` counts in front of the SDUs, the
bytes of the SDUs, the last SDU for which space was taken, and the `excess`, the bytes that are
counted without being taken from `rem_len`.

* `Kept` relates the ledger to the PDU, and `kept_step` is its step lemma. `NoWrap` of a step is
  what it needs, and `noWrap_iff` says when it holds.
* `length_writePacket` is the number of bytes that `write_packet` arrives at.
-/

set_option linter.all false

namespace Odss.Mac.TxPdu

open Odss.Rlc Odss.Lib

variable {t : SubhType}

/-! ### The ledger -/

/-- The bytes in front of the SDUs that a subheader with another one behind it stands for. -/
def frontSize (t : SubhType) (s : TxSubh) : Nat :=
  s.headerSize t false + if s.isSdu t then 0 else s.nofBytes

/-- What has been put in. -/
structure Ledger where
  front : Nat
  bytes : Nat
  last : Option TxSubh
  excess : Int

namespace Ledger

def empty : Ledger := ⟨0, 0, none, 0⟩

/-- The length field of the last SDU, which is missing as long as it is the last one. -/
def growth (t : SubhType) (g : Ledger) : Int :=
  match g.last with
  | none => 0
  | some s => s.headerSize t false - 1

/-- The length field for which `update_space_sdu` takes space when another SDU follows. -/
def sduGrowth (g : Ledger) : Int :=
  match g.last with
  | none => 0
  | some s => sizeHeaderSdu s.nofBytes - 1

/-- A CE with a header of its own. -/
def addCe (g : Ledger) (n : Nat) : Ledger := { g with front := g.front + n }

/-- An SDU. When no space is taken for it, all of it is counted in excess. Otherwise only what is
counted like a CE because of its LCID is, and what differs in the header of the SDU before. -/
def addSdu (t : SubhType) (g : Ledger) (s : TxSubh) (takes : Bool) : Ledger where
  front := g.front + frontSize t s
  bytes := g.bytes + s.nofBytes
  last := if takes then some s else g.last
  excess := g.excess +
    if takes then (if s.isSdu t then 0 else (s.nofBytes : Int)) + (g.growth t - g.sduGrowth)
    else (frontSize t s : Int) + s.nofBytes

/-- `set_sdu` takes space for an SDU that fits twice into the rest of the buffer. -/
def takes (g : Ledger) (n : Nat) : Bool := decide (g.bytes + 2 * n ≤ bufferTailroom)

/-- An insertion. Another entry of the scheduling information is charged with a header, which it
does not have. -/
def step (g : Ledger) (op : TxOp t) : Ledger :=
  match op with
  | .setSdu lcid sdu => g.addSdu t ⟨lcid, sdu.length, [], 0⟩ (g.takes sdu.length)
  | .readSdu lcid _ sdu => g.addSdu t ⟨lcid, sdu.length, [], 0⟩ true
  | .setCRnti _ => g.addCe 3
  | .setBsr _ format => g.addCe (if format = .long then 4 else 2)
  | .setConResId _ => g.addCe 7
  | .setTaCmd _ => g.addCe 2
  | .setPhr _ => g.addCe 2
  | .setScellActivationCmd _ => g.addCe 2
  | .setMchSchedInfo _ _ => g.addCe 4
  | .nextMchSchedInfo _ _ => { g.addCe 2 with excess := g.excess - 2 }

end Ledger

/-- The ledger of some insertions. -/
def ledger (ops : List (TxOp t)) : Ledger := exec Ledger.step .empty ops

/-! ### 32 bits -/

theorem sizeHeaderSdu_le (n : Nat) : sizeHeaderSdu n ≤ 3 := by
  unfold sizeHeaderSdu
  split_ifs <;> omega

theorem headerSize_le (t : SubhType) (s : TxSubh) (isLast : Bool) : s.headerSize t isLast ≤ 3 := by
  have h := sizeHeaderSdu_le s.nofBytes
  unfold TxSubh.headerSize
  split_ifs <;> omega

theorem subU32_of_le {a b : Nat} (h : b ≤ a) : subU32 a b = a - b := if_pos h

theorem subU32_lt {a b : Nat} (ha : a < 2 ^ 32) : subU32 a b < 2 ^ 32 := by
  unfold subU32
  split <;> omega

/-- A subtraction does not go below zero exactly when the number does not grow. -/
theorem le_iff_subU32_le {a b : Nat} (hb : b < 2 ^ 32) : b ≤ a ↔ subU32 a b ≤ a := by
  unfold subU32
  split
  · exact ⟨fun _ => by omega, fun _ => by assumption⟩
  · exact ⟨fun h => absurd h (by assumption), fun h => by omega⟩

/-- A number that has been found to be left is taken, unless it is zero and the header that another
SDU gets is not left. -/
theorem space_le_iff {rem n c : Nat} (hrem : 2 ≤ rem) (hlt : rem < 2 ^ 32)
    (hn : n ≤ bufferTailroom) (hc : c ≤ 2 ∨ c = 2 ^ 32 - 1)
    (hleft : n ≤ if subU32 (subU32 rem c) 1 < 2 ^ 31 then subU32 (subU32 rem c) 1 else 0) :
    (n + 1 + c) % 2 ^ 32 ≤ rem ↔ (n = 0 → rem = 2 → c ≠ 2) := by
  have hn : n ≤ 12237 := hn
  unfold subU32 at hleft
  rcases hc with hc | rfl
  · rw [Nat.mod_eq_of_lt (by omega)]
    split_ifs at hleft <;> omega
  · split_ifs at hleft <;> omega

theorem lastSduGrowth_cases (p : TxPdu) : p.lastSduGrowth ≤ 2 ∨ p.lastSduGrowth = 2 ^ 32 - 1 := by
  unfold lastSduGrowth sizeHeaderSdu subU32
  split
  · omega
  · split_ifs <;> omega

/-- The header of an SDU gets two bytes when it is long. -/
theorem lastSduGrowth_ne_two_iff (p : TxPdu) :
    p.lastSduGrowth ≠ 2 ↔ ∀ s, p.lastSdu = some s → s.nofBytes < 128 := by
  unfold lastSduGrowth
  cases hlast : p.lastSdu with
  | none => exact ⟨nofun, fun _ => by decide⟩
  | some s =>
    simp only [Option.some.injEq, forall_eq', sizeHeaderSdu, subU32]
    split_ifs <;> omega

/-! ### The ledger and the PDU -/

/-- The PDU has what the ledger says. -/
structure Kept (t : SubhType) (pduLen : Nat) (g : Ledger) (p : TxPdu) : Prop where
  len : p.pduLen = pduLen
  front : (p.subheaders.map (frontSize t)).sum = g.front
  bytes : p.sdus.length = g.bytes
  last : p.lastSdu = g.last
  last_lt : ∀ i, p.lastSduIdx = some i → ∃ s, p.subheaders[i]? = some s ∧ s.nofMchSchedCe = 0
  entries : ∀ s ∈ p.subheaders, 0 < s.nofMchSchedCe → s.nofBytes = 2 * s.nofMchSchedCe ∧ s.lcid = 30
  bytes_le : p.sdus.length ≤ bufferTailroom
  rem_lt : p.remLen < 2 ^ 32
  rem : (p.remLen : Int) + g.front + g.bytes - g.growth t = pduLen + g.excess

theorem kept_initTx {maxSubheaders pduLen : Nat} {isUl : Bool} (h : pduLen < 2 ^ 32) :
    Kept t pduLen .empty (initTx maxSubheaders pduLen isUl) where
  len := rfl
  front := rfl
  bytes := rfl
  last := rfl
  last_lt := nofun
  entries := nofun
  bytes_le := Nat.zero_le _
  rem_lt := h
  rem := by simp [initTx, Ledger.empty, Ledger.growth]

/-- `rem_len` does not go below zero: it does not grow. -/
def NoWrap (p : TxPdu) (op : TxOp t) : Prop :=
  ∀ p' u, p.step op = some (p', u) → p'.remLen ≤ p.remLen

/-- An empty SDU is not put in behind a long one when two bytes are left. -/
def Fits (p : TxPdu) (op : TxOp t) : Prop :=
  match op with
  | .setSdu _ sdu => sdu = [] → p.remLen = 2 → ∀ s, p.lastSdu = some s → s.nofBytes < 128
  | _ => True

/-! ### The subheaders that are put in -/

section Insert

variable {p p' : TxPdu}

theorem lastSdu_append (ss : List TxSubh)
    (h : ∀ i, p.lastSduIdx = some i → ∃ s, p.subheaders[i]? = some s ∧ s.nofMchSchedCe = 0) :
    lastSdu { p with subheaders := p.subheaders ++ ss } = p.lastSdu := by
  unfold lastSdu
  cases hlast : p.lastSduIdx with
  | none => rfl
  | some i =>
    obtain ⟨s, hs, -⟩ := h i hlast
    have hlt := (List.getElem?_eq_some_iff.mp hs).1
    simp only [Option.bind_some, List.getElem?_append_left hlt]

theorem newSubh_bind {f : TxPdu → Option TxPdu} (h : p.newSubh.bind f = some p') :
    2 ≤ p.remLen ∧ f { p with subheaders := p.subheaders ++ [.init] } = some p' := by
  obtain ⟨p'', hnew, hf⟩ := Option.bind_eq_some_iff.mp h
  unfold newSubh at hnew
  split at hnew
  · next hroom =>
    cases hnew
    exact ⟨hroom.2, hf⟩
  · cases hnew

theorem newSubh_setCe {lcid : Nat} {payload : Bytes}
    (h : p.newSubh.bind (·.setCe lcid payload) = some p') :
    payload.length + 1 ≤ p.remLen ∧ p' = { p with
      subheaders := p.subheaders ++ [⟨lcid, payload.length, payload, 0⟩]
      remLen := p.remLen - (payload.length + 1) } := by
  obtain ⟨-, h⟩ := newSubh_bind h
  unfold setCe at h
  split at h
  · next hspace =>
    have hle : payload.length + 1 ≤ p.remLen := of_decide_eq_true hspace
    have hspace' : (setCurrent { p with subheaders := p.subheaders ++ [.init] }
        ⟨lcid, payload.length, payload, 0⟩).hasSpaceCe payload.length false = true := hspace
    rw [updateSpaceCe, if_pos hspace'] at h
    refine ⟨hle, ?_⟩
    rw [← Option.some.inj h]
    simp [setCurrent, headLen, subU32_of_le hle]
  · cases h

/-- An entry of the scheduling information, in the CE of the current subheader. -/
theorem setNextMchSchedInfo_eq_some {ss : List TxSubh} {s : TxSubh} {lcid : UInt8}
    {mtchStop : UInt16} (hss : p.subheaders = ss ++ [s])
    (h : p.setNextMchSchedInfo lcid mtchStop = some p') :
    4 ≤ p.remLen ∧ s.nofMchSchedCe < 32 ∧ p' = { p with
      subheaders := ss ++ [⟨mchSchedInfo, s.nofBytes + 2,
        s.wPayloadCe ++ schedInfoEntry lcid mtchStop, s.nofMchSchedCe + 1⟩]
      remLen := p.remLen - 4 } := by
  unfold setNextMchSchedInfo at h
  rw [hss, List.getLast?_concat, Option.bind_some] at h
  split at h
  · next hcond =>
    have hle : 4 ≤ p.remLen := of_decide_eq_true hcond.1
    have hspace : (setCurrent p ⟨mchSchedInfo, s.nofBytes + 2,
        s.wPayloadCe ++ schedInfoEntry lcid mtchStop, s.nofMchSchedCe + 1⟩).hasSpaceCe 2 false
          = true :=
      decide_eq_true (show p.remLen ≥ 3 by omega)
    rw [updateSpaceCe, if_pos hspace] at h
    refine ⟨hle, hcond.2, ?_⟩
    rw [← Option.some.inj h]
    have hsub : subU32 p.remLen 4 = p.remLen - 4 := subU32_of_le hle
    simp [setCurrent, headLen, sizeHeaderSdu, hss, hsub]
  · cases h

/-- The space that `update_space_sdu` takes. -/
def sduSpace (p : TxPdu) (n : Nat) : Nat := (n + 1 + p.lastSduGrowth) % 2 ^ 32

/-- The PDU with an SDU for which space has been taken. -/
def withSdu (p : TxPdu) (lcid : Nat) (sdu : Bytes) : TxPdu :=
  { p with
    subheaders := p.subheaders ++ [⟨lcid, sdu.length, [], 0⟩]
    remLen := subU32 p.remLen (p.sduSpace sdu.length)
    lastSduIdx := some p.subheaders.length
    sdus := p.sdus ++ sdu }

/-- The PDU with an SDU for which no space has been taken. -/
def withUncharged (p : TxPdu) (lcid : Nat) (sdu : Bytes) : TxPdu :=
  { p with
    subheaders := p.subheaders ++ [⟨lcid, sdu.length, [], 0⟩]
    sdus := p.sdus ++ sdu }

theorem hasSpaceSdu_of_le {n n' : Nat} (hle : n ≤ n') (h : p.hasSpaceSdu n' = true) :
    p.hasSpaceSdu n = true :=
  decide_eq_true (Nat.le_trans hle (of_decide_eq_true h))

section Sdu

variable (hlast : ∀ i, p.lastSduIdx = some i →
  ∃ s, p.subheaders[i]? = some s ∧ s.nofMchSchedCe = 0)

include hlast

theorem hasSpaceSdu_append {ss : List TxSubh} {n : Nat} :
    hasSpaceSdu { p with subheaders := p.subheaders ++ ss } n = p.hasSpaceSdu n := by
  unfold hasSpaceSdu getSduSpace lastSduGrowth
  rw [lastSdu_append ss hlast]
  rfl

theorem newSubh_setSdu {lcid : Nat} {sdu : Bytes}
    (h : p.newSubh.bind (·.setSdu lcid sdu) = some p') :
    2 ≤ p.remLen ∧ p.hasSpaceSdu sdu.length = true ∧
      p' = if p.sdus.length + 2 * sdu.length ≤ bufferTailroom ∨ sdu = [] then p.withSdu lcid sdu
        else p.withUncharged lcid sdu := by
  obtain ⟨hrem, h⟩ := newSubh_bind h
  unfold setSdu at h
  rw [hasSpaceSdu_append hlast] at h
  split at h
  · next hspace =>
    refine ⟨hrem, hspace, ?_⟩
    have hgrow : lastSduGrowth { p with
        subheaders := p.subheaders ++ [.init], sdus := p.sdus ++ sdu } = p.lastSduGrowth := by
      unfold lastSduGrowth
      rw [← lastSdu_append [.init] hlast]
      rfl
    -- The space is checked again when the SDU is in the buffer already.
    have hagain : hasSpaceSdu { p with
          subheaders := p.subheaders ++ [.init], sdus := p.sdus ++ sdu } sdu.length = true ↔
        p.sdus.length + 2 * sdu.length ≤ bufferTailroom ∨ sdu = [] := by
      have hle : sdu.length ≤ min _ p.tailroom := of_decide_eq_true hspace
      rw [Nat.le_min] at hle
      obtain ⟨hfirst, htail⟩ := hle
      have htail : sdu.length ≤ bufferTailroom - p.sdus.length := htail
      unfold hasSpaceSdu getSduSpace
      rw [hgrow, decide_eq_true_iff, ge_iff_le, Nat.le_min, and_iff_right hfirst]
      show sdu.length ≤ bufferTailroom - (p.sdus ++ sdu).length ↔ _
      rw [List.length_append, ← List.length_eq_zero_iff]
      omega
    rw [← Option.some.inj h]
    unfold updateSpaceSdu
    by_cases htakes : p.sdus.length + 2 * sdu.length ≤ bufferTailroom ∨ sdu = []
    · rw [if_pos (hagain.mpr htakes), if_pos htakes, hgrow]
      simp [setCurrent, withSdu, sduSpace]
    · rw [if_neg (htakes ∘ hagain.mp), if_neg htakes]
      simp [setCurrent, withUncharged]
  · cases h

theorem newSubh_readSdu {lcid requestedBytes : Nat} {sdu : Bytes}
    (h : p.newSubh.bind (·.readSdu lcid requestedBytes sdu) = some p') :
    sdu ≠ [] ∧ p.hasSpaceSdu sdu.length = true ∧ p' = p.withSdu lcid sdu := by
  obtain ⟨-, h⟩ := newSubh_bind h
  unfold readSdu at h
  rw [hasSpaceSdu_append hlast] at h
  split at h
  · next hcond =>
    simp only [Bool.and_eq_true, Bool.not_eq_true', List.isEmpty_eq_false_iff,
      decide_eq_true_iff] at hcond
    obtain ⟨⟨hspace, hne⟩, hle⟩ := hcond
    have hspace := hasSpaceSdu_of_le hle hspace
    refine ⟨hne, hspace, ?_⟩
    rw [← Option.some.inj h]
    unfold updateSpaceSdu
    rw [hasSpaceSdu_append hlast, if_pos hspace]
    simp [setCurrent, withSdu, sduSpace, lastSduGrowth, lastSdu_append [TxSubh.init] hlast]
  · cases h

end Sdu

end Insert

/-! ### The step lemma -/

theorem frontSize_mchSchedInfo {s : TxSubh} (hlcid : s.lcid = mchSchedInfo) (hpos : 0 < s.nofBytes)
    (hlt : s.nofBytes < 128) : frontSize .mch s = s.nofBytes + 2 := by
  have hsdu : s.isSdu .mch = false := by
    rw [TxSubh.isSdu, hlcid]
    rfl
  have hvar : s.isVarLenCe .mch = true := decide_eq_true ⟨rfl, hlcid⟩
  rw [frontSize, TxSubh.headerSize, hsdu, hvar, if_neg Bool.false_ne_true, Bool.or_true, if_pos rfl,
    if_neg Bool.false_ne_true, sizeHeaderSdu, if_neg (Nat.ne_of_gt hpos), if_pos hlt, Nat.add_comm]

section Step

variable {pduLen : Nat} {g : Ledger} {p p' : TxPdu} (hk : Kept t pduLen g p)

include hk

theorem Kept.lastSduGrowth_eq :
    p.lastSduGrowth = match g.last with
      | none => 0
      | some s => subU32 (sizeHeaderSdu s.nofBytes) 1 := by
  have hlast := hk.last
  cases hg : g.last with
  | none => rw [lastSduGrowth, hlast.trans hg]
  | some s => rw [lastSduGrowth, hlast.trans hg]

/-- The space of an SDU, as a number that may be negative in parts. -/
theorem Kept.sduSpace_eq {n : Nat} (hn : n ≤ bufferTailroom) :
    (p.sduSpace n : Int) = n + 1 + g.sduGrowth := by
  have hn : n ≤ 12237 := hn
  unfold sduSpace Ledger.sduGrowth
  rw [hk.lastSduGrowth_eq]
  cases g.last with
  | none => simp only; omega
  | some s =>
    have hle := sizeHeaderSdu_le s.nofBytes
    simp only
    unfold subU32
    split <;> omega

theorem Kept.last_lt_append (s : TxSubh) (i : Nat) (hi : p.lastSduIdx = some i) :
    ∃ s', (p.subheaders ++ [s])[i]? = some s' ∧ s'.nofMchSchedCe = 0 := by
  obtain ⟨s', hs', hnof⟩ := hk.last_lt i hi
  exact ⟨s', List.getElem?_append_left (List.getElem?_eq_some_iff.mp hs').1 ▸ hs', hnof⟩

theorem Kept.entries_append {s : TxSubh}
    (h : 0 < s.nofMchSchedCe → s.nofBytes = 2 * s.nofMchSchedCe ∧ s.lcid = 30) :
    ∀ s' ∈ p.subheaders ++ [s], 0 < s'.nofMchSchedCe →
      s'.nofBytes = 2 * s'.nofMchSchedCe ∧ s'.lcid = 30 := by
  intro s' hs'
  rcases List.mem_append.mp hs' with hs' | hs'
  · exact hk.entries s' hs'
  · exact List.mem_singleton.mp hs' ▸ h

theorem Kept.front_append (s : TxSubh) :
    ((p.subheaders ++ [s]).map (frontSize t)).sum = g.front + frontSize t s := by
  rw [List.map_append, List.sum_append, hk.front, List.map_singleton, List.sum_singleton]

theorem Kept.addCe {s : TxSubh} {n : Nat} (hsize : frontSize t s = n) (hn : n ≤ p.remLen)
    (hentries : 0 < s.nofMchSchedCe → s.nofBytes = 2 * s.nofMchSchedCe ∧ s.lcid = 30) :
    Kept t pduLen (g.addCe n) { p with
      subheaders := p.subheaders ++ [s], remLen := p.remLen - n } where
  len := hk.len
  front := hsize ▸ hk.front_append s
  bytes := hk.bytes
  last := (lastSdu_append [s] hk.last_lt).trans hk.last
  last_lt := hk.last_lt_append s
  entries := hk.entries_append hentries
  bytes_le := hk.bytes_le
  rem_lt := Nat.lt_of_le_of_lt (Nat.sub_le _ _) hk.rem_lt
  rem := by
    have hrem := hk.rem
    show ((p.remLen - n : Nat) : Int) + (g.front + n : Nat) + g.bytes - g.growth t
      = pduLen + g.excess
    omega

theorem Kept.withSdu {lcid : Nat} {sdu : Bytes} (hroom : sdu.length ≤ p.tailroom)
    (hspace : p.sduSpace sdu.length ≤ p.remLen) :
    Kept t pduLen (g.addSdu t ⟨lcid, sdu.length, [], 0⟩ true) (p.withSdu lcid sdu) := by
  have hroom : sdu.length ≤ bufferTailroom - p.sdus.length := hroom
  have hle := hk.bytes_le
  have hbytes : (p.sdus ++ sdu).length = g.bytes + sdu.length := by
    rw [List.length_append, hk.bytes]
  have hlast : (p.withSdu lcid sdu).lastSdu = some ⟨lcid, sdu.length, [], 0⟩ := by
    show (p.subheaders ++ [_])[p.subheaders.length]? = _
    rw [List.getElem?_append_right (Nat.le_refl _), Nat.sub_self]
    rfl
  refine ⟨hk.len, hk.front_append _, hbytes, hlast, ?_, hk.entries_append nofun, ?_, ?_, ?_⟩
  · intro i hi
    cases hi
    exact ⟨⟨lcid, sdu.length, [], 0⟩, hlast, rfl⟩
  · show (p.sdus ++ sdu).length ≤ _
    rw [List.length_append]
    omega
  · exact subU32_lt hk.rem_lt
  · have hcharge := hk.sduSpace_eq (n := sdu.length) (by omega)
    have hrem := hk.rem
    show ((subU32 p.remLen (p.sduSpace sdu.length) : Nat) : Int)
        + (g.front + (TxSubh.headerSize t ⟨lcid, sdu.length, [], 0⟩ false
          + if TxSubh.isSdu t ⟨lcid, sdu.length, [], 0⟩ then 0 else sdu.length) : Nat)
        + (g.bytes + sdu.length : Nat)
        - ((TxSubh.headerSize t ⟨lcid, sdu.length, [], 0⟩ false : Nat) - 1)
      = pduLen + (g.excess + ((if TxSubh.isSdu t ⟨lcid, sdu.length, [], 0⟩ then 0
          else (sdu.length : Int)) + (g.growth t - g.sduGrowth)))
    rw [subU32_of_le hspace]
    split_ifs <;> omega

/-- An SDU for which none is taken. -/
theorem Kept.withUncharged {lcid : Nat} {sdu : Bytes} (hroom : sdu.length ≤ p.tailroom) :
    Kept t pduLen (g.addSdu t ⟨lcid, sdu.length, [], 0⟩ false) (p.withUncharged lcid sdu) := by
  have hroom : sdu.length ≤ bufferTailroom - p.sdus.length := hroom
  have hle := hk.bytes_le
  have hbytes : (p.sdus ++ sdu).length = g.bytes + sdu.length := by
    rw [List.length_append, hk.bytes]
  refine ⟨hk.len, hk.front_append _, hbytes, (lastSdu_append _ hk.last_lt).trans hk.last,
    hk.last_lt_append _, hk.entries_append nofun, ?_, hk.rem_lt, ?_⟩
  · show (p.sdus ++ sdu).length ≤ _
    rw [List.length_append]
    omega
  · have hrem := hk.rem
    show (p.remLen : Int) + (g.front + frontSize t ⟨lcid, sdu.length, [], 0⟩ : Nat)
        + (g.bytes + sdu.length : Nat) - g.growth t
      = pduLen + (g.excess + ((frontSize t ⟨lcid, sdu.length, [], 0⟩ : Nat) + (sdu.length : Int)))
    omega

theorem Kept.nextMchSchedInfo {ss : List TxSubh} {s : TxSubh} {payload : Bytes} (ht : t = .mch)
    (hss : p.subheaders = ss ++ [s]) (hin : 0 < s.nofMchSchedCe) (hnof : s.nofMchSchedCe < 32)
    (hspace : 4 ≤ p.remLen) :
    Kept t pduLen { g.addCe 2 with excess := g.excess - 2 } { p with
      subheaders := ss ++ [⟨mchSchedInfo, s.nofBytes + 2, payload, s.nofMchSchedCe + 1⟩]
      remLen := p.remLen - 4 } := by
  subst ht
  obtain ⟨hsize, hlcid⟩ := hk.entries s (by rw [hss]; simp) hin
  have hbefore := frontSize_mchSchedInfo hlcid (show 0 < s.nofBytes by omega) (by omega)
  have hafter := @frontSize_mchSchedInfo
    ⟨mchSchedInfo, s.nofBytes + 2, payload, s.nofMchSchedCe + 1⟩ rfl (Nat.succ_pos _)
    (show s.nofBytes + 2 < 128 by omega)
  have hsum := hk.front
  rw [hss, List.map_append, List.sum_append, List.map_singleton, List.sum_singleton] at hsum
  -- The current subheader is not that of the last SDU.
  have hbehind : ∀ i, p.lastSduIdx = some i → i < ss.length := by
    intro i hi
    obtain ⟨s', hs', hzero⟩ := hk.last_lt i hi
    rw [hss] at hs'
    by_contra hge
    have hlt := (List.getElem?_eq_some_iff.mp hs').1
    rw [List.length_append, List.length_singleton] at hlt
    obtain rfl : i = ss.length := by omega
    rw [List.getElem?_append_right (Nat.le_refl _), Nat.sub_self] at hs'
    cases hs'
    omega
  refine ⟨hk.len, ?_, hk.bytes, ?_, ?_, ?_, hk.bytes_le,
    Nat.lt_of_le_of_lt (Nat.sub_le _ _) hk.rem_lt, ?_⟩
  · rw [List.map_append, List.sum_append, List.map_singleton, List.sum_singleton, hafter]
    show _ = g.front + 2
    dsimp only
    omega
  · refine Eq.trans ?_ hk.last
    unfold lastSdu
    cases hlast : p.lastSduIdx with
    | none => rfl
    | some i =>
      have hi := hbehind i hlast
      simp only [Option.bind_some, hss, List.getElem?_append_left hi]
  · intro i hi
    obtain ⟨s', hs', hzero⟩ := hk.last_lt i hi
    have hlt := hbehind i hi
    rw [hss, List.getElem?_append_left hlt] at hs'
    exact ⟨s', (List.getElem?_append_left hlt).trans hs', hzero⟩
  · intro s' hs' hpos
    rcases List.mem_append.mp hs' with hs' | hs'
    · exact hk.entries s' (by rw [hss]; exact List.mem_append_left _ hs') hpos
    · cases List.mem_singleton.mp hs'
      exact ⟨show s.nofBytes + 2 = 2 * (s.nofMchSchedCe + 1) by omega, rfl⟩
  · have hrem := hk.rem
    show ((p.remLen - 4 : Nat) : Int) + (g.front + 2 : Nat) + g.bytes - g.growth .mch
      = pduLen + (g.excess - 2)
    omega

/-- `rem_len` has the space of an SDU, except that of an empty one behind a long one. -/
theorem Kept.sduSpace_le_iff {n : Nat} (hspace : p.hasSpaceSdu n = true) (hrem : 2 ≤ p.remLen) :
    p.sduSpace n ≤ p.remLen ↔
      (n = 0 → p.remLen = 2 → ∀ s, p.lastSdu = some s → s.nofBytes < 128) := by
  have hle : n ≤ min _ _ := of_decide_eq_true hspace
  obtain ⟨hleft, hroom⟩ := Nat.le_min.mp hle
  have hroom : n ≤ bufferTailroom := Nat.le_trans hroom (Nat.sub_le _ _)
  have hiff := space_le_iff hrem hk.rem_lt hroom p.lastSduGrowth_cases hleft
  rw [sduSpace, hiff]
  refine imp_congr_right fun _ => imp_congr_right fun _ => ?_
  exact p.lastSduGrowth_ne_two_iff

end Step

/-! ### Runs -/

section Runs

variable {pduLen : Nat} {g : Ledger} {p p' : TxPdu}

theorem withSdu_remLen_le_iff {n : Nat} :
    subU32 p.remLen (p.sduSpace n) ≤ p.remLen ↔ p.sduSpace n ≤ p.remLen :=
  (le_iff_subU32_le (Nat.mod_lt _ (by decide))).symm

theorem length_le_tailroom {n : Nat} (h : p.hasSpaceSdu n = true) : n ≤ p.tailroom := by
  have hle : n ≤ min _ _ := of_decide_eq_true h
  exact (Nat.le_min.mp hle).2

/-- A CE of the shared channels. -/
theorem Kept.newSubh_setCe (hk : Kept t pduLen g p) {lcid : Nat} {payload : Bytes} {n : Nat}
    (h : p.newSubh.bind (·.setCe lcid payload) = some p')
    (hsize : frontSize t ⟨lcid, payload.length, payload, 0⟩ = n) (hn : payload.length + 1 = n) :
    p'.remLen ≤ p.remLen ∧ Kept t pduLen (g.addCe n) p' := by
  obtain ⟨hle, rfl⟩ := TxPdu.newSubh_setCe h
  subst hn
  exact ⟨Nat.sub_le _ _, hk.addCe hsize hle nofun⟩

/-- The step lemma. Only an empty SDU may find `rem_len` too small. -/
theorem Kept.step (hk : Kept t pduLen g p) {op : TxOp t} {u : Unit} (h : p.step op = some (p', u)) :
    (p'.remLen ≤ p.remLen ↔ Fits p op) ∧ (Fits p op → Kept t pduLen (g.step op) p') := by
  obtain ⟨p'', hins, heq⟩ := Option.map_eq_some_iff.mp h
  cases heq
  have htriv : p'.remLen ≤ p.remLen ∧ Kept t pduLen (g.step op) p' →
      (p'.remLen ≤ p.remLen ↔ True) ∧ (True → Kept t pduLen (g.step op) p') :=
    fun h => ⟨iff_true_intro h.1, fun _ => h.2⟩
  cases op with
  | setSdu lcid sdu =>
    obtain ⟨hrem, hspace, rfl⟩ := newSubh_setSdu hk.last_lt hins
    have hroom := length_le_tailroom hspace
    have hfits : p.sduSpace sdu.length ≤ p.remLen ↔ Fits (t := t) p (.setSdu lcid sdu) := by
      rw [hk.sduSpace_le_iff hspace hrem, List.length_eq_zero_iff]
      exact Iff.rfl
    have htakes : g.takes sdu.length = decide (p.sdus.length + 2 * sdu.length ≤ bufferTailroom) := by
      rw [Ledger.takes, hk.bytes]
    show _ ∧ (_ → Kept t pduLen (g.addSdu t _ (g.takes sdu.length)) _)
    by_cases hfit : p.sdus.length + 2 * sdu.length ≤ bufferTailroom
    · rw [htakes, decide_eq_true hfit, if_pos (.inl hfit)]
      exact ⟨withSdu_remLen_le_iff.trans hfits, fun h => hk.withSdu hroom (hfits.mpr h)⟩
    · have hne : sdu ≠ [] := by
        rintro rfl
        exact hfit hk.bytes_le
      rw [htakes, decide_eq_false hfit, if_neg (not_or.mpr ⟨hfit, hne⟩)]
      exact ⟨iff_of_true (Nat.le_refl _) fun hnil => absurd hnil hne,
        fun _ => hk.withUncharged hroom⟩
  | readSdu lcid requestedBytes sdu =>
    obtain ⟨hne, hspace, rfl⟩ := newSubh_readSdu hk.last_lt hins
    have hrem := (newSubh_bind hins).1
    have hle := (hk.sduSpace_le_iff hspace hrem).mpr fun hzero =>
      absurd (List.length_eq_zero_iff.mp hzero) hne
    exact htriv ⟨withSdu_remLen_le_iff.mpr hle, hk.withSdu (length_le_tailroom hspace) hle⟩
  | setCRnti crnti => exact htriv (hk.newSubh_setCe hins rfl rfl)
  | setBsr buffSize format =>
    cases format <;> exact htriv (hk.newSubh_setCe hins rfl rfl)
  | setConResId conResId => exact htriv (hk.newSubh_setCe hins rfl rfl)
  | setTaCmd taCmd => exact htriv (hk.newSubh_setCe hins rfl rfl)
  | setPhr report => exact htriv (hk.newSubh_setCe hins rfl rfl)
  | setScellActivationCmd active => exact htriv (hk.newSubh_setCe hins rfl rfl)
  | setMchSchedInfo lcid mtchStop =>
    obtain ⟨-, hnext⟩ := newSubh_bind hins
    obtain ⟨hle, -, rfl⟩ := setNextMchSchedInfo_eq_some rfl hnext
    exact htriv ⟨Nat.sub_le _ _, hk.addCe rfl hle fun _ => ⟨rfl, rfl⟩⟩
  | nextMchSchedInfo lcid mtchStop =>
    obtain ⟨⟨s, hlast, hpos⟩, hnext⟩ := Option.ite_none_right_eq_some.mp hins
    obtain ⟨ss, hss⟩ := List.getLast?_eq_some_iff.mp hlast
    obtain ⟨hle, hnof, rfl⟩ := setNextMchSchedInfo_eq_some hss hnext
    exact htriv ⟨Nat.sub_le _ _, hk.nextMchSchedInfo rfl hss hpos hnof hle⟩

end Runs

/-! ### `write_packet` -/

/-- Headers that are all followed by another one. -/
theorem sum_zipIdx_full (flag : Nat → Bool) (ss : List TxSubh) (k : Nat)
    (h : ∀ j, k ≤ j → flag j = false) :
    ((ss.zipIdx k).map fun x => x.1.headerSize t (flag x.2)).sum
      = (ss.map (·.headerSize t false)).sum := by
  induction ss generalizing k with
  | nil => rfl
  | cons s ss ih =>
    rw [List.zipIdx_cons, List.map_cons, List.sum_cons, ih (k + 1) fun j hj => h j (by omega),
      List.map_cons, List.sum_cons, h k (Nat.le_refl k)]

theorem sum_zipIdx_last {ss : List TxSubh} {s : TxSubh} {i : Nat} (k : Nat)
    (hs : ss[i]? = some s) :
    ((ss.zipIdx k).map fun x => x.1.headerSize t (some (k + i) == some x.2)).sum
      + s.headerSize t false = (ss.map (·.headerSize t false)).sum + 1 := by
  induction ss generalizing i k with
  | nil => cases hs
  | cons s' ss ih =>
    rw [List.zipIdx_cons, List.map_cons, List.sum_cons, List.map_cons, List.sum_cons]
    cases i with
    | zero =>
      cases hs
      have hrest := sum_zipIdx_full (t := t) (fun j => some (k + 0) == some j) ss (k + 1)
        fun j hj => by simp; omega
      have hshort : s.headerSize t (some (k + 0) == some k) = 1 := by simp [TxSubh.headerSize]
      rw [hrest, hshort]
      omega
    | succ i =>
      have hrest := ih (k + 1) hs
      rw [show k + 1 + i = k + (i + 1) by omega] at hrest
      have hfull : (some (k + (i + 1)) == some k) = false := by simp
      rw [hfull]
      dsimp only
      omega

section Write

variable {pduLen : Nat} {g : Ledger} {p : TxPdu} (hk : Kept t pduLen g p)

include hk

/-- The headers and the payloads of the CEs, with the last SDU in full. -/
theorem Kept.sum_headerSize :
    (p.subheaders.map (·.headerSize t false)).sum + p.cePayloadSz t = g.front := by
  rw [← hk.front, cePayloadSz]
  clear hk
  induction p.subheaders with
  | nil => rfl
  | cons s ss ih =>
    simp only [List.map_cons, List.sum_cons, List.filter_cons, frontSize] at ih ⊢
    cases hs : s.isSdu t with
    | true => simp only [Bool.not_true, Bool.false_eq_true, if_false, if_true]; omega
    | false =>
      simp only [Bool.not_false, if_true, Bool.false_eq_true, if_false, List.map_cons,
        List.sum_cons]
      omega

theorem Kept.totalHeaderSize_eq :
    (p.totalHeaderSize t : Int)
      = g.front + if p.remLen > 2 then 1 else (p.remLen : Int) - g.growth t := by
  have hsum := hk.sum_headerSize
  have hgrowth : g.growth t = match p.lastSdu with
      | none => 0
      | some s => (s.headerSize t false : Int) - 1 := by
    simp only [Ledger.growth, hk.last]
  unfold totalHeaderSize headerSz onetwoPadding
  by_cases hmulti : p.remLen > 2
  · have hflag : p.multibytePadding = true := decide_eq_true hmulti
    have hfull := sum_zipIdx_full (t := t) (fun j => !true && p.lastSduIdx == some j)
      p.subheaders 0 fun _ _ => rfl
    rw [hflag, if_pos hmulti, if_pos rfl]
    show ((((p.subheaders.zipIdx).map fun x => x.1.headerSize t
      (!true && p.lastSduIdx == some x.2)).sum + 1 + p.cePayloadSz t : Nat) : Int) = _
    rw [hfull]
    omega
  · have hflag : p.multibytePadding = false := decide_eq_false hmulti
    rw [hflag, if_neg hmulti, hgrowth]
    show ((((p.subheaders.zipIdx).map fun x => x.1.headerSize t (p.lastSduIdx == some x.2)).sum
      + (if false = true then 0 else p.remLen) + p.cePayloadSz t : Nat) : Int) = _
    rw [if_neg Bool.false_ne_true]
    cases hlast : p.lastSduIdx with
    | none =>
      have hfull := sum_zipIdx_full (t := t) (fun j => none == some j) p.subheaders 0
        fun _ _ => rfl
      rw [hfull, lastSdu, hlast, Option.bind_none]
      simp only
      omega
    | some i =>
      obtain ⟨s, hs, -⟩ := hk.last_lt i hlast
      have hshort := sum_zipIdx_last (t := t) 0 hs
      rw [Nat.zero_add] at hshort
      rw [lastSdu, hlast, Option.bind_some, hs]
      simp only
      omega

theorem Kept.numPadding_eq :
    (p.numPadding t : Int) = if p.remLen > 2 then (p.remLen : Int) - 1 - g.growth t else 0 := by
  have hlt := hk.rem_lt
  unfold numPadding Ledger.growth
  rw [hk.last]
  by_cases hmulti : p.remLen > 2
  · rw [show p.multibytePadding = true from decide_eq_true hmulti, if_pos rfl, if_pos hmulti]
    cases g.last with
    | none => simp only; omega
    | some s =>
      have hle := headerSize_le t s false
      simp only [subU32]
      split_ifs <;> omega
  · rw [show p.multibytePadding = false from decide_eq_false hmulti, if_neg Bool.false_ne_true,
      if_neg hmulti]
    rfl

/-- The length that `write_packet` arrives at. -/
theorem Kept.nBytes_add_numPadding :
    ((p.nBytes t + p.numPadding t : Nat) : Int) = pduLen + g.excess := by
  have htotal := hk.totalHeaderSize_eq
  have hpad := hk.numPadding_eq
  have hrem := hk.rem
  have hbytes := hk.bytes
  unfold nBytes
  split_ifs at htotal hpad <;> omega

end Write

/-! ### The PDU that is written -/

/-- What is left of the PDU behind what is put in. -/
def Ledger.left (t : SubhType) (pduLen : Nat) (g : Ledger) : Int :=
  pduLen + g.growth t - g.front - g.bytes

/-- Nothing is counted that has not been taken or the other way round, and the headers with the CEs
and the padding have their place in the buffer. -/
structure Ledger.Fills (t : SubhType) (pduLen : Nat) (g : Ledger) : Prop where
  excess : g.excess = 0
  headroom : g.front + (if g.left t pduLen > 2 then 1 else g.left t pduLen - g.growth t)
    ≤ bufferHeadroom
  tailroom : g.left t pduLen > 2 → g.left t pduLen - 1 - g.growth t + g.bytes ≤ bufferTailroom

theorem length_writePacket {p : TxPdu} {stale : Nat → UInt8} {pdu : Bytes}
    (h : p.writePacket t stale = some pdu) : pdu.length = p.pduLen := by
  unfold writePacket at h
  split at h
  · cases h
  simp only at h
  split at h
  · cases h
  split at h
  · cases h
  next hlen =>
    rw [← Option.some.inj h, List.length_append, List.length_replicate, List.length_take,
      List.length_append, List.length_drop, List.length_append, List.length_map, List.length_range]
    have hlen : p.nBytes t + p.numPadding t = p.pduLen := not_not.mp hlen
    rw [← hlen, nBytes]
    omega

theorem Kept.writePacket_iff {pduLen : Nat} {g : Ledger} {p : TxPdu} (hk : Kept t pduLen g p)
    (stale : Nat → UInt8) :
    (∃ pdu, p.writePacket t stale = some pdu) ↔ g.Fills t pduLen := by
  have htotal := hk.totalHeaderSize_eq
  have hpad := hk.numPadding_eq
  have hlen := hk.nBytes_add_numPadding
  have hrem := hk.rem
  have hbytes := hk.bytes
  have hle := hk.bytes_le
  have hleft : g.excess = 0 → (p.remLen : Int) = g.left t pduLen := by
    intro hzero
    unfold Ledger.left
    omega
  have hcond : (∃ pdu, p.writePacket t stale = some pdu) ↔
      p.totalHeaderSize t ≤ bufferHeadroom ∧ p.numPadding t ≤ p.tailroom ∧
        p.nBytes t + p.numPadding t = p.pduLen := by
    unfold writePacket
    simp only
    split_ifs with h₁ h₂ h₃
    · exact ⟨nofun, fun h => absurd h.1 (Nat.not_le_of_lt h₁)⟩
    · exact ⟨nofun, fun h => absurd h.2.1 (Nat.not_le_of_lt h₂)⟩
    · exact ⟨nofun, fun h => absurd h.2.2 h₃⟩
    · exact ⟨fun _ => ⟨Nat.le_of_not_lt h₁, Nat.le_of_not_lt h₂, not_not.mp h₃⟩,
        fun _ => ⟨_, rfl⟩⟩
  rw [hcond, hk.len, tailroom, hbytes]
  by_cases hzero : g.excess = 0
  · rw [hleft hzero] at htotal hpad
    have hmulti : p.remLen > 2 ↔ g.left t pduLen > 2 := by
      rw [← hleft hzero]
      omega
    rw [if_congr hmulti rfl rfl] at htotal hpad
    constructor
    · rintro ⟨hhead, htail, -⟩
      refine ⟨hzero, by rw [← htotal]; exact_mod_cast hhead, fun hlong => ?_⟩
      rw [if_pos hlong] at hpad
      omega
    · intro hfills
      have hhead := hfills.headroom
      rw [← htotal] at hhead
      refine ⟨by exact_mod_cast hhead, ?_, by omega⟩
      by_cases hlong : g.left t pduLen > 2
      · have htail := hfills.tailroom hlong
        rw [if_pos hlong] at hpad
        omega
      · rw [if_neg hlong] at hpad
        omega
  · exact ⟨fun h => absurd h.2.2 (by omega), fun h => absurd h.excess hzero⟩

/-- Nothing is taken that `rem_len` does not have, and the PDU has its length. -/
def LengthExact (stale : Nat → UInt8) (init : TxPdu) (ops : List (TxOp t)) (p : TxPdu) : Prop :=
  StepsWithin TxPdu.step NoWrap init ops ∧
    ∃ pdu, p.writePacket t stale = some pdu ∧ pdu.length = init.pduLen

/-- Where insertions that are accepted leave the ledger. -/
theorem Kept.run {pduLen : Nat} {g : Ledger} {p p' : TxPdu} (hk : Kept t pduLen g p)
    {ops : List (TxOp t)} {us : List Unit} (h : run TxPdu.step p ops = some (p', us))
    (hfits : StepsWithin TxPdu.step Fits p ops) :
    Kept t pduLen (exec Ledger.step g ops) p' := by
  induction ops generalizing g p us with
  | nil =>
    cases h
    exact hk
  | cons op ops ih =>
    obtain ⟨p₁, u, us', h₁, h₂, -⟩ := run_cons_eq_some.mp h
    exact ih ((hk.step h₁).2 hfits.1) h₂ (hfits.2 p₁ u h₁)

theorem noWrap_iff {pduLen : Nat} {g : Ledger} {p p' : TxPdu} (hk : Kept t pduLen g p)
    {op : TxOp t} {u : Unit} (h : p.step op = some (p', u)) : NoWrap p op ↔ Fits p op := by
  rw [← (hk.step h).1]
  refine ⟨fun hwrap => hwrap p' u h, fun hle p'' u' h' => ?_⟩
  rw [h] at h'
  cases h'
  exact hle

/-- The PDU has its length, and `rem_len` is never below zero, exactly when no empty SDU is put in
behind a long one with two bytes left and the ledger fills the PDU. -/
theorem lengthExact_iff_fills {maxSubheaders pduLen : Nat} {isUl : Bool} {ops : List (TxOp t)}
    {p : TxPdu} {us : List Unit} (stale : Nat → UInt8) (hlen : pduLen < 2 ^ 32)
    (h : run TxPdu.step (initTx maxSubheaders pduLen isUl) ops = some (p, us)) :
    LengthExact stale (initTx maxSubheaders pduLen isUl) ops p ↔
      StepsWithin TxPdu.step Fits (initTx maxSubheaders pduLen isUl) ops ∧
        (ledger ops).Fills t pduLen := by
  have hinit : Kept t pduLen .empty (initTx maxSubheaders pduLen isUl) := kept_initTx hlen
  have hsame := stepsWithin_iff_of_invariant (fun q => ∃ g, Kept t pduLen g q)
    (fun q op q' u hq hstep => by
      obtain ⟨g, hg⟩ := hq
      exact noWrap_iff hg hstep)
    (fun q op q' u hq hfits hstep => by
      obtain ⟨g, hg⟩ := hq
      exact ⟨g.step op, (hg.step hstep).2 hfits⟩)
    ops _ p us ⟨.empty, hinit⟩ h
  unfold LengthExact
  rw [hsame]
  refine and_congr_right fun hfits => ?_
  have hk : Kept t pduLen (ledger ops) p := hinit.run h hfits
  rw [← hk.writePacket_iff stale]
  refine exists_congr fun pdu => ⟨fun hpdu => hpdu.1, fun hpdu => ⟨hpdu, ?_⟩⟩
  rw [length_writePacket hpdu]
  exact hk.len

theorem lengthExact_iff_fills_mch : ∃ p us,
    run TxPdu.step (initTx 10 20 true)
      [TxOp.setMchSchedInfo 1 0, .setSdu 0 [1, 2, 3, 4, 5], .setSdu 1 [2, 4, 6]]
        = some (p, us) ∧
    LengthExact (fun _ => 0) (initTx 10 20 true)
      [TxOp.setMchSchedInfo 1 0, .setSdu 0 [1, 2, 3, 4, 5], .setSdu 1 [2, 4, 6]] p := by
  refine ⟨_, _, rfl, (lengthExact_iff_fills _ (by decide) rfl).mpr ⟨?_, ⟨?_, ?_, ?_⟩⟩⟩
  · refine stepsWithin_of_forall (fun op hop q => ?_) _
    simp only [List.mem_cons, List.not_mem_nil, or_false] at hop
    rcases hop with rfl | rfl | rfl
    · trivial
    · exact nofun
    · exact nofun
  · decide
  · decide
  · decide

/-- The second entry of the scheduling information is charged with a header, too. -/
theorem not_lengthExact_entries : ∃ p us,
    run TxPdu.step (initTx 10 30 true) [TxOp.setMchSchedInfo 1 0, .nextMchSchedInfo 2 7]
        = some (p, us) ∧
    ¬ LengthExact (fun _ => 0) (initTx 10 30 true)
      [TxOp.setMchSchedInfo 1 0, .nextMchSchedInfo 2 7] p := by
  refine ⟨_, _, rfl, ?_⟩
  rintro ⟨-, pdu, hpdu, -⟩
  cases hpdu

end Odss.Mac.TxPdu
