import Odss.Mac.RxPdu
import Odss.Proofs.SchPduRoundTrip

/-!
# `Odss.Proofs.RxPduBounds`: what is read of a MAC PDU is in the PDU

`scan` has the subheaders that the reader goes through, the last one apart.

* `readSubheaders_eq` and `readPayloads_eq` are the two loops in terms of the scan. Only the last
  subheader can reach behind the PDU.
* `sizePlusHeader_le` compares the size that is computed for a subheader with the bytes that it has:
  they are the same when its length is in the shortest form.
* `inBounds_iff_clean` is the exact condition.
-/

set_option linter.all false

namespace Odss.Mac.RxPdu

open Odss.Rlc
open RxSubh (place place_append map_place)

variable {t : SubhType} {isUl : Bool} {pduLen : Nat} {mem : Nat → UInt8}

/-! ### One subheader -/

/-- The bytes of a subheader. -/
def Read.width (r : Read) : Nat := r.reads.length

/-- The length of the subheader, if there is one, is not zero and in the shortest form. -/
def Canonical (t : SubhType) (r : Read) : Prop :=
  hasLength t r.subh.lcid = true → 0 < r.subh.nofBytes ∧ (r.width = 3 → 128 ≤ r.subh.nofBytes)

theorem toInt32_le (n : Nat) : toInt32 n ≤ n := by
  unfold toInt32 Int.bmod
  dsimp only
  split <;> omega

/-- A subheader has up to three bytes, and all of them are looked at. -/
theorem readSubheader_reads (t : SubhType) (isUl : Bool) (mem : Nat → UInt8) (ptr : Nat) :
    (readSubheader t isUl mem ptr).ptr = ptr + (readSubheader t isUl mem ptr).width ∧
      0 < (readSubheader t isUl mem ptr).width ∧
      (readSubheader t isUl mem ptr).reads
        = List.range' ptr (readSubheader t isUl mem ptr).width := by
  unfold readSubheader Read.width
  simp only
  split_ifs <;> exact ⟨rfl, Nat.succ_pos _, rfl⟩

/-- The size that is computed for a subheader with another one behind it. -/
theorem sizePlusHeader_le {ptr : Nat} (h : (readSubheader t isUl mem ptr).eBit = true) :
    sizePlusHeader t (readSubheader t isUl mem ptr).subh
        ≤ (readSubheader t isUl mem ptr).width + (readSubheader t isUl mem ptr).subh.nofBytes ∧
      (sizePlusHeader t (readSubheader t isUl mem ptr).subh
          = (readSubheader t isUl mem ptr).width + (readSubheader t isUl mem ptr).subh.nofBytes ↔
        Canonical t (readSubheader t isUl mem ptr)) := by
  have hsmall := (mem (ptr + 1)).toNat_lt
  have hbyte := (mem (ptr + 2)).toNat_lt
  unfold Canonical readSubheader at *
  simp only at *
  by_cases hlen : hasLength t ((mem ptr).toNat % 32) = true
  · rw [if_pos hlen] at h ⊢
    by_cases he : ((mem ptr).toNat / 32 % 2 == 1) = true
    · rw [if_pos he] at h ⊢
      by_cases hf : ((mem (ptr + 1)).toNat / 128 == 1) = true
      · rw [if_pos hf]
        simp only [sizePlusHeader, sizeHeaderSdu, Read.width, hlen, if_true, List.length_cons,
          List.length_nil, true_imp_iff]
        split_ifs <;> omega
      · rw [if_neg hf]
        simp only [sizePlusHeader, sizeHeaderSdu, Read.width, hlen, if_true, List.length_cons,
          List.length_nil, true_imp_iff]
        split_ifs <;> omega
    · rw [if_neg he] at h
      cases h
  · rw [if_neg hlen] at h ⊢
    simp [sizePlusHeader, Read.width, hlen]

theorem toInt32_of_lt {n : Nat} (h : n < 2 ^ 31) : toInt32 n = n := by
  unfold toInt32 Int.bmod
  dsimp only
  split <;> omega

/-! ### The shared channels -/

theorem readSubheader_sch (isUl : Bool) (pdu : Bytes) (ptr : Nat) :
    ((readSubheader .sch isUl (pdu.getD · 0) ptr).subh,
      (readSubheader .sch isUl (pdu.getD · 0) ptr).eBit,
      (readSubheader .sch isUl (pdu.getD · 0) ptr).ptr)
      = RxSubh.readSubheader isUl pdu ptr := by
  unfold readSubheader RxSubh.readSubheader hasLength sizeofCe
  simp only [beq_iff_eq]
  split_ifs <;> rfl

theorem readSubheaders_sch (h : pduLen < 2 ^ 31) (isUl : Bool) (pdu : Bytes) (follow ptr : Nat) :
    (readSubheaders .sch isUl pduLen (pdu.getD · 0) follow ptr).1
      = RxSubh.readSubheaders isUl pduLen pdu follow ptr := by
  induction follow generalizing ptr with
  | zero =>
    unfold readSubheaders RxSubh.readSubheaders
    rw [← readSubheader_sch, toInt32_of_lt h]
    simp only [ge_iff_le, Int.ofNat_le]
    split_ifs <;> rfl
  | succ follow ih =>
    unfold readSubheaders RxSubh.readSubheaders
    rw [← readSubheader_sch, toInt32_of_lt h]
    simp only [ge_iff_le, gt_iff_lt, Int.ofNat_le, Int.ofNat_lt, ← ih]
    split_ifs <;> rfl

theorem readPayloads_sch (h : pduLen < 2 ^ 31) (ss : List RxSubh) (ptr : Nat) :
    readPayloads pduLen ss ptr = RxSubh.readPayloads pduLen ss ptr := by
  induction ss generalizing ptr with
  | nil => rfl
  | cons s ss ih =>
    unfold readPayloads RxSubh.readPayloads
    rw [toInt32_of_lt h, ih]
    simp only [gt_iff_lt, Int.ofNat_lt]

/-- `Odss.Mac.SchPdu` has the same reader for the shared channels. -/
theorem parsePacket_sch (h : pduLen < 2 ^ 31) (isUl : Bool) (maxSubheaders : Nat) (pdu : Bytes) :
    (parsePacket .sch isUl maxSubheaders pduLen (pdu.getD · 0)).1
      = RxSubh.parsePacket isUl maxSubheaders pduLen pdu := by
  have hcorrect : ∀ ss, correctLast .sch pduLen ss = RxSubh.correctLast pduLen ss := by
    intro ss
    unfold correctLast RxSubh.correctLast
    cases ss.getLast? with
    | none => rfl
    | some last =>
      have hsize : sizePlusHeader .sch = RxSubh.sizePlusHeader := rfl
      simp only [hsize]
      by_cases hle : (ss.dropLast.map RxSubh.sizePlusHeader).sum + 1 ≤ pduLen
      · rw [if_pos hle, if_pos (by omega)]
        congr
        omega
      · rw [if_neg hle, if_neg (by omega)]
  have hsubs := readSubheaders_sch h isUl pdu (maxSubheaders - 2) 0
  unfold parsePacket parsePdu RxSubh.parsePacket
  by_cases hmax : maxSubheaders = 0
  · rw [if_pos hmax, if_pos hmax]
    rfl
  rw [if_neg hmax, if_neg hmax, ← hsubs]
  cases readSubheaders .sch isUl pduLen (pdu.getD · 0) (maxSubheaders - 2) 0 with
  | mk result reads =>
    cases result with
    | none => rfl
    | some r =>
      dsimp only
      rw [hcorrect, readPayloads_sch h]
      cases RxSubh.readPayloads pduLen r.1 r.2 <;> rfl

/-! ### The scan -/

/-- The subheaders that are read from `ptr` on, with the last one apart. Up to `follow` of them have
another one behind them. -/
def scan (t : SubhType) (isUl : Bool) (pduLen : Nat) (mem : Nat → UInt8) :
    Nat → Nat → List Read × Read
  | follow, ptr =>
    let r := readSubheader t isUl mem ptr
    match follow with
    | 0 => ([], r)
    | follow + 1 =>
      if r.eBit && decide (toInt32 pduLen > r.ptr) then
        let (front, last) := scan t isUl pduLen mem follow r.ptr
        (r :: front, last)
      else ([], r)

theorem readSubheaders_eq (t : SubhType) (isUl : Bool) (pduLen : Nat) (mem : Nat → UInt8)
    (follow ptr : Nat) :
    readSubheaders t isUl pduLen mem follow ptr =
      (if (scan t isUl pduLen mem follow ptr).2.eBit
            && decide (((scan t isUl pduLen mem follow ptr).2.ptr : Int) ≥ toInt32 pduLen) then none
        else some ((scan t isUl pduLen mem follow ptr).1.map Read.subh
          ++ [(scan t isUl pduLen mem follow ptr).2.subh], (scan t isUl pduLen mem follow ptr).2.ptr),
        (scan t isUl pduLen mem follow ptr).1.flatMap Read.reads
          ++ (scan t isUl pduLen mem follow ptr).2.reads) := by
  induction follow generalizing ptr with
  | zero =>
    unfold readSubheaders scan
    dsimp only
    split_ifs <;> rfl
  | succ follow ih =>
    unfold readSubheaders scan
    generalize readSubheader t isUl mem ptr = r
    by_cases hnext : (r.eBit && decide (toInt32 pduLen > r.ptr)) = true
    · have hlast : ¬ (r.eBit && decide ((r.ptr : Int) ≥ toInt32 pduLen)) = true := by
        simp only [Bool.and_eq_true, decide_eq_true_iff] at hnext ⊢
        omega
      simp only [if_neg hlast, if_pos hnext, ih]
      split_ifs <;> simp
    · simp only [if_neg hnext]
      split_ifs <;> rfl

/-- What the scan is made of: the subheaders follow each other, and those with another one behind
them have the E bit and end in the PDU. -/
structure Scanned (t : SubhType) (isUl : Bool) (pduLen : Nat) (mem : Nat → UInt8) (ptr : Nat)
    (front : List Read) (last : Read) : Prop where
  front_read : ∀ r ∈ front, ∃ pos, r = readSubheader t isUl mem pos ∧ r.eBit = true ∧
    (r.ptr : Int) < toInt32 pduLen
  last_read : ∃ pos, last = readSubheader t isUl mem pos
  ptr_eq : last.ptr = ptr + (front.map Read.width).sum + last.width

theorem scanned_scan (t : SubhType) (isUl : Bool) (pduLen : Nat) (mem : Nat → UInt8)
    (follow ptr : Nat) :
    Scanned t isUl pduLen mem ptr (scan t isUl pduLen mem follow ptr).1
      (scan t isUl pduLen mem follow ptr).2 := by
  induction follow generalizing ptr with
  | zero => exact ⟨nofun, ⟨ptr, rfl⟩, (readSubheader_reads t isUl mem ptr).1⟩
  | succ follow ih =>
    have hptr := (readSubheader_reads t isUl mem ptr).1
    unfold scan
    dsimp only
    split
    · next hnext =>
      rw [Bool.and_eq_true, decide_eq_true_iff] at hnext
      have hrest := ih (readSubheader t isUl mem ptr).ptr
      refine ⟨List.forall_mem_cons.mpr ⟨⟨ptr, rfl, hnext.1, hnext.2⟩, hrest.front_read⟩, hrest.last_read, ?_⟩
      rw [hrest.ptr_eq, hptr, List.map_cons, List.sum_cons]
      dsimp only
      omega
    · exact ⟨nofun, ⟨ptr, rfl⟩, hptr⟩

/-! ### The payloads -/

theorem readPayloads_eq {ss : List RxSubh} {ptr : Nat}
    (h : ss ≠ [] ∨ (ptr : Int) ≤ toInt32 pduLen) :
    readPayloads pduLen ss ptr
      = if ((ptr + (ss.map RxSubh.nofBytes).sum : Nat) : Int) ≤ toInt32 pduLen then
          some (place ss ptr) else none := by
  induction ss generalizing ptr with
  | nil => exact (if_pos (h.resolve_left fun hne => hne rfl)).symm
  | cons s ss ih =>
    rw [readPayloads, List.map_cons, List.sum_cons]
    by_cases hfits : ((ptr + s.nofBytes : Nat) : Int) > toInt32 pduLen
    · rw [if_pos hfits, if_neg (by omega)]
    · rw [if_neg hfits, ih (.inr (by omega)), ← Nat.add_assoc]
      split <;> rfl

/-- The payloads follow each other up to the end of the last one. -/
theorem place_bounds (ss : List RxSubh) (ptr : Nat) :
    (place ss ptr).Pairwise (fun a b => a.payload + a.nofBytes ≤ b.payload) ∧
      ∀ s ∈ place ss ptr, ptr ≤ s.payload ∧
        s.payload + s.nofBytes ≤ ptr + (ss.map RxSubh.nofBytes).sum := by
  induction ss generalizing ptr with
  | nil => exact ⟨.nil, nofun⟩
  | cons s ss ih =>
    obtain ⟨hpair, hbounds⟩ := ih (ptr + s.nofBytes)
    rw [place, List.map_cons, List.sum_cons]
    refine ⟨List.pairwise_cons.mpr ⟨fun s' hs' => (hbounds s' hs').1, hpair⟩, ?_⟩
    refine List.forall_mem_cons.mpr ⟨⟨Nat.le_refl _, ?_⟩, fun s' hs' => ?_⟩
    · dsimp only
      omega
    · obtain ⟨hfrom, hto⟩ := hbounds s' hs'
      omega

/-! ### What is found -/

/-- The PDU is accepted: the subheaders end in it, and the payloads do as they are announced. -/
def Accepted (pduLen : Nat) (front : List Read) (last : Read) : Prop :=
  (last.eBit = true → (last.ptr : Int) < toInt32 pduLen) ∧
    ((last.ptr + ((front.map fun r => r.subh.nofBytes).sum + last.subh.nofBytes) : Nat) : Int)
      ≤ toInt32 pduLen

/-- What is found in a PDU that is accepted. -/
def found (t : SubhType) (pduLen : Nat) (front : List Read) (last : Read) : List RxSubh :=
  place (front.map Read.subh) last.ptr ++ [{ last.subh with
    nofBytes := pduLen - (front.map fun r => sizePlusHeader t r.subh).sum - 1
    payload := last.ptr + (front.map fun r => r.subh.nofBytes).sum }]

theorem map_nofBytes (front : List Read) :
    (front.map Read.subh).map RxSubh.nofBytes = front.map fun r => r.subh.nofBytes :=
  List.map_map

section Found

variable {front : List Read} {last : Read} (hscan : Scanned t isUl pduLen mem 0 front last)

include hscan

/-- The sizes that are computed are at most the bytes that are there, and the same if all lengths
are in their shortest form. -/
theorem Scanned.sum_sizePlusHeader :
    (front.map fun r => sizePlusHeader t r.subh).sum
        ≤ (front.map Read.width).sum + (front.map fun r => r.subh.nofBytes).sum ∧
      ((front.map fun r => sizePlusHeader t r.subh).sum
          = (front.map Read.width).sum + (front.map fun r => r.subh.nofBytes).sum ↔
        ∀ r ∈ front, Canonical t r) := by
  have hread := hscan.front_read
  clear hscan
  induction front with
  | nil => exact ⟨Nat.le_refl 0, ⟨fun _ => nofun, fun _ => rfl⟩⟩
  | cons r front ih =>
    obtain ⟨⟨pos, hr, hmore, -⟩, hrest⟩ := List.forall_mem_cons.mp hread
    obtain ⟨hle, hiff⟩ := ih hrest
    have hone := sizePlusHeader_le (hr ▸ hmore)
    rw [← hr] at hone
    obtain ⟨hle₁, hiff₁⟩ := hone
    rw [List.forall_mem_cons, ← hiff, ← hiff₁]
    simp only [List.map_cons, List.sum_cons]
    omega

theorem Scanned.width_pos : 0 < last.width := by
  obtain ⟨pos, hlast⟩ := hscan.last_read
  rw [hlast]
  exact (readSubheader_reads t isUl mem pos).2.1

/-- Only the last subheader can reach behind the PDU. -/
theorem Scanned.reads_lt_iff :
    (∀ i ∈ front.flatMap Read.reads ++ last.reads, i < pduLen) ↔ last.ptr ≤ pduLen := by
  have hle := toInt32_le pduLen
  obtain ⟨pos, hlast⟩ := hscan.last_read
  obtain ⟨hptr, hpos, hreads⟩ := readSubheader_reads t isUl mem pos
  rw [← hlast] at hptr hpos hreads
  constructor
  · intro h
    have hend := h (last.ptr - 1) (List.mem_append_right _ (by
      rw [hreads, List.mem_range'_1]
      omega))
    omega
  · intro h i hi
    rcases List.mem_append.mp hi with hi | hi
    · obtain ⟨r, hr, hi⟩ := List.mem_flatMap.mp hi
      obtain ⟨pos', heq, -, hlt⟩ := hscan.front_read r hr
      obtain ⟨hptr', -, hreads'⟩ := readSubheader_reads t isUl mem pos'
      rw [← heq] at hptr' hreads'
      rw [hreads', List.mem_range'_1] at hi
      omega
    · rw [hreads, List.mem_range'_1] at hi
      omega

/-- What is found lies in the PDU exactly when all lengths are in their shortest form and the last
subheader has no length. -/
theorem Scanned.found_le_iff (hacc : Accepted pduLen front last) :
    (∀ s ∈ found t pduLen front last, s.payload + s.nofBytes ≤ pduLen) ↔
      (∀ r ∈ front, Canonical t r) ∧ last.width = 1 := by
  obtain ⟨hsum, hiff⟩ := hscan.sum_sizePlusHeader
  have hpos := hscan.width_pos
  have hptr := hscan.ptr_eq
  have hend := hacc.2
  have hle := toInt32_le pduLen
  rw [found, List.forall_mem_append, List.forall_mem_singleton, ← hiff]
  have hfront : ∀ s ∈ place (front.map Read.subh) last.ptr, s.payload + s.nofBytes ≤ pduLen := by
    intro s hs
    have hto := ((place_bounds _ _).2 s hs).2
    rw [map_nofBytes] at hto
    omega
  dsimp only
  constructor
  · rintro ⟨-, hlast⟩
    omega
  · intro h
    exact ⟨hfront, by omega⟩

end Found

/-- The ranges follow each other. -/
theorem pairwise_found (front : List Read) (last : Read) :
    (found t pduLen front last).Pairwise fun a b => a.payload + a.nofBytes ≤ b.payload := by
  obtain ⟨hpair, hbounds⟩ := place_bounds (front.map Read.subh) last.ptr
  refine List.pairwise_append.mpr ⟨hpair, List.pairwise_singleton _ _, fun s hs s' hs' => ?_⟩
  rw [List.mem_singleton.mp hs']
  have hto := (hbounds s hs).2
  rw [map_nofBytes] at hto
  exact hto

theorem correctLast_concat (ss : List RxSubh) (s : RxSubh)
    (h : (ss.map (sizePlusHeader t)).sum + 1 ≤ pduLen) :
    correctLast t pduLen (ss ++ [s])
      = ss ++ [{ s with nofBytes := pduLen - (ss.map (sizePlusHeader t)).sum - 1 }] := by
  rw [correctLast, List.getLast?_concat, List.dropLast_concat]
  dsimp only
  rw [if_pos (by omega)]
  congr
  omega

section Parse

variable {maxSubheaders : Nat} (hmax : maxSubheaders ≠ 0) {front : List Read} {last : Read}
  (hfront : scan t isUl pduLen mem (maxSubheaders - 2) 0 = (front, last))

include hmax hfront

theorem parsePacket_reads : (parsePacket t isUl maxSubheaders pduLen mem).2
    = front.flatMap Read.reads ++ last.reads := by
  have hread := readSubheaders_eq t isUl pduLen mem (maxSubheaders - 2) 0
  rw [hfront] at hread
  rw [parsePacket, parsePdu, if_neg hmax, hread]
  dsimp only
  split_ifs <;> rfl

theorem parsePacket_of_accepted (hacc : Accepted pduLen front last) :
    (parsePacket t isUl maxSubheaders pduLen mem).1 = found t pduLen front last := by
  have hscan := scanned_scan t isUl pduLen mem (maxSubheaders - 2) 0
  have hread := readSubheaders_eq t isUl pduLen mem (maxSubheaders - 2) 0
  rw [hfront] at hread hscan
  dsimp only at hscan
  have hnone : ¬ (last.eBit && decide ((last.ptr : Int) ≥ toInt32 pduLen)) = true := by
    simp only [Bool.and_eq_true, decide_eq_true_iff, not_and]
    intro hmore
    exact Int.not_le.mpr (hacc.1 hmore)
  have hsizes : (place (front.map Read.subh) last.ptr).map (sizePlusHeader t)
      = front.map fun r => sizePlusHeader t r.subh := by
    rw [map_place (sizePlusHeader t) (fun _ _ => rfl), List.map_map]
    rfl
  have hend := hacc.2
  have hpayloads : readPayloads pduLen (front.map Read.subh ++ [last.subh]) last.ptr
      = some (place (front.map Read.subh ++ [last.subh]) last.ptr) := by
    rw [readPayloads_eq (.inl (by simp)), if_pos]
    rw [List.map_append, List.sum_append, map_nofBytes, List.map_singleton, List.sum_singleton]
    exact hend
  have hsum := hscan.sum_sizePlusHeader.1
  have hpos := hscan.width_pos
  have hptr := hscan.ptr_eq
  have hle := toInt32_le pduLen
  rw [parsePacket, parsePdu, if_neg hmax, hread, if_neg hnone]
  dsimp only
  rw [hpayloads, Option.getD_some, place_append, place, place, correctLast_concat, hsizes,
    map_nofBytes]
  · rfl
  · rw [hsizes]
    omega

theorem parsePacket_of_not_accepted (hacc : ¬ Accepted pduLen front last) :
    (parsePacket t isUl maxSubheaders pduLen mem).1 = [] := by
  have hread := readSubheaders_eq t isUl pduLen mem (maxSubheaders - 2) 0
  rw [hfront] at hread
  rw [parsePacket, parsePdu, if_neg hmax, hread]
  dsimp only
  split_ifs with hmore
  · rfl
  · have hlong : ¬ ((last.ptr + ((front.map Read.subh ++ [last.subh]).map RxSubh.nofBytes).sum
        : Nat) : Int) ≤ toInt32 pduLen := by
      intro hend
      rw [List.map_append, List.sum_append, map_nofBytes, List.map_singleton, List.sum_singleton] at hend
      refine hacc ⟨fun he => ?_, hend⟩
      simp only [he, Bool.true_and, decide_eq_true_iff] at hmore
      omega
    dsimp only
    rw [readPayloads_eq (.inl (by simp)), if_neg hlong]
    rfl

end Parse

/-! ### In bounds -/

/-- Two subheaders have no byte of their payloads in common. -/
def Apart (a b : RxSubh) : Prop :=
  ∀ i, a.payload ≤ i → i < a.payload + a.nofBytes →
    ¬ (b.payload ≤ i ∧ i < b.payload + b.nofBytes)

/-- The payloads that are found lie in the PDU and do not overlap, and nothing behind the PDU is
looked at. -/
structure InBounds (t : SubhType) (isUl : Bool) (maxSubheaders pduLen : Nat) (mem : Nat → UInt8) :
    Prop where
  inside : ∀ s ∈ (parsePacket t isUl maxSubheaders pduLen mem).1, s.payload + s.nofBytes ≤ pduLen
  apart : (parsePacket t isUl maxSubheaders pduLen mem).1.Pairwise Apart
  reads : ∀ i ∈ (parsePacket t isUl maxSubheaders pduLen mem).2, i < pduLen

/-- The last subheader that is read ends in the PDU, and in a PDU that is accepted it has no length
field and the lengths of the others are not zero and in the shortest form. -/
def Clean (t : SubhType) (isUl : Bool) (maxSubheaders pduLen : Nat) (mem : Nat → UInt8) : Prop :=
  maxSubheaders = 0 ∨
    (scan t isUl pduLen mem (maxSubheaders - 2) 0).2.ptr ≤ pduLen ∧
      (Accepted pduLen (scan t isUl pduLen mem (maxSubheaders - 2) 0).1
          (scan t isUl pduLen mem (maxSubheaders - 2) 0).2 →
        (∀ r ∈ (scan t isUl pduLen mem (maxSubheaders - 2) 0).1, Canonical t r) ∧
          (scan t isUl pduLen mem (maxSubheaders - 2) 0).2.width = 1)

theorem inBounds_iff_clean (t : SubhType) (isUl : Bool) (maxSubheaders pduLen : Nat)
    (mem : Nat → UInt8) :
    InBounds t isUl maxSubheaders pduLen mem ↔ Clean t isUl maxSubheaders pduLen mem := by
  rcases Nat.eq_zero_or_pos maxSubheaders with rfl | hpos
  · exact iff_of_true ⟨nofun, .nil, nofun⟩ (.inl rfl)
  have hmax := Nat.ne_of_gt hpos
  have hscan := scanned_scan t isUl pduLen mem (maxSubheaders - 2) 0
  unfold Clean
  cases hfront : scan t isUl pduLen mem (maxSubheaders - 2) 0 with
  | mk front last =>
    rw [hfront] at hscan
    dsimp only at hscan ⊢
    have hreads := parsePacket_reads hmax hfront
    rw [or_iff_right hmax, ← hscan.reads_lt_iff, ← hreads]
    by_cases hacc : Accepted pduLen front last
    · have hfound := parsePacket_of_accepted hmax hfront hacc
      rw [imp_iff_right hacc, ← hscan.found_le_iff hacc, ← hfound]
      refine ⟨fun h => ⟨h.reads, h.inside⟩, fun h => ⟨h.2, ?_, h.1⟩⟩
      rw [hfound]
      refine (pairwise_found front last).imp fun hle i _ hi hcover => ?_
      omega
    · have hfound := parsePacket_of_not_accepted hmax hfront hacc
      refine ⟨fun h => ⟨h.reads, fun h' => absurd h' hacc⟩, fun h => ⟨?_, ?_, h.1⟩⟩
      · rw [hfound]
        exact nofun
      · rw [hfound]
        exact .nil

/-- An SDU of no bytes with a length field: the size of the last SDU reaches behind the PDU. -/
theorem not_inBounds_empty : ¬ InBounds .sch true 20 4 ([0x21, 0, 1, 0xAA].getD · 0) := by
  intro h
  have hle := h.inside ⟨1, 3, 3⟩ (by decide)
  exact absurd hle (by decide)

end Odss.Mac.RxPdu
