import Odss.Proofs.UmNrTx

/-!
# `Odss.Proofs.UmNrRx`: how the NR UM receiver puts an SDU together

* `readUmNrHeader_write` is the round trip of the header.
* `Entry` describes the receive buffer of one SN after some chunks of an SDU have arrived:
  the chunks up to the first gap are merged, and the others wait under their offset.
* `assemble_place` is the arrival of another chunk: the SDU is delivered when this was the last
  one that was missing.
-/

set_option linter.all false

namespace Odss.Rlc

open Odss.Lib

/-! ### Headers -/

/-- The headers that the transmitter writes. -/
structure UmNrHeader.Valid (header : UmNrHeader) : Prop where
  sn : header.sn < header.snSize.mod
  so : header.so < 2 ^ 16
  full : header.si = .fullSdu → header.sn = 0 ∧ header.so = 0
  first : header.si = .firstSegment → header.so = 0
  last : header.si = .lastSegment ∨ header.si = .neitherFirstNorLastSegment → header.so ≠ 0

theorem SiField.ofBits_toBits (si : SiField) (n : Nat) (h : n < 64) :
    SiField.ofBits ((si.toBits * 64 + n) / 64) = si := by
  have hdiv : (si.toBits * 64 + n) / 64 = si.toBits := by omega
  rw [hdiv]
  cases si <;> rfl

theorem readSo_write {header : UmNrHeader} (h : header.Valid) (consumed : Nat) (data : Bytes) :
    readSo { header with so := 0 } consumed
        ((if header.so ≠ 0 then [UInt8.ofNat (header.so / 256), UInt8.ofNat (header.so % 256)]
          else []) ++ data)
      = some (header, consumed + if header.so ≠ 0 then 2 else 0) := by
  have hso := h.so
  unfold readSo
  by_cases hsi : header.si = .lastSegment ∨ header.si = .neitherFirstNorLastSegment
  · have hne := h.last hsi
    have hhigh : (UInt8.ofNat (header.so / 256)).toNat = header.so / 256 := by
      rw [UInt8.toNat_ofNat', Nat.mod_eq_of_lt (by omega)]
    have hlow : (UInt8.ofNat (header.so % 256)).toNat = header.so % 256 := by
      rw [UInt8.toNat_ofNat', Nat.mod_eq_of_lt (by omega)]
    have hsum : header.so / 256 * 256 + header.so % 256 = header.so := by omega
    simp only [hsi, if_true, hne, ne_eq, not_false_eq_true, List.cons_append, List.nil_append,
      hhigh, hlow, hsum]
  · have hzero : header.so = 0 := by
      cases hcase : header.si with
      | fullSdu => exact (h.full hcase).2
      | firstSegment => exact h.first hcase
      | lastSegment => exact absurd (.inl hcase) hsi
      | neitherFirstNorLastSegment => exact absurd (.inr hcase) hsi
    simp only [hsi, if_false, hzero, ne_eq, not_true_eq_false, Nat.add_zero]
    rw [← hzero]

theorem SiField.toBits_lt (si : SiField) : si.toBits < 4 := by
  cases si <;> decide

theorem readUmNrHeader_write {header : UmNrHeader} (h : header.Valid) (data : Bytes) :
    readUmNrHeader header.snSize (header.write ++ data) = some (header, header.packedLength) := by
  have hbits := header.si.toBits_lt
  obtain ⟨si, snSize, sn, so⟩ := header
  by_cases hfull : si = .fullSdu
  · obtain ⟨rfl, rfl⟩ := h.full hfull
    subst hfull
    cases snSize <;> rfl
  · have hsn : sn < snSize.mod := h.sn
    have hso := readSo_write h
    cases snSize with
    | size6bits =>
      simp only [UmNrSnSize.mod] at hsn
      have hbyte : (UInt8.ofNat (si.toBits * 64 + sn % 64)).toNat = si.toBits * 64 + sn :=
        (toNat_ofNat_of_lt (by simp only at hbits; omega)).trans (by omega)
      have hsi := SiField.ofBits_toBits si sn (by omega)
      have hlow : (si.toBits * 64 + sn) % 64 = sn := by omega
      simp only [UmNrHeader.write, hfull, if_false, List.cons_append, List.nil_append,
        readUmNrHeader, hbyte, hsi, false_and, hlow, UmNrHeader.packedLength,
        if_true]
      exact hso 1 data
    | size12bits =>
      simp only [UmNrSnSize.mod] at hsn
      have hbyte : (UInt8.ofNat (si.toBits * 64 + sn / 256 % 16)).toNat
          = si.toBits * 64 + sn / 256 :=
        (toNat_ofNat_of_lt (by simp only at hbits; omega)).trans (by omega)
      have hbyte' : (UInt8.ofNat (sn % 256)).toNat = sn % 256 := toNat_ofNat_of_lt (by omega)
      have hsi := SiField.ofBits_toBits si (sn / 256) (by omega)
      have hreserved : (si.toBits * 64 + sn / 256) / 16 % 4 = 0 := by omega
      have hhigh : (si.toBits * 64 + sn / 256) % 16 * 256 + sn % 256 = sn := by omega
      simp only [UmNrHeader.write, hfull, if_false, List.cons_append, List.nil_append,
        readUmNrHeader, hbyte, hbyte', hsi, false_and, hreserved, ne_eq,
        not_true_eq_false, and_false, hhigh, UmNrHeader.packedLength]
      exact hso 2 data

/-! ### The buffer of one SN -/

/-- The chunk `j` as the receiver stores it. -/
def segmentPdu (snSize : UmNrSnSize) (sn : Nat) (cs : List Bytes) (j : Nat) : UmNrPdu :=
  ⟨segmentHeader snSize sn cs j, chunk cs j⟩

namespace UmNrSegments

/-- The receive buffer of an SN when the chunks `j` with `A j` have arrived. The first `p` of
them are merged. -/
structure Entry (snSize : UmNrSnSize) (sn : Nat) (cs : List Bytes) (A : Nat → Prop) (p : Nat)
    (pdu : UmNrSegments) : Prop where
  lt : p < cs.length
  merged : ∀ j < p, A j
  sdu : pdu.sdu = if p = 0 then none
    else some ⟨(UmNrHeader.mk .firstSegment snSize 0 0).packedLength, (cs.take p).flatten⟩
  next : pdu.nextExpectedSo = offset cs p
  segments : ∀ so rxPdu, pdu.segments.find? so = some rxPdu ↔
    ∃ j, p ≤ j ∧ j < cs.length ∧ A j ∧ so = offset cs j ∧ rxPdu = segmentPdu snSize sn cs j
  total : (A (cs.length - 1) → pdu.totalSduLength = offset cs cs.length) ∧
    (¬ A (cs.length - 1) → pdu.totalSduLength = 0)

theorem entry_empty {snSize : UmNrSnSize} {sn : Nat} {cs : List Bytes} (hcs : WellCut snSize cs) :
    Entry snSize sn cs (fun _ => False) 0 empty where
  lt := Nat.lt_of_lt_of_le (by decide) hcs.two
  merged := fun j hj => absurd hj (Nat.not_lt_zero j)
  sdu := rfl
  next := rfl
  segments := fun so rxPdu => by
    constructor
    · intro h
      cases h
    · rintro ⟨j, -, -, h, -⟩
      exact h.elim
  total := ⟨fun h => h.elim, fun _ => rfl⟩

section Entry

variable {snSize : UmNrSnSize} {sn : Nat} {cs : List Bytes} {A : Nat → Prop} {p : Nat}
  {pdu : UmNrSegments}

/-- A new chunk is placed under its offset. -/
theorem Entry.place (h : Entry snSize sn cs A p pdu) (hcs : WellCut snSize cs) {j : Nat}
    (hj : j < cs.length) (hnew : ¬ A j) :
    Entry snSize sn cs (fun k => A k ∨ k = j) p (pdu.place (segmentPdu snSize sn cs j)) := by
  have hpj : p ≤ j := by
    by_contra hlt
    exact hnew (h.merged j (by omega))
  have hfree : pdu.segments.find? (offset cs j) = none := by
    cases hfind : pdu.segments.find? (offset cs j) with
    | none => rfl
    | some rxPdu =>
      obtain ⟨k, -, hk, hAk, hoff, -⟩ := (h.segments _ _).mp hfind
      rw [offset_inj hcs.nonempty (Nat.le_of_lt hj) (Nat.le_of_lt hk) hoff] at hnew
      exact absurd hAk hnew
  have hsegments : (pdu.place (segmentPdu snSize sn cs j)).segments
      = pdu.segments.insert (offset cs j) (segmentPdu snSize sn cs j) := by
    show (if pdu.segments.contains (offset cs j) then pdu.segments else _) = _
    rw [OrdMap.contains, hfree]
    rfl
  refine ⟨h.lt, fun k hk => .inl (h.merged k hk), h.sdu, h.next, fun so rxPdu => ?_, ?_⟩
  · rw [hsegments, OrdMap.find?_insert]
    split
    · rename_i heq
      constructor
      · intro hsome
        cases hsome
        exact ⟨j, hpj, hj, .inr rfl, heq, rfl⟩
      · rintro ⟨k, -, hk, -, hoff, rfl⟩
        rw [offset_inj hcs.nonempty (Nat.le_of_lt hj) (Nat.le_of_lt hk) (heq.symm.trans hoff)]
    · rename_i hne
      rw [h.segments]
      constructor
      · rintro ⟨k, hpk, hk, hAk, hoff, rfl⟩
        exact ⟨k, hpk, hk, .inl hAk, hoff, rfl⟩
      · rintro ⟨k, hpk, hk, hAk | rfl, hoff, rfl⟩
        · exact ⟨k, hpk, hk, hAk, hoff, rfl⟩
        · exact absurd hoff hne
  · -- The chunk that ends the SDU brings its length.
    have htwo := hcs.two
    have hlast : (segmentPdu snSize sn cs j).header.si = .lastSegment ↔ j = cs.length - 1 := by
      show segmentSi cs j = .lastSegment ↔ _
      unfold segmentSi
      split
      · simp only [reduceCtorEq, false_iff]
        omega
      · split
        · simp only [true_iff]
          omega
        · simp only [reduceCtorEq, false_iff]
          omega
    have htotal : (pdu.place (segmentPdu snSize sn cs j)).totalSduLength
        = if j = cs.length - 1 then offset cs j + (chunk cs j).length
          else pdu.totalSduLength := by
      show (if (segmentPdu snSize sn cs j).header.si = .lastSegment then _ else _) = _
      simp only [hlast]
      rfl
    rw [htotal]
    split
    · rename_i heq
      have hsum : offset cs j + (chunk cs j).length = offset cs cs.length := by
        rw [← offset_succ hj]
        congr 1
        omega
      exact ⟨fun _ => hsum, fun hnot => absurd (.inr heq.symm) hnot⟩
    · rename_i hne
      refine ⟨fun hlast => h.total.1 ?_, fun hnot => h.total.2 fun hA => hnot (.inl hA)⟩
      rcases hlast with hA | heq
      · exact hA
      · exact absurd heq.symm hne

theorem assemble_skip (todo : List UmNrPdu) (pdu : UmNrSegments)
    (h : ∀ rxPdu ∈ todo, rxPdu.header.so ≠ pdu.nextExpectedSo) :
    assemble todo pdu = some (.incomplete pdu) := by
  induction todo with
  | nil => rfl
  | cons rxPdu todo ih =>
    rw [assemble, if_neg (h rxPdu List.mem_cons_self)]
    exact ih fun r hr => h r (List.mem_cons_of_mem _ hr)

/-- The segments without the chunk that is merged. -/
theorem Entry.segments_erase (h : Entry snSize sn cs A p pdu) (hcs : WellCut snSize cs)
    (so : Nat) (rxPdu : UmNrPdu) :
    (pdu.segments.erase (offset cs p)).find? so = some rxPdu ↔
      ∃ j, p + 1 ≤ j ∧ j < cs.length ∧ A j ∧ so = offset cs j ∧
        rxPdu = segmentPdu snSize sn cs j := by
  rw [OrdMap.find?_erase]
  split
  · rename_i heq
    constructor
    · intro hnone
      cases hnone
    · rintro ⟨j, hpj, hj, -, hoff, -⟩
      have hjp := offset_inj hcs.nonempty (Nat.le_of_lt h.lt) (Nat.le_of_lt hj)
        (heq.symm.trans hoff)
      omega
  · rename_i hne
    rw [h.segments]
    constructor
    · rintro ⟨j, hpj, hj, hAj, hoff, rfl⟩
      refine ⟨j, ?_, hj, hAj, hoff, rfl⟩
      rcases Nat.lt_or_eq_of_le hpj with hlt | rfl
      · exact hlt
      · exact absurd hoff hne
    · rintro ⟨j, hpj, hj, hAj, hoff, rfl⟩
      exact ⟨j, by omega, hj, hAj, hoff, rfl⟩

/-- The chunk after the merged ones fits the buffer behind them. -/
theorem chunk_le_tailroom (hcs : WellCut snSize cs) (hp : p < cs.length) :
    (chunk cs p).length ≤ (UmNrSdu.mk (UmNrHeader.mk .firstSegment snSize 0 0).packedLength
      (cs.take p).flatten).tailroom := by
  have hfits := hcs.fits
  have hsum := offset_succ hp
  have hle : offset cs (p + 1) ≤ offset cs cs.length := by
    rcases Nat.lt_or_eq_of_le hp with hlt | heq
    · exact Nat.le_of_lt (offset_lt_offset hcs.nonempty hlt (Nat.le_refl _))
    · rw [← heq]
  rw [offset_length] at hle
  have hoff : offset cs p = (cs.take p).flatten.length := rfl
  unfold UmNrSdu.tailroom
  simp only
  omega

/-- The next chunk is merged. -/
theorem Entry.merge (h : Entry snSize sn cs A p pdu) (hcs : WellCut snSize cs) (hA : A p)
    (hmore : p + 1 < cs.length) (todo : List UmNrPdu) :
    ∃ pdu', assemble (segmentPdu snSize sn cs p :: todo) pdu = assemble todo pdu' ∧
      Entry snSize sn cs A (p + 1) pdu' := by
  have hso : (segmentPdu snSize sn cs p).header.so = offset cs p := rfl
  have hbuf : (segmentPdu snSize sn cs p).buf = chunk cs p := rfl
  have hmerged : ∀ j < p + 1, A j := by
    intro j hj
    rcases Nat.lt_or_eq_of_le (Nat.le_of_lt_succ hj) with hlt | rfl
    · exact h.merged j hlt
    · exact hA
  by_cases hp : p = 0
  · -- The first chunk becomes the buffer of the SDU.
    subst hp
    refine ⟨pdu.start (segmentPdu snSize sn cs 0), ?_, hmore, hmerged, ?_, ?_,
      h.segments_erase hcs, h.total⟩
    · rw [assemble, h.sdu, h.next, hso]
      simp
    · have hflatten := flatten_take_succ h.lt
      rw [List.take_zero, List.flatten_nil, List.nil_append] at hflatten
      rw [if_neg (Nat.succ_ne_zero 0), hflatten]
      rfl
    · rw [offset_succ h.lt, offset_zero, Nat.zero_add]
      rfl
  · have hpos : offset cs p ≠ 0 := by
      rw [ne_eq, offset_eq_zero_iff hcs.nonempty (Nat.le_of_lt h.lt)]
      exact hp
    have hroom := chunk_le_tailroom hcs h.lt
    have hnotTotal : offset cs p + (chunk cs p).length ≠ pdu.totalSduLength := by
      rw [← offset_succ h.lt]
      by_cases hlast : A (cs.length - 1)
      · rw [h.total.1 hlast]
        have := offset_lt_offset hcs.nonempty hmore (Nat.le_refl _)
        omega
      · rw [h.total.2 hlast]
        have := offset_lt_succ hcs.nonempty h.lt
        omega
    refine ⟨pdu.append ⟨(UmNrHeader.mk .firstSegment snSize 0 0).packedLength,
      (cs.take p).flatten⟩ (segmentPdu snSize sn cs p), ?_, hmore, hmerged, ?_, ?_,
      h.segments_erase hcs, h.total⟩
    · rw [assemble, h.sdu, h.next, hso, if_neg hp, if_pos rfl]
      simp only [hpos, if_false]
      rw [hbuf, if_neg (Nat.not_lt_of_le hroom), if_neg hnotTotal]
    · rw [if_neg (Nat.succ_ne_zero p), flatten_take_succ h.lt]
      rfl
    · show pdu.nextExpectedSo + (chunk cs p).length = _
      rw [h.next, offset_succ h.lt]

theorem Entry.merge_last (h : Entry snSize sn cs A p pdu) (hcs : WellCut snSize cs) (hA : A p)
    (hlast : p + 1 = cs.length) (todo : List UmNrPdu) :
    assemble (segmentPdu snSize sn cs p :: todo) pdu = some (.complete cs.flatten) := by
  have htwo := hcs.two
  have hp : p ≠ 0 := by omega
  have hso : (segmentPdu snSize sn cs p).header.so = offset cs p := rfl
  have hbuf : (segmentPdu snSize sn cs p).buf = chunk cs p := rfl
  have hpos : offset cs p ≠ 0 := by
    rw [ne_eq, offset_eq_zero_iff hcs.nonempty (Nat.le_of_lt h.lt)]
    exact hp
  have hroom := chunk_le_tailroom hcs h.lt
  have htotal : offset cs p + (chunk cs p).length = pdu.totalSduLength := by
    have hend : cs.length - 1 = p := by omega
    rw [h.total.1 (by rw [hend]; exact hA), ← offset_succ h.lt, hlast]
  have hall : (cs.take p).flatten ++ chunk cs p = cs.flatten := by
    rw [← flatten_take_succ h.lt, hlast, List.take_length]
  rw [assemble, h.sdu, h.next, hso, if_neg hp, if_pos rfl]
  simp only [hpos, if_false]
  rw [hbuf, if_neg (Nat.not_lt_of_le hroom), if_pos htotal, hall]

/-- The loop over the segments delivers the SDU when all the chunks have arrived, and merges the
chunks up to the first gap otherwise. -/
theorem Entry.assemble (h : Entry snSize sn cs A p pdu) (hcs : WellCut snSize cs)
    {todo : List UmNrPdu} (hsorted : todo.Pairwise fun a b => a.header.so < b.header.so)
    (hmem : ∀ rxPdu, rxPdu ∈ todo ↔
      ∃ j, p ≤ j ∧ j < cs.length ∧ A j ∧ rxPdu = segmentPdu snSize sn cs j) :
    ((∀ j < cs.length, A j) → assemble todo pdu = some (.complete cs.flatten)) ∧
      ((¬ ∀ j < cs.length, A j) → ∃ p' pdu', assemble todo pdu = some (.incomplete pdu') ∧
        Entry snSize sn cs A p' pdu') := by
  induction todo generalizing p pdu with
  | nil =>
    refine ⟨fun hall => ?_, fun _ => ⟨p, pdu, rfl, h⟩⟩
    exact absurd ((hmem _).mpr ⟨p, Nat.le_refl p, h.lt, hall p h.lt, rfl⟩) List.not_mem_nil
  | cons rxPdu todo ih =>
    obtain ⟨j, hpj, hj, hAj, rfl⟩ := (hmem rxPdu).mp List.mem_cons_self
    rw [List.pairwise_cons] at hsorted
    rcases Nat.lt_or_eq_of_le hpj with hlt | rfl
    · -- The chunk `p` is missing: it would come first.
      have hgap : ¬ A p := by
        intro hA
        rcases List.mem_cons.mp ((hmem _).mpr ⟨p, Nat.le_refl p, h.lt, hA, rfl⟩) with heq | hin
        · have hoff : offset cs p = offset cs j := congrArg (fun r => r.header.so) heq
          have hne := offset_inj hcs.nonempty (Nat.le_of_lt h.lt) (Nat.le_of_lt hj) hoff
          omega
        · have hoff : offset cs j < offset cs p := hsorted.1 _ hin
          rw [offset_lt_iff hcs.nonempty (Nat.le_of_lt hj) (Nat.le_of_lt h.lt)] at hoff
          omega
      have hbehind : ∀ r ∈ segmentPdu snSize sn cs j :: todo, r.header.so ≠ pdu.nextExpectedSo := by
        intro r hr
        obtain ⟨k, hpk, hk, hAk, rfl⟩ := (hmem r).mp hr
        rw [h.next]
        intro hoff
        have hkp := offset_inj hcs.nonempty (Nat.le_of_lt hk) (Nat.le_of_lt h.lt) hoff
        rw [hkp] at hAk
        exact hgap hAk
      exact ⟨fun hall => absurd (hall p h.lt) hgap,
        fun _ => ⟨p, pdu, assemble_skip _ _ hbehind, h⟩⟩
    · have hrest : ∀ rxPdu, rxPdu ∈ todo ↔
          ∃ k, p + 1 ≤ k ∧ k < cs.length ∧ A k ∧ rxPdu = segmentPdu snSize sn cs k := by
        intro rxPdu
        constructor
        · intro hin
          obtain ⟨k, hpk, hk, hAk, rfl⟩ := (hmem rxPdu).mp (List.mem_cons_of_mem _ hin)
          have hoff : offset cs p < offset cs k := hsorted.1 _ hin
          rw [offset_lt_iff hcs.nonempty (Nat.le_of_lt h.lt) (Nat.le_of_lt hk)] at hoff
          exact ⟨k, hoff, hk, hAk, rfl⟩
        · rintro ⟨k, hpk, hk, hAk, rfl⟩
          rcases List.mem_cons.mp ((hmem _).mpr ⟨k, by omega, hk, hAk, rfl⟩) with heq | hin
          · have hoff : offset cs k = offset cs p := congrArg (fun r => r.header.so) heq
            have hkp := offset_inj hcs.nonempty (Nat.le_of_lt hk) (Nat.le_of_lt h.lt) hoff
            omega
          · exact hin
      rcases Nat.lt_or_eq_of_le hj with hmore | hlast
      · obtain ⟨pdu', hstep, hentry⟩ := h.merge hcs hAj hmore todo
        rw [hstep]
        exact ih hentry hsorted.2 hrest
      · refine ⟨fun _ => h.merge_last hcs hAj hlast todo, fun hnot => absurd (fun k hk => ?_) hnot⟩
        rcases Nat.lt_or_eq_of_le (show k ≤ p by omega) with hlt | rfl
        · exact h.merged k hlt
        · exact hAj

/-- The values of the segments are sorted by their offsets, and each is a chunk. -/
theorem Entry.values (h : Entry snSize sn cs A p pdu) :
    (pdu.segments.values.Pairwise fun a b => a.header.so < b.header.so) ∧
      ∀ rxPdu, rxPdu ∈ pdu.segments.values ↔
        ∃ j, p ≤ j ∧ j < cs.length ∧ A j ∧ rxPdu = segmentPdu snSize sn cs j := by
  have hkey : ∀ e ∈ pdu.segments.entries, e.2.header.so = e.1 := by
    rintro ⟨so, rxPdu⟩ he
    obtain ⟨j, -, -, -, hso, rfl⟩ := (h.segments so rxPdu).mp ((OrdMap.mem_entries_iff _ _ _).mp he)
    exact hso.symm
  constructor
  · rw [OrdMap.values, List.pairwise_map]
    refine List.Pairwise.imp_of_mem ?_ pdu.segments.sorted
    intro e e' he he' hlt
    rw [hkey e he, hkey e' he']
    exact hlt
  · intro rxPdu
    rw [OrdMap.values, List.mem_map]
    constructor
    · rintro ⟨⟨so, r⟩, he, rfl⟩
      obtain ⟨j, hpj, hj, hA, -, hr⟩ := (h.segments so r).mp ((OrdMap.mem_entries_iff _ _ _).mp he)
      exact ⟨j, hpj, hj, hA, hr⟩
    · rintro ⟨j, hpj, hj, hA, rfl⟩
      exact ⟨(offset cs j, _), (OrdMap.mem_entries_iff _ _ _).mpr
        ((h.segments _ _).mpr ⟨j, hpj, hj, hA, rfl, rfl⟩), rfl⟩

end Entry

/-- The arrival of a new chunk: the last one that is missing completes the SDU. -/
theorem assemble_place {snSize : UmNrSnSize} {sn : Nat} {cs : List Bytes} {A : Nat → Prop} {p : Nat}
    {pdu : UmNrSegments} (h : Entry snSize sn cs A p pdu) (hcs : WellCut snSize cs) {j : Nat}
    (hj : j < cs.length) (hnew : ¬ A j) :
    ((∀ k < cs.length, A k ∨ k = j) →
      assemble (pdu.place (segmentPdu snSize sn cs j)).segments.values
        (pdu.place (segmentPdu snSize sn cs j)) = some (.complete cs.flatten)) ∧
    ((¬ ∀ k < cs.length, A k ∨ k = j) → ∃ p' pdu',
      assemble (pdu.place (segmentPdu snSize sn cs j)).segments.values
        (pdu.place (segmentPdu snSize sn cs j)) = some (.incomplete pdu') ∧
      Entry snSize sn cs (fun k => A k ∨ k = j) p' pdu') := by
  have hplaced := h.place hcs hj hnew
  exact hplaced.assemble hcs hplaced.values.1 hplaced.values.2

end UmNrSegments

end Odss.Rlc
