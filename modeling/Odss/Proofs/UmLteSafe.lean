import Odss.Proofs.UmLteWindow

/-!
# `Odss.Proofs.UmLteSafe`: hostile PDUs at the LTE UM receiver

The header parser follows the extension bits, whatever the number of received bytes.
`readUmdHeader_iff` says when it stays inside of them and of `li`: the extension bits end in time.

`LowerEdgeFits` and `InSequenceFits` say of a PDU in front of one of the two loops of
`reassemble_rx_sdus` that its segments lie inside of it and fit the SDU buffer. `step_iff_fits`: a call
returns exactly when every PDU that it processes fits.
-/

set_option linter.all false

namespace Odss.Rlc

open Odss.Lib

/-! ### The header -/

/-- The extension bit behind `k` length indicators. `ext` is the one of the fixed part, and `bytes` are
those behind the fixed part. -/
def extAfter (ext : Bool) (bytes : Bytes) (k : Nat) : Bool :=
  if k = 0 then ext
  else if k % 2 = 1 then (bytes.getD (3 * (k / 2)) 0).toNat / 128 == 1
  else (bytes.getD (3 * (k / 2) - 2) 0).toNat / 8 % 2 == 1

/-- The extension bits end behind `n` length indicators, and these lie inside of the bytes. -/
structure LisEnd (ext : Bool) (bytes : Bytes) (n : Nat) : Prop where
  goes : ∀ k < n, extAfter ext bytes k = true
  ends : extAfter ext bytes n = false
  inside : (3 * n + 1) / 2 ≤ bytes.length

theorem extAfter_add_two (ext : Bool) (b₀ b₁ b₂ : UInt8) (rest : Bytes) (k : Nat) :
    extAfter ext (b₀ :: b₁ :: b₂ :: rest) (k + 2) = extAfter (b₁.toNat / 8 % 2 == 1) rest k := by
  have hdiv : (k + 2) / 2 = k / 2 + 1 := by omega
  unfold extAfter
  rw [if_neg (by omega), hdiv]
  rcases Nat.mod_two_eq_zero_or_one k with heven | hodd
  · rw [if_neg (by omega)]
    rcases Nat.eq_zero_or_pos k with rfl | hpos
    · rfl
    · rw [if_neg (by omega), if_neg (by omega)]
      have hindex : 3 * (k / 2 + 1) - 2 = 3 * (k / 2) - 2 + 3 := by omega
      rw [hindex]
      rfl
  · rw [if_pos (by omega), if_neg (by omega), if_pos hodd]
    rfl

theorem lisEnd_add_two_iff {ext : Bool} {b₀ b₁ b₂ : UInt8} {rest : Bytes} {n : Nat} (hext : ext = true)
    (hb₀ : ¬ b₀.toNat / 128 = 0) :
    LisEnd ext (b₀ :: b₁ :: b₂ :: rest) (n + 2) ↔ LisEnd (b₁.toNat / 8 % 2 == 1) rest n := by
  have hbit : b₀.toNat / 128 = 1 := by
    have := b₀.toNat_lt
    omega
  constructor
  · intro h
    refine ⟨fun k hk => ?_, ?_, ?_⟩
    · rw [← extAfter_add_two ext b₀ b₁ b₂ rest k]
      exact h.goes (k + 2) (by omega)
    · rw [← extAfter_add_two ext b₀ b₁ b₂ rest n]
      exact h.ends
    · have := h.inside
      simp only [List.length_cons] at this
      omega
  · intro h
    refine ⟨fun k hk => ?_, ?_, ?_⟩
    · match k with
      | 0 => exact hext
      | 1 => simp [extAfter, hbit]
      | k + 2 =>
        rw [extAfter_add_two]
        exact h.goes k (by omega)
    · rw [extAfter_add_two]
      exact h.ends
    · have := h.inside
      simp only [List.length_cons]
      omega

theorem readUmdLis_spec {room : Nat} {ext : Bool} {bytes : Bytes} {lis : List Nat}
    (h : readUmdLis room ext bytes = some lis) :
    lis.length ≤ room ∧ LisEnd ext bytes lis.length ∧ ∀ l ∈ lis, l < 2048 := by
  induction room, ext, bytes using readUmdLis.induct generalizing lis with
  | case1 room ext bytes hext =>
    rw [readUmdLis.eq_def, if_pos hext] at h
    cases h
    have hfalse : ext = false := by simpa using hext
    exact ⟨Nat.zero_le _, ⟨by simp, hfalse, by simp⟩, by simp⟩
  | case2 ext hext room b₀ b₁ rest hb₀ =>
    rw [readUmdLis, if_neg hext] at h
    simp only [if_pos hb₀] at h
    cases h
    have htrue : ext = true := by simpa using hext
    have hlt := b₁.toNat_lt
    refine ⟨by simp, ⟨fun k hk => ?_, ?_, by simp⟩, fun l hl => ?_⟩
    · have hk : k < 1 := hk
      obtain rfl : k = 0 := by omega
      exact htrue
    · simp [extAfter, hb₀]
    · obtain rfl := List.mem_singleton.mp hl
      omega
  | case3 ext hext b₀ b₁ hb₀ room b₂ rest ih =>
    rw [readUmdLis, if_neg hext] at h
    simp only [if_neg hb₀] at h
    obtain ⟨lis', hread, rfl⟩ := Option.map_eq_some_iff.mp h
    obtain ⟨hlength, hend, hlt⟩ := ih hread
    have htrue : ext = true := by simpa using hext
    have := b₁.toNat_lt
    have := b₂.toNat_lt
    refine ⟨?_, (lisEnd_add_two_iff htrue hb₀).mpr hend, fun l hl => ?_⟩
    · simp only [List.length_cons]
      omega
    · simp only [List.mem_cons] at hl
      rcases hl with rfl | rfl | hl
      · omega
      · omega
      · exact hlt l hl
  | case4 ext hext room b₀ b₁ rest hb₀ hshort =>
    rw [readUmdLis, if_neg hext] at h
    simp only [if_neg hb₀] at h
    cases h
  | case5 room ext bytes hext hshort =>
    rw [readUmdLis.eq_def, if_neg hext] at h
    split at h
    · rename_i room' b₀ b₁ rest
      exact absurd rfl (hshort room' b₀ b₁ rest rfl)
    · cases h

/-- Length indicators that end in time are read. -/
theorem readUmdLis_of_lisEnd {room : Nat} {ext : Bool} {bytes : Bytes} {n : Nat} (hroom : n ≤ room)
    (h : LisEnd ext bytes n) : ∃ lis, readUmdLis room ext bytes = some lis := by
  induction room, ext, bytes using readUmdLis.induct generalizing n with
  | case1 room ext bytes hext => exact ⟨[], by rw [readUmdLis.eq_def, if_pos hext]⟩
  | case2 ext hext room b₀ b₁ rest hb₀ =>
    exact ⟨[b₀.toNat % 128 * 16 + b₁.toNat / 16], by rw [readUmdLis, if_neg hext]; simp only [if_pos hb₀]⟩
  | case3 ext hext b₀ b₁ hb₀ room b₂ rest ih =>
    have htrue : ext = true := by simpa using hext
    match n with
    | 0 =>
      have hends := h.ends
      simp [extAfter, htrue] at hends
    | 1 =>
      have hends := h.ends
      have := b₀.toNat_lt
      have hbit : b₀.toNat / 128 = 1 := by omega
      simp [extAfter, hbit] at hends
    | n + 2 =>
      obtain ⟨lis, hread⟩ := ih (by omega) ((lisEnd_add_two_iff htrue hb₀).mp h)
      exact ⟨_, by rw [readUmdLis, if_neg hext]; simp only [if_neg hb₀, hread]; rfl⟩
  | case4 ext hext room b₀ b₁ rest hb₀ hshort =>
    have htrue : ext = true := by simpa using hext
    have hinside := h.inside
    have hends := h.ends
    match n, room, rest with
    | 0, _, _ => simp [extAfter, htrue] at hends
    | 1, _, _ =>
      have := b₀.toNat_lt
      have hbit : b₀.toNat / 128 = 1 := by omega
      simp [extAfter, hbit] at hends
    | n + 2, 0, _ => omega
    | n + 2, _ + 1, [] =>
      simp only [List.length_cons, List.length_nil] at hinside
      omega
    | n + 2, room + 1, b₂ :: rest => exact absurd rfl (hshort room b₂ rest rfl)
  | case5 room ext bytes hext hshort =>
    have htrue : ext = true := by simpa using hext
    have hinside := h.inside
    have hends := h.ends
    match n, room, bytes with
    | 0, _, _ => simp [extAfter, htrue] at hends
    | n + 1, 0, _ => omega
    | n + 1, _ + 1, [] =>
      simp only [List.length_nil] at hinside
      omega
    | n + 1, _ + 1, [_] =>
      simp only [List.length_cons, List.length_nil] at hinside
      omega
    | n + 1, room + 1, b₀ :: b₁ :: rest => exact absurd rfl (hshort room b₀ b₁ rest rfl)

/-- The extension bit of the fixed part. -/
def firstExt : UmdSnSize → Bytes → Bool
  | .size5bits, bytes => (bytes.getD 0 0).toNat / 32 % 2 == 1
  | .size10bits, bytes => (bytes.getD 0 0).toNat / 4 % 2 == 1

/-- The header, with at most 512 length indicators, lies inside of the bytes. -/
structure HeaderFits (snSize : UmdSnSize) (bytes : Bytes) : Prop where
  fixed : snSize.fixedLength ≤ bytes.length
  lis : ∃ n ≤ maxUmdLis, LisEnd (firstExt snSize bytes) (bytes.drop snSize.fixedLength) n

theorem readUmdHeader_spec {snSize : UmdSnSize} {bytes : Bytes} {header : UmdHeader}
    (h : readUmdHeader snSize bytes = some header) :
    HeaderFits snSize bytes ∧ header.packedLength ≤ bytes.length ∧ ∀ l ∈ header.li, l < 2048 := by
  unfold readUmdHeader at h
  split at h
  · obtain ⟨lis, hread, rfl⟩ := Option.map_eq_some_iff.mp h
    obtain ⟨hroom, hend, hlt⟩ := readUmdLis_spec hread
    have hinside := hend.inside
    refine ⟨⟨by simp [UmdSnSize.fixedLength], lis.length, hroom, hend⟩, ?_, hlt⟩
    simp only [UmdHeader.packedLength, UmdSnSize.fixedLength, List.length_cons]
    omega
  · obtain ⟨lis, hread, rfl⟩ := Option.map_eq_some_iff.mp h
    obtain ⟨hroom, hend, hlt⟩ := readUmdLis_spec hread
    have hinside := hend.inside
    refine ⟨⟨by simp [UmdSnSize.fixedLength], lis.length, hroom, hend⟩, ?_, hlt⟩
    simp only [UmdHeader.packedLength, UmdSnSize.fixedLength, List.length_cons]
    omega
  · cases h

/-- The parser stays inside of the bytes and of `li` exactly for a header that lies inside. -/
theorem readUmdHeader_iff {snSize : UmdSnSize} {bytes : Bytes} :
    (∃ header, readUmdHeader snSize bytes = some header) ↔ HeaderFits snSize bytes := by
  constructor
  · rintro ⟨header, h⟩
    exact (readUmdHeader_spec h).1
  · rintro ⟨hfixed, n, hn, hend⟩
    obtain ⟨lis, hread⟩ := readUmdLis_of_lisEnd hn hend
    match snSize, bytes with
    | .size5bits, [] => simp [UmdSnSize.fixedLength] at hfixed
    | .size10bits, [] => simp [UmdSnSize.fixedLength] at hfixed
    | .size10bits, [_] => simp [UmdSnSize.fixedLength] at hfixed
    | .size5bits, b₀ :: rest =>
      have hread : readUmdLis maxUmdLis (b₀.toNat / 32 % 2 == 1) rest = some lis := hread
      exact ⟨_, by simp only [readUmdHeader, hread]; rfl⟩
    | .size10bits, b₀ :: b₁ :: rest =>
      have hread : readUmdLis maxUmdLis (b₀.toNat / 4 % 2 == 1) rest = some lis := hread
      exact ⟨_, by simp only [readUmdHeader, hread]; rfl⟩

namespace UmLteRx

/-! ### The PDUs in the loops -/

/-- A PDU at the lower edge stays in the buffers: it is dropped because the start of its SDU is
missing, or its length indicators lie inside of it and its first segment fits the SDU buffer. -/
def LowerEdgeFits (s : UmLteRx) (pdu : UmdPdu) : Prop :=
  (s.rxSdu = [] ∧ pdu.header.fi.startAligned = false) ∨
    (pdu.header.li.sum ≤ pdu.buf.length ∧
      s.rxSdu.length + pdu.header.li.headD pdu.buf.length ≤ bufferTailroom)

/-- A PDU in sequence stays in the buffers. Without length indicators, it is dropped because the start
of its SDU is missing, or the SDU does not grow beyond the tailroom, except to a length that the source
refuses. With length indicators, they lie inside of it, or it is dropped at the first one. -/
def InSequenceFits (s : UmLteRx) (pdu : UmdPdu) : Prop :=
  match pdu.header.li with
  | [] =>
    (s.checkBelongs.rxSdu = [] ∧ pdu.header.fi.startAligned = false) ∨
      s.checkBelongs.rxSdu.length + pdu.buf.length ≤ bufferTailroom ∨
        maxBufferSizeBytes ≤ s.checkBelongs.rxSdu.length + pdu.buf.length
  | len :: lis =>
    (len :: lis).sum ≤ pdu.buf.length ∨
      if s.checkBelongs.rxSdu = [] ∧ pdu.header.fi.startAligned = false then pdu.buf.length < len
      else bufferTailroom < s.checkBelongs.rxSdu.length + len

/-- A PDU whose bytes came in one buffer. -/
structure Sane (pdu : UmdPdu) : Prop where
  buf : pdu.buf.length ≤ bufferTailroom
  lis : ∀ l ∈ pdu.header.li, l ≤ bufferTailroom

/-- The PDUs in the window and the SDU under assembly fit their buffers. -/
structure Bounded (s : UmLteRx) : Prop where
  pdus : ∀ sn pdu, s.rxWindow.find? sn = some pdu → Sane pdu
  sdu : s.rxSdu.length ≤ bufferTailroom

section Rounds

variable {s t : UmLteRx} {pdu : UmdPdu} {sdus : List Bytes}

theorem exists_copyToSdu_iff {sdu buf : Bytes} {len : Nat} :
    (∃ r, copyToSdu sdu buf len = some r) ↔
      len ≤ buf.length ∧ sdu.length + len ≤ bufferTailroom := by
  simp only [copyToSdu_eq_some_iff]
  constructor
  · rintro ⟨r, h₁, h₂, -⟩
    exact ⟨h₁, h₂⟩
  · rintro ⟨h₁, h₂⟩
    exact ⟨_, h₁, h₂, rfl⟩

theorem exists_appendLast_iff {sdu buf : Bytes} :
    (∃ r, appendLast sdu buf = some r) ↔
      sdu.length + buf.length ≤ bufferTailroom ∨ maxBufferSizeBytes ≤ sdu.length + buf.length := by
  unfold appendLast
  split
  · rename_i hlt
    rw [exists_copyToSdu_iff]
    constructor
    · intro h
      exact .inl h.2
    · intro h
      exact ⟨Nat.le_refl _, h.resolve_right (by omega)⟩
  · rename_i hge
    exact ⟨fun _ => .inr (by omega), fun _ => ⟨sdu, rfl⟩⟩

/-- The last segment of a PDU with length indicators fits an empty buffer. -/
theorem appendLast_of_cut {lis : List Nat} {buf last : Bytes} {pieces : List Bytes}
    (hcut : cut lis buf = some (pieces, last)) (hbuf : buf.length ≤ bufferTailroom) :
    appendLast [] last = some last := by
  have hlength := length_of_cut hcut
  have hfits : ([] : Bytes).length + last.length < maxBufferSizeBytes := by
    simp only [List.length_nil, maxBufferSizeBytes]
    omega
  rw [appendLast, if_pos hfits, copyToSdu_nil (by omega), if_pos (Nat.le_refl _), List.take_length]

theorem lowerEdgePdu_iff (hsane : Sane pdu) :
    (∃ t sdus, s.lowerEdgePdu pdu = some (t, sdus)) ↔ LowerEdgeFits s pdu := by
  have hpair : (∃ t sdus, s.lowerEdgePdu pdu = some (t, sdus)) ↔ ∃ r, s.lowerEdgePdu pdu = some r :=
    ⟨fun ⟨t, sdus, h⟩ => ⟨_, h⟩, fun ⟨r, h⟩ => ⟨r.1, r.2, h⟩⟩
  rw [hpair]
  by_cases hlost : s.rxSdu = [] ∧ pdu.header.fi.startAligned = false
  · exact ⟨fun _ => .inl hlost, fun _ => ⟨_, lowerEdgePdu_of_lost hlost.1 hlost.2⟩⟩
  have hstart : s.rxSdu = [] → pdu.header.fi.startAligned = true := by
    intro hnil
    by_contra hnot
    exact hlost ⟨hnil, Bool.eq_false_iff.mpr hnot⟩
  unfold LowerEdgeFits
  rw [or_iff_right hlost]
  cases hli : pdu.header.li with
  | nil =>
    rw [lowerEdgePdu_nil hli hstart]
    simp only [Option.map_eq_some_iff, exists_and_left, exists_comm (α := UmLteRx × List Bytes),
      exists_eq', and_true, List.sum_nil, Nat.zero_le, true_and, List.headD_nil]
    rw [exists_copyToSdu_iff]
    exact and_iff_right (Nat.le_refl _)
  | cons len lis =>
    have hlis : ∀ l ∈ lis, l ≤ bufferTailroom := fun l hl =>
      hsane.lis l (by rw [hli]; exact List.mem_cons_of_mem _ hl)
    rw [lowerEdgePdu_cons hli hlis hstart]
    simp only [List.sum_cons, List.headD_cons]
    constructor
    · rintro ⟨r, h⟩
      obtain ⟨sdu, hcopy, h⟩ := Option.bind_eq_some_iff.mp h
      obtain ⟨c, hcut, -⟩ := Option.bind_eq_some_iff.mp h
      obtain ⟨hlen, hfits, -⟩ := copyToSdu_eq_some_iff.mp hcopy
      have hsum := cut_ne_none_iff.mp ⟨c, hcut⟩
      rw [List.length_drop] at hsum
      exact ⟨by omega, hfits⟩
    · rintro ⟨hsum, hfits⟩
      obtain ⟨sdu, hcopy⟩ := exists_copyToSdu_iff.mpr
        (⟨by omega, hfits⟩ : len ≤ pdu.buf.length ∧ s.rxSdu.length + len ≤ bufferTailroom)
      obtain ⟨⟨pieces, last⟩, hcut⟩ := cut_ne_none_iff.mpr
        (show lis.sum ≤ (pdu.buf.drop len).length by rw [List.length_drop]; omega)
      have hlength := length_of_cut hcut
      rw [List.length_drop] at hlength
      have hbuf := hsane.buf
      simp only [hcopy, hcut, Option.bind_some, Option.map_eq_some_iff, exists_comm (α := UmLteRx × List Bytes),
        exists_eq', and_true, exists_and_left]
      unfold lowerEdgeLast
      split
      · obtain ⟨r, hr⟩ := exists_copyToSdu_iff.mpr
          (⟨Nat.le_refl _, by simp only [withSdu, List.length_nil]; omega⟩ :
            last.length ≤ last.length ∧ (s.withSdu [] false s.vrUrInRxSdu).rxSdu.length + last.length ≤
              bufferTailroom)
        exact ⟨_, by rw [hr]⟩
      · exact ⟨_, rfl⟩

theorem inSequencePdu_iff (hsane : Sane pdu) (hsdu : s.rxSdu.length ≤ bufferTailroom) :
    (∃ t sdus, s.inSequencePdu pdu = some (t, sdus)) ↔ InSequenceFits s pdu := by
  have hpair : (∃ t sdus, s.inSequencePdu pdu = some (t, sdus)) ↔ ∃ r, s.inSequencePdu pdu = some r :=
    ⟨fun ⟨t, sdus, h⟩ => ⟨_, h⟩, fun ⟨r, h⟩ => ⟨r.1, r.2, h⟩⟩
  rw [hpair]
  have hcheck : s.checkBelongs.rxSdu.length ≤ bufferTailroom := by
    unfold checkBelongs
    split
    · exact hsdu
    · exact Nat.zero_le _
  have hbuf := hsane.buf
  have hstart : ¬ (s.checkBelongs.rxSdu = [] ∧ pdu.header.fi.startAligned = false) →
      s.checkBelongs.rxSdu = [] → pdu.header.fi.startAligned = true := by
    intro hlost hnil
    by_contra hnot
    exact hlost ⟨hnil, Bool.eq_false_iff.mpr hnot⟩
  unfold InSequenceFits
  cases hli : pdu.header.li with
  | nil =>
    simp only
    by_cases hlost : s.checkBelongs.rxSdu = [] ∧ pdu.header.fi.startAligned = false
    · exact ⟨fun _ => .inl hlost, fun _ => ⟨_, inSequencePdu_nil_of_lost hli hlost.1 hlost.2⟩⟩
    · rw [or_iff_right hlost, ← exists_appendLast_iff, inSequencePdu_nil hli (hstart hlost)]
      constructor
      · rintro ⟨r, h⟩
        obtain ⟨sdu, hcopy, -⟩ := Option.map_eq_some_iff.mp h
        exact ⟨sdu, hcopy⟩
      · rintro ⟨sdu, hcopy⟩
        exact ⟨_, by rw [hcopy]; rfl⟩
  | cons len lis =>
    simp only
    have hlis : ∀ l ∈ lis, l ≤ bufferTailroom := fun l hl =>
      hsane.lis l (by rw [hli]; exact List.mem_cons_of_mem _ hl)
    have hcut : len ≤ pdu.buf.length → ((∃ c, cut lis (pdu.buf.drop len) = some c) ↔
        (len :: lis).sum ≤ pdu.buf.length) := by
      intro hlen
      rw [cut_ne_none_iff, List.length_drop, List.sum_cons]
      omega
    have hsum : (len :: lis).sum ≤ pdu.buf.length → len ≤ pdu.buf.length := by
      rw [List.sum_cons]
      omega
    have hrest : (pdu.buf.drop len).length ≤ bufferTailroom := by
      rw [List.length_drop]
      omega
    by_cases hlost : s.checkBelongs.rxSdu = [] ∧ pdu.header.fi.startAligned = false
    · rw [if_pos hlost, inSequencePdu_cons_of_lost hli hlis hlost.1 hlost.2]
      by_cases hshort : pdu.buf.length < len
      · rw [if_pos hshort]
        exact ⟨fun _ => .inr hshort, fun _ => ⟨_, rfl⟩⟩
      · rw [if_neg hshort, or_iff_left hshort, ← hcut (by omega)]
        constructor
        · rintro ⟨r, h⟩
          obtain ⟨c, hc, -⟩ := Option.bind_eq_some_iff.mp h
          exact ⟨c, hc⟩
        · rintro ⟨⟨pieces, last⟩, hc⟩
          rw [hc, Option.bind_some, appendLast_of_cut hc hrest]
          exact ⟨_, rfl⟩
    · rw [if_neg hlost, inSequencePdu_cons hli hlis (hstart hlost)]
      by_cases hlong : len > bufferTailroom - s.checkBelongs.rxSdu.length
      · rw [if_pos hlong]
        exact ⟨fun _ => .inr (by omega), fun _ => ⟨_, rfl⟩⟩
      · rw [if_neg hlong, or_iff_left (by omega)]
        constructor
        · rintro ⟨r, h⟩
          obtain ⟨sdu, hcopy, h⟩ := Option.bind_eq_some_iff.mp h
          obtain ⟨c, hc, -⟩ := Option.bind_eq_some_iff.mp h
          exact (hcut (copyToSdu_eq_some_iff.mp hcopy).1).mp ⟨c, hc⟩
        · intro hfits
          obtain ⟨sdu, hcopy⟩ := exists_copyToSdu_iff.mpr
            (⟨hsum hfits, by omega⟩ : len ≤ pdu.buf.length ∧
              s.checkBelongs.rxSdu.length + len ≤ bufferTailroom)
          obtain ⟨⟨pieces, last⟩, hc⟩ := (hcut (hsum hfits)).mpr hfits
          rw [hcopy, Option.bind_some, hc, Option.bind_some, appendLast_of_cut hc hrest]
          exact ⟨_, rfl⟩

/-! ### The bounds are kept -/

theorem Bounded.next (h : Bounded s) (hframe : s.SduOnly t) : Bounded t.nextSn := by
  have hsdu := hframe.length h.sdu
  obtain ⟨sdu, lost, last, rfl, -⟩ := hframe
  refine ⟨fun sn pdu hfind => ?_, hsdu⟩
  have hfind : (s.rxWindow.erase s.vrUr).find? sn = some pdu := hfind
  rw [OrdMap.find?_erase] at hfind
  split at hfind
  · cases hfind
  · exact h.pdus sn pdu hfind

/-- A PDU that is written to the window came in one buffer. -/
theorem Bounded.place (h : Bounded s) (hsane : Sane pdu) : Bounded (s.place pdu) := by
  have hinsert : Bounded { s with rxWindow := s.rxWindow.insert pdu.header.sn pdu } := by
    refine ⟨fun sn q hfind => ?_, h.sdu⟩
    have hfind : (s.rxWindow.insert pdu.header.sn pdu).find? sn = some q := hfind
    rw [OrdMap.find?_insert] at hfind
    split at hfind
    · cases hfind
      exact hsane
    · exact h.pdus sn q hfind
  unfold UmLteRx.place
  simp only
  split
  · exact hinsert
  · exact ⟨hinsert.pdus, hinsert.sdu⟩

theorem bounded_catchUp (h : Bounded s) (hrun : s.catchUp = some (t, sdus)) : Bounded t :=
  loop_state_invariant Bounded (fun u v out _ hu hround => by
    obtain ⟨w, hframe, rfl⟩ := lowerEdgeRound_frame hround
    exact hu.next hframe) h hrun

theorem bounded_advance (h : Bounded s) (hrun : s.advance = some (t, sdus)) : Bounded t :=
  loop_state_invariant Bounded (fun u v out hcond hu hround => by
    obtain ⟨w, hframe, rfl⟩ := inSequenceRound_frame hcond hround
    exact hu.next hframe) h hrun

theorem bounded_reassembleRxSdus (h : Bounded s) (hrun : s.reassembleRxSdus = some (t, sdus)) :
    Bounded t := by
  obtain ⟨u, out, out', hcatch, hadvance, -⟩ := reassembleRxSdus_eq_some hrun
  exact bounded_advance (bounded_catchUp h hcatch) hadvance

theorem bounded_passLost (h : Bounded s) (hrun : s.passLost = some (t, sdus)) : Bounded t := by
  obtain ⟨⟨u, out⟩, hloop, heq⟩ := Option.map_eq_some_iff.mp hrun
  have hstart : Bounded { s with pduLost := true, rxSdu := [] } := ⟨h.pdus, Nat.zero_le _⟩
  have hu := loop_state_invariant Bounded (fun v w out _ hv hround =>
    bounded_reassembleRxSdus (⟨hv.pdus, hv.sdu⟩ : Bounded { v with vrUr := (v.vrUr + 1) % v.mod })
      hround) hstart hloop
  cases heq
  unfold runTimer
  split
  · exact ⟨hu.pdus, hu.sdu⟩
  · exact hu

/-! ### The loops -/

/-- The PDU `vr_ur` fits in a round at the lower edge. -/
def LowerEdgeGuard (s : UmLteRx) : Prop :=
  ∀ pdu, s.rxWindow.find? s.vrUr = some pdu → LowerEdgeFits s pdu

/-- The PDU `vr_ur` fits in a round over the SNs in sequence. -/
def InSequenceGuard (s : UmLteRx) : Prop :=
  ∀ pdu, s.rxWindow.find? s.vrUr = some pdu → InSequenceFits s pdu

/-- The PDUs fit that both loops of `reassemble_rx_sdus` process. -/
structure ReassemblyFits (s : UmLteRx) : Prop where
  lowerEdge : RoundsWithin (fun s => !s.insideReorderingWindow s.vrUr) lowerEdgeRound LowerEdgeGuard s.mod s
  inSequence : ∀ t sdus, s.catchUp = some (t, sdus) →
    RoundsWithin (fun s => s.rxWindow.contains s.vrUr) inSequenceRound InSequenceGuard t.rxWindow.size t

/-- The PDUs fit that `timer_expired` processes. -/
def PassLostFits (s : UmLteRx) : Prop :=
  RoundsWithin (fun s => decide (s.rxModBase s.vrUr < s.rxModBase s.vrUx)) expiryRound
    (fun s => ReassemblyFits { s with vrUr := (s.vrUr + 1) % s.mod }) s.mod
    { s with pduLost := true, rxSdu := [] }

/-- From the last SN the distance from the lower edge starts again. -/
theorem rxModBase_succ_last (hur : s.vrUr < s.mod) (huh : s.vrUh < s.mod)
    (hlast : ¬ s.rxModBase s.vrUr + 1 < s.mod) : s.rxModBase ((s.vrUr + 1) % s.mod) = 0 := by
  have hmod : s.mod = 2 * s.windowSize := s.snSize.mod_eq
  have hsucc := succ_mod_cases hur
  have := rxModBase_cases huh hur
  have := rxModBase_cases huh (succ_mod_lt hur)
  omega

/-- The rounds that are left until `vr_ur` is at the lower edge. -/
def toEdge (s : UmLteRx) : Nat :=
  if s.rxModBase s.vrUr < s.windowSize then 0 else s.mod - s.rxModBase s.vrUr

theorem toEdge_next (h : Between s) (hcond : (!s.insideReorderingWindow s.vrUr) = true)
    (hframe : s.SduOnly t) : t.nextSn.toEdge < s.toEdge := by
  obtain ⟨sdu, lost, last, rfl, -⟩ := hframe
  have hout : ¬ s.rxModBase s.vrUr < s.windowSize := by
    intro hin
    rw [(insideReorderingWindow_iff h.vrUh).mpr (.inr hin)] at hcond
    cases hcond
  have hlt := (rxModBase_cases h.vrUh h.vrUr).1
  have hpos : 0 < s.windowSize := s.snSize.windowSize_pos
  change (if s.rxModBase ((s.vrUr + 1) % s.mod) < s.windowSize then 0
    else s.mod - s.rxModBase ((s.vrUr + 1) % s.mod)) < s.toEdge
  rw [toEdge, if_neg hout]
  by_cases hroom : s.rxModBase s.vrUr + 1 < s.mod
  · rw [rxModBase_succ h.vrUr h.vrUh hroom]
    split <;> omega
  · rw [rxModBase_succ_last h.vrUr h.vrUh hroom, if_pos hpos]
    omega

theorem catchUp_iff (h : Between s) (hb : Bounded s) :
    (∃ t sdus, s.catchUp = some (t, sdus)) ↔
      RoundsWithin (fun s => !s.insideReorderingWindow s.vrUr) lowerEdgeRound LowerEdgeGuard s.mod s := by
  refine loop_total_iff (fun u => Between u ∧ Bounded u) toEdge (fun u hu _ => ?_)
    (fun u v out hu hcond hround => ?_) ⟨h, hb⟩ ?_
  · unfold LowerEdgeGuard lowerEdgeRound
    cases hfind : u.rxWindow.find? u.vrUr with
    | none => exact ⟨fun _ pdu hpdu => (Option.some_ne_none pdu hpdu.symm).elim, fun _ => ⟨_, _, rfl⟩⟩
    | some pdu =>
      have hiff := lowerEdgePdu_iff (s := u) (hu.2.pdus _ _ hfind)
      constructor
      · rintro ⟨t, out, hround⟩ q hq
        cases hq
        obtain ⟨⟨w, o⟩, hw, -⟩ := Option.map_eq_some_iff.mp hround
        exact hiff.mp ⟨w, o, hw⟩
      · intro hguard
        obtain ⟨w, o, hw⟩ := hiff.mpr (hguard pdu rfl)
        exact ⟨_, _, by simp only [hw]; rfl⟩
  · obtain ⟨w, hframe, rfl⟩ := lowerEdgeRound_frame hround
    exact ⟨⟨hu.1.next hframe, hu.2.next hframe⟩, toEdge_next hu.1 hcond hframe⟩
  · unfold toEdge
    split <;> omega

theorem advance_iff (hb : Bounded s) :
    (∃ t sdus, s.advance = some (t, sdus)) ↔
      RoundsWithin (fun s => s.rxWindow.contains s.vrUr) inSequenceRound InSequenceGuard
        s.rxWindow.size s := by
  refine loop_total_iff Bounded (fun u => u.rxWindow.size) (fun u hu hcond => ?_)
    (fun u v out hu hcond hround => ?_) hb (Nat.le_refl _)
  · obtain ⟨pdu, hfind⟩ := (OrdMap.contains_iff _ _).mp hcond
    have hiff := inSequencePdu_iff (hu.pdus _ _ hfind) hu.sdu
    unfold InSequenceGuard inSequenceRound
    rw [hfind]
    constructor
    · rintro ⟨t, out, hround⟩ q hq
      cases hq
      obtain ⟨⟨w, o⟩, hw, -⟩ := Option.map_eq_some_iff.mp hround
      exact hiff.mp ⟨w, o, hw⟩
    · intro hguard
      obtain ⟨w, o, hw⟩ := hiff.mpr (hguard pdu rfl)
      exact ⟨_, _, by simp only [hw]; rfl⟩
  · obtain ⟨w, hframe, rfl⟩ := inSequenceRound_frame hcond hround
    refine ⟨hu.next hframe, ?_⟩
    obtain ⟨sdu, lost, last, rfl, -⟩ := hframe
    exact size_erase_lt hcond

theorem reassembleRxSdus_iff (h : Between s) (hb : Bounded s) :
    (∃ t sdus, s.reassembleRxSdus = some (t, sdus)) ↔ ReassemblyFits s := by
  constructor
  · rintro ⟨t, sdus, hrun⟩
    obtain ⟨u, out, out', hcatch, hadvance, -⟩ := reassembleRxSdus_eq_some hrun
    refine ⟨(catchUp_iff h hb).mp ⟨u, out, hcatch⟩, fun v o hv => ?_⟩
    rw [hcatch] at hv
    cases hv
    exact (advance_iff (bounded_catchUp hb hcatch)).mp ⟨t, out', hadvance⟩
  · rintro ⟨hlower, hsequence⟩
    obtain ⟨u, out, hcatch⟩ := (catchUp_iff h hb).mpr hlower
    obtain ⟨t, out', hadvance⟩ := (advance_iff (bounded_catchUp hb hcatch)).mpr (hsequence u out hcatch)
    exact ⟨t, out ++ out', by simp only [reassembleRxSdus, hcatch, hadvance]⟩

theorem passLost_iff (h : Ordered s) (hvrUx : s.vrUx < s.mod) (hb : Bounded s) :
    (∃ t sdus, s.passLost = some (t, sdus)) ↔ PassLostFits s := by
  have hpair : (∃ t sdus, s.passLost = some (t, sdus)) ↔
      ∃ t sdus, loop (fun s => decide (s.rxModBase s.vrUr < s.rxModBase s.vrUx)) expiryRound s.mod
        { s with pduLost := true, rxSdu := [] } = some (t, sdus) := by
    constructor
    · rintro ⟨t, sdus, hrun⟩
      obtain ⟨⟨u, out⟩, hloop, -⟩ := Option.map_eq_some_iff.mp hrun
      exact ⟨u, out, hloop⟩
    · rintro ⟨t, sdus, hloop⟩
      exact ⟨_, _, by rw [passLost, hloop]; rfl⟩
  rw [hpair]
  refine loop_total_iff (fun u => Ordered u ∧ u.vrUx < u.mod ∧ Bounded u)
    (fun u => u.mod - u.rxModBase u.vrUr) (fun u hu hcond => ?_) (fun u v out hu hcond hround => ?_)
    ⟨⟨⟨h.vrUr, h.vrUh, h.keys⟩, h.waits⟩, hvrUx, ⟨hb.pdus, Nat.zero_le _⟩⟩ (Nat.sub_le _ _)
  · have hlast := (rxModBase_cases hu.1.vrUh hu.2.1).1
    have hless : u.rxModBase u.vrUr < u.rxModBase u.vrUx := of_decide_eq_true hcond
    have hready := hu.1.step (by omega)
    exact reassembleRxSdus_iff hready.between ⟨hu.2.2.pdus, hu.2.2.sdu⟩
  · obtain ⟨hordered, hkeeps, hless⟩ := expiryRound_spec hu.1 hu.2.1 (of_decide_eq_true hcond) hround
    have hmod : v.mod = u.mod := by unfold mod; rw [hkeeps.snSize]
    have hbounded : Bounded v := bounded_reassembleRxSdus
      (⟨hu.2.2.pdus, hu.2.2.sdu⟩ : Bounded { u with vrUr := (u.vrUr + 1) % u.mod }) hround
    have hlast := (rxModBase_cases hu.1.vrUh hu.2.1).1
    have hcond : u.rxModBase u.vrUr < u.rxModBase u.vrUx := of_decide_eq_true hcond
    refine ⟨⟨hordered, ?_, hbounded⟩, ?_⟩
    · rw [hkeeps.vrUx, hmod]
      exact hu.2.1
    · simp only [hkeeps.rxModBase_eq, hmod]
      omega

/-! ### The calls -/

/-- A call stays in the buffers. The header of a PDU ends in time. If the PDU is kept, its bytes fit a
buffer, and the PDUs fit that are processed then. -/
def CallFits (s : UmLteRx) : Op → Prop
  | .writePdu bytes =>
    HeaderFits s.snSize bytes ∧ ∀ header, readUmdHeader s.snSize bytes = some header →
      s.discards header.sn = false → bytes.length ≤ bufferTailroom ∧
        ReassemblyFits (s.place ⟨header, bytes.drop header.packedLength⟩)
  | .timerExpired =>
    s.reorderingTimer.isRunning = true → s.tReordering ≠ 0 →
      PassLostFits { s with reorderingTimer := .expired }
  | .reestablish =>
    s.reorderingTimer.isRunning = true →
      PassLostFits { s with reorderingTimer := s.reorderingTimer.stop }
  | .stop => True

theorem sane_of_readUmdHeader {bytes : Bytes} {header : UmdHeader}
    (hheader : readUmdHeader s.snSize bytes = some header) (hbytes : bytes.length ≤ bufferTailroom) :
    Sane ⟨header, bytes.drop header.packedLength⟩ := by
  refine ⟨?_, fun l hl => ?_⟩
  · rw [List.length_drop]
    omega
  · have := (readUmdHeader_spec hheader).2.2 l hl
    simp only [bufferTailroom]
    omega

theorem stripHeader_of_readUmdHeader {bytes : Bytes} {header : UmdHeader}
    (hheader : readUmdHeader s.snSize bytes = some header) :
    stripHeader header bytes =
      if bytes.length ≤ bufferTailroom then some ⟨header, bytes.drop header.packedLength⟩ else none := by
  simp only [stripHeader, (readUmdHeader_spec hheader).2.1, and_true]

theorem handleDataPdu_iff (h : CallInv s) (hb : Bounded s) {bytes : Bytes} :
    (∃ t sdus, s.handleDataPdu bytes = some (t, sdus)) ↔ CallFits s (.writePdu bytes) := by
  unfold handleDataPdu
  simp only [CallFits, ← readUmdHeader_iff]
  cases hheader : readUmdHeader s.snSize bytes with
  | none => simp
  | some header =>
    simp only [Option.some.injEq, forall_eq', exists_eq', true_and]
    cases hkeep : s.discards header.sn with
    | true => simp
    | false =>
      simp only [Bool.false_eq_true, if_false, forall_const, stripHeader_of_readUmdHeader hheader]
      by_cases hbytes : bytes.length ≤ bufferTailroom
      · have hsane := sane_of_readUmdHeader hheader hbytes
        have hbetween : Between (s.place ⟨header, bytes.drop header.packedLength⟩) :=
          between_place h.toReady (sn_lt_of_readUmdHeader hheader) hkeep
        rw [if_pos hbytes, and_iff_right hbytes, ← reassembleRxSdus_iff hbetween (hb.place hsane)]
        simp only
        constructor
        · rintro ⟨t, sdus, hrun⟩
          obtain ⟨⟨u, out⟩, hu, -⟩ := Option.map_eq_some_iff.mp hrun
          exact ⟨u, out, hu⟩
        · rintro ⟨u, out, hu⟩
          exact ⟨_, _, by rw [hu]; rfl⟩
      · simp [hbytes]

/-- A call returns exactly when all the PDUs that it processes fit. -/
theorem step_iff (h : CallInv s) (hb : Bounded s) {op : Op} :
    (∃ t sdus, s.step op = some (t, sdus)) ↔ CallFits s op := by
  cases op with
  | writePdu bytes => exact handleDataPdu_iff h hb
  | timerExpired =>
    change (∃ t sdus, s.timerExpired = some (t, sdus)) ↔ _
    unfold timerExpired CallFits
    cases hrunning : s.reorderingTimer.isRunning with
    | false => simp
    | true =>
      by_cases hzero : s.tReordering = 0
      · simp [hzero]
      · simp only [Bool.not_true, Bool.false_eq_true, if_false, forall_const, ne_eq, hzero,
          not_false_eq_true]
        exact passLost_iff ⟨⟨h.vrUr, h.vrUh, h.keys⟩, h.waits⟩ h.vrUx ⟨hb.pdus, hb.sdu⟩
  | reestablish =>
    change (∃ t sdus, s.reestablish = some (t, sdus)) ↔ _
    unfold reestablish CallFits
    cases hrunning : s.reorderingTimer.isRunning with
    | false => simp
    | true =>
      simp only [if_true, forall_const]
      rw [← passLost_iff (s := { s with reorderingTimer := s.reorderingTimer.stop })
        ⟨⟨h.vrUr, h.vrUh, h.keys⟩, h.waits⟩ h.vrUx ⟨hb.pdus, hb.sdu⟩]
      constructor
      · rintro ⟨t, sdus, hrun⟩
        obtain ⟨⟨u, out⟩, hu, -⟩ := Option.map_eq_some_iff.mp hrun
        exact ⟨u, out, hu⟩
      · rintro ⟨u, out, hu⟩
        exact ⟨_, _, by rw [hu]; rfl⟩
  | stop => exact ⟨fun _ => trivial, fun _ => ⟨_, _, rfl⟩⟩

theorem bounded_timers (h : Bounded s) : Bounded s.stopTimer.startTimer := by
  have hstop : Bounded s.stopTimer := by
    unfold stopTimer
    split
    · exact ⟨h.pdus, h.sdu⟩
    · exact h
  unfold startTimer runTimer
  split
  · exact hstop
  · split
    · exact ⟨hstop.pdus, hstop.sdu⟩
    · exact hstop

theorem bounded_reset (s : UmLteRx) (timer : TimerState) :
    Bounded { s.reset with reorderingTimer := timer } :=
  ⟨fun sn pdu h => by simp [reset] at h, Nat.zero_le _⟩

theorem Bounded.step {op : Op} (h : Bounded s) (hstep : s.step op = some (t, sdus)) : Bounded t := by
  cases op with
  | writePdu bytes =>
    obtain ⟨rfl, -⟩ | ⟨header, pdu, u, hheader, hkeep, hstrip, hrun, rfl⟩ := handleDataPdu_eq_some hstep
    · exact h
    · rw [stripHeader_of_readUmdHeader hheader] at hstrip
      split at hstrip
      · rename_i hbytes
        cases hstrip
        exact bounded_timers (bounded_reassembleRxSdus
          (h.place (sane_of_readUmdHeader hheader hbytes)) hrun)
      · cases hstrip
  | timerExpired =>
    have hstep : s.timerExpired = some (t, sdus) := hstep
    unfold timerExpired at hstep
    split at hstep
    · cases hstep
      exact h
    · split at hstep
      · cases hstep
        exact ⟨h.pdus, h.sdu⟩
      · exact bounded_passLost (⟨h.pdus, h.sdu⟩ : Bounded { s with reorderingTimer := .expired }) hstep
  | reestablish =>
    have hstep : s.reestablish = some (t, sdus) := hstep
    unfold reestablish at hstep
    split at hstep
    · obtain ⟨⟨u, out⟩, -, heq⟩ := Option.map_eq_some_iff.mp hstep
      cases heq
      exact bounded_reset u u.reorderingTimer
    · cases hstep
      exact bounded_reset s s.reorderingTimer
  | stop =>
    cases hstep
    exact bounded_reset s s.reorderingTimer.stop

theorem bounded_of_run {snSize : UmdSnSize} {tReordering : Nat} {ops : List Op} {out : List (List Bytes)}
    (hrun : run step (init snSize tReordering) ops = some (s, out)) : Bounded s :=
  run_invariant Bounded (fun _ _ _ _ h hstep => h.step hstep) ops _ _ _
    ⟨fun sn pdu h => by simp [init] at h, Nat.zero_le _⟩ hrun

end Rounds

/-- In every reachable state, a call stays inside of its buffers and returns if and only if the header of
the PDU ends in time and every PDU fits that the call processes. -/
theorem call_returns_iff {snSize : UmdSnSize} {tReordering : Nat} {ops : List Op} {s : UmLteRx}
    {out : List (List Bytes)} (hrun : run step (init snSize tReordering) ops = some (s, out)) (op : Op) :
    (∃ t sdus, s.step op = some (t, sdus)) ↔ CallFits s op :=
  step_iff (callInv_of_run hrun) (bounded_of_run hrun)

/-- The PDU 1 is in the window when t-Reordering expires. -/
theorem call_returns_iff_expiry : ∃ s out,
    run step (init .size5bits 5) [.writePdu [1, 7]] = some (s, out) ∧ CallFits s .timerExpired := by
  have hrun : run step (init .size5bits 5) [.writePdu [1, 7]] = some (_, _) := rfl
  exact ⟨_, _, hrun, (call_returns_iff hrun .timerExpired).mp ⟨_, _, rfl⟩⟩

/-- A PDU of one byte with the extension bit: the length indicator is read behind it. -/
theorem not_call_returns : ¬ ∀ (snSize : UmdSnSize) (tReordering : Nat) (ops : List Op) (s : UmLteRx)
    (out : List (List Bytes)), run step (init snSize tReordering) ops = some (s, out) →
      ∀ bytes, ∃ t sdus, s.step (.writePdu bytes) = some (t, sdus) := by
  intro hall
  obtain ⟨t, sdus, h⟩ := hall .size5bits 5 [] _ _ rfl [32]
  cases h

end UmLteRx

end Odss.Rlc
