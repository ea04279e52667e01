import Odss.Asn1.BitString
import Odss.Proofs.PerInteger

/-!
# `Odss.Proofs.BitString`: bit strings that come back

The length prefix of a bit string is written by a formula of its own and read by the decoder of
constrained whole numbers. The writer takes as many bits as the bounds differ by, without one for
the last length, it fills a byte up behind the length where the reader does so in front of it, and
it does not align a length without bounds. `PrefixFits` is when both come to the same.

* `bitfield_spec` is the round trip of the bits behind the prefix.
* `free_roundTrips_iff` and `bounded_roundTrips_iff` are the prefixes.
* `toNumber_fromNumber_iff` is the conversion of numbers, which shifts bytes as an `int`.
* `bitstring_iff` is the result.
-/

set_option linter.all false

namespace Odss.Asn1

open Odss.Lib BitRef Per
open Odss.Rlc (Bytes)

/-! ### The bits behind the prefix -/

/-- The position where the bits start. -/
def fieldStart (aligned : Bool) (pos : Nat) : Nat := if aligned then alignUp pos else pos

theorem le_fieldStart (aligned : Bool) (pos : Nat) :
    pos ≤ fieldStart aligned pos ∧ fieldStart aligned pos ≤ pos + 7 := by
  unfold fieldStart alignUp
  split <;> omega

theorem runs_alignIgnored {r : BitRef} (aligned : Bool) (hroom : r.HasRoom 1) :
    (alignIgnored aligned).Runs r () (r.advance (fieldStart aligned r.distance - r.distance)) := by
  cases aligned
  · have hnone : fieldStart false r.distance - r.distance = 0 := Nat.sub_self _
    rw [hnone, advance_zero]
    exact runs_pure () r
  · exact (runs_alignBytes (Or.inl hroom)).ignore

/-- A reader that goes on has been aligned. -/
theorem of_runs_alignIgnored {r r₁ : BitRef} {aligned : Bool}
    (h : (alignIgnored aligned).Runs r () r₁) (hroom : r₁.HasRoom 1) :
    r₁.distance = fieldStart aligned r.distance ∧ r₁.buf = r.buf := by
  by_cases hroom' : r.HasRoom 1
  · obtain ⟨-, rfl⟩ := h.unique (runs_alignIgnored aligned hroom')
    have hle := le_fieldStart aligned r.distance
    refine ⟨?_, rfl⟩
    rw [advance_distance]
    omega
  · -- Without room the reader stays where it is.
    have hstay : r₁ = r := by
      cases aligned
      · exact ((runs_pure () r).unique h).2.symm
      · have hrun : (ignore alignBytes).Runs r () r₁ := h
        have hend : alignBytes r = some (.ok (), r) ∨ alignBytes r = some (.error .decodeFail, r) := by
          unfold alignBytes
          by_cases hzero : r.offset = 0
          · exact Or.inl (if_pos hzero)
          · have hge : r.ptr ≥ r.buf.length := by
              have hoffset := r.offset_lt
              unfold HasRoom distance at hroom'
              omega
            exact Or.inr (by rw [if_neg hzero, if_pos hge])
        unfold Runs Per.ignore at hrun
        rcases hend with hend | hend <;> rw [hend] at hrun <;> cases hrun <;> rfl
    exact absurd (hstay ▸ hroom) hroom'

theorem packOctets_spec (octets : Bytes) {w : BitRef} (hroom : w.HasRoom (8 * octets.length)) :
    ∃ w', (packOctets octets).Runs w () w' ∧ w.Extends w' ∧
      w'.distance = w.distance + 8 * octets.length ∧
      ∀ w'', w'.Extends w'' →
        (unpackOctets octets.length).Runs (w''.readFrom w) octets (w''.readFrom w') := by
  induction octets generalizing w with
  | nil => exact ⟨w, runs_pure () w, Extends.refl w, rfl, fun w'' _ => runs_pure [] _⟩
  | cons octet octets ih =>
    rw [List.length_cons] at hroom ⊢
    have hoffset := w.offset_lt
    obtain ⟨w₁, hpack, hwritten⟩ :=
      runs_pack octet.toNat (show 8 < 64 by decide) (hroom.mono (by omega))
    have hdist := hwritten.distance_eq
    have hroom₁ : w₁.HasRoom (8 * octets.length) := hroom.of_extends hwritten.toExtends (by omega)
    obtain ⟨w', hrest, hext, hdist', hread⟩ := ih hroom₁
    refine ⟨w', hpack.bind hrest, hwritten.toExtends.trans hext, by omega, fun w'' hext'' => ?_⟩
    have hfirst := hwritten.runs_unpack (hext.trans hext'') (hroom.mono (by omega)) (le_refl 8)
      (by omega)
    have hbyte := UInt8.toNat_lt octet
    rw [Nat.mod_eq_of_lt hbyte, Nat.mod_eq_of_lt (by omega)] at hfirst
    have hpure := @runs_pure _ (UInt8.ofNat octet.toNat :: octets) (w''.readFrom w')
    rw [UInt8.ofNat_toNat] at hpure
    refine hfirst.bind ((hread w'' hext'').bind ?_)
    rw [UInt8.ofNat_toNat]
    exact hpure

theorem packBytes_spec (octets : Bytes) {w : BitRef} (hroom : w.HasRoom (8 * octets.length)) :
    ∃ w', (packBytes octets).Runs w () w' ∧ w.Extends w' ∧
      w'.distance = w.distance + 8 * octets.length ∧
      ∀ i < 8 * octets.length, w'.bits (w.distance + i) = bitAt octets i := by
  induction octets generalizing w with
  | nil =>
    refine ⟨w, runs_pure () w, Extends.refl w, rfl, fun i hi => ?_⟩
    exact absurd hi (Nat.not_lt_zero i)
  | cons octet octets ih =>
    rw [List.length_cons] at hroom ⊢
    obtain ⟨w₁, hpack, hwritten⟩ :=
      runs_pack octet.toNat (show 8 < 64 by decide) (hroom.mono (by omega))
    have hdist := hwritten.distance_eq
    obtain ⟨w', hrest, hext, hdist', hbits⟩ :=
      ih (hroom.of_extends hwritten.toExtends (show w₁.distance + 8 * octets.length ≤ _ by omega))
    refine ⟨w', hpack.ignore.bind hrest, hwritten.toExtends.trans hext, by omega, fun i hi => ?_⟩
    rcases Nat.lt_or_ge i 8 with hlt | hge
    · have hbyte := UInt8.toNat_lt octet
      have hvalue := hwritten.value
      rw [Nat.mod_eq_of_lt hbyte] at hvalue
      have hbit := @testBit_field w₁.bits w.distance 8 i hlt
      rw [hext.before _ (by omega), ← hbit, hvalue]
      unfold bitAt
      rw [Nat.div_eq_of_lt hlt, Nat.mod_eq_of_lt hlt]
      rfl
    · have hlater := hbits (i - 8) (by omega)
      rw [hdist, show w.distance + 8 + (i - 8) = w.distance + i by omega] at hlater
      rw [hlater]
      unfold bitAt
      rw [show i / 8 = (i - 8) / 8 + 1 by omega, show (i - 8) % 8 = i % 8 by omega]
      rfl

theorem of_runs_unpackOctets {n : Nat} {r r' : BitRef} {octets : Bytes}
    (h : (unpackOctets n).Runs r octets r') :
    r'.distance = r.distance + 8 * n ∧ r'.buf = r.buf := by
  induction n generalizing r octets with
  | zero =>
    obtain ⟨-, rfl⟩ := h.unique (runs_pure _ r)
    exact ⟨rfl, rfl⟩
  | succ n ih =>
    obtain ⟨octet, r₁, hfirst, hrest⟩ := h.of_bind
    obtain ⟨octets', r₂, hoctets, hpure⟩ := hrest.of_bind
    obtain ⟨-, -, -, -, rfl⟩ := of_runs_unpack hfirst (by decide)
    obtain ⟨-, rfl⟩ := hpure.unique (runs_pure _ r₂)
    obtain ⟨hdist, hbuf⟩ := ih hoctets
    refine ⟨?_, hbuf⟩
    rw [hdist, advance_distance]
    omega

/-- Where a reader of bits stops. -/
theorem of_runs_unpackBitfield {n lb ub : Nat} {aligned : Bool} {r r' : BitRef} {octets : Bytes}
    (hn : 0 < n) (h : (unpackBitfield n lb ub aligned).Runs r octets r') :
    r'.distance = fieldStart (aligned ∧ (lb ≠ ub ∨ ub > 16)) r.distance + n ∧
      r'.buf = r.buf := by
  unfold unpackBitfield at h
  split at h
  · exact absurd h not_runs_fail
  rw [if_neg (by omega)] at h
  obtain ⟨_, r₁, halign, h⟩ := h.of_bind
  obtain ⟨last, r₂, hlast, h⟩ := h.of_bind
  obtain ⟨octets', r₃, hoctets, hpure⟩ := h.of_bind
  obtain ⟨-, hroom, -, -, rfl⟩ := of_runs_unpack hlast (by omega)
  obtain ⟨-, rfl⟩ := hpure.unique (runs_pure _ r₃)
  obtain ⟨hstart, hbuf⟩ := of_runs_alignIgnored halign (hroom.mono (by omega))
  obtain ⟨hdist, hbuf'⟩ := of_runs_unpackOctets hoctets
  refine ⟨?_, hbuf'.trans hbuf⟩
  rw [hdist, advance_distance, hstart]
  unfold ceilFrac
  omega

/-- The bits of a string are read as they were written, from any place that comes to the same start
of the bits. -/
theorem bitfield_spec (s : Bitstring) {lb ub : Nat} {aligned : Bool} {w : BitRef}
    (hlen : 0 < s.nofBits) (hmax : s.nofBits ≤ asn64K) (hroom : w.HasRoom (s.nofBits + 8)) :
    ∃ w', (packBitfield s.octets s.nofBits lb ub aligned).Runs w () w' ∧
      w'.buf.length = w.buf.length ∧
      w'.distance = fieldStart (aligned ∧ (lb ≠ ub ∨ ub > 16)) w.distance + s.nofBits ∧
      (∀ i, i < fieldStart (aligned ∧ (lb ≠ ub ∨ ub > 16)) w.distance → w'.bits i = w.bits i) ∧
      ∀ place, fieldStart (aligned ∧ (lb ≠ ub ∨ ub > 16)) place.distance
          = fieldStart (aligned ∧ (lb ≠ ub ∨ ub > 16)) w.distance →
        ∃ octets, (unpackBitfield s.nofBits lb ub aligned).Runs (w'.readFrom place) octets w' ∧
          octets.length = ceilFrac s.nofBits 8 ∧
            ∀ i < s.nofBits, (octets.getD (i / 8) 0).toNat.testBit (i % 8) = s.get i := by
  unfold packBitfield unpackBitfield alignBitfield
  generalize decide (aligned ∧ (lb ≠ ub ∨ ub > 16)) = start at *
  rw [if_neg (by omega), if_neg (by omega), if_neg (by omega)]
  obtain ⟨n, octs, hoctets⟩ := s
  dsimp only at hlen hmax hroom ⊢
  have hceil : ceilFrac n 8 = (n - 1) / 8 + 1 := by unfold ceilFrac; omega
  have hpred : ceilFrac n 8 - 1 = (n - 1) / 8 := by omega
  rw [hpred]
  -- The octets behind the first one that is written.
  have hne : octs ≠ [] := by
    rintro rfl
    rw [hceil] at hoctets
    cases hoctets
  obtain ⟨front, last, rfl⟩ : ∃ front last, octs = front ++ [last] :=
    ⟨octs.dropLast, octs.getLast hne, (List.dropLast_append_getLast hne).symm⟩
  have hfront : front.length = (n - 1) / 8 := by
    have hlength := hoctets
    rw [List.length_append, List.length_singleton] at hlength
    omega
  have hgetLast : (front ++ [last]).getD ((n - 1) / 8) 0 = last := by
    rw [← hfront, List.getD_eq_getElem?_getD, List.getElem?_concat_length, Option.getD_some]
  have htake : (front ++ [last]).take ((n - 1) / 8) = front := by
    rw [← hfront, List.take_left]
  rw [hgetLast, htake]
  have hle := le_fieldStart start w.distance
  have halign := runs_alignIgnored start (hroom.mono (show 1 ≤ n + 8 by omega))
  generalize hw₁ : w.advance (fieldStart start w.distance - w.distance) = w₁ at halign
  have hdist₁ : w₁.distance = fieldStart start w.distance := by
    rw [← hw₁, advance_distance]
    omega
  have hbuf₁ : w₁.buf = w.buf := by rw [← hw₁, advance_buf]
  have hroom₁ : w₁.HasRoom n := by
    unfold HasRoom at *
    rw [hbuf₁]
    omega
  have hoff₁ := w₁.offset_lt
  obtain ⟨w₂, hpack, hwritten⟩ := runs_pack last.toNat (show (n - 1) % 8 + 1 < 64 by omega)
    (hroom₁.mono (show (n - 1) % 8 + 1 ≤ n by omega))
  have hdist₂ := hwritten.distance_eq
  have hlength : front.reverse.length = (n - 1) / 8 := by rw [List.length_reverse, hfront]
  have hroom₂ : w₂.HasRoom (8 * front.reverse.length) :=
    hroom₁.of_extends hwritten.toExtends (by omega)
  obtain ⟨w', hrest, hext, hdist', hread⟩ := packOctets_spec front.reverse hroom₂
  have hext₁ := hwritten.toExtends.trans hext
  refine ⟨w', halign.bind (hpack.bind hrest), ?_, by omega, ?_, ?_⟩
  · rw [hext₁.length_eq, hbuf₁]
  · intro i hi
    rw [hext₁.before i (by omega)]
    unfold bits
    rw [hbuf₁]
  · intro place hplace
    have hplace₁ : (w'.readFrom place).advance
        (fieldStart start place.distance - place.distance) = w'.readFrom w₁ := by
      refine readFrom_advance ?_
      have hle' := le_fieldStart start place.distance
      omega
    have hroom' : (w'.readFrom place).HasRoom 1 := by
      have hlen₁ := hext₁.length_eq
      have hle' := le_fieldStart start place.distance
      unfold HasRoom at hroom ⊢
      show place.distance + 1 ≤ 8 * w'.buf.length
      rw [hlen₁, hbuf₁]
      omega
    have halign' := runs_alignIgnored start hroom'
    rw [readFrom_distance, hplace₁] at halign'
    have hfirst := hwritten.runs_unpack hext (hroom₁.mono (by omega))
      (show (n - 1) % 8 + 1 ≤ 8 by omega) (by omega)
    have hbyte : last.toNat % 2 ^ ((n - 1) % 8 + 1) < 256 :=
      Nat.lt_of_le_of_lt (Nat.mod_le _ _) (UInt8.toNat_lt last)
    rw [Nat.mod_eq_of_lt (show last.toNat % 2 ^ ((n - 1) % 8 + 1) < 2 ^ 32 by omega)] at hfirst
    have hlast := hread w' (Extends.refl w')
    rw [hlength] at hlast
    refine ⟨_, halign'.bind (hfirst.bind (hlast.bind (runs_pure _ _))), ?_, ?_⟩
    · rw [List.reverse_reverse, List.length_append, hfront, List.length_singleton, hceil]
    · intro i hi
      unfold Bitstring.get
      dsimp only
      rw [List.reverse_reverse]
      by_cases hlt : i / 8 < front.length
      · -- The octets that are read whole.
        rw [List.getD_append _ _ _ _ hlt, List.getD_append _ _ _ _ hlt]
      · have hidx : i / 8 = front.length := by omega
        rw [hidx, List.getD_eq_getElem?_getD, List.getElem?_concat_length,
          List.getD_eq_getElem?_getD, List.getElem?_concat_length, Option.getD_some,
          Option.getD_some]
        have hnat : (UInt8.ofNat (last.toNat % 2 ^ ((n - 1) % 8 + 1))).toNat
            = last.toNat % 2 ^ ((n - 1) % 8 + 1) := Nat.mod_eq_of_lt hbyte
        rw [hnat, Nat.testBit_mod_two_pow, decide_eq_true (by omega), Bool.true_and]

/-! ### The prefix -/

/-- `bitstring::unpack` of what `bitstring::pack` wrote succeeds, yields the same length and bits
and stops where the writer stopped. -/
def BitstringRoundTrips (s : Bitstring) (lb ub : Nat) (hasExt aligned : Bool) (w : BitRef) : Prop :=
  ∃ w', (s.pack lb ub hasExt aligned).Runs w () w' ∧
    ∀ old : Bitstring, ∃ s', old.unpack lb ub hasExt aligned (w'.readFrom w) = some (.ok (), s', w') ∧
      s'.nofBits = s.nofBits ∧ ∀ i < s.nofBits, s'.get i = s.get i

/-- A string comes back when its length does and the reader finds the start of the bits. -/
theorem roundTrips_iff_length {s : Bitstring} {lb ub : Nat} {hasExt aligned : Bool}
    {w w₂ : BitRef} (hlen : 0 < s.nofBits) (hmax : s.nofBits ≤ asn64K)
    (hpre : (packLengthPrefix s.nofBits lb ub hasExt aligned).Runs w () w₂)
    (hroom : w₂.HasRoom (s.nofBits + 8)) :
    ∃ w' w₃ : BitRef, w₂.Extends w₃ ∧ w₃.Extends w' ∧ w₃.bits = w₂.bits ∧
      w₃.distance = fieldStart (aligned ∧ (lb ≠ ub ∨ ub > 16)) w₂.distance ∧
      (BitstringRoundTrips s lb ub hasExt aligned w ↔
        ∃ r₂, (unpackLengthPrefix lb ub hasExt aligned).Runs (w'.readFrom w) s.nofBits r₂ ∧
          r₂.buf = w'.buf ∧ fieldStart (aligned ∧ (lb ≠ ub ∨ ub > 16)) r₂.distance
            = fieldStart (aligned ∧ (lb ≠ ub ∨ ub > 16)) w₂.distance) := by
  obtain ⟨w', hfield, hbuf, hdist, hbits, hread⟩ :=
    @bitfield_spec s lb ub aligned w₂ hlen hmax hroom
  have hpack : (s.pack lb ub hasExt aligned).Runs w () w' := hpre.bind hfield
  have hle := le_fieldStart (aligned ∧ (lb ≠ ub ∨ ub > 16)) w₂.distance
  generalize hw₃ : w₂.advance (fieldStart (aligned ∧ (lb ≠ ub ∨ ub > 16)) w₂.distance
    - w₂.distance) = w₃
  have hdist₃ : w₃.distance = fieldStart (aligned ∧ (lb ≠ ub ∨ ub > 16)) w₂.distance := by
    rw [← hw₃, advance_distance]
    omega
  have hbuf₃ : w₃.buf = w₂.buf := by rw [← hw₃, advance_buf]
  have hbits₃ : w₃.bits = w₂.bits := by unfold bits; rw [hbuf₃]
  refine ⟨w', w₃, ⟨by rw [hbuf₃], by omega, fun i _ => by rw [hbits₃]⟩,
    ⟨by rw [hbuf₃, hbuf], by omega, fun i hi => ?_⟩, hbits₃, hdist₃, ?_⟩
  · rw [hbits₃, hbits i (by omega)]
  constructor
  · rintro ⟨w'', hpack', hunpack⟩
    obtain ⟨-, rfl⟩ := hpack.unique hpack'
    obtain ⟨s', hrun, hsame, -⟩ := hunpack s
    unfold Bitstring.unpack at hrun
    split at hrun
    · cases hrun
    · cases hrun
    next nbits r₂ hlength =>
    split at hrun
    · cases hrun
    · cases hrun
    next octets r₃ hoctets =>
    -- The reader has read as many bits, and stops at the same place.
    simp only [Option.some.injEq, Prod.mk.injEq, true_and] at hrun
    obtain ⟨rfl, rfl⟩ := hrun
    have hnbits : nbits = s.nofBits := by
      rw [← hsame]
      unfold Bitstring.ofOctets
      split <;> rfl
    subst hnbits
    obtain ⟨hstop, hbuf'⟩ := of_runs_unpackBitfield hlen hoctets
    exact ⟨r₂, hlength, hbuf'.symm, by omega⟩
  · rintro ⟨r₂, hlength, hbuf₂, hstart⟩
    refine ⟨w', hpack, fun old => ?_⟩
    obtain ⟨octets, hoctets, hcount, hget⟩ := hread r₂ hstart
    have hplace : w'.readFrom r₂ = r₂ := distance_ext hbuf₂.symm rfl
    rw [hplace] at hoctets
    refine ⟨⟨s.nofBits, octets, hcount⟩, ?_, rfl, hget⟩
    unfold Bitstring.unpack
    rw [show unpackLengthPrefix lb ub hasExt aligned (w'.readFrom w) = _ from hlength]
    dsimp only
    rw [show unpackBitfield s.nofBits lb ub aligned r₂ = _ from hoctets]
    dsimp only
    rw [Bitstring.ofOctets, dif_pos hcount]

/-! ### Lengths without bounds -/

/-- The eight or sixteen bits of a length without bounds. -/
theorem runs_packLength {w : BitRef} {len : Nat} (hlen : len < asn16K) (hroom : w.HasRoom 16) :
    ∃ w', (packLength len false).Runs w () w' ∧
      ((len < 128 ∧ w.Written w' len 8) ∨ (128 ≤ len ∧ w.Written w' (2 ^ 15 + len) 16)) := by
  unfold asn16K at hlen
  unfold packLength
  simp only [Bool.not_false, if_true]
  by_cases hsmall : len < 128
  · obtain ⟨w', hpack, hwritten⟩ :=
      runs_pack len (show 8 < 64 by decide) (hroom.mono (show 8 ≤ 16 by decide))
    rw [if_pos hsmall]
    exact ⟨w', hpack, Or.inl ⟨hsmall, hwritten⟩⟩
  · rw [if_neg hsmall, if_pos hlen]
    obtain ⟨w₁, hpack₁, hwritten₁⟩ :=
      runs_pack 0b10 (show 2 < 64 by decide) (hroom.mono (show 2 ≤ 16 by decide))
    have hroom₁ : w₁.HasRoom 14 :=
      hroom.of_extends hwritten₁.toExtends (by rw [hwritten₁.distance_eq])
    obtain ⟨w', hpack, hwritten⟩ := runs_pack len (show 14 < 64 by decide) hroom₁
    refine ⟨w', hpack₁.bind hpack, Or.inr ⟨by omega, ?_⟩⟩
    exact (hwritten₁.congr (by omega)).append (hwritten.congr (by omega)) (Or.inl (by decide))

/-- A length that is read at the place where it was written. -/
theorem runs_unpackLength {r : BitRef} {aligned : Bool} {len bits : Nat}
    (hplace : aligned → r.offset = 0) (hroom : r.HasRoom bits)
    (h : (bits = 8 ∧ len < 128 ∧ field r.bits r.distance 8 = len) ∨
      (bits = 16 ∧ len < 2 ^ 14 ∧ field r.bits r.distance 16 = 2 ^ 15 + len)) :
    (unpackLength aligned).Runs r len (r.advance bits) := by
  have hoffset := r.offset_lt
  unfold unpackLength
  cases aligned
  · simp only [Bool.not_false, if_true]
    have hflag := runs_unpackFlag (hroom.mono (show 1 ≤ bits by omega))
    have hroom₁ : (r.advance 1).HasRoom (bits - 1) := by
      unfold HasRoom at *
      rw [advance_distance, advance_buf]
      omega
    have hfirst := field_one r.bits r.distance
    refine hflag.bind ?_
    rcases h with ⟨rfl, hlen, hfield⟩ | ⟨rfl, hlen, hfield⟩
    · -- The first bit is zero.
      have hsplit : field r.bits r.distance 8 = _ := field_add r.bits r.distance 1 7
      have hrest := @BitRef.runs_unpack 32 7 (r.advance 1) (by decide) hroom₁
        (by have := (r.advance 1).offset_lt; omega)
      have hlt := field_lt r.bits (r.distance + 1) 7
      rw [advance_advance, advance_distance] at hrest
      cases hbit : r.bits r.distance <;> rw [hbit] at hfirst
      · simp only [Bool.toNat_false] at hfirst
        simp only [Bool.not_false, if_true]
        have hvalue : field (r.advance 1).bits (r.distance + 1) 7 % 2 ^ 32 = len := by
          show field r.bits (r.distance + 1) 7 % 2 ^ 32 = len
          omega
        rw [hvalue] at hrest
        exact hrest
      · simp only [Bool.toNat_true] at hfirst
        omega
    · -- The first bit is one, and the second one is zero.
      have hsplit : field r.bits r.distance 16 = _ := field_add r.bits r.distance 1 15
      have hsplit' : field r.bits (r.distance + 1) 15 = _ :=
        field_add r.bits (r.distance + 1) 1 14
      have hsecond := field_one r.bits (r.distance + 1)
      have hflag' := runs_unpackFlag (hroom₁.mono (show 1 ≤ 16 - 1 by omega))
      have hroom₂ : (r.advance 2).HasRoom 14 := by
        unfold HasRoom at *
        rw [advance_distance, advance_buf]
        omega
      have hrest := @BitRef.runs_unpack 32 14 (r.advance 2) (by decide) hroom₂
        (by have := (r.advance 2).offset_lt; omega)
      have hlt := field_lt r.bits (r.distance + 1 + 1) 14
      rw [advance_advance, advance_distance] at hrest
      rw [advance_advance, advance_distance] at hflag'
      cases hbit : r.bits r.distance <;> rw [hbit] at hfirst
      · simp only [Bool.toNat_false] at hfirst
        have hlt' := field_lt r.bits (r.distance + 1) 15
        omega
      · simp only [Bool.not_true, Bool.false_eq_true, if_false]
        simp only [Bool.toNat_true] at hfirst
        refine hflag'.bind ?_
        cases hbit' : r.bits (r.distance + 1) <;> rw [hbit'] at hsecond
        · simp only [Bool.toNat_false] at hsecond
          have hbit'' : (r.advance 1).bits (r.distance + 1) = false := hbit'
          rw [hbit'']
          simp only [Bool.not_false, if_true]
          have hvalue : field (r.advance 2).bits (r.distance + 2) 14 % 2 ^ 32 = len := by
            show field r.bits (r.distance + 1 + 1) 14 % 2 ^ 32 = len
            omega
          rw [hvalue] at hrest
          exact hrest
        · simp only [Bool.toNat_true] at hsecond
          omega
  · simp only [Bool.not_true, Bool.false_eq_true, if_false]
    have hzero := hplace rfl
    refine (runs_alignBytes_of_aligned hzero).bind ?_
    have hfirst := @BitRef.runs_unpack 32 8 r (by decide) (hroom.mono (show 8 ≤ bits by omega))
      (by omega)
    have hlt := field_lt r.bits r.distance 8
    rw [Nat.mod_eq_of_lt (by omega)] at hfirst
    refine hfirst.bind ?_
    rcases h with ⟨rfl, hlen, hfield⟩ | ⟨rfl, hlen, hfield⟩
    · rw [if_pos (by omega), hfield]
      exact runs_pure len _
    · have hsplit : field r.bits r.distance 16 = _ := field_add r.bits r.distance 8 8
      have hlt' := field_lt r.bits (r.distance + 8) 8
      have hroom₁ : (r.advance 8).HasRoom 8 := by
        unfold HasRoom at *
        rw [advance_distance, advance_buf]
        omega
      have hsecond := @BitRef.runs_unpack 32 8 (r.advance 8) (by decide) hroom₁
        (by have := (r.advance 8).offset_lt; omega)
      rw [advance_advance, advance_distance] at hsecond
      rw [if_neg (by omega), if_pos (by omega)]
      refine hsecond.bind ?_
      have hvalue : (field r.bits r.distance 8 - 128) * 2 ^ 8
          + field (r.advance 8).bits (r.distance + 8) 8 % 2 ^ 32 = len := by
        show (field r.bits r.distance 8 - 128) * 2 ^ 8
          + field r.bits (r.distance + 8) 8 % 2 ^ 32 = len
        omega
      rw [hvalue]
      exact runs_pure len _

theorem of_runs_unpackLength {r r' : BitRef} {len : Nat} (h : (unpackLength true).Runs r len r') :
    (field r.bits (alignUp r.distance) 8 = len ∧ r'.distance = alignUp r.distance + 8) ∨
      (field r.bits (alignUp r.distance) 16 = 2 ^ 15 + len ∧
        r'.distance = alignUp r.distance + 16) := by
  unfold unpackLength at h
  simp only [Bool.not_true, Bool.false_eq_true, if_false] at h
  obtain ⟨_, r₁, halign, h⟩ := h.of_bind
  obtain ⟨v, r₂, hfirst, h⟩ := h.of_bind
  obtain ⟨hdist, -, hbuf⟩ := of_runs_alignBytes halign
  obtain ⟨-, -, -, rfl, rfl⟩ := of_runs_unpack hfirst (by decide)
  have hbits : r₁.bits = r.bits := by unfold bits; rw [hbuf]
  rw [hbits, hdist] at h
  have hlt := field_lt r.bits (alignUp r.distance) 8
  rw [Nat.mod_eq_of_lt (by omega)] at h
  split at h
  · obtain ⟨rfl, rfl⟩ := (runs_pure _ _).unique h
    exact Or.inl ⟨rfl, by rw [advance_distance, hdist]⟩
  split at h
  · obtain ⟨v', r₃, hsecond, h⟩ := h.of_bind
    obtain ⟨-, -, -, rfl, rfl⟩ := of_runs_unpack hsecond (by decide)
    obtain ⟨rfl, rfl⟩ := (runs_pure _ _).unique h
    have hsplit : field r.bits (alignUp r.distance) 16 = _ :=
      field_add r.bits (alignUp r.distance) 8 8
    have hlt' := field_lt r.bits (alignUp r.distance + 8) 8
    have hplace : field (r₁.advance 8).bits (r₁.advance 8).distance 8
        = field r.bits (alignUp r.distance + 8) 8 := by
      rw [advance_distance, hdist]
      show field r₁.bits _ 8 = _
      rw [hbits]
    refine Or.inr ⟨?_, ?_⟩
    · rw [hplace]
      omega
    · rw [advance_distance, advance_distance, hdist]
  · exact absurd h not_runs_fail

/-- A number of whole bytes that is found again at the start of the next byte is zero. -/
theorem field_alignUp {f : Nat → Bool} {p n : Nat} (hp : p % 8 ≠ 0) (hn : n % 8 = 0)
    (hzero : ∀ i, p + n ≤ i → i < alignUp (p + n) → f i = false)
    (h : field f (alignUp p) n = field f p n) : field f p n = 0 := by
  have hup : alignUp p = p + (8 - p % 8) := by unfold alignUp; omega
  have hend : alignUp (p + n) = p + n + (8 - p % 8) := by unfold alignUp; omega
  have hfront := field_add f p (8 - p % 8) n
  have hback := field_add f p n (8 - p % 8)
  have hpadding : field f (p + n) (8 - p % 8) = 0 :=
    field_eq_zero fun i hle hlt => hzero i hle (by omega)
  rw [Nat.add_comm (8 - p % 8) n, ← hup, h] at hfront
  rw [hpadding, Nat.add_zero] at hback
  exact eq_zero_of_shift (hfront.symm.trans hback) (by omega) (field_lt f p n)

/-- A length without bounds is found at the start of a byte only. -/
theorem free_iff {w₁ w₂ w₃ w' : BitRef} {start aligned : Bool} {len : Nat} (hpos : 0 < len)
    (hlen : len < asn16K)
    (hwritten : (len < 128 ∧ w₁.Written w₂ len 8) ∨
      (128 ≤ len ∧ w₁.Written w₂ (2 ^ 15 + len) 16))
    (hroom : w₁.HasRoom 16) (hext₂ : w₂.Extends w₃) (hext₃ : w₃.Extends w')
    (hbits : w₃.bits = w₂.bits) (hdist : w₃.distance = fieldStart start w₂.distance) :
    (∃ r₂, (unpackLength aligned).Runs (w'.readFrom w₁) len r₂ ∧ r₂.buf = w'.buf ∧
        fieldStart start r₂.distance = fieldStart start w₂.distance) ↔
      (aligned → w₁.offset = 0) := by
  unfold asn16K at hlen
  have hext := hext₂.trans hext₃
  have hoffset := w₁.offset_lt
  constructor
  · rintro ⟨r₂, hread, -, hstart⟩ rfl
    by_contra hne
    have hmod : w₁.distance % 8 ≠ 0 := by unfold distance; omega
    -- Only a reader that aligns the bits can come to the same place.
    cases start
    · have hup : alignUp w₁.distance ≠ w₁.distance ∧ alignUp w₁.distance < w₁.distance + 8 ∧
          w₁.distance < alignUp w₁.distance := by unfold alignUp; omega
      unfold fieldStart at hstart
      simp only [Bool.false_eq_true, if_false] at hstart
      rcases of_runs_unpackLength hread with ⟨-, hr⟩ | ⟨-, hr⟩ <;>
        rcases hwritten with ⟨-, hw⟩ | ⟨-, hw⟩ <;>
        rw [hr, hw.distance_eq, readFrom_distance] at hstart <;> omega
    · unfold fieldStart at hstart hdist
      simp only [if_true] at hstart hdist
      have hzero : ∀ i, w₂.distance ≤ i → i < alignUp w₂.distance → w'.bits i = false := by
        intro i hle hlt
        rw [hext₃.before i (by omega), hbits]
        rcases hwritten with ⟨-, hw⟩ | ⟨-, hw⟩
        · exact hw.padding (by decide) i hle hlt
        · exact hw.padding (by decide) i hle hlt
      have hsame : ∀ val n, w₁.Written w₂ val n → field w'.bits w₁.distance n = val % 2 ^ n :=
        fun val n hw => (hext.field_eq (Nat.le_of_eq hw.distance_eq.symm)).trans hw.value
      rcases of_runs_unpackLength hread with ⟨hvalue, hr⟩ | ⟨hvalue, hr⟩ <;>
        rw [readFrom_distance, readFrom_bits] at hvalue <;>
        rw [readFrom_distance] at hr <;>
        rcases hwritten with ⟨hsmall, hw⟩ | ⟨hsmall, hw⟩ <;>
        rw [hr, hw.distance_eq] at hstart <;> rw [hw.distance_eq] at hzero
      · have hlength := hsame len 8 hw
        rw [Nat.mod_eq_of_lt (by omega)] at hlength
        have hnone := field_alignUp hmod (by decide) hzero (hvalue.trans hlength.symm)
        omega
      · unfold alignUp at hstart
        omega
      · unfold alignUp at hstart
        omega
      · have hlength := hsame (2 ^ 15 + len) 16 hw
        rw [Nat.mod_eq_of_lt (by omega)] at hlength
        have hnone := field_alignUp hmod (by decide) hzero (hvalue.trans hlength.symm)
        omega
  · intro hplace
    rcases hwritten with ⟨hsmall, hw⟩ | ⟨hsmall, hw⟩
    · have hfield := (hext.field_eq (Nat.le_of_eq hw.distance_eq.symm)).trans hw.value
      rw [Nat.mod_eq_of_lt (by omega)] at hfield
      have hread := @runs_unpackLength (w'.readFrom w₁) aligned len 8 hplace
        ((hroom.mono (by decide)).readFrom (hw.toExtends.trans hext))
        (Or.inl ⟨rfl, hsmall, hfield⟩)
      rw [readFrom_advance hw.distance_eq] at hread
      exact ⟨_, hread, rfl, rfl⟩
    · have hfield := (hext.field_eq (Nat.le_of_eq hw.distance_eq.symm)).trans hw.value
      rw [Nat.mod_eq_of_lt (by omega)] at hfield
      have hread := @runs_unpackLength (w'.readFrom w₁) aligned len 16 hplace
        (hroom.readFrom (hw.toExtends.trans hext)) (Or.inr ⟨rfl, hlen, hfield⟩)
      rw [readFrom_advance hw.distance_eq] at hread
      exact ⟨_, hread, rfl, rfl⟩

/-! ### Lengths between bounds -/

section Bounded

variable {w₁ w₂ w₃ w' : BitRef} {len lb ub : Nat} {aligned : Bool}

/-- The bits of the length, filled up to a byte in the aligned variant. -/
theorem runs_packBounded (hroom : w₁.HasRoom 24) (hub : ub < asn64K) (hlt : lb < ub) :
    ∃ w₂, (do
        let lenBits ← ofOption (ceilLog2 (ub - lb))
        pack (len - lb) lenBits
        if aligned then alignBytesZero else pure ()).Runs w₁ () w₂ ∧ w₁.Extends w₂ ∧
      w₂.distance = (if aligned then alignUp (w₁.distance + Nat.clog 2 (ub - lb))
        else w₁.distance + Nat.clog 2 (ub - lb)) ∧
      field w₂.bits w₁.distance (Nat.clog 2 (ub - lb)) = (len - lb) % 2 ^ Nat.clog 2 (ub - lb) ∧
      ∀ i, w₁.distance + Nat.clog 2 (ub - lb) ≤ i → i < w₂.distance → w₂.bits i = false := by
  have hle : Nat.clog 2 (ub - lb) ≤ 16 := clog_le (by unfold asn64K at hub; omega)
  rw [ofOption_bind (ceilLog2_eq (by omega))]
  obtain ⟨w, hpack, hwritten⟩ := runs_pack (len - lb)
    (show Nat.clog 2 (ub - lb) < 64 by omega) (hroom.mono (show _ ≤ 24 by omega))
  have hdist := hwritten.distance_eq
  cases aligned
  · refine ⟨w, hpack.bind (runs_pure () w), hwritten.toExtends, hdist, hwritten.value, ?_⟩
    intro i hge hlt
    omega
  · obtain ⟨w₂, halign, hext, hdist₂, hzero⟩ := runs_alignBytesZero (Or.inl
      (hroom.of_extends hwritten.toExtends (show w.distance + 1 ≤ w₁.distance + 24 by omega)))
    refine ⟨w₂, hpack.bind halign, hwritten.toExtends.trans hext, by rw [hdist₂, hdist]; rfl, ?_, ?_⟩
    · rw [hext.field_eq (Nat.le_of_eq hdist.symm), hwritten.value]
    · rw [← hdist]
      exact hzero

theorem ranged_length (hlb : lb ≤ len) (hle : len ≤ ub) (hub : ub < asn64K) (hlt : lb < ub) :
    Ranged .uint32 len lb ub (len - lb) (ub - lb + 1) := by
  unfold asn64K at hub
  have hmax : IntType.uint32.max = 2 ^ 32 - 1 := rfl
  exact ⟨show (0 : Int) ≤ lb by omega, by omega, by omega, by omega, by omega, by omega, by omega,
    _, rfl⟩

/-- The decoder as the branches of the encoding. -/
theorem unpackLengthBounded_eq (hlb : lb ≤ len) (hle : len ≤ ub) (hub : ub < asn64K)
    (hlt : lb < ub) :
    unpackLengthBounded .uint32 lb ub aligned =
      if !aligned then do
        let val ← unpack 32 (Nat.clog 2 (ub - lb + 1))
        let n ← addBound .uint32 val lb
        if n > ub then fail .decodeFail else pure n
      else if ub - lb + 1 < 256 then do
        let val ← unpack 32 (Nat.clog 2 (ub - lb + 1))
        addBound .uint32 val lb
      else (do
        alignBytes
        let val ← unpack 32 (ceilFrac (Nat.clog 2 (ub - lb + 1)) 8 * 8)
        alignBytes
        addBound .uint32 val lb) := by
  have h := ranged_length hlb hle hub hlt
  have hbounded : ¬ (ub : Int) ≥ asn64K := by omega
  have hsmall : ub - lb + 1 ≤ asn64K := by omega
  unfold unpackLengthBounded
  rw [if_neg hbounded, unpackConstrained_eq h]
  rw [if_pos hsmall]
  rfl

/-- The length that a number of the field stands for. -/
theorem addBound_length {v : Nat} {r r' : BitRef} {n : Int} (hv : v < 2 ^ 16) (hub : ub < asn64K)
    (hlt : lb < ub) (h : (addBound .uint32 v lb).Runs r n r') : n = v + lb ∧ r' = r := by
  unfold asn64K at hub
  have hmax : IntType.uint32.max = 2 ^ 32 - 1 := rfl
  have hmin : IntType.uint32.min = 0 := rfl
  have heq : addBound .uint32 v lb = pure ((v : Int) + lb) :=
    addBound_eq (by omega) (fun ht => by rcases ht with ht | ht <;> cases ht) (by omega)
  rw [heq] at h
  obtain ⟨hn, hr⟩ := (runs_pure _ _).unique h
  exact ⟨hn.symm, hr.symm⟩

theorem addBound_nonneg {v : Nat} {lower : Int} {r r' : BitRef} {n : Int}
    (h : (addBound .uint32 v lower).Runs r n r') : 0 ≤ n := by
  obtain ⟨sum, r₁, -, hwrap⟩ := h.of_bind
  obtain ⟨rfl, -⟩ := (runs_pure _ _).unique hwrap
  exact Int.emod_nonneg _ (by decide)

theorem length_nonneg (hlb : lb ≤ len) (hle : len ≤ ub) (hub : ub < asn64K) (hlt : lb < ub)
    {r r' : BitRef} {n : Int} (h : (unpackLengthBounded .uint32 lb ub aligned).Runs r n r') :
    0 ≤ n := by
  rw [unpackLengthBounded_eq hlb hle hub hlt] at h
  split at h
  · obtain ⟨val, r₁, -, h⟩ := h.of_bind
    obtain ⟨sum, r₂, hadd, hcheck⟩ := h.of_bind
    split at hcheck
    · exact absurd hcheck not_runs_fail
    · obtain ⟨rfl, -⟩ := (runs_pure _ _).unique hcheck
      exact addBound_nonneg hadd
  split at h
  · obtain ⟨val, r₁, -, hadd⟩ := h.of_bind
    exact addBound_nonneg hadd
  · obtain ⟨_, r₁, -, h⟩ := h.of_bind
    obtain ⟨val, r₂, -, h⟩ := h.of_bind
    obtain ⟨_, r₃, -, hadd⟩ := h.of_bind
    exact addBound_nonneg hadd

/-- The widths that the writer and the reader take for a length. -/
theorem clog_length (hle : len ≤ ub) (hlt : lb < ub) :
    Nat.clog 2 (ub - lb) ≤ Nat.clog 2 (ub - lb + 1) ∧
      Nat.clog 2 (ub - lb + 1) ≤ Nat.clog 2 (ub - lb) + 1 ∧
      len - lb ≤ 2 ^ Nat.clog 2 (ub - lb) ∧ len - lb < 2 ^ Nat.clog 2 (ub - lb + 1) := by
  have hpow := Nat.le_pow_clog (show 1 < 2 by decide) (ub - lb)
  refine ⟨Nat.clog_mono_right 2 (Nat.le_succ _), clog_le ?_, by omega, lt_two_pow_clog (by omega)⟩
  rw [Nat.pow_succ]
  omega

theorem runs_addBound_iff (hlb : lb ≤ len) (hle : len ≤ ub) (hub : ub < asn64K) (hlt : lb < ub)
    {v : Nat} (hv : v < 2 ^ 16) {r r' : BitRef} :
    (addBound .uint32 v lb).Runs r len r' ↔ v = len - lb ∧ r' = r := by
  constructor
  · intro h
    obtain ⟨hn, hr⟩ := addBound_length hv hub hlt h
    exact ⟨by omega, hr⟩
  · rintro ⟨rfl, rfl⟩
    rw [(ranged_length hlb hle hub hlt).addBound_eq]
    exact runs_pure _ _

/-- A length that the reader finds with zeros of the padding is the first one. -/
theorem eq_first_of_shift {x k s : Nat} (hlb : lb ≤ len) (hle : len ≤ ub) (hlt : lb < ub)
    (hs : 0 < s) (hk : len - lb < 2 ^ k)
    (h : x * 2 ^ k + (len - lb) = (len - lb) % 2 ^ Nat.clog 2 (ub - lb) * 2 ^ s) : len = lb := by
  obtain ⟨-, -, hvalue, -⟩ := clog_length hle hlt
  rcases Nat.lt_or_ge (len - lb) (2 ^ Nat.clog 2 (ub - lb)) with hlow | hhigh
  · rw [Nat.mod_eq_of_lt hlow] at h
    have hnil := eq_zero_of_shift h hs hk
    omega
  · -- The last length is written as the first one.
    have hexact : len - lb = 2 ^ Nat.clog 2 (ub - lb) := Nat.le_antisymm hvalue hhigh
    have hpow := Nat.two_pow_pos (Nat.clog 2 (ub - lb))
    rw [hexact, Nat.mod_self, Nat.zero_mul] at h
    omega

/-- What the writer leaves of a length in the aligned variant. -/
structure PaddedLength (w₁ w₂ w' : BitRef) (len lb ub : Nat) : Prop where
  before : w₁.Extends w₂
  behind : w₂.Extends w'
  distance_eq : w₂.distance = alignUp (w₁.distance + Nat.clog 2 (ub - lb))
  value : field w₂.bits w₁.distance (Nat.clog 2 (ub - lb)) = (len - lb) % 2 ^ Nat.clog 2 (ub - lb)
  padding : ∀ i, w₁.distance + Nat.clog 2 (ub - lb) ≤ i → i < w₂.distance → w₂.bits i = false

/-- The length with `k` zeros behind it, as the reader sees it. -/
theorem PaddedLength.field_eq {k : Nat} (hw : PaddedLength w₁ w₂ w' len lb ub)
    (hle : w₁.distance + Nat.clog 2 (ub - lb) + k ≤ w₂.distance) :
    field w'.bits w₁.distance (Nat.clog 2 (ub - lb) + k)
      = (len - lb) % 2 ^ Nat.clog 2 (ub - lb) * 2 ^ k := by
  have hpadding : field w₂.bits (w₁.distance + Nat.clog 2 (ub - lb)) k = 0 :=
    field_eq_zero fun i hge hlt => hw.padding i hge (by omega)
  rw [hw.behind.field_eq (by omega), field_add, hw.value, hpadding, Nat.add_zero]

theorem small_length_iff (hlb : lb ≤ len) (hle : len ≤ ub) (hub : ub < asn64K) (hlt : lb < ub)
    (hsmall : ub - lb + 1 < 256) (hroom : w₁.HasRoom 24) (hw : PaddedLength w₁ w₂ w' len lb ub) :
    (∃ r₂, (unpackLengthBounded .uint32 lb ub true).Runs (w'.readFrom w₁) len r₂ ∧
        r₂.buf = w'.buf ∧ alignUp r₂.distance = alignUp w₂.distance) ↔
      Nat.clog 2 (ub - lb) = Nat.clog 2 (ub - lb + 1) ∨
        (len = lb ∧ (w₁.offset + Nat.clog 2 (ub - lb)) % 8 ≠ 0) := by
  rw [unpackLengthBounded_eq hlb hle hub hlt]
  have hdist := hw.distance_eq
  have hbits : Nat.clog 2 (ub - lb + 1) ≤ 8 := clog_le (by omega)
  have hpos : 0 < Nat.clog 2 (ub - lb + 1) := clog_pos (by omega)
  have hoffset := w₁.offset_lt
  have hmod : w₁.distance % 8 = w₁.offset := by unfold distance; omega
  -- The reader takes as many bits as the writer, or one more.
  obtain ⟨hmono, hone, -, hlow⟩ := clog_length hle hlt
  simp only [Bool.not_true, Bool.false_eq_true, if_false]
  rw [if_pos hsmall]
  have hread := @BitRef.runs_unpack 32 (Nat.clog 2 (ub - lb + 1)) (w'.readFrom w₁) (by omega)
    ((hroom.mono (by omega)).readFrom (hw.before.trans hw.behind)) (by rw [readFrom_offset]; omega)
  rw [readFrom_bits, readFrom_distance] at hread
  have hlt' := field_lt w'.bits w₁.distance (Nat.clog 2 (ub - lb + 1))
  have hpow : 2 ^ Nat.clog 2 (ub - lb + 1) ≤ 2 ^ 8 := Nat.pow_le_pow_right (by decide) hbits
  rw [Nat.mod_eq_of_lt (by omega)] at hread
  have hback : ∀ r₂, (do
      let val ← unpack 32 (Nat.clog 2 (ub - lb + 1))
      addBound .uint32 val lb).Runs (w'.readFrom w₁) len r₂ ↔
        field w'.bits w₁.distance (Nat.clog 2 (ub - lb + 1)) = len - lb ∧
          r₂ = (w'.readFrom w₁).advance (Nat.clog 2 (ub - lb + 1)) := by
    intro r₂
    rw [runs_bind_iff hread, runs_addBound_iff hlb hle hub hlt (by omega)]
  have hstop : ((w'.readFrom w₁).advance (Nat.clog 2 (ub - lb + 1))).distance
      = w₁.distance + Nat.clog 2 (ub - lb + 1) := by rw [advance_distance, readFrom_distance]
  constructor
  · rintro ⟨r₂, hrun, -, hstart⟩
    obtain ⟨hvalue, rfl⟩ := (hback r₂).mp hrun
    rw [hstop, hdist] at hstart
    by_cases heq : Nat.clog 2 (ub - lb) = Nat.clog 2 (ub - lb + 1)
    · exact Or.inl heq
    · have hsucc : Nat.clog 2 (ub - lb + 1) = Nat.clog 2 (ub - lb) + 1 := by omega
      rw [hsucc] at hstart hvalue
      have hbyte : (w₁.offset + Nat.clog 2 (ub - lb)) % 8 ≠ 0 := by
        unfold alignUp at hstart
        omega
      rw [hw.field_eq (by rw [hdist]; unfold alignUp; omega)] at hvalue
      refine Or.inr ⟨?_, hbyte⟩
      refine eq_first_of_shift (x := 0) hlb hle hlt Nat.one_pos hlow ?_
      rw [Nat.zero_mul, Nat.zero_add, hvalue]
  · intro hfits
    refine ⟨_, (hback _).mpr ⟨?_, rfl⟩, rfl, ?_⟩
    · rcases Nat.eq_or_lt_of_le hmono with heq | hmore
      · have hnone := hw.field_eq (k := 0) (by rw [hdist]; unfold alignUp; omega)
        rw [Nat.add_zero, Nat.pow_zero, Nat.mul_one, heq, Nat.mod_eq_of_lt hlow] at hnone
        exact hnone
      · have hsucc : Nat.clog 2 (ub - lb + 1) = Nat.clog 2 (ub - lb) + 1 := by omega
        obtain ⟨rfl, hbyte⟩ := hfits.resolve_left (Nat.ne_of_lt hmore)
        rw [hsucc, hw.field_eq (by rw [hdist]; unfold alignUp; omega), Nat.sub_self, Nat.zero_mod,
          Nat.zero_mul]
    · rw [hstop, hdist]
      unfold alignUp
      omega

/-- The octets of a length that are read, behind the next start of a byte. -/
theorem runs_lengthOctets_iff {k : Nat} (hlb : lb ≤ len) (hle : len ≤ ub) (hub : ub < asn64K)
    (hlt : lb < ub) (hk8 : k % 8 = 0) (hk16 : k ≤ 16) (hroom : w₁.HasRoom 24)
    (hext : w₁.Extends w') (r₂ : BitRef) :
    (do
        alignBytes
        let val ← unpack 32 k
        alignBytes
        addBound .uint32 val lb).Runs (w'.readFrom w₁) len r₂ ↔
      field w'.bits (alignUp w₁.distance) k = len - lb ∧
        r₂ = (w'.readFrom w₁).advance (alignUp w₁.distance - w₁.distance + k) := by
  have hpow16 : 2 ^ k ≤ 2 ^ 16 := Nat.pow_le_pow_right (by decide) hk16
  have hlt' := field_lt w'.bits (alignUp w₁.distance) k
  have hup : w₁.distance ≤ alignUp w₁.distance ∧ alignUp w₁.distance ≤ w₁.distance + 7 ∧
      alignUp w₁.distance % 8 = 0 := by
    unfold alignUp
    omega
  -- The reader at the start of the next byte, and behind the octets.
  obtain ⟨r₁, hr₁⟩ : ∃ r₁, r₁ = (w'.readFrom w₁).advance (alignUp w₁.distance - w₁.distance) :=
    ⟨_, rfl⟩
  have hdist₁ : r₁.distance = alignUp w₁.distance := by
    rw [hr₁, advance_distance, readFrom_distance]
    omega
  have hoff₁ : r₁.offset = 0 := by
    have h₁ := r₁.offset_lt
    have hpos : r₁.distance = 8 * r₁.ptr + r₁.offset := rfl
    omega
  have halign : alignBytes.Runs (w'.readFrom w₁) () r₁ := by
    rw [hr₁]
    have h := @runs_alignBytes (w'.readFrom w₁) (Or.inl ((hroom.mono (by omega)).readFrom hext))
    rw [readFrom_distance] at h
    exact h
  have hread : (unpack 32 k).Runs r₁ (field w'.bits (alignUp w₁.distance) k) (r₁.advance k) := by
    have hroom₁ : r₁.HasRoom k := by
      have hlen := hext.length_eq
      unfold HasRoom at hroom ⊢
      rw [hdist₁, hr₁, advance_buf]
      show _ ≤ 8 * w'.buf.length
      omega
    have h := @BitRef.runs_unpack 32 k r₁ (by omega) hroom₁ (by omega)
    rw [hdist₁, show r₁.bits = w'.bits by rw [hr₁]; rfl, Nat.mod_eq_of_lt (by omega)] at h
    exact h
  have hend : alignBytes.Runs (r₁.advance k) () (r₁.advance k) := by
    refine runs_alignBytes_of_aligned ?_
    show (8 * r₁.ptr + r₁.offset + k) % 8 = 0
    omega
  rw [runs_bind_iff halign, runs_bind_iff hread, runs_bind_iff hend,
    runs_addBound_iff hlb hle hub hlt (by omega), hr₁, advance_advance]

theorem octets_length_iff (hlb : lb ≤ len) (hle : len ≤ ub) (hub : ub < asn64K) (hlt : lb < ub)
    (hlarge : 256 ≤ ub - lb + 1) (hroom : w₁.HasRoom 24) (hw : PaddedLength w₁ w₂ w' len lb ub) :
    (∃ r₂, (unpackLengthBounded .uint32 lb ub true).Runs (w'.readFrom w₁) len r₂ ∧
        r₂.buf = w'.buf ∧ alignUp r₂.distance = alignUp w₂.distance) ↔
      (w₁.offset = 0 ∧ Nat.clog 2 (ub - lb) = ceilFrac (Nat.clog 2 (ub - lb + 1)) 8 * 8) ∨
        (len = lb ∧ alignUp (w₁.offset + Nat.clog 2 (ub - lb))
          = alignUp w₁.offset + ceilFrac (Nat.clog 2 (ub - lb + 1)) 8 * 8) := by
  rw [unpackLengthBounded_eq hlb hle hub hlt]
  have hdist := hw.distance_eq
  have hoffset := w₁.offset_lt
  have hmod : w₁.distance = 8 * w₁.ptr + w₁.offset := rfl
  have hbits : Nat.clog 2 (ub - lb + 1) ≤ 16 := clog_le (by unfold asn64K at hub; omega)
  obtain ⟨hmono, -, -, hlow⟩ := clog_length hle hlt
  obtain ⟨k, hk, hk8, hk16, hkle⟩ : ∃ k, k = ceilFrac (Nat.clog 2 (ub - lb + 1)) 8 * 8 ∧ k % 8 = 0 ∧
      k ≤ 16 ∧ Nat.clog 2 (ub - lb + 1) ≤ k := ⟨_, rfl, by omega, by unfold ceilFrac; omega,
      by unfold ceilFrac; omega⟩
  rw [← hk]
  have hpowle : 2 ^ Nat.clog 2 (ub - lb + 1) ≤ 2 ^ k := Nat.pow_le_pow_right (by decide) hkle
  simp only [Bool.not_true, Bool.false_eq_true, if_false]
  rw [if_neg (by omega)]
  have hback := runs_lengthOctets_iff hlb hle hub hlt hk8 hk16 hroom (hw.before.trans hw.behind)
  have hup : alignUp w₁.distance = 8 * w₁.ptr + alignUp w₁.offset ∧
      w₁.distance ≤ alignUp w₁.distance := by
    unfold alignUp
    omega
  have hstop : ((w'.readFrom w₁).advance (alignUp w₁.distance - w₁.distance + k)).distance
      = alignUp w₁.distance + k := by
    rw [advance_distance, readFrom_distance]
    omega
  have hstart : alignUp (alignUp w₁.distance + k) = alignUp w₂.distance ↔
      alignUp (w₁.offset + Nat.clog 2 (ub - lb)) = alignUp w₁.offset + k := by
    rw [hdist]
    unfold alignUp
    omega
  -- The whole field up to the place where both stop.
  have hwhole : ∀ s, alignUp w₁.distance + k = w₁.distance + Nat.clog 2 (ub - lb) + s →
      alignUp w₁.distance + k = w₂.distance →
      field w'.bits w₁.distance (alignUp w₁.distance - w₁.distance) * 2 ^ k
          + field w'.bits (alignUp w₁.distance) k
        = (len - lb) % 2 ^ Nat.clog 2 (ub - lb) * 2 ^ s := by
    intro s hs hstop'
    have hsplit := field_add w'.bits w₁.distance (alignUp w₁.distance - w₁.distance) k
    rw [show alignUp w₁.distance - w₁.distance + k = Nat.clog 2 (ub - lb) + s by omega,
      show w₁.distance + (alignUp w₁.distance - w₁.distance) = alignUp w₁.distance by omega] at hsplit
    exact hsplit.symm.trans (hw.field_eq (by omega))
  constructor
  · rintro ⟨r₂, hrun, -, hstart'⟩
    obtain ⟨hvalue, rfl⟩ := (hback r₂).mp hrun
    rw [hstop, hstart] at hstart'
    have hsum := hwhole (alignUp w₁.distance + k - w₁.distance - Nat.clog 2 (ub - lb))
      (by omega) (by rw [hdist]; unfold alignUp at hstart' hup ⊢; omega)
    rw [hvalue] at hsum
    rcases Nat.eq_zero_or_pos (alignUp w₁.distance + k - w₁.distance - Nat.clog 2 (ub - lb))
      with hnone | hsome
    · exact Or.inl ⟨by unfold alignUp at hup hnone; omega, by omega⟩
    · exact Or.inr ⟨eq_first_of_shift hlb hle hlt hsome (by omega) hsum, hstart'⟩
  · rintro (⟨hzero', hfull⟩ | ⟨rfl, hsame⟩)
    · have hat : alignUp w₁.distance = w₁.distance := by unfold alignUp; omega
      refine ⟨_, (hback _).mpr ⟨?_, rfl⟩, rfl, ?_⟩
      · have hsum := hwhole 0 (by omega) (by rw [hdist, hat]; unfold alignUp; omega)
        rw [hat, Nat.sub_self, field_zero, Nat.zero_mul, Nat.zero_add, Nat.pow_zero, Nat.mul_one,
          Nat.mod_eq_of_lt (by rw [hfull]; omega)] at hsum
        rw [hat]
        exact hsum
      · rw [hstop, hstart, hfull, hzero']
        unfold alignUp
        omega
    · refine ⟨_, (hback _).mpr ⟨?_, rfl⟩, rfl, ?_⟩
      · have hsum := hwhole (alignUp w₁.distance + k - w₁.distance - Nat.clog 2 (ub - len))
          (by omega) (by rw [hdist]; unfold alignUp at hsame hup ⊢; omega)
        rw [Nat.sub_self, Nat.zero_mod, Nat.zero_mul] at hsum
        omega
      · rw [hstop, hstart]
        exact hsame

/-- The unaligned variant, which checks the upper bound. -/
theorem unaligned_length_iff (hlb : lb ≤ len) (hle : len ≤ ub) (hub : ub < asn64K)
    (hlt : lb < ub) (hroom : w₁.HasRoom 24) (hext : w₁.Extends w₂) (hext' : w₂.Extends w')
    (hdist : w₂.distance = w₁.distance + Nat.clog 2 (ub - lb))
    (hfield : field w₂.bits w₁.distance (Nat.clog 2 (ub - lb))
      = (len - lb) % 2 ^ Nat.clog 2 (ub - lb)) :
    (∃ r₂, (unpackLengthBounded .uint32 lb ub false).Runs (w'.readFrom w₁) len r₂ ∧
        r₂.buf = w'.buf ∧ r₂.distance = w₂.distance) ↔
      Nat.clog 2 (ub - lb) = Nat.clog 2 (ub - lb + 1) := by
  rw [unpackLengthBounded_eq hlb hle hub hlt]
  have hranged := ranged_length hlb hle hub hlt
  unfold asn64K at hub
  have hbits : Nat.clog 2 (ub - lb + 1) ≤ 16 := clog_le (by omega)
  have hpos : 0 < Nat.clog 2 (ub - lb + 1) := clog_pos (by omega)
  simp only [Bool.not_false, if_true]
  constructor
  · rintro ⟨r₂, hread, -, hstop⟩
    obtain ⟨v, r, hunpack, hrest⟩ := hread.of_bind
    obtain ⟨n, r', hadd, hcheck⟩ := hrest.of_bind
    obtain ⟨-, -, -, hv, rfl⟩ := of_runs_unpack hunpack hpos
    have hlt' := field_lt (w'.readFrom w₁).bits (w'.readFrom w₁).distance
      (Nat.clog 2 (ub - lb + 1))
    have hpow : 2 ^ Nat.clog 2 (ub - lb + 1) ≤ 2 ^ 16 := Nat.pow_le_pow_right (by decide) hbits
    obtain ⟨-, rfl⟩ := addBound_length (by omega) hub hlt hadd
    split at hcheck
    · exact absurd hcheck not_runs_fail
    · obtain ⟨-, rfl⟩ := (runs_pure _ _).unique hcheck
      rw [advance_distance, readFrom_distance] at hstop
      omega
  · intro hsame
    have hwritten : field w'.bits w₁.distance (Nat.clog 2 (ub - lb + 1)) = len - lb := by
      have hlow : len - lb < 2 ^ Nat.clog 2 (ub - lb + 1) := lt_two_pow_clog (by omega)
      rw [← hsame] at hlow ⊢
      rw [hext'.field_eq (Nat.le_of_eq hdist.symm), hfield, Nat.mod_eq_of_lt hlow]
    have hoffset := w₁.offset_lt
    have hread := @BitRef.runs_unpack 32 (Nat.clog 2 (ub - lb + 1)) (w'.readFrom w₁) (by omega)
      ((hroom.mono (by omega)).readFrom (hext.trans hext')) (by rw [readFrom_offset]; omega)
    rw [readFrom_advance (show w₂.distance = _ by rw [hdist, hsame]), readFrom_bits,
      readFrom_distance, hwritten, Nat.mod_eq_of_lt (by omega)] at hread
    refine ⟨w'.readFrom w₂, hread.bind ?_, rfl, rfl⟩
    rw [hranged.addBound_eq]
    refine (runs_pure _ _).bind ?_
    rw [if_neg (by omega)]
    exact runs_pure _ _

end Bounded

/-! ### Numbers -/

theorem getD_fromNumber {number nbits i : Nat} (hi : i < ceilFrac nbits 8) :
    ((fromNumber number nbits).getD i 0).toNat = number % 2 ^ nbits / 2 ^ (i * 8) % 2 ^ 8 := by
  have hbyte : ∀ j < ceilFrac nbits 8,
      ((List.range (ceilFrac nbits 8)).map fun i =>
        UInt8.ofNat ((number >>> (i * 8)) % 2 ^ 8)).getD j 0
          = UInt8.ofNat ((number >>> (j * 8)) % 2 ^ 8) := by
    intro j hj
    rw [List.getD_eq_getElem?_getD, List.getElem?_map, List.getElem?_range hj, Option.map_some,
      Option.getD_some]
  have htoNat : ∀ x, x < 2 ^ 8 → (UInt8.ofNat x).toNat = x := fun x hx => Nat.mod_eq_of_lt hx
  have hlast : ceilFrac nbits 8 * 8 ≤ nbits + 7 ∧ nbits ≤ ceilFrac nbits 8 * 8 := by
    unfold ceilFrac
    omega
  unfold fromNumber
  dsimp only
  split
  · next hoffset =>
    by_cases heq : i = ceilFrac nbits 8 - 1
    · -- The bits behind the number are cleaned up.
      subst heq
      have hlt : number >>> ((ceilFrac nbits 8 - 1) * 8) % 2 ^ 8 &&& 2 ^ (nbits % 8) - 1 < 2 ^ 8 :=
        Nat.lt_of_le_of_lt Nat.and_le_left (Nat.mod_lt _ (by decide))
      rw [getD_set _ _ (by rw [List.length_map, List.length_range]; exact hi), hbyte _ hi,
        htoNat _ (Nat.mod_lt _ (by decide)), htoNat _ hlt, Nat.and_two_pow_sub_one_eq_mod]
      refine Nat.eq_of_testBit_eq fun j => ?_
      simp only [Nat.testBit_mod_two_pow, Nat.testBit_shiftRight, Nat.testBit_div_two_pow]
      have hiff : j < nbits % 8 ↔ j + (ceilFrac nbits 8 - 1) * 8 < nbits := by
        unfold ceilFrac
        omega
      simp only [hiff, Nat.add_comm ((ceilFrac nbits 8 - 1) * 8) j]
      cases number.testBit (j + (ceilFrac nbits 8 - 1) * 8) <;> simp
      exact Bool.and_comm _ _
    · rw [List.getD_eq_getElem?_getD, List.getElem?_set_ne (by omega), ← List.getD_eq_getElem?_getD,
        hbyte _ hi, htoNat _ (Nat.mod_lt _ (by decide))]
      refine Nat.eq_of_testBit_eq fun j => ?_
      simp only [Nat.testBit_mod_two_pow, Nat.testBit_shiftRight, Nat.testBit_div_two_pow,
        Nat.add_comm (i * 8) j]
      cases number.testBit (j + i * 8) <;> simp
      omega
  · rw [hbyte _ hi, htoNat _ (Nat.mod_lt _ (by decide))]
    refine Nat.eq_of_testBit_eq fun j => ?_
    simp only [Nat.testBit_mod_two_pow, Nat.testBit_shiftRight, Nat.testBit_div_two_pow,
      Nat.add_comm (i * 8) j]
    cases number.testBit (j + i * 8) <;> simp
    omega

theorem shiftInt_eq {byte : UInt8} {i : Nat} (h : byte.toNat * 2 ^ (i * 8) < 2 ^ 31) (hi : i ≤ 3) :
    shiftInt byte (i * 8) = some ((byte.toNat * 2 ^ (i * 8) : Nat) : Int) := by
  unfold shiftInt
  rw [if_neg (by omega), Nat.shiftLeft_eq, Int.bmod_eq_of_le (by omega) (by omega)]

theorem shiftInt_sign {byte : UInt8} (h : 2 ^ 7 ≤ byte.toNat) :
    shiftInt byte 24 = some ((byte.toNat : Int) * 2 ^ 24 - 2 ^ 32) := by
  have hbyte := UInt8.toNat_lt byte
  unfold shiftInt
  rw [if_neg (by decide), Nat.shiftLeft_eq]
  generalize byte.toNat = b at *
  rw [Int.bmod_def]
  push_cast
  rw [if_neg (by omega)]
  congr 1
  omega

theorem toU64_negative {x : Nat} (h : x < 2 ^ 32) : toU64 ((x : Int) - 2 ^ 32) ≠ x := by
  have hmod : ((x : Int) - 2 ^ 32) % 2 ^ 64 = x - 2 ^ 32 + 2 ^ 64 := by
    rw [← Int.add_emod_right, Int.emod_eq_of_lt (by omega) (by omega)]
  unfold toU64
  rw [hmod]
  omega

/-- The bytes that are not shifted into the sign. -/
theorem toNumberLoop_eq {bytes : Bytes} {x n : Nat}
    (hbytes : ∀ i < n, (bytes.getD i 0).toNat = x / 2 ^ (i * 8) % 2 ^ 8) (hn : n ≤ 4)
    (hx : n = 4 → x / 2 ^ 24 % 2 ^ 8 < 2 ^ 7) : toNumberLoop bytes n = some (x % 2 ^ (n * 8)) := by
  induction n with
  | zero => rw [Nat.zero_mul, Nat.pow_zero, Nat.mod_one]; rfl
  | succ n ih =>
    have hprev := ih (fun i hi => hbytes i (by omega)) (by omega) (by omega)
    have hlast := hbytes n (by omega)
    have hsmall : (bytes.getD n 0).toNat * 2 ^ (n * 8) < 2 ^ 31 := by
      rcases Nat.lt_or_ge n 3 with hlt | hge
      · have hbyte : (bytes.getD n 0).toNat ≤ 255 := Nat.le_of_lt_succ (UInt8.toNat_lt _)
        have hpow : 2 ^ (n * 8) ≤ 2 ^ 16 := Nat.pow_le_pow_right (by decide) (by omega)
        exact Nat.lt_of_le_of_lt (Nat.mul_le_mul hbyte hpow) (by decide)
      · obtain rfl : n = 3 := by omega
        have htop := hx rfl
        rw [hlast]
        omega
    have hpow : 2 ^ (n * 8) ≤ 2 ^ 24 := Nat.pow_le_pow_right (by decide) (by omega)
    have hlow := Nat.mod_lt x (Nat.two_pow_pos (n * 8))
    have hsum : x % 2 ^ ((n + 1) * 8)
        = x % 2 ^ (n * 8) + (bytes.getD n 0).toNat * 2 ^ (n * 8) := by
      rw [hlast, Nat.succ_mul, Nat.pow_add, Nat.mod_mul, Nat.mul_comm (2 ^ (n * 8))]
    unfold toNumberLoop
    rw [hprev, shiftInt_eq hsmall (by omega), hsum]
    show some (toU64 _) = _
    unfold toU64
    congr 1
    omega

/-- A fifth byte is shifted too far. -/
theorem toNumberLoop_undefined (bytes : Bytes) {n : Nat} (hn : 5 ≤ n) :
    toNumberLoop bytes n = none := by
  obtain ⟨k, rfl⟩ : ∃ k, n = k + 1 := ⟨n - 1, by omega⟩
  unfold toNumberLoop shiftInt
  rw [if_pos (by omega)]
  cases toNumberLoop bytes k <;> rfl

/-- A conversion there and back is the identity on the bits, as long as no byte is shifted into the
sign of an `int` or behind it. -/
theorem toNumber_fromNumber_iff {number nbits : Nat} (hmax : nbits ≤ 64) :
    toNumber (fromNumber number nbits) nbits = some (number % 2 ^ nbits) ↔
      nbits ≤ 31 ∨ (nbits = 32 ∧ number % 2 ^ 32 < 2 ^ 31) := by
  have hbytes : ∀ i < ceilFrac nbits 8, ((fromNumber number nbits).getD i 0).toNat
      = number % 2 ^ nbits / 2 ^ (i * 8) % 2 ^ 8 := fun i hi => getD_fromNumber hi
  have hx : number % 2 ^ nbits < 2 ^ nbits := Nat.mod_lt _ (Nat.two_pow_pos nbits)
  have hceil : nbits ≤ ceilFrac nbits 8 * 8 ∧ ceilFrac nbits 8 * 8 ≤ nbits + 7 := by
    unfold ceilFrac
    omega
  unfold toNumber
  rw [if_neg (by omega)]
  rcases Nat.lt_or_ge 4 (ceilFrac nbits 8) with hlarge | hle
  · rw [toNumberLoop_undefined _ hlarge]
    exact iff_of_false nofun (by omega)
  have hpow : 2 ^ nbits ≤ 2 ^ (ceilFrac nbits 8 * 8) :=
    Nat.pow_le_pow_right (by decide) hceil.1
  have hpow32 : 2 ^ nbits ≤ 2 ^ 32 := Nat.pow_le_pow_right (by decide) (by omega)
  by_cases htop : ceilFrac nbits 8 = 4 → number % 2 ^ nbits / 2 ^ 24 % 2 ^ 8 < 2 ^ 7
  · rw [toNumberLoop_eq hbytes hle htop, Nat.mod_eq_of_lt (by omega)]
    refine iff_of_true rfl ?_
    rcases Nat.lt_or_ge nbits 32 with hlt | hge
    · exact Or.inl (by omega)
    · obtain rfl : nbits = 32 := by omega
      have hbyte := htop (by decide)
      exact Or.inr ⟨rfl, by omega⟩
  · -- The fourth byte is negative as an `int`.
    obtain ⟨hfour, hbyte⟩ := Classical.not_imp.mp htop
    rw [hfour] at hbytes ⊢
    have hlast := hbytes 3 (by decide)
    have hprev := toNumberLoop_eq (fun i hi => hbytes i (by omega)) (show 3 ≤ 4 by decide) nofun
    have hshift := @shiftInt_sign ((fromNumber number nbits).getD 3 0) (by omega)
    have hbyte' := UInt8.toNat_lt ((fromNumber number nbits).getD 3 0)
    generalize ((fromNumber number nbits).getD 3 0).toNat = byte at *
    generalize hrest : number % 2 ^ nbits = x at *
    have hsum : ((x % 2 ^ 24 : Nat) : Int) + ((byte : Int) * 2 ^ 24 - 2 ^ 32) = x - 2 ^ 32 := by omega
    have hne := toU64_negative (show x < 2 ^ 32 by omega)
    have hloop : toNumberLoop (fromNumber number nbits) 4
        = some (toU64 ((x % 2 ^ 24 : Nat) + ((byte : Int) * 2 ^ 24 - 2 ^ 32))) := by
      rw [toNumberLoop, hprev, show 3 * 8 = 24 by decide, hshift]
      exact Option.bind_some _ _
    rw [hloop, hsum]
    refine iff_of_false (fun h => hne (Option.some.inj h)) ?_
    rintro (hlt | ⟨rfl, hlt⟩)
    · have hpow31 : 2 ^ nbits ≤ 2 ^ 31 := Nat.pow_le_pow_right (by decide) hlt
      omega
    · omega

/-! ### The result -/

/-- The prefix of a string of `len` bits is read as it was written, where `offset` is the bit behind
the extension marker. -/
def PrefixFits (len lb ub : Nat) (aligned : Bool) (offset : Nat) : Prop :=
  if ub = unbounded ∨ ¬ (lb ≤ len ∧ len ≤ ub) then aligned = true → offset = 0
  else if lb = ub then True
  else if aligned = false then Nat.clog 2 (ub - lb) = Nat.clog 2 (ub - lb + 1)
  else if ub - lb + 1 < 256 then
    Nat.clog 2 (ub - lb) = Nat.clog 2 (ub - lb + 1) ∨
      (len = lb ∧ (offset + Nat.clog 2 (ub - lb)) % 8 ≠ 0)
  else
    (offset = 0 ∧ Nat.clog 2 (ub - lb) = ceilFrac (Nat.clog 2 (ub - lb + 1)) 8 * 8) ∨
      (len = lb ∧ alignUp (offset + Nat.clog 2 (ub - lb))
        = alignUp offset + ceilFrac (Nat.clog 2 (ub - lb + 1)) 8 * 8)

instance (len lb ub : Nat) (aligned : Bool) (offset : Nat) :
    Decidable (PrefixFits len lb ub aligned offset) := by
  unfold PrefixFits
  infer_instance

/-- A length outside the bounds, or without any. -/
theorem free_roundTrips_iff {s : Bitstring} {lb ub : Nat} {hasExt aligned : Bool} {w : BitRef}
    (hpos : 0 < s.nofBits) (hlen : s.nofBits < asn16K)
    (hfree : ub = unbounded ∨ ¬ (lb ≤ s.nofBits ∧ s.nofBits ≤ ub))
    (hno : ¬ (hasExt = true ∧ ub = unbounded))
    (hmarker : (lb ≤ s.nofBits ∧ s.nofBits ≤ ub) ∨ hasExt = true)
    (hroom : w.HasRoom (s.nofBits + 40)) :
    BitstringRoundTrips s lb ub hasExt aligned w ↔
      (aligned = true → (w.offset + if hasExt then 1 else 0) % 8 = 0) := by
  obtain ⟨w₁, hflag, hext₁, hdist₁, hread₁⟩ := @runs_extMarker w hasExt
    (s.nofBits ≥ lb ∧ s.nofBits ≤ ub) (by rw [decide_eq_true_eq]; exact hmarker)
    (hroom.mono (by omega))
  have hone : (if hasExt then 1 else 0) ≤ 1 := by cases hasExt <;> decide
  have hroom₁ : w₁.HasRoom 16 := hroom.of_extends hext₁ (by omega)
  obtain ⟨w₂, hwrite, hwritten⟩ := runs_packLength hlen hroom₁
  have hshort : asn16K ≤ asn64K := by decide
  have hunequal : ¬ (lb = ub ∧ decide (s.nofBits ≥ lb ∧ s.nofBits ≤ ub) = true) := by
    unfold asn16K at hlen
    unfold unbounded at hfree
    simp only [decide_eq_true_eq]
    omega
  have hbehind : ub = unbounded ∨ (!decide (s.nofBits ≥ lb ∧ s.nofBits ≤ ub)) = true := by
    rw [Bool.not_eq_true', decide_eq_false_iff_not]
    exact hfree
  have hpre : (packLengthPrefix s.nofBits lb ub hasExt aligned).Runs w () w₂ := by
    unfold packLengthPrefix
    rw [if_neg hno]
    refine hflag.bind ?_
    rw [if_neg hunequal, if_pos hbehind]
    exact hwrite
  have hext₂ : w₁.Extends w₂ ∧ w₂.distance ≤ w₁.distance + 16 := by
    rcases hwritten with ⟨-, hw⟩ | ⟨-, hw⟩
    · exact ⟨hw.toExtends, by rw [hw.distance_eq]; omega⟩
    · exact ⟨hw.toExtends, by rw [hw.distance_eq]⟩
  obtain ⟨w', w₃, hext₃, hext', hbits, hdist₃, hiff⟩ := @roundTrips_iff_length s lb ub hasExt
    aligned w w₂ hpos (by omega) hpre (hroom.of_extends (hext₁.trans hext₂.1) (by omega))
  have hoffset : (w.offset + if hasExt then 1 else 0) % 8 = w₁.offset := by
    have h₁ := w₁.offset_lt
    unfold distance at hdist₁
    omega
  rw [hiff, hoffset, ← free_iff hpos hlen hwritten hroom₁ hext₃ hext' hbits hdist₃]
  -- The reader takes the same branch behind the marker.
  have hsame : ∀ r₂, (unpackLengthPrefix lb ub hasExt aligned).Runs (w'.readFrom w) s.nofBits r₂ ↔
      (unpackLength aligned).Runs (w'.readFrom w₁) s.nofBits r₂ := by
    intro r₂
    unfold unpackLengthPrefix
    rw [runs_bind_iff (hread₁ w' (hext₂.1.trans (hext₃.trans hext'))), if_pos hbehind]
  simp only [hsame]

/-- A length within its bounds. -/
theorem bounded_roundTrips_iff {s : Bitstring} {lb ub : Nat} {hasExt aligned : Bool} {w : BitRef}
    (hpos : 0 < s.nofBits) (hlb : lb ≤ s.nofBits) (hle : s.nofBits ≤ ub) (hub : ub < asn64K)
    (hroom : w.HasRoom (s.nofBits + 40)) :
    BitstringRoundTrips s lb ub hasExt aligned w ↔
      PrefixFits s.nofBits lb ub aligned ((w.offset + if hasExt then 1 else 0) % 8) := by
  have hwithin : decide (s.nofBits ≥ lb ∧ s.nofBits ≤ ub) = true := decide_eq_true ⟨hlb, hle⟩
  have hbound : ub ≠ unbounded := by unfold asn64K at hub; unfold unbounded; omega
  obtain ⟨w₁, hflag, hext₁, hdist₁, hread₁⟩ :=
    @runs_extMarker w hasExt true (Or.inl rfl) (hroom.mono (by omega))
  have hone : (if hasExt then 1 else 0) ≤ 1 := by cases hasExt <;> decide
  have hroom₁ : w₁.HasRoom 24 := hroom.of_extends hext₁ (by omega)
  have hoffset : (w.offset + if hasExt then 1 else 0) % 8 = w₁.offset := by
    have h₁ := w₁.offset_lt
    unfold distance at hdist₁
    omega
  have hbehind : ¬ (ub = unbounded ∨ ¬ (lb ≤ s.nofBits ∧ s.nofBits ≤ ub)) := by
    rintro (h | h)
    · exact hbound h
    · exact h ⟨hlb, hle⟩
  have hnoext : ¬ (ub = unbounded ∨ (!true) = true) := by simp [hbound]
  have hshort : ¬ (hasExt = true ∧ ub = unbounded) := fun h => hbound h.2
  have hno : ¬ (ub = unbounded ∨ (!decide (s.nofBits ≥ lb ∧ s.nofBits ≤ ub)) = true) := by
    rw [hwithin]
    exact hnoext
  rw [hoffset, PrefixFits, if_neg hbehind]
  by_cases heq : lb = ub
  · -- A length that is fixed is not written.
    have hpre : (packLengthPrefix s.nofBits lb ub hasExt aligned).Runs w () w₁ := by
      unfold packLengthPrefix
      rw [if_neg hshort]
      simp only [hwithin]
      refine hflag.bind ?_
      rw [if_pos ⟨heq, trivial⟩]
      exact runs_pure () w₁
    obtain ⟨w', w₃, hext₃, hext', -, -, hiff⟩ := @roundTrips_iff_length s lb ub hasExt
      aligned w w₁ hpos (by omega) hpre (hroom.of_extends hext₁ (by omega))
    rw [hiff, if_pos heq]
    refine iff_of_true ⟨w'.readFrom w₁, ?_, rfl, by rw [readFrom_distance]⟩ trivial
    unfold unpackLengthPrefix
    rw [runs_bind_iff (hread₁ w' (hext₃.trans hext')), if_neg hnoext, if_pos heq]
    obtain rfl : s.nofBits = lb := by omega
    exact runs_pure _ _
  have hlt : lb < ub := by omega
  obtain ⟨w₂, hwrite, hext₂, hdist₂, hfield, hzero⟩ :=
    @runs_packBounded w₁ s.nofBits lb ub aligned hroom₁ hub hlt
  have hbits : Nat.clog 2 (ub - lb) ≤ 16 := clog_le (by unfold asn64K at hub; omega)
  have hstep : w₂.distance ≤ w₁.distance + 23 := by
    rw [hdist₂]
    unfold alignUp
    split <;> omega
  have hpre : (packLengthPrefix s.nofBits lb ub hasExt aligned).Runs w () w₂ := by
    unfold packLengthPrefix
    rw [if_neg hshort]
    simp only [hwithin]
    refine hflag.bind ?_
    rw [if_neg (fun h => heq h.1), if_neg hnoext]
    exact hwrite
  obtain ⟨w', w₃, hext₃, hext', -, -, hiff⟩ := @roundTrips_iff_length s lb ub hasExt
    aligned w w₂ hpos (by omega) hpre (hroom.of_extends (hext₁.trans hext₂) (by omega))
  have hext := hext₃.trans hext'
  have hsame : ∀ r₂, (unpackLengthPrefix lb ub hasExt aligned).Runs (w'.readFrom w) s.nofBits r₂ ↔
      (unpackLengthBounded .uint32 lb ub aligned).Runs (w'.readFrom w₁) s.nofBits r₂ := by
    intro r₂
    unfold unpackLengthPrefix
    rw [runs_bind_iff (hread₁ w' (hext₂.trans hext)), if_neg hnoext, if_neg heq]
    constructor
    · intro h
      obtain ⟨n, r, hrun, hlast⟩ := h.of_bind
      obtain ⟨hn, rfl⟩ := (runs_pure _ _).unique hlast
      have hnonneg := length_nonneg hlb hle hub hlt hrun
      have hcast : n = (s.nofBits : Int) := by omega
      rw [← hcast]
      exact hrun
    · intro h
      refine h.bind ?_
      exact runs_pure _ _
  simp only [hiff, hsame, if_neg heq]
  cases aligned
  · simp only [Bool.false_eq_true, false_and, decide_false, fieldStart, if_false] at hdist₂ ⊢
    rw [if_pos trivial]
    exact unaligned_length_iff hlb hle hub hlt hroom₁ hext₂ hext hdist₂ hfield
  · have hstart : decide (True ∧ (lb ≠ ub ∨ ub > 16)) = true :=
      decide_eq_true ⟨trivial, Or.inl heq⟩
    simp only [hstart, fieldStart, if_true] at hdist₂ ⊢
    rw [if_neg Bool.noConfusion]
    have hw : PaddedLength w₁ w₂ w' s.nofBits lb ub := ⟨hext₂, hext, hdist₂, hfield, hzero⟩
    split
    · next hsmall =>
      exact small_length_iff hlb hle hub hlt hsmall hroom₁ hw
    · next hlarge =>
      exact octets_length_iff hlb hle hub hlt (by omega) hroom₁ hw

/-- Bit strings and numbers come back when the prefix is read as it was written, and when the number
is not shifted into the sign. -/
theorem bitstring_iff {s : Bitstring} {lb ub : Nat} {hasExt aligned : Bool} {w : BitRef}
    {number nbits : Nat} (hpos : 0 < s.nofBits) (hlen : s.nofBits ≤ 16383)
    (hbounds : (lb ≤ ub ∧ ub < 65536) ∨ (lb = 0 ∧ ub = unbounded ∧ hasExt = false))
    (hwithin : (lb ≤ s.nofBits ∧ s.nofBits ≤ ub) ∨ hasExt = true)
    (hroom : w.HasRoom (s.nofBits + 40)) (hmax : nbits ≤ 64) :
    (BitstringRoundTrips s lb ub hasExt aligned w ↔
      PrefixFits s.nofBits lb ub aligned ((w.offset + if hasExt then 1 else 0) % 8)) ∧
    (toNumber (fromNumber number nbits) nbits = some (number % 2 ^ nbits) ↔
      nbits ≤ 31 ∨ (nbits = 32 ∧ number % 2 ^ 32 < 2 ^ 31)) := by
  refine ⟨?_, toNumber_fromNumber_iff hmax⟩
  have hunbounded : unbounded = 2 ^ 32 - 1 := rfl
  by_cases hfree : ub = unbounded ∨ ¬ (lb ≤ s.nofBits ∧ s.nofBits ≤ ub)
  · have hno : ¬ (hasExt = true ∧ ub = unbounded) := by
      rintro ⟨rfl, h⟩
      rcases hbounds with h' | h'
      · omega
      · exact absurd h'.2.2 (by decide)
    rw [free_roundTrips_iff hpos (by unfold asn16K; omega) hfree hno hwithin hroom, PrefixFits,
      if_pos hfree]
  · have hin : ub ≠ unbounded ∧ lb ≤ s.nofBits ∧ s.nofBits ≤ ub := by
      by_contra h
      exact hfree (by omega)
    have hub : ub < asn64K := by
      unfold asn64K
      omega
    exact bounded_roundTrips_iff hpos hin.2.1 hin.2.2 hub hroom

/-- Five bits out of one to six in the aligned variant, and a number of 20 bits. -/
theorem bitstring_fiveBits :
    BitstringRoundTrips ⟨5, [0b10110], rfl⟩ 1 6 true true (start (List.replicate 10 0)) ∧
      toNumber (fromNumber 777777 20) 20 = some 777777 :=
  have h := @bitstring_iff ⟨5, [0b10110], rfl⟩ 1 6 true true (start (List.replicate 10 0)) 777777 20
    (by decide) (by decide) (Or.inl (by decide)) (Or.inl (by decide)) (by unfold HasRoom; decide)
    (by decide)
  ⟨h.1.mpr (by decide), h.2.mpr (by decide)⟩

/-- The length out of two that is written in no bits, and the 40th bit of a number. -/
theorem not_bitstring_twoLengths :
    ¬ BitstringRoundTrips ⟨2, [0b11], rfl⟩ 1 2 false false (start (List.replicate 10 0)) ∧
      toNumber (fromNumber (2 ^ 39) 40) 40 ≠ some (2 ^ 39) := by
  refine ⟨?_, by decide⟩
  rintro ⟨w', hwrite, hread⟩
  have hrun : (Bitstring.pack ⟨2, [0b11], rfl⟩ 1 2 false false).Runs
      (start (List.replicate 10 0)) () ⟨[0xc0, 0, 0, 0, 0, 0, 0, 0, 0, 0], 0, 2, by decide⟩ := rfl
  obtain ⟨-, rfl⟩ := hwrite.unique hrun
  obtain ⟨s', h, -⟩ := hread (Bitstring.resize 0)
  -- The reader takes the first bit of the string for the length.
  cases h

end Odss.Asn1
