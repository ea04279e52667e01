import Odss.Asn1.ExtGroups
import Odss.Proofs.BitString

/-!
# `Odss.Proofs.ExtGroups`: extension groups that are skipped

A decoder goes over the extension groups of a newer peer in step when its cursor is behind a group
after each of them. What it has not read of a group is taken in one call into 32 bits, which is an
error for more of them, and the groups that it does not know are not aligned.

* `raiseAll_eq` and `groupFlags_spec` are the flags.
* `runs_varlengthFieldPack` and `varlengthFieldUnpack_iff` are one group.
* `inStepFrom_iff` is the induction over the groups, and `extension_iff` the result.
-/

set_option linter.all false

namespace Odss.Asn1

open Odss.Lib BitRef Per
open Odss.Rlc (Bytes)

/-! ### The array of the flags -/

namespace ExtArray

/-- The capacity of an array that has grown by one element at a time. -/
def grown (n : Nat) : Nat := if n ≤ 16 then 16 else 22

theorem raise_end {elems : List Bool} (flag : Bool) (h : elems.length < 22) :
    raise ⟨elems, grown elems.length⟩ elems.length flag
      = some ⟨elems ++ [flag], grown (elems.length + 1)⟩ := by
  have hset : (elems ++ List.replicate (elems.length + 1 - elems.length) false).set elems.length
      ((elems ++ List.replicate (elems.length + 1 - elems.length) false).getD elems.length false
        || flag) = elems ++ [flag] := by
    rw [Nat.add_sub_cancel_left, List.replicate_one, List.set_append_right _ _ (le_refl _),
      Nat.sub_self, List.getD_append_right _ _ _ _ (le_refl _), Nat.sub_self]
    rfl
  have hresize : resize ⟨elems, grown elems.length⟩ (elems.length + 1)
      = some ⟨elems ++ List.replicate (elems.length + 1 - elems.length) false,
          grown (elems.length + 1)⟩ := by
    unfold resize
    dsimp only
    rcases Nat.lt_trichotomy elems.length 16 with hlt | heq | hgt
    · have hold : grown elems.length = 16 := if_pos (by omega)
      have hnew : grown (elems.length + 1) = 16 := if_pos (by omega)
      rw [hold, hnew, if_pos (by omega)]
    · rw [heq]
      rfl
    · have hold : grown elems.length = 22 := if_neg (by omega)
      have hnew : grown (elems.length + 1) = 22 := if_neg (by omega)
      rw [hold, hnew, if_pos (by omega)]
  unfold raise
  rw [if_pos (le_refl _), hresize]
  show some _ = _
  rw [hset]

/-- An array of 22 elements has grown once, and cannot grow again. -/
theorem raise_undefined {elems : List Bool} (flag : Bool) (h : elems.length = 22) :
    raise ⟨elems, grown elems.length⟩ elems.length flag = none := by
  unfold raise resize
  rw [if_pos (le_refl _), h]
  rfl

theorem raiseAll_eq {elems flags : List Bool} (h : elems.length ≤ 22) :
    raiseAll ⟨elems, grown elems.length⟩ elems.length flags =
      if (elems ++ flags).length ≤ 22 then some ⟨elems ++ flags, grown (elems ++ flags).length⟩
      else none := by
  induction flags generalizing elems with
  | nil =>
    rw [List.append_nil, if_pos h]
    rfl
  | cons flag flags ih =>
    unfold raiseAll
    rcases Nat.lt_or_ge elems.length 22 with hlt | hge
    · have hrest := @ih (elems ++ [flag]) (by rw [List.length_append]; exact hlt)
      rw [List.append_assoc, List.singleton_append, List.length_append, List.length_singleton]
        at hrest
      rw [raise_end flag hlt]
      exact hrest
    · rw [raise_undefined flag (by omega), if_neg (by
        rw [List.length_append, List.length_cons]; omega)]
      rfl

theorem raiseAll_empty (flags : List Bool) :
    empty.raiseAll 0 flags
      = if flags.length ≤ 22 then some ⟨flags, grown flags.length⟩ else none :=
  @raiseAll_eq [] flags (by decide)

end ExtArray

/-! ### The flags on the wire -/

theorem nofGroups_le (groups : List Bool) (i : Nat) : nofGroups groups i ≤ i := by
  induction i with
  | zero => exact le_refl 0
  | succ i ih =>
    unfold nofGroups
    split
    · exact le_refl _
    · omega

theorem nofGroups_behind {groups : List Bool} {i j : Nat} (hj : j < i)
    (hge : nofGroups groups i ≤ j) : groups.getD j false = false := by
  induction i with
  | zero => omega
  | succ i ih =>
    unfold nofGroups at hge
    split at hge
    · omega
    · next hflag =>
      by_cases heq : j = i
      · rw [heq]
        exact Bool.not_eq_true _ ▸ hflag
      · exact ih (by omega) hge

/-- The flags are those that are sent, and absent groups behind them. -/
theorem take_nofGroups (flags : List Bool) :
    flags = flags.take (nofGroups flags flags.length)
      ++ List.replicate (flags.length - nofGroups flags flags.length) false := by
  have hrest : flags.drop (nofGroups flags flags.length)
      = List.replicate (flags.length - nofGroups flags flags.length) false := by
    refine List.eq_replicate_iff.mpr ⟨List.length_drop, fun flag hmem => ?_⟩
    obtain ⟨j, hj, rfl⟩ := List.getElem_of_mem hmem
    rw [List.length_drop] at hj
    rw [List.getElem_drop]
    have hnone := @nofGroups_behind flags flags.length (nofGroups flags flags.length + j)
      (by omega) (Nat.le_add_right _ _)
    rw [List.getD_eq_getElem _ _ (by omega)] at hnone
    exact hnone
  rw [← hrest, List.take_append_drop]

theorem nofGroups_pos {flags : List Bool} (h : true ∈ flags) :
    0 < nofGroups flags flags.length := by
  by_contra hzero
  have hnone := take_nofGroups flags
  rw [show nofGroups flags flags.length = 0 by omega, List.take_zero, List.nil_append] at hnone
  rw [hnone] at h
  exact absurd (List.eq_of_mem_replicate h) (by decide)

theorem mem_of_nofGroups_pos {flags : List Bool} {i : Nat} (h : 0 < nofGroups flags i) :
    true ∈ flags := by
  induction i with
  | zero => exact absurd h (Nat.lt_irrefl 0)
  | succ i ih =>
    unfold nofGroups at h
    split at h
    · next hflag =>
      rw [List.getD_eq_getElem?_getD] at hflag
      cases hget : flags[i]? with
      | none => rw [hget] at hflag; exact absurd hflag (by decide)
      | some flag =>
        rw [hget] at hflag
        exact hflag ▸ List.mem_of_getElem? hget
    · exact ih h

theorem packFlags_spec (flags : List Bool) {w : BitRef} (hroom : w.HasRoom flags.length) :
    ∃ w', (packFlags flags).Runs w () w' ∧ w.Extends w' ∧
      w'.distance = w.distance + flags.length ∧
      (flags ≠ [] → ∀ i, w'.distance ≤ i → i < alignUp w'.distance → w'.bits i = false) ∧
      ∀ w'', w'.Extends w'' →
        (unpackFlags flags.length).Runs (w''.readFrom w) flags (w''.readFrom w') := by
  induction flags generalizing w with
  | nil => exact ⟨w, runs_pure () w, Extends.refl w, rfl, absurd rfl, fun w'' _ => runs_pure [] _⟩
  | cons flag flags ih =>
    rw [List.length_cons] at hroom ⊢
    obtain ⟨w₁, hpack, hwritten⟩ :=
      runs_pack (if flag then 1 else 0) (show 1 < 64 by decide) (hroom.mono (by omega))
    have hdist := hwritten.distance_eq
    obtain ⟨w', hrest, hext, hdist', hpadding, hread⟩ :=
      ih (hroom.of_extends hwritten.toExtends (show w₁.distance + flags.length ≤ _ by omega))
    refine ⟨w', hpack.bind hrest, hwritten.toExtends.trans hext, by omega, ?_, fun w'' hext'' => ?_⟩
    · intro _
      by_cases hlast : flags = []
      · subst hlast
        obtain ⟨-, rfl⟩ := (runs_pure () w₁).unique hrest
        exact hwritten.padding (by decide)
      · exact hpadding hlast
    · have hfirst := hwritten.runs_unpackFlag (hext.trans hext'') (hroom.mono (by omega))
      exact hfirst.bind ((hread w'' hext'').bind (runs_pure _ _))

theorem packNumber_spec {n : Nat} (hn : n ≤ 63) {w : BitRef} (hroom : w.HasRoom 7) :
    ∃ w', (packNormSmallNonNegWholeNumber n).Runs w () w' ∧ w.Extends w' ∧
      w'.distance = w.distance + 7 ∧ ∀ w'', w'.Extends w'' →
        unpackNormSmallNonNegWholeNumber.Runs (w''.readFrom w) n (w''.readFrom w') := by
  obtain ⟨w', hpack, hwritten⟩ := runs_pack n (show 7 < 64 by decide) hroom
  have hdist := hwritten.distance_eq
  have hoffset := w.offset_lt
  refine ⟨w', ?_, hwritten.toExtends, hdist, fun w'' hext => ?_⟩
  · unfold packNormSmallNonNegWholeNumber
    rw [if_pos hn]
    exact hpack
  · have hroom' := hroom.readFrom (hwritten.toExtends.trans hext)
    have hvalue := (hext.field_eq (Nat.le_of_eq hdist.symm)).trans hwritten.value
    have hsplit : field w''.bits w.distance 7 = _ := field_add w''.bits w.distance 1 6
    have hlt := field_lt w''.bits (w.distance + 1) 6
    rw [hvalue, Nat.mod_eq_of_lt (by omega), field_one] at hsplit
    have hfalse : w''.bits w.distance = false := by
      cases hbit : w''.bits w.distance
      · rfl
      · rw [hbit, Bool.toNat_true] at hsplit
        omega
    have hflag := @BitRef.runs_unpackFlag (w''.readFrom w) (hroom'.mono (by decide))
    rw [readFrom_bits, readFrom_distance, hfalse] at hflag
    have hroom₁ : ((w''.readFrom w).advance 1).HasRoom 6 := by
      unfold HasRoom at *
      rw [advance_distance, advance_buf]
      omega
    have hnumber := @BitRef.runs_unpack 32 6 ((w''.readFrom w).advance 1) (by decide) hroom₁
      (by have := ((w''.readFrom w).advance 1).offset_lt; omega)
    rw [advance_advance, readFrom_advance hdist, advance_distance, readFrom_distance,
      show ((w''.readFrom w).advance 1).bits = w''.bits from rfl,
      show field w''.bits (w.distance + 1) 6 = n by
        rw [hsplit, hfalse, Bool.toNat_false, Nat.zero_mul, Nat.zero_add],
      Nat.mod_eq_of_lt (by omega)] at hnumber
    unfold unpackNormSmallNonNegWholeNumber
    refine hflag.bind ?_
    exact hnumber

/-- A decoder has room for the flags of up to 22 groups, however many it supports. -/
theorem resize_supported {n : Nat} (supported : Nat) (hn : n ≤ 22) :
    ∃ a b, ExtArray.empty.resize supported = some a ∧ a.resize (max n supported) = some b ∧
      b.elems = List.replicate (max n supported) false := by
  have hfirst : ∃ cap, ExtArray.empty.resize supported
      = some ⟨List.replicate supported false, cap⟩ ∧
        (cap = ExtArray.smallBufferSize ∨ max n supported ≤ cap) := by
    unfold ExtArray.resize
    rw [show ExtArray.empty.elems = [] from rfl, List.length_nil, Nat.sub_zero, List.nil_append]
    rcases Nat.lt_or_ge ExtArray.empty.capacity supported with hlarge | hsmall
    · have hsize : 16 < supported := hlarge
      exact ⟨supported + 5, by rw [if_neg (by omega)]; rfl, Or.inr (by omega)⟩
    · exact ⟨_, if_pos hsmall, Or.inl rfl⟩
  obtain ⟨cap, ha, hcap⟩ := hfirst
  have helems : List.replicate supported false
      ++ List.replicate (max n supported - supported) false
        = List.replicate (max n supported) false := by
    rw [List.replicate_append_replicate]
    congr 1
    omega
  have hsecond : ∃ cap', ExtArray.resize ⟨List.replicate supported false, cap⟩ (max n supported)
      = some ⟨List.replicate (max n supported) false, cap'⟩ := by
    unfold ExtArray.resize
    dsimp only
    rw [List.length_replicate, helems]
    split
    · exact ⟨_, rfl⟩
    · next hfull =>
      rw [if_pos (hcap.resolve_right hfull)]
      exact ⟨_, rfl⟩
  obtain ⟨cap', hb⟩ := hsecond
  exact ⟨_, _, ha, hb, rfl⟩

/-- The flags up to the last group come back, with absent groups behind them. -/
theorem groupFlags_spec {flags : List Bool} (hmem : true ∈ flags) (hlen : flags.length ≤ 22)
    (supported : Nat) {w : BitRef} (hroom : w.HasRoom (7 + flags.length)) :
    ∃ w', (packGroupFlags flags).Runs w () w' ∧ w.Extends w' ∧
      w'.distance = w.distance + 7 + nofGroups flags flags.length ∧
      (∀ i, w'.distance ≤ i → i < alignUp w'.distance → w'.bits i = false) ∧
      ∀ w'', w'.Extends w'' → ∃ k, (unpackGroupFlags supported).Runs (w''.readFrom w)
        (flags.take (nofGroups flags flags.length) ++ List.replicate k false)
        (w''.readFrom w') := by
  have hpos := nofGroups_pos hmem
  have hle := nofGroups_le flags flags.length
  generalize hn : nofGroups flags flags.length = n at *
  have htake : (flags.take n).length = n := by rw [List.length_take]; omega
  obtain ⟨w₁, hnumber, hext₁, hdist₁, hread₁⟩ :=
    @packNumber_spec (n - 1) (by omega) w (hroom.mono (by omega))
  obtain ⟨w', hflags, hext, hdist, hpadding, hread⟩ :=
    @packFlags_spec (flags.take n) w₁ (hroom.of_extends hext₁ (by omega))
  refine ⟨w', ?_, hext₁.trans hext, by omega, hpadding ?_, fun w'' hext'' => ?_⟩
  · unfold packGroupFlags
    dsimp only
    rw [hn, show (n + 2 ^ 32 - 1) % 2 ^ 32 = n - 1 by omega]
    exact hnumber.bind hflags
  · intro hnil
    rw [hnil, List.length_nil] at htake
    omega
  · obtain ⟨a, b, ha, hb, helems⟩ := resize_supported supported (show n ≤ 22 by omega)
    refine ⟨max n supported - n, ?_⟩
    have hlist := hread w'' hext''
    rw [htake] at hlist
    unfold unpackGroupFlags
    rw [ofOption_bind ha]
    refine (hread₁ w'' (hext.trans hext'')).bind ?_
    dsimp only
    rw [show n - 1 + 1 = n by omega, ofOption_bind hb]
    refine hlist.bind ?_
    rw [helems, List.drop_replicate]
    exact runs_pure _ _

/-! ### One group -/

/-- The octets that a field of variable length has, filled up to a byte. -/
def Fills (content : Per Unit) (octets : Bytes) : Prop :=
  ∃ b b', content.Runs fieldBuffer () b ∧ (pack 0 (spareBits b.distance)).Runs b () b' ∧
    octets = b'.buf.take (b'.distance / 8) ∧ octets.length = b'.distance / 8

theorem fills_packBytes {octets : Bytes} (hlen : octets.length ≤ fieldBufferSize) :
    Fills (packBytes octets) octets := by
  have hsize : fieldBuffer.buf.length = fieldBufferSize := List.length_replicate
  have hroom : fieldBuffer.HasRoom (8 * octets.length) := by
    unfold HasRoom
    rw [hsize]
    show 0 + 8 * octets.length ≤ _
    omega
  obtain ⟨b, hrun, hext, hdist, hbits⟩ := packBytes_spec octets hroom
  have hstart : fieldBuffer.distance = 0 := rfl
  rw [hstart, Nat.zero_add] at hdist
  have hcount : octets.length = b.distance / 8 := by omega
  have hspare : spareBits b.distance = 0 := by
    unfold fieldBufferSize at hlen
    unfold spareBits
    omega
  have hlength : octets.length = (b.buf.take (b.distance / 8)).length := by
    have hbuf := hext.length_eq
    rw [List.length_take]
    omega
  refine ⟨b, b, hrun, by rw [hspare]; rfl, eq_of_bitAt hlength fun i hi => ?_, hcount⟩
  have hbit := hbits i hi
  rw [hstart, Nat.zero_add] at hbit
  rw [← hbit]
  unfold bits bitAt
  rw [List.getD_eq_getElem?_getD, List.getD_eq_getElem?_getD,
    List.getElem?_take_of_lt (by omega)]

/-- A field of variable length on the wire: aligned, its length, and its octets. -/
structure FieldWritten (align : Bool) (octets : Bytes) (w w₀ w₁ w' : BitRef) : Prop where
  aligned : w.Extends w₀
  aligned_distance : w₀.distance = fieldStart align w.distance
  aligned_bits : w₀.bits = w.bits
  header : (octets.length < 128 ∧ w₀.Written w₁ octets.length 8) ∨
    (128 ≤ octets.length ∧ w₀.Written w₁ (2 ^ 15 + octets.length) 16)
  content : w₁.Extends w'
  content_distance : w'.distance = w₁.distance + 8 * octets.length
  content_bits : ∀ i < 8 * octets.length, w'.bits (w₁.distance + i) = bitAt octets i

/-- The bits that a field takes at most, and a byte. -/
def fieldRoom (octets : Bytes) : Nat := 32 + 8 * octets.length

theorem runs_varlengthFieldPack {align : Bool} {content : Per Unit} {octets : Bytes}
    (hfills : Fills content octets) (hlen : octets.length ≤ 4095) {w : BitRef}
    (hroom : w.HasRoom (fieldRoom octets)) :
    ∃ w₀ w₁ w', (varlengthFieldPack align content).Runs w () w' ∧
      FieldWritten align octets w w₀ w₁ w' := by
  unfold fieldRoom at hroom
  have hstart := le_fieldStart align w.distance
  obtain ⟨w₀, hw₀⟩ : ∃ w₀, w₀ = w.advance (fieldStart align w.distance - w.distance) := ⟨_, rfl⟩
  have hdist₀ : w₀.distance = fieldStart align w.distance := by
    rw [hw₀, advance_distance]
    omega
  have hbuf₀ : w₀.buf = w.buf := by rw [hw₀, advance_buf]
  have hext₀ : w.Extends w₀ := ⟨by rw [hbuf₀], by omega, fun i _ => by unfold bits; rw [hbuf₀]⟩
  obtain ⟨w₁, hlength, hheader⟩ := @runs_packLength w₀ octets.length (by unfold asn16K; omega)
    (hroom.of_extends hext₀ (by omega))
  have hpack : (packLength octets.length align).Runs w () w₁ := by
    cases align
    · have hsame : w₀ = w := distance_ext hbuf₀ hdist₀
      rw [← hsame]
      exact hlength
    · have halign := @runs_alignBytes w (Or.inl (hroom.mono (by omega)))
      rw [show alignUp w.distance = fieldStart true w.distance from rfl, ← hw₀] at halign
      unfold packLength at hlength ⊢
      have hsmall : octets.length < asn16K := by unfold asn16K; omega
      simp only [Bool.not_true, Bool.not_false, Bool.false_eq_true, if_false, if_true,
        if_pos hsmall] at hlength ⊢
      rw [if_neg (by unfold asn64K; omega)]
      exact halign.bind hlength
  have hext₁ : w₀.Extends w₁ ∧ w₁.distance ≤ w₀.distance + 16 := by
    rcases hheader with ⟨-, h⟩ | ⟨-, h⟩
    · exact ⟨h.toExtends, by rw [h.distance_eq]; omega⟩
    · exact ⟨h.toExtends, by rw [h.distance_eq]⟩
  obtain ⟨w', hbytes, hext', hdist', hbits⟩ := @packBytes_spec octets w₁
    (hroom.of_extends (hext₀.trans hext₁.1) (by omega))
  refine ⟨w₀, w₁, w', ?_, hext₀, hdist₀, by unfold bits; rw [hbuf₀], hheader, hext', hdist', hbits⟩
  obtain ⟨b, b', hcontent, hspare, heq, hcount⟩ := hfills
  have hfirst : content fieldBuffer = some (.ok (), b) := hcontent
  have hlast : (ignore (pack 0 (spareBits b.distance)) b).map Prod.snd = some b' :=
    congrArg (Option.map Prod.snd) hspare.ignore
  have hclose : (closeField align b).Runs w () w' := by
    unfold closeField
    rw [ofOption_bind hlast]
    dsimp only
    rw [← heq, ← hcount]
    exact hpack.ignore.bind hbytes
  unfold Runs varlengthFieldPack
  rw [hfirst]
  exact hclose

theorem runs_skipBits {r : BitRef} {n : Nat} (hroom : n ≤ 32 → r.HasRoom n) :
    (skipBits n).Runs r () (if n ≤ 32 then r.advance n else r) := by
  have hoffset := r.offset_lt
  unfold skipBits
  split
  · next hle =>
    have hread := @BitRef.runs_unpack 32 n r hle (hroom hle) (by omega)
    exact (hread.bind (runs_pure () _)).ignore
  · next hgt =>
    have herror : unpack 32 n r = some (.error .decodeFail, r) := if_pos (by omega)
    have hbind : (do
        let _ ← unpack 32 n
        pure ()) r = some (.error .decodeFail, r) := by
      show Per.bind (unpack 32 n) _ r = _
      rw [Per.bind, herror]
    unfold Runs Per.ignore
    rw [hbind]

section Reading

variable {align : Bool} {octets : Bytes} {w w₀ w₁ w' w'' : BitRef}

theorem FieldWritten.extends (h : FieldWritten align octets w w₀ w₁ w') :
    w₀.Extends w₁ ∧ w₁.distance ≤ w₀.distance + 16 ∧ w₀.distance + 8 ≤ w₁.distance := by
  rcases h.header with ⟨-, hw⟩ | ⟨-, hw⟩
  · exact ⟨hw.toExtends, by rw [hw.distance_eq]; omega, by rw [hw.distance_eq]⟩
  · exact ⟨hw.toExtends, by rw [hw.distance_eq], by rw [hw.distance_eq]; omega⟩

theorem FieldWritten.whole (h : FieldWritten align octets w w₀ w₁ w') :
    w.Extends w' ∧ w'.distance ≤ w.distance + fieldRoom octets ∧ w.distance + 8 ≤ w'.distance := by
  obtain ⟨hext, hle, hge⟩ := h.extends
  have hstart := le_fieldStart align w.distance
  rw [← h.aligned_distance] at hstart
  have hcontent := h.content_distance
  unfold fieldRoom
  exact ⟨h.aligned.trans (hext.trans h.content), by omega, by omega⟩

theorem FieldWritten.aligned_end (h : FieldWritten true octets w w₀ w₁ w') : w'.offset = 0 := by
  have hstart := h.aligned_distance
  have hcontent := h.content_distance
  have hheader : w₁.distance = w₀.distance + 8 ∨ w₁.distance = w₀.distance + 16 := by
    rcases h.header with ⟨-, hw⟩ | ⟨-, hw⟩
    · exact Or.inl hw.distance_eq
    · exact Or.inr hw.distance_eq
  have hoffset := w'.offset_lt
  unfold fieldStart alignUp at hstart
  simp only [if_true] at hstart
  unfold distance at *
  omega

/-- The guard finds the length when it looks for it at the place where it is. -/
theorem runs_unpackGuardLength {align' : Bool} (h : FieldWritten align octets w w₀ w₁ w')
    (hext : w'.Extends w'') (hpos : 0 < octets.length) (hlen : octets.length ≤ 4095)
    (hroom : w.HasRoom (fieldRoom octets)) (hplace : align' = align ∨ w.offset = 0) :
    (unpackGuardLength align').Runs (w''.readFrom w) octets.length (w''.readFrom w₁) := by
  obtain ⟨hext₁, hle, hge⟩ := h.extends
  have hstart := le_fieldStart align w.distance
  have hdist := h.aligned_distance
  have hext' := h.content.trans hext
  have hroom₀ : w₀.HasRoom 16 := by
    unfold fieldRoom at hroom
    exact hroom.of_extends h.aligned (by omega)
  have hsame : fieldStart align' w.distance = w₀.distance := by
    rcases hplace with rfl | hzero
    · exact hdist.symm
    · have hnone : alignUp w.distance = w.distance := by unfold alignUp distance; omega
      rw [hdist]
      unfold fieldStart
      rw [hnone, ite_self, ite_self]
  have hoffset₀ : align' = true → w₀.offset = 0 := by
    rintro rfl
    have hlt := w₀.offset_lt
    unfold fieldStart alignUp at hsame
    simp only [if_true] at hsame
    unfold distance at *
    omega
  have hsmall : octets.length < asn16K := by unfold asn16K; omega
  have hread := (@free_iff w₀ w₁ w₁ w'' false align' _ hpos hsmall h.header hroom₀
    (Extends.refl w₁) hext' rfl rfl).mpr hoffset₀
  obtain ⟨r₂, hlength, hbuf, hstop⟩ := hread
  obtain rfl : r₂ = w''.readFrom w₁ := distance_ext hbuf hstop
  have hrun : (unpackLength align').Runs (w''.readFrom w) octets.length (w''.readFrom w₁) := by
    cases align'
    · have hat : w''.readFrom w = w''.readFrom w₀ := distance_ext rfl hsame
      rw [hat]
      exact hlength
    · have hone : w.HasRoom 1 := hroom.mono (by unfold fieldRoom; omega)
      have halign := @readFrom_runs_alignBytes w w₀ w'' hsame.symm
        (h.aligned.trans (hext₁.trans hext')) (Or.inl hone)
      have hat := @runs_alignBytes_of_aligned (w''.readFrom w₀) (hoffset₀ rfl)
      unfold unpackLength at hlength ⊢
      simp only [Bool.not_true, Bool.false_eq_true, if_false] at hlength ⊢
      rw [runs_bind_iff hat] at hlength
      exact halign.bind hlength
  unfold Runs unpackGuardLength
  rw [show unpackLength align' (w''.readFrom w) = _ from hrun]

/-- A field that is found is left behind when, and only when, the rest of it is up to 32 bits. -/
theorem varlengthFieldUnpack_iff {align' : Bool} {read : Per Unit} {used : Nat}
    (h : FieldWritten align octets w w₀ w₁ w') (hext : w'.Extends w'') (hpos : 0 < octets.length)
    (hlen : octets.length ≤ 4095) (hroom : w.HasRoom (fieldRoom octets))
    (hplace : align' = align ∨ w.offset = 0) (hused : used ≤ 8 * octets.length)
    (hread : read.Runs (w''.readFrom w₁) () ((w''.readFrom w₁).advance used)) :
    (varlengthFieldUnpack align' read).Runs (w''.readFrom w) () (w''.readFrom w') ↔
      8 * octets.length - used ≤ 32 := by
  have hlength := runs_unpackGuardLength h hext hpos hlen hroom hplace
  have hposition : ∀ r : BitRef, position.Runs r r.distance r := fun _ => rfl
  have hcontent := h.content_distance
  have hrest : (((octets.length * 8 : Int)
      - ((((w''.readFrom w₁).advance used).distance : Int) - ((w''.readFrom w₁).distance : Int)))
        % 2 ^ 32).toNat = 8 * octets.length - used := by
    rw [advance_distance]
    omega
  have hroom' : ((w''.readFrom w₁).advance used).HasRoom (8 * octets.length - used) := by
    obtain ⟨hwhole, hle, -⟩ := h.whole
    have hsize := (hwhole.trans hext).length_eq
    unfold HasRoom at *
    rw [advance_distance, advance_buf, readFrom_distance]
    show _ ≤ 8 * w''.buf.length
    omega
  have hskip := runs_skipBits fun _ => hroom'
  unfold varlengthFieldUnpack
  rw [runs_bind_iff hlength, runs_bind_iff (hposition _), runs_bind_iff hread,
    runs_bind_iff (hposition _), hrest]
  constructor
  · intro hrun
    obtain ⟨-, hstop⟩ := hskip.unique hrun
    by_contra hmore
    rw [if_neg hmore] at hstop
    have hdist := congrArg distance hstop
    rw [advance_distance, readFrom_distance, readFrom_distance] at hdist
    omega
  · intro hle
    have hstop : ((w''.readFrom w₁).advance used).advance (8 * octets.length - used)
        = w''.readFrom w' := by
      rw [advance_advance, show used + (8 * octets.length - used) = 8 * octets.length by omega]
      exact readFrom_advance hcontent
    rw [if_pos hle, hstop] at hskip
    exact hskip

/-- A guard that does not align stays off the bytes of a field that is aligned. -/
theorem not_runs_unaligned (h : FieldWritten true octets w w₀ w₁ w') (hext : w'.Extends w'')
    (hpos : 0 < octets.length) (hroom : w.HasRoom (fieldRoom octets)) (hoffset : w.offset ≠ 0)
    (hpadding : ∀ i, w.distance ≤ i → i < alignUp w.distance → w.bits i = false) :
    ¬ (varlengthFieldUnpack false (pure ())).Runs (w''.readFrom w) () (w''.readFrom w') := by
  intro hrun
  obtain ⟨hwhole, hle, hge⟩ := h.whole
  have hend := h.aligned_end
  have hlt := w.offset_lt
  have hmod : w.distance % 8 = w.offset ∧ w'.distance % 8 = 0 := by
    unfold distance
    omega
  have hup : w.distance < alignUp w.distance := by unfold alignUp; omega
  -- The first bit of the padding is taken for that of a length of seven bits.
  have hzero : w''.bits w.distance = false := by
    have hat := h.aligned_distance
    unfold fieldStart at hat
    simp only [if_true] at hat
    rw [(h.extends.1.trans (h.content.trans hext)).before _ (by omega), h.aligned_bits]
    exact hpadding _ (le_refl _) hup
  have hroom₀ : (w''.readFrom w).HasRoom 8 :=
    (hroom.mono (by unfold fieldRoom; omega)).readFrom (hwhole.trans hext)
  have hflag := @BitRef.runs_unpackFlag (w''.readFrom w) (hroom₀.mono (by decide))
  rw [readFrom_bits, readFrom_distance, hzero] at hflag
  have hroom₁ : ((w''.readFrom w).advance 1).HasRoom 7 := by
    unfold HasRoom at *
    rw [advance_distance, advance_buf]
    omega
  have hseven := @BitRef.runs_unpack 32 7 ((w''.readFrom w).advance 1) (by decide) hroom₁
    (by have := ((w''.readFrom w).advance 1).offset_lt; omega)
  rw [advance_advance] at hseven
  generalize field ((w''.readFrom w).advance 1).bits ((w''.readFrom w).advance 1).distance 7 % 2 ^ 32
    = len at hseven
  have hlength : (unpackLength false).Runs (w''.readFrom w) len ((w''.readFrom w).advance 8) :=
    hflag.bind hseven
  have hguard : (unpackGuardLength false).Runs (w''.readFrom w) len
      ((w''.readFrom w).advance 8) := by
    unfold Runs unpackGuardLength
    rw [show unpackLength false (w''.readFrom w) = _ from hlength]
  have hposition : ∀ r : BitRef, position.Runs r r.distance r := fun _ => rfl
  unfold varlengthFieldUnpack at hrun
  rw [runs_bind_iff hguard, runs_bind_iff (hposition _), runs_bind_iff (runs_pure _ _),
    runs_bind_iff (hposition _), Int.sub_self, Int.sub_zero] at hrun
  generalize hn : ((len * 8 : Int) % 2 ^ 32).toNat = n at hrun
  have hwhole8 : n % 8 = 0 := by omega
  have hdist : w'.distance = w.distance + 8 ∨ w'.distance = w.distance + 8 + n := by
    have hroom₈ : n ≤ 32 → ((w''.readFrom w).advance 8).HasRoom n := by
      intro hle
      have hsize := (hwhole.trans hext).length_eq
      unfold fieldRoom at hroom
      unfold HasRoom at *
      rw [advance_distance, advance_buf, readFrom_distance]
      show _ ≤ 8 * w''.buf.length
      omega
    obtain ⟨-, hstop⟩ := (runs_skipBits hroom₈).unique hrun
    have hdist := congrArg distance hstop
    split at hdist
    · rw [advance_distance, advance_distance, readFrom_distance, readFrom_distance] at hdist
      exact Or.inr hdist.symm
    · rw [advance_distance, readFrom_distance, readFrom_distance] at hdist
      exact Or.inl hdist.symm
  omega

end Reading

/-! ### The groups -/

/-- A group of a peer, with a content of 1 to 4095 octets when it is present. -/
structure ExtGroup where
  present : Bool
  content : Per Unit
  octets : Bytes
  fills : present → Fills content octets
  size : present → 0 < octets.length ∧ octets.length ≤ 4095

/-- The decoder of a group that is supported, and the bits that it reads. -/
structure GroupDecoder where
  read : Per Unit
  used : Nat

/-- The decoder reads a part of the content, wherever it stands. -/
def Decodes (g : ExtGroup) (d : GroupDecoder) : Prop :=
  d.used ≤ 8 * g.octets.length ∧ ∀ r : BitRef, r.HasRoom (8 * g.octets.length) →
    (∀ i < 8 * g.octets.length, r.bits (r.distance + i) = bitAt g.octets i) →
    d.read.Runs r () (r.advance d.used)

/-- The bits of each group that is present which its decoder, if there is one, does not read. -/
def leftovers : List ExtGroup → List GroupDecoder → List Nat
  | g :: gs, d :: ds =>
    if g.present then (8 * g.octets.length - d.used) :: leftovers gs ds else leftovers gs ds
  | g :: gs, [] =>
    if g.present then (8 * g.octets.length) :: leftovers gs [] else leftovers gs []
  | [], _ => []

/-- The bits that the groups take at most. -/
def groupsRoom : List ExtGroup → Nat
  | [] => 0
  | g :: gs => fieldRoom g.octets + groupsRoom gs

/-- The decoder is behind each group when the encoder was. -/
def InStepFrom (align : Bool) (gs : List ExtGroup) (ds : List GroupDecoder) (w w'' : BitRef) :
    Prop :=
  ∀ m wm, (packGroups align ((gs.map (·.present)).take m) (gs.map (·.content))).Runs w () wm →
    (unpackGroups align ((gs.map (·.present)).take m) (ds.map (·.read))).Runs (w''.readFrom w) ()
      (w''.readFrom wm)

section Groups

variable {align : Bool} {g : ExtGroup} {gs : List ExtGroup} {ds : List GroupDecoder}
  {w wg w'' : BitRef}

/-- The call of a decoder for the next group, when it is present. -/
def nextGuard (align : Bool) : List GroupDecoder → Per Unit
  | d :: _ => varlengthFieldUnpack align d.read
  | [] => varlengthFieldUnpack false (pure ())

theorem unpackGroups_cons (flag : Bool) (flags : List Bool) :
    unpackGroups align (flag :: flags) (ds.map (·.read)) = (do
      if flag then nextGuard align ds else pure ()
      unpackGroups align flags (ds.tail.map (·.read))) := by
  cases ds <;> rfl

theorem inStepFrom_absent (h : g.present = false) :
    InStepFrom align (g :: gs) ds w w'' ↔ InStepFrom align gs ds.tail w w'' := by
  have hpack : ∀ m wm, (packGroups align (((g :: gs).map (·.present)).take (m + 1))
      ((g :: gs).map (·.content))).Runs w () wm ↔
        (packGroups align ((gs.map (·.present)).take m) (gs.map (·.content))).Runs w () wm := by
    intro m wm
    rw [List.map_cons, List.map_cons, List.take_succ_cons, h]
    exact Iff.rfl
  have hunpack : ∀ m r r', (unpackGroups align (((g :: gs).map (·.present)).take (m + 1))
      (ds.map (·.read))).Runs r () r' ↔
        (unpackGroups align ((gs.map (·.present)).take m) (ds.tail.map (·.read))).Runs r () r' := by
    intro m r r'
    rw [List.map_cons, List.take_succ_cons, h, unpackGroups_cons]
    exact Iff.rfl
  constructor
  · intro hstep m wm hrun
    exact (hunpack m _ _).mp (hstep (m + 1) wm ((hpack m wm).mpr hrun))
  · intro hstep m wm hrun
    cases m with
    | zero =>
      obtain ⟨-, rfl⟩ := (runs_pure () w).unique hrun
      exact runs_pure _ _
    | succ m => exact (hunpack m _ _).mpr (hstep m wm ((hpack m wm).mp hrun))

theorem inStepFrom_present (h : g.present = true)
    (hfield : (varlengthFieldPack align g.content).Runs w () wg) :
    InStepFrom align (g :: gs) ds w w'' ↔
      (nextGuard align ds).Runs (w''.readFrom w) () (w''.readFrom wg) ∧
        InStepFrom align gs ds.tail wg w'' := by
  have hpack : ∀ m wm, (packGroups align (((g :: gs).map (·.present)).take (m + 1))
      ((g :: gs).map (·.content))).Runs w () wm ↔
        (packGroups align ((gs.map (·.present)).take m) (gs.map (·.content))).Runs wg () wm := by
    intro m wm
    rw [List.map_cons, List.map_cons, List.take_succ_cons, h]
    exact runs_bind_iff hfield
  have hunpack : ∀ m, unpackGroups align (((g :: gs).map (·.present)).take (m + 1))
      (ds.map (·.read)) = (do
        nextGuard align ds
        unpackGroups align ((gs.map (·.present)).take m) (ds.tail.map (·.read))) := by
    intro m
    rw [List.map_cons, List.take_succ_cons, h, unpackGroups_cons]
    rfl
  constructor
  · intro hstep
    -- The first group alone, and then with the groups behind it.
    have hfirst : (nextGuard align ds).Runs (w''.readFrom w) () (w''.readFrom wg) := by
      have hone := hstep 1 wg ((hpack 0 wg).mpr (by
        rw [List.take_zero]
        exact runs_pure () wg))
      rw [hunpack 0] at hone
      obtain ⟨_, r, hrun, hnone⟩ := hone.of_bind
      rw [List.take_zero] at hnone
      obtain ⟨-, hr⟩ := hnone.unique (show (unpackGroups align [] _).Runs r () r from by
        unfold unpackGroups
        exact runs_pure () r)
      rw [hr]
      exact hrun
    refine ⟨hfirst, fun m wm hrun => ?_⟩
    have hmore := hstep (m + 1) wm ((hpack m wm).mpr hrun)
    rw [hunpack m, runs_bind_iff hfirst] at hmore
    exact hmore
  · rintro ⟨hfirst, hstep⟩ m wm hrun
    cases m with
    | zero =>
      obtain ⟨-, rfl⟩ := (runs_pure () w).unique hrun
      rw [List.take_zero]
      unfold unpackGroups
      exact runs_pure _ _
    | succ m =>
      rw [hunpack m]
      exact hfirst.bind (hstep m wm ((hpack m wm).mp hrun))

theorem runs_packGroups (hroom : w.HasRoom (groupsRoom gs)) :
    ∃ wn, (packGroups align (gs.map (·.present)) (gs.map (·.content))).Runs w () wn ∧
      w.Extends wn := by
  induction gs generalizing w with
  | nil => exact ⟨w, runs_pure () w, Extends.refl w⟩
  | cons g gs ih =>
    unfold groupsRoom at hroom
    rw [List.map_cons, List.map_cons]
    cases hpresent : g.present
    · exact ih (hroom.mono (Nat.le_add_left _ _))
    · obtain ⟨w₀, w₁, wg, hfield, hwritten⟩ := @runs_varlengthFieldPack align _ _
        (g.fills hpresent) (g.size hpresent).2 w (hroom.mono (Nat.le_add_right _ _))
      obtain ⟨hext, hle, -⟩ := hwritten.whole
      obtain ⟨wn, hrest, hext'⟩ := ih (hroom.of_extends hext (by omega))
      exact ⟨wn, hfield.bind hrest, hext.trans hext'⟩

theorem nextGuard_iff {w₀ w₁ : BitRef} (hpresent : g.present = true)
    (h : FieldWritten align g.octets w w₀ w₁ wg) (hext : wg.Extends w'')
    (hroom : w.HasRoom (fieldRoom g.octets))
    (hdecodes : ∀ d ∈ ds.head?, Decodes g d)
    (hpadding : align = true → ∀ i, w.distance ≤ i → i < alignUp w.distance → w.bits i = false) :
    (nextGuard align ds).Runs (w''.readFrom w) () (w''.readFrom wg) ↔
      (∀ n ∈ leftovers [g] ds, n ≤ 32) ∧ (align = true → w.offset = 0 ∨ ds ≠ []) := by
  obtain ⟨hpos, hlen⟩ := g.size hpresent
  cases ds with
  | nil =>
    unfold leftovers
    rw [if_pos hpresent]
    by_cases hplace : align = true → w.offset = 0
    · have hfound : false = align ∨ w.offset = 0 := by
        cases align
        · exact Or.inl rfl
        · exact Or.inr (hplace rfl)
      have hiff := @varlengthFieldUnpack_iff align _ _ _ _ _ _ false (pure ()) 0 h hext hpos hlen
        hroom hfound (Nat.zero_le _) (by rw [advance_zero]; exact runs_pure () _)
      rw [Nat.sub_zero] at hiff
      show (varlengthFieldUnpack false (pure ())).Runs _ () _ ↔ _
      rw [hiff]
      simpa [leftovers] using fun _ => hplace
    · obtain ⟨halign, hoffset⟩ := Classical.not_imp.mp hplace
      subst halign
      refine iff_of_false (not_runs_unaligned h hext hpos hroom hoffset (hpadding rfl)) ?_
      rintro ⟨-, hor⟩
      exact (hor rfl).elim hoffset fun hne => hne rfl
  | cons d ds =>
    obtain ⟨hused, hread⟩ := hdecodes d rfl
    have hroom₁ : (w''.readFrom w₁).HasRoom (8 * g.octets.length) := by
      obtain ⟨hwhole, hle, -⟩ := h.whole
      have hsize := (hwhole.trans hext).length_eq
      have hcontent := h.content_distance
      unfold HasRoom at *
      rw [readFrom_distance]
      show _ ≤ 8 * w''.buf.length
      omega
    have hbits : ∀ i < 8 * g.octets.length,
        (w''.readFrom w₁).bits ((w''.readFrom w₁).distance + i) = bitAt g.octets i := by
      intro i hi
      have hcontent := h.content_distance
      rw [readFrom_bits, readFrom_distance, hext.before _ (by omega)]
      exact h.content_bits i hi
    have hiff := @varlengthFieldUnpack_iff align _ _ _ _ _ _ align d.read d.used h hext hpos hlen
      hroom (Or.inl rfl) hused (hread _ hroom₁ hbits)
    show (varlengthFieldUnpack align d.read).Runs _ () _ ↔ _
    rw [hiff]
    simp [leftovers, hpresent]

theorem leftovers_cons :
    (∀ n ∈ leftovers (g :: gs) ds, n ≤ 32) ↔
      (∀ n ∈ leftovers [g] ds, n ≤ 32) ∧ ∀ n ∈ leftovers gs ds.tail, n ≤ 32 := by
  cases ds <;> cases hpresent : g.present <;> simp [leftovers, hpresent]

/-- The decoder goes over the groups in step when, and only when, the rests are small and the first
group is aligned, in the aligned variant, by a decoder that aligns. -/
theorem inStepFrom_iff {wn : BitRef}
    (hdecodes : ∀ p ∈ gs.zip ds, p.1.present = true → Decodes p.1 p.2)
    (hrun : (packGroups align (gs.map (·.present)) (gs.map (·.content))).Runs w () wn)
    (hext : wn.Extends w'') (hroom : w.HasRoom (groupsRoom gs))
    (hpadding : align = true → ∀ i, w.distance ≤ i → i < alignUp w.distance → w.bits i = false) :
    InStepFrom align gs ds w w'' ↔
      (∀ n ∈ leftovers gs ds, n ≤ 32) ∧
        (align = true → w.offset = 0 ∨ (∃ g ∈ gs.take ds.length, g.present = true) ∨
          ∀ g ∈ gs, g.present = false) := by
  induction gs generalizing ds w with
  | nil =>
    refine iff_of_true ?_ ⟨by cases ds <;> exact nofun, fun _ => Or.inr (Or.inr nofun)⟩
    intro m wm hnone
    rw [List.map_nil, List.take_nil] at hnone ⊢
    obtain ⟨-, rfl⟩ := (runs_pure () w).unique hnone
    unfold unpackGroups
    exact runs_pure _ _
  | cons g gs ih =>
    unfold groupsRoom at hroom
    have htail : ∀ p ∈ gs.zip ds.tail, p.1.present = true → Decodes p.1 p.2 := by
      intro p hp
      refine hdecodes p ?_
      cases ds with
      | nil => rw [List.tail_nil, List.zip_nil_right] at hp; exact absurd hp List.not_mem_nil
      | cons d ds => exact List.mem_cons_of_mem _ hp
    rw [leftovers_cons]
    cases hpresent : g.present
    · -- An absent group is nothing on both sides.
      have hrest : (packGroups align (gs.map (·.present)) (gs.map (·.content))).Runs w () wn := by
        rw [List.map_cons, List.map_cons, hpresent] at hrun
        exact hrun
      rw [inStepFrom_absent hpresent, ih htail hrest (hroom.mono (Nat.le_add_left _ _)) hpadding]
      cases ds <;> simp [leftovers, hpresent]
    · obtain ⟨w₀, w₁, wg, hfield, hwritten⟩ := @runs_varlengthFieldPack align _ _
        (g.fills hpresent) (g.size hpresent).2 w (hroom.mono (Nat.le_add_right _ _))
      obtain ⟨hwhole, hle, -⟩ := hwritten.whole
      have hroom' : wg.HasRoom (groupsRoom gs) := hroom.of_extends hwhole (by omega)
      have hrest : (packGroups align (gs.map (·.present)) (gs.map (·.content))).Runs wg () wn := by
        rw [List.map_cons, List.map_cons, hpresent] at hrun
        exact (runs_bind_iff hfield).mp hrun
      obtain ⟨wn', hrest', hext'⟩ := @runs_packGroups align gs wg hroom'
      obtain ⟨-, rfl⟩ := hrest.unique hrest'
      have hend : align = true → wg.offset = 0 := by
        rintro rfl
        exact hwritten.aligned_end
      have hpadding' : align = true →
          ∀ i, wg.distance ≤ i → i < alignUp wg.distance → wg.bits i = false := by
        intro halign i hge hlt
        have hzero := hend halign
        unfold alignUp distance at *
        omega
      have hhead : ∀ d ∈ ds.head?, Decodes g d := by
        intro d hd
        cases ds with
        | nil => exact absurd hd (Option.not_mem_none d)
        | cons d' ds =>
          obtain rfl : d' = d := Option.some.inj hd
          exact hdecodes (g, d') List.mem_cons_self hpresent
      rw [inStepFrom_present hpresent hfield, ih htail hrest hroom' hpadding',
        nextGuard_iff hpresent hwritten (hext'.trans hext) (hroom.mono (Nat.le_add_right _ _)) hhead
          hpadding]
      constructor
      · rintro ⟨⟨hfirst, hplace⟩, hmore, -⟩
        refine ⟨⟨hfirst, hmore⟩, fun halign => ?_⟩
        rcases hplace halign with hzero | hknown
        · exact Or.inl hzero
        · cases ds with
          | nil => exact absurd rfl hknown
          | cons d ds => exact Or.inr (Or.inl ⟨g, List.mem_cons_self, hpresent⟩)
      · rintro ⟨⟨hfirst, hmore⟩, hplace⟩
        refine ⟨⟨hfirst, fun halign => ?_⟩, hmore, fun halign => Or.inl (hend halign)⟩
        rcases hplace halign with hzero | ⟨g', hmem, -⟩ | hnone
        · exact Or.inl hzero
        · refine Or.inr ?_
          rintro rfl
          exact absurd hmem List.not_mem_nil
        · rw [hnone g List.mem_cons_self] at hpresent
          exact absurd hpresent (by decide)

end Groups

/-! ### The extension -/

section Absent

variable {align : Bool}

theorem unpackGroups_absent (flags : List Bool) (k : Nat) (ds : List GroupDecoder) :
    unpackGroups align (flags ++ List.replicate k false) (ds.map (·.read))
      = unpackGroups align flags (ds.map (·.read)) := by
  induction flags generalizing ds with
  | nil =>
    induction k generalizing ds with
    | zero => rfl
    | succ k ih =>
      rw [List.nil_append] at ih ⊢
      rw [List.replicate_succ, unpackGroups_cons]
      exact (ih ds.tail).trans (by unfold unpackGroups; rfl)
  | cons flag flags ih => rw [List.cons_append, unpackGroups_cons, unpackGroups_cons, ih]

theorem take_absent (flags : List Bool) (k m : Nat) :
    ∃ j, (flags ++ List.replicate k false).take m = flags.take m ++ List.replicate j false :=
  ⟨_, by rw [List.take_append, List.take_replicate]⟩

end Absent

/-- The encoder up to the group `m`. -/
def packUpTo (align : Bool) (gs : List ExtGroup) (m : Nat) : Per Unit := do
  let groups ← ofOption (ExtArray.empty.raiseAll 0 (gs.map (·.present)))
  packGroupFlags groups.elems
  packGroups align (groups.elems.take m) (gs.map (·.content))

/-- The decoder up to the group `m`. -/
def unpackUpTo (align : Bool) (ds : List GroupDecoder) (m : Nat) : Per Unit := do
  let flags ← unpackGroupFlags ds.length
  unpackGroups align (flags.take m) (ds.map (·.read))

/-- The encoder writes the groups, and the decoder is behind each of them when the encoder was. -/
def StaysInStep (align : Bool) (gs : List ExtGroup) (ds : List GroupDecoder) (w : BitRef) : Prop :=
  ((∃ g ∈ gs, g.present = true) → ∃ w',
    (packExtension align (gs.map (·.present)) (gs.map (·.content))).Runs w () w') ∧
  ∀ w', (packExtension align (gs.map (·.present)) (gs.map (·.content))).Runs w () w' →
    ∀ m wm, (packUpTo align gs m).Runs w () wm →
      (unpackUpTo align ds m).Runs (w'.readFrom w) () (w'.readFrom wm)

/-- The encoder writes the groups, and the decoder is behind the last one when it is done. -/
def EndsBehind (align : Bool) (gs : List ExtGroup) (ds : List GroupDecoder) (w : BitRef) : Prop :=
  ((∃ g ∈ gs, g.present = true) → ∃ w',
    (packExtension align (gs.map (·.present)) (gs.map (·.content))).Runs w () w') ∧
  ∀ w', (packExtension align (gs.map (·.present)) (gs.map (·.content))).Runs w () w' →
    (unpackExtension align (ds.map (·.read))).Runs (w'.readFrom w) () w'

/-- The groups that a decoder finds its way through: the encoder has flags for them, the rests are
up to 32 bits, and in the aligned variant the first group is a supported one or at a byte. -/
def GroupsFit (align : Bool) (gs : List ExtGroup) (ds : List GroupDecoder) (offset : Nat) : Prop :=
  (∃ g ∈ gs, g.present = true) → gs.length ≤ 22 ∧ (∀ n ∈ leftovers gs ds, n ≤ 32) ∧
    (align = true → (offset + 7 + nofGroups (gs.map (·.present)) gs.length) % 8 = 0 ∨
      ∃ g ∈ gs.take ds.length, g.present = true)

/-- The bits that an extension takes at most. -/
def extensionRoom (gs : List ExtGroup) : Nat := 7 + gs.length + groupsRoom gs

section Extension

variable {align : Bool} {gs : List ExtGroup} {ds : List GroupDecoder} {w : BitRef}

/-- An extension with a group, from the place behind the flags on. -/
theorem extension_spec (hsome : ∃ g ∈ gs, g.present = true) (hlen : gs.length ≤ 22)
    (hroom : w.HasRoom (extensionRoom gs)) :
    ∃ w₁ w', w₁.offset = (w.offset + 7 + nofGroups (gs.map (·.present)) gs.length) % 8 ∧
      (∀ i, w₁.distance ≤ i → i < alignUp w₁.distance → w₁.bits i = false) ∧
      w₁.HasRoom (groupsRoom gs) ∧
      (packGroups align (gs.map (·.present)) (gs.map (·.content))).Runs w₁ () w' ∧
      (packExtension align (gs.map (·.present)) (gs.map (·.content))).Runs w () w' ∧
      (∀ m wm, (packUpTo align gs m).Runs w () wm ↔
        (packGroups align ((gs.map (·.present)).take m) (gs.map (·.content))).Runs w₁ () wm) ∧
      (∀ m wm, (unpackUpTo align ds m).Runs (w'.readFrom w) () wm ↔
        (unpackGroups align ((gs.map (·.present)).take m) (ds.map (·.read))).Runs
          (w'.readFrom w₁) () wm) ∧
      ∀ wm, (unpackExtension align (ds.map (·.read))).Runs (w'.readFrom w) () wm ↔
        (unpackGroups align (gs.map (·.present)) (ds.map (·.read))).Runs
          (w'.readFrom w₁) () wm := by
  unfold extensionRoom at hroom
  have hmem : true ∈ gs.map (·.present) := by
    obtain ⟨g, hg, hpresent⟩ := hsome
    exact List.mem_map.mpr ⟨g, hg, hpresent⟩
  have hlength : (gs.map (·.present)).length = gs.length := List.length_map _
  have harray : ExtArray.empty.raiseAll 0 (gs.map (·.present))
      = some ⟨gs.map (·.present), ExtArray.grown (gs.map (·.present)).length⟩ := by
    rw [ExtArray.raiseAll_empty, if_pos (by rw [hlength]; exact hlen)]
  obtain ⟨w₁, hflags, hext₁, hdist₁, hpadding, hread⟩ := @groupFlags_spec _ hmem
    (by rw [hlength]; exact hlen) ds.length w (hroom.mono (by rw [hlength]; omega))
  have hle := nofGroups_le (gs.map (·.present)) gs.length
  rw [hlength] at hdist₁ hread
  have hroom₁ : w₁.HasRoom (groupsRoom gs) := hroom.of_extends hext₁ (by omega)
  obtain ⟨w', hgroups, hext⟩ := @runs_packGroups align gs w₁ hroom₁
  obtain ⟨k, hread⟩ := hread w' hext
  have hsplit := take_nofGroups (gs.map (·.present))
  rw [hlength] at hsplit
  generalize nofGroups (gs.map (·.present)) gs.length = n at *
  refine ⟨w₁, w', ?_, hpadding, hroom₁, hgroups, ?_, fun m wm => ?_, fun m wm => ?_, fun wm => ?_⟩
  · have hoffset := w₁.offset_lt
    unfold distance at hdist₁
    omega
  · unfold packExtension
    rw [ofOption_bind harray]
    exact hflags.bind hgroups
  · unfold packUpTo
    rw [ofOption_bind harray, runs_bind_iff hflags]
  · -- The decoder sees the flags that were sent, and may see absent groups behind them.
    unfold unpackUpTo
    obtain ⟨j, hj⟩ := take_absent ((gs.map (·.present)).take n) k m
    obtain ⟨j', hj'⟩ := take_absent ((gs.map (·.present)).take n) (gs.length - n) m
    rw [runs_bind_iff hread, hj, unpackGroups_absent]
    conv_rhs => rw [hsplit, hj', unpackGroups_absent]
  · unfold unpackExtension
    rw [List.length_map, runs_bind_iff hread, unpackGroups_absent]
    conv_rhs => rw [hsplit, unpackGroups_absent]

/-- Nothing is written without a group. -/
theorem not_runs_packExtension (hnone : ¬ ∃ g ∈ gs, g.present = true) {w' : BitRef} :
    ¬ (packExtension align (gs.map (·.present)) (gs.map (·.content))).Runs w () w' := by
  intro hrun
  obtain ⟨groups, w₁, harray, hrest⟩ := hrun.of_bind
  obtain ⟨_, w₂, hflags, -⟩ := hrest.of_bind
  rw [ExtArray.raiseAll_empty] at harray
  split at harray
  · obtain ⟨rfl, -⟩ := (runs_pure _ _).unique harray
    have hzero : nofGroups (gs.map (·.present)) (gs.map (·.present)).length = 0 := by
      by_contra hne
      obtain ⟨g, hg, hpresent⟩ := List.mem_map.mp (mem_of_nofGroups_pos (Nat.pos_of_ne_zero hne))
      exact hnone ⟨g, hg, hpresent⟩
    unfold packGroupFlags at hflags
    dsimp only at hflags
    obtain ⟨_, w₃, hnumber, -⟩ := hflags.of_bind
    rw [hzero] at hnumber
    unfold packNormSmallNonNegWholeNumber at hnumber
    rw [if_neg (by decide)] at hnumber
    obtain ⟨_, w₄, -, hfail⟩ := hnumber.of_bind
    exact not_runs_fail hfail
  · exact not_runs_undefined harray

/-- An encoder of more than 22 groups loses the flags. -/
theorem not_runs_packExtension_large (hlen : ¬ gs.length ≤ 22) {w' : BitRef} :
    ¬ (packExtension align (gs.map (·.present)) (gs.map (·.content))).Runs w () w' := by
  intro hrun
  obtain ⟨groups, w₁, harray, -⟩ := hrun.of_bind
  rw [ExtArray.raiseAll_empty, List.length_map, if_neg hlen] at harray
  exact not_runs_undefined harray

theorem staysInStep_iff
    (hdecodes : ∀ p ∈ gs.zip ds, p.1.present = true → Decodes p.1 p.2)
    (hroom : w.HasRoom (extensionRoom gs)) :
    StaysInStep align gs ds w ↔ GroupsFit align gs ds w.offset := by
  by_cases hsome : ∃ g ∈ gs, g.present = true
  · by_cases hlen : gs.length ≤ 22
    · obtain ⟨w₁, w', hoffset, hpadding, hroom₁, hgroups, hpack, hpackUp, hunpackUp, -⟩ :=
        @extension_spec align gs ds w hsome hlen hroom
      have hstep : StaysInStep align gs ds w ↔ InStepFrom align gs ds w₁ w' := by
        constructor
        · rintro ⟨-, hstays⟩ m wm hrun
          exact (hunpackUp m _).mp (hstays w' hpack m wm ((hpackUp m wm).mpr hrun))
        · intro hin
          refine ⟨fun _ => ⟨w', hpack⟩, fun w'' hpack' m wm hrun => ?_⟩
          obtain ⟨-, rfl⟩ := hpack.unique hpack'
          exact (hunpackUp m _).mpr (hin m wm ((hpackUp m wm).mp hrun))
      have hnot : ¬ ∀ g ∈ gs, g.present = false := by
        obtain ⟨g, hg, hpresent⟩ := hsome
        intro hall
        rw [hall g hg] at hpresent
        exact absurd hpresent (by decide)
      rw [hstep, inStepFrom_iff hdecodes hgroups (Extends.refl w') hroom₁ (fun _ => hpadding),
        hoffset]
      unfold GroupsFit
      constructor
      · rintro ⟨hrests, hplace⟩ -
        exact ⟨hlen, hrests, fun halign => (hplace halign).imp_right fun h => h.resolve_right hnot⟩
      · intro hfit
        obtain ⟨-, hrests, hplace⟩ := hfit hsome
        exact ⟨hrests, fun halign => (hplace halign).imp_right Or.inl⟩
    · refine iff_of_false (fun hstays => ?_) fun hfit => hlen (hfit hsome).1
      obtain ⟨w', hrun⟩ := hstays.1 hsome
      exact not_runs_packExtension_large hlen hrun
  · refine iff_of_true ⟨fun h => absurd h hsome, fun w' hrun => ?_⟩ fun h => absurd h hsome
    exact absurd hrun (not_runs_packExtension hsome)

theorem endsBehind_of_staysInStep (hroom : w.HasRoom (extensionRoom gs))
    (h : StaysInStep align gs ds w) : EndsBehind align gs ds w := by
  refine ⟨h.1, fun w' hrun => ?_⟩
  by_cases hsome : ∃ g ∈ gs, g.present = true
  · by_cases hlen : gs.length ≤ 22
    · obtain ⟨w₁, wn, -, -, -, hgroups, hpack, hpackUp, hunpackUp, hunpack⟩ :=
        @extension_spec align gs ds w hsome hlen hroom
      obtain ⟨-, rfl⟩ := hpack.unique hrun
      have hall : (gs.map (·.present)).take gs.length = gs.map (·.present) :=
        List.take_of_length_le (by rw [List.length_map])
      have hlast := h.2 wn hpack gs.length wn ((hpackUp _ wn).mpr (by rw [hall]; exact hgroups))
      rw [hunpackUp, hall] at hlast
      exact (hunpack wn).mpr hlast
    · exact absurd hrun (not_runs_packExtension_large hlen)
  · exact absurd hrun (not_runs_packExtension hsome)

/-- A decoder is behind each group when, and only when, they fit, and then it is behind the last. -/
theorem extension_iff
    (hdecodes : ∀ p ∈ gs.zip ds, p.1.present = true → Decodes p.1 p.2)
    (hroom : w.HasRoom (extensionRoom gs)) :
    (StaysInStep align gs ds w ↔ GroupsFit align gs ds w.offset) ∧
      (GroupsFit align gs ds w.offset → EndsBehind align gs ds w) :=
  have hiff := staysInStep_iff hdecodes hroom
  ⟨hiff, fun hfit => endsBehind_of_staysInStep hroom (hiff.mpr hfit)⟩

end Extension

/-- A group of given octets. -/
def ExtGroup.ofOctets (octets : Bytes) (h : 0 < octets.length ∧ octets.length ≤ 4095) : ExtGroup :=
  ⟨true, packBytes octets, octets, fun _ => fills_packBytes (Nat.le_trans h.2 (by decide)),
    fun _ => h⟩

/-- A decoder of the first three bits of a group. -/
def threeBits : GroupDecoder where
  read := do
    let _ ← unpack 8 3
    pure ()
  used := 3

/-- A group that is read in part, and one that is not known, in the aligned variant. -/
theorem extension_twoGroups :
    EndsBehind true [ExtGroup.ofOctets [0xab, 0xcd] (by decide), ExtGroup.ofOctets [1, 2] (by decide)]
      [threeBits] (start (List.replicate 30 0)) := by
  refine (@extension_iff true _ [threeBits] _ ?_ (by unfold HasRoom; decide)).2 ?_
  · intro p hp _
    obtain rfl : p = (ExtGroup.ofOctets [0xab, 0xcd] (by decide), threeBits) := by
      simpa using hp
    refine ⟨by decide, fun r hroom _ => ?_⟩
    have hoffset := r.offset_lt
    have hread := @BitRef.runs_unpack 8 3 r (by decide) (hroom.mono (by decide)) (by omega)
    exact hread.bind (runs_pure () _)
  · intro _
    exact ⟨by decide, by decide, fun _ => Or.inr ⟨_, List.mem_cons_self, rfl⟩⟩

/-- A group of five octets that is not known. -/
theorem not_extension_fiveOctets :
    ¬ EndsBehind false [ExtGroup.ofOctets [1, 2, 3, 4, 5] (by decide)] []
      (start (List.replicate 12 0)) := by
  rintro ⟨-, hread⟩
  have hrun : (packExtension false [true] [packBytes [1, 2, 3, 4, 5]]).Runs
      (start (List.replicate 12 0)) () ⟨[1, 5, 1, 2, 3, 4, 5, 0, 0, 0, 0, 0], 7, 0, by decide⟩ := by
    unfold Runs
    decide +kernel
  have h := hread _ hrun
  cases h

end Odss.Asn1
