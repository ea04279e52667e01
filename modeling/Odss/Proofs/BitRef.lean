import Odss.Lib.BitField
import Odss.Asn1.BitRef

/-!
# `Odss.Proofs.BitRef`: the cursors as streams of bits

A buffer is a stream of bits, and the distance of a cursor is a position in it. `Extends` is what
every call of a writer keeps: the bits before its cursor. `Written` is what `pack` adds.

* `runs_pack` and `runs_alignBytesZero` are the writer.
* `runs_unpack`, `unpack_undefined` and `runs_alignBytes` are the reader.
-/

set_option linter.all false

namespace Odss.Asn1.BitRef

open Odss.Lib Per

/-- The bits of the buffer. -/
def bits (r : BitRef) : Nat → Bool := bitAt r.buf

/-- The next position at the start of a byte. -/
def alignUp (pos : Nat) : Nat := 8 * ((pos + 7) / 8)

theorem distance_ext {r r' : BitRef} (hbuf : r.buf = r'.buf) (h : r.distance = r'.distance) :
    r = r' := by
  obtain ⟨buf, ptr, offset, hlt⟩ := r
  obtain ⟨buf', ptr', offset', hlt'⟩ := r'
  unfold distance at h
  dsimp only at hbuf h
  have hptr : ptr = ptr' := by omega
  have hoffset : offset = offset' := by omega
  subst hbuf hptr hoffset
  rfl

@[simp] theorem distance_mk (buf : Odss.Rlc.Bytes) (ptr offset : Nat) (h : offset < 8) :
    (⟨buf, ptr, offset, h⟩ : BitRef).distance = 8 * ptr + offset := rfl

/-! ### Bytes -/

theorem and_keepmask {o : Nat} (ho : o ≤ 8) (byte : UInt8) :
    byte.toNat &&& keepmask o = byte.toNat / 2 ^ (8 - o) * 2 ^ (8 - o) := by
  have hall : ∀ k : Fin 9, ∀ b : Fin 256,
      b.val &&& (255 - (2 ^ k.val - 1)) = b.val / 2 ^ k.val * 2 ^ k.val := by
    decide +kernel
  exact hall ⟨8 - o, by omega⟩ ⟨byte.toNat, UInt8.toNat_lt byte⟩

/-- The byte after `k` bits are written behind the first `o` ones. -/
theorem bitAt_write {buf : List UInt8} {p o k v : Nat} {byte : UInt8} (hp : buf[p]? = some byte)
    (hok : o + k ≤ 8) (hv : v < 2 ^ k) {buf' : List UInt8}
    (hbuf : buf' = buf.set p
      (UInt8.ofNat ((byte.toNat &&& keepmask o) + v <<< (8 - o - k)))) :
    (∀ i, i < 8 * p + o → bitAt buf' i = bitAt buf i) ∧
    field (bitAt buf') (8 * p + o) k = v ∧
    ∀ i, 8 * p + o + k ≤ i → i < 8 * p + 8 → bitAt buf' i = false := by
  obtain ⟨hlt, hget⟩ := List.getElem?_eq_some_iff.mp hp
  have hbyte := UInt8.toNat_lt byte
  -- The first bits, the written ones and zeros are the new byte.
  generalize hhi : byte.toNat / 2 ^ (8 - o) = hi
  have hpow : 2 ^ (8 - o) = 2 ^ k * 2 ^ (8 - o - k) := by rw [← Nat.pow_add]; congr 1; omega
  have hnew : (byte.toNat &&& keepmask o) + v <<< (8 - o - k)
      = 2 ^ (8 - o - k) * (2 ^ k * hi + v) := by
    rw [and_keepmask (by omega), hhi, Nat.shiftLeft_eq, hpow]
    ring
  have hsmall : 2 ^ (8 - o - k) * (2 ^ k * hi + v) < 256 := by
    have hhilt : hi < 2 ^ o := by
      rw [← hhi]
      refine Nat.div_lt_of_lt_mul ?_
      rw [← Nat.pow_add, show 8 - o + o = 8 by omega]
      exact hbyte
    have hinner : 2 ^ k * hi + v < 2 ^ k * 2 ^ o := by
      calc 2 ^ k * hi + v < 2 ^ k * hi + 2 ^ k := Nat.add_lt_add_left hv _
        _ = 2 ^ k * (hi + 1) := by ring
        _ ≤ 2 ^ k * 2 ^ o := Nat.mul_le_mul_left _ hhilt
    calc 2 ^ (8 - o - k) * (2 ^ k * hi + v)
        < 2 ^ (8 - o - k) * (2 ^ k * 2 ^ o) :=
          Nat.mul_lt_mul_of_pos_left hinner (Nat.two_pow_pos _)
      _ = 2 ^ (8 - o - k + k + o) := by rw [Nat.pow_add, Nat.pow_add]; ring
      _ = 256 := by rw [show 8 - o - k + k + o = 8 by omega]; rfl
  have hgetD : (buf'.getD p 0).toNat = 2 ^ (8 - o - k) * (2 ^ k * hi + v) := by
    rw [hbuf, getD_set _ _ hlt, hnew]
    exact Nat.mod_eq_of_lt hsmall
  refine ⟨?_, ?_, ?_⟩
  · intro i hi'
    by_cases hdiv : i / 8 = p
    · have hshift : 2 ^ (8 - o - k) * (2 ^ k * hi + v)
          = 2 ^ (8 - o) * hi + 2 ^ (8 - o - k) * v := by rw [hpow]; ring
      have hlow : 2 ^ (8 - o - k) * v < 2 ^ (8 - o) := by
        rw [hpow, Nat.mul_comm (2 ^ k)]
        exact Nat.mul_lt_mul_of_pos_left hv (Nat.two_pow_pos _)
      have hge : ¬ 7 - i % 8 < 8 - o := by omega
      have hold : buf.getD p 0 = byte := by
        rw [List.getD_eq_getElem?_getD, hp, Option.getD_some]
      rw [bitAt, bitAt, hdiv, hgetD, hshift, hold, Nat.testBit_two_pow_mul_add _ hlow, if_neg hge,
        ← hhi, Nat.testBit_div_two_pow]
      congr 1
      omega
    · rw [hbuf, bitAt_set_ne _ _ hdiv]
  · rw [field_bitAt _ _ hok, hgetD, Nat.mul_div_cancel_left _ (Nat.two_pow_pos _),
      Nat.mul_add_mod, Nat.mod_eq_of_lt hv]
  · intro i hge hlt'
    have hdiv : i / 8 = p := by omega
    have hlow : 7 - i % 8 < 8 - o - k := by omega
    have hzero := @Nat.testBit_two_pow_mul_add (2 ^ k * hi + v) 0 (8 - o - k)
      (Nat.two_pow_pos _) (7 - i % 8)
    rw [Nat.add_zero, if_pos hlow, Nat.zero_testBit] at hzero
    rw [bitAt, hdiv, hgetD, hzero]

/-! ### Writing -/

/-- A writer keeps the bits before its cursor, which only moves forward. -/
structure Extends (w w' : BitRef) : Prop where
  length_eq : w'.buf.length = w.buf.length
  le : w.distance ≤ w'.distance
  before : ∀ i, i < w.distance → w'.bits i = w.bits i

theorem Extends.refl (w : BitRef) : w.Extends w := ⟨rfl, le_refl _, fun _ _ => rfl⟩

theorem Extends.trans {w w₁ w₂ : BitRef} (h₁ : w.Extends w₁) (h₂ : w₁.Extends w₂) :
    w.Extends w₂ where
  length_eq := h₂.length_eq.trans h₁.length_eq
  le := Nat.le_trans h₁.le h₂.le
  before i hi := (h₂.before i (Nat.lt_of_lt_of_le hi h₁.le)).trans (h₁.before i hi)

/-- What was written stays. -/
theorem Extends.field_eq {w w' : BitRef} (h : w.Extends w') {pos n : Nat}
    (hle : pos + n ≤ w.distance) : field w'.bits pos n = field w.bits pos n :=
  field_congr fun i _ hlt => h.before i (by omega)

/-- `n` bits of a number are written, and the rest of the byte is zero. -/
structure Written (w w' : BitRef) (val n : Nat) : Prop extends Extends w w' where
  distance_eq : w'.distance = w.distance + n
  value : field w'.bits w.distance n = val % 2 ^ n
  padding : 0 < n → ∀ i, w'.distance ≤ i → i < alignUp w'.distance → w'.bits i = false

/-- The bytes from the cursor on have room for `n` bits. -/
def HasRoom (w : BitRef) (n : Nat) : Prop := w.distance + n ≤ 8 * w.buf.length

theorem HasRoom.mono {w : BitRef} {m n : Nat} (h : w.HasRoom n) (hle : m ≤ n) : w.HasRoom m := by
  unfold HasRoom at *
  omega

theorem HasRoom.of_extends {w w' : BitRef} {m n : Nat} (h : w.HasRoom n) (hext : w.Extends w')
    (hle : w'.distance + m ≤ w.distance + n) : w'.HasRoom m := by
  have hlen := hext.length_eq
  unfold HasRoom at *
  omega

theorem HasRoom.getElem {w : BitRef} {n : Nat} (h : w.HasRoom n) (hn : 0 < n) :
    ∃ byte, w.buf[w.ptr]? = some byte := by
  have hlt : w.ptr < w.buf.length := by
    unfold HasRoom distance at h
    omega
  exact ⟨_, List.getElem?_eq_getElem hlt⟩

/-- One round of `pack` that ends in the byte, or at its end. -/
theorem written_byte {w w' : BitRef} {byte : UInt8} {v n : Nat} (hbyte : w.buf[w.ptr]? = some byte)
    (hn : w.offset + n ≤ 8) (hv : v < 2 ^ n) (hdist : w'.distance = w.distance + n)
    (hbuf : w'.buf = w.buf.set w.ptr
      (UInt8.ofNat ((byte.toNat &&& keepmask w.offset) + v <<< (8 - w.offset - n)))) :
    w.Written w' v n := by
  obtain ⟨hbefore, hvalue, hpadding⟩ := bitAt_write hbyte hn hv hbuf
  refine ⟨⟨?_, ?_, hbefore⟩, hdist, ?_, ?_⟩
  · rw [hbuf, List.length_set]
  · omega
  · rw [Nat.mod_eq_of_lt hv]
    exact hvalue
  · intro _ i hge hlt
    have hlt' := w.offset_lt
    unfold alignUp at hlt
    rw [hdist] at hge hlt
    unfold distance at hge hlt
    exact hpadding i hge (by omega)

theorem Written.congr {w w' : BitRef} {val val' n : Nat} (h : w.Written w' val n)
    (heq : val % 2 ^ n = val' % 2 ^ n) : w.Written w' val' n :=
  ⟨h.toExtends, h.distance_eq, h.value.trans heq, h.padding⟩

/-- Two numbers in a row are one. -/
theorem Written.append {w w₁ w₂ : BitRef} {val m n : Nat} (h₁ : w.Written w₁ (val / 2 ^ n) m)
    (h₂ : w₁.Written w₂ val n) (hn : 0 < n ∨ w₁.offset = 0) : w.Written w₂ val (m + n) := by
  have hext := h₁.toExtends.trans h₂.toExtends
  refine ⟨hext, ?_, ?_, ?_⟩
  · rw [h₂.distance_eq, h₁.distance_eq, Nat.add_assoc]
  · have hfirst : field w₂.bits w.distance m = field w₁.bits w.distance m :=
      h₂.toExtends.field_eq (Nat.le_of_eq h₁.distance_eq.symm)
    rw [field_add, hfirst, h₁.value, ← h₁.distance_eq, h₂.value, Nat.add_comm m n, Nat.pow_add,
      Nat.mod_mul, Nat.add_comm, Nat.mul_comm (2 ^ n)]
  · intro _ i hge hlt
    rcases Nat.eq_zero_or_pos n with hzero | hpos
    · -- Nothing follows, and the first number ends at the end of a byte.
      have hoffset : w₁.offset = 0 := by omega
      have hdist := h₂.distance_eq
      unfold alignUp at hlt
      rw [hzero, Nat.add_zero] at hdist
      rw [hdist] at hge hlt
      unfold distance at hge hlt
      omega
    · exact h₂.padding hpos i hge hlt

theorem packLoop_spec {fuel : Nat} {w : BitRef} {val n : Nat} (hfuel : n ≤ fuel)
    (hroom : w.HasRoom n) : ∃ w', packLoop fuel w val n = (.ok (), w') ∧ w.Written w' val n := by
  induction fuel generalizing w val n with
  | zero =>
    obtain rfl : n = 0 := Nat.le_zero.mp hfuel
    exact ⟨w, rfl, Extends.refl w, rfl, (Nat.mod_one _).symm, fun h => absurd h (lt_irrefl 0)⟩
  | succ fuel ih =>
    rcases Nat.eq_zero_or_pos n with rfl | hpos
    · exact ⟨w, rfl, Extends.refl w, rfl, (Nat.mod_one _).symm, fun h => absurd h (lt_irrefl 0)⟩
    obtain ⟨byte, hbyte⟩ := hroom.getElem hpos
    have hoffset := w.offset_lt
    have hmasked : val % 2 ^ n < 2 ^ n := Nat.mod_lt _ (Nat.two_pow_pos n)
    unfold packLoop
    rw [if_neg (by omega), hbyte]
    dsimp only
    split
    · next hlt =>
      -- The bits end inside the byte.
      have hdist : 8 * w.ptr + (w.offset + n) = w.distance + n := by unfold distance; omega
      have hstep := @written_byte w ⟨_, w.ptr, w.offset + n, by omega⟩ byte _ n hbyte (by omega)
        hmasked hdist rfl
      refine ⟨_, rfl, hstep.toExtends, hstep.distance_eq, ?_, hstep.padding⟩
      rw [hstep.value, Nat.mod_mod]
    · next hge =>
      have hsplit : n = 8 - w.offset + (n - (8 - w.offset)) := by omega
      have hshift : n + w.offset - 8 = n - (8 - w.offset) := by omega
      have hzero : 8 - w.offset - (8 - w.offset) = 0 := Nat.sub_self _
      rw [hshift, Nat.shiftRight_eq_div_pow]
      have hfirst : val % 2 ^ n / 2 ^ (n - (8 - w.offset)) < 2 ^ (8 - w.offset) := by
        refine Nat.div_lt_of_lt_mul ?_
        rw [← Nat.pow_add, Nat.add_comm, ← hsplit]
        exact hmasked
      have hdist : 8 * (w.ptr + 1) + 0 = w.distance + (8 - w.offset) := by unfold distance; omega
      have hstep := @written_byte w
        ⟨w.buf.set w.ptr (UInt8.ofNat ((byte.toNat &&& keepmask w.offset)
          + val % 2 ^ n / 2 ^ (n - (8 - w.offset)))), w.ptr + 1, 0, by decide⟩ byte _
        (8 - w.offset) hbyte (by omega) hfirst hdist (by rw [hzero, Nat.shiftLeft_zero])
      have hroom' := hroom.of_extends hstep.toExtends
        (show _ + (n - (8 - w.offset)) ≤ w.distance + n by rw [hstep.distance_eq]; omega)
      obtain ⟨w', hrun, hrest⟩ := @ih _ (val % 2 ^ n) _ (by omega) hroom'
      refine ⟨w', hrun, ?_⟩
      have hboth := hstep.append hrest (Or.inr rfl)
      rw [← hsplit] at hboth
      exact ⟨hboth.toExtends, hboth.distance_eq, by rw [hboth.value, Nat.mod_mod],
        hboth.padding⟩

theorem runs_pack {w : BitRef} {n : Nat} (val : Nat) (hn : n < 64) (hroom : w.HasRoom n) :
    ∃ w', (pack val n).Runs w () w' ∧ w.Written w' val n := by
  obtain ⟨w', hrun, hwritten⟩ := @packLoop_spec n w val n (le_refl n) hroom
  refine ⟨w', ?_, hwritten⟩
  unfold Runs pack
  rw [if_neg (by omega), hrun]

/-- A writer that has room keeps what was written. -/
theorem extends_of_pack {w w' : BitRef} {val n : Nat} (hroom : w.HasRoom n)
    (h : (pack val n).Runs w () w') : w.Extends w' := by
  rcases Nat.lt_or_ge n 64 with hlt | hge
  · obtain ⟨w₁, hrun, hwritten⟩ := runs_pack val hlt hroom
    obtain ⟨-, rfl⟩ := hrun.unique h
    exact hwritten.toExtends
  · unfold Runs pack at h
    rw [if_pos hge] at h
    cases h

theorem extends_of_ignore_pack {w w' : BitRef} {val n : Nat} (hroom : w.HasRoom n)
    (h : (ignore (pack val n)).Runs w () w') : w.Extends w' := by
  rcases Nat.lt_or_ge n 64 with hlt | hge
  · obtain ⟨w₁, hrun, hwritten⟩ := runs_pack val hlt hroom
    obtain ⟨-, rfl⟩ := hrun.ignore.unique h
    exact hwritten.toExtends
  · -- Nothing is written.
    unfold Runs Per.ignore pack at h
    rw [if_pos hge] at h
    cases h
    exact Extends.refl w

theorem runs_alignBytesZero {w : BitRef} (hroom : w.HasRoom 1 ∨ w.offset = 0) :
    ∃ w', alignBytesZero.Runs w () w' ∧ w.Extends w' ∧ w'.distance = alignUp w.distance ∧
      ∀ i, w.distance ≤ i → i < w'.distance → w'.bits i = false := by
  have hoffset := w.offset_lt
  by_cases hzero : w.offset = 0
  · refine ⟨w, by unfold Runs alignBytesZero; rw [if_pos hzero], Extends.refl w, ?_, ?_⟩
    · unfold alignUp distance
      omega
    · intro i hge hlt
      omega
  · obtain ⟨byte, hbyte⟩ := (hroom.resolve_right hzero).getElem Nat.one_pos
    have hmask : 256 - 2 ^ (8 - w.offset) = keepmask w.offset := by
      have hle : 2 ^ (8 - w.offset) ≤ 2 ^ 8 := Nat.pow_le_pow_right (by decide) (by omega)
      have hpos := Nat.two_pow_pos (8 - w.offset)
      unfold keepmask
      omega
    have hdist : 8 * (w.ptr + 1) + 0 = w.distance + (8 - w.offset) := by unfold distance; omega
    have hstep := @written_byte w
      ⟨w.buf.set w.ptr (UInt8.ofNat (byte.toNat &&& keepmask w.offset)), w.ptr + 1, 0, by decide⟩
      byte 0 (8 - w.offset) hbyte (by omega) (Nat.two_pow_pos _) hdist
      (by rw [Nat.zero_shiftLeft]; rfl)
    refine ⟨_, ?_, hstep.toExtends, ?_, ?_⟩
    · unfold Runs alignBytesZero
      rw [if_neg hzero, hbyte]
      dsimp only
      rw [hmask]
    · rw [distance_mk]
      unfold alignUp distance
      omega
    · intro i hge hlt
      have hvalue := hstep.value
      rw [Nat.zero_mod] at hvalue
      rw [hstep.distance_eq] at hlt
      exact eq_false_of_field_eq_zero hvalue hge hlt

/-- A call of `pack` keeps what was written before, also when it fails. -/
theorem packLoop_extends (fuel : Nat) (w : BitRef) (val n : Nat) :
    w.Extends (packLoop fuel w val n).2 := by
  induction fuel generalizing w val n with
  | zero => exact Extends.refl w
  | succ fuel ih =>
    unfold packLoop
    split
    · exact Extends.refl w
    split
    · exact Extends.refl w
    next byte hbyte =>
      have hoffset := w.offset_lt
      have hmasked : val % 2 ^ n < 2 ^ n := Nat.mod_lt _ (Nat.two_pow_pos n)
      dsimp only
      split
      · next hlt =>
        exact (@written_byte w ⟨_, w.ptr, w.offset + n, by omega⟩ byte _ n hbyte (by omega)
          hmasked (by rw [distance_mk]; unfold distance; omega) rfl).toExtends
      · next hge =>
        have hfirst : (val % 2 ^ n) >>> (n + w.offset - 8) < 2 ^ (8 - w.offset) := by
          rw [Nat.shiftRight_eq_div_pow]
          refine Nat.div_lt_of_lt_mul ?_
          rw [← Nat.pow_add, show n + w.offset - 8 + (8 - w.offset) = n by omega]
          exact hmasked
        have hstep := @written_byte w
          ⟨w.buf.set w.ptr (UInt8.ofNat ((byte.toNat &&& keepmask w.offset)
            + (val % 2 ^ n) >>> (n + w.offset - 8))), w.ptr + 1, 0, by decide⟩ byte _
          (8 - w.offset) hbyte (by omega) hfirst (by rw [distance_mk]; unfold distance; omega)
          (by rw [Nat.sub_self, Nat.shiftLeft_zero])
        exact hstep.toExtends.trans (ih _ _ _)

/-- Bits that were written had room. -/
theorem hasRoom_of_packLoop {fuel : Nat} {w : BitRef} {val n : Nat} (hn : 0 < n) (hfuel : n ≤ fuel)
    (h : (packLoop fuel w val n).1 = .ok ()) : w.HasRoom n := by
  induction fuel generalizing w val n with
  | zero => omega
  | succ fuel ih =>
    have hoffset := w.offset_lt
    unfold packLoop at h
    rw [if_neg (Nat.ne_of_gt hn)] at h
    split at h
    · cases h
    next byte hbyte =>
      have hptr := (List.getElem?_eq_some_iff.mp hbyte).1
      unfold HasRoom distance
      dsimp only at h
      split at h
      · omega
      · next hge =>
        rcases Nat.eq_or_lt_of_le (Nat.le_of_not_lt hge) with heq | hlt
        · omega
        · have hrest := ih (by omega) (by omega) h
          unfold HasRoom distance at hrest
          dsimp only at hrest
          rw [List.length_set] at hrest
          omega

/-- What a call of `pack` that succeeds has written. -/
theorem of_runs_pack {w w' : BitRef} {val n : Nat} (h : (pack val n).Runs w () w') :
    n < 64 ∧ (n = 0 ∨ w.HasRoom n) ∧ w.Written w' val n := by
  have hlt : n < 64 := by
    by_contra hge
    unfold Runs pack at h
    rw [if_pos (by omega)] at h
    cases h
  have hloop : packLoop n w val n = (.ok (), w') := by
    unfold Runs pack at h
    rw [if_neg (by omega)] at h
    exact Option.some.inj h
  rcases Nat.eq_zero_or_pos n with rfl | hpos
  · cases hloop
    exact ⟨hlt, .inl rfl, Extends.refl w, rfl, (Nat.mod_one _).symm,
      fun hfalse => absurd hfalse (lt_irrefl 0)⟩
  · have hroom := hasRoom_of_packLoop hpos (Nat.le_refl n) (congrArg Prod.fst hloop)
    obtain ⟨w₁, hrun, hwritten⟩ := runs_pack val hlt hroom
    obtain ⟨-, rfl⟩ := hrun.unique h
    exact ⟨hlt, .inr hroom, hwritten⟩

/-- Room behind a field, and the field. -/
theorem HasRoom.of_written {w w' : BitRef} {val m n : Nat} (h : w'.HasRoom n)
    (hwritten : w.Written w' val m) : w.HasRoom (m + n) := by
  have hlen := hwritten.length_eq
  have hdist := hwritten.distance_eq
  unfold HasRoom at *
  omega

/-! ### Reading -/

/-- The cursor some bits further on. -/
def advance (r : BitRef) (n : Nat) : BitRef :=
  ⟨r.buf, (r.distance + n) / 8, (r.distance + n) % 8, Nat.mod_lt _ (by decide)⟩

@[simp] theorem advance_buf (r : BitRef) (n : Nat) : (r.advance n).buf = r.buf := rfl

@[simp] theorem advance_distance (r : BitRef) (n : Nat) :
    (r.advance n).distance = r.distance + n := by
  show 8 * ((r.distance + n) / 8) + (r.distance + n) % 8 = _
  omega

theorem advance_advance (r : BitRef) (m n : Nat) : (r.advance m).advance n = r.advance (m + n) :=
  distance_ext rfl (by simp [Nat.add_assoc])

theorem advance_zero (r : BitRef) : r.advance 0 = r := distance_ext rfl (by simp)

/-- The first round of `unpack` that ends inside the byte. -/
theorem and_mask_shift (byte : UInt8) {o n : Nat} (h : o + n ≤ 8) :
    (byte.toNat &&& (2 ^ (8 - o) - 2 ^ (8 - o - n))) >>> (8 - o - n)
      = byte.toNat / 2 ^ (8 - o - n) % 2 ^ n := by
  have hpow : 2 ^ (8 - o) = 2 ^ n * 2 ^ (8 - o - n) := by rw [← Nat.pow_add]; congr 1; omega
  have hmask : 2 ^ (8 - o) - 2 ^ (8 - o - n) = (2 ^ n - 1) <<< (8 - o - n) := by
    rw [Nat.shiftLeft_eq, Nat.sub_mul, Nat.one_mul, hpow]
  rw [hmask, Nat.shiftRight_and_distrib, Nat.shiftLeft_shiftRight, Nat.and_two_pow_sub_one_eq_mod,
    Nat.shiftRight_eq_div_pow]

/-- A shift of 32 bits loses what is behind them. -/
theorem shift_add_mod (first : Nat) {last s : Nat} (hs : s ≤ 32) (hlast : last < 2 ^ s) :
    (first * 2 ^ s + last) % 2 ^ 32 = first * 2 ^ s % 2 ^ 32 + last := by
  have hpow : 2 ^ 32 = 2 ^ s * 2 ^ (32 - s) := by rw [← Nat.pow_add]; congr 1; omega
  have hmod : (first * 2 ^ s + last) % 2 ^ s = last := by
    rw [Nat.mul_add_mod_self_right, Nat.mod_eq_of_lt hlast]
  have hdiv : (first * 2 ^ s + last) / 2 ^ s = first := by
    rw [Nat.add_comm, Nat.add_mul_div_right _ _ (Nat.two_pow_pos s), Nat.div_eq_of_lt hlast,
      Nat.zero_add]
  rw [hpow, Nat.mod_mul, hmod, hdiv, Nat.mod_mul, Nat.mul_mod_left,
    Nat.mul_div_cancel _ (Nat.two_pow_pos s), Nat.zero_add, Nat.add_comm]

theorem unpackLoop_spec {width fuel : Nat} {r : BitRef} {val n : Nat} (hfuel : n ≤ fuel)
    (hroom : r.HasRoom n) (hshift : n + r.offset ≤ 39) :
    unpackLoop width fuel r (val % 2 ^ width) n
      = some (.ok ((val + field r.bits r.distance n % 2 ^ 32) % 2 ^ width), r.advance n) := by
  induction fuel generalizing r val n with
  | zero =>
    obtain rfl : n = 0 := Nat.le_zero.mp hfuel
    rw [unpackLoop_zero, field_zero, Nat.zero_mod, Nat.add_zero, advance_zero]
  | succ fuel ih =>
    unfold unpackLoop
    rcases Nat.eq_zero_or_pos n with rfl | hpos
    · rw [if_pos rfl, field_zero, Nat.zero_mod, Nat.add_zero, advance_zero]
    obtain ⟨byte, hbyte⟩ := hroom.getElem hpos
    have hoffset := r.offset_lt
    have hgetD : r.buf.getD r.ptr 0 = byte := by
      rw [List.getD_eq_getElem?_getD, hbyte, Option.getD_some]
    rw [if_neg (by omega), hbyte]
    dsimp only
    split
    · next hlt =>
      have hfield : field r.bits r.distance n = byte.toNat / 2 ^ (8 - r.offset - n) % 2 ^ n := by
        rw [← hgetD]
        exact field_bitAt _ _ (by omega)
      have hsmall : field r.bits r.distance n < 2 ^ 32 :=
        Nat.lt_of_lt_of_le (field_lt _ _ _) (Nat.pow_le_pow_right (by decide) (by omega))
      have hend : (⟨r.buf, r.ptr, r.offset + n, by omega⟩ : BitRef) = r.advance n := by
        refine distance_ext rfl ?_
        rw [advance_distance, distance_mk]
        unfold distance
        omega
      rw [and_mask_shift byte (by omega), ← hfield, Nat.mod_eq_of_lt hsmall, Nat.mod_add_mod, hend]
    · next hge =>
      rw [if_neg (by omega)]
      have hsplit : n = 8 - r.offset + (n - (8 - r.offset)) := by omega
      have hexp : n + r.offset - 8 = n - (8 - r.offset) := by omega
      -- The bits of the byte, and the bits of the bytes that follow.
      have hfirst : field r.bits r.distance (8 - r.offset) = byte.toNat % 2 ^ (8 - r.offset) := by
        have hfield := @field_bitAt r.buf r.ptr r.offset (8 - r.offset) (by omega)
        rw [Nat.sub_self, Nat.pow_zero, Nat.div_one, hgetD] at hfield
        exact hfield
      have hnext : (⟨r.buf, r.ptr + 1, 0, by decide⟩ : BitRef) = r.advance (8 - r.offset) := by
        refine distance_ext rfl ?_
        rw [advance_distance, distance_mk]
        unfold distance
        omega
      have hroom' : (r.advance (8 - r.offset)).HasRoom (n - (8 - r.offset)) := by
        unfold HasRoom at *
        rw [advance_distance, advance_buf]
        omega
      have hdist : (r.advance (8 - r.offset)).distance = r.distance + (8 - r.offset) :=
        advance_distance r _
      have hzero : (r.advance (8 - r.offset)).offset = 0 := by rw [← hnext]
      rw [hnext, @ih (r.advance (8 - r.offset)) _ _ (by omega) hroom' (by omega),
        advance_advance, ← hsplit, hdist]
      refine congrArg some (Prod.ext (congrArg Except.ok ?_) rfl)
      show (_ + field r.bits _ _ % 2 ^ 32) % 2 ^ width = _
      have hwhole : field r.bits r.distance n
          = byte.toNat % 2 ^ (8 - r.offset) * 2 ^ (n - (8 - r.offset))
            + field r.bits (r.distance + (8 - r.offset)) (n - (8 - r.offset)) := by
        conv_lhs => rw [hsplit]
        rw [field_add, hfirst]
      have hlast := field_lt r.bits (r.distance + (8 - r.offset)) (n - (8 - r.offset))
      have hsmall : field r.bits (r.distance + (8 - r.offset)) (n - (8 - r.offset)) < 2 ^ 32 :=
        Nat.lt_of_lt_of_le hlast (Nat.pow_le_pow_right (by decide) (by omega))
      rw [Nat.and_two_pow_sub_one_eq_mod, Nat.shiftLeft_eq, hexp, hwhole,
        shift_add_mod _ (by omega) hlast, Nat.mod_eq_of_lt hsmall, ← Nat.add_assoc]
      simp only [Nat.mod_add_mod, Nat.add_assoc]

/-- `unpack` of bits that 32 bit shifts can reach. What is behind 32 bits is lost. -/
theorem runs_unpack {width n : Nat} {r : BitRef} (hwidth : n ≤ width) (hroom : r.HasRoom n)
    (hshift : n + r.offset ≤ 39) :
    (unpack width n).Runs r (field r.bits r.distance n % 2 ^ 32) (r.advance n) := by
  have hloop := @unpackLoop_spec width n r 0 n (le_refl n) hroom hshift
  have hlt : field r.bits r.distance n % 2 ^ 32 < 2 ^ width :=
    Nat.lt_of_le_of_lt (Nat.mod_le _ _)
      (Nat.lt_of_lt_of_le (field_lt _ _ _) (Nat.pow_le_pow_right (by decide) hwidth))
  rw [Nat.zero_mod, Nat.zero_add, Nat.mod_eq_of_lt hlt] at hloop
  unfold Runs unpack
  rw [if_neg (by omega), hloop]

/-- A shift by 32 bits or more is undefined. -/
theorem unpack_undefined {width n : Nat} {r : BitRef} (hwidth : n ≤ width) (hroom : r.HasRoom 1)
    (hshift : 40 ≤ n + r.offset) : unpack width n r = none := by
  obtain ⟨byte, hbyte⟩ := hroom.getElem Nat.one_pos
  have hoffset := r.offset_lt
  obtain ⟨k, rfl⟩ : ∃ k, n = k + 1 := ⟨n - 1, by omega⟩
  unfold unpack
  rw [if_neg (by omega), unpackLoop, if_neg (by omega), hbyte]
  dsimp only
  rw [dif_neg (by omega), if_pos (by omega)]

/-- A field that is not all there is an error. -/
theorem unpackLoop_of_not_room {width fuel : Nat} {r : BitRef} {val n : Nat} (hfuel : n ≤ fuel)
    (hpos : 0 < n) (hroom : ¬ r.HasRoom n) :
    ∀ v r', unpackLoop width fuel r val n ≠ some (.ok v, r') := by
  induction fuel generalizing r val n with
  | zero => omega
  | succ fuel ih =>
    intro v r' h
    have hoffset := r.offset_lt
    unfold unpackLoop at h
    rw [if_neg (by omega)] at h
    split at h
    · cases h
    · next byte hbyte =>
      have hlt := (List.getElem?_eq_some_iff.mp hbyte).1
      unfold HasRoom distance at hroom
      split at h
      · omega
      · split at h
        · cases h
        · refine ih (by omega) (by omega) ?_ v r' h
          unfold HasRoom
          rw [distance_mk]
          dsimp only
          omega

/-- What a call of `unpack` that succeeds has read. -/
theorem of_runs_unpack {width n : Nat} {r r' : BitRef} {v : Nat}
    (h : (unpack width n).Runs r v r') (hpos : 0 < n) :
    n ≤ width ∧ r.HasRoom n ∧ n + r.offset ≤ 39 ∧ v = field r.bits r.distance n % 2 ^ 32 ∧
      r' = r.advance n := by
  have hwidth : n ≤ width := by
    by_contra hlt
    unfold Runs unpack at h
    rw [if_pos (by omega)] at h
    cases h
  have hroom : r.HasRoom n := by
    by_contra hno
    unfold Runs unpack at h
    rw [if_neg (by omega)] at h
    exact unpackLoop_of_not_room (le_refl n) hpos hno v r' h
  have hshift : n + r.offset ≤ 39 := by
    by_contra hlt
    unfold Runs at h
    rw [unpack_undefined hwidth (hroom.mono hpos) (by omega)] at h
    cases h
  obtain ⟨rfl, rfl⟩ := h.unique (runs_unpack hwidth hroom hshift)
  exact ⟨hwidth, hroom, hshift, rfl, rfl⟩

/-- Bits that the shifts can reach are an error or a number. -/
theorem unpackLoop_ne_none {width fuel : Nat} {r : BitRef} {val n : Nat}
    (hshift : n + r.offset ≤ 39) : unpackLoop width fuel r val n ≠ none := by
  induction fuel generalizing r val n with
  | zero => exact Option.some_ne_none _
  | succ fuel ih =>
    have hoffset := r.offset_lt
    unfold unpackLoop
    split
    · exact Option.some_ne_none _
    · split
      · exact Option.some_ne_none _
      · split
        · exact Option.some_ne_none _
        · rw [if_neg (by omega)]
          refine ih ?_
          dsimp only
          omega

theorem runs_unpackFlag {r : BitRef} (hroom : r.HasRoom 1) :
    unpackFlag.Runs r (r.bits r.distance) (r.advance 1) := by
  have hoffset := r.offset_lt
  have hread := @runs_unpack 8 1 r (by decide) hroom (by omega)
  have hvalue : (field r.bits r.distance 1 % 2 ^ 32 != 0) = r.bits r.distance := by
    rw [field_succ, field_zero, Nat.add_zero]
    cases r.bits r.distance <;> rfl
  have hpure := @runs_pure _ (field r.bits r.distance 1 % 2 ^ 32 != 0) (r.advance 1)
  rw [hvalue] at hpure
  unfold unpackFlag
  refine hread.bind ?_
  rw [hvalue]
  exact hpure

theorem runs_alignBytes {r : BitRef} (hroom : r.HasRoom 1 ∨ r.offset = 0) :
    alignBytes.Runs r () (r.advance (alignUp r.distance - r.distance)) := by
  have hoffset := r.offset_lt
  unfold Runs alignBytes
  by_cases hzero : r.offset = 0
  · have hnone : alignUp r.distance - r.distance = 0 := by unfold alignUp distance; omega
    rw [if_pos hzero, hnone, advance_zero]
  · have hlt : ¬ r.ptr ≥ r.buf.length := by
      have hroom' := hroom.resolve_right hzero
      unfold HasRoom distance at hroom'
      omega
    have hnext : r.nextByte = r.advance (alignUp r.distance - r.distance) := by
      refine distance_ext rfl ?_
      rw [advance_distance, nextByte, distance_mk]
      unfold alignUp distance
      omega
    rw [if_neg hzero, if_neg hlt, hnext]

/-! ### What a reader ensures -/

/-- A call is defined, and the property holds when it succeeds. -/
def Ensures {α : Type} (x : Per α) (r : BitRef) (P : α → BitRef → Prop) : Prop :=
  x r ≠ none ∧ ∀ a r', x.Runs r a r' → P a r'

section Ensures

variable {α β : Type} {x : Per α} {r : BitRef} {P : α → BitRef → Prop}

theorem Ensures.pure {a : α} (h : P a r) : Ensures (Pure.pure a) r P :=
  ⟨nofun, fun _ _ hrun => by
    obtain ⟨rfl, rfl⟩ := hrun.unique (runs_pure a r)
    exact h⟩

theorem Ensures.fail {code : SrsasnCode} : Ensures (Per.fail code) r P :=
  ⟨nofun, fun _ _ hrun => absurd hrun not_runs_fail⟩

theorem not_ensures_undefined : ¬ Ensures Per.undefined r P := fun h => h.1 rfl

theorem Ensures.mono {Q : α → BitRef → Prop} (h : Ensures x r P) (hPQ : ∀ a r', P a r' → Q a r') :
    Ensures x r Q :=
  ⟨h.1, fun a r' hrun => hPQ a r' (h.2 a r' hrun)⟩

theorem Ensures.bind {f : α → Per β} {Q : β → BitRef → Prop} (hx : Ensures x r P)
    (hf : ∀ a r', P a r' → Ensures (f a) r' Q) : Ensures (x >>= f) r Q := by
  constructor
  · show Per.bind x f r ≠ none
    unfold Per.bind
    split
    · next h => exact absurd h hx.1
    · exact nofun
    · next a r' h => exact (hf a r' (hx.2 a r' h)).1
  · intro b r₂ hrun
    obtain ⟨a, r₁, hx', hf'⟩ := hrun.of_bind
    exact (hf a r₁ (hx.2 a r₁ hx')).2 b r₂ hf'

/-- What a call ensures holds of the rest of it. -/
theorem Ensures.of_bind {f : α → Per β} {Q : β → BitRef → Prop} {a : α} {r₁ : BitRef}
    (h : Ensures (x >>= f) r Q) (hx : x.Runs r a r₁) : Ensures (f a) r₁ Q := by
  constructor
  · intro hnone
    refine h.1 ?_
    show Per.bind x f r = none
    rw [Per.bind, hx]
    exact hnone
  · exact fun b r₂ hf => h.2 b r₂ (hx.bind hf)

theorem ensures_unpack {width n : Nat} (hshift : n + r.offset ≤ 39) :
    Ensures (unpack width n) r fun v r' => v < 2 ^ n ∧ r'.offset = (r.offset + n) % 8 := by
  constructor
  · unfold unpack
    split
    · exact nofun
    · exact unpackLoop_ne_none hshift
  · intro v r' hrun
    rcases Nat.eq_zero_or_pos n with rfl | hpos
    · have hoffset := r.offset_lt
      cases hrun
      exact ⟨Nat.one_pos, by omega⟩
    · obtain ⟨-, -, -, rfl, rfl⟩ := of_runs_unpack hrun hpos
      refine ⟨Nat.lt_of_le_of_lt (Nat.mod_le _ _) (field_lt _ _ _), ?_⟩
      show (8 * r.ptr + r.offset + n) % 8 = _
      omega

theorem ensures_unpackFlag :
    Ensures unpackFlag r fun flag r' => flag = r.bits r.distance ∧ r' = r.advance 1 := by
  have hoffset := r.offset_lt
  by_cases hroom : r.HasRoom 1
  · refine ⟨?_, fun flag r' hrun => ?_⟩
    · rw [show unpackFlag r = _ from runs_unpackFlag hroom]
      exact nofun
    · exact hrun.unique (runs_unpackFlag hroom)
  · have h : Ensures unpackFlag r fun _ _ => True :=
      (ensures_unpack (by omega)).bind fun _ _ _ => Ensures.pure trivial
    refine ⟨h.1, fun flag r' hrun => ?_⟩
    obtain ⟨v, r₁, hunpack, -⟩ := hrun.of_bind
    exact absurd (of_runs_unpack hunpack Nat.one_pos).2.1 hroom

theorem ensures_alignBytes : Ensures alignBytes r fun _ r' => r'.offset = 0 := by
  constructor
  · unfold alignBytes
    split
    · exact nofun
    · split <;> exact nofun
  · intro a r' hrun
    unfold Runs alignBytes at hrun
    split at hrun
    · next hzero =>
      cases hrun
      exact hzero
    · split at hrun
      · cases hrun
      · cases hrun
        rfl

end Ensures

theorem of_runs_alignBytes {r r' : BitRef} (h : alignBytes.Runs r () r') :
    r'.distance = alignUp r.distance ∧ r'.offset = 0 ∧ r'.buf = r.buf := by
  have hoffset := r.offset_lt
  unfold Runs alignBytes at h
  split at h
  · next hzero =>
    cases h
    refine ⟨?_, hzero, rfl⟩
    unfold alignUp distance
    omega
  · split at h
    · cases h
    · cases h
      refine ⟨?_, rfl, rfl⟩
      rw [nextByte, distance_mk]
      unfold alignUp distance
      omega

/-- At the start of a byte nothing is skipped. -/
theorem runs_alignBytes_of_aligned {r : BitRef} (h : r.offset = 0) : alignBytes.Runs r () r :=
  if_pos h

theorem runs_alignBytesZero_of_aligned {w : BitRef} (h : w.offset = 0) :
    alignBytesZero.Runs w () w :=
  if_pos h

/-! ### Reading what was written -/

@[simp] theorem readFrom_distance (w place : BitRef) :
    (w.readFrom place).distance = place.distance := rfl

@[simp] theorem readFrom_offset (w place : BitRef) : (w.readFrom place).offset = place.offset := rfl

@[simp] theorem readFrom_bits (w place : BitRef) : (w.readFrom place).bits = w.bits := rfl

theorem readFrom_advance {w place place' : BitRef} {n : Nat}
    (h : place'.distance = place.distance + n) :
    (w.readFrom place).advance n = w.readFrom place' :=
  distance_ext rfl (by rw [advance_distance, readFrom_distance, readFrom_distance, h])

theorem HasRoom.readFrom {w w' : BitRef} {n : Nat} (h : w.HasRoom n) (hext : w.Extends w') :
    (w'.readFrom w).HasRoom n := by
  have hlen := hext.length_eq
  unfold HasRoom at *
  rw [readFrom_distance]
  show _ ≤ 8 * w'.buf.length
  omega

/-- A number of up to 39 bits is read as it was written, but for what is behind 32 bits. -/
theorem Written.runs_unpack {w w₁ w' : BitRef} {val n width : Nat} (h : w.Written w₁ val n)
    (hext : w₁.Extends w') (hroom : w.HasRoom n) (hwidth : n ≤ width)
    (hshift : n + w.offset ≤ 39) :
    (unpack width n).Runs (w'.readFrom w) (val % 2 ^ n % 2 ^ 32) (w'.readFrom w₁) := by
  have hread := @BitRef.runs_unpack width n (w'.readFrom w) hwidth
    (hroom.readFrom (h.toExtends.trans hext)) hshift
  rw [readFrom_advance h.distance_eq, readFrom_bits, readFrom_distance,
    hext.field_eq (Nat.le_of_eq h.distance_eq.symm), h.value] at hread
  exact hread

theorem Written.runs_unpackFlag {w w₁ w' : BitRef} {flag : Bool}
    (h : w.Written w₁ (if flag then 1 else 0) 1) (hext : w₁.Extends w') (hroom : w.HasRoom 1) :
    unpackFlag.Runs (w'.readFrom w) flag (w'.readFrom w₁) := by
  have hread := @BitRef.runs_unpackFlag (w'.readFrom w)
    (hroom.readFrom (h.toExtends.trans hext))
  have hvalue := (hext.field_eq (Nat.le_of_eq h.distance_eq.symm)).trans h.value
  rw [field_succ, field_zero, Nat.add_zero] at hvalue
  rw [readFrom_advance h.distance_eq, readFrom_bits, readFrom_distance] at hread
  have hflag : w'.bits w.distance = flag := by
    cases flag <;> cases hbit : w'.bits w.distance <;> rw [hbit] at hvalue
      <;> first | rfl | exact absurd hvalue (by decide)
  rw [hflag] at hread
  exact hread

theorem readFrom_runs_alignBytes {w w₁ w' : BitRef} (hdist : w₁.distance = alignUp w.distance)
    (hext : w.Extends w') (hroom : w.HasRoom 1 ∨ w.offset = 0) :
    alignBytes.Runs (w'.readFrom w) () (w'.readFrom w₁) := by
  have hread := @runs_alignBytes (w'.readFrom w) (hroom.imp (fun h => h.readFrom hext) id)
  rw [readFrom_distance, readFrom_advance (show w₁.distance = _ by
    rw [hdist]; unfold alignUp; omega)] at hread
  exact hread

end Odss.Asn1.BitRef
