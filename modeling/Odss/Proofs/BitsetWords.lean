import Odss.Mac.BitsetWords
import Mathlib.Data.List.GetD

/-!
# `Odss.Proofs.BitsetWords`: the words of a bitset are a list of bits

`Built` are the bitsets that calls make, with the lists that the same calls make, and `Agrees` is
what the observers say of them. `raw` is the bit at an index over all words. The bits of a bitset
are those of the list, in one of two orders, and no others (`Refines`).

The position that `find_lowest` returns is an `int`, so the capacity is bounded.
-/

set_option linter.all false

namespace Odss.Mac

namespace WordBitset

variable {capacity : Nat} {reversed : Bool}

/-! ### What is meant -/

/-- The bitsets that calls make, with their lists. -/
inductive Built : WordBitset capacity reversed → List Bool → Prop where
  | empty : Built empty []
  | resize {b c n} (h : Built b []) (hc : b.resize n = some c) :
    Built c (List.replicate n false)
  | set {b c l pos val} (h : Built b l) (hc : b.set pos val = some c) : Built c (l.set pos val)
  | reset {b l} (h : Built b l) : Built b.reset (l.map fun _ => false)
  | fill {b c l startpos endpos val} (h : Built b l) (hc : b.fill startpos endpos val = some c) :
    Built c (l.mapIdx fun i x => if startpos ≤ i ∧ i < endpos then val else x)
  | flip {b l} (h : Built b l) : Built b.flip (l.map not)
  | orAssign {b b' c l m} (h : Built b l) (h' : Built b' m) (hc : b.orAssign b' = some c) :
    Built c (List.zipWith or l m)
  | andAssign {b b' c l m} (h : Built b l) (h' : Built b' m) (hc : b.andAssign b' = some c) :
    Built c (List.zipWith and l m)

/-- The smallest position in a range that holds a value. -/
def lowest (l : List Bool) (start stop : Nat) (value : Bool) : Option Nat :=
  (List.range' start (stop - start)).find? fun i => l[i]? == some value

/-- The bit at an index over all words. -/
def raw (b : WordBitset capacity reversed) (i : Nat) : Bool := (b.buffer (i / 64)).getLsbD (i % 64)

/-- The observers say of a bitset what they say of a list. -/
structure Agrees (b : WordBitset capacity reversed) (l : List Bool) : Prop where
  test : ∀ pos, b.test pos = l[pos]?
  count : b.count = l.count true
  any : b.any = l.any id
  anyIn : ∀ start stop, b.anyIn start stop =
    if start ≤ l.length ∧ stop ≤ l.length then
      some ((List.range' start (stop - start)).any fun i => l[i]? == some true)
    else Option.none
  all : b.all = l.all id
  none : b.none = !l.any id
  eq : ∀ (c : WordBitset capacity reversed) m, Built c m → b.eq c = decide (l = m)
  findLowest : ∀ start stop value, b.findLowest start stop value =
    if start ≤ stop ∧ stop ≤ l.length then
      some (((lowest l start stop value).map Nat.cast).getD (-1))
    else Option.none
  unused : ∀ i, b.size ≤ i → b.raw i = false

/-- Every bitset that calls make agrees with its list. -/
def RefinesLists (capacity : Nat) (reversed : Bool) : Prop :=
  ∀ (b : WordBitset capacity reversed) l, Built b l → Agrees b l

/-! ### Words -/

theorem getLsbD_maskbit (pos : Nat) {j : Nat} (hj : j < 64) :
    (maskbit pos).getLsbD j = decide (j = pos % 64) := by
  rw [maskbit, BitVec.getLsbD_shiftLeft, BitVec.getLsbD_one]
  simp only [hj, decide_true, Bool.true_and]
  by_cases h : j = pos % 64
  · simp [h]
  · rw [decide_eq_false h]
    by_cases hlt : j < pos % 64
    · simp [hlt]
    · simp [hlt]
      omega

theorem getLsbD_maskLsbOnes {n j : Nat} (hn : n ≤ 64) (hj : j < 64) :
    (maskLsbOnes n).getLsbD j = decide (j < n) := by
  unfold maskLsbOnes maskMsbZeros
  split
  · rw [BitVec.getLsbD_allOnes]
    exact decide_eq_decide.mpr (by omega)
  · split
    · rw [BitVec.getLsbD_zero, decide_eq_false (by omega)]
    · rw [BitVec.getLsbD_ushiftRight, BitVec.getLsbD_allOnes]
      exact decide_eq_decide.mpr (by omega)

theorem word_ne_zero {w : Word} : (w != 0#64) = true ↔ ∃ j < 64, w.getLsbD j = true := by
  rw [bne_iff_ne]
  constructor
  · intro h
    by_contra hno
    refine h (BitVec.eq_of_getLsbD_eq fun j hj => ?_)
    rw [BitVec.getLsbD_zero]
    exact Bool.eq_false_iff.mpr fun hbit => hno ⟨j, hj, hbit⟩
  · rintro ⟨j, -, hj⟩ rfl
    rw [BitVec.getLsbD_zero] at hj
    exact absurd hj (by decide)

/-- The lowest bit of an even number is that of its half. -/
theorem countWord_double (k : Nat) : countWord (2 * k) = countWord k := by
  induction k using Nat.strongRecOn with
  | ind k ih =>
    rw [countWord.eq_1 (2 * k), countWord.eq_1 k]
    by_cases hk : k = 0
    · simp [hk]
    · have hand : 2 * k &&& (2 * k - 1) = 2 * (k &&& (k - 1)) := by
        refine Nat.eq_of_testBit_eq fun i => ?_
        cases i with
        | zero => simp
        | succ i =>
          have hhalf : (2 * k - 1) / 2 = k - 1 := by omega
          rw [Nat.testBit_and, Nat.testBit_succ, Nat.testBit_succ, Nat.testBit_succ, hhalf,
            Nat.mul_div_cancel_left _ (by decide), Nat.mul_div_cancel_left _ (by decide),
            Nat.testBit_and]
      have hle : k &&& (k - 1) ≤ k - 1 := Nat.and_le_right
      rw [dif_neg (by omega), dif_neg hk, hand, ih _ (by omega)]

/-- The loop of `count` counts the bits. -/
theorem countWord_eq (n : Nat) : ∀ w < 2 ^ n, countWord w = (List.range n).countP w.testBit := by
  induction n with
  | zero =>
    intro w hw
    rw [countWord, dif_pos (by omega)]
    rfl
  | succ n ih =>
    intro w hw
    have hhalf := ih (w / 2) (by omega)
    have htail : ((List.range n).map Nat.succ).countP w.testBit =
        (List.range n).countP (w / 2).testBit := by
      rw [List.countP_map]
      exact List.countP_congr fun i _ => by rw [Function.comp_apply, Nat.testBit_succ]
    rw [List.range_succ_eq_map, List.countP_cons, htail, ← hhalf, Nat.testBit_zero]
    rcases Nat.even_or_odd' w with ⟨k, rfl | rfl⟩
    · rw [countWord_double, Nat.mul_div_cancel_left _ (by decide)]
      simp
    · have hand : 2 * k + 1 &&& 2 * k = 2 * k := by
        refine Nat.eq_of_testBit_eq fun i => ?_
        cases i with
        | zero => simp
        | succ i =>
          have hsame : (2 * k + 1) / 2 = 2 * k / 2 := by omega
          rw [Nat.testBit_and, Nat.testBit_succ, Nat.testBit_succ, hsame, Bool.and_self]
      have hk : (2 * k + 1) / 2 = k := by omega
      rw [countWord, dif_neg (by omega), Nat.add_sub_cancel, hand, countWord_double, hk]
      simp

/-! ### Bits over all words -/

variable {b c : WordBitset capacity reversed} {l m : List Bool}

theorem size_words (b : WordBitset capacity reversed) :
    b.size ≤ 64 * b.nofWords ∧ 64 * b.nofWords < b.size + 64 := by
  unfold nofWords
  split <;> omega

theorem raw_word (b : WordBitset capacity reversed) (w : Nat) {j : Nat} (hj : j < 64) :
    b.raw (64 * w + j) = (b.buffer w).getLsbD j := by
  rw [raw, Nat.mul_add_div (by decide), Nat.div_eq_of_lt hj, Nat.add_zero, Nat.mul_add_mod,
    Nat.mod_eq_of_lt hj]

theorem raw_mapWords (n : Nat) (f : Nat → Word) (i : Nat) :
    (b.mapWords n f).raw i = if i < 64 * n then (f (i / 64)).getLsbD (i % 64) else b.raw i := by
  unfold raw mapWords
  dsimp only
  by_cases h : i < 64 * n
  · rw [if_pos h, if_pos (by omega)]
  · rw [if_neg h, if_neg (by omega)]

theorem raw_put (pos : Nat) (val : Bool) (i : Nat) :
    (b.put_ pos val).raw i = if i = b.getBitidx pos then val else b.raw i := by
  unfold raw put_ setWord
  dsimp only
  generalize b.getBitidx pos = k
  have hi := Nat.mod_lt i (by decide : 0 < 64)
  by_cases hword : i / 64 = k / 64
  · have hmask := getLsbD_maskbit k hi
    rw [if_pos hword, hword]
    have heq : i = k ↔ i % 64 = k % 64 := by omega
    cases val
    · simp only [Bool.false_eq_true, if_false, BitVec.getLsbD_and, BitVec.getLsbD_not, hmask, hi,
        heq]
      by_cases h : i % 64 = k % 64 <;> simp [h]
    · simp only [if_true, BitVec.getLsbD_or, hmask, heq]
      by_cases h : i % 64 = k % 64 <;> simp [h]
  · rw [if_neg hword, if_neg fun heq => hword (by rw [heq])]

/-- The bits behind the end are cleared in the last word. -/
theorem raw_sanitize (i : Nat) : b.sanitize.raw i =
    if i < 64 * b.nofWords then b.raw i && decide (i < b.size) else b.raw i := by
  have hwords := size_words b
  have hi := Nat.mod_lt i (by decide : 0 < 64)
  unfold raw sanitize setWord
  split
  · dsimp only
    by_cases hword : i / 64 = b.nofWords - 1
    · have hbit : decide (i % 64 < b.size % 64) = decide (i < b.size) :=
        decide_eq_decide.mpr (by omega)
      rw [if_pos hword, if_pos (by omega), hword, ← hbit]
      simp only [BitVec.getLsbD_and, BitVec.getLsbD_not, BitVec.getLsbD_shiftLeft, hi]
      by_cases hlt : i % 64 < b.size % 64 <;> simp [hlt]
      omega
    · rw [if_neg hword]
      by_cases hin : i < 64 * b.nofWords
      · rw [if_pos hin, decide_eq_true (by omega), Bool.and_true]
      · rw [if_neg hin]
  · by_cases hin : i < 64 * b.nofWords
    · rw [if_pos hin, decide_eq_true (by omega), Bool.and_true]
    · rw [if_neg hin]

/-! ### The bits are those of the list -/

/-- A bitset has the bits of its list, at their indices, and no others. -/
structure Refines (b : WordBitset capacity reversed) (l : List Bool) : Prop where
  size_eq : b.size = l.length
  size_le : b.size ≤ capacity
  bit : ∀ pos < l.length, b.raw (b.getBitidx pos) = l.getD pos false
  unused : ∀ i, l.length ≤ i → b.raw i = false

/-- The index of a position, and the position of an index. -/
theorem getBitidx_spec {pos : Nat} (h : pos < b.size) :
    b.getBitidx pos < b.size ∧ b.getBitidx (b.getBitidx pos) = pos := by
  unfold getBitidx
  cases reversed
  · exact ⟨h, rfl⟩
  · rw [if_pos rfl, if_pos rfl]
    omega

/-- The bit at an index is that of its position. -/
theorem Refines.raw_eq (h : Refines b l) {i : Nat} (hi : i < l.length) :
    b.raw i = l.getD (b.getBitidx i) false := by
  obtain ⟨hlt, hback⟩ := getBitidx_spec (b := b) (h.size_eq ▸ hi)
  rw [← h.bit _ (h.size_eq ▸ hlt), hback]

theorem getBitidx_congr (hsize : c.size = b.size) (pos : Nat) :
    c.getBitidx pos = b.getBitidx pos := by
  rw [getBitidx, getBitidx, hsize]

/-- One position is written. -/
theorem Refines.put (h : Refines b l) {pos : Nat} (hpos : pos < l.length) (val : Bool) :
    Refines (b.put_ pos val) (l.set pos val) := by
  have hspec := fun {q : Nat} (hq : q < l.length) => @getBitidx_spec _ _ b q (h.size_eq ▸ hq)
  refine ⟨h.size_eq.trans List.length_set.symm, h.size_le, fun q hq => ?_, fun i hi => ?_⟩
  · rw [List.length_set] at hq
    rw [raw_put, getBitidx_congr (c := b.put_ pos val) (b := b) rfl]
    by_cases heq : q = pos
    · rw [if_pos (by rw [heq]), heq]
      simp [hpos]
    · have hne : ¬ b.getBitidx q = b.getBitidx pos := fun hidx =>
        heq (by rw [← (hspec hq).2, hidx, (hspec hpos).2])
      rw [if_neg hne, h.bit q hq]
      simp [List.getD_eq_getElem?_getD, List.getElem?_set_ne (Ne.symm heq)]
  · rw [List.length_set] at hi
    have hidx := (hspec hpos).1
    rw [raw_put, if_neg (by have := h.size_eq; omega), h.unused i hi]

/-- The loop of `fill`. -/
theorem Refines.fill (val : Bool) (ps : List Nat) : ∀ {b : WordBitset capacity reversed}
    {l : List Bool}, Refines b l → (∀ p ∈ ps, p < l.length) →
      Refines (ps.foldl (fun b i => b.put_ i val) b)
        (l.mapIdx fun i x => if i ∈ ps then val else x) := by
  induction ps with
  | nil =>
    intro b l h _
    have hsame : l.mapIdx (fun i x => if i ∈ [] then val else x) = l :=
      List.ext_getElem (by simp) (by simp)
    rwa [hsame]
  | cons p ps ih =>
    intro b l h hps
    have hp := hps p List.mem_cons_self
    have hput := ih (h.put hp val) fun q hq => by
      rw [List.length_set]
      exact hps q (List.mem_cons_of_mem p hq)
    have hlist : (l.set p val).mapIdx (fun i x => if i ∈ ps then val else x) =
        l.mapIdx fun i x => if i ∈ p :: ps then val else x := by
      refine List.ext_getElem (by simp) fun i hi hi' => ?_
      simp only [List.getElem_mapIdx, List.getElem_set, List.mem_cons]
      by_cases hip : p = i <;> by_cases hmem : i ∈ ps <;> simp [hip, hmem, Ne.symm]
    rwa [hlist] at hput

/-- Words that are combined bit by bit. -/
theorem Refines.words {f : Nat → Word} {g : Bool → Bool → Bool} (h : Refines b l) (h' : Refines c m)
    (hlen : m.length = l.length) (hff : g false false = false)
    (hf : ∀ i, (f (i / 64)).getLsbD (i % 64) = g (b.raw i) (c.raw i)) :
    Refines (b.mapWords b.nofWords f) (List.zipWith g l m) := by
  have hwords := size_words b
  have hraw : ∀ i, (b.mapWords b.nofWords f).raw i = g (b.raw i) (c.raw i) := by
    intro i
    rw [raw_mapWords, hf]
    split
    · rfl
    · rw [h.unused i (by have := h.size_eq; omega), h'.unused i (by have := h.size_eq; omega), hff]
  have hzip : (List.zipWith g l m).length = l.length := by
    rw [List.length_zipWith, hlen, Nat.min_self]
  refine ⟨h.size_eq.trans hzip.symm, h.size_le, fun pos hpos => ?_, fun i hi => ?_⟩
  · rw [hzip] at hpos
    have hidx : c.getBitidx pos = b.getBitidx pos :=
      getBitidx_congr (h'.size_eq.trans (hlen.trans h.size_eq.symm)) pos
    rw [getBitidx_congr (c := b.mapWords b.nofWords f) (b := b) rfl, hraw, h.bit pos hpos, ← hidx,
      h'.bit pos (hlen ▸ hpos)]
    simp [List.getD_eq_getElem?_getD, hpos, hlen]
  · rw [hzip] at hi
    rw [hraw, h.unused i hi, h'.unused i (hlen ▸ hi), hff]

/-- `flip` clears what it has set behind the end. -/
theorem Refines.flip (h : Refines b l) : Refines b.flip (l.map not) := by
  have hwords := size_words b
  have hraw : ∀ i, b.flip.raw i = (decide (i < b.size) && !b.raw i) := by
    intro i
    have hi := Nat.mod_lt i (by decide : 0 < 64)
    have hsize : (b.mapWords b.nofWords fun i => ~~~ b.buffer i).nofWords = b.nofWords := rfl
    rw [WordBitset.flip, raw_sanitize, raw_mapWords, hsize, BitVec.getLsbD_not, decide_eq_true hi]
    split
    · exact Bool.and_comm _ _
    · rw [h.unused i (by have := h.size_eq; omega), decide_eq_false (by omega)]
      rfl
  have hkeep : b.flip.size = b.size := by
    unfold WordBitset.flip sanitize
    split <;> rfl
  refine ⟨hkeep.trans (h.size_eq.trans (List.length_map _).symm), hkeep ▸ h.size_le,
    fun pos hpos => ?_, fun i hi => ?_⟩
  · rw [List.length_map] at hpos
    have hlt := (getBitidx_spec (b := b) (h.size_eq ▸ hpos)).1
    rw [getBitidx_congr hkeep, hraw, h.bit pos hpos, decide_eq_true hlt]
    simp [List.getD_eq_getElem?_getD, hpos]
  · rw [List.length_map, ← h.size_eq] at hi
    rw [hraw, decide_eq_false (Nat.not_lt.mpr hi), Bool.false_and]

/-- A bitset without bits. -/
theorem refines_zero (hle : b.size ≤ capacity) (hraw : ∀ i, b.raw i = false) :
    Refines b (List.replicate b.size false) := by
  refine ⟨List.length_replicate.symm, hle, fun pos hpos => ?_, fun i _ => hraw i⟩
  rw [hraw, List.getD_replicate]
  rwa [List.length_replicate] at hpos

/-- A bitset that is resized from empty has no bits. -/
theorem Refines.resize {n : Nat} (h : Refines b []) (hc : b.resize n = some c) :
    Refines c (List.replicate n false) := by
  have hzero : ∀ i, b.raw i = false := fun i => h.unused i (Nat.zero_le _)
  unfold WordBitset.resize at hc
  split at hc
  · rename_i hle
    split at hc
    · rename_i heq
      obtain rfl := Option.some.inj hc
      exact heq ▸ refines_zero h.size_le hzero
    · have hsize : (sanitize (⟨b.buffer, n⟩ : WordBitset capacity reversed)).size = n := by
        unfold sanitize
        split <;> rfl
      have hclean : ∀ i, (sanitize (⟨b.buffer, n⟩ : WordBitset capacity reversed)).raw i =
          false := by
        intro i
        have hsame : (⟨b.buffer, n⟩ : WordBitset capacity reversed).raw i = false := hzero i
        rw [raw_sanitize, hsame]
        split <;> rfl
      generalize sanitize (⟨b.buffer, n⟩ : WordBitset capacity reversed) = d at hc hsize hclean
      obtain rfl := Option.some.inj hc
      subst hsize
      refine refines_zero hle fun i => ?_
      have hi := hclean i
      unfold raw at hi ⊢
      dsimp only
      split
      · exact BitVec.getLsbD_zero
      · exact hi
  · exact absurd hc (by simp)

/-- The bitsets that calls make have the bits of their lists. -/
theorem Built.refines (h : Built b l) : Refines b l := by
  induction h with
  | empty =>
    exact ⟨rfl, Nat.zero_le _, fun pos hpos => absurd hpos (Nat.not_lt_zero _),
      fun i _ => BitVec.getLsbD_zero⟩
  | resize _ hc ih => exact ih.resize hc
  | set _ hc ih =>
    unfold WordBitset.set at hc
    split at hc
    · rename_i hpos
      exact Option.some.inj hc ▸ ih.put (ih.size_eq ▸ hpos) _
    · exact absurd hc (by simp)
  | @reset b l _ ih =>
    have hzip : List.zipWith (fun _ _ => false) l l = l.map fun _ => false := by simp
    exact hzip ▸ ih.words ih rfl rfl fun i => BitVec.getLsbD_zero
  | @fill b c l startpos endpos val _ hc ih =>
    unfold WordBitset.fill at hc
    split at hc
    · rename_i hrange
      obtain rfl := Option.some.inj hc
      have hfill := ih.fill val (List.range' startpos (endpos - startpos)) fun p hp => by
        rw [List.mem_range'_1] at hp
        have := ih.size_eq
        omega
      have hmem : ∀ i, i ∈ List.range' startpos (endpos - startpos) ↔
          startpos ≤ i ∧ i < endpos := fun i => by
        rw [List.mem_range'_1]
        omega
      simpa only [hmem] using hfill
    · exact absurd hc (by simp)
  | flip _ ih => exact ih.flip
  | @orAssign b b' c l m _ _ hc ih ih' =>
    unfold WordBitset.orAssign at hc
    split at hc
    · rename_i hsize
      have hlen : m.length = l.length := by rw [← ih.size_eq, ← ih'.size_eq, hsize]
      exact Option.some.inj hc ▸ ih.words ih' hlen rfl fun i => BitVec.getLsbD_or
    · exact absurd hc (by simp)
  | @andAssign b b' c l m _ _ hc ih ih' =>
    unfold WordBitset.andAssign at hc
    split at hc
    · rename_i hsize
      have hlen : m.length = l.length := by rw [← ih.size_eq, ← ih'.size_eq, hsize]
      exact Option.some.inj hc ▸ ih.words ih' hlen rfl fun i => BitVec.getLsbD_and
    · exact absurd hc (by simp)

/-! ### What the observers say -/

theorem test_eq (b : WordBitset capacity reversed) (pos : Nat) :
    b.test_ pos = b.raw (b.getBitidx pos) := by
  have hi := Nat.mod_lt (b.getBitidx pos) (by decide : 0 < 64)
  rw [test_, raw, Bool.eq_iff_iff, decide_eq_true_iff, ← bne_iff_ne, word_ne_zero]
  constructor
  · rintro ⟨j, hj, hbit⟩
    rw [BitVec.getLsbD_and, getLsbD_maskbit _ hj, Bool.and_eq_true, decide_eq_true_iff] at hbit
    exact hbit.2 ▸ hbit.1
  · intro hbit
    refine ⟨_, hi, ?_⟩
    rw [BitVec.getLsbD_and, getLsbD_maskbit _ hi, hbit, decide_eq_true rfl]
    rfl

/-- A bit of the list. -/
theorem Refines.get (h : Refines b l) {pos : Nat} (hpos : pos < l.length) :
    l[pos] = b.raw (b.getBitidx pos) := by
  rw [h.bit pos hpos, List.getD_eq_getElem _ _ hpos]

/-- The bits that are set, at their indices. -/
theorem Refines.any_iff (h : Refines b l) : l.any id = true ↔ ∃ i, b.raw i = true := by
  rw [List.any_eq_true]
  constructor
  · rintro ⟨x, hx, htrue⟩
    obtain ⟨pos, hpos, rfl⟩ := List.mem_iff_getElem.mp hx
    exact ⟨_, (h.get hpos).symm.trans htrue⟩
  · rintro ⟨i, hi⟩
    by_cases hlt : i < l.length
    · have hidx := (getBitidx_spec (b := b) (h.size_eq ▸ hlt)).1
      rw [h.size_eq] at hidx
      refine ⟨l[b.getBitidx i], List.getElem_mem hidx, ?_⟩
      rw [← List.getD_eq_getElem _ false hidx, ← h.raw_eq hlt]
      exact hi
    · rw [h.unused i (Nat.le_of_not_lt hlt)] at hi
      exact absurd hi (by decide)

theorem Refines.any_eq (h : Refines b l) : b.any = l.any id := by
  have hwords := size_words b
  rw [Bool.eq_iff_iff, h.any_iff, WordBitset.any, List.any_eq_true]
  constructor
  · rintro ⟨w, -, hw⟩
    obtain ⟨j, hj, hbit⟩ := word_ne_zero.mp hw
    exact ⟨64 * w + j, (raw_word b w hj).trans hbit⟩
  · rintro ⟨i, hi⟩
    have hlt : i < l.length := by
      by_contra hno
      rw [h.unused i (Nat.le_of_not_lt hno)] at hi
      exact absurd hi (by decide)
    have hsize := h.size_eq
    exact ⟨i / 64, List.mem_range.mpr (by omega),
      word_ne_zero.mpr ⟨i % 64, Nat.mod_lt _ (by decide), hi⟩⟩

/-- Words that agree with the bits of a predicate. -/
theorem words_eq_iff {n : Nat} {f : Nat → Word} :
    (∀ w < n, b.buffer w = f w) ↔ ∀ i < 64 * n, b.raw i = (f (i / 64)).getLsbD (i % 64) := by
  constructor
  · intro h i hi
    rw [raw, h (i / 64) (by omega)]
  · intro h w hw
    refine BitVec.eq_of_getLsbD_eq fun j hj => ?_
    have hbit := h (64 * w + j) (by omega)
    rwa [raw_word b w hj, Nat.mul_add_div (by decide), Nat.div_eq_of_lt hj, Nat.add_zero,
      Nat.mul_add_mod, Nat.mod_eq_of_lt hj] at hbit

/-- Two bitsets of one size with the same words have the same list. -/
theorem Refines.eq_iff (h : Refines b l) (h' : Refines c m) : b.eq c = decide (l = m) := by
  have hwords := size_words b
  have hsize := h.size_eq
  have hsize' := h'.size_eq
  rw [Bool.eq_iff_iff, decide_eq_true_iff, WordBitset.eq, Bool.and_eq_true, beq_iff_eq,
    List.all_eq_true]
  constructor
  · rintro ⟨heq, hall⟩
    have hraw := words_eq_iff.mp fun w hw => beq_iff_eq.mp (hall w (List.mem_range.mpr hw))
    refine List.ext_getElem (by omega) fun pos hpos hpos' => ?_
    have hidx := (getBitidx_spec (b := b) (hsize ▸ hpos)).1
    rw [h.get hpos, h'.get hpos', getBitidx_congr heq.symm]
    exact hraw _ (by omega)
  · rintro rfl
    refine ⟨by omega, fun w hw => beq_iff_eq.mpr ?_⟩
    refine (words_eq_iff (b := b) (f := c.buffer)).mpr (fun i _ => ?_) w (List.mem_range.mp hw)
    by_cases hi : i < l.length
    · rw [h.raw_eq hi, ← raw, h'.raw_eq hi, getBitidx_congr (hsize.trans hsize'.symm)]
    · rw [h.unused i (Nat.le_of_not_lt hi), ← raw, h'.unused i (Nat.le_of_not_lt hi)]

theorem Refines.all_eq (h : Refines b l) : b.all = l.all id := by
  have hwords := size_words b
  have hsize := h.size_eq
  have hlist : l.all id = true ↔ ∀ i < b.size, b.raw i = true := by
    rw [List.all_eq_true]
    constructor
    · intro hall i hi
      have hidx := (getBitidx_spec hi).1
      rw [h.raw_eq (hsize ▸ hi), List.getD_eq_getElem _ _ (hsize ▸ hidx)]
      exact hall _ (List.getElem_mem _)
    · intro hall x hx
      obtain ⟨pos, hpos, rfl⟩ := List.mem_iff_getElem.mp hx
      rw [h.get hpos]
      exact hall _ (getBitidx_spec (hsize ▸ hpos)).1
  let full : Nat → Word := fun w =>
    ~~~ 0#64 >>> (if w = b.nofWords - 1 then b.nofWords * 64 - b.size else 0)
  have hlast : full (b.nofWords - 1) = ~~~ 0#64 >>> (b.nofWords * 64 - b.size) := by
    simp only [full, if_pos]
  have hfront : ∀ w, w ≠ b.nofWords - 1 → full w = ~~~ 0#64 := by
    intro w hw
    simp only [full, if_neg hw, BitVec.ushiftRight_zero]
  have hbit : ∀ i < 64 * b.nofWords, (full (i / 64)).getLsbD (i % 64) = decide (i < b.size) := by
    intro i hi
    have hlt := Nat.mod_lt i (by decide : 0 < 64)
    rw [BitVec.getLsbD_ushiftRight, BitVec.getLsbD_not, BitVec.getLsbD_zero, Bool.not_false,
      Bool.and_true]
    refine decide_eq_decide.mpr ?_
    split <;> omega
  have hwords' : b.all = true ↔ ∀ w < b.nofWords, b.buffer w = full w := by
    rw [WordBitset.all]
    by_cases hzero : b.nofWords = 0
    · simp [hzero]
    · rw [if_neg hzero, Bool.and_eq_true, beq_iff_eq, List.all_eq_true]
      constructor
      · rintro ⟨hones, hend⟩ w hw
        by_cases heq : w = b.nofWords - 1
        · rw [heq, hend, hlast]
        · rw [beq_iff_eq.mp (hones w (List.mem_range.mpr (by omega))), hfront w heq]
      · refine fun hall => ⟨fun w hw => ?_, (hall _ (by omega)).trans hlast⟩
        have hlt := List.mem_range.mp hw
        rw [beq_iff_eq, hall w (by omega), hfront w (by omega)]
  rw [Bool.eq_iff_iff, hlist, hwords', words_eq_iff]
  constructor
  · intro hall i hi
    rw [hall i (by omega), hbit i (by omega), decide_eq_true hi]
  · intro hall i hi
    rw [hbit i hi]
    by_cases hlt : i < b.size
    · rw [hall i hlt, decide_eq_true hlt]
    · rw [h.unused i (by omega), decide_eq_false hlt]

/-- The bits of the first words, word by word. -/
theorem countP_words (f : Nat → Bool) (n : Nat) : (List.range (64 * n)).countP f =
    ((List.range n).map fun w => (List.range 64).countP fun j => f (64 * w + j)).sum := by
  induction n with
  | zero => rfl
  | succ n ih =>
    rw [Nat.mul_succ, List.range_add, List.countP_append, ih, @List.range_succ n, List.map_append,
      List.sum_append, List.countP_map]
    rfl

theorem Refines.count_eq (h : Refines b l) : b.count = l.count true := by
  have hwords := size_words b
  have hsize := h.size_eq
  have hword : ∀ w, countWord (b.buffer w).toNat =
      (List.range 64).countP fun j => b.raw (64 * w + j) := by
    intro w
    rw [countWord_eq 64 _ (b.buffer w).isLt]
    refine List.countP_congr fun j hj => ?_
    rw [raw_word b w (List.mem_range.mp hj)]
    rfl
  -- The bits behind the end are not set.
  have hcut : (List.range (64 * b.nofWords)).countP b.raw = (List.range b.size).countP b.raw := by
    obtain ⟨k, hk⟩ := Nat.exists_eq_add_of_le hwords.1
    rw [hk, List.range_add, List.countP_append, List.countP_map, Nat.add_eq_left,
      List.countP_eq_zero]
    intro i _
    rw [Function.comp_apply, h.unused _ (by omega)]
    decide
  have hlist : l = (List.range b.size).map fun pos => b.raw (b.getBitidx pos) := by
    refine List.ext_getElem (by simp [hsize]) fun pos hpos _ => ?_
    rw [h.get hpos, List.getElem_map, List.getElem_range]
  have horder : ((List.range b.size).map fun pos => b.getBitidx pos).countP b.raw =
      (List.range b.size).countP b.raw := by
    unfold getBitidx
    cases reversed
    · simp
    · have hrev := @List.reverse_range' 0 b.size
      simp only [Nat.zero_add, ← List.range_eq_range'] at hrev
      simp only [if_true]
      rw [← hrev, List.countP_reverse]
  rw [count, funext hword, ← countP_words, hcut, ← horder]
  conv_rhs => rw [hlist]
  rw [List.count_eq_countP, List.countP_map, List.countP_map]
  exact List.countP_congr fun i _ => by simp

/-! ### The search -/

/-- The bits of a word that are looked at. -/
theorem wanted_iff (value : Bool) {first last w j : Nat} (hw : first / 64 ≤ w ∧ w ≤ last / 64)
    (hj : j < 64) : (b.wanted value first last w).getLsbD j = true ↔
      b.raw (64 * w + j) = value ∧ first ≤ 64 * w + j ∧ 64 * w + j ≤ last := by
  have hvalue : (if value then b.buffer w else ~~~ b.buffer w).getLsbD j = true ↔
      b.raw (64 * w + j) = value := by
    rw [raw_word b w hj]
    cases value
    · rw [if_neg (by decide), BitVec.getLsbD_not, decide_eq_true hj]
      simp
    · rw [if_pos rfl]
  have hlow := getLsbD_maskLsbOnes (Nat.le_of_lt (Nat.mod_lt first (by decide : 0 < 64))) hj
  have hhigh := getLsbD_maskLsbOnes (Nat.succ_le_of_lt (Nat.mod_lt last (by decide : 0 < 64))) hj
  have hand : ∀ (p : Prop) [Decidable p] (x m : Word), (if p then x &&& m else x).getLsbD j = true ↔
      x.getLsbD j = true ∧ (p → m.getLsbD j = true) := by
    intro p _ x m
    split_ifs with hp <;> simp [hp]
  rw [wanted, hand, hand, hvalue, maskLsbZeros, BitVec.getLsbD_not, hlow, hhigh]
  simp only [hj, decide_true, Bool.true_and, Bool.not_eq_true', decide_eq_true_iff,
    decide_eq_false_iff_not]
  constructor
  · rintro ⟨⟨hx, hfirst⟩, hlast⟩
    exact ⟨hx, by omega, by omega⟩
  · rintro ⟨hx, hfirst, hlast⟩
    exact ⟨⟨hx, fun _ => by omega⟩, fun _ => by omega⟩

/-- A bit that is not left of its word does not have the value. -/
theorem not_found {value : Bool} {first last w i : Nat} (hin : first ≤ i ∧ i ≤ last)
    (hw : i / 64 = w) (hbit : (b.wanted value first last w).getLsbD (i % 64) = false) :
    (!(b.raw i == value)) = true := by
  subst hw
  rw [Bool.not_eq_true', beq_eq_false_iff_ne]
  intro heq
  have hword : first / 64 ≤ i / 64 ∧ i / 64 ≤ last / 64 :=
    ⟨Nat.div_le_div_right hin.1, Nat.div_le_div_right hin.2⟩
  have hone := (wanted_iff (b := b) value hword (Nat.mod_lt i (by decide))).mpr
    (by rw [Nat.div_add_mod]; exact ⟨heq, hin⟩)
  rw [hbit] at hone
  exact absurd hone (by decide)

/-- Nothing is left of a word that the loop passes. -/
theorem not_found_of_zero {value : Bool} {first last w i : Nat} (hin : first ≤ i ∧ i ≤ last)
    (hw : i / 64 = w) (hzero : (!(b.wanted value first last w != 0#64)) = true) :
    (!(b.raw i == value)) = true := by
  rw [Bool.not_eq_true', bne_eq_false_iff_eq] at hzero
  exact not_found hin hw (by rw [hzero, BitVec.getLsbD_zero])

/-- The loop of `find_first_` finds the lowest index. -/
theorem findFirst_eq {start stop : Nat} (h : start < stop) (value : Bool) :
    b.findFirst start stop value = (((List.range' start (stop - start)).find? fun i =>
      b.raw i == value).map toInt).getD (-1) := by
  unfold findFirst
  dsimp only
  cases hfind : List.find? _ (List.range' (start / 64) ((stop - 1) / 64 + 1 - start / 64)) with
  | none =>
    have hnone : (List.range' start (stop - start)).find? (fun i => b.raw i == value) =
        Option.none := by
      refine List.find?_range'_eq_none.mpr fun i hi hi' => ?_
      have hzero := List.find?_range'_eq_none.mp hfind (i / 64) (by omega) (by omega)
      exact not_found_of_zero ⟨hi, by omega⟩ rfl hzero
    rw [hnone, Option.map_none, Option.map_none]
  | some w =>
    obtain ⟨hne, hmem, hbefore⟩ := List.find?_range'_eq_some.mp hfind
    rw [List.mem_range'_1] at hmem
    have hw : start / 64 ≤ w ∧ w ≤ (stop - 1) / 64 := ⟨hmem.1, by omega⟩
    have hword : b.wanted value start (stop - 1) w ≠ 0#64 := bne_iff_ne.mp hne
    have hj : (b.wanted value start (stop - 1) w).ctz.toNat < 64 :=
      BitVec.lt_def.mp (BitVec.ctz_lt_iff_ne_zero.mpr hword)
    have hbit := BitVec.getLsbD_true_ctz_of_ne_zero hword
    have hlow := fun j => @BitVec.getLsbD_false_of_lt_ctz _ j (b.wanted value start (stop - 1) w)
    have hsome : (List.range' start (stop - start)).find? (fun i => b.raw i == value) =
        some (w * 64 + findFirstLsbOne (b.wanted value start (stop - 1) w)) := by
      unfold findFirstLsbOne
      generalize (b.wanted value start (stop - 1) w).ctz.toNat = j at hj hbit hlow
      obtain ⟨hval, hfirst, hlast⟩ := (wanted_iff value hw hj).mp hbit
      rw [Nat.mul_comm w]
      refine List.find?_range'_eq_some.mpr ⟨beq_iff_eq.mpr hval, ?_, fun i hi hi' => ?_⟩
      · rw [List.mem_range'_1]
        omega
      · by_cases hsame : i / 64 = w
        · exact not_found ⟨hi, by omega⟩ hsame (hlow (i % 64) (by omega))
        · exact not_found_of_zero ⟨hi, by omega⟩ rfl (hbefore (i / 64) (by omega) (by omega))
    rw [hsome, Option.map_some, Option.map_some]

/-- The loop of `find_first_reversed_` finds the highest index. -/
theorem findFirstReversed_eq {start stop : Nat} (h : start < stop) (hstop : stop ≤ b.size)
    (hrev : reversed = true) (value : Bool) :
    b.findFirstReversed start stop value = (((List.range' start (stop - start)).find? fun i =>
      b.raw (b.getBitidx i) == value).map toInt).getD (-1) := by
  have hidx : ∀ pos, b.getBitidx pos = b.size - 1 - pos := fun pos => by rw [getBitidx, if_pos hrev]
  unfold findFirstReversed
  simp only [hidx]
  generalize hfirst : b.size - 1 - (stop - 1) = first
  generalize hlast : b.size - 1 - start = last
  have hwords := @List.reverse_range' (first / 64) (last / 64 + 1 - first / 64)
  rw [List.range_eq_range'] at hwords
  rw [hwords, List.find?_map]
  have hcount : ∀ k < last / 64 + 1 - first / 64,
      first / 64 + (last / 64 + 1 - first / 64) - 1 - k = last / 64 - k := fun k hk => by omega
  cases hfind : List.find? _ (List.range' 0 (last / 64 + 1 - first / 64)) with
  | none =>
    have hnone : (List.range' start (stop - start)).find?
        (fun i => b.raw (b.size - 1 - i) == value) = Option.none := by
      refine List.find?_range'_eq_none.mpr fun i hi hi' => ?_
      have hzero := List.find?_range'_eq_none.mp hfind (last / 64 - (b.size - 1 - i) / 64)
        (by omega) (by omega)
      rw [Function.comp_apply, hcount _ (by omega)] at hzero
      exact not_found_of_zero ⟨by omega, by omega⟩ (by omega) hzero
    rw [hnone, Option.map_none, Option.map_none, Option.map_none]
  | some k =>
    obtain ⟨hne, hmem, hbefore⟩ := List.find?_range'_eq_some.mp hfind
    rw [List.mem_range'_1] at hmem
    rw [Function.comp_apply, hcount k (by omega)] at hne
    rw [Option.map_some, Option.map_some, hcount k (by omega)]
    generalize hw : last / 64 - k = w at hne
    have hw' : first / 64 ≤ w ∧ w ≤ last / 64 := ⟨by omega, by omega⟩
    have hword : b.wanted value first last w ≠ 0#64 := bne_iff_ne.mp hne
    have hbit := BitVec.getLsbD_true_clz_of_ne_zero (by decide) hword
    have hhigh : ∀ j, 63 - (b.wanted value first last w).clz.toNat < j → j < 64 →
        (b.wanted value first last w).getLsbD j = false := fun j hj hj' =>
      Nat.testBit_lt_two_pow (Nat.lt_of_lt_of_le BitVec.toNat_lt_two_pow_sub_clz
        (Nat.pow_le_pow_right (by decide) (by omega)))
    have hsome : (List.range' start (stop - start)).find?
        (fun i => b.raw (b.size - 1 - i) == value) =
        some (b.size - 1 - (findFirstMsbOne (b.wanted value first last w) + w * 64)) := by
      unfold findFirstMsbOne
      generalize (b.wanted value first last w).clz.toNat = z at hbit hhigh
      obtain ⟨hval, hle, hge⟩ := (wanted_iff value hw' (by omega)).mp hbit
      have hback : b.size - 1 - (b.size - 1 - (63 - z + w * 64)) = 64 * w + (64 - 1 - z) := by omega
      refine List.find?_range'_eq_some.mpr ⟨?_, ?_, fun i hi hi' => ?_⟩
      · rw [hback]
        exact beq_iff_eq.mpr hval
      · rw [List.mem_range'_1]
        omega
      · generalize hk' : b.size - 1 - i = i'
        by_cases hsame : i' / 64 = w
        · exact not_found ⟨by omega, by omega⟩ hsame (hhigh (i' % 64) (by omega) (by omega))
        · have hzero := hbefore (last / 64 - i' / 64) (by omega) (by omega)
          rw [Function.comp_apply, hcount _ (by omega)] at hzero
          exact not_found_of_zero ⟨by omega, by omega⟩ (by omega) hzero
    rw [hsome, Option.map_some]

/-- `find_lowest` finds the lowest position, as an `int`. -/
theorem Refines.findLowest_eq (h : Refines b l) {start stop : Nat} (hle : start ≤ stop)
    (hstop : stop ≤ l.length) (value : Bool) :
    b.findLowest start stop value = some (((lowest l start stop value).map toInt).getD (-1)) := by
  have hsize := h.size_eq
  rw [findLowest, if_pos ⟨hle, hsize ▸ hstop⟩]
  have hlist : lowest l start stop value = (List.range' start (stop - start)).find? fun i =>
      b.raw (b.getBitidx i) == value := by
    refine List.find?_congr fun i hi => ?_
    rw [List.mem_range'_1] at hi
    rw [List.getElem?_eq_getElem (by omega), h.get (by omega)]
    rfl
  rw [hlist]
  by_cases heq : start = stop
  · rw [if_pos heq, heq, Nat.sub_self]
    rfl
  · have hlt : start < stop := by omega
    rw [if_neg heq]
    cases reversed with
    | false =>
      rw [if_pos (by decide), findFirst_eq hlt]
      rfl
    | true => rw [if_neg (by decide), findFirstReversed_eq hlt (hsize ▸ hstop) rfl]

/-! ### Agreement -/

/-- The observers agree with the list while positions fit in an `int`. -/
theorem refinesLists_of_le (reversed : Bool) {capacity : Nat} (hcapacity : capacity ≤ 2 ^ 31) :
    RefinesLists capacity reversed := by
  intro b l hbuilt
  have h := hbuilt.refines
  have hsize := h.size_eq
  refine ⟨fun pos => ?_, h.count_eq, h.any_eq, fun start stop => ?_, h.all_eq,
    congrArg not h.any_eq, fun c m hc => h.eq_iff hc.refines, fun start stop value => ?_,
    fun i hi => h.unused i (hsize ▸ hi)⟩
  · unfold WordBitset.test
    split
    · rename_i hpos
      rw [List.getElem?_eq_getElem (hsize ▸ hpos), h.get (hsize ▸ hpos), test_eq]
    · rw [List.getElem?_eq_none (by omega)]
  · unfold anyIn
    rw [hsize]
    split
    · rename_i hrange
      refine congrArg some ?_
      rw [Bool.eq_iff_iff, List.any_eq_true, List.any_eq_true]
      refine exists_congr fun i => and_congr_right fun hi => ?_
      rw [List.mem_range'_1] at hi
      rw [List.getElem?_eq_getElem (by omega), h.get (by omega), test_eq]
      simp
    · rfl
  · by_cases hrange : start ≤ stop ∧ stop ≤ l.length
    · have hsame : (lowest l start stop value).map toInt =
          (lowest l start stop value).map Nat.cast := by
        refine Option.map_congr fun i hi => ?_
        obtain ⟨-, hmem, -⟩ := List.find?_range'_eq_some.mp hi
        rw [List.mem_range'_1] at hmem
        have hle := h.size_le
        exact Int.bmod_eq_of_le (by omega) (by omega)
      rw [if_pos hrange, h.findLowest_eq hrange.1 hrange.2, hsame]
    · rw [if_neg hrange, findLowest, hsize, if_neg hrange]

/-- A bitset with its last bit only. -/
theorem exists_last (n : Nat) (reversed : Bool) :
    ∃ (b : WordBitset (n + 1) reversed) (l : List Bool), Built b l ∧ l.length = n + 1 ∧
      lowest l 0 (n + 1) true = some n := by
  obtain ⟨b, hb⟩ : ∃ b, (empty : WordBitset (n + 1) reversed).resize (n + 1) = some b := by
    rw [WordBitset.resize, if_pos (Nat.le_refl _)]
    exact ⟨_, if_neg (Nat.succ_ne_zero n)⟩
  have hresized := Built.empty.resize hb
  have hsize := hresized.refines.size_eq
  rw [List.length_replicate] at hsize
  have hset : b.set n true = some (b.put_ n true) := if_pos (by omega)
  refine ⟨_, _, hresized.set hset, by rw [List.length_set, List.length_replicate], ?_⟩
  refine List.find?_range'_eq_some.mpr ⟨?_, List.mem_range'_1.mpr (by omega), fun j _ hj => ?_⟩
  · rw [List.getElem?_set_self (by rw [List.length_replicate]; omega)]
    rfl
  · rw [List.getElem?_set_ne (by omega), List.getElem?_replicate, if_pos (by omega)]
    rfl

theorem toInt_lt (n : Nat) : toInt n < (2 ^ 31 : Nat) := by
  have hlt := @Int.bmod_lt n (2 ^ 32) (by decide)
  unfold toInt
  omega

/-- A last position of 32 bits is no `int`. -/
theorem not_refinesLists_of_lt (reversed : Bool) {capacity : Nat} (hcapacity : 2 ^ 31 < capacity) :
    ¬ RefinesLists capacity reversed := by
  intro hrefines
  obtain ⟨n, rfl⟩ := Nat.exists_eq_succ_of_ne_zero (Nat.ne_zero_of_lt hcapacity)
  obtain ⟨b, l, hbuilt, hlen, hlow⟩ := exists_last n reversed
  have hfound := (hrefines b l hbuilt).findLowest 0 l.length true
  rw [hbuilt.refines.findLowest_eq (Nat.zero_le _) (Nat.le_refl _),
    if_pos ⟨Nat.zero_le _, Nat.le_refl _⟩, hlen, hlow, Option.map_some, Option.map_some,
    Option.getD_some, Option.getD_some] at hfound
  have hlt := toInt_lt n
  rw [Option.some.inj hfound] at hlt
  exact absurd (Int.ofNat_lt.mp hlt) (Nat.not_lt.mpr (Nat.le_of_lt_succ hcapacity))

/-- The observers agree with the list exactly as long as every position is an `int`. -/
theorem refinesLists_iff (capacity : Nat) (reversed : Bool) :
    RefinesLists capacity reversed ↔ capacity ≤ 2 ^ 31 :=
  ⟨fun h => Nat.le_of_not_lt fun hlt => not_refinesLists_of_lt reversed hlt h,
    refinesLists_of_le reversed⟩

theorem not_refinesLists_large : ¬ RefinesLists (2 ^ 31 + 1) false :=
  not_refinesLists_of_lt false (by decide)

end WordBitset

end Odss.Mac
