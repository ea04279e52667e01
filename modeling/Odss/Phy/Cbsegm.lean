import Mathlib.Tactic

/-!
# `Odss.Phy.Cbsegm`: turbo code block segmentation

`srsran_cbsegm` cuts a transport block with its CRC into `C` code blocks, `C1` of the size `K1`
and `C2` of the next smaller size `K2`, with `F` filler bits. Every operation of the source is on
`uint32_t`; the model has no value for one that wraps around.

* `chain_tcCbSizes`: the sizes of the table increase in steps of at most 64.
* `twoSizes`: the division behind `C1`, `C2` and `F`, for any two sizes around the mean.
* `srsranCbsegm_conserves`: the segmentation succeeds, nothing wraps around, and no bit is lost.
-/

set_option linter.all false

namespace Odss.Phy

/-- `tc_cb_sizes` -/
def tcCbSizes : List Nat :=
  [40, 48, 56, 64, 72, 80, 88, 96, 104, 112, 120, 128, 136, 144, 152, 160, 168, 176, 184,
    192, 200, 208, 216, 224, 232, 240, 248, 256, 264, 272, 280, 288, 296, 304, 312, 320, 328, 336,
    344, 352, 360, 368, 376, 384, 392, 400, 408, 416, 424, 432, 440, 448, 456, 464, 472, 480, 488,
    496, 504, 512, 528, 544, 560, 576, 592, 608, 624, 640, 656, 672, 688, 704, 720, 736, 752, 768,
    784, 800, 816, 832, 848, 864, 880, 896, 912, 928, 944, 960, 976, 992, 1008, 1024, 1056, 1088,
    1120, 1152, 1184, 1216, 1248, 1280, 1312, 1344, 1376, 1408, 1440, 1472, 1504, 1536, 1568, 1600,
    1632, 1664, 1696, 1728, 1760, 1792, 1824, 1856, 1888, 1920, 1952, 1984, 2016, 2048, 2112, 2176,
    2240, 2304, 2368, 2432, 2496, 2560, 2624, 2688, 2752, 2816, 2880, 2944, 3008, 3072, 3136, 3200,
    3264, 3328, 3392, 3456, 3520, 3584, 3648, 3712, 3776, 3840, 3904, 3968, 4032, 4096, 4160, 4224,
    4288, 4352, 4416, 4480, 4544, 4608, 4672, 4736, 4800, 4864, 4928, 4992, 5056, 5120, 5184, 5248,
    5312, 5376, 5440, 5504, 5568, 5632, 5696, 5760, 5824, 5888, 5952, 6016, 6080, 6144]

/-- `srsran_cbsegm_t`, without the lifting size of LDPC -/
structure Cbsegm where
  f : Nat := 0
  c : Nat := 0
  k1 : Nat := 0
  k2 : Nat := 0
  k1Idx : Nat := 0
  k2Idx : Nat := 0
  c1 : Nat := 0
  c2 : Nat := 0
  tbs : Nat := 0
  lTb : Nat := 0
  lCb : Nat := 0
deriving DecidableEq, Repr

/-! ### Arithmetic that must not wrap around -/

/-- The sum of two `uint32_t`, if it is one. -/
def addU32 (a b : Nat) : Option Nat := if a + b < 2 ^ 32 then some (a + b) else none

/-- The product of two `uint32_t`, if it is one. -/
def mulU32 (a b : Nat) : Option Nat := if a * b < 2 ^ 32 then some (a * b) else none

/-- The difference of two `uint32_t`, if it is one. -/
def subU32 (a b : Nat) : Option Nat := if b ≤ a then some (a - b) else none

/-- The quotient of two `uint32_t`, if there is one. -/
def divU32 (a b : Nat) : Option Nat := if b = 0 then none else some (a / b)

theorem addU32_of_lt {a b : Nat} (h : a + b < 2 ^ 32) : addU32 a b = some (a + b) := if_pos h

theorem mulU32_of_lt {a b : Nat} (h : a * b < 2 ^ 32) : mulU32 a b = some (a * b) := if_pos h

theorem subU32_of_le {a b : Nat} (h : b ≤ a) : subU32 a b = some (a - b) := if_pos h

theorem divU32_of_pos {a b : Nat} (h : 0 < b) : divU32 a b = some (a / b) := if_neg (by omega)

/-! ### The segmentation -/

/-- `srsran_cbsegm_cbindex` -/
def srsranCbsegmCbindex (longCb : Nat) : Option Nat :=
  tcCbSizes.findIdx? fun size => ¬ size < longCb

/-- `srsran_cbsegm_cbsize` -/
def srsranCbsegmCbsize (index : Nat) : Option Nat := tcCbSizes[index]?

/-- `cbsegm_cb_size`, which gives `C` and `B'`. -/
def cbsegmCbSize (b z : Nat) : Option (Nat × Nat) :=
  if b ≤ z then some (1, b)
  else do
    let den ← subU32 z 24
    let num ← addU32 b (← subU32 den 1)
    let c ← divU32 num den
    let crc ← mulU32 24 c
    let bp ← addU32 b crc
    return (c, bp)

/-- The counts of `srsran_cbsegm`, for the sizes of the table it has found. -/
def cbsegmCounts (tbs c bp idx1 k1 prev : Nat) : Option Cbsegm :=
  if c = 1 then some { tbs, c, k1, k1Idx := idx1, k2 := 0, k2Idx := 0, c2 := 0, c1 := 1 }
  else do
    let k2Idx ← subU32 idx1 1
    let spare ← subU32 (← mulU32 c k1) bp
    let c2 ← divU32 spare (← subU32 k1 prev)
    let c1 ← subU32 c c2
    return { tbs, c, k1, k1Idx := idx1, k2 := prev, k2Idx, c2, c1 }

/-- The filler of `srsran_cbsegm`. -/
def cbsegmFiller (s : Cbsegm) (bp : Nat) : Option Cbsegm := do
  let room ← addU32 (← mulU32 s.c1 s.k1) (← mulU32 s.c2 s.k2)
  let f ← subU32 room bp
  return { s with lTb := 24, lCb := 24, f }

/-- `srsran_cbsegm`. There is no outer value if an operation wraps around, and no inner one if the
function returns `SRSRAN_ERROR`. -/
def srsranCbsegm (tbs : Nat) : Option (Option Cbsegm) :=
  if tbs = 0 then some (some {})
  else do
    let b ← addU32 tbs 24
    let (c, bp) ← cbsegmCbSize b 6144
    let longCb ← addU32 (← divU32 (← subU32 bp 1) c) 1
    match srsranCbsegmCbindex longCb with
    | none => return none
    | some idx1 =>
      match srsranCbsegmCbsize idx1 with
      | none => return none
      | some k1 =>
        match if 0 < idx1 then srsranCbsegmCbsize (idx1 - 1) else some k1 with
        | none => return none
        | some prev => return some (← cbsegmFiller (← cbsegmCounts tbs c bp idx1 k1 prev) bp)

/-- What a segmentation of `tbs` bits has to be. -/
structure Conserves (tbs : Nat) (s : Cbsegm) : Prop where
  blocks : s.c = s.c1 + s.c2
  one_le : 1 ≤ s.c1
  k1_size : srsranCbsegmCbsize s.k1Idx = some s.k1
  k2_size : 0 < s.c2 → s.k1Idx = s.k2Idx + 1 ∧ srsranCbsegmCbsize s.k2Idx = some s.k2
  bits : s.c1 * s.k1 + s.c2 * s.k2 = tbs + 24 + s.f + if 1 < s.c then 24 * s.c else 0
  filler_lt : s.f < s.k1 ∧ (0 < s.c2 → s.f < s.k2)
  filler_lt_gap : 1 < s.c → s.f < s.k1 - s.k2

/-! ### The table -/

/-- The sizes increase, in steps of at most 64. -/
theorem chain_tcCbSizes : tcCbSizes.IsChain (fun a b => a < b ∧ b ≤ a + 64) := by
  decide +kernel

/-- The first size that is not below `longCb`, with its predecessor. -/
theorem cbindex_spec {longCb : Nat} (h : longCb ≤ 6144) :
    ∃ idx k1, srsranCbsegmCbindex longCb = some idx ∧ srsranCbsegmCbsize idx = some k1 ∧
      longCb ≤ k1 ∧ k1 ≤ 6144 ∧
      (0 < idx → ∃ k2, srsranCbsegmCbsize (idx - 1) = some k2 ∧ k2 < longCb ∧ k2 < k1 ∧
        k1 ≤ k2 + 64) ∧
      (idx = 0 → k1 = 40) := by
  obtain ⟨idx, hidx⟩ : ∃ idx, srsranCbsegmCbindex longCb = some idx := by
    cases hidx : srsranCbsegmCbindex longCb with
    | some idx => exact ⟨idx, rfl⟩
    | none =>
      have hlast := List.findIdx?_eq_none_iff.mp hidx 6144 (by decide)
      exact absurd h (by simpa using hlast)
  obtain ⟨hlt, hfound, hbefore⟩ := List.findIdx?_eq_some_iff_getElem.mp hidx
  have hbound : ∀ size ∈ tcCbSizes, size ≤ 6144 := by decide +kernel
  refine ⟨idx, tcCbSizes[idx], hidx, List.getElem?_eq_getElem hlt, by simpa using hfound,
    hbound _ (List.getElem_mem hlt), fun hpos => ?_, fun hzero => by subst hzero; rfl⟩
  obtain ⟨i, rfl⟩ : ∃ i, idx = i + 1 := ⟨idx - 1, by omega⟩
  have hstep := List.isChain_iff_getElem.mp chain_tcCbSizes i hlt
  exact ⟨tcCbSizes[i], List.getElem?_eq_getElem (by omega),
    by simpa using hbefore i (Nat.lt_succ_self i), hstep.1, hstep.2⟩

/-! ### Two sizes around the mean -/

/-- `c` blocks of the size `k1` are some bits more than `bp`. As many blocks as fit are reduced to
the size `k2`, and less than one reduction is left over. -/
theorem twoSizes {c bp k1 k2 : Nat} (hk : k2 < k1) (hhigh : bp ≤ c * k1) (hlow : c * k2 < bp) :
    (c * k1 - bp) / (k1 - k2) < c ∧
      (c - (c * k1 - bp) / (k1 - k2)) * k1 + (c * k1 - bp) / (k1 - k2) * k2 =
        bp + (c * k1 - bp) % (k1 - k2) := by
  obtain ⟨d, rfl⟩ : ∃ d, k1 = k2 + d := ⟨k1 - k2, by omega⟩
  have hspare := Nat.div_add_mod (c * (k2 + d) - bp) d
  have hless : (c * (k2 + d) - bp) / d < c := by
    rw [Nat.div_lt_iff_lt_mul (by omega), Nat.mul_add]
    rw [Nat.mul_add] at hhigh
    omega
  rw [Nat.add_sub_cancel_left]
  refine ⟨hless, ?_⟩
  obtain ⟨m, hm⟩ : ∃ m, c = (c * (k2 + d) - bp) / d + m := ⟨_, (Nat.add_sub_of_le hless.le).symm⟩
  generalize hq : (c * (k2 + d) - bp) / d = q at *
  generalize (c * (k2 + d) - bp) % d = r at *
  subst hm
  have htotal : (q + m) * (k2 + d) = bp + (d * q + r) := by omega
  rw [Nat.add_sub_cancel_left]
  linarith [htotal, Nat.mul_comm d q, Nat.add_mul q m (k2 + d), Nat.mul_add q k2 d]

/-! ### The segmentation conserves the bits -/

/-- Blocks of at least the mean size, rounded up, hold all bits. -/
theorem le_mul_of_mean_le {c bp k : Nat} (hc : 0 < c) (h : (bp - 1) / c + 1 ≤ k) : bp ≤ c * k := by
  have hmean := Nat.lt_mul_div_succ (bp - 1) hc
  have hmono := Nat.mul_le_mul_left c h
  omega

/-- Blocks of a smaller size do not. -/
theorem mul_lt_of_lt_mean {c bp k : Nat} (hpos : 0 < bp) (h : k < (bp - 1) / c + 1) :
    c * k < bp := by
  have hmean := Nat.mul_div_le (bp - 1) c
  have hmono := Nat.mul_le_mul_left c (Nat.le_of_lt_succ h)
  omega

theorem cbsegmCbSize_of_lt {b z den r num c crc bp : Nat} (hz : ¬ b ≤ z) (hden : subU32 z 24 = some den)
    (hr : subU32 den 1 = some r) (hnum : addU32 b r = some num) (hc : divU32 num den = some c)
    (hcrc : mulU32 24 c = some crc) (hbp : addU32 b crc = some bp) :
    cbsegmCbSize b z = some (c, bp) := by
  simp only [cbsegmCbSize, if_neg hz, hden, hr, hnum, hc, hcrc, hbp, Option.bind_eq_bind,
    Option.bind_some, Option.pure_def]

/-- The number of blocks and the bits they hold, with their CRCs. -/
theorem cbsegmCbSize_spec {b : Nat} (hpos : 0 < b) (hb : b < 2 ^ 31 + 24) :
    ∃ c bp, cbsegmCbSize b 6144 = some (c, bp) ∧ 0 < c ∧
      bp = b + (if 1 < c then 24 * c else 0) ∧ bp ≤ c * 6144 ∧
      (1 < c → 3060 * c < b ∧ c * 6120 < b + 6120) := by
  by_cases hone : b ≤ 6144
  · exact ⟨1, b, if_pos hone, Nat.one_pos, by simp, by omega, by omega⟩
  · have hdiv : (b + 6119) / 6120 * 6120 ≤ b + 6119 ∧
        b + 6119 < (b + 6119) / 6120 * 6120 + 6120 := by
      omega
    refine ⟨(b + 6119) / 6120, b + 24 * ((b + 6119) / 6120), ?_, by omega, ?_, by omega, by omega⟩
    · have hsum : b + 6119 < 2 ^ 32 := by omega
      have hcrc : 24 * ((b + 6119) / 6120) < 2 ^ 32 := by omega
      have hbp : b + 24 * ((b + 6119) / 6120) < 2 ^ 32 := by omega
      exact cbsegmCbSize_of_lt hone (show subU32 6144 24 = some 6120 from rfl)
        (show subU32 6120 1 = some 6119 from rfl) (addU32_of_lt hsum)
        (divU32_of_pos (by decide)) (mulU32_of_lt hcrc) (addU32_of_lt hbp)
    · rw [if_pos (by omega)]

/-- One block takes the smallest size that holds it. -/
theorem cbsegmCounts_one {tbs bp idx1 k1 : Nat} (prev : Nat) (hbp : bp ≤ k1) (hk1 : k1 ≤ 6144) :
    (cbsegmCounts tbs 1 bp idx1 k1 prev).bind (cbsegmFiller · bp) = some
      { tbs, c := 1, k1, k1Idx := idx1, c1 := 1, lTb := 24, lCb := 24, f := k1 - bp } := by
  have hmul : mulU32 1 k1 = some k1 := by rw [mulU32_of_lt (by omega), Nat.one_mul]
  have hadd : addU32 k1 0 = some k1 := addU32_of_lt (show k1 + 0 < 2 ^ 32 by omega)
  simp only [cbsegmCounts, if_pos, Option.bind_some, cbsegmFiller, hmul,
    show mulU32 0 0 = some 0 from rfl, hadd, subU32_of_le hbp, Option.bind_eq_bind,
    Option.pure_def]

/-- Several blocks take the two sizes around their mean, and nothing wraps around. -/
theorem cbsegmCounts_many {tbs c bp idx k1 k2 : Nat} (hc : 1 < c) (hk : k2 < k1)
    (hhigh : bp ≤ c * k1) (hlow : c * k2 < bp) (hfit : c * k1 < 2 ^ 32) :
    (cbsegmCounts tbs c bp (idx + 1) k1 k2).bind (cbsegmFiller · bp) = some
      { tbs, c, k1, k1Idx := idx + 1, k2, k2Idx := idx, c1 := c - (c * k1 - bp) / (k1 - k2),
        c2 := (c * k1 - bp) / (k1 - k2), lTb := 24, lCb := 24,
        f := (c * k1 - bp) % (k1 - k2) } := by
  obtain ⟨hc2, hroom⟩ := twoSizes hk hhigh hlow
  have hleft := Nat.mod_le (c * k1 - bp) (k1 - k2)
  generalize hq : (c * k1 - bp) / (k1 - k2) = c2 at *
  have hadd : (c - c2) * k1 + c2 * k2 < 2 ^ 32 := by omega
  have hmul1 : (c - c2) * k1 < 2 ^ 32 := by omega
  have hmul2 : c2 * k2 < 2 ^ 32 := by omega
  have hsub : bp ≤ (c - c2) * k1 + c2 * k2 := by omega
  have hf : (c - c2) * k1 + c2 * k2 - bp = (c * k1 - bp) % (k1 - k2) := by omega
  simp only [cbsegmCounts, if_neg (show c ≠ 1 by omega), subU32_of_le (Nat.le_add_left 1 idx),
    mulU32_of_lt hfit, subU32_of_le hhigh, subU32_of_le hk.le,
    divU32_of_pos (show 0 < k1 - k2 by omega), hq, subU32_of_le hc2.le, cbsegmFiller,
    mulU32_of_lt hmul1, mulU32_of_lt hmul2, addU32_of_lt hadd, subU32_of_le hsub, hf,
    Option.bind_eq_bind, Option.bind_some, Option.pure_def, Nat.add_sub_cancel]

/-- **Segmentation conserves bits.** For every transport block size below `2 ^ 31` the function
succeeds, no operation wraps around, and the sizes add up. -/
theorem srsranCbsegm_conserves (tbs : Nat) (hpos : 1 ≤ tbs) (hlt : tbs < 2 ^ 31) :
    ∃ s, srsranCbsegm tbs = some (some s) ∧ Conserves tbs s := by
  obtain ⟨c, bp, hsize, hc, hbp, hmax, hmany⟩ :=
    cbsegmCbSize_spec (show 0 < tbs + 24 by omega) (show tbs + 24 < 2 ^ 31 + 24 by omega)
  have hlong : (bp - 1) / c + 1 ≤ 6144 := by
    have : (bp - 1) / c < 6144 := by
      rw [Nat.div_lt_iff_lt_mul hc, Nat.mul_comm]
      omega
    omega
  obtain ⟨idx, k1, hidx, hk1, hfit, hk1_le, hprev, hfirst⟩ := cbindex_spec hlong
  have hhigh := le_mul_of_mean_le hc hfit
  have hstart : srsranCbsegm tbs =
      (match if 0 < idx then srsranCbsegmCbsize (idx - 1) else some k1 with
        | none => some none
        | some prev =>
          ((cbsegmCounts tbs c bp idx k1 prev).bind (cbsegmFiller · bp)).bind
            fun s => some (some s)) := by
    have hadd : tbs + 24 < 2 ^ 32 := by omega
    have hadd1 : (bp - 1) / c + 1 < 2 ^ 32 := by omega
    simp only [srsranCbsegm, if_neg (show tbs ≠ 0 by omega), addU32_of_lt hadd, hsize,
      subU32_of_le (show 1 ≤ bp by omega), divU32_of_pos hc, addU32_of_lt hadd1, hidx, hk1,
      Option.bind_eq_bind, Option.bind_some, Option.pure_def, Option.bind_assoc]
  rcases Nat.eq_or_lt_of_le (show 1 ≤ c by omega) with rfl | hc1
  · have hbp1 : bp = tbs + 24 := by simpa using hbp
    obtain ⟨prev, hval⟩ :
        ∃ prev, (if 0 < idx then srsranCbsegmCbsize (idx - 1) else some k1) = some prev := by
      by_cases hidx0 : 0 < idx
      · obtain ⟨k2, hk2, -⟩ := hprev hidx0
        exact ⟨k2, by rw [if_pos hidx0, hk2]⟩
      · exact ⟨k1, if_neg hidx0⟩
    rw [hval] at hstart
    simp only [cbsegmCounts_one prev (show bp ≤ k1 by omega) hk1_le, Option.bind_some] at hstart
    exact ⟨_, hstart, rfl, Nat.le_refl 1, hk1, by simp, by simp; omega,
      ⟨by simp only; omega, by simp⟩, by simp⟩
  · obtain ⟨hblocks, hblocks'⟩ := hmany hc1
    have hlong1 : 3060 < (bp - 1) / c + 1 := by
      have hb : bp = tbs + 24 + 24 * c := by rw [hbp, if_pos hc1]
      have : 3060 ≤ (bp - 1) / c := by
        rw [Nat.le_div_iff_mul_le hc]
        omega
      omega
    obtain ⟨i, rfl⟩ : ∃ i, idx = i + 1 := ⟨idx - 1, by
      have : idx ≠ 0 := fun hzero => by have := hfirst hzero; omega
      omega⟩
    obtain ⟨k2, hk2, hk2_lt, hk, hgap⟩ := hprev (Nat.succ_pos i)
    have hlow := mul_lt_of_lt_mean (show 0 < bp by omega) hk2_lt
    have hwrap : c * k1 < 2 ^ 32 := by
      have := Nat.mul_le_mul_left c hgap
      rw [Nat.mul_add] at this
      rw [if_pos hc1] at hbp
      omega
    rw [if_pos (Nat.succ_pos i), hk2] at hstart
    simp only [cbsegmCounts_many hc1 hk hhigh hlow hwrap, Option.bind_some] at hstart
    obtain ⟨hc2, hroom⟩ := twoSizes hk hhigh hlow
    have hfill := Nat.mod_lt (c * k1 - bp) (show 0 < k1 - k2 by omega)
    refine ⟨_, hstart, ?_⟩
    exact { blocks := by simp only; omega
            one_le := by simp only; omega
            k1_size := hk1
            k2_size := fun _ => ⟨rfl, hk2⟩
            bits := by simp only; rw [hroom, hbp]; omega
            filler_lt := ⟨by simp only; omega, fun _ => by simp only; omega⟩
            filler_lt_gap := fun _ => hfill }

theorem srsranCbsegm_conserves_two :
    ∃ s, srsranCbsegm 6200 = some (some s) ∧ Conserves 6200 s :=
  srsranCbsegm_conserves 6200 (by decide) (by decide)

end Odss.Phy
