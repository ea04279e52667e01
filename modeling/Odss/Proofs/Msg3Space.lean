import Odss.Proofs.SubframeNoOverlap

/-!
# `Odss.Proofs.Msg3Space`: the PRBs for the Msg3 of a subframe

`alloc_rar` gives three PRBs to each grant of a RAR. The RIV of a grant comes from a copy of
`last_msg3_prb` that `generate_rar_dci` moves on by three PRBs a grant, and `alloc_rar` moves
`last_msg3_prb` on by itself: by three times the square of the number of grants.

`Msg3Accounted` is the property of the calls in a subframe. The two agree while no RAR has more than
one grant, and `msg3Accounted_of_within` proves the property for the calls up to there. After a RAR
with two grants there is a gap of six PRBs (`not_msg3Accounted_two_grants`).
-/

set_option linter.all false

namespace Odss.Mac.Subframe

open Odss.Lib

variable {p g : Nat} {κ : Type}

/-! ### The PRBs of a grant -/

/-- The PRBs of a Msg3. -/
def msg3Block (start : Nat) : PrbInterval := ⟨start, start + 3, Nat.le_add_right start 3⟩

theorem contains_msg3Block (start prb : Nat) :
    (msg3Block start).Contains prb ↔ start ≤ prb ∧ prb < start + 3 := Iff.rfl

/-- The PRBs that a RIV stands for are the ones it was made from. -/
theorem rivToPrbs_raType2ToRiv {start : UInt32} (hp : 6 ≤ p ∧ p ≤ 110)
    (hstart : start.toNat + 3 ≤ p) :
    rivToPrbs (raType2ToRiv 3 start (UInt32.ofNat p)) (UInt32.ofNat p) =
      some (msg3Block start.toNat) := by
  have hofNat : (UInt32.ofNat p).toNat = p := by
    rw [UInt32.toNat_ofNat']
    omega
  have hshort : (3 : UInt32) - 1 ≤ UInt32.ofNat p / 2 := by
    rw [UInt32.le_iff_toNat_le, UInt32.toNat_div, hofNat]
    show 2 ≤ p / 2
    omega
  have hriv : (raType2ToRiv 3 start (UInt32.ofNat p)).toNat = start.toNat + p * 2 := by
    rw [raType2ToRiv, if_pos hshort, UInt32.toNat_add, UInt32.toNat_mul, hofNat]
    show (p * 2 % 2 ^ 32 + start.toNat) % 2 ^ 32 = start.toNat + p * 2
    omega
  have hdiv : (raType2ToRiv 3 start (UInt32.ofNat p) / UInt32.ofNat p).toNat = 2 := by
    rw [UInt32.toNat_div, hriv, hofNat, Nat.add_mul_div_left _ _ (by omega),
      Nat.div_eq_of_lt (by omega)]
  have hmod : raType2ToRiv 3 start (UInt32.ofNat p) % UInt32.ofNat p = start := by
    rw [← UInt32.toNat_inj, UInt32.toNat_mod, hriv, hofNat, Nat.add_mul_mod_self_left,
      Nat.mod_eq_of_lt (by omega)]
  have hlen : raType2ToRiv 3 start (UInt32.ofNat p) / UInt32.ofNat p + 1 = 3 := by
    rw [← UInt32.toNat_inj, UInt32.toNat_add, hdiv]
    rfl
  have hroom : ¬ 3 > UInt32.ofNat p - start := by
    show ¬ UInt32.ofNat p - start < 3
    rw [UInt32.lt_iff_toNat_lt, UInt32.toNat_sub_of_le _ _ (by
      rw [UInt32.le_iff_toNat_le, hofNat]
      omega), hofNat]
    show ¬ p - start.toNat < 3
    omega
  have hstop : (start + 3).toNat = start.toNat + 3 := by
    rw [UInt32.toNat_add]
    show (start.toNat + 3) % 2 ^ 32 = start.toNat + 3
    omega
  have hfrom : raType2FromRiv (raType2ToRiv 3 start (UInt32.ofNat p)) (UInt32.ofNat p)
      (UInt32.ofNat p) = (3, start) := by
    simp only [raType2FromRiv]
    rw [hlen, hmod, if_neg hroom]
  simp only [rivToPrbs, hfrom]
  rw [dif_pos (by omega)]
  simp [msg3Block, hstop]

theorem mapM_msg3Grants (hp : 6 ≤ p ∧ p ≤ 110) (infos : List RarInfo) :
    ∀ start : UInt32, (infos = [] ∨ start.toNat + 3 * infos.length ≤ p) →
      (msg3Grants (UInt32.ofNat p) infos start).mapM
          (fun grant => rivToPrbs grant.rba (UInt32.ofNat p)) =
        some ((List.range infos.length).map fun i => msg3Block (start.toNat + 3 * i)) := by
  induction infos with
  | nil => intro start _; rfl
  | cons info infos ih =>
    intro start hstart
    have hroom : start.toNat + 3 * (infos.length + 1) ≤ p := by
      rcases hstart with hnil | hstart
      · cases hnil
      · exact hstart
    have hnext : (start + 3).toNat = start.toNat + 3 := by
      rw [UInt32.toNat_add]
      show (start.toNat + 3) % 2 ^ 32 = start.toNat + 3
      omega
    have hrest := ih (start + 3) (Or.inr (by omega))
    rw [hnext] at hrest
    simp only [msg3Grants, List.mapM_cons, @rivToPrbs_raType2ToRiv p start hp (by omega),
      hrest, List.length_cons, List.range_succ_eq_map, List.map_cons, List.map_map]
    show some (msg3Block start.toNat :: _) = some (msg3Block (start.toNat + 3 * 0) :: _)
    congr 2
    apply List.map_congr_left
    intro i _
    show msg3Block (start.toNat + 3 + 3 * i) = msg3Block (start.toNat + 3 * (i + 1))
    congr 1
    omega

/-! ### The property and its condition -/

/-- The grants of the RARs that were accepted. -/
def grantsOf (s : Subframe p g κ) : List RarGrant := s.rarAllocs.flatMap RarAlloc.msg3Grant

/-- The PRBs that are encoded in the grants. -/
def msg3Prbs (s : Subframe p g κ) : Option (List PrbInterval) :=
  s.grantsOf.mapM fun grant => rivToPrbs grant.rba (UInt32.ofNat p)

/-- The check of `alloc_rar` for the space of the Msg3, which comes after the one for the number of
RARs. -/
def RefusesMsg3 (cell : SubframeCell p) (s : Subframe p g κ) (nofGrants : UInt32) : Prop :=
  s.rarAllocs.length < maxRarList ∧ s.lastMsg3Prb + 3 * nofGrants > cell.maxMsg3Prb

/-- The grants have three PRBs each. No two of them overlap, and together they are one block from
`start` on, below `max_msg3_prb`. -/
def Msg3Tiled (cell : SubframeCell p) (start : Nat) (s : Subframe p g κ) : Prop :=
  ∃ prbs, s.msg3Prbs = some prbs ∧ (∀ i ∈ prbs, i.length = 3) ∧
    (prbs.map PrbInterval.toSet).Pairwise Disjoint ∧
    ∃ stop ≤ cell.maxMsg3Prb.toNat, {prb | ∃ i ∈ prbs, i.Contains prb} = Set.Ico start stop

/-- The PRBs for the Msg3 are accounted for over the calls in a subframe: the grants are tiled after
each call, and a RAR is refused only when there are fewer than three PRBs left for each of its
grants. -/
structure Msg3Accounted (cell : SubframeCell p) (cch : CtrlPdcch p g κ) (s₀ : Subframe p g κ)
    (ops : List (Op p g)) : Prop where
  tiled : AlongRun (step cell cch) (Msg3Tiled cell s₀.lastMsg3Prb.toNat) s₀ ops
  refused : ∀ pre aggrIdx rar rbgs nofGrants post,
    ops = pre ++ .allocRar aggrIdx rar rbgs nofGrants :: post →
    ∀ s results, run (step cell cch) s₀ pre = some (s, results) → RefusesMsg3 cell s nofGrants →
    cell.maxMsg3Prb.toNat - s₀.lastMsg3Prb.toNat - 3 * s.grantsOf.length < 3 * nofGrants.toNat

/-- The condition on a call: a RAR is tried only while no RAR before it has more than one grant. A
RAR without grants is tried only within the PRBs for the Msg3. -/
def SingleGrants (cell : SubframeCell p) (s : Subframe p g κ) : Op p g → Prop
  | .allocRar _ _ _ nofGrants => s.rarAllocs.length < maxRarList →
    (∀ a ∈ s.rarAllocs, a.msg3Grant.length ≤ 1) ∧
      (nofGrants = 0 → s.lastMsg3Prb ≤ cell.maxMsg3Prb)
  | _ => True

/-- What the configuration of the cell is checked for. -/
structure PrachFits (cell : SubframeCell p) : Prop where
  nofPrb : 6 ≤ p ∧ p ≤ 110
  prach : cell.prachFreqOffset + 6 ≤ p

/-! ### One call -/

variable {cell : SubframeCell p} {cch : CtrlPdcch p g κ} {s s' : Subframe p g κ}

/-- A control allocation leaves the RARs and the PRBs of the Msg3 as they are. -/
theorem allocWithDci_frame {δ : Type} {aggrIdx : Fin 4} {rbgs : RbgInterval}
    {type : SfCchAllocator.AllocType} {generate : Nat → Option (Option δ)}
    {result : Except AllocResult δ}
    (h : s.allocWithDci cch aggrIdx rbgs type generate = some (result, s')) :
    (s'.rarAllocs = s.rarAllocs ∧ s'.lastMsg3Prb = s.lastMsg3Prb) ∧
      (∀ dci, result = .ok dci → ∃ cfi, generate cfi = some (some dci)) ∧
      ∀ code, result = .error code → code ≠ .success := by
  unfold allocWithDci at h
  split at h
  · cases h
  · next s₁ hctrl =>
    rcases allocDlCtrl_cases hctrl with ⟨hcode, -⟩ | ⟨-, mask, pdcch, -, -, rfl⟩
    · exact absurd rfl hcode
    · split at h
      · cases h
      · split at h
        · cases h
        · next s₂ hrem =>
          cases h
          obtain ⟨mask', pdcch', rfl, -⟩ := remLastAllocDl_cases hrem
          refine ⟨⟨rfl, rfl⟩, nofun, fun code heq => ?_⟩
          cases heq
          exact nofun
      · next dci hdci =>
        cases h
        refine ⟨⟨rfl, rfl⟩, fun dci' heq => ?_, nofun⟩
        cases heq
        exact ⟨_, hdci⟩
  · next hsuccess hctrl =>
    cases h
    rcases allocDlCtrl_cases hctrl with ⟨hcode, rfl⟩ | ⟨rfl, -⟩
    · refine ⟨⟨rfl, rfl⟩, nofun, fun code heq => ?_⟩
      cases heq
      exact hcode
    · exact (hsuccess rfl).elim

/-- `alloc_rar` changes nothing here, or it appends the grants from `last_msg3_prb` on. -/
theorem allocRar_cases {aggrIdx : Fin 4} {rar : List RarInfo} {rbgs : RbgInterval}
    {nofGrants : UInt32} {code : AllocResult}
    (h : s.allocRar cell cch aggrIdx rar rbgs nofGrants = some (code, s')) :
    (code ≠ .success ∧ s'.rarAllocs = s.rarAllocs ∧ s'.lastMsg3Prb = s.lastMsg3Prb) ∨
    (code = .success ∧ s.rarAllocs.length < maxRarList ∧
      s.lastMsg3Prb + 3 * nofGrants ≤ cell.maxMsg3Prb ∧ nofGrants.toNat ≤ maxRarList ∧
      nofGrants.toNat ≤ rar.length ∧ ∃ a, s'.rarAllocs = s.rarAllocs ++ [a] ∧
        a.msg3Grant = msg3Grants (UInt32.ofNat p) (rar.take nofGrants.toNat) s.lastMsg3Prb ∧
        s'.lastMsg3Prb = s.lastMsg3Prb + 3 * nofGrants * nofGrants) := by
  simp only [allocRar] at h
  split at h
  · cases h
    exact Or.inl ⟨(fun hcode => by cases hcode), rfl, rfl⟩
  · next hfull =>
    split at h
    · cases h
      exact Or.inl ⟨(fun hcode => by cases hcode), rfl, rfl⟩
    · next hspace =>
      split at h
      · cases h
      · next hdci =>
        cases h
        obtain ⟨hsame, -, hcode⟩ := allocWithDci_frame hdci
        exact Or.inl ⟨hcode code rfl, hsame⟩
      · next grants s₁ hdci =>
        cases h
        right
        obtain ⟨⟨hrars, hlast⟩, hgrants, -⟩ := allocWithDci_frame hdci
        obtain ⟨cfi, hcfi⟩ := hgrants grants rfl
        unfold generateRarDci at hcfi
        split at hcfi
        · cases hcfi
        · split at hcfi
          · next hlen =>
            cases hcfi
            refine ⟨rfl, by omega, UInt32.not_lt.mp hspace, hlen.1, hlen.2,
              ⟨⟨cch.nofAllocs s₁.pdcch - 1, rbgs, (7 * nofGrants + 1).toNat⟩, _⟩, ?_, rfl, ?_⟩
            · show s₁.rarAllocs ++ _ = s.rarAllocs ++ _
              rw [hrars]
            · show s₁.lastMsg3Prb + _ = s.lastMsg3Prb + _
              rw [hlast]
          · cases hcfi

/-- The other calls leave the RARs and the PRBs of the Msg3 as they are. -/
theorem call_frame {op : Op p g} {code : AllocResult} (h : s.call cell cch op = some (code, s'))
    (hop : ∀ aggrIdx rar rbgs nofGrants, op ≠ .allocRar aggrIdx rar rbgs nofGrants) :
    s'.rarAllocs = s.rarAllocs ∧ s'.lastMsg3Prb = s.lastMsg3Prb := by
  have hbc : ∀ aggrIdx type reqBytes rbgs,
      s.allocBc cell cch aggrIdx type reqBytes rbgs = some (code, s') →
      s'.rarAllocs = s.rarAllocs ∧ s'.lastMsg3Prb = s.lastMsg3Prb := by
    intro aggrIdx type reqBytes rbgs h
    unfold allocBc at h
    split at h
    · cases h
      exact ⟨rfl, rfl⟩
    · split at h
      · cases h
      · next hdci =>
        cases h
        exact (allocWithDci_frame hdci).1
      · next hdci =>
        cases h
        exact (allocWithDci_frame hdci).1
  cases op with
  | allocSib aggrIdx sibIdx rbgs => exact hbc _ _ _ _ h
  | allocPaging aggrIdx payload rbgs => exact hbc _ _ _ _ h
  | allocRar aggrIdx rar rbgs nofGrants => exact absurd rfl (hop aggrIdx rar rbgs nofGrants)
  | allocDlUser user userMask pid pidEmpty =>
    simp only [call, allocDlUser] at h
    split at h
    · cases h
    · cases h
      exact ⟨rfl, rfl⟩
  | allocUlUser user alloc =>
    simp only [call, allocUlUser] at h
    split at h
    · cases h
    · cases h
      exact ⟨rfl, rfl⟩
  | allocMsg3 user rba =>
    simp only [call, allocMsg3] at h
    split at h
    · cases h
    · split at h
      · cases h
      · cases h
        exact ⟨rfl, rfl⟩
  | reserveDlRbgs startRbg endRbg =>
    obtain ⟨s₁, hreserve, heq⟩ := Option.map_eq_some_iff.mp h
    cases heq
    unfold reserveDlRbgs at hreserve
    split at hreserve
    · cases hreserve
    · cases hreserve
      exact ⟨rfl, rfl⟩
  | reserveUlPrbs prbmask strict =>
    cases h
    exact ⟨rfl, rfl⟩
  | setUlMask newUlMask =>
    cases h
    exact ⟨rfl, rfl⟩

/-! ### The invariant -/

/-- The blocks of `n` grants from `start` on. -/
def msg3Blocks (start n : Nat) : List PrbInterval :=
  (List.range n).map fun i => msg3Block (start + 3 * i)

theorem msg3Blocks_append (start n n' : Nat) :
    msg3Blocks start (n + n') = msg3Blocks start n ++ msg3Blocks (start + 3 * n) n' := by
  unfold msg3Blocks
  rw [List.range_add, List.map_append, List.map_map]
  congr 1
  apply List.map_congr_left
  intro i _
  show msg3Block (start + 3 * (n + i)) = msg3Block (start + 3 * n + 3 * i)
  congr 1
  omega

theorem pairwise_msg3Blocks (start n : Nat) :
    ((msg3Blocks start n).map PrbInterval.toSet).Pairwise Disjoint := by
  unfold msg3Blocks
  rw [List.map_map, List.pairwise_map]
  apply List.Pairwise.imp _ (List.pairwise_lt_range (n := n))
  intro i j hij
  show Disjoint (Set.Ico (start + 3 * i) (start + 3 * i + 3))
    (Set.Ico (start + 3 * j) (start + 3 * j + 3))
  rw [Set.disjoint_left]
  intro prb hi hj
  have hi := hi.2
  have hj := hj.1
  omega

theorem contains_msg3Blocks (start n : Nat) :
    {prb | ∃ i ∈ msg3Blocks start n, i.Contains prb} = Set.Ico start (start + 3 * n) := by
  ext prb
  show (∃ i ∈ msg3Blocks start n, i.Contains prb) ↔ start ≤ prb ∧ prb < start + 3 * n
  unfold msg3Blocks
  simp only [List.mem_map, List.mem_range]
  constructor
  · intro h
    obtain ⟨_, ⟨i, hi, rfl⟩, hin⟩ := h
    rw [contains_msg3Block] at hin
    omega
  · intro h
    refine ⟨_, ⟨(prb - start) / 3, by omega, rfl⟩, ?_⟩
    rw [contains_msg3Block]
    omega

/-- The invariant: the grants have the blocks from `start` on, and `last_msg3_prb` is behind them as
long as no RAR has more than one grant. -/
structure Blocks (cell : SubframeCell p) (start : Nat) (s : Subframe p g κ) : Prop where
  prbs : s.msg3Prbs = some (msg3Blocks start s.grantsOf.length)
  within : s.grantsOf = [] ∨ start + 3 * s.grantsOf.length ≤ cell.maxMsg3Prb.toNat
  last : (∀ a ∈ s.rarAllocs, a.msg3Grant.length ≤ 1) →
    s.lastMsg3Prb.toNat = start + 3 * s.grantsOf.length

theorem Blocks.tiled {start : Nat} (h : Blocks cell start s) : Msg3Tiled cell start s := by
  refine ⟨_, h.prbs, ?_, pairwise_msg3Blocks _ _, ?_⟩
  · intro i hi
    obtain ⟨j, -, rfl⟩ := List.mem_map.mp hi
    show start + 3 * j + 3 - (start + 3 * j) = 3
    omega
  · rw [contains_msg3Blocks]
    rcases h.within with hnil | hwithin
    · -- Without grants the block is empty.
      refine ⟨0, Nat.zero_le _, ?_⟩
      simp [hnil]
    · exact ⟨_, hwithin, rfl⟩

theorem Blocks.of_same {start : Nat} (h : Blocks cell start s)
    (hsame : s'.rarAllocs = s.rarAllocs ∧ s'.lastMsg3Prb = s.lastMsg3Prb) :
    Blocks cell start s' := by
  have hgrants : s'.grantsOf = s.grantsOf := by rw [grantsOf, grantsOf, hsame.1]
  constructor
  · rw [msg3Prbs, hgrants]
    exact h.prbs
  · rw [hgrants]
    exact h.within
  · rw [hgrants, hsame.1, hsame.2]
    exact h.last

theorem toNat_maxMsg3Prb_le (hcell : PrachFits cell) : cell.maxMsg3Prb.toNat ≤ p := by
  obtain ⟨hlow, hhigh⟩ := hcell.nofPrb
  unfold SubframeCell.maxMsg3Prb
  rw [UInt32.toNat_ofNat']
  omega

theorem length_msg3Grants (nofPrb : UInt32) (infos : List RarInfo) :
    ∀ start, (msg3Grants nofPrb infos start).length = infos.length := by
  induction infos with
  | nil => intro start; rfl
  | cons info infos ih => intro start; simp [msg3Grants, ih]

/-- A call within the condition keeps the blocks. -/
theorem Blocks.call {start : Nat} (hcell : PrachFits cell) (hstart : start ≤ p) {op : Op p g}
    {code : AllocResult} (h : Blocks cell start s) (hguard : SingleGrants cell s op)
    (hcall : s.call cell cch op = some (code, s')) : Blocks cell start s' := by
  by_cases hop : ∀ aggrIdx rar rbgs nofGrants, op ≠ .allocRar aggrIdx rar rbgs nofGrants
  · exact h.of_same (call_frame hcall hop)
  · push Not at hop
    obtain ⟨aggrIdx, rar, rbgs, nofGrants, rfl⟩ := hop
    rcases allocRar_cases hcall with
      ⟨-, hsame⟩ | ⟨-, hfull, hspace, hmax, hrar, a, hrars, ha, hlast⟩
    · exact h.of_same hsame
    · obtain ⟨hlow, hhigh⟩ := hcell.nofPrb
      generalize hinfos : rar.take nofGrants.toNat = infos at ha
      have hlen : infos.length = nofGrants.toNat := by
        rw [← hinfos, List.length_take, Nat.min_eq_left hrar]
      have hbound := toNat_maxMsg3Prb_le hcell
      have hbefore := h.last (hguard hfull).1
      -- The sum of the check does not overflow.
      have hroom : start + 3 * s.grantsOf.length + 3 * nofGrants.toNat ≤ cell.maxMsg3Prb.toNat := by
        have hsum : (s.lastMsg3Prb + 3 * nofGrants).toNat =
            start + 3 * s.grantsOf.length + 3 * nofGrants.toNat := by
          rw [UInt32.toNat_add, UInt32.toNat_mul, hbefore]
          show (_ + 3 * nofGrants.toNat % 2 ^ 32) % 2 ^ 32 = _
          have hk : s.grantsOf.length ≤ p := by
            rcases h.within with hnil | hwithin
            · simp [hnil]
            · omega
          have hmax : nofGrants.toNat ≤ 8 := hmax
          omega
        rw [UInt32.le_iff_toNat_le, hsum] at hspace
        exact hspace
      have hgrants : s'.grantsOf = s.grantsOf ++ msg3Grants (UInt32.ofNat p) infos s.lastMsg3Prb := by
        rw [grantsOf, hrars, List.flatMap_append, ← ha]
        simp [grantsOf]
      have hcount : s'.grantsOf.length = s.grantsOf.length + nofGrants.toNat := by
        rw [hgrants, List.length_append, length_msg3Grants, hlen]
      constructor
      · rw [hcount, msg3Blocks_append, msg3Prbs, hgrants, List.mapM_append,
          mapM_msg3Grants hcell.nofPrb infos s.lastMsg3Prb (Or.inr (by omega)), hlen, hbefore]
        rw [show s.grantsOf.mapM (fun grant => rivToPrbs grant.rba (UInt32.ofNat p)) =
          some (msg3Blocks start s.grantsOf.length) from h.prbs]
        rfl
      · right
        omega
      · intro hsingle
        rw [hrars] at hsingle
        -- The new RAR has one grant, so the square is the number.
        have hone : nofGrants.toNat ≤ 1 := by
          have := hsingle a (by simp)
          rw [ha, length_msg3Grants, hlen] at this
          exact this
        rw [hlast, hcount, UInt32.toNat_add, UInt32.toNat_mul, UInt32.toNat_mul, hbefore]
        show (_ + 3 * nofGrants.toNat % 2 ^ 32 * nofGrants.toNat % 2 ^ 32) % 2 ^ 32 = _
        rcases Nat.le_one_iff_eq_zero_or_eq_one.mp hone with hzero | hone
        · rw [hzero]
          omega
        · rw [hone]
          omega

/-! ### Runs -/

theorem Blocks.step {start : Nat} (hcell : PrachFits cell) (hstart : start ≤ p)
    (s : Subframe p g κ) (op : Op p g) (s' : Subframe p g κ) (code : AllocResult)
    (h : Blocks cell start s) (hguard : SingleGrants cell s op)
    (hstep : Subframe.step cell cch s op = some (s', code)) : Blocks cell start s' := by
  obtain ⟨⟨code', s₁⟩, hcall, heq⟩ := Option.map_eq_some_iff.mp hstep
  cases heq
  exact h.call hcell hstart hguard hcall

/-- A subframe starts without grants, behind the PUCCH and the PRACH. -/
theorem blocks_newTti {ttiRx : Nat} {s₀ : Subframe p g κ} (hcell : PrachFits cell)
    (hnew : newTti cell cch ttiRx = some s₀) :
    s₀.lastMsg3Prb.toNat ≤ p ∧ Blocks cell s₀.lastMsg3Prb.toNat s₀ := by
  obtain ⟨hlow, hhigh⟩ := hcell.nofPrb
  have hprach := hcell.prach
  unfold newTti at hnew
  split at hnew
  · next pucchMask prachMask hpucch hmask =>
    cases hnew
    -- The mask of the PUCCH is within the cell.
    have hnrb : cell.pucchNrb ≤ p := by
      by_contra hlarge
      rw [SubframeCell.pucchMask, if_pos (by omega), BoundedBitset.fill, if_neg (by omega)] at hpucch
      cases hpucch
    constructor
    · show (UInt32.ofNat _).toNat ≤ p
      rw [UInt32.toNat_ofNat']
      refine (Nat.mod_le _ _).trans ?_
      split
      · exact Nat.max_le.mpr ⟨hnrb, hprach⟩
      · exact hnrb
    · exact ⟨rfl, Or.inl rfl, fun _ => rfl⟩
  · cases hnew

/-- A refusal within the condition leaves fewer than three PRBs for each grant. -/
theorem Blocks.refused {start : Nat} {aggrIdx : Fin 4}
    {rar : List RarInfo} {rbgs : RbgInterval} {nofGrants : UInt32} (h : Blocks cell start s)
    (hguard : SingleGrants cell s (.allocRar aggrIdx rar rbgs nofGrants : Op p g))
    (hrefused : RefusesMsg3 cell s nofGrants) :
    cell.maxMsg3Prb.toNat - start - 3 * s.grantsOf.length < 3 * nofGrants.toNat := by
  obtain ⟨hfull, hspace⟩ := hrefused
  obtain ⟨hsingle, hzero⟩ := hguard hfull
  have hlast := h.last hsingle
  have hpos : 0 < nofGrants.toNat := by
    rw [Nat.pos_iff_ne_zero]
    intro hnone
    have hnone : nofGrants = 0 := by rw [← UInt32.toNat_inj, hnone]; rfl
    rw [hnone, show s.lastMsg3Prb + 3 * 0 = s.lastMsg3Prb by simp] at hspace
    exact UInt32.not_lt.mpr (hzero hnone) hspace
  have hsum : (s.lastMsg3Prb + 3 * nofGrants).toNat ≤
      start + 3 * s.grantsOf.length + 3 * nofGrants.toNat := by
    rw [UInt32.toNat_add, UInt32.toNat_mul, hlast]
    show (_ + 3 * nofGrants.toNat % 2 ^ 32) % 2 ^ 32 ≤ _
    omega
  have hspace : cell.maxMsg3Prb.toNat < (s.lastMsg3Prb + 3 * nofGrants).toNat := hspace
  omega

/-- While every RAR before a call has at most one grant, the PRBs for the Msg3 are accounted for. -/
theorem msg3Accounted_of_within {ttiRx : Nat} {s₀ : Subframe p g κ} {ops : List (Op p g)}
    (hcell : PrachFits cell) (hnew : newTti cell cch ttiRx = some s₀)
    (hw : StepsWithin (Subframe.step cell cch) (SingleGrants cell) s₀ ops) :
    Msg3Accounted cell cch s₀ ops := by
  obtain ⟨hstart, hblocks⟩ := blocks_newTti hcell hnew
  have halong := alongRun_of_within (Blocks cell s₀.lastMsg3Prb.toNat)
    (Blocks.step hcell hstart) hblocks hw
  constructor
  · intro pre post hops s results hrun
    exact (halong pre post hops s results hrun).tiled
  · intro pre aggrIdx rar rbgs nofGrants post hops s results hrun hrefused
    rw [stepsWithin_iff_forall] at hw
    have hguard := hw pre _ post hops s results hrun
    exact (halong pre _ hops s results hrun).refused hguard hrefused

attribute [local instance] Odss.Mac.SfCchAllocator.neZero_aggr

/-- Two RARs: one with a grant, then one with two. -/
def oneGrantOps : List (Op 100 25) :=
  [.allocRar 3 [⟨70⟩] ⟨0, 4, by decide⟩ 1, .allocRar 3 [⟨71⟩, ⟨72⟩] ⟨4, 8, by decide⟩ 2]

/-- They get the PRBs from 3 to 12. -/
theorem msg3Accounted_one_grant :
    ∃ s₀, newTti exampleCell examplePdcch 0 = some s₀ ∧
      (∃ s, run (Subframe.step exampleCell examplePdcch) s₀ oneGrantOps =
        some (s, [.success, .success])) ∧
      Msg3Accounted exampleCell examplePdcch s₀ oneGrantOps := by
  have hresults : ((newTti exampleCell examplePdcch 0).bind fun s₀ =>
      (Subframe.step exampleCell examplePdcch s₀ (.allocRar 3 [⟨70⟩] ⟨0, 4, by decide⟩ 1)).bind
        fun r => (Subframe.step exampleCell examplePdcch r.1
          (.allocRar 3 [⟨71⟩, ⟨72⟩] ⟨4, 8, by decide⟩ 2)).map fun r' =>
        (s₀.rarAllocs.map fun a => a.msg3Grant.length,
          r.1.rarAllocs.map fun a => a.msg3Grant.length, r.2, r'.2)) =
        some ([], [1], .success, .success) := by decide +kernel
  obtain ⟨s₀, hnew, hbind⟩ := Option.bind_eq_some_iff.mp hresults
  obtain ⟨⟨s₁, code⟩, hfirst, hmap⟩ := Option.bind_eq_some_iff.mp hbind
  obtain ⟨⟨s₂, code'⟩, hsecond, heq⟩ := Option.map_eq_some_iff.mp hmap
  simp only [Prod.mk.injEq] at heq
  obtain ⟨hnone, hone, rfl, rfl⟩ := heq
  refine ⟨s₀, hnew, ⟨s₂, run_cons_eq_some.mpr ⟨s₁, _, _, hfirst,
    run_cons_eq_some.mpr ⟨s₂, _, _, hsecond, rfl, rfl⟩, rfl⟩⟩, ?_⟩
  refine msg3Accounted_of_within ⟨by decide, by decide⟩ hnew ⟨?_, fun s' code h => ⟨?_, ?_⟩⟩
  · intro _
    have hnil : s₀.rarAllocs = [] := List.map_eq_nil_iff.mp hnone
    exact ⟨by simp [hnil], nofun⟩
  · rw [hfirst] at h
    cases h
    intro _
    refine ⟨fun a ha => ?_, nofun⟩
    -- The first RAR has one grant.
    have hmem : a.msg3Grant.length ∈ s₁.rarAllocs.map fun a => a.msg3Grant.length :=
      List.mem_map_of_mem ha
    rw [hone] at hmem
    exact (List.mem_singleton.mp hmem).le
  · intro _ _ _
    trivial

/-- The same RARs in the other order: the third grant has the PRBs from 15 on instead of 9. -/
def twoGrantsOps : List (Op 100 25) :=
  [.allocRar 3 [⟨70⟩, ⟨71⟩] ⟨0, 4, by decide⟩ 2, .allocRar 3 [⟨72⟩] ⟨4, 8, by decide⟩ 1]

theorem not_msg3Accounted_two_grants :
    ∃ s₀, newTti exampleCell examplePdcch 0 = some s₀ ∧
      ¬ Msg3Accounted exampleCell examplePdcch s₀ twoGrantsOps := by
  have hresults : ((newTti exampleCell examplePdcch 0).bind fun s₀ =>
      (run (Subframe.step exampleCell examplePdcch) s₀ twoGrantsOps).map fun r =>
        (s₀.lastMsg3Prb, r.1.msg3Prbs)) =
        some (3, some [msg3Block 3, msg3Block 6, msg3Block 15]) := by decide +kernel
  obtain ⟨s₀, hnew, hmap⟩ := Option.bind_eq_some_iff.mp hresults
  obtain ⟨⟨s, results⟩, hrun, heq⟩ := Option.map_eq_some_iff.mp hmap
  obtain ⟨hlast, hprbs⟩ := Prod.mk.inj heq
  refine ⟨s₀, hnew, fun h => ?_⟩
  obtain ⟨prbs, htiles, -, -, stop, -, hblock⟩ := h.tiled twoGrantsOps [] rfl s results hrun
  have hprbs : s.msg3Prbs = some [msg3Block 3, msg3Block 6, msg3Block 15] := hprbs
  rw [hprbs] at htiles
  cases htiles
  rw [hlast] at hblock
  -- PRB 15 is in the block, so PRB 9 is as well, and no grant has it.
  have hstop : 15 ∈ Set.Ico (3 : UInt32).toNat stop := by
    rw [← hblock]
    exact ⟨msg3Block 15, by simp, by decide⟩
  have hnine : 9 ∈ Set.Ico (3 : UInt32).toNat stop :=
    ⟨by decide, (by decide : 9 < 15).trans hstop.2⟩
  rw [← hblock] at hnine
  obtain ⟨i, hi, hcontains⟩ := hnine
  simp only [List.mem_cons, List.not_mem_nil, or_false] at hi
  rcases hi with rfl | rfl | rfl
  · exact absurd hcontains (by decide)
  · exact absurd hcontains (by decide)
  · exact absurd hcontains (by decide)

end Odss.Mac.Subframe
