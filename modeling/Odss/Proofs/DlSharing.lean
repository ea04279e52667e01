import Odss.Proofs.SubframeNoOverlap

/-!
# `Odss.Proofs.DlSharing`: the shares of the free RBGs

`sched_dl_users` gives each entry of `ue_rntis` the RBGs of its weight, and the RBGs that are left
to the first entries. The entries are those that the subframe before has left, unless the UL users come
first.

* `SharesHold` is what this is for: the shares are the free RBGs together, and no new data takes more.
* `computeShares_spec` is the computation, with `shareOf` as the result, for entries that `SharesFit`.
* `Adds` is what a turn of the loop over the queue adds to the allocations, with `adds_loop`.
* `sharesRun_of_fits` is the result for runs.
-/

set_option linter.all false

namespace Odss.Mac.TimePf

open Odss.Lib

variable {p g : Nat} {κ : Type}

/-! ### Weights -/

/-- `MAX_NOF_RBGS` -/
abbrev maxNofRbgs : Nat := 25

theorem rbgsOf_le {w : ℚ} {available : Nat} (hw : 0 ≤ w) :
    (rbgsOf w available : ℚ) ≤ w * available * (1 + 1 / 2 ^ 24) := by
  have hprod : 0 ≤ w * available := mul_nonneg hw (Nat.cast_nonneg available)
  have hmod : rbgsOf w available ≤ ⌊floatRound 24 (w * available)⌋₊ := Nat.mod_le _ _
  calc (rbgsOf w available : ℚ) ≤ (⌊floatRound 24 (w * available)⌋₊ : ℚ) := by exact_mod_cast hmod
    _ ≤ floatRound 24 (w * available) := Nat.floor_le (floatRound_nonneg _ _)
    _ ≤ w * available * (1 + 1 / 2 ^ 24) := floatRound_le hprod

/-- The RBGs of weights that are 1 together, up to the rounding of a `float`, are not more than the
free ones. -/
theorem sum_rbgsOf_le {ws : List ℚ} {available : Nat} (havailable : available ≤ maxNofRbgs)
    (hnonneg : ∀ w ∈ ws, 0 ≤ w) (hsum : ws.sum ≤ 1 + 1 / 2 ^ 22) :
    (ws.map fun w => rbgsOf w available).sum ≤ available := by
  have hle : (((ws.map fun w => rbgsOf w available).sum : Nat) : ℚ)
      ≤ ws.sum * available * (1 + 1 / 2 ^ 24) := by
    clear hsum
    induction ws with
    | nil => simp
    | cons w ws ih =>
      have hfirst := @rbgsOf_le w available (hnonneg w List.mem_cons_self)
      have hrest := ih fun w' hmem => hnonneg w' (List.mem_cons_of_mem w hmem)
      rw [List.map_cons, List.sum_cons, List.sum_cons, Nat.cast_add, add_mul, add_mul]
      exact add_le_add hfirst hrest
  have hbound : (available : ℚ) ≤ 25 := by exact_mod_cast havailable
  have hzero : (0 : ℚ) ≤ available := Nat.cast_nonneg available
  -- The roundings together are less than one RBG.
  have hlt : (((ws.map fun w => rbgsOf w available).sum : Nat) : ℚ) < (available + 1 : Nat) := by
    calc (((ws.map fun w => rbgsOf w available).sum : Nat) : ℚ)
        ≤ ws.sum * available * (1 + 1 / 2 ^ 24) := hle
      _ ≤ (1 + 1 / 2 ^ 22) * available * (1 + 1 / 2 ^ 24) := by gcongr
      _ < (available + 1 : Nat) := by
          push_cast
          linarith
  have hnat : (ws.map fun w => rbgsOf w available).sum < available + 1 := by exact_mod_cast hlt
  exact Nat.le_of_lt_succ hnat

/-- The same weight for each of some users. -/
theorem equalWeight_le {n : Nat} (hn : 0 < n) :
    n * floatRound 24 (floatRound 53 (1 / n)) ≤ 1 + 1 / 2 ^ 22 := by
  have hpos : (0 : ℚ) < n := by exact_mod_cast hn
  have hone : floatRound 53 (1 / n) ≤ 1 / n * (1 + 1 / 2 ^ 53) := floatRound_le (by positivity)
  have htwo := @floatRound_le 24 _ (floatRound_nonneg 53 (1 / n : ℚ))
  calc n * floatRound 24 (floatRound 53 (1 / n))
      ≤ n * (floatRound 53 (1 / n) * (1 + 1 / 2 ^ 24)) := by gcongr
    _ ≤ n * (1 / n * (1 + 1 / 2 ^ 53) * (1 + 1 / 2 ^ 24)) := by gcongr
    _ = (1 + 1 / 2 ^ 53) * (1 + 1 / 2 ^ 24) := by field_simp
    _ ≤ 1 + 1 / 2 ^ 22 := by norm_num

/-- The RBGs of a weight are at least its part of the free ones. -/
theorem floor_le_rbgsOf {w : ℚ} {available : Nat} (havailable : available ≤ maxNofRbgs)
    (hw : 0 ≤ w) (hle : w ≤ 2) : ⌊w * available⌋₊ ≤ rbgsOf w available := by
  have hbound : (available : ℚ) ≤ 25 := by exact_mod_cast havailable
  have hzero : (0 : ℚ) ≤ available := Nat.cast_nonneg available
  have hprod : w * available ≤ 50 := by nlinarith
  have hround : (⌊w * available⌋₊ : ℚ) ≤ floatRound 24 (w * available) := by
    refine natCast_le_floatRound (Nat.floor_le (mul_nonneg hw hzero)) (lt_of_le_of_lt hprod ?_)
    norm_num
  have hsmall : ⌊floatRound 24 (w * available)⌋₊ < 2 ^ 16 := by
    refine (Nat.floor_lt (floatRound_nonneg _ _)).mpr ?_
    calc floatRound 24 (w * available)
        ≤ w * available * (1 + 1 / 2 ^ 24) := floatRound_le (mul_nonneg hw hzero)
      _ ≤ 50 * (1 + 1 / 2 ^ 24) := by gcongr
      _ < (2 ^ 16 : Nat) := by norm_num
  rw [rbgsOf, Nat.mod_eq_of_lt hsmall]
  exact Nat.le_floor hround

/-! ### The computation -/

/-- The first entries of `ue_rntis`. -/
def firstRntis (s : TimePf p g) (k : Nat) : List Nat := s.ueRntis.toList.take k

/-- The RBGs of the weight of a user. -/
def weightRbgs (ueDb : List (SchedUe p g)) (sched : SfSched p g κ) (weights : OrdMap Nat ℚ)
    (rnti : Nat) : Nat :=
  rbgsOf (weightOf weights ueDb.length rnti) (availableRbgs sched)

/-- The RBGs that are left when each user has those of its weight. -/
def leftover (ueDb : List (SchedUe p g)) (sched : SfSched p g κ) (weights : OrdMap Nat ℚ) : Nat :=
  availableRbgs sched - (ueDb.map fun ue => weightRbgs ueDb sched weights ue.rnti).sum

/-- The share of a user: the RBGs of its weight, and one for each of the first entries of `ue_rntis`
that is the user, as far as the rest goes. -/
def shareOf (s : TimePf p g) (ueDb : List (SchedUe p g)) (sched : SfSched p g κ)
    (weights : OrdMap Nat ℚ) (rnti : Nat) : Nat :=
  weightRbgs ueDb sched weights rnti + (s.firstRntis (leftover ueDb sched weights)).count rnti

/-- A loop over the first entries of `ue_rntis` stays inside for up to 10 of them. -/
theorem foldlM_firstRntis {β : Type} (s : TimePf p g) {body : β → Nat → Option β}
    {f : β → Nat → β}
    (hbody : ∀ acc j rnti, s.ueRntis[j]? = some rnti → body acc j = some (f acc rnti))
    (acc : β) (k : Nat) (hk : k ≤ maxRntis) :
    (List.range k).foldlM body acc = some ((s.firstRntis k).foldl f acc) := by
  induction k with
  | zero => rfl
  | succ k ih =>
    have hget : s.ueRntis[k]? = some s.ueRntis[k] := Vector.getElem?_eq_getElem hk
    have hlast : s.firstRntis (k + 1) = s.firstRntis k ++ [s.ueRntis[k]] := by
      unfold firstRntis
      rw [List.take_add_one, Vector.getElem?_toList, hget]
      rfl
    rw [List.range_succ, List.foldlM_append, ih (Nat.le_of_succ_le hk), hlast, List.foldl_append]
    show (List.foldlM body ((s.firstRntis k).foldl f acc) [k]) = _
    rw [List.foldlM_cons, hbody _ k _ hget]
    rfl

/-- What the loop over the weights writes. -/
theorem foldl_insert (val : Nat → Nat) (l : List Nat) (m : OrdMap Nat Nat) (total : Nat)
    (htotal : total < 2 ^ 8) :
    (∀ r, (l.foldl (fun acc r => (acc.1.insert r (val r), (acc.2 + val r) % 2 ^ 8)) (m, total)).1.find? r
      = if r ∈ l then some (val r) else m.find? r) ∧
    (l.foldl (fun acc r => (acc.1.insert r (val r), (acc.2 + val r) % 2 ^ 8)) (m, total)).2
      = (total + (l.map val).sum) % 2 ^ 8 := by
  induction l generalizing m total with
  | nil => exact ⟨fun r => by simp, (Nat.mod_eq_of_lt htotal).symm⟩
  | cons a l ih =>
    obtain ⟨hfind, hsum⟩ := ih (m.insert a (val a)) ((total + val a) % 2 ^ 8)
      (Nat.mod_lt _ (by decide))
    rw [List.foldl_cons]
    constructor
    · intro r
      rw [hfind r, OrdMap.find?_insert]
      by_cases hmem : r ∈ l
      · simp [hmem]
      · by_cases heq : r = a
        · simp [heq]
        · simp [hmem, heq]
    · rw [hsum, List.map_cons, List.sum_cons]
      omega

/-- What the loop over the remaining RBGs writes, as long as 16 bits are enough. -/
theorem foldl_increment (l : List Nat) (m : OrdMap Nat Nat) (r : Nat)
    (hlt : (m.find? r).getD 0 + l.count r < 2 ^ 16) :
    ((l.foldl (fun m r => m.insert r (((m.find? r).getD 0 + 1) % 2 ^ 16)) m).find? r).getD 0
      = (m.find? r).getD 0 + l.count r := by
  induction l generalizing m with
  | nil => simp
  | cons a l ih =>
    rw [List.foldl_cons]
    by_cases heq : a = r
    · subst heq
      rw [List.count_cons_self] at hlt ⊢
      have hvalue : ((m.insert a (((m.find? a).getD 0 + 1) % 2 ^ 16)).find? a).getD 0
          = (m.find? a).getD 0 + 1 := by
        rw [OrdMap.find?_insert_self, Option.getD_some, Nat.mod_eq_of_lt (by omega)]
      rw [ih _ (by rw [hvalue]; omega), hvalue]
      omega
    · rw [List.count_cons_of_ne heq] at hlt ⊢
      have hvalue : (m.insert a (((m.find? a).getD 0 + 1) % 2 ^ 16)).find? r = m.find? r :=
        OrdMap.find?_insert_ne m _ (Ne.symm heq)
      rw [ih _ (by rw [hvalue]; exact hlt), hvalue]

/-- Entries that belong to users, counted for each user. -/
theorem sum_count {rntis l : List Nat} (hnodup : rntis.Nodup) (hmem : ∀ r ∈ l, r ∈ rntis) :
    (rntis.map fun r => l.count r).sum = l.length := by
  induction l with
  | nil => simp
  | cons a l ih =>
    have hone : (rntis.map fun r => if a == r then 1 else 0).sum = 1 := by
      have hcount : (rntis.map fun r => if a == r then 1 else 0).sum = rntis.count a := by
        clear hnodup hmem ih
        induction rntis with
        | nil => rfl
        | cons r rntis ih =>
          rw [List.map_cons, List.sum_cons, ih, List.count_cons, Nat.add_comm, Bool.beq_comm]
      rw [hcount, List.count_eq_one_of_mem hnodup (hmem a List.mem_cons_self)]
    have hrest := ih fun r h => hmem r (List.mem_cons_of_mem a h)
    have hsplit : (rntis.map fun r => (a :: l).count r)
        = rntis.map fun r => l.count r + if a == r then 1 else 0 := by
      refine List.map_congr_left fun r _ => ?_
      rw [List.count_cons]
    rw [hsplit, List.sum_map_add, hrest, hone, List.length_cons]

/-! ### The users of the queue -/

/-- The users of the DL queue when the subframe has been started. -/
def dlUsers (s : TimePf p g) (ueDb : List (SchedUe p g)) (sched : SfSched p g κ) :
    List (UeCtxt p g) :=
  if s.currentTtiRx = some sched.ttiRx then s.dlQueue
  else (ueDb.map (UeCtxt.newTti sched)).filter UeCtxt.wantsDl

theorem startTti_dlQueue {s s' : TimePf p g} {ueDb : List (SchedUe p g)} {sched : SfSched p g κ}
    (h : s.startTti ueDb sched = some s') :
    s'.dlQueue = s.dlUsers ueDb sched ∧ s'.rbgAlloc = s.rbgAlloc := by
  unfold startTti at h
  unfold dlUsers
  split at h
  · rename_i hsame
    cases h
    exact ⟨(if_pos hsame).symm, rfl⟩
  · rename_i hnew
    simp only [newTti] at h
    split at h
    · cases h
    · split at h
      · cases h
        exact ⟨(if_neg hnew).symm, rfl⟩
      · cases h

/-! ### The shares -/

/-- The weights are not negative, and are at most 1 over the users. -/
structure WeightsOk (ueDb : List (SchedUe p g)) (weights : OrdMap Nat ℚ) : Prop where
  nonneg : ∀ rnti w, weights.find? rnti = some w → 0 ≤ w
  sum_le : (ueDb.map fun ue => (weights.find? ue.rnti).getD 0).sum ≤ 1

/-- The first entries of `ue_rntis` are the users, once each. What is left is for no more than the
entries of `ue_rntis`, all of which it goes to are users, and a user of the queue without a share has no
new data. -/
structure SharesFit (s : TimePf p g) (ueDb : List (SchedUe p g)) (sched : SfSched p g κ)
    (weights : OrdMap Nat ℚ) : Prop where
  listed : (s.firstRntis ueDb.length).Perm (ueDb.map SchedUe.rnti)
  leftover_le : leftover ueDb sched weights ≤ maxRntis
  users : ∀ rnti ∈ s.firstRntis (leftover ueDb sched weights), rnti ∈ ueDb.map SchedUe.rnti
  noData : ∀ c ∈ s.dlUsers ueDb sched, c.dlNewtxH.isSome = true → ∀ ue ∈ ueDb, ue.rnti = c.ue.rnti →
    s.shareOf ueDb sched weights ue.rnti = 0 → ue.requestedDlBytes = 0

section Shares

variable {s : TimePf p g} {ueDb : List (SchedUe p g)} {sched : SfSched p g κ}
  {weights : OrdMap Nat ℚ}

theorem weightOf_nonneg (h : WeightsOk ueDb weights) (n rnti : Nat) :
    0 ≤ weightOf weights n rnti := by
  unfold weightOf
  split
  · cases hfind : weights.find? rnti with
    | none => exact le_refl _
    | some w => exact h.nonneg rnti w hfind
  · exact floatRound_nonneg _ _

theorem sum_weightOf_le (h : WeightsOk ueDb weights) :
    (ueDb.map fun ue => weightOf weights ueDb.length ue.rnti).sum ≤ 1 + 1 / 2 ^ 22 := by
  unfold weightOf
  split
  · exact le_trans h.sum_le (by norm_num)
  · rw [List.map_const', List.sum_replicate, nsmul_eq_mul]
    cases hn : ueDb.length with
    | zero => norm_num
    | succ n => exact equalWeight_le (Nat.succ_pos n)

theorem weightOf_le (h : WeightsOk ueDb weights) {ue : SchedUe p g} (hue : ue ∈ ueDb) :
    weightOf weights ueDb.length ue.rnti ≤ 2 := by
  have hsum := sum_weightOf_le h
  have hle : weightOf weights ueDb.length ue.rnti
      ≤ (ueDb.map fun ue => weightOf weights ueDb.length ue.rnti).sum :=
    List.single_le_sum (by
      intro w hw
      obtain ⟨ue', -, rfl⟩ := List.mem_map.mp hw
      exact weightOf_nonneg h _ _) _ (List.mem_map_of_mem hue)
  calc weightOf weights ueDb.length ue.rnti ≤ 1 + 1 / 2 ^ 22 := le_trans hle hsum
    _ ≤ 2 := by norm_num

theorem availableRbgs_eq (hg : g ≤ maxNofRbgs) (sched : SfSched p g κ) :
    availableRbgs sched = sched.dlMask.compl.count ∧ availableRbgs sched ≤ maxNofRbgs := by
  have hle := sched.dlMask.compl.count_le
  have heq : availableRbgs sched = sched.dlMask.compl.count :=
    Nat.mod_eq_of_lt (Nat.lt_of_le_of_lt (Nat.le_trans hle hg) (by decide))
  exact ⟨heq, heq ▸ Nat.le_trans hle hg⟩

/-- The weights never give more than the free RBGs. -/
theorem sum_weightRbgs_le (hg : g ≤ maxNofRbgs) (h : WeightsOk ueDb weights)
    (sched : SfSched p g κ) :
    (ueDb.map fun ue => weightRbgs ueDb sched weights ue.rnti).sum ≤ availableRbgs sched := by
  have hnonneg : ∀ w ∈ ueDb.map fun ue => weightOf weights ueDb.length ue.rnti, 0 ≤ w := by
    intro w hw
    obtain ⟨ue, -, heq⟩ := List.mem_map.mp hw
    exact heq ▸ weightOf_nonneg h _ _
  have hle := sum_rbgsOf_le (availableRbgs_eq hg sched).2 hnonneg (sum_weightOf_le h)
  rw [List.map_map] at hle
  exact hle

/-- The shares are the RBGs of the weights and of the rest, and together all free ones. -/
theorem computeShares_spec (hg : g ≤ maxNofRbgs) (hweights : WeightsOk ueDb weights)
    (hnodup : (ueDb.map SchedUe.rnti).Nodup) (hfew : ueDb.length ≤ maxRntis)
    (hfit : SharesFit s ueDb sched weights) :
    ∃ rbgAlloc, s.computeShares ueDb sched weights = some rbgAlloc ∧
      (∀ ue ∈ ueDb, (rbgAlloc.find? ue.rnti).getD 0 = s.shareOf ueDb sched weights ue.rnti) ∧
      (ueDb.map fun ue => s.shareOf ueDb sched weights ue.rnti).sum = availableRbgs sched := by
  obtain ⟨-, hbound⟩ := availableRbgs_eq hg sched
  have hmax : maxNofRbgs = 25 := rfl
  have hten : maxRntis = 10 := rfl
  have hsum := sum_weightRbgs_le hg hweights sched
  have hnum : ueDb.length % 2 ^ 8 = ueDb.length := Nat.mod_eq_of_lt (by omega)
  -- The loop over the weights, and the one over what is left.
  have hfirst := @foldlM_firstRntis p g _ s
    (assignShare s.ueRntis weights ueDb.length (availableRbgs sched))
    (fun acc r => (acc.1.insert r (weightRbgs ueDb sched weights r),
      (acc.2 + weightRbgs ueDb sched weights r) % 2 ^ 8))
    (fun acc j rnti hget => by rw [assignShare, hget]; rfl) (s.rbgAlloc, 0) ueDb.length hfew
  obtain ⟨hfind, htotal⟩ := foldl_insert (weightRbgs ueDb sched weights)
    (s.firstRntis ueDb.length) s.rbgAlloc 0 (by decide)
  generalize (s.firstRntis ueDb.length).foldl _ (s.rbgAlloc, 0) = acc at hfirst hfind htotal
  have hperm : ((s.firstRntis ueDb.length).map (weightRbgs ueDb sched weights)).sum
      = (ueDb.map fun ue => weightRbgs ueDb sched weights ue.rnti).sum := by
    rw [(hfit.listed.map _).sum_eq, List.map_map]
    rfl
  rw [Nat.zero_add, hperm, Nat.mod_eq_of_lt (by omega)] at htotal
  have hsecond := @foldlM_firstRntis p g _ s (addRemaining s.ueRntis)
    (fun m r => m.insert r (((m.find? r).getD 0 + 1) % 2 ^ 16))
    (fun acc j rnti hget => by rw [addRemaining, hget]) acc.1 (leftover ueDb sched weights)
    hfit.leftover_le
  have hrest : (availableRbgs sched + 2 ^ 8 - acc.2) % 2 ^ 8 = leftover ueDb sched weights := by
    rw [htotal, leftover]
    omega
  refine ⟨(s.firstRntis (leftover ueDb sched weights)).foldl
    (fun m r => m.insert r (((m.find? r).getD 0 + 1) % 2 ^ 16)) acc.1, ?_, ?_, ?_⟩
  · unfold computeShares
    simp only [hnum, hfirst, hrest]
    exact hsecond
  · intro ue hue
    have hmem : ue.rnti ∈ s.firstRntis ueDb.length :=
      hfit.listed.mem_iff.mpr (List.mem_map_of_mem hue)
    have hval : (acc.1.find? ue.rnti).getD 0 = weightRbgs ueDb sched weights ue.rnti := by
      rw [hfind, if_pos hmem, Option.getD_some]
    have hsmall : weightRbgs ueDb sched weights ue.rnti < 2 ^ 15 := by
      have hle : weightRbgs ueDb sched weights ue.rnti
          ≤ (ueDb.map fun ue => weightRbgs ueDb sched weights ue.rnti).sum :=
        List.single_le_sum (fun _ _ => Nat.zero_le _) _ (List.mem_map_of_mem hue)
      omega
    have hcount : (s.firstRntis (leftover ueDb sched weights)).count ue.rnti ≤ maxRntis := by
      refine Nat.le_trans List.count_le_length ?_
      rw [firstRntis, List.length_take, Vector.length_toList]
      exact Nat.min_le_right _ _
    rw [foldl_increment _ _ _ (by rw [hval]; omega), hval, shareOf]
  · have hshare : (ueDb.map fun ue => s.shareOf ueDb sched weights ue.rnti)
        = ueDb.map fun ue => weightRbgs ueDb sched weights ue.rnti
          + (s.firstRntis (leftover ueDb sched weights)).count ue.rnti := rfl
    have hcount := sum_count hnodup hfit.users
    rw [List.map_map] at hcount
    have hlength : (s.firstRntis (leftover ueDb sched weights)).length
        = leftover ueDb sched weights := by
      have hle := hfit.leftover_le
      rw [firstRntis, List.length_take, Vector.length_toList]
      exact Nat.min_eq_left hle
    rw [hshare, List.sum_map_add]
    have hcount : (ueDb.map fun ue => (s.firstRntis (leftover ueDb sched weights)).count ue.rnti).sum
        = leftover ueDb sched weights := hcount.trans hlength
    rw [hcount]
    unfold leftover
    omega

end Shares

/-! ### What a turn of the loop adds -/

section Turn

variable {cch : Pdcch p g κ} {sched sched' : SfSched p g κ} {ue : SchedUe p g} {c : UeCtxt p g}
  {share : Nat} {code : AllocResult}

theorem keepFirst_bits_of_not_mem {is : List (Fin g)} {n : Nat} {mask : BoundedBitset g} {j : Fin g}
    (hj : j ∉ is) : (SfSched.keepFirst is n mask).bits j = mask.bits j := by
  induction is generalizing n mask with
  | nil => rfl
  | cons i is ih =>
    have hne : j ≠ i := List.ne_of_not_mem_cons hj
    have hrest : j ∉ is := List.not_mem_of_not_mem_cons hj
    unfold SfSched.keepFirst
    split
    · exact ih hrest
    · rw [ih hrest]
      exact if_neg hne

/-- The loop keeps no more positions than it may. -/
theorem countP_keepFirst {is : List (Fin g)} {n : Nat} {mask : BoundedBitset g} (hnodup : is.Nodup) :
    is.countP (SfSched.keepFirst is n mask).bits ≤ n := by
  induction is generalizing n mask with
  | nil => exact Nat.zero_le n
  | cons i is ih =>
    obtain ⟨hnot, hrest⟩ := List.nodup_cons.mp hnodup
    unfold SfSched.keepFirst
    split
    · rename_i hkept
      simp only [Bool.and_eq_true, decide_eq_true_eq] at hkept
      have hcount := @ih (n - 1) mask hrest
      rw [List.countP_cons, keepFirst_bits_of_not_mem hnot, hkept.1]
      simp only [if_true]
      omega
    · have hcount := @ih n (mask.unset i) hrest
      have hout : (SfSched.keepFirst is n (mask.unset i)).bits i = false := by
        rw [keepFirst_bits_of_not_mem hnot]
        exact if_pos rfl
      rw [List.countP_cons, hout]
      simpa using hcount

theorem count_weightedMask {optMask : BoundedBitset g} (hpos : 0 < share) :
    (SfSched.weightedMask share optMask).count ≤ share := by
  have hbits (b : BoundedBitset g) : b.count = (List.finRange g).countP b.bits := by
    unfold BoundedBitset.count
    rw [← List.map_coe_finRange_eq_range, List.countP_map]
    refine List.countP_congr fun i _ => ?_
    simp [BoundedBitset.bit]
  unfold SfSched.weightedMask
  rw [if_pos hpos, hbits]
  exact countP_keepFirst (List.nodup_finRange g)

theorem allocDlUser_adds {mask : BoundedBitset g} {pid : Nat} {pidEmpty : Bool}
    (h : sched.allocDlUser cch ue mask pid pidEmpty = some (code, sched')) :
    ∃ added, sched'.dataAllocs = sched.dataAllocs ++ added ∧ ∀ a ∈ added, a = ⟨ue.rnti, mask, pid⟩ := by
  obtain ⟨s₁, hgrants, hcases⟩ := SfSched.allocDlUser_cases h
  have hsame := (dl_of_grants hgrants).2
  rcases hcases with rfl | ⟨-, -, pdcch, rfl⟩
  · exact ⟨[], by rw [List.append_nil, hsame], fun a ha => (List.not_mem_nil ha).elim⟩
  · exact ⟨[⟨ue.rnti, mask, pid⟩], by rw [← hsame], fun a ha => List.mem_singleton.mp ha⟩

/-- The entry is a retransmission of the user, or new data within the share. -/
def WithinShare (c : UeCtxt p g) (rnti share : Nat) (a : DlAlloc g) : Prop :=
  a.rnti = rnti ∧
    ((∃ h, c.dlRetxH = some h ∧ a.pid = h.id) ∨ (c.dlNewtxH = some a.pid ∧ a.userMask.count ≤ share))

/-- The turn of a user adds entries to the list of allocations. -/
def Adds (sched sched' : SfSched p g κ) (P : DlAlloc g → Prop) : Prop :=
  ∃ added, sched'.dataAllocs = sched.dataAllocs ++ added ∧ ∀ a ∈ added, P a

theorem Adds.refl (sched : SfSched p g κ) (P : DlAlloc g → Prop) : Adds sched sched P :=
  ⟨[], (List.append_nil _).symm, fun _ ha => (List.not_mem_nil ha).elim⟩

theorem Adds.trans {sched₁ sched₂ sched₃ : SfSched p g κ} {P : DlAlloc g → Prop}
    (h : Adds sched₁ sched₂ P) (h' : Adds sched₂ sched₃ P) : Adds sched₁ sched₃ P := by
  obtain ⟨added, hadded, hall⟩ := h
  obtain ⟨added', hadded', hall'⟩ := h'
  refine ⟨added ++ added', by rw [hadded', hadded, List.append_assoc], fun a ha => ?_⟩
  rcases List.mem_append.mp ha with ha | ha
  · exact hall a ha
  · exact hall' a ha

theorem Adds.mono {P Q : DlAlloc g → Prop} (h : Adds sched sched' P) (himp : ∀ a, P a → Q a) :
    Adds sched sched' Q := by
  obtain ⟨added, hadded, hall⟩ := h
  exact ⟨added, hadded, fun a ha => himp a (hall a ha)⟩

theorem adds_tryDlRetxAlloc {h : DlHarq g} (hretx : c.dlRetxH = some h)
    (hrun : sched.tryDlRetxAlloc cch ue h = some (code, sched')) :
    Adds sched sched' (WithinShare c ue.rnti share) := by
  have hretxOf {s₁ s₂ : SfSched p g κ} {mask : BoundedBitset g} {code : AllocResult}
      (hone : s₁.allocDlUser cch ue mask h.id false = some (code, s₂)) :
      Adds s₁ s₂ (WithinShare c ue.rnti share) :=
    Adds.mono (allocDlUser_adds hone) fun _ ha => ha ▸ ⟨rfl, .inl ⟨h, hretx, rfl⟩⟩
  unfold SfSched.tryDlRetxAlloc at hrun
  split at hrun
  · cases hrun
  · rename_i s₁ hfirst
    split at hrun
    · cases hrun
    · split at hrun
      · exact (hretxOf hfirst).trans (hretxOf hrun)
      · cases hrun
        exact hretxOf hfirst
  · cases hrun
    rename_i hfirst
    exact hretxOf hfirst

theorem adds_tryDlNewtx (hdata : c.dlNewtxH.isSome = true → share = 0 → ue.requestedDlBytes = 0)
    (hrun : tryDlNewtx cch c ue share code sched = some sched') :
    Adds sched sched' (WithinShare c ue.rnti share) := by
  unfold tryDlNewtx at hrun
  split at hrun
  · cases hrun
    exact .refl _ _
  · rename_i pid hpid
    split at hrun
    · cases hrun
      exact .refl _ _
    · obtain ⟨⟨code', s₁⟩, hgreedy, rfl⟩ := Option.map_eq_some_iff.mp hrun
      unfold SfSched.tryDlNewtxAllocGreedy at hgreedy
      split at hgreedy
      · cases hgreedy
        exact .refl _ _
      · split at hgreedy
        · cases hgreedy
          exact .refl _ _
        · rename_i hbytes
          split at hgreedy
          · cases hgreedy
          · split at hgreedy
            · cases hgreedy
              exact .refl _ _
            · rename_i optMask _
              have hpos : 0 < share := by
                by_contra hzero
                exact hbytes (hdata (by rw [hpid]; rfl) (by omega))
              refine Adds.mono (allocDlUser_adds hgreedy) fun a ha => ?_
              subst ha
              exact ⟨rfl, .inr ⟨hpid, count_weightedMask hpos⟩⟩

theorem adds_tryDlAlloc (hdata : c.dlNewtxH.isSome = true → share = 0 → ue.requestedDlBytes = 0)
    (hrun : tryDlAlloc cch c ue share sched = some sched') :
    Adds sched sched' (WithinShare c ue.rnti share) := by
  unfold tryDlAlloc at hrun
  split at hrun
  · exact adds_tryDlNewtx hdata hrun
  · rename_i h hretx
    split at hrun
    · cases hrun
    · rename_i s₁ hfirst
      cases hrun
      exact adds_tryDlRetxAlloc hretx hfirst
    · rename_i code s₁ hfirst
      exact (adds_tryDlRetxAlloc hretx hfirst).trans (adds_tryDlNewtx hdata hrun)

end Turn

/-! ### A subframe -/

section Subframe

variable (cch : Pdcch p g κ) (dlOrder : DlOrder p g) (ulOrder : UlOrder p g)

/-- What `sched_dl_users` has to do: the shares are within `ue_rntis`, are the free RBGs together, are
at least what the weights say, and no new data takes more RBGs. -/
def SharesHold (s : TimePf p g) (ueDb : List (SchedUe p g)) (sched : SfSched p g κ)
    (weights : OrdMap Nat ℚ) : Prop :=
  ∃ rbgAlloc, s.computeShares ueDb sched weights = some rbgAlloc ∧
    (ueDb.map fun ue => (rbgAlloc.find? ue.rnti).getD 0).sum = sched.dlMask.compl.count ∧
    (∀ ue ∈ ueDb, ⌊weightOf weights ueDb.length ue.rnti * sched.dlMask.compl.count⌋₊
      ≤ (rbgAlloc.find? ue.rnti).getD 0) ∧
    ∀ t sched', schedDlUsers cch dlOrder s ueDb sched weights = some (t, sched') →
      Adds sched sched' fun a => ∃ c ∈ s.dlUsers ueDb sched, ∃ ue ∈ ueDb, ue.rnti = c.ue.rnti ∧
        WithinShare c ue.rnti ((rbgAlloc.find? ue.rnti).getD 0) a

variable {cch} {dlOrder}

theorem adds_loop {ueDb : List (SchedUe p g)} {rbgAlloc : OrdMap Nat Nat} {q : List (UeCtxt p g)}
    {sched sched' : SfSched p g κ}
    (hdata : ∀ c ∈ q, c.dlNewtxH.isSome = true → ∀ ue ∈ ueDb, ue.rnti = c.ue.rnti →
      (rbgAlloc.find? ue.rnti).getD 0 = 0 → ue.requestedDlBytes = 0)
    (hrun : q.foldlM (allocDlOf cch ueDb rbgAlloc) sched = some sched') :
    Adds sched sched' fun a => ∃ c ∈ q, ∃ ue ∈ ueDb, ue.rnti = c.ue.rnti ∧
      WithinShare c ue.rnti ((rbgAlloc.find? ue.rnti).getD 0) a := by
  induction q generalizing sched with
  | nil =>
    cases hrun
    exact .refl _ _
  | cons c q ih =>
    rw [List.foldlM_cons] at hrun
    obtain ⟨s₁, hturn, hrest⟩ := Option.bind_eq_some_iff.mp hrun
    have hlater := ih (fun c' hc' => hdata c' (List.mem_cons_of_mem c hc')) hrest
    unfold allocDlOf at hturn
    split at hturn
    · cases hturn
    · rename_i ue hfind
      have hue := List.mem_of_find?_eq_some hfind
      have hrnti : ue.rnti = c.ue.rnti := by simpa using List.find?_some hfind
      have hfirst := adds_tryDlAlloc
        (fun hsome hzero => hdata c List.mem_cons_self hsome ue hue hrnti hzero) hturn
      exact (hfirst.mono fun a ha => ⟨c, List.mem_cons_self, ue, hue, hrnti, ha⟩).trans
        (hlater.mono fun a ⟨c', hc', hrest⟩ => ⟨c', List.mem_cons_of_mem c hc', hrest⟩)

theorem sharesHold_of_fit {s : TimePf p g} {ueDb : List (SchedUe p g)} {sched : SfSched p g κ}
    {weights : OrdMap Nat ℚ} (hg : g ≤ maxNofRbgs) (hweights : WeightsOk ueDb weights)
    (hnodup : (ueDb.map SchedUe.rnti).Nodup) (hfew : ueDb.length ≤ maxRntis)
    (hfit : SharesFit s ueDb sched weights) : SharesHold cch dlOrder s ueDb sched weights := by
  obtain ⟨rbgAlloc, hshares, hshare, hsum⟩ := computeShares_spec hg hweights hnodup hfew hfit
  obtain ⟨havailable, hbound⟩ := availableRbgs_eq hg sched
  refine ⟨rbgAlloc, hshares, ?_, fun ue hue => ?_, fun t sched' hrun => ?_⟩
  · rw [List.map_congr_left hshare, hsum, havailable]
  · rw [hshare ue hue, ← havailable]
    exact Nat.le_trans
      (floor_le_rbgsOf hbound (weightOf_nonneg hweights _ _) (weightOf_le hweights hue))
      (Nat.le_add_right _ _)
  · unfold schedDlUsers at hrun
    rw [hshares] at hrun
    simp only at hrun
    split at hrun
    · cases hrun
    · rename_i s₁ hstart
      split at hrun
      · cases hrun
      · rename_i sched₁ hloop
        cases hrun
        obtain ⟨hqueue, halloc⟩ := startTti_dlQueue hstart
        rw [hqueue, halloc] at hloop
        have hadds := adds_loop (fun c hc hsome ue hue hrnti hzero =>
          hfit.noData c ((dlOrder.perm _).mem_iff.mp hc) hsome ue hue hrnti
            (hshare ue hue ▸ hzero)) hloop
        refine hadds.mono fun a hex => ?_
        obtain ⟨c, hc, hrest⟩ := hex
        exact ⟨c, (dlOrder.perm _).mem_iff.mp hc, hrest⟩

/-! ### Runs -/

variable (cch) (dlOrder)

/-- In a subframe with DL users, `new_tti` stays inside of `ue_rntis`, and `sched_dl_users` does what it
has to. -/
def SubframeHolds (s : TimePf p g) (c : SubframeInput p g κ) : Prop :=
  c.dlActive = true →
    (∀ sched : SfSched p g κ,
      ((c.ueDb.map (UeCtxt.newTti sched)).filter UeCtxt.wantsDl).length ≤ maxRntis) ∧
    ∀ t sched, callsBeforeDl cch ulOrder s c = some (t, sched) →
      SharesHold cch dlOrder t c.ueDb sched c.weights

/-- There are no more users than entries of `ue_rntis`, and the shares fit in front of
`sched_dl_users`. -/
def SubframeFits (s : TimePf p g) (c : SubframeInput p g κ) : Prop :=
  c.dlActive = true →
    c.ueDb.length ≤ maxRntis ∧
    ∀ t sched, callsBeforeDl cch ulOrder s c = some (t, sched) → SharesFit t c.ueDb sched c.weights

/-- In every run whose subframes fit, every subframe shares the free RBGs by the weights. -/
theorem sharesRun_of_fits (hg : g ≤ maxNofRbgs) {cs : List (SubframeInput p g κ)}
    (hinputs : ∀ c ∈ cs, (c.ueDb.map SchedUe.rnti).Nodup ∧ WeightsOk c.ueDb c.weights)
    (hfits : StepsWithin (scheduleUsers cch dlOrder ulOrder) (SubframeFits cch ulOrder) (init p g) cs) :
    StepsWithin (scheduleUsers cch dlOrder ulOrder) (SubframeHolds cch dlOrder ulOrder) (init p g) cs := by
  rw [stepsWithin_iff_forall] at hfits ⊢
  intro before c after hcs s outputs hrun hactive
  obtain ⟨hnodup, hweights⟩ := hinputs c (hcs ▸ List.mem_append_right _ List.mem_cons_self)
  obtain ⟨hfew, hfit⟩ := hfits before c after hcs s outputs hrun hactive
  refine ⟨fun sched => ?_, fun t sched hcalls => ?_⟩
  · refine Nat.le_trans (List.length_filter_le _ _) ?_
    rw [List.length_map]
    exact hfew
  · exact sharesHold_of_fit hg hweights hnodup hfew (hfit t sched hcalls)

end Subframe

/-! ### A single user -/

/-- The users with a retransmission, and then the others. -/
def someDlOrder (p g : Nat) : DlOrder p g where
  pop q := q.filter (fun c => c.dlRetxH.isSome) ++ q.filter fun c => !c.dlRetxH.isSome
  perm q := List.filter_append_perm _ q
  retxFirst q := by
    refine List.pairwise_append.mpr ⟨?_, ?_, fun c hc c' _ _ => (List.mem_filter.mp hc).2⟩
    · exact List.pairwise_of_forall_mem_list fun c hc c' _ _ => (List.mem_filter.mp hc).2
    · refine List.pairwise_of_forall_mem_list fun c _ c' hc' hretx => ?_
      have hnot := (List.mem_filter.mp hc').2
      simp only [hretx, Bool.not_true, Bool.false_eq_true] at hnot

/-- The loop over what is left runs over the end of `ue_rntis`. -/
theorem foldlM_addRemaining_eq_none (ueRntis : Vector Nat maxRntis) (rbgAlloc : OrdMap Nat Nat) {k : Nat}
    (hk : maxRntis < k) : (List.range k).foldlM (addRemaining ueRntis) rbgAlloc = none := by
  obtain ⟨d, rfl⟩ := Nat.exists_eq_add_of_lt hk
  have hbehind (m : OrdMap Nat Nat) : addRemaining ueRntis m maxRntis = none := by
    unfold addRemaining
    rw [Vector.getElem?_eq_none (Nat.le_refl _)]
  have hfirst : (List.range (maxRntis + 1)).foldlM (addRemaining ueRntis) rbgAlloc = none := by
    rw [List.range_succ, List.foldlM_append]
    cases (List.range maxRntis).foldlM (addRemaining ueRntis) rbgAlloc with
    | none => rfl
    | some m => simp [hbehind]
  rw [Nat.add_right_comm, List.range_add, List.foldlM_append, hfirst]
  rfl

/-- A user of a cell of 25 PRBs with data for the DL. -/
def downloader : SchedUe 25 13 where
  rnti := 70
  carrierConfigured := true
  carrierActive := true
  puschEnabled _ := false
  ulHarq := ⟨false, false, false, false, .empty, by decide⟩
  pendingUlNewData := 0
  requiredPrbUl := 0
  requiredPrbUl_pos h := h
  pdschEnabled := true
  pendingDlHarq := none
  emptyDlHarq := some 0
  dciFormat1a := false
  requestedDlBytes := 1000
  carriesControl _ := true
  findOptimalRbgmask mask := some mask.compl
  periodicCqi := false
  isPcell := true
  otherUlAlloc := false
  requiredPrbUci := 0

/-- A subframe with a free grid, in which all RBGs are for this user. -/
def downloadAt (ttiRx : Nat) : SubframeInput 25 13 Unit where
  ueDb := [downloader]
  sched := ⟨ttiRx, .empty 13, .empty 25, [], [], ()⟩
  weights := (∅ : OrdMap Nat ℚ).insert 70 1
  file := none
  dlActive := true

theorem find?_weights (ttiRx rnti : Nat) :
    (downloadAt ttiRx).weights.find? rnti = if rnti = 70 then some 1 else none := by
  show ((∅ : OrdMap Nat ℚ).insert 70 1).find? rnti = _
  rw [OrdMap.find?_insert]
  simp

theorem weightOf_downloadAt (ttiRx rnti : Nat) :
    weightOf (downloadAt ttiRx).weights 1 rnti = if rnti = 70 then 1 else 0 := by
  have hsize : (downloadAt ttiRx).weights.size > 0 := by
    show 0 < ((∅ : OrdMap Nat ℚ).insert 70 1).size
    rw [show ((∅ : OrdMap Nat ℚ).insert 70 1).size = 1 from rfl]
    exact Nat.zero_lt_one
  rw [weightOf, if_pos hsize, find?_weights]
  split
  · rfl
  · rfl

/-- The user has all RBGs of a free grid. -/
theorem weightRbgs_downloader {ttiRx : Nat} {sched : SfSched 25 13 Unit} (hfree : availableRbgs sched = 13) :
    13 ≤ weightRbgs [downloader] sched (downloadAt ttiRx).weights downloader.rnti := by
  unfold weightRbgs
  rw [hfree, List.length_singleton, weightOf_downloadAt, if_pos (show downloader.rnti = 70 from rfl)]
  have hfloor : ⌊(1 : ℚ) * (13 : Nat)⌋₊ ≤ rbgsOf 1 13 :=
    floor_le_rbgsOf (by decide) (by norm_num) (by norm_num)
  rwa [one_mul, Nat.floor_natCast] at hfloor

theorem weightsOk_downloadAt (ttiRx : Nat) :
    WeightsOk (downloadAt ttiRx).ueDb (downloadAt ttiRx).weights := by
  refine ⟨fun rnti w hw => ?_, ?_⟩
  · rw [find?_weights] at hw
    split at hw
    · cases hw
      norm_num
    · cases hw
  · show (([downloader].map fun ue => ((downloadAt ttiRx).weights.find? ue.rnti).getD 0).sum) ≤ 1
    simp [find?_weights, downloader]

/-- In a subframe whose UL users come first, the entries of `ue_rntis` are those of the subframe. -/
theorem sharesRun_single :
    StepsWithin (scheduleUsers (roomyPdcch 25 13 Unit) (someDlOrder 25 13) (someOrder 25 13))
      (SubframeHolds (roomyPdcch 25 13 Unit) (someDlOrder 25 13) (someOrder 25 13)) (init 25 13)
      [downloadAt 0] := by
  refine sharesRun_of_fits _ _ _ (by decide) (fun c hc => ?_) ⟨fun _ => ⟨?_, ?_⟩, fun _ _ _ => trivial⟩
  · rw [List.mem_singleton.mp hc]
    exact ⟨List.nodup_singleton _, weightsOk_downloadAt 0⟩
  · decide
  · intro t sched hcalls
    obtain ⟨t₀, sched₀, heq, hlisted, hfree⟩ : ∃ t₀ sched₀,
        callsBeforeDl (roomyPdcch 25 13 Unit) (someOrder 25 13) (init 25 13) (downloadAt 0)
          = some (t₀, sched₀) ∧ t₀.firstRntis 1 = [70] ∧ availableRbgs sched₀ = 13 :=
      ⟨_, _, rfl, rfl, by decide⟩
    rw [heq] at hcalls
    cases hcalls
    have hrbgs := @weightRbgs_downloader 0 sched hfree
    have hleft : leftover [downloader] sched (downloadAt 0).weights = 0 := by
      unfold leftover
      rw [List.map_singleton, List.sum_singleton, hfree]
      exact Nat.sub_eq_zero_of_le hrbgs
    refine ⟨?_, ?_, fun rnti hrnti => ?_, fun c hc _ ue hue _ hzero => ?_⟩
    · show (t.firstRntis 1).Perm [70]
      rw [hlisted]
    · show leftover [downloader] sched (downloadAt 0).weights ≤ maxRntis
      rw [hleft]
      exact Nat.zero_le _
    · replace hrnti : rnti ∈ t.firstRntis (leftover [downloader] sched (downloadAt 0).weights) := hrnti
      rw [hleft] at hrnti
      cases hrnti
    · rw [List.mem_singleton.mp hue, shareOf] at hzero
      have hnone := Nat.eq_zero_of_add_eq_zero_right hzero
      exact absurd hnone (Nat.ne_of_gt (Nat.lt_of_lt_of_le (by decide) hrbgs))

/-- In the first subframe whose DL users come first, the RBGs that are left go to entries behind the
end. -/
theorem not_sharesRun : ¬ ∀ cs : List (SubframeInput 25 13 Unit),
    (∀ c ∈ cs, (c.ueDb.map SchedUe.rnti).Nodup ∧ WeightsOk c.ueDb c.weights) →
    StepsWithin (scheduleUsers (roomyPdcch 25 13 Unit) (someDlOrder 25 13) (someOrder 25 13))
      (SubframeHolds (roomyPdcch 25 13 Unit) (someDlOrder 25 13) (someOrder 25 13)) (init 25 13) cs := by
  intro hall
  obtain ⟨hholds, -⟩ := hall [downloadAt 1] fun c hc => by
    rw [List.mem_singleton.mp hc]
    exact ⟨List.nodup_singleton _, weightsOk_downloadAt 1⟩
  obtain ⟨-, hshares⟩ := hholds rfl
  obtain ⟨rbgAlloc, hcompute, -⟩ := hshares _ _ rfl
  have havailable : availableRbgs (downloadAt 1).sched = 13 := by decide
  have hzero : rbgsOf 0 13 = 0 := by simp [rbgsOf, floatRound]
  have hfirst : (List.range 1).foldlM
      (assignShare (init 25 13).ueRntis (downloadAt 1).weights 1 13) (∅, 0)
      = some ((∅ : OrdMap Nat Nat).insert 0 0, 0) := by
    show (assignShare (init 25 13).ueRntis (downloadAt 1).weights 1 13 (∅, 0) 0).bind some = _
    have hget : (init 25 13).ueRntis[0]? = some 0 := rfl
    rw [assignShare, hget]
    simp [weightOf_downloadAt, hzero]
  have hnone : (init 25 13).computeShares (downloadAt 1).ueDb (downloadAt 1).sched
      (downloadAt 1).weights = none := by
    have hshared : (List.range ((downloadAt 1).ueDb.length % 2 ^ 8)).foldlM
        (assignShare (init 25 13).ueRntis (downloadAt 1).weights ((downloadAt 1).ueDb.length % 2 ^ 8) 13)
        ((init 25 13).rbgAlloc, 0) = some ((∅ : OrdMap Nat Nat).insert 0 0, 0) := hfirst
    unfold computeShares
    rw [havailable]
    simp only [hshared]
    exact foldlM_addRemaining_eq_none _ _ (by decide)
  rw [hnone] at hcompute
  cases hcompute

end Odss.Mac.TimePf
