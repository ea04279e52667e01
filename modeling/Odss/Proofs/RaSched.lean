import Odss.Mac.RaSched
import Odss.Proofs.Msg3Space

/-!
# `Odss.Proofs.RaSched`: every preamble is answered at most once, in its window

`RarsServed` is what holds after every sequence of calls: the preambles of a PRACH occasion that were
accepted are those that have left, in the same order, and then those that are pending. A preamble
leaves in a RAR, with the RA-RNTI of its occasion and in its window, or because the window has
passed.

The occasions of the pending RARs are different (`Valid`). So a RAR that is skipped for lack of PDCCH
space is not overtaken by a preamble of its own occasion, wherever the loop goes on.
-/

set_option linter.all false

namespace Odss.Mac.RaSched

open Odss.Lib Odss.Common

variable {p g : Nat} {κ : Type} {cell : SubframeCell p} {cch : CtrlPdcch p g κ} {ra : RaCell}

/-! ### The property -/

/-- The TTI `ttiTxDl` is in the window of the responses to a PRACH, which starts three TTIs behind
it. -/
def InWindow (ra : RaCell) (prachTti : Nat) (ttiTxDl : TtiPoint) : Prop :=
  cycDist 10240 ((prachTti + prachRarOffset) % 10240) ttiTxDl.val < ra.prachRarWindow

/-- The window has passed: its end is at most half of the TTI space before `ttiTxDl`. -/
def Passed (ra : RaCell) (prachTti : Nat) (ttiTxDl : TtiPoint) : Prop :=
  cycDist 10240 ((prachTti + prachRarOffset + ra.prachRarWindow) % 10240) ttiTxDl.val ≤ 5120

/-- The preambles that leave with an event. -/
def infosOf : RarEvent → List RachInfo
  | .allocated _ grants => grants
  | .expired rar => rar.msg3Grant

/-- The grants of the RARs that are allocated. -/
def sentOf (events : List RarEvent) : List (List RachInfo) :=
  events.filterMap fun event =>
    match event with
    | .allocated _ grants => some grants
    | .expired _ => none

/-- The events of a list of results. -/
def eventsOf (outs : List Out) : List RarEvent :=
  outs.flatMap fun out =>
    match out with
    | .rach _ _ => []
    | .sched _ events _ => events

/-- The preambles of the occasion `t` in a list. -/
def ofOccasion (t : Nat) (infos : List RachInfo) : List RachInfo :=
  infos.filter fun info => info.prachTti = t

/-- The preambles that `dl_rach_info` has accepted. -/
def acceptedOf (outs : List Out) : List RachInfo :=
  outs.filterMap fun out =>
    match out with
    | .rach info true => some info
    | _ => none

/-- The preambles that have left. -/
def leftOf (events : List RarEvent) : List RachInfo := events.flatMap infosOf

/-- The preambles that are pending. -/
def pendingOf (rars : List PendingRar) : List RachInfo := rars.flatMap PendingRar.msg3Grant

/-- The random access responses are right after calls with the results `outs`.

- `inOrder`: the accepted preambles of each occasion are those that have left and then the pending
  ones, each of them once and in the order of arrival;
- `sent`: a preamble that left with a RAR has its RA-RNTI, and the RAR is in its window;
- `expired`: the window of a preamble that left without one has passed;
- `allocated`: the RARs that left are those that the subframe got. -/
structure RarsServed (ra : RaCell) (pendingRars : List PendingRar) (outs : List Out) : Prop where
  inOrder : ∀ t, ofOccasion t (acceptedOf outs) =
    ofOccasion t (leftOf (eventsOf outs)) ++ ofOccasion t (pendingOf pendingRars)
  sent : ∀ ttiTxDl events rars, .sched ttiTxDl events rars ∈ outs →
    ∀ raRnti grants, .allocated raRnti grants ∈ events → ∀ info ∈ grants,
      raRnti = 1 + info.prachTti % 10 ∧ InWindow ra info.prachTti ttiTxDl
  expired : ∀ ttiTxDl events rars, .sched ttiTxDl events rars ∈ outs →
    ∀ rar, .expired rar ∈ events → ∀ info ∈ rar.msg3Grant, Passed ra info.prachTti ttiTxDl
  allocated : ∀ ttiTxDl events rars, .sched ttiTxDl events rars ∈ outs →
    rars.map (fun a => a.msg3Grant.map RarGrant.data) =
      (sentOf events).map fun grants => grants.map RachInfo.toRarInfo

/-! ### Times -/

/-- For times that are less than half of the space apart, the window is the one of the times. -/
theorem inWindow_iff_of_near {prach t : Nat} (h : t < prach + 5120) (h' : prach < t + 5120) :
    InWindow ra (prach % 10240) (TtiPoint.ofNat t) ↔
      prach + 3 ≤ t ∧ t < prach + 3 + ra.prachRarWindow := by
  have hw := ra.bounds
  show (t % 10240 + 10240 - (prach % 10240 + 3) % 10240) % 10240 < _ ↔ _
  omega

theorem passed_iff_of_near {prach t : Nat} (h : t < prach + 5120) (h' : prach < t + 5100) :
    Passed ra (prach % 10240) (TtiPoint.ofNat t) ↔ prach + 3 + ra.prachRarWindow ≤ t := by
  have hw := ra.bounds
  show (t % 10240 + 10240 - (prach % 10240 + 3 + ra.prachRarWindow) % 10240) % 10240 ≤ 5120 ↔ _
  omega

/-! ### Lists of preambles -/

@[simp] theorem ofOccasion_append (t : Nat) (infos infos' : List RachInfo) :
    ofOccasion t (infos ++ infos') = ofOccasion t infos ++ ofOccasion t infos' := List.filter_append ..

@[simp] theorem pendingOf_cons (rar : PendingRar) (rars : List PendingRar) :
    pendingOf (rar :: rars) = rar.msg3Grant ++ pendingOf rars := List.flatMap_cons ..

@[simp] theorem leftOf_cons (event : RarEvent) (events : List RarEvent) :
    leftOf (event :: events) = infosOf event ++ leftOf events := List.flatMap_cons ..

theorem leftOf_append (events events' : List RarEvent) :
    leftOf (events ++ events') = leftOf events ++ leftOf events' := List.flatMap_append ..

/-- A pending RAR is for one occasion, with its RA-RNTI and from one to `MAX_RAR_LIST` preambles. -/
structure RarOk (rar : PendingRar) : Prop where
  raRnti : rar.raRnti = 1 + rar.prachTti.val % 10
  occasion : ∀ info ∈ rar.msg3Grant, info.prachTti = rar.prachTti.val
  length : rar.msg3Grant.length ≤ maxRarList

/-- The pending RARs, which are for different occasions. -/
structure Valid (rars : List PendingRar) : Prop where
  ok : ∀ rar ∈ rars, RarOk rar
  distinct : (rars.map PendingRar.prachTti).Nodup

theorem Valid.tail {rar : PendingRar} {rars : List PendingRar} (h : Valid (rar :: rars)) :
    RarOk rar ∧ Valid rars ∧ rar.prachTti ∉ rars.map PendingRar.prachTti := by
  have hdistinct := List.nodup_cons.mp h.distinct
  exact ⟨h.ok rar List.mem_cons_self,
    ⟨fun r hr => h.ok r (List.mem_cons_of_mem rar hr), hdistinct.2⟩, hdistinct.1⟩

theorem ofOccasion_pendingOf_eq_nil {rars : List PendingRar} (h : ∀ rar ∈ rars, RarOk rar) {t : Nat}
    (hnew : ∀ rar ∈ rars, rar.prachTti.val ≠ t) : ofOccasion t (pendingOf rars) = [] := by
  rw [ofOccasion, List.filter_eq_nil_iff]
  intro info hinfo
  obtain ⟨rar, hrar, hmem⟩ := List.mem_flatMap.mp hinfo
  rw [(h rar hrar).occasion info hmem]
  simpa using hnew rar hrar

theorem ofOccasion_grants_eq_nil {rar : PendingRar} (h : RarOk rar) {t : Nat}
    (hne : rar.prachTti.val ≠ t) : ofOccasion t rar.msg3Grant = [] := by
  rw [ofOccasion, List.filter_eq_nil_iff]
  intro info hinfo
  rw [h.occasion info hinfo]
  simpa using hne

/-! ### The allocation of one RAR -/

/-- What an allocation with the result `ret` does for the first `n` preambles of a RAR: a success
adds a RAR with them to the subframe. -/
def Sends (rar : PendingRar) (n : Nat) (ret : AllocResult) (s s' : Subframe p g κ) : Prop :=
  (ret ≠ .success ∧ s'.rarAllocs = s.rarAllocs) ∨
  (ret = .success ∧ ∃ a, s'.rarAllocs = s.rarAllocs ++ [a] ∧
    a.msg3Grant.map RarGrant.data = (rar.msg3Grant.take n).map RachInfo.toRarInfo)

theorem map_data_msg3Grants (nofPrb : UInt32) (infos : List RarInfo) :
    ∀ start, (Subframe.msg3Grants nofPrb infos start).map RarGrant.data = infos := by
  induction infos with
  | nil => intro start; rfl
  | cons info infos ih => intro start; simp [Subframe.msg3Grants, ih]

theorem sends_tryRbgs {rar : PendingRar} {n : Nat} (hn : n < 2 ^ 32) :
    ∀ {fuel nrbg : Nat} {s s' : Subframe p g κ} {ret : AllocResult},
      tryRbgs cell cch rar n fuel nrbg s = some (ret, s') → Sends rar n ret s s' := by
  intro fuel
  induction fuel with
  | zero =>
    intro nrbg s s' ret h
    cases h
    exact Or.inl ⟨nofun, rfl⟩
  | succ fuel ih =>
    intro nrbg s s' ret h
    simp only [tryRbgs] at h
    split at h
    · cases h
    · split at h
      · split at h
        · cases h
        · next s₁ halloc =>
          -- The RBGs were too few, and the subframe has not got the RAR.
          rcases Subframe.allocRar_cases halloc with ⟨-, hsame, -⟩ | ⟨hcode, -⟩
          · have hrest := ih h
            unfold Sends at hrest ⊢
            rw [← hsame]
            exact hrest
          · cases hcode
        · next ret₁ s₁ _ halloc =>
          cases h
          rcases Subframe.allocRar_cases halloc with
            ⟨hcode, hsame, -⟩ | ⟨hcode, -, -, -, -, a, hrars, ha, -⟩
          · exact Or.inl ⟨hcode, hsame⟩
          · refine Or.inr ⟨hcode, a, hrars, ?_⟩
            have hnat : (UInt32.ofNat n).toNat = n := by
              rw [UInt32.toNat_ofNat']
              exact Nat.mod_eq_of_lt hn
            rw [ha, map_data_msg3Grants, hnat, List.map_take]
      · cases h
        exact Or.inl ⟨nofun, rfl⟩

theorem sends_allocateFrom {rar : PendingRar} :
    ∀ {n : Nat} (_ : n < 2 ^ 32) {ret : AllocResult} (_ : ret ≠ .success)
      {s s' : Subframe p g κ} {ret' : AllocResult} {n' : Nat},
      allocateFrom cell cch rar n ret s = some (ret', n', s') →
        n' ≤ n ∧ Sends rar n' ret' s s' := by
  intro n
  induction n with
  | zero =>
    intro _ ret hret s s' ret' n' h
    cases h
    exact ⟨Nat.le_refl 0, Or.inl ⟨hret, rfl⟩⟩
  | succ n ih =>
    intro hn ret _ s s' ret' n' h
    simp only [allocateFrom] at h
    split at h
    · cases h
    · next ret₁ s₁ htry =>
      have hsends := sends_tryRbgs hn htry
      split at h
      · cases h
        exact ⟨Nat.le_refl _, hsends⟩
      · next hfew =>
        have hfail : ret₁ ≠ .success := by
          intro hsuccess
          rw [hsuccess] at hfew
          exact hfew ⟨nofun, nofun⟩
        obtain ⟨hle, hrest⟩ := ih (Nat.lt_of_succ_lt hn) hfail h
        refine ⟨Nat.le_succ_of_le hle, ?_⟩
        rcases hsends with ⟨-, hsame⟩ | ⟨hsuccess, -⟩
        · unfold Sends at hrest ⊢
          rw [← hsame]
          exact hrest
        · exact absurd hsuccess hfail

theorem sends_allocatePendingRar {rar : PendingRar} (hrar : RarOk rar) {s s' : Subframe p g κ}
    {ret : AllocResult} {n : Nat} (h : allocatePendingRar cell cch rar s = some (ret, n, s')) :
    n ≤ rar.msg3Grant.length ∧ Sends rar n ret s s' := by
  have hlen : rar.msg3Grant.length ≤ 8 := hrar.length
  exact sends_allocateFrom (by omega) (show AllocResult.otherCause ≠ .success from nofun) h

/-! ### One subframe -/

/-- What an event in the TTI `ttiTxDl` says of its preambles. -/
def EventOk (ra : RaCell) (ttiTxDl : TtiPoint) : RarEvent → Prop
  | .allocated raRnti grants => ∀ info ∈ grants,
    raRnti = 1 + info.prachTti % 10 ∧ InWindow ra info.prachTti ttiTxDl
  | .expired rar => ∀ info ∈ rar.msg3Grant, Passed ra info.prachTti ttiTxDl

theorem inWindow_of_contains {rar : PendingRar} {ttiTxDl : TtiPoint}
    (h : TtiPoint.contains (windowStart rar) (windowStop ra rar) ttiTxDl = true) :
    InWindow ra rar.prachTti.val ttiTxDl := by
  have hw := ra.bounds
  exact (TtiPoint.contains_add_iff (windowStart rar) ttiTxDl (by omega) (by omega)).mp h

theorem passed_of_ge {rar : PendingRar} {ttiTxDl : TtiPoint}
    (h : TtiPoint.ge ttiTxDl (windowStop ra rar) = true) : Passed ra rar.prachTti.val ttiTxDl := by
  have hdist := TtiPoint.dist_le_of_ge h
  have hstop : (windowStop ra rar).val =
      (rar.prachTti.val + prachRarOffset + ra.prachRarWindow) % 10240 := Nat.mod_add_mod ..
  rw [TtiPoint.dist, hstop] at hdist
  exact hdist

/-- The first preambles of a RAR in its window leave as they should. -/
theorem eventOk_allocated {rar : PendingRar} (hrar : RarOk rar) {ttiTxDl : TtiPoint}
    (hin : InWindow ra rar.prachTti.val ttiTxDl) (n : Nat) :
    EventOk ra ttiTxDl (.allocated rar.raRnti (rar.msg3Grant.take n)) := by
  intro info hinfo
  rw [hrar.occasion info (List.mem_of_mem_take hinfo)]
  exact ⟨hrar.raRnti, hin⟩

/-- What `dl_sched` does: the pending preambles of each occasion are those that leave and then those
that stay. -/
structure Serves (ra : RaCell) (ttiTxDl : TtiPoint) (rars rars' : List PendingRar)
    (events : List RarEvent) (s s' : Subframe p g κ) : Prop where
  ok : ∀ rar ∈ rars', RarOk rar
  occasions : (rars'.map PendingRar.prachTti).Sublist (rars.map PendingRar.prachTti)
  inOrder : ∀ t, ofOccasion t (pendingOf rars) =
    ofOccasion t (leftOf events) ++ ofOccasion t (pendingOf rars')
  eventsOk : ∀ event ∈ events, EventOk ra ttiTxDl event
  allocated : ∃ new, s'.rarAllocs = s.rarAllocs ++ new ∧
    new.map (fun a => a.msg3Grant.map RarGrant.data) =
      (sentOf events).map fun grants => grants.map RachInfo.toRarInfo

theorem Serves.valid {ttiTxDl : TtiPoint} {rars rars' : List PendingRar} {events : List RarEvent}
    {s s' : Subframe p g κ} (hvalid : Valid rars) (h : Serves ra ttiTxDl rars rars' events s s') :
    Valid rars' := ⟨h.ok, hvalid.distinct.sublist h.occasions⟩

/-- The loop stops, and the RARs stay. -/
theorem serves_stop {ttiTxDl : TtiPoint} {rars : List PendingRar} (h : Valid rars)
    {s s' : Subframe p g κ} (hsame : s'.rarAllocs = s.rarAllocs) :
    Serves ra ttiTxDl rars rars [] s s' where
  ok := h.ok
  occasions := List.Sublist.refl _
  inOrder := fun _ => rfl
  eventsOk := nofun
  allocated := ⟨[], by rw [hsame, List.append_nil], rfl⟩

/-- A RAR that leaves with an event, in front of the others. -/
theorem Serves.leave {ttiTxDl : TtiPoint} {rar : PendingRar} {rars rars' : List PendingRar}
    {event : RarEvent} {events : List RarEvent} {s s' : Subframe p g κ}
    (h : Serves ra ttiTxDl rars rars' events s s') (hinfos : infosOf event = rar.msg3Grant)
    (hevent : EventOk ra ttiTxDl event) {s₀ : Subframe p g κ}
    (hallocated : ∃ new, s'.rarAllocs = s₀.rarAllocs ++ new ∧
      new.map (fun a => a.msg3Grant.map RarGrant.data) =
        (sentOf (event :: events)).map fun grants => grants.map RachInfo.toRarInfo) :
    Serves ra ttiTxDl (rar :: rars) rars' (event :: events) s₀ s' where
  ok := h.ok
  occasions := h.occasions.cons _
  inOrder := fun t => by
    rw [pendingOf_cons, leftOf_cons, ofOccasion_append, ofOccasion_append, hinfos, h.inOrder t,
      List.append_assoc]
  eventsOk := List.forall_mem_cons.mpr ⟨hevent, h.eventsOk⟩
  allocated := hallocated

/-- Some of the preambles leave, and the RAR stays with the others. -/
theorem serves_part {ttiTxDl : TtiPoint} {rar : PendingRar} {rars : List PendingRar} {n : Nat}
    {s s' : Subframe p g κ} {a : RarAlloc} (hvalid : Valid (rar :: rars))
    (hin : InWindow ra rar.prachTti.val ttiTxDl) (hrars : s'.rarAllocs = s.rarAllocs ++ [a])
    (ha : a.msg3Grant.map RarGrant.data = (rar.msg3Grant.take n).map RachInfo.toRarInfo) :
    Serves ra ttiTxDl (rar :: rars) ({ rar with msg3Grant := rar.msg3Grant.drop n } :: rars)
      [.allocated rar.raRnti (rar.msg3Grant.take n)] s s' := by
  obtain ⟨hrar, hrest, -⟩ := hvalid.tail
  refine ⟨List.forall_mem_cons.mpr ⟨⟨hrar.raRnti, fun info hinfo => ?_, ?_⟩, hrest.ok⟩,
    List.Sublist.refl _, fun t => ?_, fun event hevent => ?_, [a], hrars, ?_⟩
  · exact hrar.occasion info (List.mem_of_mem_drop hinfo)
  · have hlen := hrar.length
    show (rar.msg3Grant.drop n).length ≤ maxRarList
    rw [List.length_drop]
    omega
  · have hsplit : ofOccasion t rar.msg3Grant = ofOccasion t (rar.msg3Grant.take n) ++
        ofOccasion t (rar.msg3Grant.drop n) := by
      rw [← ofOccasion_append, List.take_append_drop]
    simp [infosOf, leftOf, hsplit]
  · rw [List.mem_singleton.mp hevent]
    exact eventOk_allocated hrar hin _
  · rw [List.map_singleton, ha]
    rfl

/-- A RAR without room is skipped. No preamble of its occasion is behind it. -/
theorem Serves.skip {ttiTxDl : TtiPoint} {rar : PendingRar} {rars rars' : List PendingRar}
    {events : List RarEvent} {s₀ s s' : Subframe p g κ} (hvalid : Valid (rar :: rars))
    (h : Serves ra ttiTxDl rars rars' events s s') (hsame : s.rarAllocs = s₀.rarAllocs) :
    Serves ra ttiTxDl (rar :: rars) (rar :: rars') events s₀ s' := by
  obtain ⟨hrar, hrest, hnew⟩ := hvalid.tail
  refine ⟨List.forall_mem_cons.mpr ⟨hrar, h.ok⟩, h.occasions.cons_cons _, fun t => ?_, h.eventsOk,
    hsame ▸ h.allocated⟩
  rw [pendingOf_cons, pendingOf_cons, ofOccasion_append, ofOccasion_append, h.inOrder t]
  by_cases ht : rar.prachTti.val = t
  · have hnone : ofOccasion t (pendingOf rars) = [] := by
      apply ofOccasion_pendingOf_eq_nil hrest.ok
      intro r hr heq
      apply hnew
      rw [show rar.prachTti = r.prachTti from TtiPoint.ext (ht.trans heq.symm)]
      exact List.mem_map_of_mem hr
    rw [h.inOrder t, List.append_eq_nil_iff] at hnone
    rw [hnone.1, hnone.2]
    simp
  · rw [ofOccasion_grants_eq_nil hrar ht]
    rfl

theorem serves_dlSchedFrom {ttiTxDl : TtiPoint} {rars : List PendingRar} :
    ∀ {rars' : List PendingRar} {events : List RarEvent} {s s' : Subframe p g κ}, Valid rars →
      dlSchedFrom cell cch ra ttiTxDl rars s = some (rars', events, s') →
      Serves ra ttiTxDl rars rars' events s s' := by
  induction rars with
  | nil =>
    intro rars' events s s' hvalid h
    cases h
    exact serves_stop hvalid rfl
  | cons rar rars ih =>
    intro rars' events s s' hvalid h
    obtain ⟨hrar, hrest, -⟩ := hvalid.tail
    simp only [dlSchedFrom] at h
    split at h
    · next hout =>
      split at h
      · next hpassed =>
        -- The RAR is discarded, with all of its preambles.
        split at h
        · cases h
        · next rars₁ events₁ s₁ hloop =>
          cases h
          have hserves := ih hrest hloop
          have hevent : EventOk ra ttiTxDl (.expired rar) := fun info hinfo => by
            rw [hrar.occasion info hinfo]
            exact passed_of_ge hpassed
          exact hserves.leave rfl hevent hserves.allocated
      · cases h
        exact serves_stop hvalid rfl
    · next hin =>
      have hin : TtiPoint.contains (windowStart rar) (windowStop ra rar) ttiTxDl = true := by
        simpa using hin
      have hin := inWindow_of_contains hin
      split at h
      · cases h
      · next n s₁ halloc =>
        obtain ⟨hle, hsends⟩ := sends_allocatePendingRar hrar halloc
        obtain ⟨hne, -⟩ | ⟨-, a, hrars, ha⟩ := hsends
        · exact absurd rfl hne
        split at h
        · next hall =>
          split at h
          · cases h
          · next rars₁ events₁ s₂ hloop =>
            cases h
            have hserves := ih hrest hloop
            obtain ⟨new, hnew, hdata⟩ := hserves.allocated
            refine hserves.leave ?_ (eventOk_allocated hrar hin _) ⟨a :: new, ?_, ?_⟩
            · rw [hall]
              exact List.take_length
            · rw [hnew, hrars, List.append_assoc]
              rfl
            · rw [List.map_cons, hdata, ha]
              rfl
        · cases h
          exact serves_part hvalid hin hrars ha
      · next n s₁ halloc =>
        obtain ⟨-, hsends⟩ := sends_allocatePendingRar hrar halloc
        obtain ⟨-, hsame⟩ | ⟨hsuccess, -⟩ := hsends
        · split at h
          · cases h
          · next rars₁ events₁ s₂ hloop =>
            cases h
            exact (ih hrest hloop).skip hvalid hsame
        · cases hsuccess
      · next ret n s₁ _ hsuccess hcch halloc =>
        cases h
        obtain ⟨-, hsends⟩ := sends_allocatePendingRar hrar halloc
        obtain ⟨-, hsame⟩ | ⟨hcode, -⟩ := hsends
        · exact serves_stop hvalid hsame
        · exact absurd hcode (by simpa using hsuccess)

/-! ### One preamble -/

theorem ofOccasion_singleton_ne {t : Nat} {info : RachInfo} (h : info.prachTti ≠ t) :
    ofOccasion t [info] = [] := by
  simp [ofOccasion, h]

/-- The preambles that are pending after one more, if it was accepted. -/
def Adds (info : RachInfo) (accepted : Bool) (rars rars' : List PendingRar) : Prop :=
  ∀ t, ofOccasion t (pendingOf rars') =
    ofOccasion t (pendingOf rars) ++ ofOccasion t (if accepted then [info] else [])

/-- A preamble is put into the pending RAR of its occasion. -/
theorem addToPending_some {info : RachInfo} {rars : List PendingRar} :
    ∀ {rars' : List PendingRar} {accepted : Bool}, Valid rars →
      addToPending (1 + info.prachTti % 10) info rars = some (accepted, rars') →
      (∀ r ∈ rars', RarOk r) ∧ rars'.map PendingRar.prachTti = rars.map PendingRar.prachTti ∧
        Adds info accepted rars rars' := by
  induction rars with
  | nil =>
    intro rars' accepted _ h
    cases h
  | cons r rars ih =>
    intro rars' accepted hvalid h
    obtain ⟨hr, hrest, hnew⟩ := hvalid.tail
    simp only [addToPending] at h
    split at h
    · next hsame =>
      split at h
      · cases h
        exact ⟨hvalid.ok, rfl, fun t => by simp [ofOccasion]⟩
      · next hroom =>
        cases h
        refine ⟨?_, rfl, fun t => ?_⟩
        · intro r' hr'
          rcases List.mem_cons.mp hr' with rfl | hr'
          · refine ⟨hr.raRnti, fun info' hinfo' => ?_, ?_⟩
            · rcases List.mem_append.mp hinfo' with hinfo' | hinfo'
              · exact hr.occasion info' hinfo'
              · rw [List.mem_singleton.mp hinfo']
                exact hsame.1.symm
            · show (r.msg3Grant ++ [info]).length ≤ maxRarList
              rw [List.length_append]
              exact Nat.succ_le_of_lt (Nat.lt_of_not_le hroom)
          · exact hrest.ok r' hr'
        · rw [pendingOf_cons, pendingOf_cons]
          simp only [ofOccasion_append, if_true]
          by_cases ht : info.prachTti = t
          · -- No other pending RAR is for the occasion.
            have hnone : ofOccasion t (pendingOf rars) = [] := by
              apply ofOccasion_pendingOf_eq_nil hrest.ok
              intro r' hr' heq
              apply hnew
              rw [show r.prachTti = r'.prachTti from
                TtiPoint.ext (hsame.1.trans (ht.trans heq.symm))]
              exact List.mem_map_of_mem hr'
            rw [hnone]
            simp
          · rw [ofOccasion_singleton_ne ht]
            simp
    · obtain ⟨q, hq, heq⟩ := Option.map_eq_some_iff.mp h
      cases heq
      obtain ⟨hok, hmap, hadds⟩ := ih hrest hq
      refine ⟨?_, by rw [List.map_cons, hmap, List.map_cons], fun t => ?_⟩
      · intro r' hr'
        rcases List.mem_cons.mp hr' with rfl | hr'
        · exact hr
        · exact hok r' hr'
      · rw [pendingOf_cons, pendingOf_cons, ofOccasion_append, ofOccasion_append, hadds t,
          List.append_assoc]

/-- Without a pending RAR of the occasion there is none to put the preamble into. -/
theorem addToPending_none {info : RachInfo} {rars : List PendingRar} (hok : ∀ r ∈ rars, RarOk r)
    (h : addToPending (1 + info.prachTti % 10) info rars = none) :
    ∀ r ∈ rars, r.prachTti.val ≠ info.prachTti := by
  induction rars with
  | nil =>
    intro r hr
    exact absurd hr List.not_mem_nil
  | cons r rars ih =>
    simp only [addToPending] at h
    split at h
    · split at h <;> cases h
    · next hne =>
      intro r' hr'
      rcases List.mem_cons.mp hr' with rfl | hr'
      · -- A RAR of the occasion has the RA-RNTI of the preamble.
        intro heq
        exact hne ⟨heq, by rw [(hok r' List.mem_cons_self).raRnti, heq]⟩
      · exact ih (fun r hr => hok r (List.mem_cons_of_mem _ hr)) (Option.map_eq_none_iff.mp h) r' hr'

theorem dlRachInfo_spec {rars : List PendingRar} (hvalid : Valid rars) {info : RachInfo}
    (hinfo : info.prachTti < 10240) :
    Valid (dlRachInfo rars info).2 ∧ Adds info (dlRachInfo rars info).1 rars (dlRachInfo rars info).2 := by
  simp only [dlRachInfo]
  cases hadd : addToPending (1 + info.prachTti % 10) info rars with
  | some q =>
    obtain ⟨accepted, rars'⟩ := q
    obtain ⟨hok, hmap, hadds⟩ := addToPending_some hvalid hadd
    exact ⟨⟨hok, by rw [Option.getD_some, hmap]; exact hvalid.distinct⟩, hadds⟩
  | none =>
    have hval : (TtiPoint.ofNat info.prachTti).val = info.prachTti := Nat.mod_eq_of_lt hinfo
    have hnew := addToPending_none hvalid.ok hadd
    rw [Option.getD_none]
    refine ⟨⟨fun r hr => ?_, ?_⟩, fun t => ?_⟩
    · rcases List.mem_append.mp hr with hr | hr
      · exact hvalid.ok r hr
      · rw [List.mem_singleton.mp hr]
        refine ⟨by rw [hval], fun info' hinfo' => ?_, (by decide : 1 ≤ maxRarList)⟩
        rw [List.mem_singleton.mp hinfo', hval]
    · show ((rars ++ [_]).map PendingRar.prachTti).Nodup
      rw [List.map_append, List.nodup_append_comm]
      refine List.nodup_cons.mpr ⟨fun hmem => ?_, hvalid.distinct⟩
      obtain ⟨r, hr, heq⟩ := List.mem_map.mp hmem
      exact hnew r hr (by rw [heq, hval])
    · show ofOccasion t (pendingOf (rars ++ [_])) = ofOccasion t (pendingOf rars) ++ ofOccasion t [info]
      rw [pendingOf, List.flatMap_append, ofOccasion_append]
      simp [pendingOf]

/-! ### Runs -/

/-- The invariant of the pending RARs with the results so far. -/
structure Inv (ra : RaCell) (st : List PendingRar × List Out) : Prop where
  valid : Valid st.1
  served : RarsServed ra st.1 st.2

/-- A PRACH is in the TTI space. -/
def PrachInSpace (_ : List PendingRar × List Out) : Op p g κ → Prop
  | .dlRachInfo info => info.prachTti < 10240
  | .dlSched _ => True

theorem acceptedOf_append (outs outs' : List Out) :
    acceptedOf (outs ++ outs') = acceptedOf outs ++ acceptedOf outs' := List.filterMap_append

theorem eventsOf_append (outs outs' : List Out) :
    eventsOf (outs ++ outs') = eventsOf outs ++ eventsOf outs' := List.flatMap_append ..

/-- A result without events keeps what is said of the events. -/
theorem inv_rach {rars : List PendingRar} {outs : List Out} (h : Inv ra (rars, outs))
    {info : RachInfo} (hinfo : info.prachTti < 10240) :
    Inv ra ((dlRachInfo rars info).2, outs ++ [.rach info (dlRachInfo rars info).1]) := by
  obtain ⟨hvalid, hadds⟩ := dlRachInfo_spec h.valid hinfo
  have hmem : ∀ {ttiTxDl events new},
      Out.sched ttiTxDl events new ∈ outs ++ [.rach info (dlRachInfo rars info).1] →
      Out.sched ttiTxDl events new ∈ outs := by
    intro ttiTxDl events new hout
    rcases List.mem_append.mp hout with hout | hout
    · exact hout
    · cases List.mem_singleton.mp hout
  refine ⟨hvalid, ⟨fun t => ?_, ?_, ?_, ?_⟩⟩
  · have hevents : eventsOf (outs ++ [Out.rach info (dlRachInfo rars info).1]) = eventsOf outs := by
      rw [eventsOf_append]
      exact List.append_nil _
    have haccepted : acceptedOf [Out.rach info (dlRachInfo rars info).1] =
        if (dlRachInfo rars info).1 then [info] else [] := by
      cases (dlRachInfo rars info).1 <;> rfl
    rw [hevents, acceptedOf_append, ofOccasion_append, h.served.inOrder t, hadds t, haccepted,
      List.append_assoc]
  · intro ttiTxDl events new hout
    exact h.served.sent ttiTxDl events new (hmem hout)
  · intro ttiTxDl events new hout
    exact h.served.expired ttiTxDl events new (hmem hout)
  · intro ttiTxDl events new hout
    exact h.served.allocated ttiTxDl events new (hmem hout)

theorem inv_sched {rars rars' : List PendingRar} {outs : List Out} (h : Inv ra (rars, outs))
    {ttiTxDl : TtiPoint} {events : List RarEvent} {s s' : Subframe p g κ}
    (hserves : Serves ra ttiTxDl rars rars' events s s') :
    Inv ra (rars', outs ++ [.sched ttiTxDl events (s'.rarAllocs.drop s.rarAllocs.length)]) := by
  refine ⟨hserves.valid h.valid, ⟨fun t => ?_, ?_, ?_, ?_⟩⟩
  · have haccepted : acceptedOf (outs ++
        [Out.sched ttiTxDl events (s'.rarAllocs.drop s.rarAllocs.length)]) = acceptedOf outs := by
      rw [acceptedOf_append]
      exact List.append_nil _
    have hevents : eventsOf [Out.sched ttiTxDl events (s'.rarAllocs.drop s.rarAllocs.length)] =
        events := List.append_nil _
    rw [haccepted, eventsOf_append, hevents, leftOf_append, ofOccasion_append, h.served.inOrder t,
      hserves.inOrder t, List.append_assoc]
  · intro tti' events' new hout raRnti grants hevent
    rcases List.mem_append.mp hout with hout | hout
    · exact h.served.sent tti' events' new hout raRnti grants hevent
    · cases List.mem_singleton.mp hout
      exact hserves.eventsOk _ hevent
  · intro tti' events' new hout rar hevent
    rcases List.mem_append.mp hout with hout | hout
    · exact h.served.expired tti' events' new hout rar hevent
    · cases List.mem_singleton.mp hout
      exact hserves.eventsOk _ hevent
  · intro tti' events' new hout
    rcases List.mem_append.mp hout with hout | hout
    · exact h.served.allocated tti' events' new hout
    · cases List.mem_singleton.mp hout
      obtain ⟨added, hadded, hdata⟩ := hserves.allocated
      rw [hadded, List.drop_left]
      exact hdata

theorem inv_step (st : List PendingRar × List Out) (op : Op p g κ)
    (st' : List PendingRar × List Out) (out : Out) (h : Inv ra st) (hop : PrachInSpace st op)
    (hstep : withOutputs (step cell cch ra) st op = some (st', out)) : Inv ra st' := by
  obtain ⟨rars, outs⟩ := st
  obtain ⟨⟨rars', out'⟩, hcall, heq⟩ := Option.map_eq_some_iff.mp hstep
  cases heq
  cases op with
  | dlRachInfo info =>
    cases hcall
    exact inv_rach h hop
  | dlSched s =>
    obtain ⟨⟨rars₁, events, s₁⟩, hloop, heq⟩ := Option.map_eq_some_iff.mp hcall
    cases heq
    exact inv_sched h (serves_dlSchedFrom h.valid hloop)

/-- After every sequence of preambles and subframes, whatever room the subframes have, each accepted
preamble has been answered once in its window, has expired, or is pending. -/
theorem rarsServed_run {ops : List (Op p g κ)}
    (hops : ∀ info, .dlRachInfo info ∈ ops → info.prachTti < 10240)
    {rars : List PendingRar} {outs : List Out}
    (hrun : run (step cell cch ra) [] ops = some (rars, outs)) : RarsServed ra rars outs := by
  have hwith : run (withOutputs (step cell cch ra)) ([], []) ops = some ((rars, outs), outs) := by
    rw [run_withOutputs, hrun]
    rfl
  have hempty : Inv ra ([], []) :=
    ⟨⟨nofun, List.nodup_nil⟩, ⟨fun _ => rfl, nofun, nofun, nofun⟩⟩
  have hwithin : StepsWithin (withOutputs (step cell cch ra)) PrachInSpace ([], []) ops := by
    apply stepsWithin_of_forall
    intro op hop st
    cases op with
    | dlRachInfo info => exact hops info hop
    | dlSched s => trivial
  exact (run_invariant_of_within (Inv ra) inv_step ops _ _ outs hempty hwithin hwith).served

/-! ### An example -/

attribute [local instance] Odss.Mac.SfCchAllocator.neZero_aggr

/-- A PDCCH with two positions for a RAR. -/
def exampleCch : SfCchAllocator.CellParams :=
  { SfCchAllocator.exampleCell with
    rarLocations := fun _ _ => SfCchAllocator.exampleTable 2 0 4 }

/-- A cell in which a RAR has room for one grant. -/
def exampleCell : SubframeCell 100 :=
  { Subframe.exampleCell with
    cch := exampleCch
    nofPrb_eq := rfl
    format1aFits := fun _ reqBytes _ _ => decide (reqBytes < 10) }

/-- The PDCCH of the cell. -/
def examplePdcch : CtrlPdcch 100 25 (SfCchAllocator.State exampleCch) :=
  SfCchAllocator.toPdcch exampleCch
    (fun user => ⟨user.rnti, ⟨false, 0, 0⟩, fun _ _ => SfCchAllocator.exampleTable 2 12 16⟩)
    (fun _ _ => 2)

/-- A window of ten TTIs. -/
def exampleRa : RaCell := ⟨10, by decide⟩

/-- A preamble of the occasion `prachTti`. -/
def exampleInfo (tempCrnti prachTti : Nat) : RachInfo := ⟨⟨tempCrnti⟩, 0, 0, 7, prachTti⟩

/-- Three preambles of two occasions, and a fourth one that is too late. -/
def exampleOps (s₀ s₁ s₂ : Subframe 100 25 (SfCchAllocator.State exampleCch)) :
    List (Op 100 25 (SfCchAllocator.State exampleCch)) :=
  [.dlRachInfo (exampleInfo 70 0), .dlRachInfo (exampleInfo 71 0), .dlRachInfo (exampleInfo 72 1),
    .dlSched s₀, .dlSched s₁, .dlRachInfo (exampleInfo 73 1), .dlSched s₂]

/-- The preambles of the first occasion are answered in two subframes, and the late one is
discarded. -/
theorem rarsServed_example :
    ∃ s₀ s₁ s₂ rars outs, Subframe.newTti exampleCell examplePdcch 0 = some s₀ ∧
      Subframe.newTti exampleCell examplePdcch 1 = some s₁ ∧
      Subframe.newTti exampleCell examplePdcch 10 = some s₂ ∧
      run (step exampleCell examplePdcch exampleRa) [] (exampleOps s₀ s₁ s₂) =
        some (rars, outs) ∧
      eventsOf outs = [.allocated 1 [exampleInfo 70 0], .allocated 1 [exampleInfo 71 0],
        .allocated 2 [exampleInfo 72 1], .expired ⟨2, ⟨1, by decide⟩, [exampleInfo 73 1]⟩] ∧
      RarsServed exampleRa rars outs := by
  have hresults : ((Subframe.newTti exampleCell examplePdcch 0).bind fun s₀ =>
      (Subframe.newTti exampleCell examplePdcch 1).bind fun s₁ =>
      (Subframe.newTti exampleCell examplePdcch 10).bind fun s₂ =>
      (run (step exampleCell examplePdcch exampleRa) [] (exampleOps s₀ s₁ s₂)).map
        fun r => eventsOf r.2) =
      some [.allocated 1 [exampleInfo 70 0], .allocated 1 [exampleInfo 71 0],
        .allocated 2 [exampleInfo 72 1], .expired ⟨2, ⟨1, by decide⟩, [exampleInfo 73 1]⟩] := by
    decide +kernel
  obtain ⟨s₀, h₀, hresults⟩ := Option.bind_eq_some_iff.mp hresults
  obtain ⟨s₁, h₁, hresults⟩ := Option.bind_eq_some_iff.mp hresults
  obtain ⟨s₂, h₂, hresults⟩ := Option.bind_eq_some_iff.mp hresults
  obtain ⟨⟨rars, outs⟩, hrun, hevents⟩ := Option.map_eq_some_iff.mp hresults
  refine ⟨s₀, s₁, s₂, rars, outs, h₀, h₁, h₂, hrun, hevents, rarsServed_run ?_ hrun⟩
  intro info hinfo
  simp only [exampleOps, List.mem_cons, List.not_mem_nil, or_false, Op.dlRachInfo.injEq,
    reduceCtorEq, false_or] at hinfo
  rcases hinfo with rfl | rfl | rfl | rfl <;> decide

end Odss.Mac.RaSched
