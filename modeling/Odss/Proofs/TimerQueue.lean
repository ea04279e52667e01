import Odss.Ric.TimerQueue

/-!
# `Odss.Proofs.TimerQueue`: the RIC timer queue over all interleavings

`TimersKept` is the property of a run, for any interleaving of the calls with the queue thread:
calls return with the mutex free, a cancelled timer does not fire again, a timer that fires is put
back with its next deadline, and the timers fire in the order of their deadlines.

`timer_map` is never filled, so `cancel` finds no timer and returns with the mutex
(`not_timersKept_cancel`). From then on no step gets through (`run_of_leaked`); this is also why
no cancelled timer fires. Without a cancellation the queue is a heap that holds each timer once
(`Inv`), although the key of the top changes while it is in the heap. The order of the callbacks
needs a condition of its own: `insert_periodic` reads the time before it takes the mutex, so the
queue thread may have fired later deadlines in between.
-/

set_option linter.all false

namespace Odss.Ric.TimerQueue

open Odss.Lib

/-! ### The property and its condition -/

/-- The timers are kept over a run.

- `defined`: no step is undefined;
- `cancelled`: once `cancel` has returned, the timer does not fire;
- `released`: a call returns with the mutex free;
- `queued`: each timer that was inserted and not cancelled is in the queue once;
- `reinserted`: a timer that fires is put back, and its deadline is advanced by its interval;
- `ordered`: the timers fire in the order of their deadlines. -/
structure TimersKept (calls : List Call) : Prop where
  defined : ∃ s outs, run step init calls = some (s, outs)
  cancelled : ∀ pre id post, calls = pre ++ post → ∀ s outs s' s'' outs'',
    run step init pre = some (s, outs) → step s (.cancel (id : Nat)) = some (s', .canceled) →
    run step s' post = some (s'', outs'') → ∀ e ∈ firedOf outs'', e.1 ≠ id
  released : ∀ pre call post, calls = pre ++ call :: post → ∀ s outs s' out,
    run step init pre = some (s, outs) → step s call = some (s', out) →
    out = .canceled ∨ (∃ id, out = .inserted id) → s'.owner = none
  queued : AlongRun step (fun s => ∀ id, 1 ≤ id → id ≤ s.nextId → (s.timers id).canceled = false →
    s.queue.toList.count id = 1) init calls
  reinserted : AlongRun step (fun s => ∀ s' id d, step s .turn = some (s', .fired id d) →
    d = (s.timers id).next ∧ (s'.timers id).next = d.add (s.timers id).interval ∧
      s'.queue.toList.count id = 1) init calls
  ordered : ∀ s outs, run step init calls = some (s, outs) →
    ((firedOf outs).map Prod.snd).Pairwise (· ≤ ·)

/-- The condition on a call, in a state with the outputs so far. A new timer has an interval that
is not negative, and its deadline is not before one that has fired. `cancel` gets no mutex. -/
def NoCancelNoLate (p : TimerQueue × List Out) : Call → Prop
  | .insertPeriodic now interval => p.1.owner = none →
    p.1.nextId + 1 < 2 ^ 31 ∧ .zero ≤ interval ∧ ∀ e ∈ firedOf p.2, e.2 ≤ now.add interval
  | .cancel _ => p.1.owner ≠ none
  | _ => True

theorem firedOf_append (outs outs' : List Out) :
    firedOf (outs ++ outs') = firedOf outs ++ firedOf outs' := List.filterMap_append

/-! ### After a cancellation -/

/-- What holds in every run: no timer is in the map, and the queue thread is inside its locked
section only with the mutex. -/
structure Reached (s : TimerQueue) : Prop where
  unmapped : ∀ id t, s.timerMap.find? id ≠ some (some t)
  outside : s.owner ≠ some .queueThread → s.pc = .waiting

theorem cancel_of_unmapped {s : TimerQueue} (h : Reached s) (id : Int) :
    s.cancel id =
      { s with timerMap := s.timerMap.insert id none, owner := some .caller } := by
  have hnull : (s.timerMap.find? id).getD none = none := by
    cases hfind : s.timerMap.find? id with
    | none => rfl
    | some t =>
      cases t with
      | none => rfl
      | some t => exact absurd hfind (h.unmapped id t)
  simp [cancel, hnull]

/-- A turn keeps the map and the owner, or it leaves the locked section. -/
theorem turn_frame {s s' : TimerQueue} {now : Timeval} {out : Out}
    (h : s.turn now = some (s', out)) :
    s'.timerMap = s.timerMap ∧ s'.nextId = s.nextId ∧
      (s'.owner = s.owner ∧ s'.pc = s.pc ∨ s'.owner = none ∧ s'.pc = .waiting) := by
  unfold turn at h
  split at h
  · cases h
  · dsimp only at h
    split_ifs at h
    · cases h
      exact ⟨rfl, rfl, Or.inl ⟨rfl, rfl⟩⟩
    · cases h
      exact ⟨rfl, rfl, Or.inl ⟨rfl, rfl⟩⟩
    · cases h
      exact ⟨rfl, rfl, Or.inl ⟨rfl, rfl⟩⟩
    · cases h
      exact ⟨rfl, rfl, Or.inr ⟨rfl, rfl⟩⟩

theorem step_reached (s : TimerQueue) (call : Call) (s' : TimerQueue) (out : Out) (hs : Reached s)
    (h : step s call = some (s', out)) : Reached s' := by
  cases call with
  | insertPeriodic now interval =>
    simp only [step] at h
    split at h
    · rename_i hfree
      simp only [insertPeriodic, Option.map_eq_some_iff, Prod.mk.injEq] at h
      obtain ⟨r, hr, rfl, -⟩ := h
      split at hr
      · cases hr
      · cases hr
        exact ⟨hs.unmapped, fun _ => hs.outside (by rw [hfree]; exact nofun)⟩
    · cases h
      exact hs
  | cancel id =>
    simp only [step] at h
    split at h
    · rename_i hfree
      rw [cancel_of_unmapped hs] at h
      cases h
      refine ⟨fun id' t => ?_, fun _ => hs.outside (by rw [hfree]; exact nofun)⟩
      show (s.timerMap.insert id none).find? id' ≠ some (some t)
      rw [OrdMap.find?_insert]
      split
      · exact nofun
      · exact hs.unmapped id' t
    · cases h
      exact hs
  | wake =>
    simp only [step] at h
    split at h
    · cases h
      exact ⟨hs.unmapped, fun hne => absurd rfl hne⟩
    · cases h
      exact hs
  | look now =>
    simp only [step] at h
    split at h
    · rename_i hpc
      split at h
      · cases h
        exact ⟨hs.unmapped, fun _ => rfl⟩
      · cases h
        refine ⟨hs.unmapped, fun hne => ?_⟩
        exact absurd (hs.outside hne) (by rw [hpc]; exact nofun)
    · cases h
      exact hs
  | turn =>
    simp only [step] at h
    split at h
    · obtain ⟨hmap, -, hframe⟩ := turn_frame h
      refine ⟨by rw [hmap]; exact hs.unmapped, fun hne => ?_⟩
      rcases hframe with ⟨howner, hpc⟩ | ⟨-, hpc⟩
      · rw [hpc]
        exact hs.outside (howner ▸ hne)
      · exact hpc
    · cases h
      exact hs

theorem reached_init : Reached init where
  unmapped := nofun
  outside := fun _ => rfl

theorem step_of_leaked {s : TimerQueue} (howner : s.owner = some .caller) (hpc : s.pc = .waiting)
    (call : Call) : step s call = some (s, .blocked) := by
  cases call <;> simp [step, howner, hpc]

theorem run_of_leaked {s : TimerQueue} (howner : s.owner = some .caller) (hpc : s.pc = .waiting)
    (calls : List Call) : ∃ outs, run step s calls = some (s, outs) ∧ firedOf outs = [] := by
  induction calls with
  | nil => exact ⟨[], rfl, rfl⟩
  | cons call calls ih =>
    obtain ⟨outs, hrun, hfired⟩ := ih
    refine ⟨.blocked :: outs, run_cons_eq_some.mpr
      ⟨s, .blocked, outs, step_of_leaked howner hpc call, hrun, rfl⟩, hfired⟩

theorem not_fired_after_cancel {pre post : List Call} {id : Int} {s s' s'' : TimerQueue}
    {outs outs'' : List Out} (hpre : run step init pre = some (s, outs))
    (hcancel : step s (.cancel id) = some (s', .canceled))
    (hpost : run step s' post = some (s'', outs'')) : firedOf outs'' = [] := by
  have hs := run_invariant Reached step_reached pre init s outs reached_init hpre
  simp only [step] at hcancel
  split at hcancel
  · rename_i hfree
    rw [cancel_of_unmapped hs] at hcancel
    cases hcancel
    have hpc := hs.outside (by rw [hfree]; exact nofun)
    obtain ⟨outs', hrun, hfired⟩ := run_of_leaked (s := { s with
      timerMap := s.timerMap.insert id none, owner := some .caller }) rfl hpc post
    rw [hpost] at hrun
    cases hrun
    exact hfired
  · cases hcancel

/-! ### The invariant without a cancellation -/

/-- The queue without a cancellation, with the outputs so far.

- `owner`: the mutex is free, or the queue thread has it;
- `busy`: inside the inner loop, the queue is not empty;
- `ordered`: the queue is a heap;
- `queued`: it holds each timer once;
- `active`: each timer repeats, is not cancelled, and has an interval that is not negative;
- `fired`: the deadlines that have fired are in order, and `due`: none is after a queued one;
- `kept`: no call of `cancel` has returned. -/
structure Inv (s : TimerQueue) (outs : List Out) : Prop where
  owner : s.owner = none ∧ s.pc = .waiting ∨ s.owner = some .queueThread ∧ s.pc ≠ .waiting
  busy : ∀ now, s.pc = .inner now → 0 < s.queue.size
  ordered : s.queue.Ordered (deadline s.timers) fun _ => False
  queued : s.queue.toList.Perm (List.range' 1 s.nextId)
  active : ∀ id ∈ s.queue.toList, (s.timers id).repeats = true ∧ (s.timers id).canceled = false ∧
    .zero ≤ (s.timers id).interval
  fired : ((firedOf outs).map Prod.snd).Pairwise (· ≤ ·)
  due : ∀ e ∈ firedOf outs, ∀ id ∈ s.queue.toList, e.2 ≤ deadline s.timers id

/-- Outputs that fire nothing keep the invariant. -/
theorem Inv.quiet {s s' : TimerQueue} {outs : List Out} {out : Out} (h : Inv s outs)
    (hout : firedOf [out] = []) (hqueue : s'.queue = s.queue) (htimers : s'.timers = s.timers)
    (hnext : s'.nextId = s.nextId)
    (howner : s'.owner = none ∧ s'.pc = .waiting ∨ s'.owner = some .queueThread ∧ s'.pc ≠ .waiting)
    (hbusy : ∀ now, s'.pc = .inner now → 0 < s.queue.size) : Inv s' (outs ++ [out]) := by
  have hfired : firedOf (outs ++ [out]) = firedOf outs := by
    rw [firedOf_append, hout, List.append_nil]
  refine ⟨howner, ?_, ?_, ?_, ?_, ?_, ?_⟩
  · rw [hqueue]
    exact hbusy
  · rw [hqueue, htimers]
    exact h.ordered
  · rw [hqueue, hnext]
    exact h.queued
  · rw [hqueue, htimers]
    exact h.active
  · rw [hfired]
    exact h.fired
  · rw [hfired, hqueue, htimers]
    exact h.due

theorem Inv.nodup {s : TimerQueue} {outs : List Out} (h : Inv s outs) : s.queue.toList.Nodup :=
  h.queued.nodup_iff.mpr (List.nodup_range' 1)

theorem Inv.mem_iff {s : TimerQueue} {outs : List Out} (h : Inv s outs) (id : Nat) :
    id ∈ s.queue.toList ↔ 1 ≤ id ∧ id ≤ s.nextId := by
  rw [h.queued.mem_iff, List.mem_range'_1]
  omega

theorem Inv.entry_injective {s : TimerQueue} {outs : List Out} (h : Inv s outs) {i j : Nat}
    (hi : i < s.queue.size) (hj : j < s.queue.size)
    (heq : s.queue.entry i = s.queue.entry j) : i = j := by
  have hinj := List.inj_on_of_nodup_map h.nodup
  exact hinj (List.mem_range.mpr hi) (List.mem_range.mpr hj) heq

/-- A new timer keeps the invariant, when its deadline is not before one that has fired. -/
theorem Inv.insertPeriodic {s : TimerQueue} {outs : List Out} (h : Inv s outs)
    (hfree : s.owner = none) {now interval : Timeval} (hinterval : .zero ≤ interval)
    (hlate : ∀ e ∈ firedOf outs, e.2 ≤ now.add interval) :
    Inv { s with
        timers := Function.update s.timers (s.nextId + 1)
          { repeats := true, canceled := false, next := now.add interval, interval := interval }
        nextId := s.nextId + 1
        queue := s.queue.push (deadline (Function.update s.timers (s.nextId + 1)
          { repeats := true, canceled := false, next := now.add interval, interval := interval }))
          (s.nextId + 1) }
      (outs ++ [.inserted (s.nextId + 1)]) := by
  set timers := Function.update s.timers (s.nextId + 1)
    { repeats := true, canceled := false, next := now.add interval, interval := interval }
    with htimers
  have hnew : timers (s.nextId + 1) =
      { repeats := true, canceled := false, next := now.add interval, interval := interval } :=
    Function.update_self _ _ _
  have hold : ∀ id ∈ s.queue.toList, timers id = s.timers id := by
    intro id hid
    have hle := ((h.mem_iff id).mp hid).2
    exact Function.update_of_ne (by omega) _ _
  have hentry : ∀ k < s.queue.size,
      deadline timers (s.queue.entry k) = deadline s.timers (s.queue.entry k) := by
    intro k hk
    rw [deadline, hold _ (Heap.mem_toList.mpr ⟨k, hk, rfl⟩), deadline]
  have hord : s.queue.Ordered (deadline timers) fun _ => False := by
    intro j hj hjlt hoff
    have hp := Heap.parent_lt (Nat.pos_iff_ne_zero.mp hj)
    rw [hentry j hjlt, hentry _ (hp.trans hjlt)]
    exact h.ordered j hj hjlt hoff
  have hperm := Heap.toList_push (deadline timers) s.queue (s.nextId + 1)
  have hmem : ∀ id, id ∈ (s.queue.push (deadline timers) (s.nextId + 1)).toList →
      id ∈ s.queue.toList ∨ id = s.nextId + 1 := by
    intro id hid
    simpa using hperm.mem_iff.mp hid
  have hfired : firedOf (outs ++ [.inserted (s.nextId + 1)]) = firedOf outs := by
    rw [firedOf_append]
    exact List.append_nil _
  have hpc : s.pc = .waiting := by
    rcases h.owner with hw | hq
    · exact hw.2
    · rw [hfree] at hq
      exact nomatch hq.1
  refine ⟨h.owner, fun t ht => ?_, ?_, ?_, ?_, ?_, ?_⟩
  · exact absurd (hpc.symm.trans ht) nofun
  · exact (Heap.ordered_push hord _ fun _ hoff => hoff.elim).1
  · show (s.queue.push (deadline timers) (s.nextId + 1)).toList.Perm
      (List.range' 1 (s.nextId + 1))
    rw [List.range'_1_concat, Nat.add_comm 1 s.nextId]
    exact hperm.trans (h.queued.append_right _)
  · intro id hid
    rcases hmem id hid with hin | rfl
    · show (timers id).repeats = true ∧ (timers id).canceled = false ∧ .zero ≤ (timers id).interval
      rw [hold id hin]
      exact h.active id hin
    · show (timers _).repeats = true ∧ (timers _).canceled = false ∧ .zero ≤ (timers _).interval
      rw [hnew]
      exact ⟨rfl, rfl, hinterval⟩
  · rw [hfired]
    exact h.fired
  · rw [hfired]
    intro e he id hid
    show e.2 ≤ (timers id).next
    rcases hmem id hid with hin | rfl
    · rw [hold id hin]
      exact h.due e he id hin
    · rw [hnew]
      exact hlate e he

/-- A timer that fires is put back with its next deadline, and the invariant is kept. -/
theorem Inv.fire {s : TimerQueue} {outs : List Out} (h : Inv s outs) {now : Timeval}
    (hpc : s.pc = .inner now) (howner : s.owner = some .queueThread) {t : Nat}
    (ht : s.queue.entry 0 = t) {timers : Nat → Timer}
    (htimers : timers = Function.update s.timers t
      { s.timers t with next := (s.timers t).next.add (s.timers t).interval }) :
    Inv { s with
        timers := timers
        queue := (s.queue.push (deadline timers) t).pop (deadline timers) }
      (outs ++ [.fired t (s.timers t).next]) := by
  have hpos := h.busy now hpc
  have htmem : t ∈ s.queue.toList := Heap.mem_toList.mpr ⟨0, hpos, ht⟩
  have hself : timers t =
      { s.timers t with next := (s.timers t).next.add (s.timers t).interval } := by
    rw [htimers, Function.update_self]
  have hother : ∀ id, id ≠ t → timers id = s.timers id := by
    intro id hne
    rw [htimers, Function.update_of_ne hne]
  have hlater : deadline s.timers t ≤ deadline timers t := by
    rw [deadline, deadline, hself]
    exact Timeval.le_add (h.active t htmem).2.2
  have hle : ∀ id ∈ s.queue.toList, deadline s.timers id ≤ deadline timers id := by
    intro id hid
    by_cases heq : id = t
    · rw [heq]
      exact hlater
    · rw [deadline, deadline, hother id heq]
  -- The key of the top has changed in place, and the rest of the heap is as it was.
  have hord : s.queue.Ordered (deadline timers) (· = 0) := by
    intro j hj hjlt hoff
    have hp := Heap.parent_lt (Nat.pos_iff_ne_zero.mp hj)
    have hkey : ∀ k < s.queue.size, k ≠ 0 →
        deadline timers (s.queue.entry k) = deadline s.timers (s.queue.entry k) := by
      intro k hk hk0
      rw [deadline, deadline, hother]
      intro heq
      exact hk0 (h.entry_injective hk hpos (heq.trans ht.symm))
    rw [hkey j hjlt (by omega), hkey _ (hp.trans hjlt) hoff]
    exact h.ordered j hj hjlt not_false
  obtain ⟨hpush, hroot⟩ := @Heap.ordered_push _ _ _ (deadline timers) _ _ hord t (fun k hk => by
    subst hk
    exact ⟨rfl, by omega, by rw [ht]⟩)
  have hpushperm := Heap.toList_push (deadline timers) s.queue t
  have hsize : 0 < (s.queue.push (deadline timers) t).size := by
    rw [Heap.push, Heap.size_siftUpLoop]
    exact Nat.succ_pos _
  -- `pop` removes the entry that was at the top before the push.
  have hperm : ((s.queue.push (deadline timers) t).pop (deadline timers)).toList.Perm
      s.queue.toList := by
    have hpop := Heap.toList_pop (deadline timers) hsize
    rw [hroot rfl, ht] at hpop
    have hcons := (hpop.symm.trans hpushperm).trans (List.perm_append_singleton t _)
    exact hcons.cons_inv
  have hmin : ∀ id ∈ s.queue.toList, (s.timers t).next ≤ deadline s.timers id := by
    intro id hid
    have htop := Heap.le_of_mem_toList h.ordered hid
    rw [ht] at htop
    exact htop
  have hfired : firedOf (outs ++ [.fired t (s.timers t).next]) =
      firedOf outs ++ [(t, (s.timers t).next)] := firedOf_append _ _
  refine ⟨Or.inr ⟨howner, ?_⟩, fun _ _ => ?_, Heap.ordered_pop hsize hpush, ?_, ?_, ?_, ?_⟩
  · show s.pc ≠ .waiting
    rw [hpc]
    exact nofun
  · have hlen := hperm.length_eq
    simp only [Heap.toList, List.length_map, List.length_range] at hlen
    show 0 < ((s.queue.push (deadline timers) t).pop (deadline timers)).size
    omega
  · exact hperm.trans h.queued
  · intro id hid
    have hid := hperm.mem_iff.mp hid
    show (timers id).repeats = true ∧ (timers id).canceled = false ∧ .zero ≤ (timers id).interval
    by_cases heq : id = t
    · rw [heq, hself]
      exact h.active t htmem
    · rw [hother id heq]
      exact h.active id hid
  · rw [hfired, List.map_append]
    apply List.pairwise_append.mpr
    refine ⟨h.fired, List.pairwise_singleton _ _, fun d hd d' hd' => ?_⟩
    obtain ⟨e, he, rfl⟩ := List.mem_map.mp hd
    have hd' : d' = (s.timers t).next := by simpa using hd'
    rw [hd']
    exact h.due e he t htmem
  · rw [hfired]
    intro e he id hid
    have hid := hperm.mem_iff.mp hid
    apply le_trans ?_ (hle id hid)
    rcases List.mem_append.mp he with he | he
    · exact h.due e he id hid
    · have he : e = (t, (s.timers t).next) := by simpa using he
      rw [he]
      exact hmin id hid

/-- What a turn does when no timer is cancelled: it fires the top, or it leaves the loop. -/
theorem turn_cases {s : TimerQueue} {outs : List Out} (h : Inv s outs) {now : Timeval}
    (hpc : s.pc = .inner now) :
    let t := s.queue.entry 0
    let timers := Function.update s.timers t
      { s.timers t with next := (s.timers t).next.add (s.timers t).interval }
    s.turn now = some ({ s with
        timers := timers
        queue := (s.queue.push (deadline timers) t).pop (deadline timers) },
      .fired t (s.timers t).next) ∨
    s.turn now = some ({ s with owner := none, pc := .waiting }, .done) := by
  have hpos := h.busy now hpc
  have hactive := h.active _ (Heap.mem_toList.mpr ⟨0, hpos, rfl⟩)
  have hne : s.queue.size ≠ 0 := by omega
  by_cases hdue : (s.timers (s.queue.entry 0)).next ≤ now
  · left
    simp [turn, hne, hdue, hactive.1, hactive.2.1]
  · right
    simp [turn, hne, hdue]

theorem step_turn {s : TimerQueue} {now : Timeval} (hpc : s.pc = .inner now) :
    step s .turn = s.turn now := by
  simp only [step, hpc]

/-- A step under the condition is defined and keeps the invariant. -/
theorem step_inv (s : TimerQueue) (outs : List Out) (call : Call) (h : Inv s outs)
    (hcall : NoCancelNoLate (s, outs) call) :
    ∃ s' out, step s call = some (s', out) ∧ Inv s' (outs ++ [out]) := by
  have hblocked : Inv s (outs ++ [.blocked]) := h.quiet rfl rfl rfl rfl h.owner h.busy
  cases call with
  | insertPeriodic now interval =>
    by_cases hfree : s.owner = none
    · obtain ⟨hid, hinterval, hlate⟩ := hcall hfree
      have hid : ¬ s.nextId + 1 ≥ 2 ^ 31 := not_le.mpr hid
      exact ⟨_, _, by simp only [step, if_pos hfree, insertPeriodic, if_neg hid]; rfl,
        h.insertPeriodic hfree hinterval hlate⟩
    · exact ⟨s, .blocked, by simp only [step, if_neg hfree], hblocked⟩
  | cancel id =>
    have hheld : s.owner ≠ none := hcall
    exact ⟨s, .blocked, by simp only [step, if_neg hheld], hblocked⟩
  | wake =>
    by_cases hfree : s.owner = none ∧ s.pc = .waiting
    · refine ⟨_, _, by simp only [step, if_pos hfree]; rfl, ?_⟩
      exact h.quiet rfl rfl rfl rfl (Or.inr ⟨rfl, nofun⟩) nofun
    · exact ⟨s, .blocked, by simp only [step, if_neg hfree], hblocked⟩
  | look now =>
    cases hpc : s.pc with
    | waiting => exact ⟨s, .blocked, by simp only [step, hpc], hblocked⟩
    | inner now' => exact ⟨s, .blocked, by simp only [step, hpc], hblocked⟩
    | top =>
      have howner : s.owner = some .queueThread := by
        rcases h.owner with hw | hq
        · exact absurd (hpc.symm.trans hw.2) nofun
        · exact hq.1
      by_cases hzero : s.queue.size = 0
      · refine ⟨_, _, by simp only [step, hpc, if_pos hzero]; rfl, ?_⟩
        exact h.quiet rfl rfl rfl rfl (Or.inl ⟨rfl, rfl⟩) nofun
      · refine ⟨_, _, by simp only [step, hpc, if_neg hzero]; rfl, ?_⟩
        exact h.quiet rfl rfl rfl rfl (Or.inr ⟨howner, nofun⟩) fun _ _ => Nat.pos_of_ne_zero hzero
  | turn =>
    cases hpc : s.pc with
    | waiting => exact ⟨s, .blocked, by simp only [step, hpc], hblocked⟩
    | top => exact ⟨s, .blocked, by simp only [step, hpc], hblocked⟩
    | inner now =>
      have howner : s.owner = some .queueThread := by
        rcases h.owner with hw | hq
        · exact absurd (hpc.symm.trans hw.2) nofun
        · exact hq.1
      rcases turn_cases h hpc with hfire | hexit
      · exact ⟨_, _, (step_turn hpc).trans hfire, h.fire hpc howner rfl rfl⟩
      · refine ⟨_, _, (step_turn hpc).trans hexit, ?_⟩
        exact h.quiet rfl rfl rfl rfl (Or.inl ⟨rfl, rfl⟩) nofun

theorem inv_init : Inv init [] where
  owner := Or.inl ⟨rfl, rfl⟩
  busy := nofun
  ordered := fun j _ hj => absurd hj (Nat.not_lt_zero j)
  queued := List.Perm.refl _
  active := nofun
  fired := List.Pairwise.nil
  due := nofun

/-! ### Runs -/

/-- A prefix of a run under the condition reaches a state with the invariant, and the rest of the
run meets the condition from there. -/
theorem inv_of_prefix {pre post : List Call}
    (h : StepsWithin (withOutputs step) NoCancelNoLate (init, []) (pre ++ post)) :
    ∃ s outs, run step init pre = some (s, outs) ∧ Inv s outs ∧
      StepsWithin (withOutputs step) NoCancelNoLate (s, outs) post := by
  have hpre := stepsWithin_append h
  obtain ⟨p, bs, hrun, hinv⟩ := run_total_of_within (fun p : TimerQueue × List Out => Inv p.1 p.2)
    (fun p call hp hcall => by
      obtain ⟨s', out, hstep, hs'⟩ := step_inv p.1 p.2 call hp hcall
      exact ⟨(s', p.2 ++ [out]), out, by rw [withOutputs, hstep]; rfl, hs'⟩) pre (init, []) inv_init
    hpre.1
  have hrest := hpre.2 p bs hrun
  rw [run_withOutputs, Option.map_eq_some_iff] at hrun
  obtain ⟨⟨s, outs⟩, hrun, heq⟩ := hrun
  cases heq
  exact ⟨s, outs, hrun, hinv, hrest⟩

end Odss.Ric.TimerQueue
