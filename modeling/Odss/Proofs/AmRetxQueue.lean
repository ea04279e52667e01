import Odss.Proofs.AmTxNacks

/-!
# `Odss.Proofs.AmRetxQueue`: the queue of retransmissions over runs

* `pushedQueues`: the queues that the pushes of a call meet.
* `queueInv_step`: a call under the condition keeps the SNs of the queue apart, and their number below the
  capacity.
* `retxQueueSafe_of_within`: every run of such calls.
* `not_retxQueueSafe_expiry`: the poll timer puts a PDU into the queue that is in it.
-/

set_option linter.all false

namespace Odss.Rlc.AmTx

open Odss.Lib

/-! ### Pushes -/

/-- The queues that are met where `dropStaleRetx` retransmits the PDU at `vt_a` -/
def stalePushes : Nat → AmTx → List RetxQueue
  | 0, _ => []
  | fuel + 1, s =>
    match s.retxQueue with
    | [] => []
    | retx :: queue =>
      if s.txWindow.contains retx.sn then []
      else
        let s := { s with retxQueue := queue }
        if !queue.isEmpty then stalePushes fuel s
        else if s.txWindow.contains s.vtA then
          s.retxQueue :: stalePushes fuel (s.retransmitPdu s.vtA)
        else []

/-- The queues that are met in `read_pdu` -/
def readPushes (s : AmTx) : List RetxQueue :=
  (if s.txWindow.size ≥ amWindowSize ∧ s.retxQueue.isEmpty then [s.retxQueue] else []) ++
    if s.retransmitIfFull.retxQueue.isEmpty then []
    else stalePushes (s.retransmitIfFull.retxQueue.length + 1) s.retransmitIfFull

/-- The queues that are met where the SNs of a status PDU are visited -/
def visitPushes (status : StatusPdu) : List Nat → AmTx × Bool → List RetxQueue
  | [], _ => []
  | i :: sns, p =>
    (if nacked status i && p.1.txWindow.contains i && !p.1.retxQueue.hasSn i then [p.1.retxQueue] else []) ++
      visitPushes status sns (visitSn status p i)

/-- Whether the expiry of the poll timer retransmits the PDU at `vt_a` -/
def expiryRetransmits (s : AmTx) : Bool :=
  s.pollRetxTimer.isRunning && s.txWindow.contains s.vtA &&
    (s.retxQueue.isEmpty && s.txSduQueue.queue.isEmpty || decide (s.txWindow.size ≥ amWindowSize))

/-- The queues that the pushes of a call meet -/
def pushedQueues (s : AmTx) : Op → List RetxQueue
  | .readPdu _ rx => if s.txEnabled && !s.sendsStatus rx then s.readPushes else []
  | .handleControlPdu status =>
    if s.txEnabled && s.acceptsAckSn status.ackSn then
      visitPushes status (s.coveredSns status) (s.startStatus status, true)
    else []
  | .pollRetxExpired => if s.expiryRetransmits then [s.retxQueue] else []
  | _ => []

/-- The entries are for different SNs, and not more than the ring buffer has places for. -/
structure QueueInv (q : RetxQueue) : Prop where
  nodup : (q.map (·.sn)).Nodup
  bounded : q.length ≤ amWindowSize - 1

theorem queueInv_nil : QueueInv [] := ⟨List.nodup_nil, Nat.zero_le _⟩

theorem queueInv_singleton (retx : AmdRetx) : QueueInv [retx] :=
  ⟨List.pairwise_singleton _ _, Nat.le_of_ble_eq_true rfl⟩

theorem QueueInv.of_sublist {q q' : RetxQueue} (h : QueueInv q)
    (hsub : (q'.map (·.sn)).Sublist (q.map (·.sn))) : QueueInv q' := by
  refine ⟨h.nodup.sublist hsub, ?_⟩
  have hle := hsub.length_le
  rw [List.length_map, List.length_map] at hle
  exact Nat.le_trans hle h.bounded

theorem hasSn_iff {q : RetxQueue} {sn : Nat} : RetxQueue.hasSn q sn = true ↔ sn ∈ q.map (·.sn) := by
  rw [RetxQueue.hasSn, List.any_eq_true, List.mem_map]
  simp only [beq_iff_eq]

/-- A push of a new SN onto a queue with a free place -/
theorem QueueInv.push {q : RetxQueue} (h : QueueInv q) {retx : AmdRetx}
    (hnew : RetxQueue.hasSn q retx.sn = false) (hroom : q.length < amWindowSize - 1) :
    QueueInv (RetxQueue.push q retx) := by
  rw [RetxQueue.push, if_neg (Nat.ne_of_lt hroom)]
  refine ⟨?_, by rw [List.length_append]; exact hroom⟩
  rw [List.map_append, List.nodup_append]
  refine ⟨h.nodup, List.pairwise_singleton _ _, ?_⟩
  rintro sn hsn sn' hsn' rfl
  rw [List.map_singleton, List.mem_singleton] at hsn'
  rw [hsn'] at hsn
  rw [hasSn_iff.mpr hsn] at hnew
  cases hnew

/-! ### What a call does to the queue -/

theorem retxQueue_retransmitPdu (s : AmTx) (sn : Nat) :
    (s.retransmitPdu sn).retxQueue = match s.txWindow.find? sn with
      | none => s.retxQueue
      | some pdu => s.retxQueue.push ⟨pdu.rlcSn, false, 0, pdu.buf.length⟩ := by
  unfold retransmitPdu
  cases s.txWindow.find? sn with
  | none => rfl
  | some pdu =>
    show RetxQueue.push (s.countRetx sn).retxQueue _ = _
    rw [retxQueue_countRetx]

/-- Onto an empty queue -/
theorem queueInv_retransmitPdu_nil {s : AmTx} (h : s.retxQueue = []) (sn : Nat) :
    QueueInv (s.retransmitPdu sn).retxQueue := by
  rw [retxQueue_retransmitPdu, h]
  split
  · exact queueInv_nil
  · exact queueInv_singleton _

theorem advanceRetx_sublist (q : RetxQueue) (n soEnd : Nat) :
    ((advanceRetx q n soEnd).map (·.sn)).Sublist (q.map (·.sn)) := by
  unfold advanceRetx
  split
  · exact List.Sublist.refl _
  · split
    · exact List.sublist_cons_self _ _
    · exact List.Sublist.refl _

theorem queueInv_dropStaleRetx (fuel : Nat) {s : AmTx} (h : QueueInv s.retxQueue) :
    QueueInv (dropStaleRetx fuel s).1.retxQueue := by
  induction fuel generalizing s with
  | zero => exact h
  | succ fuel ih =>
    unfold dropStaleRetx
    split
    · exact h
    · rename_i retx queue hqueue
      have htail : QueueInv queue := by
        refine h.of_sublist ?_
        rw [hqueue]
        exact List.sublist_cons_self _ _
      split
      · exact h
      · simp only
        split
        · exact ih htail
        · rename_i hempty
          have hnil : queue = [] := by simpa using hempty
          split
          · exact ih (queueInv_retransmitPdu_nil hnil s.vtA)
          · exact htail

theorem queueInv_buildRetxPdu {s : AmTx} (h : QueueInv s.retxQueue) (nofBytes : Nat) :
    QueueInv (s.buildRetxPdu nofBytes).1.retxQueue := by
  unfold buildRetxPdu
  have hdrop := queueInv_dropStaleRetx (s.retxQueue.length + 1) h
  generalize dropStaleRetx (s.retxQueue.length + 1) s = r at hdrop
  obtain ⟨t, retx⟩ := r
  have htail : QueueInv t.retxQueue.tail := by
    refine hdrop.of_sublist ?_
    rw [List.map_tail]
    exact List.tail_sublist _
  cases retx with
  | none => exact hdrop
  | some retx =>
    simp only
    split
    · exact hdrop
    · rename_i pdu _
      split
      · exact htail
      · split
        · unfold buildSegment
          split
          · rw [retxQueue_afterPoll]
            exact hdrop
          · refine hdrop.of_sublist ?_
            show (List.map _ (advanceRetx (t.afterPoll _).retxQueue _ _)).Sublist _
            rw [retxQueue_afterPoll]
            exact advanceRetx_sublist _ _ _
        · exact htail

theorem retransmitIfFull_retxQueue {s : AmTx} (h : QueueInv s.retxQueue) :
    QueueInv s.retransmitIfFull.retxQueue := by
  unfold retransmitIfFull
  split
  · rename_i hfull
    exact queueInv_retransmitPdu_nil (List.isEmpty_iff.mp hfull.2) s.vtA
  · exact h

theorem queueInv_readRetxPdu {s : AmTx} (h : QueueInv s.retxQueue) (nofBytes : Nat) :
    QueueInv (s.readRetxPdu nofBytes).1.retxQueue := by
  unfold readRetxPdu
  split
  · exact retransmitIfFull_retxQueue h
  · exact queueInv_buildRetxPdu (retransmitIfFull_retxQueue h) nofBytes

/-! ### New data -/

theorem retxQueue_pullRound (b : DataBuild) : (pullRound b).build.tx.retxQueue = b.tx.retxQueue := by
  unfold pullRound
  split
  · split
    · unfold pullNext
      split
      · rfl
      · split <;> rfl
    · split <;> rfl
  · rfl

theorem retxQueue_pullSdus (fuel : Nat) (b : DataBuild) :
    (pullSdus fuel b).build.tx.retxQueue = b.tx.retxQueue := by
  induction fuel generalizing b with
  | zero => rfl
  | succ fuel ih =>
    have hround := retxQueue_pullRound b
    unfold pullSdus
    split
    · rename_i b' hb
      rw [hb] at hround
      exact (ih b').trans hround
    · exact hround

theorem retxQueue_buildDataPdu (s : AmTx) (nofBytes : Nat) :
    (s.buildDataPdu nofBytes).1.retxQueue = s.retxQueue := by
  have hstart : (s.startDataPdu nofBytes).tx.retxQueue = s.retxQueue := by
    unfold startDataPdu
    split <;> rfl
  have hpull := (retxQueue_pullSdus s.txSduQueue.queue.length (s.startDataPdu nofBytes)).trans hstart
  have hfinish : ∀ b : DataBuild, (finishDataPdu s.txSdu.isSome b).1.retxQueue = b.tx.retxQueue :=
    fun b => retxQueue_afterPoll b.tx _
  unfold buildDataPdu
  split
  · generalize pullSdus s.txSduQueue.queue.length (s.startDataPdu nofBytes) = r at hpull
    cases r with
    | again b => exact (hfinish b).trans hpull
    | done b => exact (hfinish b).trans hpull
    | noSegments b => exact hpull
  · rfl

/-! ### Status PDUs -/

theorem visitPushes_lt {status : StatusPdu} {sns : List Nat} {p : AmTx × Bool} (h : ToVisit status sns p) :
    ∀ q ∈ visitPushes status sns p, List.length q < amWindowSize - 1 := by
  induction sns generalizing p with
  | nil => exact nofun
  | cons i sns ih =>
    intro q hq
    rw [visitPushes, List.mem_append] at hq
    rcases hq with hq | hq
    · split at hq
      · rename_i hpush
        rw [List.mem_singleton] at hq
        rw [Bool.and_eq_true, Bool.and_eq_true] at hpush
        obtain ⟨⟨hnacked, hin⟩, -⟩ := hpush
        obtain ⟨nack, hfirst⟩ := nacked_iff.mp hnacked
        obtain ⟨pdu, hpdu⟩ := CircularMap.contains_iff.mp hin
        -- the entry that is pushed is one of those that there is room for
        have hentry : nackEntry p.1 status i = some (nackRetx i pdu.buf.length nack) := by
          rw [nackEntry, bufAt, hpdu, hfirst]
          rfl
        have hroom := h.room
        rw [nackEntries_cons, hentry, List.length_append, Option.toList_some, List.length_singleton] at hroom
        rw [hq]
        omega
      · cases hq
    · exact ih h.visit.2.2.2 q hq

theorem visitPushes_acks {status : StatusPdu} (h : status.nacks = []) (sns : List Nat) (p : AmTx × Bool) :
    visitPushes status sns p = [] := by
  induction sns generalizing p with
  | nil => rfl
  | cons i sns ih =>
    rw [visitPushes, ih, nacked, h]
    rfl

theorem nackEntry_sn {s : AmTx} {status : StatusPdu} {i : Nat} {retx : AmdRetx}
    (h : nackEntry s status i = some retx) : retx.sn = i := by
  obtain ⟨buf, -, hmap⟩ := Option.bind_eq_some_iff.mp h
  obtain ⟨nack, -, rfl⟩ := Option.map_eq_some_iff.mp hmap
  exact nackRetx_sn i _ nack

theorem nackEntries_sublist (s : AmTx) (status : StatusPdu) (sns : List Nat) :
    ((nackEntries s status sns).map (·.sn)).Sublist sns := by
  induction sns with
  | nil => exact List.Sublist.refl []
  | cons i sns ih =>
    rw [nackEntries_cons]
    cases hentry : nackEntry s status i with
    | none => exact ih.cons i
    | some retx =>
      rw [Option.toList_some, List.map_append, List.map_singleton, nackEntry_sn hentry]
      exact ih.cons_cons i

theorem queueInv_handleControlPdu {s : AmTx} (hA : s.vtA < amMod) (h : QueueInv s.retxQueue)
    {status : StatusPdu} (hfew : (nackEntries s status (s.coveredSns status)).length < amWindowSize) :
    QueueInv (s.handleControlPdu status).retxQueue := by
  by_cases haccept : s.txEnabled = true ∧ s.acceptsAckSn status.ackSn = true
  · obtain ⟨henabled, haccept⟩ := haccept
    by_cases hnacks : status.nacks = []
    · rw [retxQueue_handleControlPdu_acks hA henabled haccept hnacks]
      exact h
    · rw [(retxQueue_handleControlPdu hA henabled haccept hnacks hfew).1]
      exact ⟨(nodup_snRun (covered_le s status)).sublist (nackEntries_sublist s status _),
        Nat.le_of_lt_succ hfew⟩
  · rw [handleControlPdu, if_neg haccept]
    exact h

/-! ### Calls -/

/-- A call under the condition. The poll timer expires with a full window only while the PDU at `vt_a` is not
in the queue, and there is a place for it. A status PDU is for less NACKed PDUs than the window has. -/
def KeepsQueue (s : AmTx) : Op → Prop
  | .handleControlPdu status => (nackEntries s status (s.coveredSns status)).length < amWindowSize
  | .pollRetxExpired => s.pollRetxTimer.isRunning = true → s.txWindow.size ≥ amWindowSize →
      ∀ pdu, s.txWindow.find? s.vtA = some pdu →
        s.retxQueue.hasSn pdu.rlcSn = false ∧ List.length s.retxQueue < amWindowSize - 1
  | _ => True

/-- What holds of the transmitter between calls -/
structure RetxInv (s : AmTx) : Prop where
  vtA : s.vtA < amMod
  queue : QueueInv s.retxQueue

theorem vtA_handleControlPdu {s : AmTx} (hA : s.vtA < amMod) (status : StatusPdu) :
    (s.handleControlPdu status).vtA < amMod := by
  have hfold : ∀ (sns : List Nat) (p : AmTx × Bool), p.1.vtA < amMod →
      (sns.foldl (visitSn status) p).1.vtA < amMod := by
    intro sns
    induction sns with
    | nil => exact fun _ hp => hp
    | cons i sns ih =>
      intro p hp
      refine ih _ ?_
      unfold visitSn handleAck
      split
      · rw [(sameWindow_handleNacks p.1 i status.nacks).vtA]
        exact hp
      · split
        · exact Nat.mod_lt _ (by decide)
        · rw [(ackPdu_window p.1 i).1]
          exact hp
  by_cases haccept : s.txEnabled = true ∧ s.acceptsAckSn status.ackSn = true
  · rw [handleControlPdu_eq hA haccept.1 haccept.2]
    exact hfold _ _ hA
  · rw [handleControlPdu, if_neg haccept]
    exact hA

theorem retxInv_readPdu {s : AmTx} (h : RetxInv s) (nofBytes : Nat) (rx : RxStatus) :
    RetxInv (s.readPdu nofBytes rx).1 := by
  have hretx : RetxInv (s.readRetxPdu nofBytes).1 :=
    ⟨by rw [(sameWindow_readRetxPdu s nofBytes).vtA]; exact h.vtA, queueInv_readRetxPdu h.queue nofBytes⟩
  unfold readPdu
  split
  · exact h
  · split
    · unfold buildStatusPdu
      split
      · exact h
      · split
        · exact ⟨h.vtA, h.queue⟩
        · exact h
    · split
      · refine ⟨?_, by rw [retxQueue_buildDataPdu]; exact hretx.queue⟩
        have hcases := buildDataPdu_cases (s.readRetxPdu nofBytes).1 nofBytes
        rcases hcases with ⟨-, heq⟩ | ⟨-, hA, -⟩ | ⟨-, hA, -⟩
        · rw [heq]
          exact hretx.vtA
        · rw [hA]
          exact hretx.vtA
        · rw [hA]
          exact hretx.vtA
      · exact hretx

theorem retxInv_pollRetxExpired {s : AmTx} (h : RetxInv s) (hop : KeepsQueue s .pollRetxExpired) :
    RetxInv s.pollRetxExpired := by
  unfold pollRetxExpired
  split
  · exact h
  · rename_i hrunning
    split
    · rename_i hcond
      refine ⟨by rw [(sameWindow_retransmitPdu _ _).vtA]; exact h.vtA, ?_⟩
      rw [retxQueue_retransmitPdu]
      show QueueInv (match s.txWindow.find? s.vtA with
        | none => s.retxQueue
        | some pdu => s.retxQueue.push ⟨pdu.rlcSn, false, 0, pdu.buf.length⟩)
      cases hpdu : s.txWindow.find? s.vtA with
      | none => exact h.queue
      | some pdu =>
        have hroom : s.retxQueue.hasSn pdu.rlcSn = false ∧
            List.length s.retxQueue < amWindowSize - 1 := by
          rcases hcond with ⟨hempty, -⟩ | hfull
          · rw [List.isEmpty_iff.mp hempty]
            exact ⟨rfl, by decide⟩
          · exact hop (by simpa using hrunning) hfull pdu hpdu
        exact h.queue.push hroom.1 hroom.2
    · exact ⟨h.vtA, h.queue⟩

theorem retxInv_step {s : AmTx} {op : Op} (h : RetxInv s) (hop : KeepsQueue s op) :
    RetxInv (s.step op).1 := by
  cases op with
  | writeSdu sdu =>
    simp only [step, writeSdu]
    split
    · exact h
    · split
      · exact h
      · exact ⟨h.vtA, h.queue⟩
  | readPdu nofBytes rx => exact retxInv_readPdu h nofBytes rx
  | handleControlPdu status =>
    exact ⟨vtA_handleControlPdu h.vtA status, queueInv_handleControlPdu h.vtA h.queue hop⟩
  | pollRetxExpired => exact retxInv_pollRetxExpired h hop
  | statusProhibitExpired =>
    simp only [step, statusProhibitExpired]
    split
    · exact h
    · exact ⟨h.vtA, h.queue⟩
  | discardSdu discardSn =>
    simp only [step, discardSdu]
    split
    · exact h
    · exact ⟨h.vtA, h.queue⟩
  | emptyQueue => exact ⟨h.vtA, h.queue⟩
  | stop => exact ⟨Nat.zero_lt_succ 1023, queueInv_nil⟩
  | reestablish => exact ⟨Nat.zero_lt_succ 1023, queueInv_nil⟩

/-- `read_pdu` pushes onto an empty queue only. -/
theorem stalePushes_nil (fuel : Nat) (s : AmTx) : ∀ q ∈ stalePushes fuel s, q = [] := by
  induction fuel generalizing s with
  | zero => exact nofun
  | succ fuel ih =>
    intro q hq
    unfold stalePushes at hq
    split at hq
    · cases hq
    · rename_i retx queue _
      split at hq
      · cases hq
      · simp only at hq
        split at hq
        · exact ih _ q hq
        · rename_i hempty
          split at hq
          · rcases List.mem_cons.mp hq with rfl | hq
            · simpa using hempty
            · exact ih _ q hq
          · cases hq

theorem readPushes_nil (s : AmTx) : ∀ q ∈ s.readPushes, q = [] := by
  intro q hq
  rw [readPushes, List.mem_append] at hq
  rcases hq with hq | hq
  · split at hq
    · rename_i hfull
      rw [List.mem_singleton] at hq
      rw [hq]
      exact List.isEmpty_iff.mp hfull.2
    · cases hq
  · split at hq
    · cases hq
    · exact stalePushes_nil _ _ q hq

/-- No push of a call under the condition meets a full queue. -/
theorem pushedQueues_lt {s : AmTx} {op : Op} (hop : KeepsQueue s op) :
    ∀ q ∈ s.pushedQueues op, List.length q < amWindowSize - 1 := by
  intro q hq
  cases op with
  | readPdu nofBytes rx =>
    simp only [pushedQueues] at hq
    split at hq
    · rw [readPushes_nil s q hq]
      decide
    · cases hq
  | handleControlPdu status =>
    simp only [pushedQueues] at hq
    split at hq
    · by_cases hnacks : status.nacks = []
      · rw [visitPushes_acks hnacks] at hq
        cases hq
      · exact visitPushes_lt (toVisit_startStatus hnacks hop).2 q hq
    · cases hq
  | pollRetxExpired =>
    simp only [pushedQueues] at hq
    split at hq
    · rename_i hretransmits
      rw [List.mem_singleton] at hq
      rw [hq]
      rw [expiryRetransmits, Bool.and_eq_true, Bool.and_eq_true, Bool.or_eq_true, Bool.and_eq_true,
        decide_eq_true_iff] at hretransmits
      obtain ⟨⟨hrunning, hin⟩, ⟨hempty, -⟩ | hfull⟩ := hretransmits
      · rw [List.isEmpty_iff.mp hempty]
        decide
      · obtain ⟨pdu, hpdu⟩ := CircularMap.contains_iff.mp hin
        exact (hop hrunning hfull pdu hpdu).2
    · cases hq
  | writeSdu | statusProhibitExpired | discardSdu | emptyQueue | stop | reestablish => cases hq

/-! ### Runs -/

/-- The queue of retransmissions is sound over the run of `ops` from the start.

- `queue`: it never has two entries for one SN, nor more entries than places;
- `pushes`: no push meets a full queue, which it would empty. -/
structure RetxQueueSafe (cfg : AmConfig) (ops : List Op) : Prop where
  queue : ∀ pre post, ops = pre ++ post → QueueInv ((init cfg).execOps pre).retxQueue
  pushes : ∀ pre op post, ops = pre ++ op :: post →
    ∀ q ∈ ((init cfg).execOps pre).pushedQueues op, List.length q < amWindowSize - 1

/-- In every run of calls under the condition, the queue is sound. -/
theorem retxQueueSafe_of_within (cfg : AmConfig) (ops : List Op)
    (h : ExecWithin (fun s op => (s.step op).1) KeepsQueue (init cfg) ops) : RetxQueueSafe cfg ops where
  queue := by
    rintro pre post rfl
    have hstart : RetxInv (init cfg) := ⟨Nat.zero_lt_succ 1023, queueInv_nil⟩
    exact (exec_invariant_of_within RetxInv (fun _ _ hs hop => retxInv_step hs hop) pre _ hstart
      (execWithin_append.mp h).1).queue
  pushes := by
    rintro pre op post rfl
    exact pushedQueues_lt (execWithin_append.mp h).2.1

/-- A PDU is sent, and the poll timer expires. -/
theorem retxQueueSafe_expiry : RetxQueueSafe ⟨-1, -1, 4, 0, 256⟩
    [.writeSdu ⟨0, [1, 2, 3]⟩, .readPdu 5 noStatus, .pollRetxExpired] :=
  retxQueueSafe_of_within _ _ ⟨trivial, trivial, fun _ hfull => absurd hfull (by decide), trivial⟩

/-- With a full window, a small grant leaves the first PDU in the queue, and the poll timer, which the attempt
has started, puts it there again. -/
theorem longSdu_twice {s : AmTx} (h : LongSdu 0 s) :
    ¬QueueInv (s.execOps [.readPdu 2 noStatus, .pollRetxExpired]).retxQueue := by
  obtain ⟨pdu, window, events, hsn, hpdu, hsize, hretx, hread⟩ :=
    longSdu_readRetxPdu h (show 2 ≤ amMinDataPduSize by decide)
  have hfull : amWindowSize ≤ window.size := Nat.le_of_eq (hsize.trans (h.size.trans h.vtS)).symm
  have hpoll : (s.retransmitPdu 0).pollBit (pdu.buf.length + 2) = true := by
    rw [hretx, pollBit, pollRequired]
    simp [countPoll, hfull]
  have hadds : ∀ t : AmTx, t.addsDataPdu 2 = false := by
    intro t
    rw [addsDataPdu, decide_eq_false (by decide : ¬2 ≥ amMinDataPduSize), Bool.and_false, Bool.false_and]
  -- the small grant is not enough for anything
  have hfirst : (s.readPdu 2 noStatus).1 = { s.retransmitPdu 0 with
      pduWithoutPoll := 0, byteWithoutPoll := 0, pollRetxTimer := .running } := by
    rw [readPdu, h.enabled]
    simp only [Bool.not_true, Bool.false_eq_true, if_false, sendsStatus, noStatus, Bool.false_and, hread,
      List.isEmpty_nil, if_true, buildDataPdu, hadds, afterPoll, hpoll]
  intro hqueue
  have hnodup := hqueue.nodup
  rw [execOps, exec_cons, exec_cons, exec_nil] at hnodup
  simp only [step, hfirst, hretx, pollRetxExpired, TimerState.isRunning, beq_self_eq_true, Bool.not_true,
    Bool.false_eq_true, if_false, List.isEmpty_cons, false_and, false_or, ge_iff_le, hfull, if_true,
    retxQueue_retransmitPdu, h.vtA, hpdu, hsn] at hnodup
  have htwo : [0, 0].Nodup := hnodup
  exact absurd htwo (by decide)

/-- An SDU of 600 bytes fills the window, and the first PDU gets into the queue twice. -/
theorem not_retxQueueSafe_expiry : ¬RetxQueueSafe ⟨-1, -1, 4, 0, 256⟩
    ([.writeSdu ⟨0, List.replicate 600 7⟩, .readPdu 10 noStatus] ++
      List.replicate 511 (.readPdu 3 noStatus) ++ [.readPdu 2 noStatus, .pollRetxExpired]) := by
  intro hsafe
  have hqueue := hsafe.queue _ [] (List.append_nil _).symm
  rw [execOps, exec_append, exec_append] at hqueue
  exact longSdu_twice (longSdu_execOps 511 longSdu_start) hqueue

end Odss.Rlc.AmTx
