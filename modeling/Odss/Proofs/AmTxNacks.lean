import Odss.Lib.CyclicDist
import Odss.Proofs.AmTxWindow

/-!
# `Odss.Proofs.AmTxNacks`: what a status PDU puts into the queue of retransmissions

* `ackLoop_eq`: the loop of `handle_control_pdu` is a fold over the SNs from `vt_a` on.
* `foldl_visitSn`: each NACKed SN whose PDU is in the window gets an entry, for its first NACK.
* `retxQueue_handleControlPdu`: the queue after a status PDU.
-/

set_option linter.all false

namespace Odss.Rlc.AmTx

open Odss.Lib

/-! ### The loop as a fold -/

/-- The SNs from `i` on -/
def snRun (i n : Nat) : List Nat := (List.range n).map fun d => (i + d) % amMod

theorem snRun_succ {i : Nat} (h : i < amMod) (n : Nat) :
    snRun i (n + 1) = i :: snRun ((i + 1) % amMod) n := by
  rw [snRun, List.range_succ_eq_map, List.map_cons, List.map_map, Nat.add_zero, Nat.mod_eq_of_lt h]
  refine congrArg (i :: ·) (List.map_congr_left fun d _ => ?_)
  show (i + (d + 1)) % amMod = ((i + 1) % amMod + d) % amMod
  rw [Nat.mod_add_mod, Nat.add_right_comm, Nat.add_assoc]

theorem mem_snRun_iff {i : Nat} (h : i < amMod) {n : Nat} (hn : n ≤ amMod) {j : Nat} :
    j ∈ snRun i n ↔ j < amMod ∧ (j + amMod - i) % amMod < n := by
  rw [snRun, List.mem_map]
  simp only [List.mem_range]
  constructor
  · rintro ⟨d, hd, rfl⟩
    simp only [amMod] at *
    omega
  · rintro ⟨hj, hd⟩
    refine ⟨_, hd, ?_⟩
    simp only [amMod] at *
    omega

theorem nodup_snRun {i n : Nat} (hn : n ≤ amMod) : (snRun i n).Nodup := by
  rw [snRun, List.Nodup, List.pairwise_map]
  refine List.nodup_range.imp_of_mem fun {d d'} hd hd' hne heq => hne ?_
  rw [List.mem_range] at hd hd'
  simp only [amMod] at *
  omega

/-- A NACK of the SN is in the status PDU. -/
def nacked (status : StatusPdu) (i : Nat) : Bool := status.nacks.any fun nack => nack.nackSn == i

/-- One round of the loop of `handle_control_pdu`, with the flag that says whether `vt_a` still follows -/
def visitSn (status : StatusPdu) (p : AmTx × Bool) (i : Nat) : AmTx × Bool :=
  if nacked status i then (p.1.handleNacks i status.nacks, false) else (p.1.handleAck i p.2, p.2)

/-- The lower edge steps: all other SNs come nearer. -/
theorem txModBase_stepped {s t : AmTx} (ht : t.vtA = (s.vtA + 1) % amMod) {x : Nat}
    (hx : 0 < s.txModBase x) : t.txModBase x = s.txModBase x - 1 := by
  unfold txModBase amMod at hx ⊢
  rw [ht]
  unfold amMod at *
  omega

/-- The loop visits the SNs up to the acknowledged one and up to `vt_s`. Without a NACK `vt_a` follows. -/
theorem ackLoop_eq (status : StatusPdu) (vtS n : Nat) : ∀ (fuel : Nat) (s : AmTx) (i : Nat) (updateVtA : Bool),
    n ≤ fuel → s.vtA < amMod → i < amMod → (updateVtA = true → i = s.vtA) →
    s.txModBase i + n = min (s.txModBase status.ackSn) (s.txModBase vtS) →
    ackLoop status vtS fuel s i updateVtA = ((snRun i n).foldl (visitSn status) (s, updateVtA)).1 := by
  induction n with
  | zero =>
    intro fuel s i updateVtA _ _ _ _ hdist
    cases fuel with
    | zero => rfl
    | succ fuel =>
      rw [ackLoop, if_neg (by omega)]
      rfl
  | succ n ih =>
    intro fuel s i updateVtA hfuel hA hi hupdate hdist
    obtain ⟨fuel, rfl⟩ : ∃ k, fuel = k + 1 := ⟨fuel - 1, by omega⟩
    rw [ackLoop, if_pos (by omega), snRun_succ hi, List.foldl_cons, visitSn]
    change (if nacked status i then _ else _) = _
    have hnext : (i + 1) % amMod < amMod := Nat.mod_lt _ (by decide)
    have hsucc : s.txModBase ((i + 1) % amMod) = s.txModBase i + 1 := by
      have hend : s.txModBase vtS < amMod := Nat.mod_lt _ (by decide)
      refine cycDist_succ hA hi (show s.txModBase i + 1 < amMod from ?_)
      omega
    by_cases hnack : nacked status i = true
    · have hsame := sameWindow_handleNacks s i status.nacks
      have hbase : ∀ x, (s.handleNacks i status.nacks).txModBase x = s.txModBase x := fun x => by
        rw [txModBase, txModBase, hsame.vtA]
      rw [if_pos hnack, if_pos hnack]
      refine ih fuel _ _ false (by omega) (by rw [hsame.vtA]; exact hA) hnext
          (fun hfalse => by cases hfalse) ?_
      rw [hbase, hbase, hbase, hsucc]
      omega
    · obtain ⟨hA', -, -, -⟩ := ackPdu_window s i
      rw [if_neg hnack, if_neg hnack]
      cases updateVtA with
      | false =>
        have hbase : ∀ x, (s.handleAck i false).txModBase x = s.txModBase x := fun x => by
          show (s.ackPdu i).txModBase x = _
          rw [txModBase, txModBase, hA']
        refine ih fuel _ _ false (by omega) (by show (s.ackPdu i).vtA < amMod; rw [hA']; exact hA) hnext
          (fun hfalse => by cases hfalse) ?_
        rw [hbase, hbase, hbase, hsucc]
        omega
      | true =>
        obtain rfl := hupdate rfl
        -- the lower edge moves with the SN that is visited
        have hA'' : (s.handleAck s.vtA true).vtA = (s.vtA + 1) % amMod := by
          show ((s.ackPdu s.vtA).vtA + 1) % amMod = _
          rw [hA']
        refine ih fuel _ _ true (by omega) (by rw [hA'']; exact hnext) hnext (fun _ => hA''.symm) ?_
        have hself : (s.handleAck s.vtA true).txModBase ((s.vtA + 1) % amMod) = 0 := by
          rw [← hA'']
          exact cycDist_self
        have hzero : s.txModBase s.vtA = 0 := cycDist_self
        rw [hself, txModBase_stepped hA'' (by omega), txModBase_stepped hA'' (by omega)]
        omega

/-! ### Frames -/

theorem find?_countRetx_ne {s : AmTx} {sn j : Nat} (h : j ≠ sn) :
    (s.countRetx sn).txWindow.find? j = s.txWindow.find? j := by
  have hmod : (s.txWindow.modify sn fun pdu => { pdu with retxCount := pdu.retxCount + 1 }).find? j =
      s.txWindow.find? j := by
    rw [CircularMap.find?_modify, if_neg h]
  unfold countRetx checkSnReachedMaxRetx
  split
  · exact hmod
  · split
    · exact hmod
    · exact hmod

theorem retxQueue_countRetx (s : AmTx) (sn : Nat) : (s.countRetx sn).retxQueue = s.retxQueue := by
  obtain ⟨window, events, heq⟩ := countRetx_eq s sn
  rw [heq]

/-- The acknowledgement of the segments concerns the information on the SDUs only. -/
theorem updateNotificationAckInfo_eq (s : AmTx) (rlcSn : Nat) : ∃ notify info,
    s.updateNotificationAckInfo rlcSn = { s with notifyInfoVec := notify, sduInfo := info } := by
  have hone : ∀ (t : AmTx) (id : Nat), ∃ notify info,
      t.ackSegment id = { t with notifyInfoVec := notify, sduInfo := info } := by
    intro t id
    unfold ackSegment ackSdu
    split
    · exact ⟨_, _, rfl⟩
    · split
      · exact ⟨_, _, rfl⟩
      · exact ⟨t.notifyInfoVec, _, rfl⟩
  have hfold : ∀ (ids : List Nat) (t : AmTx), ∃ notify info,
      ids.foldl ackSegment t = { t with notifyInfoVec := notify, sduInfo := info } := by
    intro ids
    induction ids with
    | nil => exact fun t => ⟨_, _, rfl⟩
    | cons id ids ih =>
      intro t
      obtain ⟨notify, info, heq⟩ := hone t id
      obtain ⟨notify', info', heq'⟩ := ih (t.ackSegment id)
      rw [List.foldl_cons, heq']
      exact ⟨notify', info', by rw [heq]⟩
  unfold updateNotificationAckInfo
  split
  · exact ⟨_, _, rfl⟩
  · exact hfold _ s

/-- An acknowledgement takes the PDU out of the window. -/
theorem handleAck_eq (s : AmTx) (i : Nat) (updateVtA : Bool) :
    (s.handleAck i updateVtA).retxQueue = s.retxQueue ∧
      ∀ j, (s.handleAck i updateVtA).txWindow.find? j = if j = i then none else s.txWindow.find? j := by
  have hack : (s.ackPdu i).retxQueue = s.retxQueue ∧
      ∀ j, (s.ackPdu i).txWindow.find? j = if j = i then none else s.txWindow.find? j := by
    obtain ⟨notify, info, heq⟩ := updateNotificationAckInfo_eq s i
    unfold ackPdu
    split
    · rename_i hin
      obtain ⟨pdu, hpdu⟩ := CircularMap.contains_iff.mp hin
      have hpdu' : (s.updateNotificationAckInfo i).txWindow.find? i = some pdu := by
        rw [heq]
        exact hpdu
      unfold removePdu
      rw [hpdu']
      dsimp only
      rw [heq]
      exact ⟨rfl, fun j => CircularMap.find?_erase s.txWindow i j⟩
    · rename_i hout
      refine ⟨rfl, fun j => ?_⟩
      split
      · rename_i hj
        rw [hj, ← Option.not_isSome_iff_eq_none]
        exact hout
      · rfl
  unfold handleAck
  split
  · exact hack
  · exact hack

/-! ### The entries -/

/-- The first NACK of a SN -/
def firstNack (status : StatusPdu) (i : Nat) : Option StatusNack :=
  status.nacks.find? fun nack => nack.nackSn == i

/-- The bytes of a PDU in the window -/
def bufAt (s : AmTx) (i : Nat) : Option Bytes := (s.txWindow.find? i).map (·.buf)

/-- The entry for a NACKed SN whose PDU is in the window -/
def nackEntry (s : AmTx) (status : StatusPdu) (i : Nat) : Option AmdRetx :=
  (s.bufAt i).bind fun buf => (firstNack status i).map (nackRetx i buf.length)

theorem nackRetx_sn (i n : Nat) (nack : StatusNack) : (nackRetx i n nack).sn = i := by
  unfold nackRetx
  dsimp only
  split_ifs <;> rfl

/-- A PDU outside the window, or one that has an entry, is left alone. -/
theorem handleNacks_of_skip {s : AmTx} {i : Nat} (nacks : List StatusNack)
    (h : s.txWindow.find? i = none ∨ s.retxQueue.hasSn i = true) : s.handleNacks i nacks = s := by
  unfold handleNacks
  induction nacks with
  | nil => rfl
  | cons nack nacks ih =>
    have hskip : s.handleNack i nack = s := by
      unfold handleNack
      split
      · rfl
      · rename_i pdu hpdu
        rw [if_pos (h.resolve_left (by rw [hpdu]; exact Option.some_ne_none pdu))]
    rw [List.foldl_cons, hskip, ite_self]
    exact ih

theorem hasSn_append (q : RetxQueue) (retx : AmdRetx) (sn : Nat) :
    RetxQueue.hasSn (q ++ [retx]) sn = (RetxQueue.hasSn q sn || retx.sn == sn) := by
  rw [RetxQueue.hasSn, RetxQueue.hasSn, List.any_append, List.any_cons, List.any_nil, Bool.or_false]

/-- The first NACK of a PDU in the window puts its entry into the queue, and the others do nothing. -/
theorem handleNacks_spec {s : AmTx} {i : Nat} {pdu : AmdTxPdu} (hpdu : s.txWindow.find? i = some pdu)
    (hnew : s.retxQueue.hasSn i = false) (hroom : s.retxQueue.length < amWindowSize - 1)
    (nacks : List StatusNack) {nack : StatusNack} (hfirst : nacks.find? (fun nack => nack.nackSn == i) = some nack) :
    (s.handleNacks i nacks).retxQueue = s.retxQueue ++ [nackRetx i pdu.buf.length nack] ∧
      (s.handleNacks i nacks).txWindow = (s.countRetx i).txWindow := by
  induction nacks with
  | nil => cases hfirst
  | cons nack' nacks ih =>
    by_cases hsn : nack'.nackSn = i
    · rw [List.find?_cons_of_pos (by rw [hsn]; exact beq_self_eq_true i)] at hfirst
      cases hfirst
      have hone : s.handleNack i nack = { s.countRetx i with
          retxQueue := s.retxQueue ++ [nackRetx i pdu.buf.length nack] } := by
        unfold handleNack
        rw [hpdu]
        dsimp only
        rw [if_neg (by rw [hnew]; exact Bool.false_ne_true), retxQueue_countRetx, RetxQueue.push,
          if_neg (Nat.ne_of_lt hroom)]
      rw [handleNacks, List.foldl_cons, if_pos hsn, hone]
      have hrest := handleNacks_of_skip (s := { s.countRetx i with
        retxQueue := s.retxQueue ++ [nackRetx i pdu.buf.length nack] }) (i := i) nacks
        (Or.inr (by rw [hasSn_append, nackRetx_sn, beq_self_eq_true, Bool.or_true]))
      rw [handleNacks] at hrest
      rw [hrest]
      exact ⟨rfl, rfl⟩
    · rw [List.find?_cons_of_neg (by simpa using hsn)] at hfirst
      rw [handleNacks, List.foldl_cons, if_neg hsn]
      exact ih hfirst

theorem nacked_iff {status : StatusPdu} {i : Nat} :
    nacked status i = true ↔ ∃ nack, firstNack status i = some nack := by
  rw [nacked, firstNack, ← Option.isSome_iff_exists, List.find?_isSome, List.any_eq_true]

/-- A visit of a SN that has no entry appends the entry that it gets, and keeps the bytes of all PDUs but one
that is acknowledged. -/
theorem visitSn_spec (status : StatusPdu) {p : AmTx × Bool} {i : Nat} (hnew : p.1.retxQueue.hasSn i = false)
    (hroom : p.1.retxQueue.length + (nackEntry p.1 status i).toList.length ≤ amWindowSize - 1) :
    (visitSn status p i).1.retxQueue = p.1.retxQueue ++ (nackEntry p.1 status i).toList ∧
      ∀ j, bufAt (visitSn status p i).1 j =
        if j = i ∧ nacked status j = false then none else bufAt p.1 j := by
  obtain ⟨s, updateVtA⟩ := p
  rw [visitSn]
  by_cases hnack : nacked status i = true
  · have hkeep : ∀ j, ¬(j = i ∧ nacked status j = false) := by
      rintro j ⟨rfl, hno⟩
      exact absurd (hno.symm.trans hnack) Bool.false_ne_true
    rw [if_pos hnack]
    simp only [if_neg (hkeep _)]
    cases hpdu : s.txWindow.find? i with
    | none =>
      have hentry : nackEntry s status i = none := by rw [nackEntry, bufAt, hpdu]; rfl
      rw [handleNacks_of_skip _ (Or.inl hpdu), hentry]
      exact ⟨(List.append_nil _).symm, fun _ => rfl⟩
    | some pdu =>
      obtain ⟨nack, hfirst⟩ := nacked_iff.mp hnack
      have hentry : nackEntry s status i = some (nackRetx i pdu.buf.length nack) := by
        rw [nackEntry, bufAt, hpdu, hfirst]
        rfl
      rw [hentry] at hroom ⊢
      obtain ⟨hqueue, hwindow⟩ := handleNacks_spec hpdu hnew (Nat.lt_of_succ_le hroom) status.nacks hfirst
      refine ⟨hqueue, fun j => ?_⟩
      rw [bufAt, bufAt, hwindow]
      by_cases hj : j = i
      · rw [hj, find?_countRetx hpdu, hpdu]
        rfl
      · rw [find?_countRetx_ne hj]
  · obtain ⟨hqueue, hwindow⟩ := handleAck_eq s i updateVtA
    have hentry : nackEntry s status i = none := by
      have hno : firstNack status i = none := by
        rw [← Option.not_isSome_iff_eq_none, Option.isSome_iff_exists, ← nacked_iff]
        exact hnack
      rw [nackEntry, hno]
      cases s.bufAt i <;> rfl
    rw [if_neg hnack, hentry]
    refine ⟨hqueue.trans (List.append_nil _).symm, fun j => ?_⟩
    show ((s.handleAck i updateVtA).txWindow.find? j).map _ = _
    rw [hwindow]
    by_cases hj : j = i
    · rw [if_pos hj, if_pos ⟨hj, by rw [hj]; exact Bool.eq_false_iff.mpr hnack⟩]
      rfl
    · rw [if_neg hj, if_neg fun h => hj h.1]
      rfl

/-- All entries of a status PDU -/
def nackEntries (s : AmTx) (status : StatusPdu) (sns : List Nat) : List AmdRetx :=
  sns.filterMap (nackEntry s status)

theorem nackEntries_cons (s : AmTx) (status : StatusPdu) (i : Nat) (sns : List Nat) :
    nackEntries s status (i :: sns) = (nackEntry s status i).toList ++ nackEntries s status sns := by
  rw [nackEntries, nackEntries, List.filterMap_cons]
  cases nackEntry s status i <;> rfl

/-- The SNs that are to be visited have no entries, and there is room for those that they get. -/
structure ToVisit (status : StatusPdu) (sns : List Nat) (p : AmTx × Bool) : Prop where
  nodup : sns.Nodup
  new : ∀ i ∈ sns, p.1.retxQueue.hasSn i = false
  room : List.length p.1.retxQueue + (nackEntries p.1 status sns).length ≤ amWindowSize - 1

/-- The first SN gets its entry, and the others are still to be visited. -/
theorem ToVisit.visit {status : StatusPdu} {i : Nat} {sns : List Nat} {p : AmTx × Bool}
    (h : ToVisit status (i :: sns) p) :
    (visitSn status p i).1.retxQueue = p.1.retxQueue ++ (nackEntry p.1 status i).toList ∧
      (∀ j, bufAt (visitSn status p i).1 j =
        if j = i ∧ nacked status j = false then none else bufAt p.1 j) ∧
      nackEntries (visitSn status p i).1 status sns = nackEntries p.1 status sns ∧
      ToVisit status sns (visitSn status p i) := by
  obtain ⟨hi, hnodup⟩ := List.nodup_cons.mp h.nodup
  have hroom := h.room
  rw [nackEntries_cons, List.length_append] at hroom
  obtain ⟨hqueue, hbuf⟩ := visitSn_spec status (h.new i List.mem_cons_self) (by omega)
  have hentries : nackEntries (visitSn status p i).1 status sns = nackEntries p.1 status sns := by
    refine List.filterMap_congr fun j hj => ?_
    have hne : j ≠ i := fun heq => hi (heq ▸ hj)
    rw [nackEntry, nackEntry, hbuf, if_neg fun h => hne h.1]
  refine ⟨hqueue, hbuf, hentries, hnodup, fun j hj => ?_, ?_⟩
  · have hne : i ≠ j := fun heq => hi (heq ▸ hj)
    have hold := h.new j (List.mem_cons_of_mem i hj)
    rw [hqueue]
    cases hentry : nackEntry p.1 status i with
    | none =>
      rw [Option.toList_none, List.append_nil]
      exact hold
    | some retx =>
      have hsn : retx.sn = i := by
        obtain ⟨buf, -, hmap⟩ := Option.bind_eq_some_iff.mp hentry
        obtain ⟨nack, -, rfl⟩ := Option.map_eq_some_iff.mp hmap
        exact nackRetx_sn i _ nack
      rw [Option.toList_some, hasSn_append, hold, hsn, Bool.false_or, beq_eq_false_iff_ne]
      exact hne
  · rw [hqueue, hentries, List.length_append]
    omega

theorem foldl_visitSn {status : StatusPdu} {sns : List Nat} {p : AmTx × Bool} (h : ToVisit status sns p) :
    (sns.foldl (visitSn status) p).1.retxQueue = p.1.retxQueue ++ nackEntries p.1 status sns ∧
      ∀ j, bufAt (sns.foldl (visitSn status) p).1 j =
        if j ∈ sns ∧ nacked status j = false then none else bufAt p.1 j := by
  induction sns generalizing p with
  | nil => exact ⟨(List.append_nil _).symm, fun j => (if_neg fun h => List.not_mem_nil h.1).symm⟩
  | cons i sns ih =>
    obtain ⟨hi, -⟩ := List.nodup_cons.mp h.nodup
    obtain ⟨hqueue, hbuf, hentries, hrest⟩ := h.visit
    obtain ⟨hqueue', hbuf'⟩ := ih hrest
    rw [List.foldl_cons]
    refine ⟨?_, fun j => ?_⟩
    · rw [hqueue', hqueue, hentries, List.append_assoc, nackEntries_cons]
    · rw [hbuf', hbuf]
      by_cases hj : j = i
      · subst hj
        by_cases hno : nacked status j = false
        · rw [if_neg fun h => hi h.1, if_pos ⟨rfl, hno⟩, if_pos ⟨List.mem_cons_self, hno⟩]
        · rw [if_neg fun h => hno h.2, if_neg fun h => hno h.2, if_neg fun h => hno h.2]
      · have hmem : j ∈ i :: sns ↔ j ∈ sns := by
          rw [List.mem_cons, or_iff_right hj]
        simp only [hmem, hj, false_and, if_false]

/-- Without NACKs the queue stays as it is. -/
theorem foldl_visitSn_acks {status : StatusPdu} (h : status.nacks = []) (sns : List Nat) (p : AmTx × Bool) :
    (sns.foldl (visitSn status) p).1.retxQueue = p.1.retxQueue := by
  induction sns generalizing p with
  | nil => rfl
  | cons i sns ih =>
    have hno : ¬nacked status i = true := by
      rw [nacked, h]
      exact Bool.false_ne_true
    rw [List.foldl_cons, ih, visitSn, if_neg hno]
    exact (handleAck_eq p.1 i p.2).1

/-! ### The queue after a status PDU -/

/-- The SNs that a status PDU is about -/
def coveredSns (s : AmTx) (status : StatusPdu) : List Nat :=
  snRun s.vtA (min (s.txModBase status.ackSn) (s.txModBase s.vtS))

theorem covered_le (s : AmTx) (status : StatusPdu) :
    min (s.txModBase status.ackSn) (s.txModBase s.vtS) ≤ amMod :=
  Nat.le_trans (Nat.min_le_right _ _) (Nat.le_of_lt (Nat.mod_lt _ (by decide)))

theorem handleControlPdu_eq {s : AmTx} (hA : s.vtA < amMod) (henabled : s.txEnabled = true)
    {status : StatusPdu} (haccept : s.acceptsAckSn status.ackSn = true) :
    s.handleControlPdu status =
      finishStatus ((coveredSns s status).foldl (visitSn status) (s.startStatus status, true)).1 := by
  have hlt : s.txModBase s.vtS < amMod := Nat.mod_lt _ (by decide)
  have hbase : s.txModBase s.vtA = 0 := by
    rw [txModBase, Nat.add_sub_cancel_left, Nat.mod_self]
  have hloop := ackLoop_eq status s.vtS (min (s.txModBase status.ackSn) (s.txModBase s.vtS)) amMod
    (s.startStatus status) s.vtA true (by omega) hA hA (fun _ => rfl) (by
      show s.txModBase s.vtA + _ = _
      rw [hbase, Nat.zero_add]
      rfl)
  rw [handleControlPdu, if_pos ⟨henabled, haccept⟩, hloop, coveredSns]

theorem toVisit_startStatus {s : AmTx} {status : StatusPdu} (hnacks : status.nacks ≠ [])
    (hfew : (nackEntries s status (coveredSns s status)).length < amWindowSize) :
    (s.startStatus status).retxQueue = [] ∧
      ToVisit status (coveredSns s status) (s.startStatus status, true) := by
  have hflushed : (s.startStatus status).retxQueue = [] := by
    rw [startStatus]
    exact if_neg (by rw [List.isEmpty_iff]; exact hnacks)
  refine ⟨hflushed, nodup_snRun (covered_le s status), fun i _ => ?_, ?_⟩
  · show (s.startStatus status).retxQueue.hasSn i = false
    rw [hflushed]
    rfl
  · show List.length (s.startStatus status).retxQueue + (nackEntries s status _).length ≤ _
    rw [hflushed, List.length_nil]
    omega

/-- A status PDU with NACKs leaves one entry for each NACKed SN whose PDU is in the window. -/
theorem retxQueue_handleControlPdu {s : AmTx} (hA : s.vtA < amMod) (henabled : s.txEnabled = true)
    {status : StatusPdu} (haccept : s.acceptsAckSn status.ackSn = true) (hnacks : status.nacks ≠ [])
    (hfew : (nackEntries s status (coveredSns s status)).length < amWindowSize) :
    (s.handleControlPdu status).retxQueue = nackEntries s status (coveredSns s status) ∧
      ∀ j, bufAt (s.handleControlPdu status) j =
        if j ∈ coveredSns s status ∧ nacked status j = false then none else bufAt s j := by
  obtain ⟨hflushed, hvisit⟩ := toVisit_startStatus hnacks hfew
  obtain ⟨hqueue, hbuf⟩ := foldl_visitSn hvisit
  rw [handleControlPdu_eq hA henabled haccept]
  refine ⟨?_, hbuf⟩
  show ((coveredSns s status).foldl (visitSn status) (s.startStatus status, true)).1.retxQueue = _
  rw [hqueue]
  show (s.startStatus status).retxQueue ++ nackEntries s status _ = _
  rw [hflushed, List.nil_append]

theorem retxQueue_handleControlPdu_acks {s : AmTx} (hA : s.vtA < amMod) (henabled : s.txEnabled = true)
    {status : StatusPdu} (haccept : s.acceptsAckSn status.ackSn = true) (hnacks : status.nacks = []) :
    (s.handleControlPdu status).retxQueue = s.retxQueue := by
  rw [handleControlPdu_eq hA henabled haccept]
  show ((coveredSns s status).foldl (visitSn status) (s.startStatus status, true)).1.retxQueue = _
  rw [foldl_visitSn_acks hnacks]
  show (if status.nacks.isEmpty then s.retxQueue else []) = s.retxQueue
  rw [hnacks]
  rfl

/-! ### The NACKed bytes -/

/-- The offsets of a NACK are those of a part of the PDU. -/
def NackFits (n : Nat) (nack : StatusNack) : Prop :=
  nack.hasSo = true → nack.soEnd = 0x7FFF ∨ nack.soStart ≤ nack.soEnd ∧ nack.soEnd < n

/-- The NACK is for this byte of a PDU of `n` bytes. -/
def NackedByte (n : Nat) (nack : StatusNack) (k : Nat) : Prop :=
  k < n ∧ (nack.hasSo = true → nack.soStart ≤ k ∧ (nack.soEnd = 0x7FFF ∨ k ≤ nack.soEnd))

/-- The entry is for a PDU in the window, and for a range of its bytes. -/
def EntryFits (s : AmTx) (retx : AmdRetx) : Prop :=
  ∃ pdu, s.txWindow.find? retx.sn = some pdu ∧ retx.soStart < retx.soEnd ∧ retx.soEnd ≤ pdu.buf.length

/-- The byte of a PDU is in an entry. -/
def Queued (s : AmTx) (i k : Nat) : Prop :=
  ∃ retx ∈ s.retxQueue, retx.sn = i ∧ retx.soStart ≤ k ∧ k < retx.soEnd

theorem nackRetx_range {n : Nat} (hpos : 0 < n) {nack : StatusNack} (hfits : NackFits n nack) (i : Nat) :
    (nackRetx i n nack).soStart < (nackRetx i n nack).soEnd ∧ (nackRetx i n nack).soEnd ≤ n := by
  unfold nackRetx
  dsimp only
  by_cases hso : nack.hasSo = true
  · have hrange := hfits hso
    rw [if_pos hso]
    split_ifs <;> dsimp only <;> omega
  · rw [if_neg hso]
    exact ⟨hpos, Nat.le_refl n⟩

theorem nackRetx_covers {n : Nat} {nack : StatusNack} {k : Nat} (h : NackedByte n nack k) (i : Nat) :
    (nackRetx i n nack).soStart ≤ k ∧ k < (nackRetx i n nack).soEnd := by
  obtain ⟨hk, hrange⟩ := h
  unfold nackRetx
  dsimp only
  by_cases hso : nack.hasSo = true
  · obtain ⟨hstart, hend⟩ := hrange hso
    rw [if_pos hso]
    split_ifs <;> dsimp only <;> omega
  · rw [if_neg hso]
    exact ⟨Nat.zero_le k, hk⟩

theorem exists_find?_of_bufAt {s : AmTx} {i : Nat} {buf : Bytes} (h : bufAt s i = some buf) :
    ∃ pdu, s.txWindow.find? i = some pdu ∧ pdu.buf = buf := Option.map_eq_some_iff.mp h

/-- A status PDU without NACKs leaves the queue as it is. One with NACKs leaves entries for PDUs in the window,
each for the first NACK of its SN, and these have all bytes of the first NACKs. -/
theorem nackedRanges_queued {s : AmTx} (hinv : WindowInv s) (henabled : s.txEnabled = true)
    (status : StatusPdu) (haccept : s.acceptsAckSn status.ackSn = true)
    (hfew : (nackEntries s status (coveredSns s status)).length < amWindowSize) :
    (status.nacks = [] → (s.handleControlPdu status).retxQueue = s.retxQueue) ∧
    (status.nacks ≠ [] → ∀ retx ∈ (s.handleControlPdu status).retxQueue, ∃ pdu nack,
      (s.handleControlPdu status).txWindow.find? retx.sn = some pdu ∧
      firstNack status retx.sn = some nack ∧
      (0 < pdu.buf.length → NackFits pdu.buf.length nack → EntryFits (s.handleControlPdu status) retx)) ∧
    ∀ i nack pdu, s.txModBase i < s.txModBase status.ackSn → firstNack status i = some nack →
      (s.handleControlPdu status).txWindow.find? i = some pdu →
      ∀ k, NackedByte pdu.buf.length nack k → Queued (s.handleControlPdu status) i k := by
  refine ⟨retxQueue_handleControlPdu_acks hinv.vtA henabled haccept, fun hnacks retx hretx => ?_, ?_⟩
  · obtain ⟨hqueue, hbuf⟩ := retxQueue_handleControlPdu hinv.vtA henabled haccept hnacks hfew
    rw [hqueue] at hretx
    obtain ⟨i, -, hentry⟩ := List.mem_filterMap.mp hretx
    obtain ⟨buf, hbufAt, hmap⟩ := Option.bind_eq_some_iff.mp hentry
    obtain ⟨nack, hfirst, rfl⟩ := Option.map_eq_some_iff.mp hmap
    -- a PDU that is NACKed stays in the window
    have hstays : bufAt (s.handleControlPdu status) i = some buf := by
      have hnacked : nacked status i = true := nacked_iff.mpr ⟨nack, hfirst⟩
      rw [hbuf, if_neg fun h => Bool.false_ne_true (h.2.symm.trans hnacked)]
      exact hbufAt
    obtain ⟨pdu, hpdu, rfl⟩ := exists_find?_of_bufAt hstays
    rw [nackRetx_sn]
    refine ⟨pdu, nack, hpdu, hfirst, fun hpos hfits => ⟨pdu, ?_, nackRetx_range hpos hfits i⟩⟩
    rw [nackRetx_sn]
    exact hpdu
  · intro i nack pdu hdist hfirst hpdu k hk
    have hnacked : nacked status i = true := nacked_iff.mpr ⟨nack, hfirst⟩
    have hnacks : status.nacks ≠ [] := by
      intro hnil
      rw [firstNack, hnil] at hfirst
      cases hfirst
    obtain ⟨hqueue, hbuf⟩ := retxQueue_handleControlPdu hinv.vtA henabled haccept hnacks hfew
    have hbufAt : bufAt s i = some pdu.buf := by
      have hafter : bufAt (s.handleControlPdu status) i = some pdu.buf := by
        rw [bufAt, hpdu]
        rfl
      rw [hbuf, if_neg fun h => Bool.false_ne_true (h.2.symm.trans hnacked)] at hafter
      exact hafter
    -- what is in the window is outstanding
    obtain ⟨old, hold, -⟩ := exists_find?_of_bufAt hbufAt
    obtain ⟨hi, hspan⟩ := hinv.inside i (CircularMap.contains_iff.mpr ⟨old, hold⟩)
    have hcovered : i ∈ coveredSns s status := by
      rw [coveredSns, mem_snRun_iff hinv.vtA (covered_le s status)]
      exact ⟨hi, Nat.lt_min.mpr ⟨hdist, hspan⟩⟩
    have hentry : nackEntry s status i = some (nackRetx i pdu.buf.length nack) := by
      rw [nackEntry, hbufAt, hfirst]
      rfl
    refine ⟨nackRetx i pdu.buf.length nack, ?_, nackRetx_sn i _ nack, nackRetx_covers hk i⟩
    rw [hqueue]
    exact List.mem_filterMap.mpr ⟨i, hcovered, hentry⟩

/-- One PDU of ten bytes is outstanding. -/
def tenBytes : AmTx :=
  (init ⟨-1, -1, 4, 0, 256⟩).execOps [.writeSdu ⟨0, List.replicate 10 7⟩, .readPdu 12 noStatus]

theorem windowInv_tenBytes : WindowInv tenBytes :=
  @windowInv_step _ (.readPdu 12 noStatus)
    (@windowInv_step _ (.writeSdu ⟨0, List.replicate 10 7⟩) (windowInv_init _) trivial) fun _ => by decide

/-- The last three bytes of the PDU are NACKed. -/
theorem nackedRanges_queued_tail :
    Queued (tenBytes.handleControlPdu ⟨1, [⟨0, true, 7, 0x7FFF⟩]⟩) 0 9 := by
  obtain ⟨-, -, hqueued⟩ := nackedRanges_queued windowInv_tenBytes (by decide)
    ⟨1, [⟨0, true, 7, 0x7FFF⟩]⟩ (by decide) (by decide)
  have hlength : ((tenBytes.handleControlPdu ⟨1, [⟨0, true, 7, 0x7FFF⟩]⟩).txWindow.find? 0).map
      (fun pdu => pdu.buf.length) = some 10 := by
    decide
  obtain ⟨pdu, hpdu, hten⟩ := Option.map_eq_some_iff.mp hlength
  refine hqueued 0 ⟨0, true, 7, 0x7FFF⟩ pdu (by decide) (by decide) hpdu 9 ?_
  rw [hten]
  exact ⟨by decide, fun _ => ⟨by decide, Or.inl rfl⟩⟩

/-- Of two NACKs for parts of one PDU, only the first is heard. -/
theorem second_nack_unheard : ¬∀ s status, WindowInv s → s.txEnabled = true →
    s.acceptsAckSn status.ackSn = true →
    (∀ retx ∈ (s.handleControlPdu status).retxQueue, EntryFits (s.handleControlPdu status) retx) ∧
      ∀ nack ∈ status.nacks, ∀ pdu, s.txModBase nack.nackSn < s.txModBase status.ackSn →
        (s.handleControlPdu status).txWindow.find? nack.nackSn = some pdu →
        ∀ k, NackedByte pdu.buf.length nack k → Queued (s.handleControlPdu status) nack.nackSn k := by
  intro h
  obtain ⟨-, hqueued⟩ := h tenBytes ⟨1, [⟨0, true, 0, 2⟩, ⟨0, true, 5, 7⟩]⟩ windowInv_tenBytes (by decide)
    (by decide)
  have hlength : ((tenBytes.handleControlPdu ⟨1, [⟨0, true, 0, 2⟩, ⟨0, true, 5, 7⟩]⟩).txWindow.find? 0).map
      (fun pdu => pdu.buf.length) = some 10 := by
    decide
  have hqueue : (tenBytes.handleControlPdu ⟨1, [⟨0, true, 0, 2⟩, ⟨0, true, 5, 7⟩]⟩).retxQueue =
      [⟨0, true, 0, 3⟩] := by
    decide
  obtain ⟨pdu, hpdu, hten⟩ := Option.map_eq_some_iff.mp hlength
  obtain ⟨retx, hretx, -, -, hend⟩ := hqueued ⟨0, true, 5, 7⟩ (by decide) pdu (by decide) hpdu 6
    (by rw [hten]; exact ⟨by decide, fun _ => ⟨by decide, Or.inr (by decide)⟩⟩)
  rw [hqueue, List.mem_singleton] at hretx
  rw [hretx] at hend
  exact absurd hend (by decide)

end Odss.Rlc.AmTx
