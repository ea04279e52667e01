import Odss.Lib.Run

/-!
# `Odss.Ue.DlHarq`: the downlink HARQ entity of the UE

The model of `dl_harq_entity` (`srsue/src/stack/mac/dl_harq.cc`) with the buffers of `demux`. A
buffer of the pool has the number of the request that obtained it. `held` is the mutex of a TB
process, with the grant of the call that locked it: `new_grant_dl` locks and `tb_decoded` unlocks,
so a call that would wait for the mutex is not a step.

* `blocks`: the transport blocks of a TB process, as its calls tell them. `Delivered` is judged by
  these alone.
* `grant_tracks`, `decoded_tracks`, `reset_tracks`: what a TB process knows of the last of its
  blocks.
* `ledger_put`: a buffer that was obtained is held, or has been let go of, and once.
* `delivers_once`: the blocks, the buffers and the mutexes after every run.
* `not_deliversOnce`: why a block has to end at a reset, and with an NDI that is provided.
-/

set_option linter.all false

namespace Odss.Ue.DlHarq

open Odss.Lib

abbrev maxHarqProc : Nat := 15
def siRnti : Nat := 0xFFFF
def resetDuplicateTimeout : Nat := 6
def maxPduLen : Nat := 150 * 1024 / 8
def maxBcchPduLen : Nat := 1024

/-- `mac_tb_t` -/
structure MacTb where
  tbs : Nat := 0
  ndi : Bool := false
  ndiPresent : Bool := false
  rv : Int := 0
  deriving DecidableEq

/-- `mac_grant_dl_t` -/
structure MacGrant where
  tb : Vector MacTb 2 := #v[{}, {}]
  pid : Nat := 0
  rnti : Nat := 0
  tti : Nat := 0
  deriving DecidableEq

/-- What a TB process has to hold its data in: `bcch_buffer`, or a buffer of the pool -/
inductive Buffer where
  | bcch
  | pdu (n : Nat)
  deriving DecidableEq

/-- `tb_action_t`, with the `generate_ack` that the TB process sets -/
structure TbAction where
  enabled : Bool := false
  rv : Int := 0
  payload : Option Buffer := none
  generateAck : Bool := false

/-- The calls that reach a TB process, and those it makes to `demux` -/
inductive Call where
  | newGrant (tb : MacTb) (action : TbAction)
  | tbDecoded (ack : Bool)
  | reset
  | deallocate (n : Nat)
  | pushPdu (buffer : Buffer) (len tti : Nat)
  | pushPduTempCrnti (buffer : Buffer) (len : Nat)
  | pushPduBcch (buffer : Buffer) (len : Nat)

/-- `dl_tb_process` -/
structure TbProcess where
  isFirstTb : Bool := true
  isNewTransmission : Bool := false
  ack : Bool := false
  nRetx : Nat := 0
  curGrant : MacGrant := {}
  payload : Option Buffer := none
  held : Option MacGrant := none

/-- The process and the TB; the first is `none` for `bcch_proc`. -/
abbrev Key := Option (Fin maxHarqProc) × Fin 2

def isBcch (k : Key) : Bool := k.1.isNone

/-- `request_buffer`: `free` is whether the pool has a buffer, which would be number `n`. -/
def requestBuffer (n len : Nat) (free : Bool) : Option Buffer :=
  if maxPduLen < len then none else if free then some (.pdu n) else none

/-- `request_buffer_bcch` -/
def requestBufferBcch (len : Nat) : Option Buffer :=
  if len < maxBcchPduLen then some .bcch else none

/-- `demux::deallocate`, of the payload of a TB process -/
def deallocate (k : Key) : Option Buffer → List Call
  | some (.pdu n) => if isBcch k then [] else [.deallocate n]
  | _ => []

/-- `reset_nolock` -/
def resetNolock (k : Key) (t : TbProcess) : TbProcess × List Call :=
  ({ t with curGrant := {}, isFirstTb := true, ack := false, nRetx := 0, payload := none },
    deallocate k t.payload)

/-- The redundancy version that a TB on the BCCH has when its grant leaves it open -/
def bcchRv (siWindowStart : Int) (pid : Nat) : Nat :=
  let k := if pid / 10 % 2 = 0 ∧ pid % 10 = 5 then pid / 20 % 4
    else ((pid - siWindowStart) % 2 ^ 32).toNat % 4
  (3 * k + 1) / 2 % 4

/-- `calc_is_new_transmission` -/
def calcIsNewTransmission (k : Key) (t : TbProcess) (tb : MacTb) : TbProcess :=
  if (tb.ndiPresent && tb.ndi != t.curGrant.tb[k.2].ndi) || (isBcch k && tb.rv == 0) || t.isFirstTb
  then { t with isFirstTb := false, isNewTransmission := true }
  else { t with isNewTransmission := false }

/-- What `new_grant_dl` does before it looks at `ack` -/
def startTb (k : Key) (t : TbProcess) (tb : MacTb) : TbProcess :=
  let t := calcIsNewTransmission k t tb
  let t := if t.isNewTransmission || t.curGrant.tb[k.2].tbs != tb.tbs
    then { t with ack := false, nRetx := 0 } else t
  { t with nRetx := (t.nRetx + 1) % 2 ^ 32 }

/-- `dl_tb_process::new_grant_dl`, with the mutex locked -/
def newGrantTb (k : Key) (siWindowStart : Int) (free : Bool) (n : Nat) (t : TbProcess)
    (grant : MacGrant) : TbProcess × TbAction × List Call :=
  let grant := if isBcch k && grant.tb[k.2].rv == -1
    then { grant with
      tb := grant.tb.set k.2 { grant.tb[k.2] with rv := bcchRv siWindowStart grant.pid } }
    else grant
  let t := startTb k t grant.tb[k.2]
  if t.ack = false then
    let calls := deallocate k t.payload
    let payload := if isBcch k then requestBufferBcch grant.tb[k.2].tbs
      else requestBuffer n grant.tb[k.2].tbs free
    let t := { t with curGrant := grant, payload }
    match payload with
    | none => (t, {}, calls)
    | some _ =>
      (t, { enabled := true, rv := grant.tb[k.2].rv, payload, generateAck := !isBcch k }, calls)
  else if resetDuplicateTimeout < t.nRetx then
    let (t, calls) := resetNolock k t
    (t, { generateAck := !isBcch k }, calls)
  else (t, { generateAck := !isBcch k }, [])

/-- What `tb_decoded` does with a payload that has been decoded -/
def pushPayload (k : Key) (tempRnti : Nat) (t : TbProcess) (buffer : Buffer) (tti : Nat) : Call :=
  let len := t.curGrant.tb[k.2].tbs
  if isBcch k then .pushPduBcch buffer len
  else if t.curGrant.rnti = tempRnti then .pushPduTempCrnti buffer len
  else .pushPdu buffer len tti

/-- `dl_tb_process::tb_decoded`, which unlocks the mutex -/
def tbDecodedTb (k : Key) (tempRnti : Nat) (t : TbProcess) (grant : MacGrant) (ack : Bool) :
    TbProcess × List Call :=
  let (t, calls) := match t.payload with
    | none => (t, [])
    | some buffer => ({ t with ack, payload := none },
        if ack then [pushPayload k tempRnti t buffer grant.tti] else deallocate k (some buffer))
  if t.ack && isBcch k then
    let (t, more) := resetNolock k t
    ({ t with held := none }, calls ++ more)
  else ({ t with held := none }, calls)

/-- What the entity reads of the UE at a call: the RNTIs, `si_window_start`, and whether the pool
has a buffer for each of the TBs -/
structure Env where
  spsRnti : Nat := 0
  tempRnti : Nat := 0
  siWindowStart : Int := 0
  free : Vector Bool 2 := #v[true, true]

/-- `dl_harq_entity`, with the number of buffers obtained so far and the calls so far -/
structure Entity where
  sub : Key → TbProcess := fun _ => {}
  lastTemporalCrnti : Nat := 0
  nofBuffers : Nat := 0
  trace : List (Key × Call) := []

/-- A call on one TB process -/
inductive TbEvent where
  | newGrant (env : Env) (grant : MacGrant)
  | tbDecoded (env : Env) (grant : MacGrant) (ack : Bool)
  | reset

def put (w : Entity) (k : Key) (t : TbProcess) (calls : List Call) : Entity :=
  { w with
    sub := Function.update w.sub k t
    nofBuffers := if t.payload = some (.pdu w.nofBuffers) then w.nofBuffers + 1 else w.nofBuffers
    trace := w.trace ++ calls.map (k, ·) }

/-- A call on one TB process. The grant of `tb_decoded` is the one that its caller has passed to
`new_grant_dl`. -/
def tbStep (w : Entity) (e : Key × TbEvent) : Option (Entity × Unit) :=
  let (k, e) := e
  let t := w.sub k
  match e with
  | .newGrant env grant =>
    if t.held = none then
      let (t, action, calls) := newGrantTb k env.siWindowStart env.free[k.2] w.nofBuffers t grant
      some (put w k { t with held := some grant } (calls ++ [.newGrant grant.tb[k.2] action]), ())
    else none
  | .tbDecoded env grant ack =>
    if t.held = some grant then
      let (t, calls) := tbDecodedTb k env.tempRnti t grant ack
      some (put w k t (.tbDecoded ack :: calls), ())
    else none
  | .reset =>
    if t.held = none then
      let (t, calls) := resetNolock k t
      some (put w k t (calls ++ [.reset]), ())
    else none

/-- The process of a grant, unless the PID is invalid -/
def procOf (grant : MacGrant) : Option (Option (Fin maxHarqProc)) :=
  if grant.rnti = siRnti then some none
  else if h : grant.pid < maxHarqProc then some (some ⟨grant.pid, h⟩) else none

/-- A call on the TBs of a grant -/
def forTbs (w : Entity) (grant : MacGrant) (p : Option (Fin maxHarqProc))
    (e : Fin 2 → TbEvent) : Option (Entity × Unit) :=
  (run tbStep w (((List.finRange 2).filter (grant.tb[·].tbs ≠ 0)).map
    fun tid => ((p, tid), e tid))).map fun r => (r.1, ())

/-- `reset_ndi` of a process -/
def resetNdi (w : Entity) (p : Option (Fin maxHarqProc)) : Entity :=
  { w with sub := fun k => if k.1 = p then { w.sub k with isFirstTb := true } else w.sub k }

/-- `dl_harq_entity::new_grant_dl` -/
def newGrantDl (w : Entity) (env : Env) (grant : MacGrant) : Option (Entity × Unit) :=
  if grant.rnti = env.spsRnti then some (w, ())
  else match procOf grant with
    | none => some (w, ())
    | some p =>
      let w := if grant.rnti = env.tempRnti ∧ w.lastTemporalCrnti ≠ env.tempRnti
        then resetNdi { w with lastTemporalCrnti := env.tempRnti } p else w
      forTbs w grant p fun _ => .newGrant env grant

/-- `dl_harq_entity::tb_decoded` -/
def tbDecoded (w : Entity) (env : Env) (grant : MacGrant) (ack : Vector Bool 2) :
    Option (Entity × Unit) :=
  match procOf grant with
  | none => some (w, ())
  | some p => forTbs w grant p fun tid => .tbDecoded env grant ack[tid]

/-- `dl_harq_entity::reset` -/
def reset (w : Entity) : Option (Entity × Unit) :=
  (run tbStep w (((List.finRange maxHarqProc).map some ++ [none]).flatMap fun p =>
    (List.finRange 2).map fun tid => ((p, tid), .reset))).map fun r => (r.1, ())

inductive Event where
  | newGrantDl (env : Env) (grant : MacGrant)
  | tbDecoded (env : Env) (grant : MacGrant) (ack : Vector Bool 2)
  | reset

def step (w : Entity) : Event → Option (Entity × Unit)
  | .newGrantDl env grant => newGrantDl w env grant
  | .tbDecoded env grant ack => tbDecoded w env grant ack
  | .reset => reset w

/-- The grant is for the C-RNTI: for none of the RNTIs that are treated apart. -/
def IsCrnti (env : Env) (grant : MacGrant) : Prop :=
  grant.rnti ≠ siRnti ∧ grant.rnti ≠ env.spsRnti ∧ grant.rnti ≠ env.tempRnti

def OnCrnti : Event → Prop
  | .newGrantDl env grant | .tbDecoded env grant _ => IsCrnti env grant
  | .reset => True

/-! ## The transport blocks -/

/-- A transport block: the grants it got, whether the last of them is being decoded, whether a
decoding succeeded, and the lengths that were passed to `push_pdu`. It is `announced` when its
first grant provides the NDI, or does not need to. -/
structure Block where
  ndi : Bool
  tbs : Nat
  announced : Bool
  grants : Nat := 1
  attempt : Bool := false
  decoded : Bool := false
  pushed : List Nat := []
  closed : Bool := false

/-- One more call, with the last block first. With `cut` a reset ends the block. -/
def record (cut : Bool) (bs : List Block) : Call → List Block
  | .newGrant tb action =>
    match bs with
    | [] => [{ ndi := tb.ndi, tbs := tb.tbs, announced := true, attempt := action.enabled }]
    | b :: bs =>
      if b.closed = false ∧ b.ndi = tb.ndi ∧ b.tbs = tb.tbs then
        { b with grants := b.grants + 1, attempt := action.enabled } :: bs
      else { ndi := tb.ndi, tbs := tb.tbs, attempt := action.enabled,
             announced := b.closed || tb.ndiPresent || b.tbs != tb.tbs } :: b :: bs
  | .tbDecoded ack => bs.modifyHead fun b => { b with decoded := b.decoded || b.attempt && ack }
  | .reset => bs.modifyHead fun b => { b with closed := b.closed || cut }
  | .pushPdu _ len _ => bs.modifyHead fun b => { b with pushed := b.pushed ++ [len] }
  | _ => bs

def blocks (cut : Bool) (calls : List Call) : List Block := calls.foldl (record cut) []

/-- Each block was pushed once if one of its decodings succeeded, with the TBS it was granted, and
not at all otherwise. -/
def Delivered (bs : List Block) : Prop :=
  ∀ b ∈ bs, b.pushed = if b.decoded then [b.tbs] else []

/-- The calls of one TB process -/
def callsOf (k : Key) (trace : List (Key × Call)) : List Call :=
  (trace.filter (·.1 = k)).map Prod.snd

/-- The last grant has not been followed by `tb_decoded`. -/
def pending (calls : List Call) : Bool :=
  calls.foldl (fun p c => match c with
    | .newGrant _ _ => true
    | .tbDecoded _ => false
    | _ => p) false

/-- The call lets go of buffer `n`. -/
def letsGo (n : Nat) : Call → Bool
  | .deallocate m => m == n
  | .pushPdu b _ _ | .pushPduTempCrnti b _ => b == .pdu n
  | _ => false

def holds (w : Entity) (n : Nat) (k : Key) : Prop := (w.sub k).payload = some (.pdu n)

/-- Every buffer obtained has been let go of, and once, or is held by one TB process. -/
def Accounted (w : Entity) : Prop :=
  ∀ n < w.nofBuffers,
    (w.trace.countP (letsGo n ·.2) = 1 ∧ ∀ k, ¬ holds w n k) ∨
      (w.trace.countP (letsGo n ·.2) = 0 ∧ ∃! k, holds w n k)

/-! ## One TB process -/

variable {k : Key} {t : TbProcess} {grant : MacGrant} {n : Nat} {si : Int} {free : Bool}

/-- The TB is taken as a new one: its NDI is provided and has changed, it is the first one, or it
has another size. -/
def IsNew (k : Key) (t : TbProcess) (tb : MacTb) : Prop :=
  (tb.ndiPresent = true ∧ tb.ndi ≠ t.curGrant.tb[k.2].ndi) ∨ t.isFirstTb = true ∨
    t.curGrant.tb[k.2].tbs ≠ tb.tbs

theorem startTb_new (hk : isBcch k = false) {tb : MacTb} (hnew : IsNew k t tb) :
    (startTb k t tb).isFirstTb = false ∧ (startTb k t tb).ack = false ∧
      (startTb k t tb).nRetx = 1 := by
  rw [startTb, calcIsNewTransmission, hk]
  split
  · exact ⟨rfl, rfl, rfl⟩
  · rename_i hcalc
    simp only [Bool.false_and, Bool.or_false, Bool.or_eq_true, Bool.and_eq_true, bne_iff_ne,
      not_or] at hcalc
    have htbs := (hnew.resolve_left hcalc.1).resolve_left hcalc.2
    have hsize : (false || t.curGrant.tb[k.2].tbs != tb.tbs) = true := bne_iff_ne.mpr htbs
    simp only [hsize, if_true]
    refine ⟨Bool.eq_false_of_not_eq_true hcalc.2, ?_, ?_⟩ <;> decide

theorem startTb_again (hk : isBcch k = false) {tb : MacTb} (hnew : ¬ IsNew k t tb) :
    startTb k t tb = { t with isNewTransmission := false, nRetx := (t.nRetx + 1) % 2 ^ 32 } := by
  simp only [IsNew, not_or, not_and, Decidable.not_not] at hnew
  obtain ⟨hndi, hfirst, htbs⟩ := hnew
  have hcalc : ((tb.ndiPresent && tb.ndi != t.curGrant.tb[k.2].ndi) || (false && tb.rv == 0) ||
      t.isFirstTb) = false := by
    rw [Bool.eq_false_of_not_eq_true hfirst]
    cases hp : tb.ndiPresent with
    | false => rfl
    | true => simp only [hndi hp, bne_self_eq_false, Bool.false_and, Bool.and_false, Bool.or_false]
  have hsize : (false || t.curGrant.tb[k.2].tbs != tb.tbs) = false := by
    rw [htbs, bne_self_eq_false, Bool.or_false]
  rw [startTb, calcIsNewTransmission, hk]
  simp only [hcalc, hsize, Bool.false_eq_true, if_false]

theorem startTb_frame (tb : MacTb) :
    (startTb k t tb).payload = t.payload ∧ (startTb k t tb).curGrant = t.curGrant := by
  rw [startTb, calcIsNewTransmission]
  split
  · exact ⟨rfl, rfl⟩
  · simp only
    split <;> exact ⟨rfl, rfl⟩

/-- A TB process without a payload decodes the TB when it has not been decoded yet and there is a
buffer; otherwise it is a duplicate, and too many of these reset the process. -/
theorem newGrantTb_cases (hk : isBcch k = false) (hpayload : t.payload = none) :
    ∃ t' action, newGrantTb k si free n t grant = (t', action, []) ∧
      action.enabled = t'.payload.isSome ∧
      (t'.payload = none ∨ t'.payload = some (.pdu n)) ∧
      (((startTb k t grant.tb[k.2]).ack = false ∧
          t' = { startTb k t grant.tb[k.2] with curGrant := grant, payload := t'.payload }) ∨
        ((startTb k t grant.tb[k.2]).ack = true ∧ t'.payload = none ∧
          ((startTb k t grant.tb[k.2]).nRetx ≤ resetDuplicateTimeout →
            t' = startTb k t grant.tb[k.2]))) := by
  have hstart : (startTb k t grant.tb[k.2]).payload = none := (startTb_frame _).1.trans hpayload
  rw [newGrantTb, hk]
  simp only [Bool.false_and, Bool.false_eq_true, if_false, Bool.not_false]
  generalize hs : startTb k t grant.tb[k.2] = s at hstart ⊢
  by_cases hack : s.ack = false
  · rw [if_pos hack, hstart]
    cases hbuf : requestBuffer n grant.tb[k.2].tbs free with
    | none => exact ⟨_, _, rfl, rfl, .inl rfl, .inl ⟨hack, rfl⟩⟩
    | some b =>
      have hb : some b = some (.pdu n) := by
        rw [← hbuf, requestBuffer]
        rw [requestBuffer] at hbuf
        split at hbuf
        · cases hbuf
        · rename_i hlen
          rw [if_neg hlen]
          split at hbuf
          · rename_i hfree
            exact if_pos hfree
          · cases hbuf
      exact ⟨_, _, rfl, rfl, .inr hb, .inl ⟨hack, rfl⟩⟩
  · have hack' : s.ack = true := Bool.eq_true_of_not_eq_false hack
    rw [if_neg hack]
    by_cases hmany : resetDuplicateTimeout < s.nRetx
    · rw [if_pos hmany, resetNolock, hstart]
      exact ⟨_, _, rfl, rfl, .inl rfl, .inr ⟨hack', rfl, fun h => absurd h (Nat.not_le.mpr hmany)⟩⟩
    · rw [if_neg hmany]
      exact ⟨s, _, rfl, by rw [hstart]; rfl, .inl hstart, .inr ⟨hack', hstart, fun _ => rfl⟩⟩

/-- The TB process is at a block that has not ended. -/
structure At (k : Key) (t : TbProcess) (b : Block) : Prop where
  first : t.isFirstTb = false
  ndi : t.curGrant.tb[k.2].ndi = b.ndi
  tbs : t.curGrant.tb[k.2].tbs = b.tbs
  retx : t.nRetx = b.grants
  ack : t.ack = b.decoded
  attempt : t.held.isSome = true → b.attempt = t.payload.isSome
  payload : t.payload.isSome = true → t.ack = false

/-- What the TB process knows of the last of its blocks -/
def Knows (k : Key) (t : TbProcess) : List Block → Prop
  | [] => t.isFirstTb = true ∧ t.held = none
  | b :: _ => if b.closed = true then t.isFirstTb = true ∧ t.held = none else At k t b

theorem knows_open {b : Block} {bs : List Block} (h : b.closed = false) :
    Knows k t (b :: bs) ↔ At k t b := by
  rw [Knows, if_neg (by rw [h]; exact Bool.false_ne_true)]

/-- No block has more grants than the process tells duplicates for, and each is announced. -/
def Regular (bs : List Block) : Prop :=
  ∀ b ∈ bs, b.grants ≤ resetDuplicateTimeout ∧ b.announced = true

/-- A TB process and the calls it has seen -/
structure Tracks (k : Key) (t : TbProcess) (calls : List Call) : Prop where
  payload : ∀ b, t.payload = some b →
    isBcch k = false ∧ t.held = some t.curGrant ∧ ∃ n, b = .pdu n
  pending : pending calls = t.held.isSome
  blocks : isBcch k = false → Regular (blocks true calls) →
    Delivered (blocks true calls) ∧ Knows k t (blocks true calls)

theorem blocks_append (cut : Bool) (calls more : List Call) :
    blocks cut (calls ++ more) = more.foldl (record cut) (blocks cut calls) :=
  List.foldl_append

theorem pending_append (calls more : List Call) :
    pending (calls ++ more) = more.foldl (fun p c => match c with
      | .newGrant _ _ => true
      | .tbDecoded _ => false
      | _ => p) (pending calls) :=
  List.foldl_append

/-- The payload of a process that is not held -/
theorem Tracks.payload_none {calls : List Call} (h : Tracks k t calls) (hheld : t.held = none) :
    t.payload = none := by
  cases hp : t.payload with
  | none => rfl
  | some b => exact absurd ((h.payload b hp).2.1.symm.trans hheld) nofun

theorem regular_of_newGrant {bs : List Block} {tb : MacTb} {action : TbAction}
    (h : Regular (record true bs (.newGrant tb action))) : Regular bs := by
  cases bs with
  | nil => exact nofun
  | cons b bs =>
    rw [record] at h
    split at h
    · intro b' hb'
      rcases List.mem_cons.mp hb' with rfl | hb'
      · have hhead := h _ List.mem_cons_self
        exact ⟨Nat.le_of_succ_le hhead.1, hhead.2⟩
      · exact h b' (List.mem_cons_of_mem _ hb')
    · exact fun b' hb' => h b' (List.mem_cons_of_mem _ hb')

/-- A change of the last block that keeps its grants keeps it regular. -/
theorem regular_modifyHead {bs : List Block} {f : Block → Block}
    (hf : ∀ b, (f b).grants = b.grants ∧ (f b).announced = b.announced) :
    Regular (bs.modifyHead f) ↔ Regular bs := by
  cases bs with
  | nil => exact Iff.rfl
  | cons b bs => simp [Regular, hf]

/-- Only a grant makes a block longer. -/
theorem regular_foldl {calls : List Call}
    (hcalls : ∀ c ∈ calls, ∀ tb action, c ≠ .newGrant tb action) : ∀ bs,
      Regular (calls.foldl (record true) bs) ↔ Regular bs := by
  induction calls with
  | nil => exact fun _ => Iff.rfl
  | cons c calls ih =>
    intro bs
    obtain ⟨hc, hcalls⟩ := List.forall_mem_cons.mp hcalls
    refine (ih hcalls _).trans ?_
    cases c with
    | newGrant tb action => exact absurd rfl (hc tb action)
    | tbDecoded _ | reset | pushPdu _ _ _ => exact regular_modifyHead fun _ => ⟨rfl, rfl⟩
    | _ => exact Iff.rfl

theorem delivered_newGrant {bs : List Block} {tb : MacTb} {action : TbAction} :
    Delivered bs → Delivered (record true bs (.newGrant tb action)) := by
  intro h
  cases bs with
  | nil => simp [record, Delivered]
  | cons b bs =>
    obtain ⟨hb, hbs⟩ := List.forall_mem_cons.mp h
    rw [record]
    split
    · exact List.forall_mem_cons.mpr ⟨hb, hbs⟩
    · exact List.forall_mem_cons.mpr ⟨rfl, h⟩

theorem delivered_modifyHead {bs : List Block} {f : Block → Block} (h : Delivered bs)
    (hf : ∀ b rest, bs = b :: rest → (f b).pushed = if (f b).decoded then [(f b).tbs] else []) :
    Delivered (bs.modifyHead f) := by
  cases bs with
  | nil => exact h
  | cons b bs =>
    exact List.forall_mem_cons.mpr ⟨hf b bs rfl, (List.forall_mem_cons.mp h).2⟩

/-- A TB that is taken as a new one opens a block of which the process knows everything. -/
theorem knows_new {t' : TbProcess} {action : TbAction} {announced : Bool} {bs : List Block}
    (hk : isBcch k = false) (hnew : IsNew k t grant.tb[k.2])
    (henabled : action.enabled = t'.payload.isSome)
    (hcase : (startTb k t grant.tb[k.2]).ack = false →
      t' = { startTb k t grant.tb[k.2] with curGrant := grant, payload := t'.payload }) :
    Knows k { t' with held := some grant }
      ({ ndi := grant.tb[k.2].ndi, tbs := grant.tb[k.2].tbs, announced,
         attempt := action.enabled } :: bs) := by
  obtain ⟨hfirst, hack, hretx⟩ := startTb_new hk hnew
  rw [hcase hack, knows_open rfl]
  exact ⟨hfirst, rfl, rfl, hretx, hack, fun _ => henabled, fun _ => hack⟩

/-- The process knows of a new grant what its block tells. -/
theorem knows_newGrant {t' : TbProcess} {action : TbAction} {bs : List Block}
    (hk : isBcch k = false) (hknows : Knows k t bs)
    (hreg : Regular (record true bs (.newGrant grant.tb[k.2] action)))
    (henabled : action.enabled = t'.payload.isSome)
    (hcase : ((startTb k t grant.tb[k.2]).ack = false ∧
        t' = { startTb k t grant.tb[k.2] with curGrant := grant, payload := t'.payload }) ∨
      ((startTb k t grant.tb[k.2]).ack = true ∧ t'.payload = none ∧
        ((startTb k t grant.tb[k.2]).nRetx ≤ resetDuplicateTimeout →
          t' = startTb k t grant.tb[k.2]))) :
    Knows k { t' with held := some grant }
      (record true bs (.newGrant grant.tb[k.2] action)) := by
  have hfresh : (startTb k t grant.tb[k.2]).ack = false →
      t' = { startTb k t grant.tb[k.2] with curGrant := grant, payload := t'.payload } := by
    intro hack
    rcases hcase with ⟨-, h⟩ | ⟨h, -⟩
    · exact h
    · exact absurd (hack.symm.trans h) nofun
  cases bs with
  | nil => exact knows_new hk (.inr (.inl hknows.1)) henabled hfresh
  | cons b bs =>
    by_cases hclosed : b.closed = true
    · rw [Knows, if_pos hclosed] at hknows
      have hend : ¬ (b.closed = false ∧ b.ndi = grant.tb[k.2].ndi ∧ b.tbs = grant.tb[k.2].tbs) :=
        fun h => absurd (hclosed.symm.trans h.1) nofun
      rw [record, if_neg hend]
      exact knows_new hk (.inr (.inl hknows.1)) henabled hfresh
    · have hclosed := Bool.eq_false_of_not_eq_true hclosed
      obtain ⟨hfirst, hndi, htbs, hretx, hack, -, -⟩ := (knows_open hclosed).mp hknows
      by_cases hsame : b.ndi = grant.tb[k.2].ndi ∧ b.tbs = grant.tb[k.2].tbs
      · -- one more grant of the block
        rw [record, if_pos ⟨hclosed, hsame⟩] at hreg ⊢
        have hagain : ¬ IsNew k t grant.tb[k.2] := by
          rintro (⟨-, h⟩ | h | h)
          · exact h (hsame.1.symm.trans hndi.symm)
          · exact absurd (hfirst.symm.trans h) nofun
          · exact h (htbs.trans hsame.2)
        have hmany : b.grants + 1 ≤ resetDuplicateTimeout := (hreg _ List.mem_cons_self).1
        have hnext : (t.nRetx + 1) % 2 ^ 32 = b.grants + 1 := by
          rw [hretx]
          exact Nat.mod_eq_of_lt (Nat.lt_of_le_of_lt hmany (by decide))
        rw [startTb_again hk hagain] at hcase
        refine (knows_open (by exact hclosed)).mpr ?_
        rcases hcase with ⟨hack', heq⟩ | ⟨hack', hnone, heq⟩
        · rw [heq]
          exact ⟨hfirst, hsame.1.symm, hsame.2.symm, hnext, hack, fun _ => henabled,
            fun _ => hack'⟩
        · rw [hnone] at henabled
          rw [heq (hnext.trans_le hmany)]
          exact ⟨hfirst, hndi, htbs, hnext, hack, fun _ => henabled.trans (by
            rw [← hnone, heq (hnext.trans_le hmany)]), fun h => absurd h (by
            rw [← congrArg TbProcess.payload (heq (hnext.trans_le hmany)), hnone]
            exact nofun)⟩
      · rw [record, if_neg (fun h => hsame h.2)] at hreg ⊢
        have hannounced := (hreg _ List.mem_cons_self).2
        rw [hclosed, Bool.false_or, Bool.or_eq_true, bne_iff_ne] at hannounced
        refine knows_new hk ?_ henabled hfresh
        by_cases hsize : b.tbs = grant.tb[k.2].tbs
        · refine .inl ⟨hannounced.resolve_right fun h => h hsize, ?_⟩
          rw [hndi]
          exact fun h => hsame ⟨h.symm, hsize⟩
        · exact .inr (.inr (by rw [htbs]; exact hsize))

theorem grant_tracks {calls : List Call} (h : Tracks k t calls) (hk : isBcch k = false)
    (hheld : t.held = none) {t' : TbProcess} {action : TbAction} {more : List Call}
    (heq : newGrantTb k si free n t grant = (t', action, more)) :
    Tracks k { t' with held := some grant }
        (calls ++ (more ++ [.newGrant grant.tb[k.2] action])) ∧ more = [] ∧
      (t'.payload = none ∨ t'.payload = some (.pdu n)) := by
  obtain ⟨t₁, action₁, hres, henabled, hpayload, hcase⟩ :=
    @newGrantTb_cases k t grant n si free hk (h.payload_none hheld)
  rw [hres, Prod.mk.injEq, Prod.mk.injEq] at heq
  obtain ⟨rfl, rfl, rfl⟩ := heq
  refine ⟨⟨?_, ?_, ?_⟩, rfl, hpayload⟩
  · intro b hb
    refine ⟨hk, ?_, ?_⟩
    · rcases hcase with ⟨-, h'⟩ | ⟨-, hnone, -⟩
      · rw [h']
      · exact absurd (hb.symm.trans hnone) nofun
    · rcases hpayload with hnone | hsome
      · exact absurd (hb.symm.trans hnone) nofun
      · exact ⟨n, Option.some.inj (hb.symm.trans hsome)⟩
  · rw [pending_append]
    rfl
  · intro _ hreg
    rw [List.nil_append, blocks_append] at hreg ⊢
    obtain ⟨hdelivered, hknows⟩ := h.blocks hk (regular_of_newGrant hreg)
    exact ⟨delivered_newGrant hdelivered,
      knows_newGrant hk hknows hreg henabled hcase⟩

/-- `tb_decoded` on a TB of the C-RNTI lets go of the payload. -/
theorem tbDecodedTb_eq {tempRnti : Nat} {ack : Bool} (hk : isBcch k = false)
    (hrnti : ∀ b, t.payload = some b → t.curGrant.rnti ≠ tempRnti) :
    tbDecodedTb k tempRnti t grant ack = match t.payload with
      | none => ({ t with held := none }, [])
      | some b => ({ t with ack, payload := none, held := none },
          if ack then [.pushPdu b t.curGrant.tb[k.2].tbs grant.tti]
          else deallocate k (some b)) := by
  rw [tbDecodedTb, hk]
  cases hp : t.payload with
  | none => simp only [Bool.and_false, Bool.false_eq_true, if_false, hp]
  | some b =>
    simp only [Bool.and_false, Bool.false_eq_true, if_false, pushPayload, hk, if_neg (hrnti b hp)]

theorem decoded_tracks {calls : List Call} (h : Tracks k t calls) (hk : isBcch k = false)
    (hheld : t.held = some grant) {tempRnti : Nat} (hrnti : grant.rnti ≠ tempRnti) {ack : Bool}
    {t' : TbProcess} {more : List Call}
    (heq : tbDecodedTb k tempRnti t grant ack = (t', more)) :
    Tracks k t' (calls ++ .tbDecoded ack :: more) ∧ t'.payload = none ∧
      ∀ m, more.countP (letsGo m) = if t.payload = some (.pdu m) then 1 else 0 := by
  have hcur : ∀ b, t.payload = some b → t.curGrant = grant := fun b hb =>
    Option.some.inj ((h.payload b hb).2.1.symm.trans hheld)
  rw [tbDecodedTb_eq hk fun b hb => by rw [hcur b hb]; exact hrnti] at heq
  -- the last block is open, since the process is held
  have hopen : Regular (blocks true calls) → ∃ b rest, blocks true calls = b :: rest ∧
      b.closed = false ∧ Delivered (b :: rest) ∧ At k t b := by
    intro hreg
    obtain ⟨hdelivered, hknows⟩ := h.blocks hk hreg
    cases hbs : blocks true calls with
    | nil =>
      rw [hbs] at hknows
      exact absurd (hheld.symm.trans hknows.2) nofun
    | cons b rest =>
      rw [hbs] at hdelivered hknows
      by_cases hclosed : b.closed = true
      · rw [Knows, if_pos hclosed] at hknows
        exact absurd (hheld.symm.trans hknows.2) nofun
      · have hclosed := Bool.eq_false_of_not_eq_true hclosed
        exact ⟨b, rest, rfl, hclosed, hdelivered, (knows_open hclosed).mp hknows⟩
  cases hp : t.payload with
  | none =>
    rw [hp, Prod.mk.injEq] at heq
    obtain ⟨rfl, rfl⟩ := heq
    refine ⟨⟨nofun, ?_, ?_⟩, rfl, fun m => ?_⟩
    · rw [pending_append]
      rfl
    · intro _ hreg
      rw [blocks_append] at hreg ⊢
      obtain ⟨b, rest, hbs, hclosed, hdelivered, hfirst, hndi, htbs, hretx, hack, hattempt, -⟩ :=
        hopen ((regular_foldl (by simp) _).mp hreg)
      have hsame : (b.decoded || b.attempt && ack) = b.decoded := by
        rw [hattempt (by rw [hheld]; rfl), hp]
        exact Bool.or_false _
      have hblock : [Call.tbDecoded ack].foldl (record true) (blocks true calls) = b :: rest := by
        rw [hbs]
        show { b with decoded := b.decoded || b.attempt && ack } :: rest = _
        rw [hsame]
      rw [hblock]
      exact ⟨hdelivered, (knows_open hclosed).mpr
        ⟨hfirst, hndi, htbs, hretx, hack, nofun, nofun⟩⟩
    · rfl
  | some buffer =>
    obtain ⟨-, -, m₀, rfl⟩ := h.payload buffer hp
    rw [hp, Prod.mk.injEq] at heq
    obtain ⟨rfl, rfl⟩ := heq
    refine ⟨⟨nofun, ?_, ?_⟩, rfl, fun m => ?_⟩
    · rw [pending_append]
      cases ack with
      | false =>
        rw [if_neg Bool.false_ne_true, deallocate, hk]
        rfl
      | true => rfl
    · intro _ hreg
      have hbefore : Regular (blocks true calls) := by
        rw [blocks_append] at hreg
        refine (regular_foldl ?_ _).mp hreg
        rw [deallocate, hk]
        cases ack <;> simp
      obtain ⟨b, rest, hbs, hclosed, hdelivered, hfirst, hndi, htbs, hretx, hack, hattempt,
        hnot⟩ := hopen hbefore
      rw [hp] at hattempt hnot
      have hdecoded : b.decoded = false := hack.symm.trans (hnot rfl)
      have hpushed : b.pushed = [] := by
        rw [(List.forall_mem_cons.mp hdelivered).1, hdecoded]
        rfl
      have hblock : blocks true (calls ++ .tbDecoded ack ::
          if ack then [.pushPdu (.pdu m₀) t.curGrant.tb[k.2].tbs grant.tti]
            else deallocate k (some (.pdu m₀))) =
          { b with decoded := ack, pushed := if ack then [b.tbs] else [] } :: rest := by
        rw [blocks_append, hbs]
        have hattempt : b.attempt = true := hattempt (by rw [hheld]; rfl)
        cases ack with
        | false =>
          rw [if_neg Bool.false_ne_true, deallocate, hk]
          show { b with decoded := b.decoded || b.attempt && false } :: rest = _
          rw [hdecoded, Bool.and_false, if_neg Bool.false_ne_true, ← hpushed]
          rfl
        | true =>
          show { b with decoded := b.decoded || b.attempt && true,
                        pushed := b.pushed ++ [t.curGrant.tb[k.2].tbs] } :: rest = _
          rw [hdecoded, hattempt, hpushed, htbs]
          rfl
      rw [hblock]
      exact ⟨List.forall_mem_cons.mpr ⟨rfl, (List.forall_mem_cons.mp hdelivered).2⟩,
        (knows_open (by exact hclosed)).mpr ⟨hfirst, hndi, htbs, hretx, rfl, nofun, nofun⟩⟩
    · cases ack with
      | false =>
        rw [if_neg Bool.false_ne_true, deallocate, hk]
        simp [letsGo, List.countP_cons]
      | true => simp [letsGo, List.countP_cons]

theorem reset_tracks {calls : List Call} (h : Tracks k t calls) (hheld : t.held = none) :
    Tracks k (resetNolock k t).1 (calls ++ ((resetNolock k t).2 ++ [.reset])) ∧
      (resetNolock k t).2 = [] := by
  have hcalls : (resetNolock k t).2 = [] := by
    rw [resetNolock, h.payload_none hheld]
    rfl
  refine ⟨⟨nofun, ?_, ?_⟩, hcalls⟩
  · rw [hcalls, pending_append]
    show DlHarq.pending calls = t.held.isSome
    exact h.pending
  · intro hk hreg
    rw [hcalls, List.nil_append, blocks_append] at hreg ⊢
    obtain ⟨hdelivered, -⟩ := h.blocks hk ((regular_foldl (by simp) _).mp hreg)
    refine ⟨delivered_modifyHead hdelivered fun b rest hbs =>
      hdelivered b (hbs ▸ List.mem_cons_self), ?_⟩
    show Knows k _ ((blocks true calls).modifyHead _)
    cases blocks true calls with
    | nil => exact ⟨rfl, hheld⟩
    | cons b rest =>
      rw [List.modifyHead_cons, Knows, if_pos (Bool.or_true _)]
      exact ⟨rfl, hheld⟩

/-! ## The entity -/

variable {w w' : Entity} {env : Env}

theorem callsOf_append (k k' : Key) (trace : List (Key × Call)) (calls : List Call) :
    callsOf k' (trace ++ calls.map (k, ·)) =
      if k' = k then callsOf k' trace ++ calls else callsOf k' trace := by
  rw [callsOf, List.filter_append, List.map_append, List.filter_map, List.map_map]
  by_cases hk : k' = k
  · subst hk
    have hall : calls.filter ((fun c : Key × Call => decide (c.1 = k')) ∘ (k', ·)) = calls :=
      List.filter_eq_self.mpr fun _ _ => decide_eq_true rfl
    rw [if_pos rfl, hall]
    exact congrArg _ (List.map_id calls)
  · have hnone : calls.filter ((fun c : Key × Call => decide (c.1 = k')) ∘ (k, ·)) = [] :=
      List.filter_eq_nil_iff.mpr fun _ _ h => hk (of_decide_eq_true h).symm
    rw [if_neg hk, hnone]
    exact List.append_nil _

/-- The buffers at every state of a run -/
structure Ledger (w : Entity) : Prop where
  accounted : Accounted w
  fresh : ∀ n, w.nofBuffers ≤ n →
    w.trace.countP (letsGo n ·.2) = 0 ∧ ∀ k, ¬ holds w n k

theorem holds_put (n : Nat) (k k' : Key) (t : TbProcess) (calls : List Call) :
    holds (put w k t calls) n k' ↔
      if k' = k then t.payload = some (.pdu n) else holds w n k' := by
  show (Function.update w.sub k t k').payload = _ ↔ _
  rw [Function.update_apply]
  split <;> rfl

theorem countP_put (n : Nat) (k : Key) (t : TbProcess) (calls : List Call) :
    (put w k t calls).trace.countP (letsGo n ·.2) =
      w.trace.countP (letsGo n ·.2) + calls.countP (letsGo n) := by
  rw [put, List.countP_append, List.countP_map]
  rfl

theorem holds_put_of_iff {n : Nat} {t : TbProcess}
    (h : t.payload = some (.pdu n) ↔ (w.sub k).payload = some (.pdu n)) (calls : List Call) :
    holds (put w k t calls) n = holds w n := by
  funext k'
  rw [holds_put]
  by_cases hk : k' = k
  · rw [if_pos hk, hk, holds, h]
  · rw [if_neg hk]

/-- A call on a TB process obtains the next buffer, or the process lets go of the buffer it had. -/
theorem ledger_put (h : Ledger w) {calls : List Call}
    (hmoves : (t.payload = none ∧
        ∀ m, calls.countP (letsGo m) = if (w.sub k).payload = some (.pdu m) then 1 else 0) ∨
      ((w.sub k).payload = none ∧ t.payload = some (.pdu w.nofBuffers) ∧
        ∀ m, calls.countP (letsGo m) = 0)) :
    Ledger (put w k t calls) := by
  rcases hmoves with ⟨hafter, hcount⟩ | ⟨hbefore, hafter, hcount⟩
  · have hnof : (put w k t calls).nofBuffers = w.nofBuffers := if_neg (by rw [hafter]; exact nofun)
    have hother : ∀ n, ¬ holds w n k → holds (put w k t calls) n = holds w n ∧
        (put w k t calls).trace.countP (letsGo n ·.2) = w.trace.countP (letsGo n ·.2) := by
      intro n hn
      refine ⟨holds_put_of_iff (iff_of_false (by rw [hafter]; exact nofun) hn) calls, ?_⟩
      rw [countP_put, hcount]
      exact congrArg _ (if_neg hn)
    constructor
    · intro n hn
      rw [hnof] at hn
      by_cases hk : holds w n k
      · rcases h.accounted n hn with ⟨-, hno⟩ | ⟨hzero, hone⟩
        · exact absurd hk (hno k)
        · refine .inl ⟨?_, fun k' hk' => ?_⟩
          · rw [countP_put, hcount, hzero, Nat.zero_add]
            exact if_pos hk
          rw [holds_put] at hk'
          split at hk'
          · exact absurd (hafter.symm.trans hk') nofun
          · rename_i hne
            exact hne (hone.unique hk' hk)
      · rw [(hother n hk).1, (hother n hk).2]
        exact h.accounted n hn
    · intro n hn
      rw [hnof] at hn
      obtain ⟨hzero, hno⟩ := h.fresh n hn
      rw [(hother n (hno k)).1, (hother n (hno k)).2]
      exact ⟨hzero, hno⟩
  · have hnof : (put w k t calls).nofBuffers = w.nofBuffers + 1 := if_pos hafter
    have hother : ∀ n, n ≠ w.nofBuffers → holds (put w k t calls) n = holds w n := by
      intro n hn
      refine holds_put_of_iff (iff_of_false ?_ (by rw [hbefore]; exact nofun)) calls
      rw [hafter]
      exact fun h => hn (Buffer.pdu.inj (Option.some.inj h)).symm
    have hsame : ∀ n, (put w k t calls).trace.countP (letsGo n ·.2) =
        w.trace.countP (letsGo n ·.2) := fun n => by rw [countP_put, hcount, Nat.add_zero]
    constructor
    · intro n hn
      rw [hnof] at hn
      rw [hsame]
      by_cases hlast : n = w.nofBuffers
      · obtain ⟨hzero, hno⟩ := h.fresh n (Nat.le_of_eq hlast.symm)
        refine .inr ⟨hzero, k, ?_, fun k' hk' => ?_⟩
        · exact (holds_put n k k t calls).mpr (by rw [if_pos rfl, hafter, hlast])
        · have hk' := (holds_put n k k' t calls).mp hk'
          by_contra hne
          rw [if_neg hne] at hk'
          exact hno k' hk'
      · rw [hother n hlast]
        exact h.accounted n (Nat.lt_of_le_of_ne (Nat.le_of_lt_succ hn) hlast)
    · intro n hn
      rw [hnof] at hn
      rw [hsame, hother n (Nat.ne_of_gt hn)]
      exact h.fresh n (Nat.le_of_succ_le hn)

/-- What every step of the entity keeps -/
structure Inv (w : Entity) : Prop where
  tracks : ∀ k, Tracks k (w.sub k) (callsOf k w.trace)
  ledger : Ledger w

/-- The calls on a TB process are for the C-RNTI. -/
def TbOnCrnti (_ : Entity) (e : Key × TbEvent) : Prop :=
  match e.2 with
  | .newGrant env grant | .tbDecoded env grant _ =>
    isBcch e.1 = false ∧ grant.rnti ≠ env.tempRnti
  | .reset => True

theorem inv_put (h : Inv w) {calls : List Call} (ht : Tracks k t (callsOf k w.trace ++ calls))
    (hl : Ledger (put w k t calls)) : Inv (put w k t calls) := by
  refine ⟨fun k' => ?_, hl⟩
  show Tracks k' (Function.update w.sub k t k') (callsOf k' (w.trace ++ calls.map (k, ·)))
  rw [callsOf_append]
  by_cases hk : k' = k
  · subst hk
    rw [if_pos rfl, Function.update_self]
    exact ht
  · rw [if_neg hk, Function.update_of_ne hk]
    exact h.tracks k'

theorem tbStep_inv (w : Entity) (e : Key × TbEvent) (w' : Entity) (u : Unit) (h : Inv w)
    (he : TbOnCrnti w e) (hstep : tbStep w e = some (w', u)) : Inv w' := by
  obtain ⟨k, e⟩ := e
  have hk := h.tracks k
  cases e with
  | newGrant env grant =>
    rw [tbStep] at hstep
    split at hstep
    · rename_i hheld
      cases hres : newGrantTb k env.siWindowStart env.free[k.2] w.nofBuffers (w.sub k) grant with
      | mk t rest =>
        obtain ⟨action, calls⟩ := rest
        simp only [hres] at hstep
        cases hstep
        obtain ⟨htracks, rfl, hpayload⟩ := grant_tracks hk he.1 hheld hres
        refine inv_put h htracks (ledger_put h.ledger ?_)
        rcases hpayload with hnone | hsome
        · refine .inl ⟨hnone, fun m => ?_⟩
          rw [hk.payload_none hheld]
          rfl
        · exact .inr ⟨hk.payload_none hheld, hsome, fun _ => rfl⟩
    · cases hstep
  | tbDecoded env grant ack =>
    rw [tbStep] at hstep
    split at hstep
    · rename_i hheld
      cases hres : tbDecodedTb k env.tempRnti (w.sub k) grant ack with
      | mk t calls =>
        simp only [hres] at hstep
        cases hstep
        obtain ⟨htracks, hnone, hcount⟩ := decoded_tracks hk he.1 hheld he.2 hres
        exact inv_put h htracks (ledger_put h.ledger (.inl ⟨hnone, hcount⟩))
    · cases hstep
  | reset =>
    rw [tbStep] at hstep
    split at hstep
    · rename_i hheld
      cases hstep
      obtain ⟨htracks, hcalls⟩ := reset_tracks hk hheld
      refine inv_put h htracks (ledger_put h.ledger (.inl ⟨rfl, fun m => ?_⟩))
      show ((resetNolock k (w.sub k)).2 ++ [Call.reset]).countP (letsGo m) = _
      rw [hcalls, hk.payload_none hheld]
      rfl
    · cases hstep

theorem run_inv {es : List (Key × TbEvent)} {r : Option (Entity × Unit)} {u : Unit} (h : Inv w)
    (hes : ∀ e ∈ es, TbOnCrnti w e)
    (hr : r = (run tbStep w es).map fun r => (r.1, ())) (hw' : r = some (w', u)) : Inv w' := by
  rw [hr, Option.map_eq_some_iff] at hw'
  obtain ⟨⟨w₁, us⟩, hrun, heq⟩ := hw'
  cases heq
  exact run_invariant_of_within Inv tbStep_inv es w _ us h
    (stepsWithin_of_forall (fun e he _ => hes e he) w) hrun

theorem forTbs_inv {p : Fin maxHarqProc} {grant : MacGrant} {e : Fin 2 → TbEvent} {u : Unit}
    (h : Inv w) (he : ∀ tid, TbOnCrnti w ((some p, tid), e tid))
    (hw' : forTbs w grant (some p) e = some (w', u)) : Inv w' := by
  refine run_inv h (fun e' he' => ?_) rfl hw'
  obtain ⟨tid, -, rfl⟩ := List.mem_map.mp he'
  exact he tid

/-- A grant for the C-RNTI is for one of the processes, or is ignored. -/
theorem procOf_cases (hcrnti : IsCrnti env grant) :
    procOf grant = none ∨ ∃ p, procOf grant = some (some p) := by
  rw [procOf, if_neg hcrnti.1]
  split
  · exact .inr ⟨_, rfl⟩
  · exact .inl rfl

theorem newGrantDl_eq (hcrnti : IsCrnti env grant) :
    newGrantDl w env grant = match procOf grant with
      | none => some (w, ())
      | some p => forTbs w grant p fun _ => .newGrant env grant := by
  rw [newGrantDl, if_neg hcrnti.2.1]
  split
  · rfl
  · simp only [if_neg fun h : grant.rnti = env.tempRnti ∧ _ => hcrnti.2.2 h.1]

theorem step_inv (w : Entity) (e : Event) (w' : Entity) (u : Unit) (h : Inv w)
    (he : OnCrnti e) (hstep : step w e = some (w', u)) : Inv w' := by
  cases e with
  | newGrantDl env grant =>
    rw [step, newGrantDl_eq he] at hstep
    rcases procOf_cases he with hp | ⟨p, hp⟩
    · rw [hp] at hstep
      cases hstep
      exact h
    · rw [hp] at hstep
      have htb : ∀ tid, TbOnCrnti w ((some p, tid), .newGrant env grant) :=
        fun _ => ⟨rfl, he.2.2⟩
      exact forTbs_inv h htb hstep
  | tbDecoded env grant ack =>
    rw [step, tbDecoded] at hstep
    rcases procOf_cases he with hp | ⟨p, hp⟩
    · rw [hp] at hstep
      cases hstep
      exact h
    · rw [hp] at hstep
      have htb : ∀ tid : Fin 2, TbOnCrnti w ((some p, tid), .tbDecoded env grant ack[tid]) :=
        fun _ => ⟨rfl, he.2.2⟩
      exact forTbs_inv h htb hstep
  | reset =>
    refine run_inv h (fun e he => ?_) rfl hstep
    obtain ⟨p, -, he⟩ := List.mem_flatMap.mp he
    obtain ⟨tid, -, rfl⟩ := List.mem_map.mp he
    trivial

theorem inv_init : Inv {} := by
  refine ⟨fun k => ⟨nofun, rfl, fun _ _ => ⟨nofun, rfl, rfl⟩⟩, ?_, fun n _ => ⟨rfl, nofun⟩⟩
  exact fun n hn => absurd hn (Nat.not_lt_zero n)

/-- A grant waits for no mutex exactly when none of the TB processes it goes to is held. -/
theorem forTbs_isSome {p : Option (Fin maxHarqProc)} {grant : MacGrant} {tids : List (Fin 2)}
    (hnodup : tids.Nodup) :
    (run tbStep w (tids.map fun tid => ((p, tid), .newGrant env grant))).isSome = true ↔
      ∀ tid ∈ tids, (w.sub (p, tid)).held = none := by
  induction tids generalizing w with
  | nil => simp
  | cons tid tids ih =>
    obtain ⟨hnot, hnodup⟩ := List.nodup_cons.mp hnodup
    rw [List.map_cons, List.forall_mem_cons, run, tbStep]
    by_cases hheld : (w.sub (p, tid)).held = none
    · simp only [if_pos hheld]
      generalize hw : put w (p, tid) _ _ = w₁
      have hother : ∀ tid' ∈ tids, w₁.sub (p, tid') = w.sub (p, tid') := by
        intro tid' htid'
        rw [← hw]
        exact Function.update_of_ne (fun h => hnot (by rwa [(Prod.mk.inj h).2] at htid')) _ _
      have hrest : (run tbStep w₁ (tids.map fun tid => ((p, tid), .newGrant env grant))).isSome =
          true ↔ ∀ tid ∈ tids, (w.sub (p, tid)).held = none := by
        rw [ih hnodup]
        exact forall₂_congr fun tid' htid' => by rw [hother tid' htid']
      rw [← hrest]
      cases run tbStep w₁ (tids.map fun tid => ((p, tid), .newGrant env grant)) with
      | none => exact iff_of_false (fun hsome => by cases hsome) fun h => by cases h.2
      | some r => exact iff_of_true rfl ⟨hheld, rfl⟩
    · simp only [if_neg hheld]
      exact iff_of_false (fun hsome => by cases hsome) fun h => hheld h.1

theorem newGrantDl_isSome (h : Inv w) (hcrnti : IsCrnti env grant) :
    (newGrantDl w env grant).isSome = true ↔ ∀ p, procOf grant = some p →
      ∀ tid : Fin 2, grant.tb[tid].tbs ≠ 0 → pending (callsOf (p, tid) w.trace) = false := by
  rw [newGrantDl_eq hcrnti]
  cases hp : procOf grant with
  | none => exact iff_of_true rfl nofun
  | some p =>
    show (Option.map _ (run tbStep w _)).isSome = true ↔ _
    rw [Option.isSome_map, forTbs_isSome ((List.nodup_finRange 2).filter _)]
    constructor
    · rintro hfree p' hp' tid htbs
      cases hp'
      have hheld := hfree tid (List.mem_filter.mpr ⟨List.mem_finRange tid, decide_eq_true htbs⟩)
      rw [(h.tracks (p, tid)).pending, hheld]
      rfl
    · intro hpending tid htid
      have htbs := of_decide_eq_true (List.mem_filter.mp htid).2
      have hnot := hpending p rfl tid htbs
      rw [(h.tracks (p, tid)).pending] at hnot
      exact Option.not_isSome_iff_eq_none.mp fun h => absurd (h.symm.trans hnot) nofun

/-- In every run on grants for the C-RNTI: a TB process whose blocks are regular delivers each of
them once when a decoding succeeds and never otherwise, with a reset as the end of a block; every
buffer obtained is pushed or deallocated, and once, or held by one process; and a grant is taken
exactly when the last grants of its TBs have been followed by `tb_decoded`. -/
theorem delivers_once (events : List Event) (hevents : ∀ e ∈ events, OnCrnti e) {us : List Unit}
    (hrun : run step {} events = some (w, us)) :
    (∀ k, isBcch k = false → Regular (blocks true (callsOf k w.trace)) →
      Delivered (blocks true (callsOf k w.trace))) ∧
    Accounted w ∧
    ∀ env grant, IsCrnti env grant → ((newGrantDl w env grant).isSome = true ↔
      ∀ p, procOf grant = some p → ∀ tid : Fin 2, grant.tb[tid].tbs ≠ 0 →
        pending (callsOf (p, tid) w.trace) = false) := by
  have hwithin : StepsWithin step (fun _ e => OnCrnti e) {} events :=
    stepsWithin_of_forall (fun e he _ => hevents e he) _
  have hinv : Inv w := run_invariant_of_within Inv step_inv events _ w us inv_init hwithin hrun
  exact ⟨fun k hk hreg => ((hinv.tracks k).blocks hk hreg).1, hinv.ledger.accounted,
    fun env grant hcrnti => newGrantDl_isSome hinv hcrnti⟩

/-- A grant for one TB of process 0, of 100 bytes -/
def grantOf (ndi ndiPresent : Bool) : MacGrant :=
  { tb := #v[{ tbs := 100, ndi, ndiPresent }, {}], rnti := 70 }

/-- The grant is given, and its TB is decoded or not. -/
def exchange (ndi ndiPresent ack : Bool) : List Event :=
  [.newGrantDl {} (grantOf ndi ndiPresent), .tbDecoded {} (grantOf ndi ndiPresent) #v[ack, true]]

/-- A TB that is decoded at its second grant -/
theorem delivers_once_retx : ∃ w us,
    run step {} (exchange false true false ++ exchange false true true) = some (w, us) ∧
      Delivered (blocks true (callsOf (some 0, 0) w.trace)) ∧ Accounted w := by
  obtain ⟨⟨w, us⟩, hw, hreg⟩ := (Option.any_eq_true (fun r : Entity × List Unit =>
    decide (∀ b ∈ blocks true (callsOf (some 0, 0) r.1.trace),
      b.grants ≤ resetDuplicateTimeout ∧ b.announced = true))
    (run step {} (exchange false true false ++ exchange false true true))).mp (by decide)
  obtain ⟨hdelivered, haccounted, -⟩ := delivers_once _
    (by simp [exchange, OnCrnti, IsCrnti, grantOf]; decide) hw
  have hreg := of_decide_eq_true hreg
  exact ⟨w, us, hw, hdelivered (some 0, 0) rfl hreg, haccounted⟩

/-- A run that delivers each of its blocks once, where the blocks end with their NDI and TBS -/
def DeliversOnce (events : List Event) : Prop :=
  (∀ e ∈ events, OnCrnti e) → ∀ w us, run step {} events = some (w, us) →
    (∀ k, ∀ b ∈ blocks false (callsOf k w.trace), b.grants ≤ resetDuplicateTimeout) →
    ∀ k, isBcch k = false → Delivered (blocks false (callsOf k w.trace))

theorem not_deliversOnce_of {events : List Event} (hevents : ∀ e ∈ events, OnCrnti e)
    (hrun : ((run step {} events).any fun r : Entity × List Unit =>
      decide (∀ k, ∀ b ∈ blocks false (callsOf k r.1.trace), b.grants ≤ resetDuplicateTimeout) &&
      (blocks false (callsOf (some 0, 0) r.1.trace)).any
        fun b => b.pushed != if b.decoded then [b.tbs] else []) = true) :
    ¬ DeliversOnce events := by
  intro h
  obtain ⟨⟨w, us⟩, hw, hbad⟩ := (Option.any_eq_true _ _).mp hrun
  rw [Bool.and_eq_true, decide_eq_true_iff, List.any_eq_true] at hbad
  obtain ⟨hgrants, b, hb, hpushed⟩ := hbad
  exact bne_iff_ne.mp hpushed (h hevents w us hw hgrants (some 0, 0) rfl b hb)

/-- A reset between two grants of a block; and a block whose change of NDI is not provided, so that
the process goes on counting the grants of the block before. -/
theorem not_deliversOnce :
    ¬ DeliversOnce (exchange false true true ++ [.reset] ++ exchange false true true) ∧
    ¬ DeliversOnce ((List.replicate 5 (exchange false true false)).flatten ++
      (List.replicate 3 (exchange true false true)).flatten) := by
  constructor
  · refine not_deliversOnce_of (by simp [exchange, OnCrnti, IsCrnti, grantOf]; decide) ?_
    decide
  · refine not_deliversOnce_of (by simp [exchange, OnCrnti, IsCrnti, grantOf]; decide) ?_
    decide

end Odss.Ue.DlHarq
