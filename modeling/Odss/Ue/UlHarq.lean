import Odss.Lib.Run

/-!
# `Odss.Ue.UlHarq`: the uplink HARQ process of the UE

The model of `ul_harq_process` (`srsue/src/stack/mac/ul_harq.cc`). A call gives the process, the
action for the PHY, and what it did to the PDU, in that order: discarded, built, transmitted.

* `Consistent`: what a trace of these has to keep, judged by the trace alone.
* `newGrantUl_retx`, `newGrantUl_new`: the ways to a transmission.
* `consistent_iff`: which steps keep a run consistent.
-/

set_option linter.all false

namespace Odss.Ue.UlHarq

open Odss.Lib

/-- `mac_grant_ul_t` -/
structure Grant where
  tbs : Nat := 0
  ndi : Bool := false
  ndiPresent : Bool := false
  rv : Int := 0
  rnti : Nat := 0
  phichAvailable : Bool := false
  hiValue : Bool := false
  isRar : Bool := false

/-- What the process reads of its entity: the RNTIs and `ul_harq_cfg_t` -/
structure Cfg where
  crnti : Nat
  tempRnti : Nat
  maxHarqTx : Nat
  maxHarqMsg3Tx : Nat

/-- What the multiplexing unit answers: the PDU of `pdu_get` or `msg3_get`, which is named by a
number, and `msg3_is_pending`. -/
structure Mux where
  pdu : Option Nat
  msg3IsPending : Bool := false

/-- `tb_action_ul_t` -/
structure Action where
  enabled : Bool := false
  rv : Nat := 0
  payload : Option Nat := none
  currentTxNb : Nat := 0
  expectAck : Bool := false
  isRar : Bool := false

/-- `ul_harq_process` -/
structure Process where
  curGrant : Grant := {}
  currentTxNb : Nat := 0
  currentIrv : Nat := 0
  harqFeedback : Bool := false
  isGrantConfigured : Bool := false
  pduPtr : Option Nat := none

/-- The kinds of transmissions -/
inductive Kind where
  | newTx
  | adaptive
  | nonAdaptive
  deriving DecidableEq, Repr

/-- What is done to a PDU -/
inductive Effect where
  | discard
  | build (pdu tbs : Nat)
  | transmit (kind : Kind) (payload : Option Nat) (tbs rv : Nat) (phich : Bool)

def payloadBufferLen : Nat := 128 * 1024

/-- `get_rv` -/
def getRv (p : Process) : Nat := [0, 2, 3, 1].getD (p.currentIrv % 4) 0

def irvOfRv (rv : Int) : Nat := [0, 3, 1, 2].getD (rv % 4).toNat 0

/-- `reset` -/
def reset (p : Process) : Process :=
  { p with currentTxNb := 0, currentIrv := 0, isGrantConfigured := false, curGrant := {} }

/-- `reset_ndi` -/
def resetNdi (p : Process) : Process := { p with curGrant := { p.curGrant with ndi := false } }

/-- `generate_tx` -/
def generateTx (p : Process) (kind : Kind) (phich : Bool) (action : Action) :
    Process × Action × List Effect :=
  let rv := if 0 < p.curGrant.rv then p.curGrant.rv.toNat else getRv p
  let currentTxNb := p.currentTxNb + 1
  ({ p with currentTxNb, currentIrv := (p.currentIrv + 1) % 4 },
    { action with currentTxNb, expectAck := true, rv, enabled := true, payload := p.pduPtr },
    [.transmit kind p.pduPtr p.curGrant.tbs rv phich])

/-- `generate_retx` -/
def generateRetx (p : Process) (grant : Grant) (action : Action) :
    Process × Action × List Effect :=
  if grant.ndiPresent then
    let p := if grant.rv ≠ 0 then { p with currentIrv := irvOfRv grant.rv } else p
    let (p, action, effects) := generateTx { p with curGrant := grant, harqFeedback := false }
      .adaptive grant.phichAvailable action
    ({ p with curGrant := { p.curGrant with rv := -1 } }, action, effects)
  else if p.harqFeedback = false then generateTx p .nonAdaptive grant.phichAvailable action
  else (p, action, [])

/-- `generate_new_tx` -/
def generateNewTx (cfg : Cfg) (p : Process) (grant : Grant) (action : Action) :
    Process × Action × List Effect :=
  generateTx
    { p with curGrant := grant, harqFeedback := false, isGrantConfigured := true,
             currentTxNb := 0, currentIrv := 0 }
    .newTx grant.phichAvailable
    { action with isRar := grant.isRar || grant.rnti == cfg.tempRnti }

/-- The PHICH part of `new_grant_ul` -/
def receivePhich (cfg : Cfg) (p : Process) (grant : Grant) : Process × List Effect :=
  if grant.phichAvailable then
    let p := { p with
      harqFeedback :=
        if grant.ndiPresent && grant.ndi == p.curGrant.ndi && grant.tbs != 0 then false
        else grant.hiValue }
    let maxRetx := if grant.rnti = cfg.tempRnti then cfg.maxHarqMsg3Tx else cfg.maxHarqTx
    if maxRetx ≤ p.currentTxNb ∧ grant.hiValue = false then (reset p, [.discard]) else (p, [])
  else (p, [])

/-- The reset of `new_grant_ul` when the TB has changed -/
def checkTbs (p : Process) (grant : Grant) : Process × List Effect :=
  if p.harqFeedback && p.isGrantConfigured && grant.ndiPresent then
    if grant.tbs ≠ p.curGrant.tbs ∧ 0 < p.curGrant.tbs ∧ 0 < grant.tbs then
      (reset p, [.discard])
    else (p, [])
  else (p, [])

/-- The new transmission of `new_grant_ul` -/
def newTransmission (cfg : Cfg) (p : Process) (grant : Grant) (mux : Mux) :
    Process × Action × List Effect :=
  let p := reset p
  if payloadBufferLen < grant.tbs then (p, {}, [.discard])
  else if grant.isRar && !mux.msg3IsPending then (p, {}, [.discard])
  else
    let p := { p with pduPtr := mux.pdu }
    match mux.pdu with
    | some pdu =>
      let (p, action, effects) := generateNewTx cfg p grant {}
      (p, action, .discard :: .build pdu grant.tbs :: effects)
    | none => (p, {}, [.discard])

/-- The routing of `new_grant_ul` -/
def route (cfg : Cfg) (p : Process) (grant : Grant) (mux : Mux) :
    Process × Action × List Effect :=
  if grant.ndiPresent then
    if grant.tbs = 0 then (p, { enabled := true }, [])
    else if grant.rnti ≠ cfg.tempRnti ∧ grant.ndi ≠ p.curGrant.ndi ∨
        grant.rnti = cfg.crnti ∧ p.isGrantConfigured = false ∨ grant.isRar then
      newTransmission cfg p grant mux
    else if p.isGrantConfigured then generateRetx p grant {}
    else (p, {}, [])
  else if p.isGrantConfigured then generateRetx p grant {}
  else (p, {}, [])

/-- `new_grant_ul` -/
def newGrantUl (cfg : Cfg) (p : Process) (grant : Grant) (mux : Mux) :
    Process × Action × List Effect :=
  let (p, discards) := receivePhich cfg p grant
  let (p, discards') := checkTbs p grant
  let (p, action, effects) := route cfg p grant mux
  (p, action, discards ++ discards' ++ effects)

/-! ### The trace -/

/-- The PDU that is held, as the trace tells: what it was built for, how often it was transmitted,
whether PHICH was available before every retransmission, and the last redundancy version -/
structure Block where
  pdu : Nat
  tbs : Nat
  nofTx : Nat := 0
  phich : Bool := true
  rv : Option Nat := none

/-- What the trace tells after one more effect -/
def record (block : Option Block) : Effect → Option Block
  | .discard => none
  | .build pdu tbs => some { pdu, tbs }
  | .transmit kind _ _ rv phich => block.map fun b =>
    { b with nofTx := b.nofTx + 1, phich := b.phich && (kind == .newTx || phich), rv := some rv }

/-- The redundancy version that follows in `0, 2, 3, 1` -/
def nextRv (rv : Nat) : Nat := [2, 0, 3, 1].getD (rv % 4) 0

/-- A transmission carries the PDU that was built last and is not discarded, with the TBS it was
built for. With PHICH before every retransmission it is not one too many, and a non-adaptive one has
the next redundancy version. -/
def Right (cfg : Cfg) (block : Option Block) : Effect → Prop
  | .discard => True
  | .build _ _ => True
  | .transmit kind payload tbs rv phich =>
    ∃ b, block = some b ∧ payload = some b.pdu ∧ tbs = b.tbs ∧
      (b.phich = true ∧ (kind = .newTx ∨ phich = true) → b.nofTx + 1 ≤ max 1 cfg.maxHarqTx) ∧
      (kind = .nonAdaptive → ∀ last, b.rv = some last → rv = nextRv last)

/-- Every transmission of a trace is right. -/
def Consistent (cfg : Cfg) : Option Block → List Effect → Prop
  | _, [] => True
  | block, e :: es => Right cfg block e ∧ Consistent cfg (record block e) es

/-- What happens to a process -/
inductive Event where
  | grant (grant : Grant) (mux : Mux)
  | reset
  | resetNdi

/-- A process together with what its trace tells -/
structure World where
  process : Process := {}
  block : Option Block := none

/-- One event, with its effects -/
def react (cfg : Cfg) (p : Process) : Event → Process × List Effect
  | .grant g mux => ((newGrantUl cfg p g mux).1, (newGrantUl cfg p g mux).2.2)
  | .reset => (reset p, [.discard])
  | .resetNdi => (resetNdi p, [])

def step (cfg : Cfg) (w : World) (e : Event) : World × List Effect :=
  let r := react cfg w.process e
  ({ process := r.1, block := r.2.foldl record w.block }, r.2)

/-- A grant for the C-RNTI, which is not the temporary one -/
def OnCrnti (cfg : Cfg) : Event → Prop
  | .grant g _ => g.rnti = cfg.crnti ∧ g.rnti ≠ cfg.tempRnti ∧ g.isRar = false ∧ 0 ≤ g.rv
  | _ => True

/-- The feedback that is stored for a grant -/
def feedback (p : Process) (g : Grant) : Bool :=
  if g.phichAvailable then
    if g.ndiPresent && g.ndi == p.curGrant.ndi && g.tbs != 0 then false else g.hiValue
  else p.harqFeedback

/-- The grant discards the PDU before it is routed. -/
def Discards (cfg : Cfg) (p : Process) (g : Grant) : Prop :=
  g.phichAvailable = true ∧ cfg.maxHarqTx ≤ p.currentTxNb ∧ g.hiValue = false ∨
    (feedback p g && p.isGrantConfigured && g.ndiPresent) = true ∧
      g.tbs ≠ p.curGrant.tbs ∧ 0 < p.curGrant.tbs ∧ 0 < g.tbs

/-- What keeps the transmissions of a PDU that is held right. An adaptive retransmission has the
stored TBS, and with PHICH it is not one too many. A non-adaptive one is not made for a new
transmission that had a redundancy version other than 0. -/
def Keeps (cfg : Cfg) (w : World) : Event → Prop
  | .grant g _ =>
    w.process.isGrantConfigured = true → ¬ Discards cfg w.process g →
      (g.ndiPresent = true → g.tbs ≠ 0 → g.ndi = w.process.curGrant.ndi →
        g.tbs = w.process.curGrant.tbs ∧
          (w.block.map Block.phich = some true → g.phichAvailable = true →
            w.process.currentTxNb < cfg.maxHarqTx)) ∧
      (g.ndiPresent = false → feedback w.process g = false → w.process.curGrant.rv ≤ 0)
  | _ => True

/-! ### The steps -/

variable {cfg : Cfg} {p : Process} {g : Grant} {block : Option Block}

/-- While a grant is stored, the process holds the PDU that the trace tells of. -/
def Holds (p : Process) (block : Option Block) : Prop :=
  p.isGrantConfigured = true → ∃ b last, block = some b ∧ p.pduPtr = some b.pdu ∧
    p.curGrant.tbs = b.tbs ∧ p.currentTxNb = b.nofTx ∧ 0 < b.nofTx ∧ b.rv = some last ∧
      (0 < p.curGrant.rv → (last : Int) = p.curGrant.rv) ∧
      (p.curGrant.rv ≤ 0 → nextRv last = getRv p)

theorem consistent_append {es es' : List Effect} : ∀ {block : Option Block},
    Consistent cfg block (es ++ es') ↔
      Consistent cfg block es ∧ Consistent cfg (es.foldl record block) es' := by
  induction es with
  | nil => intro block; simp [Consistent]
  | cons e es ih => intro block; simp [Consistent, ih, and_assoc]

theorem holds_reset (p : Process) (block : Option Block) : Holds (reset p) block :=
  fun h => absurd h Bool.false_ne_true

theorem holds_of_not (h : p.isGrantConfigured = false) : Holds p block :=
  fun h' => absurd (h.symm.trans h') Bool.false_ne_true

/-- The redundancy versions of the process follow one another. -/
theorem nextRv_getRv (irv : Nat) :
    nextRv ([0, 2, 3, 1].getD (irv % 4) 0) = [0, 2, 3, 1].getD ((irv + 1) % 4 % 4) 0 := by
  have hirv : irv % 4 = 0 ∨ irv % 4 = 1 ∨ irv % 4 = 2 ∨ irv % 4 = 3 := by omega
  rcases hirv with h | h | h | h
  all_goals
    rw [h, show (irv + 1) % 4 = (irv % 4 + 1) % 4 by omega, h]
    rfl

/-- A redundancy version that the grant gives is followed by the next one of the process. -/
theorem nextRv_irvOfRv {rv : Int} (h : 0 ≤ rv) :
    nextRv rv.toNat = [0, 2, 3, 1].getD ((irvOfRv rv + 1) % 4 % 4) 0 := by
  obtain ⟨n, rfl⟩ := Int.eq_ofNat_of_zero_le h
  rw [irvOfRv, nextRv, Int.toNat_natCast, show ((n : Int) % 4).toNat = n % 4 by omega]
  have hn : n % 4 = 0 ∨ n % 4 = 1 ∨ n % 4 = 2 ∨ n % 4 = 3 := by omega
  rcases hn with h | h | h | h
  all_goals
    rw [h]
    rfl

theorem nextRv_ne (rv : Nat) : nextRv rv ≠ rv := by
  have hrv : rv % 4 = 0 ∨ rv % 4 = 1 ∨ rv % 4 = 2 ∨ rv % 4 = 3 := by omega
  rcases hrv with h | h | h | h
  all_goals
    rw [nextRv, h]
    show (_ : Nat) ≠ rv
    simp only [List.getD_cons_zero, List.getD_cons_succ]
    omega

variable (cfg) in
/-- A new transmission is right. -/
theorem newTransmission_spec (hrar : g.isRar = false) (p : Process) (mux : Mux)
    (block : Option Block) :
    Consistent cfg block (newTransmission cfg p g mux).2.2 ∧
      Holds (newTransmission cfg p g mux).1
        ((newTransmission cfg p g mux).2.2.foldl record block) := by
  rw [newTransmission]
  by_cases hlen : payloadBufferLen < g.tbs
  · rw [if_pos hlen]
    exact ⟨⟨trivial, trivial⟩, holds_reset p _⟩
  · rw [if_neg hlen, if_neg (by rw [hrar]; exact Bool.false_ne_true)]
    cases mux.pdu with
    | none => exact ⟨⟨trivial, trivial⟩, holds_of_not rfl⟩
    | some pdu =>
      constructor
      · refine ⟨trivial, trivial, ⟨_, rfl, rfl, rfl, fun _ => ?_, nofun⟩, trivial⟩
        exact Nat.le_max_left 1 _
      · intro _
        refine ⟨_, _, rfl, rfl, rfl, rfl, Nat.one_pos, rfl, fun hpos => ?_, fun hneg => ?_⟩
        · have hpos : 0 < g.rv := hpos
          show (((if 0 < g.rv then g.rv.toNat else _) : Nat) : Int) = g.rv
          rw [if_pos hpos]
          omega
        · have hneg : ¬ 0 < g.rv := Int.not_lt.mpr hneg
          show nextRv (if 0 < g.rv then _ else _) = _
          rw [if_neg hneg]
          rfl

variable (cfg) in
/-- An adaptive retransmission is right when it has the TBS of the PDU and is not one too many. -/
theorem adaptive_spec (hholds : Holds p block) (hp : p.isGrantConfigured = true)
    (hpresent : g.ndiPresent = true) (hrv : 0 ≤ g.rv) :
    (Consistent cfg block (generateRetx p g {}).2.2 ↔ g.tbs = p.curGrant.tbs ∧
      (block.map Block.phich = some true → g.phichAvailable = true →
        p.currentTxNb < cfg.maxHarqTx)) ∧
      (g.tbs = p.curGrant.tbs → Holds (generateRetx p g {}).1
        ((generateRetx p g {}).2.2.foldl record block)) := by
  obtain ⟨b, last, rfl, hpdu, htbs, hnb, hpos, hlast, hlo, hhi⟩ := hholds hp
  rw [generateRetx, if_pos hpresent]
  have hmax : b.nofTx + 1 ≤ max 1 cfg.maxHarqTx ↔ p.currentTxNb < cfg.maxHarqTx := by
    rw [hnb]
    omega
  constructor
  · constructor
    · rintro ⟨⟨b', hb', -, htbs', hcount, -⟩, -⟩
      cases hb'
      refine ⟨htbs'.trans htbs.symm, fun hall hphich => hmax.mp (hcount ⟨?_, .inr hphich⟩)⟩
      exact Option.some.inj hall
    · rintro ⟨htbs', hcount⟩
      refine ⟨⟨b, rfl, ?_, htbs'.trans htbs, ?_, nofun⟩, trivial⟩
      · split <;> exact hpdu
      · rintro ⟨hall, hphich⟩
        exact hmax.mpr (hcount (congrArg some hall) (hphich.resolve_left nofun))
  · intro htbs' _
    by_cases hzero : g.rv = 0
    · rw [if_neg (not_not_intro hzero)]
      have hnot : ¬ 0 < g.rv := by omega
      refine ⟨_, getRv p, rfl, hpdu, htbs'.trans htbs, congrArg (· + 1) hnb, Nat.succ_pos _, ?_,
        nofun, fun _ => nextRv_getRv _⟩
      show some (if 0 < g.rv then _ else _) = _
      rw [if_neg hnot]
      rfl
    · rw [if_pos hzero]
      have hrv' : 0 < g.rv := by omega
      refine ⟨_, g.rv.toNat, rfl, hpdu, htbs'.trans htbs, congrArg (· + 1) hnb, Nat.succ_pos _, ?_,
        nofun, fun _ => nextRv_irvOfRv hrv⟩
      show some (if 0 < g.rv then _ else _) = _
      rw [if_pos hrv']

/-- A non-adaptive retransmission is right when the redundancy version does not stick. -/
theorem nonAdaptive_spec (hholds : Holds p block) (hp : p.isGrantConfigured = true)
    (hpresent : g.ndiPresent = false) (hmax : g.phichAvailable = true →
      p.currentTxNb < cfg.maxHarqTx ∨ p.harqFeedback = true) :
    (Consistent cfg block (generateRetx p g {}).2.2 ↔
      (p.harqFeedback = false → p.curGrant.rv ≤ 0)) ∧
      ((p.harqFeedback = false → p.curGrant.rv ≤ 0) → Holds (generateRetx p g {}).1
        ((generateRetx p g {}).2.2.foldl record block)) := by
  obtain ⟨b, last, rfl, hpdu, htbs, hnb, hpos, hlast, hlo, hhi⟩ := hholds hp
  rw [generateRetx, if_neg (by rw [hpresent]; exact Bool.false_ne_true)]
  by_cases hf : p.harqFeedback = false
  · rw [if_pos hf]
    constructor
    · constructor
      · rintro ⟨⟨b', hb', -, -, -, hnext⟩, -⟩ -
        cases hb'
        have hnext := hnext rfl last hlast
        by_contra hrv
        have hrv : 0 < p.curGrant.rv := Int.not_le.mp hrv
        rw [if_pos hrv, ← hlo hrv, Int.toNat_natCast] at hnext
        exact nextRv_ne last hnext.symm
      · intro hrv
        have hrv := hrv hf
        refine ⟨⟨b, rfl, hpdu, htbs, ?_, fun _ last' hlast' => ?_⟩, trivial⟩
        · rintro ⟨-, hphich⟩
          have hlt := (hmax (hphich.resolve_left nofun)).resolve_right (by
            rw [hf]
            exact Bool.false_ne_true)
          rw [← hnb]
          exact Nat.le_trans hlt (Nat.le_max_right _ _)
        · rw [hlast] at hlast'
          cases hlast'
          rw [if_neg (Int.not_lt.mpr hrv), hhi hrv]
    · intro hrv _
      have hrv := hrv hf
      refine ⟨_, getRv p, rfl, hpdu, htbs, congrArg (· + 1) hnb, Nat.succ_pos _, ?_,
        fun hpos => absurd hpos (Int.not_lt.mpr hrv), fun _ => nextRv_getRv _⟩
      show some (if 0 < p.curGrant.rv then _ else _) = _
      rw [if_neg (Int.not_lt.mpr hrv)]
  · rw [if_neg hf]
    exact ⟨iff_of_true trivial fun h => absurd h hf,
      fun _ _ => ⟨b, last, rfl, hpdu, htbs, hnb, hpos, hlast, hlo, hhi⟩⟩

theorem receivePhich_eq (hrnti : g.rnti ≠ cfg.tempRnti) :
    receivePhich cfg p g =
      if g.phichAvailable = true ∧ cfg.maxHarqTx ≤ p.currentTxNb ∧ g.hiValue = false then
        (reset { p with harqFeedback := feedback p g }, [.discard])
      else ({ p with harqFeedback := feedback p g }, []) := by
  rw [receivePhich, if_neg hrnti, feedback]
  by_cases hphich : g.phichAvailable = true
  · simp [hphich]
  · simp [hphich]

/-- Before the routing a grant discards the PDU, or changes nothing but the feedback. -/
theorem prepared (hrnti : g.rnti ≠ cfg.tempRnti) :
    Discards cfg p g ∧
        (checkTbs (receivePhich cfg p g).1 g).1 =
          reset { p with harqFeedback := feedback p g } ∧
        (receivePhich cfg p g).2 ++ (checkTbs (receivePhich cfg p g).1 g).2 = [.discard] ∨
      ¬ Discards cfg p g ∧
        (checkTbs (receivePhich cfg p g).1 g).1 = { p with harqFeedback := feedback p g } ∧
        (receivePhich cfg p g).2 ++ (checkTbs (receivePhich cfg p g).1 g).2 = [] := by
  rw [receivePhich_eq hrnti]
  by_cases hmax : g.phichAvailable = true ∧ cfg.maxHarqTx ≤ p.currentTxNb ∧ g.hiValue = false
  · rw [if_pos hmax]
    have hcheck : checkTbs (reset { p with harqFeedback := feedback p g }) g =
        (reset { p with harqFeedback := feedback p g }, []) := by
      simp [checkTbs, reset]
    rw [hcheck]
    exact .inl ⟨.inl hmax, rfl, rfl⟩
  · rw [if_neg hmax]
    by_cases htbs : (feedback p g && p.isGrantConfigured && g.ndiPresent) = true ∧
        g.tbs ≠ p.curGrant.tbs ∧ 0 < p.curGrant.tbs ∧ 0 < g.tbs
    · have hcheck : checkTbs { p with harqFeedback := feedback p g } g =
          (reset { p with harqFeedback := feedback p g }, [.discard]) := by
        rw [checkTbs, if_pos htbs.1]
        exact if_pos htbs.2
      rw [hcheck]
      exact .inl ⟨.inr htbs, rfl, rfl⟩
    · have hcheck : checkTbs { p with harqFeedback := feedback p g } g =
          ({ p with harqFeedback := feedback p g }, []) := by
        rw [checkTbs]
        by_cases hon : (feedback p g && p.isGrantConfigured && g.ndiPresent) = true
        · rw [if_pos hon]
          exact if_neg fun h => htbs ⟨hon, h⟩
        · exact if_neg hon
      rw [hcheck]
      exact .inr ⟨fun h => h.elim hmax htbs, rfl, rfl⟩

/-- A grant that finds no PDU held leads to a new transmission at most. -/
theorem route_fresh (mux : Mux) (hcrnti : g.rnti = cfg.crnti) (hrar : g.isRar = false)
    (hp : p.isGrantConfigured = false) (block : Option Block) :
    Consistent cfg block (route cfg p g mux).2.2 ∧
      Holds (route cfg p g mux).1 ((route cfg p g mux).2.2.foldl record block) := by
  rw [route]
  by_cases hpresent : g.ndiPresent = true
  · rw [if_pos hpresent]
    by_cases htbs : g.tbs = 0
    · rw [if_pos htbs]
      exact ⟨trivial, holds_of_not hp⟩
    · rw [if_neg htbs, if_pos (.inr (.inl ⟨hcrnti, hp⟩))]
      exact newTransmission_spec cfg hrar p mux block
  · rw [if_neg hpresent, if_neg (by rw [hp]; exact Bool.false_ne_true)]
    exact ⟨trivial, holds_of_not hp⟩

/-- What a grant does is right exactly when `Keeps` holds, and then the process holds what the trace
tells. -/
theorem newGrantUl_spec {mux : Mux} (hg : OnCrnti cfg (.grant g mux)) (hholds : Holds p block) :
    (Consistent cfg block (newGrantUl cfg p g mux).2.2 ↔ Keeps cfg ⟨p, block⟩ (.grant g mux)) ∧
      (Keeps cfg ⟨p, block⟩ (.grant g mux) → Holds (newGrantUl cfg p g mux).1
        ((newGrantUl cfg p g mux).2.2.foldl record block)) := by
  obtain ⟨hcrnti, htemp, hrar, hrv⟩ := hg
  obtain ⟨⟨p₁, ds₁⟩, hr⟩ : ∃ r, receivePhich cfg p g = r := ⟨_, rfl⟩
  obtain ⟨⟨p₂, ds₂⟩, hc⟩ : ∃ r, checkTbs p₁ g = r := ⟨_, rfl⟩
  have hprep := prepared (p := p) htemp
  rw [hr] at hprep
  simp only [hc] at hprep
  have hrun : newGrantUl cfg p g mux =
      ((route cfg p₂ g mux).1, (route cfg p₂ g mux).2.1,
        ds₁ ++ ds₂ ++ (route cfg p₂ g mux).2.2) := by
    rw [newGrantUl, hr]
    simp only [hc]
  rw [hrun]
  show (Consistent cfg block (ds₁ ++ ds₂ ++ (route cfg p₂ g mux).2.2) ↔ _) ∧
    (_ → Holds _ ((ds₁ ++ ds₂ ++ (route cfg p₂ g mux).2.2).foldl record block))
  rcases hprep with ⟨hd, rfl, hds⟩ | ⟨hd, rfl, hds⟩
  · -- the PDU is discarded, and the grant finds the process without one
    rw [hds]
    obtain ⟨hcons, hnext⟩ := route_fresh mux hcrnti hrar
      (show (reset { p with harqFeedback := feedback p g }).isGrantConfigured = false from rfl) none
    exact ⟨iff_of_true ⟨trivial, hcons⟩ fun _ hnot => absurd hd hnot, fun _ => hnext⟩
  · rw [hds, List.nil_append]
    have hholds' : Holds { p with harqFeedback := feedback p g } block := fun h => hholds h
    by_cases hp : p.isGrantConfigured = true
    · rw [route]
      by_cases hpresent : g.ndiPresent = true
      · rw [if_pos hpresent]
        have hnone : g.ndiPresent ≠ false := by rw [hpresent]; exact nofun
        by_cases htbs : g.tbs = 0
        · rw [if_pos htbs]
          exact ⟨iff_of_true trivial fun _ _ => ⟨fun _ h => absurd htbs h, fun h => absurd h hnone⟩,
            fun _ => hholds'⟩
        · rw [if_neg htbs]
          by_cases hndi : g.ndi = p.curGrant.ndi
          · rw [if_neg (by
              rintro (⟨-, h⟩ | ⟨-, h⟩ | h)
              · exact h hndi
              · exact absurd (hp.symm.trans h) nofun
              · exact absurd (hrar.symm.trans h) nofun), if_pos hp]
            obtain ⟨hiff, hnext⟩ := adaptive_spec cfg hholds' hp hpresent hrv
            have hkeeps : Keeps cfg ⟨p, block⟩ (.grant g mux) ↔ g.tbs = p.curGrant.tbs ∧
                (block.map Block.phich = some true → g.phichAvailable = true →
                  p.currentTxNb < cfg.maxHarqTx) :=
              ⟨fun h => (h hp hd).1 hpresent htbs hndi,
                fun h _ _ => ⟨fun _ _ _ => h, fun h => absurd h hnone⟩⟩
            exact ⟨hiff.trans hkeeps.symm, fun h => hnext (hkeeps.mp h).1⟩
          · rw [if_pos (.inl ⟨htemp, hndi⟩)]
            obtain ⟨hcons, hnext⟩ := newTransmission_spec cfg hrar
              { p with harqFeedback := feedback p g } mux block
            exact ⟨iff_of_true hcons fun _ _ =>
              ⟨fun _ _ h => absurd h hndi, fun h => absurd h hnone⟩, fun _ => hnext⟩
      · rw [if_neg hpresent, if_pos hp]
        have hpresent := Bool.eq_false_iff.mpr hpresent
        have hmax : g.phichAvailable = true →
            p.currentTxNb < cfg.maxHarqTx ∨ feedback p g = true := by
          intro hphich
          have hf : feedback p g = g.hiValue := by simp [feedback, hphich, hpresent]
          rw [hf]
          by_cases hhi : g.hiValue = true
          · exact .inr hhi
          · exact .inl (Nat.not_le.mp fun hle =>
              hd (.inl ⟨hphich, hle, Bool.eq_false_iff.mpr hhi⟩))
        obtain ⟨hiff, hnext⟩ := nonAdaptive_spec hholds' hp hpresent hmax
        have hkeeps : Keeps cfg ⟨p, block⟩ (.grant g mux) ↔
            (feedback p g = false → p.curGrant.rv ≤ 0) :=
          ⟨fun h => (h hp hd).2 hpresent,
            fun h _ _ => ⟨fun h' => absurd (hpresent.symm.trans h') nofun, fun _ => h⟩⟩
        exact ⟨hiff.trans hkeeps.symm, fun h => hnext (hkeeps.mp h)⟩
    · have hp := Bool.eq_false_iff.mpr hp
      obtain ⟨hcons, hnext⟩ := route_fresh mux hcrnti hrar
        (show ({ p with harqFeedback := feedback p g } : Process).isGrantConfigured = false from hp)
        block
      exact ⟨iff_of_true hcons fun h => absurd (h.symm.trans hp) nofun, fun _ => hnext⟩

/-- The trace of a run on grants for the C-RNTI is consistent exactly when every step of it is one
that keeps the transmissions right. -/
theorem consistent_iff (cfg : Cfg) (events : List Event) (hevents : ∀ e ∈ events, OnCrnti cfg e) :
    Consistent cfg none (outputs (step cfg) {} events).flatten ↔
      ExecWithin (fun w e => (step cfg w e).1) (Keeps cfg) {} events := by
  have hrun : ∀ (events : List Event) (w : World), (∀ e ∈ events, OnCrnti cfg e) →
      Holds w.process w.block →
      (Consistent cfg w.block (outputs (step cfg) w events).flatten ↔
        ExecWithin (fun w e => (step cfg w e).1) (Keeps cfg) w events) := by
    intro events
    induction events with
    | nil => exact fun w _ _ => Iff.rfl
    | cons e events ih =>
      intro w hevents hw
      have hstep : (Consistent cfg w.block (step cfg w e).2 ↔ Keeps cfg w e) ∧
          (Keeps cfg w e → Holds (step cfg w e).1.process (step cfg w e).1.block) := by
        cases e with
        | grant g mux => exact newGrantUl_spec (hevents _ List.mem_cons_self) hw
        | reset => exact ⟨iff_of_true ⟨trivial, trivial⟩ trivial, fun _ => holds_reset _ _⟩
        | resetNdi => exact ⟨iff_of_true trivial trivial, fun _ h => hw h⟩
      rw [outputs, List.flatten_cons, consistent_append, hstep.1]
      refine and_congr_right fun hkeeps => ?_
      exact ih _ (fun e he => hevents e (List.mem_cons_of_mem _ he)) (hstep.2 hkeeps)
  exact hrun events {} hevents (holds_of_not rfl)

/-- A new transmission, two retransmissions after a NACK on PHICH and one with a grant -/
theorem consistent_iff_four :
    Consistent { crnti := 70, tempRnti := 0, maxHarqTx := 4, maxHarqMsg3Tx := 4 } none
      (outputs (step { crnti := 70, tempRnti := 0, maxHarqTx := 4, maxHarqMsg3Tx := 4 }) {}
        [.grant { tbs := 100, ndi := true, ndiPresent := true, rnti := 70 } { pdu := some 1 },
          .grant { rnti := 70, phichAvailable := true } { pdu := none },
          .grant { rnti := 70, phichAvailable := true } { pdu := none },
          .grant { tbs := 100, ndi := true, ndiPresent := true, rv := 1, rnti := 70 }
            { pdu := none }]).flatten := by
  refine (consistent_iff _ _ ?_).mpr ?_
  · intro e he
    simp only [List.mem_cons, List.not_mem_nil, or_false] at he
    rcases he with rfl | rfl | rfl | rfl
    all_goals exact ⟨rfl, by decide, rfl, by decide⟩
  · refine ⟨fun h => absurd h nofun, fun _ _ => ⟨nofun, fun _ _ => by decide⟩,
      fun _ _ => ⟨nofun, fun _ _ => by decide⟩, fun _ _ => ⟨fun _ _ _ => ⟨rfl, ?_⟩, nofun⟩, trivial⟩
    exact fun _ h => absurd h nofun

/-- A grant for 50 bytes with the NDI of a PDU of 100 bytes is a retransmission of that PDU. -/
theorem not_consistent :
    ¬ ∀ (cfg : Cfg) (events : List Event), (∀ e ∈ events, OnCrnti cfg e) →
      Consistent cfg none (outputs (step cfg) {} events).flatten := by
  intro h
  have hrun := h { crnti := 70, tempRnti := 0, maxHarqTx := 4, maxHarqMsg3Tx := 4 }
    [.grant { tbs := 100, ndi := true, ndiPresent := true, rnti := 70 } { pdu := some 1 },
      .grant { tbs := 50, ndi := true, ndiPresent := true, rnti := 70, phichAvailable := true }
        { pdu := none }] (by
    intro e he
    simp only [List.mem_cons, List.not_mem_nil, or_false] at he
    rcases he with rfl | rfl
    all_goals exact ⟨rfl, by decide, rfl, by decide⟩)
  obtain ⟨-, -, -, ⟨b, hb, -, htbs, -⟩, -⟩ := hrun
  cases hb
  exact absurd htbs (by decide)

end Odss.Ue.UlHarq
