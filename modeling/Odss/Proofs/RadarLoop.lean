import Odss.Proofs.UlBlanking
import Odss.Ric.RadarXapp

/-!
# `Odss.Proofs.RadarLoop`: the control loop over all interleavings

* `mode_iqs_iff_newest`: the xApp waits for spectrograms while `b'i'` is the newest command.
* `prbFile_sampled`: the PRB file comes from the commands in their order.
* `spectrogram_retains`: a spectrogram without a detection gives no PRBs back.
* `blankPrbs_iff_retained`: when the scheduler fails in no interleaving.
* `blanked_range`: no command frees all the PRBs.
-/

set_option linter.all false

namespace Odss.Ric

open Odss.Lib Odss.Mac Odss.Mac.TimePf

variable {ρ : Type}

/-! ### Commands -/

theorem int32_intBytes (v : Int32) :
    int32 (.ofNat v.toBitVec.toNat) (.ofNat (v.toBitVec.toNat / 2 ^ 8))
      (.ofNat (v.toBitVec.toNat / 2 ^ 16)) (.ofNat (v.toBitVec.toNat / 2 ^ 24)) = v.toInt := by
  have hlt := v.toBitVec.isLt
  have hsum : v.toBitVec.toNat % 2 ^ 8 + v.toBitVec.toNat / 2 ^ 8 % 2 ^ 8 * 2 ^ 8
      + v.toBitVec.toNat / 2 ^ 16 % 2 ^ 8 * 2 ^ 16
      + v.toBitVec.toNat / 2 ^ 24 % 2 ^ 8 * 2 ^ 24 = v.toBitVec.toNat := by omega
  simp only [int32, UInt8.toNat_ofNat', hsum, BitVec.ofNat_toNat, BitVec.setWidth_eq]
  rfl

theorem prbRange_prbCommand (range : Int32 × Int32) :
    prbRange (some (prbCommand range)) = (range.1.toInt, range.2.toInt) := by
  simp only [prbRange, readCommand, prbCommand, intBytes, List.cons_append, List.nil_append,
    int32_intBytes, Option.getD_some]

/-- The range is inside of a cell with 50 PRBs. -/
def InCell (range : Int32 × Int32) : Prop := 0 ≤ range.1 ∧ range.2 < 50

variable {g : Nat} {κ : Type}

theorem inCell_iff {range : Int32 × Int32} (hle : range.1 ≤ range.2) :
    InCell range ↔ range.2.toInt < range.1.toInt ∨ 0 ≤ range.1.toInt ∧ range.2.toInt < (50 : Nat) := by
  have h0 : (0 : Int32).toInt = 0 := rfl
  have h50 : (50 : Int32).toInt = 50 := rfl
  simp only [InCell, Int32.le_iff_toInt_le, Int32.lt_iff_toInt_lt] at hle ⊢
  omega

theorem prbCommand_ne (range : Int32 × Int32) : prbCommand range ≠ iCommand := by
  intro h
  cases congrArg List.length h

/-! ### Rounds of the xApp -/

namespace RadarXapp

/-- The input is a new spectrogram without a detection. -/
def Misses (x : RadarXapp ρ) (i : RadarInput ρ) : Prop :=
  ∃ raw, i = .spectrogram raw none ∧ x.currentMode = .iqs ∧ x.prevRawBytes ≠ some raw

/-- While the xApp waits for a spectrogram, the block error rate was high. The kept range is in
order. -/
def Keeps (x : RadarXapp ρ) : Prop :=
  (x.currentMode = .iqs → isHigh x.metrics = true) ∧ x.interfResFinal.1 ≤ x.interfResFinal.2

theorem keeps_init : (init : RadarXapp ρ).Keeps := ⟨nofun, Int32.le_refl 0⟩

variable [DecidableEq ρ]

/-- What a round does: nothing, a result for the KPMs, a range that is sent, a range that is only
kept, or the end of the search. -/
theorem step_cases (x : RadarXapp ρ) (i : RadarInput ρ) :
    x.step i = (x, []) ∨
    (∃ curr, isHigh curr = true ∧ x.step i = ({ x with metrics := curr, currentMode := .iqs }, [iCommand])) ∨
    (∃ curr, x.currentMode = .kpms ∧ x.step i = ({ x with metrics := curr }, [prbCommand (0, 0)])) ∨
    (∃ raw range, confirmed range = true ∧
      x.step i = (⟨.kpms, some raw, x.metrics, range⟩, [prbCommand range])) ∨
    (∃ raw range, range.1 ≤ range.2 ∧
      x.step i = ({ x with prevRawBytes := some raw, interfResFinal := range }, [])) ∨
    (Misses x i ∧ ∃ raw,
      x.step i = (⟨.kpms, some raw, x.metrics, x.interfResFinal⟩, [x.releaseCommand, kCommand])) := by
  have hsorted (range : Int32 × Int32) : (sortedRange range).1 ≤ (sortedRange range).2 := by
    unfold sortedRange
    split
    · assumption
    · exact Int32.le_of_lt (Int32.not_le.mp ‹_›)
  cases i with
  | kpms curr =>
    simp only [step]
    split
    · rename_i h
      cases hhigh : isHigh curr with
      | true => exact .inr (.inl ⟨curr, hhigh, rfl⟩)
      | false => exact .inr (.inr (.inl ⟨curr, h.1, by simp [releaseCommand, hhigh]⟩))
    · exact .inl rfl
  | spectrogram raw interfRes =>
    simp only [step]
    split
    · rename_i h
      cases interfRes with
      | none => exact .inr (.inr (.inr (.inr (.inr ⟨⟨raw, rfl, h⟩, raw, rfl⟩))))
      | some range =>
        cases hc : confirmed (sortedRange range) with
        | true => exact .inr (.inr (.inr (.inl ⟨raw, sortedRange range, hc, by simp [hc]⟩)))
        | false =>
          exact .inr (.inr (.inr (.inr (.inl ⟨raw, sortedRange range, hsorted range, by simp [hc]⟩))))
    · exact .inl rfl

theorem keeps_next {x : RadarXapp ρ} (h : x.Keeps) (i : RadarInput ρ) : (x.next i).Keeps := by
  obtain ⟨hhigh, hle⟩ := h
  rcases step_cases x i with hi | ⟨curr, hcurr, hi⟩ | ⟨curr, hmode, hi⟩ | ⟨raw, range, hc, hi⟩ |
    ⟨raw, range, hrange, hi⟩ | ⟨-, raw, hi⟩ <;> rw [next, hi]
  · exact ⟨hhigh, hle⟩
  · exact ⟨fun _ => hcurr, hle⟩
  · exact ⟨fun hiqs => by simp [hmode] at hiqs, hle⟩
  · simp only [confirmed, Bool.and_eq_true, decide_eq_true_eq] at hc
    exact ⟨nofun, Int32.le_of_lt hc.1.1.2⟩
  · exact ⟨hhigh, hrange⟩
  · exact ⟨nofun, hle⟩

theorem step_of_misses {x : RadarXapp ρ} (h : x.Keeps) {i : RadarInput ρ} (hi : x.Misses i) :
    (x.step i).2 = [prbCommand x.interfResFinal, kCommand] := by
  obtain ⟨raw, rfl, hnew⟩ := hi
  have hrelease : x.releaseCommand = prbCommand x.interfResFinal := if_pos (h.1 hnew.1)
  rw [← hrelease, step, if_pos hnew]
  rfl

/-- A range that is retained is inside of the cell. -/
def RetainsInCell (x : RadarXapp ρ) (i : RadarInput ρ) : Prop :=
  x.Misses i → InCell x.interfResFinal

/-- Every PRB command has a range in order. Only one that is retained can be outside of the cell. -/
theorem step_ranges {x : RadarXapp ρ} (h : x.Keeps) (i : RadarInput ρ) :
    ∀ m ∈ (x.step i).2, m.length = 8 → ∃ range, m = prbCommand range ∧ range.1 ≤ range.2 ∧
      (x.RetainsInCell i → InCell range) := by
  intro m hm hlen
  rcases step_cases x i with hi | ⟨curr, -, hi⟩ | ⟨curr, -, hi⟩ | ⟨raw, range, hc, hi⟩ |
    ⟨raw, range, -, hi⟩ | ⟨hmiss, raw, hi⟩ <;> rw [hi] at hm
  · cases hm
  · simp [List.mem_singleton.mp hm, iCommand] at hlen
  · exact ⟨(0, 0), List.mem_singleton.mp hm, Int32.le_refl 0, fun _ => ⟨Int32.le_refl 0, by decide⟩⟩
  · simp only [confirmed, Bool.and_eq_true, decide_eq_true_eq] at hc
    exact ⟨range, List.mem_singleton.mp hm, Int32.le_of_lt hc.1.1.2,
      fun _ => ⟨Int32.le_of_lt hc.1.1.1, hc.2⟩⟩
  · cases hm
  · have hsent := step_of_misses h hmiss
    rw [hi] at hsent
    rcases List.mem_pair.mp (hsent ▸ hm) with rfl | rfl
    · exact ⟨_, rfl, h.2, fun hin => hin hmiss⟩
    · simp [kCommand] at hlen

/-- The mode follows the last message of a round. -/
theorem next_iqs_iff (x : RadarXapp ρ) (i : RadarInput ρ) :
    (x.next i).currentMode = .iqs ↔
      (x.step i).2.getLast?.elim (x.currentMode = .iqs) (· = iCommand) := by
  rcases step_cases x i with hi | ⟨curr, -, hi⟩ | ⟨curr, hmode, hi⟩ | ⟨raw, range, -, hi⟩ |
    ⟨raw, range, -, hi⟩ | ⟨-, raw, hi⟩ <;> simp [next, hi, prbCommand_ne]
  · simp [hmode]
  · decide

end RadarXapp

/-! ### Runs -/

namespace RadarLoop

theorem inputs_moves (ms : List RelayMove) : inputs (ms.map .inr : List (RadarEvent ρ)) = [] := by
  induction ms with
  | nil => rfl
  | cons m ms ih => exact ih

variable [DecidableEq ρ]

theorem exec_eq : ∀ (es : List (RadarEvent ρ)) (s : RadarLoop ρ),
    exec step s es = ⟨exec RadarXapp.next s.xapp (inputs es),
      exec Relay.next s.imi (relaySteps s.xapp es),
      (outputs Relay.step s.imi (relaySteps s.xapp es)).flatten.foldl handleMessage s.prbFile⟩ := by
  intro es
  induction es with
  | nil => intro s; rfl
  | cons e es ih =>
    intro s
    rw [exec_cons, ih]
    cases e <;> simp [step, inputs, relaySteps, relayStep, outputs, Relay.next, List.foldl_append]

theorem relaySteps_moves (x : RadarXapp ρ) (ms : List RelayMove) :
    relaySteps x (ms.map .inr) = ms.map .inr := by
  induction ms with
  | nil => rfl
  | cons m ms ih => exact congrArg (.inr m :: ·) ih

theorem sentBy_relaySteps : ∀ (es : List (RadarEvent ρ)) (x : RadarXapp ρ),
    Relay.sentBy (relaySteps x es) = (outputs RadarXapp.step x (inputs es)).flatten := by
  intro es
  induction es with
  | nil => intro x; rfl
  | cons e es ih =>
    intro x
    cases e <;> simp [relaySteps, Relay.sentBy, inputs, outputs, ih, RadarXapp.next]

theorem sampled (es : List (RadarEvent ρ)) :
    Relay.Sampled (kCommand :: sent (inputs es))
      (received es ++ (exec Relay.next ⟨[], kCommand, []⟩ (relaySteps .init es)).outgoing) := by
  rw [sent, ← sentBy_relaySteps]
  exact Relay.sampled_run ⟨[], kCommand, []⟩ ⟨rfl, rfl⟩ _

/-- In every interleaving the xApp waits for spectrograms exactly while `b'i'` is the newest
command: the last message in flight to the IMI, or the one that the IMI holds. -/
theorem mode_iqs_iff_newest (es : List (RadarEvent ρ)) :
    (exec step init es).xapp.currentMode = .iqs ↔ (exec step init es).imi.newest = iCommand := by
  refine exec_invariant (fun s : RadarLoop ρ => s.xapp.currentMode = .iqs ↔ s.imi.newest = iCommand)
    ?_ es init (by simp [init, RadarXapp.init, Relay.newest, kCommand, iCommand])
  intro s e hs
  cases e with
  | inr m =>
    show s.xapp.currentMode = .iqs ↔ (s.imi.next (.inr m)).newest = iCommand
    rwa [Relay.newest_move]
  | inl i =>
    show (s.xapp.next i).currentMode = .iqs ↔ _
    rw [RadarXapp.next_iqs_iff, step, relayStep, Relay.newest_send]
    cases (s.xapp.step i).2.getLast? with
    | none => exact hs
    | some m => rfl

/-- What the eNB got, and what is in flight to it, are the commands in their order, each some number
of times. The PRB file comes from what it got. -/
theorem prbFile_sampled (es : List (RadarEvent ρ)) :
    Relay.Sampled (kCommand :: sent (inputs es))
      (received es ++ (exec step init es).imi.outgoing) ∧
      (exec step init es).prbFile = (received es).foldl handleMessage none := by
  rw [exec_eq]
  exact ⟨sampled es, rfl⟩

theorem foldl_handleMessage (ms : List Message) (prbFile : Option Message) :
    ms.foldl handleMessage prbFile =
      (ms.filter fun m => m.length = 8).getLast?.or prbFile := by
  induction ms generalizing prbFile with
  | nil => rfl
  | cons m ms ih =>
    rw [List.foldl_cons, ih, handleMessage]
    by_cases hlen : m.length = 8
    · simp only [hlen, if_true, List.filter_cons, decide_true, List.getLast?_cons]
      cases (ms.filter fun m => m.length = 8).getLast? <;> rfl
    · simp [hlen]

theorem sent_ranges : ∀ (is : List (RadarInput ρ)) (x : RadarXapp ρ), x.Keeps →
    ∀ m ∈ (outputs RadarXapp.step x is).flatten, m.length = 8 →
      ∃ range, m = prbCommand range ∧ range.1 ≤ range.2 ∧
        (ExecWithin RadarXapp.next RadarXapp.RetainsInCell x is → InCell range) := by
  intro is
  induction is with
  | nil => intro x _ m hm; cases hm
  | cons i is ih =>
    intro x hx m hm hlen
    simp only [outputs, List.flatten_cons, List.mem_append] at hm
    rcases hm with hnow | hlater
    · obtain ⟨range, rfl, hle, hin⟩ := RadarXapp.step_ranges hx i m hnow hlen
      exact ⟨range, rfl, hle, fun hw => hin hw.1⟩
    · obtain ⟨range, rfl, hle, hin⟩ := ih _ (RadarXapp.keeps_next hx i) m hlater hlen
      exact ⟨range, rfl, hle, fun hw => hin hw.2⟩

/-- What the scheduler reads is the range of a command, or that of the first PRB. -/
theorem prbRange_cases (es : List (RadarEvent ρ)) :
    ∃ range : Int32 × Int32, (range = (0, 0) ∨ prbCommand range ∈ sent (inputs es)) ∧
      range.1 ≤ range.2 ∧ (ExecWithin RadarXapp.next RadarXapp.RetainsInCell .init (inputs es) →
        InCell range) ∧
      prbRange (exec step init es).prbFile = (range.1.toInt, range.2.toInt) := by
  have hfile : (exec step init es).prbFile = (received es).foldl handleMessage none := by
    rw [exec_eq]
    rfl
  rw [hfile, foldl_handleMessage, Option.or_none]
  cases hlast : ((received es).filter fun m => m.length = 8).getLast? with
  | none => exact ⟨(0, 0), .inl rfl, Int32.le_refl 0, fun _ => ⟨Int32.le_refl 0, by decide⟩, rfl⟩
  | some m =>
    have hm := List.mem_filter.mp (List.mem_of_getLast? hlast)
    have hlen : m.length = 8 := of_decide_eq_true hm.2
    rcases List.mem_cons.mp ((sampled es).mem (List.mem_append_left _ hm.1)) with rfl | hsent
    · simp [kCommand] at hlen
    · obtain ⟨range, rfl, hle, hin⟩ := sent_ranges _ _ RadarXapp.keeps_init m hsent hlen
      exact ⟨range, .inr hsent, hle, hin, prbRange_prbCommand range⟩

/-- In every state of every run a subframe blanks one range of PRBs, which is not empty: PRB 0, or
a range that the xApp has sent. -/
theorem blanked_range (sched : SfSched 50 g κ) (es : List (RadarEvent ρ)) :
    ∃ range : Int32 × Int32, (range = (0, 0) ∨ prbCommand range ∈ sent (inputs es)) ∧
      range.1 ≤ range.2 ∧ ∀ blanked, blankPrbs (exec step init es).prbFile sched = some blanked →
        InCell range ∧ ∀ prb : Nat, blanked.ulMask.Has prb ↔
          sched.ulMask.Has prb ∨ range.1.toInt ≤ prb ∧ (prb : Int) ≤ range.2.toInt := by
  obtain ⟨range, hsent, hle, -, hread⟩ := prbRange_cases es
  refine ⟨range, hsent, hle, fun blanked h => ?_⟩
  obtain ⟨hsome, hmarks⟩ := blankPrbs_spec (by decide) (exec step init es).prbFile sched
  rw [hread] at hsome hmarks
  have hin : InCell range := (inCell_iff hle).mpr (hsome.mp ⟨blanked, h⟩)
  refine ⟨hin, fun prb => ?_⟩
  rw [hmarks blanked h prb]
  have hlt : range.2.toInt < 50 := Int32.lt_iff_toInt_lt.mp hin.2
  exact or_congr_right ⟨fun hprb => hprb.2, fun hprb => ⟨by omega, hprb⟩⟩

/-! ### Safety of the scheduler -/

theorem within_of_fits (sched : SfSched 50 g κ) :
    ∀ (is : List (RadarInput ρ)) (s : RadarLoop ρ), s.xapp.Keeps → s.imi.outgoing = [] →
      (∀ es, inputs es <+: is → ∃ blanked, blankPrbs (exec step s es).prbFile sched = some blanked) →
      ExecWithin RadarXapp.next RadarXapp.RetainsInCell s.xapp is := by
  intro is
  induction is with
  | nil => exact fun s _ _ _ => trivial
  | cons i is ih =>
    intro s hkeeps hout hfits
    refine ⟨fun hmiss => ?_, ih (step s (.inl i)) (RadarXapp.keeps_next hkeeps i) hout fun es hes =>
      hfits (.inl i :: es) (List.cons_prefix_cons.mpr ⟨rfl, hes⟩)⟩
    -- The retained range goes through to the eNB.
    have hrun := hfits (.inl i :: (Relay.drain (s.imi.incoming.length + 1)).map .inr)
      (by simp [inputs, inputs_moves])
    have himi : (step s (.inl i)).imi =
        ⟨s.imi.incoming ++ prbCommand s.xapp.interfResFinal :: [kCommand], s.imi.held, []⟩ := by
      rw [← RadarXapp.step_of_misses hkeeps hmiss, ← hout]
      rfl
    rw [exec_cons, exec_eq, relaySteps_moves, himi, Relay.outputs_drain] at hrun
    have hfile := (blankPrbs_spec (by decide) (some (prbCommand s.xapp.interfResFinal)) sched).1.mp hrun
    rw [prbRange_prbCommand] at hfile
    exact (inCell_iff hkeeps.2).mpr hfile

/-- For given inputs of the xApp, the scheduler of a cell with 50 PRBs fails in no interleaving if
and only if no range outside of the cell is retained. -/
theorem blankPrbs_iff_retained (sched : SfSched 50 g κ) (is : List (RadarInput ρ)) :
    (∀ es, inputs es <+: is →
      ∃ blanked, blankPrbs (exec step (init : RadarLoop ρ) es).prbFile sched = some blanked) ↔
      ExecWithin RadarXapp.next RadarXapp.RetainsInCell .init is := by
  constructor
  · exact fun h => within_of_fits sched is init RadarXapp.keeps_init rfl h
  · rintro h es ⟨rest, rfl⟩
    obtain ⟨range, -, hle, hin, hread⟩ := prbRange_cases es
    rw [(blankPrbs_spec (by decide) _ sched).1, hread, ← inCell_iff hle]
    exact hin (execWithin_append.mp h).1

end RadarLoop

end Odss.Ric
