import Odss.Lib.Relay
import Odss.Mac.SchedTimePf

/-!
# `Odss.Ric.RadarXapp`: the control loop between the xApp, the IMI and the eNB

The xApp (`entry` in `radarxApp/radar.py`) looks for radar in the KPMs, and then in spectrograms for
the PRBs that the radar covers. Its messages go to the IMI (`imi/imi.py`), where
`handle_xAppClient` keeps the last one as `command`, and `handle_clients` sends it to the eNB again
and again. The agent of the eNB (`handle_message` in `srsenb/src/ric/agent.cc`, with `E2_LIKE`)
writes the PRBs to the file that `sched_ul_users` reads.

The connections stand and keep the messages apart and in order. The reports and the detections are
inputs, and the answers of the classifier, which the xApp replaces by its own, are left out, as are
the data that the eNB sends back. The metrics are finite, and the PRBs of a detection are `int`.
-/

set_option linter.all false

namespace Odss.Ric

open Odss.Lib Odss.Mac.TimePf

abbrev Message := List UInt8

/-- `b'i'`, for spectrograms -/
def iCommand : Message := [105]

/-- `b'k'`, for KPMs -/
def kCommand : Message := [107]

/-- An `int` of `array.array('i', …).tobytes()` -/
def intBytes (v : Int32) : List UInt8 :=
  let n := v.toBitVec.toNat
  [.ofNat n, .ofNat (n / 2 ^ 8), .ofNat (n / 2 ^ 16), .ofNat (n / 2 ^ 24)]

/-- The command for the PRBs of a range. -/
def prbCommand (range : Int32 × Int32) : Message := intBytes range.1 ++ intBytes range.2

inductive Mode where
  | kpms
  | iqs
deriving DecidableEq

/-- The variables of `entry`. `metrics` is `prev_extracted_metrics`, too, and empty before the
first report. -/
structure RadarXapp (ρ : Type) where
  currentMode : Mode
  prevRawBytes : Option ρ
  metrics : List ℚ
  interfResFinal : Int32 × Int32

/-- What the xApp reads: the metrics of the last two reports, or a spectrogram, with the PRBs of
a detection if `run_prediction` makes one. -/
inductive RadarInput (ρ : Type) where
  | kpms (currExtractedMetrics : List ℚ)
  | spectrogram (currRawBytes : ρ) (interfRes : Option (Int32 × Int32))

namespace RadarXapp

variable {ρ : Type} [DecidableEq ρ]

def init : RadarXapp ρ := ⟨.kpms, none, [], (0, 0)⟩

/-- The block error rate of one of the two reports is high. -/
def isHigh (metrics : List ℚ) : Bool := 5 ≤ metrics.getD 2 0 || 5 ≤ metrics.getD 7 0

/-- The command after no radar was seen: to retain the PRBs, or to give them back. -/
def releaseCommand (x : RadarXapp ρ) : Message :=
  if isHigh x.metrics then prbCommand x.interfResFinal else prbCommand (0, 0)

/-- `sorted` -/
def sortedRange (range : Int32 × Int32) : Int32 × Int32 :=
  if range.1 ≤ range.2 then range else (range.2, range.1)

/-- The check of a range before it is sent. -/
def confirmed (range : Int32 × Int32) : Bool :=
  range.1 > 0 && range.2 > range.1 && range.1 < 50 && range.2 < 50

/-- A round of the loop, with the messages that it sends. -/
def step (x : RadarXapp ρ) : RadarInput ρ → RadarXapp ρ × List Message
  | .kpms curr =>
    if x.currentMode = .kpms ∧ curr.length = 10 ∧ curr ≠ x.metrics then
      let x := { x with metrics := curr }
      -- The prediction is `isHigh`.
      if isHigh x.metrics then ({ x with currentMode := .iqs }, [iCommand])
      else (x, [x.releaseCommand])
    else (x, [])
  | .spectrogram raw interfRes =>
    if x.currentMode = .iqs ∧ x.prevRawBytes ≠ some raw then
      let x := { x with prevRawBytes := some raw }
      match interfRes with
      | some range =>
        let x := { x with interfResFinal := sortedRange range }
        if confirmed x.interfResFinal then
          ({ x with currentMode := .kpms }, [prbCommand x.interfResFinal])
        else (x, [])
      | none => ({ x with currentMode := .kpms }, [x.releaseCommand, kCommand])
    else (x, [])

/-- The state after a round. -/
def next (x : RadarXapp ρ) (i : RadarInput ρ) : RadarXapp ρ := (x.step i).1

end RadarXapp

/-- The part of `handle_message` that writes the PRB file. -/
def handleMessage (prbFile : Option Message) (pdu : Message) : Option Message :=
  if pdu.length = 8 then some pdu else prbFile

/-- The xApp, the IMI with its `command` and the messages to and from it, and the PRB file. -/
structure RadarLoop (ρ : Type) where
  xapp : RadarXapp ρ
  imi : Relay Message
  prbFile : Option Message

/-- A round of the xApp, or one message that the IMI takes or serves, or that the eNB handles. -/
abbrev RadarEvent (ρ : Type) := RadarInput ρ ⊕ RelayMove

namespace RadarLoop

variable {ρ : Type} [DecidableEq ρ]

def init : RadarLoop ρ := ⟨.init, ⟨[], kCommand, []⟩, none⟩

/-- What an event is for the IMI: the messages of the xApp, or a move of its own. -/
def relayStep (x : RadarXapp ρ) : RadarEvent ρ → List Message ⊕ RelayMove
  | .inl i => .inl (x.step i).2
  | .inr m => .inr m

def step (s : RadarLoop ρ) (e : RadarEvent ρ) : RadarLoop ρ where
  xapp := e.elim s.xapp.next fun _ => s.xapp
  imi := s.imi.next (relayStep s.xapp e)
  prbFile := (s.imi.step (relayStep s.xapp e)).2.foldl handleMessage s.prbFile

/-- The inputs of the xApp in a run. -/
def inputs : List (RadarEvent ρ) → List (RadarInput ρ)
  | [] => []
  | .inl i :: es => i :: inputs es
  | .inr _ :: es => inputs es

/-- What a run is for the IMI. -/
def relaySteps : RadarXapp ρ → List (RadarEvent ρ) → List (List Message ⊕ RelayMove)
  | _, [] => []
  | x, .inl i :: es => .inl (x.step i).2 :: relaySteps (x.next i) es
  | x, .inr m :: es => .inr m :: relaySteps x es

/-- The messages that the eNB gets in a run. -/
def received (es : List (RadarEvent ρ)) : List Message :=
  (outputs Relay.step ⟨[], kCommand, []⟩ (relaySteps .init es)).flatten

/-- The messages that the xApp sends for its inputs. -/
def sent (is : List (RadarInput ρ)) : List Message := (outputs RadarXapp.step .init is).flatten

end RadarLoop

end Odss.Ric
