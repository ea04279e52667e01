import Odss.Mac.Slicer

/-!
# `Odss.Ric.NexRan`: control requests of the NexRAN service model

The NexRAN service model (`srsenb/src/ric/e2sm_nexran.cc`) passes the control requests of the
RIC to the eNB slicer. It keeps tables of its own: the configured slices, and for each slice the
IMSIs bound to it, as the texts that the requests carry. A request is refused, or it changes the
tables of the model and then the slicer.

The ASN.1 library is not modelled. A request comes decoded, or as a message that the decoder or
the checks before it refuse; whether an answer can be encoded is part of the input. `none` is a
request that does not return: an exception of `std::stoul`, an erasure at the end of a list, an
increment of an erased iterator, or undefined behaviour of the slicer.
-/

set_option linter.all false

namespace Odss.Ric

open Odss.Lib Odss.Mac

/-- The bytes of an `OCTET STRING`. -/
abbrev Octets := List UInt8

/-! ### Texts to numbers -/

/-- `isspace`, in the C locale. -/
def isSpace (c : UInt8) : Bool := c == 32 || (9 ≤ c && c ≤ 13)

/-- `isdigit` -/
def isDigit (c : UInt8) : Bool := 48 ≤ c && c ≤ 57

/-- The value of a sequence of decimal digits. -/
def digitsValue (digits : List UInt8) : Nat :=
  digits.foldl (fun value digit => 10 * value + (digit.toNat - 48)) 0

/-- `std::stoul` in base ten. It skips leading blanks, takes a sign, and ignores what follows the
digits. It throws for a text without a digit, and for a number beyond 64 bits. -/
def stoul (text : Octets) : Option Nat :=
  match text.dropWhile isSpace with
  | [] => none
  | c :: rest =>
    let digits := (if c == 43 || c == 45 then rest else c :: rest).takeWhile isDigit
    let value := digitsValue digits
    if digits = [] then none
    else if 2 ^ 64 ≤ value then none
    -- A negative number wraps.
    else some (if c == 45 then (2 ^ 64 - value) % 2 ^ 64 else value)

/-! ### The tables of the model -/

variable {κ : Type} [LinearOrder κ]

/-- The tables of `nexran_model`. The pointers of `slices` are their configurations. -/
structure NexRan (κ : Type) [LinearOrder κ] where
  slices : OrdMap κ (SliceConfig κ)
  ues : OrdMap κ (List Octets)

/-- The model together with the slicer that it controls. -/
structure E2Node (κ : Type) [LinearOrder κ] where
  model : NexRan κ
  slicer : Slicer κ

/-- A decoded `E2SM-NexRAN-ControlMessage-Format1`. -/
inductive Request (κ : Type) where
  | sliceConfig (sliceConfigList : List (κ × Int))
  | sliceDelete (sliceNameList : List κ)
  | sliceStatus (sliceNameList : List κ)
  | sliceUeBind (sliceName : κ) (imsiList : List Octets)
  | sliceUeUnbind (sliceName : κ) (imsiList : List Octets)

namespace NexRan

/-- The IMSIs of a slice, as the subscript of `ues` reads them. Each slice of the model has an
entry, so the subscript creates none. -/
def uesOf (m : NexRan κ) (name : κ) : List Octets := (m.ues.find? name).getD []

/-- One iteration of the loop over a `SliceConfigRequest`. A slice that is configured again keeps
its UEs. -/
def configSlice (m : NexRan κ) (config : SliceConfig κ) : NexRan κ where
  slices := m.slices.insert config.name config
  ues := if m.ues.contains config.name then m.ues else m.ues.insert config.name []

/-- One iteration of the loop over a `SliceDeleteRequest`. -/
def deleteSlice (m : NexRan κ) (name : κ) : NexRan κ where
  slices := m.slices.erase name
  ues := m.ues.erase name

end NexRan

/-- The loop over the IMSIs of a bind or an unbind request. The request is refused (`some none`) at
the first IMSI that `refuse` applies to; the IMSIs before it are converted already. -/
def convertImsis (refuse : Octets → Bool) : List Octets → Option (Option (List Imsi))
  | [] => some (some [])
  | text :: texts =>
    if refuse text then some none
    else do
      let imsi ← stoul text
      let imsis ← convertImsis refuse texts
      return imsis.map (imsi :: ·)

/-- What the unbind request leaves of the UEs of a slice. The first entry is erased unseen. The
loop over the rest erases an entry that `unbinds` has and then increments its iterator, which is
not valid any more. -/
def eraseUnbound (unbinds : List Octets) : List Octets → Option (List Octets)
  | [] => none
  | _ :: rest => if rest.any (· ∈ unbinds) then none else some rest

namespace E2Node

/-- The `switch` of `handle_control`: the flag is `ret == 0`. -/
def handleRequest (n : E2Node κ) : Request κ → Option (E2Node κ × Bool)
  | .sliceConfig sliceConfigList => do
    let configs := sliceConfigList.map fun sc => (⟨sc.1, UInt32.ofInt sc.2⟩ : SliceConfig κ)
    let (slicer, _) ← n.slicer.sliceConfig configs
    return (⟨configs.foldl NexRan.configSlice n.model, slicer⟩, true)
  | .sliceDelete sliceNameList =>
    -- We need to delete all or none.
    if sliceNameList.any fun name => !n.model.slices.contains name then some (n, false)
    else do
      let (slicer, _) ← n.slicer.sliceDelete sliceNameList
      return (⟨sliceNameList.foldl NexRan.deleteSlice n.model, slicer⟩, true)
  | .sliceStatus sliceNameList =>
    some ({ n with slicer := (n.slicer.sliceStatus sliceNameList).1 }, true)
  | .sliceUeBind sliceName imsiList =>
    if !n.model.slices.contains sliceName then some (n, false)
    else do
      let bound := n.model.uesOf sliceName
      match ← convertImsis (fun text => text ∈ bound) imsiList with
      | none => return (n, false)
      | some imsis =>
        return (⟨{ n.model with ues := n.model.ues.insert sliceName (bound ++ imsiList) },
          (n.slicer.sliceUeBind sliceName imsis).1⟩, true)
  | .sliceUeUnbind sliceName imsiList =>
    if !n.model.slices.contains sliceName then some (n, false)
    else do
      let bound := n.model.uesOf sliceName
      match ← convertImsis (fun text => text ∉ bound) imsiList with
      | none => return (n, false)
      | some imsis =>
        let rest ← eraseUnbound imsiList bound
        return (⟨{ n.model with ues := n.model.ues.insert sliceName rest },
          (n.slicer.sliceUeUnbind sliceName imsis).1⟩, true)

end E2Node

/-! ### `handle_control` -/

/-- What a `RICcontrolRequest` carries.

- `missing`: no header or no message;
- `unsupported`: a header or a message that cannot be decoded, or of another format;
- `request`: a decoded request. -/
inductive Contents (κ : Type) where
  | missing
  | unsupported
  | request (r : Request κ)

/-- `ric::control_t`. `encodes` is whether the answer can be generated. -/
structure Control (κ : Type) where
  contents : Contents κ
  requestAck : Bool
  encodes : Bool

/-- The answer to a control request.

- `acknowledge`: `RICcontrolAcknowledge` with the status of all slices;
- `failure`: `RICcontrolFailure`;
- `silent`: nothing is sent. -/
inductive Answer (κ : Type) where
  | acknowledge (statuses : List (SliceStatus κ))
  | failure (cause causeDetail : Nat)
  | silent

namespace E2Node

/-- The error exit. -/
def errout (c : Control κ) (cause causeDetail : Nat) : Answer κ :=
  if c.encodes then .failure cause causeDetail else .silent

/-- `handle_control`. A request without header or message sets `cause` twice, and leaves
`cause_detail`. -/
def handleControl (n : E2Node κ) (c : Control κ) : Option (E2Node κ × Answer κ) :=
  match c.contents with
  | .missing => some (n, errout c 8 0)
  | .unsupported => some (n, errout c 1 8)
  | .request r => do
    let (n', ok) ← n.handleRequest r
    if !ok then return (n', errout c 1 8)
    else if c.requestAck then
      let (slicer, statuses) := n'.slicer.sliceStatus []
      return ({ n' with slicer := slicer }, if c.encodes then .acknowledge statuses else .silent)
    else return (n', .silent)

/-- The node before the first request. -/
def init (slicedUnslicedRatio : UInt32) : E2Node κ where
  model := ⟨∅, ∅⟩
  slicer := Slicer.init slicedUnslicedRatio

end E2Node

end Odss.Ric
