import Odss.Common.Security
import Odss.Lib.OrdMap

/-!
# `Odss.Epc.Hss`: authentication and resynchronisation at the HSS

The class `hss` (`srsepc/src/hss/hss.cc`) with the members of a user that authentication reads and writes. The bytes of
`gen_rand` are an argument of the call.
-/

set_option linter.all false

namespace Odss.Epc

open Odss.Common Odss.Lib

/-- `hss_auth_algo` -/
inductive AuthAlgo where
  | xor
  | milenage
deriving DecidableEq, Repr

/-- `hss_ue_ctx_t` -/
structure UeCtx where
  algo : AuthAlgo
  key : Octets 16
  opc : Octets 16
  amf : Octets 2
  sqn : Octets 6
  lastRand : Octets 16

/-- The class `hss`, with `m_imsi_to_ue_ctx` -/
structure Hss where
  mcc : UInt16
  mnc : UInt16
  imsiToUeCtx : OrdMap Nat UeCtx

/-- What `gen_auth_info_answer` returns. `xres` has the bytes that it writes. -/
structure AuthInfo where
  kAsme : Octets 32
  autn : Octets 16
  rand : Octets 16
  xres : List UInt8

namespace Hss

/-! ### Sequence numbers -/

/-- `LTE_FDD_ENB_IND_HE_N_BITS` -/
def indBits : Nat := 5

/-- `LTE_FDD_ENB_IND_HE_MASK` -/
def indMask : Nat := 0x1F

/-- `LTE_FDD_ENB_IND_HE_MAX_VALUE` -/
def indMaxValue : Nat := 31

/-- `LTE_FDD_ENB_SEQ_HE_MAX_VALUE` -/
def seqMaxValue : Nat := 0x07FFFFFFFFFF

/-- `sqn64` -/
def sqn64 (sqn : Octets 6) : Nat :=
  (List.finRange 6).foldl (fun n i => n ||| (sqn i).toNat <<< ((5 - i.val) * 8)) 0

/-- The bytes of a sequence number -/
def putSqn (nextsqn : Nat) : Octets 6 := fun i => UInt8.ofNat (nextsqn >>> ((5 - i.val) * 8) &&& 0xFF)

/-- The part SEQ of a sequence number -/
def seqOf (sqn : Octets 6) : Nat := sqn64 sqn >>> indBits

/-- The part IND of a sequence number -/
def indOf (sqn : Octets 6) : Nat := sqn64 sqn &&& indMask

/-- `increment_sqn` -/
def incrementSqn (sqn : Octets 6) : Octets 6 :=
  let nextseq := (seqOf sqn + 1) % seqMaxValue
  let nextind := (indOf sqn + 1) % indMaxValue
  putSqn (nextseq <<< indBits ||| nextind)

/-- `increment_seq_after_resync` -/
def incrementSeqAfterResync (sqn : Octets 6) : Octets 6 :=
  let nextseq := (seqOf sqn + 1) % seqMaxValue
  putSqn (nextseq <<< indBits ||| indOf sqn)

variable (sec : Security)

/-! ### Authentication -/

/-- `gen_auth_info_answer_milenage` -/
def genAuthInfoAnswerMilenage (s : Hss) (ctx : UeCtx) (rand : Octets 16) : UeCtx × AuthInfo :=
  let f := sec.milenageF2345 ctx.key ctx.opc rand
  let mac := sec.milenageF1 ctx.key ctx.opc rand ctx.sqn ctx.amf
  let akXorSqn : Octets 6 := fun i => ctx.sqn i ^^^ f.ak i
  ({ ctx with lastRand := rand },
    { kAsme := sec.generateKAsme f.ck f.ik akXorSqn s.mcc s.mnc
      autn := makeAutn ctx.sqn f.ak ctx.amf mac
      rand := rand
      xres := List.ofFn f.res })

attribute [local instance] Odss.Common.neZero_octets

/-- `gen_auth_info_answer_xor` -/
def genAuthInfoAnswerXor (s : Hss) (ctx : UeCtx) (rand : Octets 16) : UeCtx × AuthInfo :=
  let xdout : Octets 16 := fun i => ctx.key i ^^^ rand i
  let ck : Octets 16 := fun i => xdout (i + 1)
  let ik : Octets 16 := fun i => xdout (i + 2)
  let ak : Octets 6 := fun i => xdout ⟨i + 3, octet_add_lt i⟩
  let mac : Octets 8 := fun i => xdout ⟨i, octet_lt i⟩ ^^^ cdout ctx.sqn ctx.amf i
  let akXorSqn : Octets 6 := fun i => ctx.sqn i ^^^ ak i
  ({ ctx with lastRand := rand },
    { kAsme := sec.generateKAsme ck ik akXorSqn s.mcc s.mnc
      autn := makeAutn ctx.sqn ak ctx.amf mac
      rand := rand
      xres := List.ofFn xdout })

/-- The `switch` of `gen_auth_info_answer` -/
def genAuthInfoAnswerAlgo (s : Hss) (ctx : UeCtx) (rand : Octets 16) : UeCtx × AuthInfo :=
  match ctx.algo with
  | .xor => s.genAuthInfoAnswerXor sec ctx rand
  | .milenage => s.genAuthInfoAnswerMilenage sec ctx rand

/-- `increment_ue_sqn` -/
def incrementUeSqn (ctx : UeCtx) : UeCtx := { ctx with sqn := incrementSqn ctx.sqn }

/-- `gen_auth_info_answer` -/
def genAuthInfoAnswer (s : Hss) (imsi : Nat) (rand : Octets 16) : Hss × Option AuthInfo :=
  match s.imsiToUeCtx.find? imsi with
  | none => (s, none)
  | some ctx =>
    let r := s.genAuthInfoAnswerAlgo sec ctx rand
    ({ s with imsiToUeCtx := s.imsiToUeCtx.insert imsi (incrementUeSqn r.1) }, some r.2)

/-! ### Resynchronisation -/

/-- The concealed SQN_MS in AUTS -/
def sqnMsXorAk (auts : Octets 14) : Octets 6 := fun i => auts ⟨i, by omega⟩

/-- MAC-S in AUTS -/
def macS (auts : Octets 14) : Octets 8 := fun i => auts ⟨i + 6, by omega⟩

/-- `sqn_ms` -/
def sqnMs (ctx : UeCtx) (auts : Octets 14) : Octets 6 := fun i =>
  sqnMsXorAk auts i ^^^ sec.milenageF5Star ctx.key ctx.opc ctx.lastRand i

/-- `mac_s_tmp`, with the AMF of zeros -/
def macSTmp (ctx : UeCtx) (auts : Octets 14) : Octets 8 :=
  sec.milenageF1Star ctx.key ctx.opc ctx.lastRand (sqnMs sec ctx auts) fun _ => 0

/-- `resync_sqn_milenage`. It computes `mac_s_tmp` and reads it for the log only. -/
def resyncSqnMilenage (ctx : UeCtx) (auts : Octets 14) : UeCtx := { ctx with sqn := sqnMs sec ctx auts }

/-- `resync_sqn_xor`, which is not supported -/
def resyncSqnXor (ctx : UeCtx) (_ : Octets 14) : UeCtx := ctx

/-- The `switch` of `resync_sqn` -/
def resyncSqnAlgo (ctx : UeCtx) (auts : Octets 14) : UeCtx :=
  match ctx.algo with
  | .xor => resyncSqnXor ctx auts
  | .milenage => resyncSqnMilenage sec ctx auts

/-- `resync_sqn`, with its return value -/
def resyncSqn (s : Hss) (imsi : Nat) (auts : Octets 14) : Hss × Bool :=
  match s.imsiToUeCtx.find? imsi with
  | none => (s, false)
  | some ctx =>
    let ctx := resyncSqnAlgo sec ctx auts
    ({ s with imsiToUeCtx :=
        s.imsiToUeCtx.insert imsi { ctx with sqn := incrementSeqAfterResync ctx.sqn } }, true)

/-! ### Calls -/

/-- A call of the HSS -/
inductive Call where
  | genAuthInfoAnswer (imsi : Nat) (rand : Octets 16)
  | resyncSqn (imsi : Nat) (auts : Octets 14)

/-- The user that a call is for -/
def Call.imsi : Call → Nat
  | .genAuthInfoAnswer imsi _ => imsi
  | .resyncSqn imsi _ => imsi

/-- The state after a call -/
def step (s : Hss) : Call → Hss
  | .genAuthInfoAnswer imsi rand => (s.genAuthInfoAnswer sec imsi rand).1
  | .resyncSqn imsi auts => (s.resyncSqn sec imsi auts).1

end Hss

end Odss.Epc
