import Odss.Common.Security

/-!
# `Odss.Ue.Usim`: the response of the USIM to an authentication request

`generate_authentication_response` of the class `usim` (`srsue/src/stack/upper/usim.cc`). The members that a call only
writes for its own use are local here.
-/

set_option linter.all false

namespace Odss.Ue

open Odss.Common

/-- `auth_algo_t` -/
inductive UsimAlgo where
  | milenage
  | xor
deriving DecidableEq, Repr

/-- `auth_result_t` without `AUTH_SYNCH_FAILURE`, which is never returned -/
inductive AuthResult where
  | ok
  | failed
deriving DecidableEq, Repr

/-- The class `usim` -/
structure Usim where
  authAlgo : UsimAlgo
  k : Octets 16
  opc : Octets 16

/-- What `gen_auth_res_milenage` and `gen_auth_res_xor` leave behind. `res` has the `res_len` bytes. -/
structure AuthRes where
  result : AuthResult
  res : Octets 8
  ck : Octets 16
  ik : Octets 16
  akXorSqn : Octets 6

namespace Usim

variable (sec : Security)

/-- The comparison of the AUTN that was computed with the one of the network -/
def compareAutn (autn autnEnb : Octets 16) : AuthResult :=
  if ∀ i, autn i = autnEnb i then .ok else .failed

/-- `gen_auth_res_milenage` -/
def genAuthResMilenage (u : Usim) (rand autnEnb : Octets 16) : AuthRes :=
  let f := sec.milenageF2345 u.k u.opc rand
  let sqn := autnSqn autnEnb f.ak
  let amf := autnAmf autnEnb
  let mac := sec.milenageF1 u.k u.opc rand sqn amf
  { result := compareAutn (makeAutn sqn f.ak amf mac) autnEnb
    res := f.res
    ck := f.ck
    ik := f.ik
    akXorSqn := fun i => sqn i ^^^ f.ak i }

/-- `gen_auth_res_xor` -/
def genAuthResXor (u : Usim) (rand autnEnb : Octets 16) : AuthRes :=
  let f := securityXorF2345 u.k rand
  let sqn := autnSqn autnEnb f.ak
  let amf := autnAmf autnEnb
  let mac := securityXorF1 u.k rand sqn amf
  { result := compareAutn (makeAutn sqn f.ak amf mac) autnEnb
    res := fun i => f.res ⟨i, octet_lt i⟩
    ck := f.ck
    ik := f.ik
    akXorSqn := fun i => sqn i ^^^ f.ak i }

/-- The branch on the algorithm in `generate_authentication_response` -/
def genAuthRes (u : Usim) (rand autnEnb : Octets 16) : AuthRes :=
  match u.authAlgo with
  | .xor => u.genAuthResXor rand autnEnb
  | .milenage => u.genAuthResMilenage sec rand autnEnb

/-- `generate_authentication_response`: the result, `res`, and `k_asme` if it is written -/
def generateAuthenticationResponse (u : Usim) (rand autnEnb : Octets 16) (mcc mnc : UInt16) :
    AuthResult × Octets 8 × Option (Octets 32) :=
  let r := u.genAuthRes sec rand autnEnb
  (r.result, r.res,
    match r.result with
    | .ok => some (sec.generateKAsme r.ck r.ik r.akXorSqn mcc mnc)
    | .failed => none)

end Usim

end Odss.Ue
