import Odss.Epc.Hss
import Odss.Lib.Run
import Odss.Ue.Usim

/-!
# `Odss.Proofs.HssAuth`: authentication and resynchronisation over runs

* `seqOf_incrementSqn`, `seqOf_incrementSeqAfterResync`: the part SEQ goes up by one, up to the modulus.
* `genAuthInfoAnswer_accepted`: the USIM of the user accepts what the HSS sends.
* `authLaw_iff`: a run is lawful if and only if every resynchronisation that changes the SQN has the right MAC-S and
  does not wrap.
-/

set_option linter.all false

namespace Odss.Epc.Hss

open Odss.Common Odss.Lib Odss.Ue

/-! ### Sequence numbers -/

theorem or_byte (n : Nat) {k : Nat} (b : UInt8) :
    n * 2 ^ (k + 8) ||| b.toNat <<< k = (n * 2 ^ 8 + b.toNat) * 2 ^ k := by
  have hlt : b.toNat <<< k < 2 ^ (k + 8) := by
    rw [Nat.shiftLeft_eq, Nat.pow_add, Nat.mul_comm (2 ^ k)]
    exact Nat.mul_lt_mul_of_pos_right b.toNat_lt (Nat.two_pow_pos k)
  rw [← Nat.shiftLeft_eq n, ← Nat.shiftLeft_add_eq_or_of_lt hlt, Nat.shiftLeft_eq, Nat.shiftLeft_eq, Nat.pow_add,
    Nat.add_mul, Nat.mul_comm (2 ^ k), Nat.mul_assoc]

theorem sqn64_eq (sqn : Octets 6) : sqn64 sqn =
    ((((((sqn 0).toNat * 2 ^ 8 + (sqn 1).toNat) * 2 ^ 8 + (sqn 2).toNat) * 2 ^ 8 + (sqn 3).toNat) * 2 ^ 8 +
      (sqn 4).toNat) * 2 ^ 8 + (sqn 5).toNat) := by
  rw [sqn64, show List.finRange 6 = [0, 1, 2, 3, 4, 5] from rfl]
  simp only [List.foldl_cons, List.foldl_nil]
  have h₀ : 0 ||| (sqn 0).toNat <<< ((5 - (0 : Fin 6).val) * 8) = (sqn 0).toNat * 2 ^ (32 + 8) := by
    rw [Nat.zero_or, Nat.shiftLeft_eq]
    rfl
  rw [h₀, show (5 - (1 : Fin 6).val) * 8 = 32 from rfl, or_byte _ (k := 24 + 8),
    show (5 - (2 : Fin 6).val) * 8 = 24 from rfl, or_byte _ (k := 16 + 8),
    show (5 - (3 : Fin 6).val) * 8 = 16 from rfl, or_byte _ (k := 8 + 8),
    show (5 - (4 : Fin 6).val) * 8 = 8 from rfl, or_byte _ (k := 0 + 8),
    show (5 - (5 : Fin 6).val) * 8 = 0 from rfl, or_byte _ (k := 0), Nat.pow_zero, Nat.mul_one]

theorem sqn64_lt (sqn : Octets 6) : sqn64 sqn < 2 ^ 48 := by
  rw [sqn64_eq]
  have h₀ := (sqn 0).toNat_lt
  have h₁ := (sqn 1).toNat_lt
  have h₂ := (sqn 2).toNat_lt
  have h₃ := (sqn 3).toNat_lt
  have h₄ := (sqn 4).toNat_lt
  have h₅ := (sqn 5).toNat_lt
  omega

/-- The bytes of a number of 48 bits are those of the number. -/
theorem sqn64_putSqn {n : Nat} (h : n < 2 ^ 48) : sqn64 (putSqn n) = n := by
  have hbyte : ∀ i : Fin 6, (putSqn n i).toNat = n / 2 ^ ((5 - i.val) * 8) % 2 ^ 8 := by
    intro i
    rw [putSqn, show (0xFF : Nat) = 2 ^ 8 - 1 from rfl, Nat.and_two_pow_sub_one_eq_mod, Nat.shiftRight_eq_div_pow,
      UInt8.toNat_ofNat']
    exact Nat.mod_mod _ _
  rw [sqn64_eq, hbyte, hbyte, hbyte, hbyte, hbyte, hbyte]
  simp only [Fin.val_zero, Fin.val_one, Fin.val_two, show (3 : Fin 6).val = 3 from rfl, show (4 : Fin 6).val = 4 from rfl,
    show (5 : Fin 6).val = 5 from rfl]
  omega

theorem seqOf_eq (sqn : Octets 6) : seqOf sqn = sqn64 sqn / 32 := Nat.shiftRight_eq_div_pow _ 5

theorem indOf_lt (sqn : Octets 6) : indOf sqn < 32 := by
  rw [indOf, show indMask = 2 ^ 5 - 1 from rfl, Nat.and_two_pow_sub_one_eq_mod]
  exact Nat.mod_lt _ (by decide)

theorem seqOf_le (sqn : Octets 6) : seqOf sqn ≤ seqMaxValue := by
  have h := sqn64_lt sqn
  have hmax : seqMaxValue = 8796093022207 := rfl
  rw [seqOf_eq, hmax]
  omega

/-- A sequence number is put together from its parts. -/
theorem seqOf_putSqn {seq ind : Nat} (hseq : seq < 2 ^ 43) (hind : ind < 32) :
    seqOf (putSqn (seq <<< indBits ||| ind)) = seq := by
  have hor : seq <<< indBits ||| ind = seq * 32 + ind := by
    rw [indBits, ← Nat.shiftLeft_add_eq_or_of_lt (show ind < 2 ^ 5 from hind), Nat.shiftLeft_eq]
  rw [seqOf_eq, hor, sqn64_putSqn (by omega)]
  omega

theorem nextseq_lt (seq : Nat) : (seq + 1) % seqMaxValue < 2 ^ 43 :=
  Nat.lt_trans (Nat.mod_lt _ (by decide)) (by decide)

theorem seqOf_incrementSqn (sqn : Octets 6) : seqOf (incrementSqn sqn) = (seqOf sqn + 1) % seqMaxValue :=
  seqOf_putSqn (nextseq_lt _) (Nat.lt_trans (Nat.mod_lt _ (by decide)) (by decide : indMaxValue < 32))

theorem seqOf_incrementSeqAfterResync (sqn : Octets 6) :
    seqOf (incrementSeqAfterResync sqn) = (seqOf sqn + 1) % seqMaxValue :=
  seqOf_putSqn (nextseq_lt _) (indOf_lt sqn)

/-- The next SEQ is above a SEQ, unless that is at the end of the range. -/
theorem lt_nextseq_iff {seq : Nat} (h : seq ≤ seqMaxValue) :
    seq < (seq + 1) % seqMaxValue ↔ seq + 1 < seqMaxValue := by
  constructor
  · intro hlt
    by_contra hge
    have hcases : seq + 1 = seqMaxValue ∨ seq = seqMaxValue := by omega
    rcases hcases with heq | heq
    · rw [heq, Nat.mod_self] at hlt
      exact Nat.not_lt_zero _ hlt
    · rw [heq, Nat.add_mod_left, Nat.mod_eq_of_lt (by decide)] at hlt
      exact absurd hlt (by decide)
  · intro hlt
    rw [Nat.mod_eq_of_lt hlt]
    exact Nat.lt_succ_self seq

/-- The step after a resynchronisation always changes the sequence number. -/
theorem incrementSeqAfterResync_ne (sqn : Octets 6) : incrementSeqAfterResync sqn ≠ sqn := by
  intro h
  have hseq := seqOf_incrementSeqAfterResync sqn
  have hle := seqOf_le sqn
  rw [h] at hseq
  have hmax : seqMaxValue = 8796093022207 := rfl
  rw [hmax] at hseq hle
  omega

variable {sec : Security}

/-! ### What the USIM makes of an answer -/

/-- The USIM has the key, OPc and algorithm of the user. -/
structure SameUser (u : Usim) (ctx : UeCtx) : Prop where
  key : u.k = ctx.key
  opc : u.opc = ctx.opc
  algo : u.authAlgo = .xor ↔ ctx.algo = .xor

/-- The USIM accepts the answer. Its response is that of the HSS, and so is its key for the same network. -/
structure Accepted (sec : Security) (s : Hss) (u : Usim) (info : AuthInfo) (mcc mnc : UInt16) : Prop where
  result : (u.generateAuthenticationResponse sec info.rand info.autn mcc mnc).1 = .ok
  res : List.ofFn (u.generateAuthenticationResponse sec info.rand info.autn mcc mnc).2.1 = info.xres.take 8
  kAsme : mcc = s.mcc → mnc = s.mnc →
    (u.generateAuthenticationResponse sec info.rand info.autn mcc mnc).2.2 = some info.kAsme

/-- The anonymity key of a user -/
def akOf (sec : Security) (ctx : UeCtx) (rand : Octets 16) : Octets 6 :=
  match ctx.algo with
  | .xor => (securityXorF2345 ctx.key rand).ak
  | .milenage => (sec.milenageF2345 ctx.key ctx.opc rand).ak

/-- The part SEQ of the sequence number inside the AUTN of an answer -/
def seqInside (sec : Security) (ctx : UeCtx) (info : AuthInfo) : Nat :=
  seqOf (autnSqn info.autn (akOf sec ctx info.rand))

theorem compareAutn_self (autn : Octets 16) : Usim.compareAutn autn autn = .ok := if_pos fun _ => rfl

/-- An answer is accepted when the USIM finds the AUTN that it computes. -/
theorem accepted_of_genAuthRes {s : Hss} {u : Usim} {info : AuthInfo} {r : AuthRes}
    (h : u.genAuthRes sec info.rand info.autn = r) (hok : r.result = .ok)
    (hres : List.ofFn r.res = info.xres.take 8)
    (hkey : sec.generateKAsme r.ck r.ik r.akXorSqn s.mcc s.mnc = info.kAsme) (mcc mnc : UInt16) :
    Accepted sec s u info mcc mnc := by
  refine ⟨?_, ?_, fun hmcc hmnc => ?_⟩
  · rw [Usim.generateAuthenticationResponse, h]
    exact hok
  · rw [Usim.generateAuthenticationResponse, h]
    exact hres
  · rw [Usim.generateAuthenticationResponse, h, hmcc, hmnc]
    dsimp only
    rw [hok]
    exact congrArg some hkey

theorem accepted_answer (s : Hss) {u : Usim} {ctx : UeCtx} (h : SameUser u ctx) (rand : Octets 16)
    (mcc mnc : UInt16) : Accepted sec s u (s.genAuthInfoAnswerAlgo sec ctx rand).2 mcc mnc := by
  cases halgo : ctx.algo with
  | xor =>
    rw [genAuthInfoAnswerAlgo, halgo]
    have husim : u.authAlgo = .xor := h.algo.mpr halgo
    have hautn : (s.genAuthInfoAnswerXor sec ctx rand).2.autn = makeAutn ctx.sqn
        (securityXorF2345 ctx.key rand).ak ctx.amf (securityXorF1 ctx.key rand ctx.sqn ctx.amf) := rfl
    have hres : u.genAuthRes sec rand (s.genAuthInfoAnswerXor sec ctx rand).2.autn =
        ⟨.ok, fun i => xdout ctx.key rand ⟨i, by omega⟩, (securityXorF2345 ctx.key rand).ck,
          (securityXorF2345 ctx.key rand).ik, fun i => ctx.sqn i ^^^ (securityXorF2345 ctx.key rand).ak i⟩ := by
      rw [Usim.genAuthRes, husim]
      simp only [Usim.genAuthResXor, hautn, h.key, autnSqn_makeAutn, autnAmf_makeAutn, compareAutn_self]
      rfl
    exact accepted_of_genAuthRes hres rfl rfl rfl mcc mnc
  | milenage =>
    rw [genAuthInfoAnswerAlgo, halgo]
    have husim : u.authAlgo = .milenage := by
      cases hu : u.authAlgo with
      | xor => rw [h.algo.mp hu] at halgo; cases halgo
      | milenage => rfl
    have hres : u.genAuthRes sec rand (s.genAuthInfoAnswerMilenage sec ctx rand).2.autn =
        ⟨.ok, (sec.milenageF2345 ctx.key ctx.opc rand).res, (sec.milenageF2345 ctx.key ctx.opc rand).ck,
          (sec.milenageF2345 ctx.key ctx.opc rand).ik,
          fun i => ctx.sqn i ^^^ (sec.milenageF2345 ctx.key ctx.opc rand).ak i⟩ := by
      rw [Usim.genAuthRes, husim]
      simp only [Usim.genAuthResMilenage, genAuthInfoAnswerMilenage, h.key, h.opc, autnSqn_makeAutn,
        autnAmf_makeAutn, compareAutn_self]
    refine accepted_of_genAuthRes hres rfl ?_ rfl mcc mnc
    exact (List.take_of_length_le (by rw [List.length_ofFn])).symm

/-- The AUTN of an answer has the sequence number of the user. -/
theorem seqInside_answer (s : Hss) (ctx : UeCtx) (rand : Octets 16) :
    seqInside sec ctx (s.genAuthInfoAnswerAlgo sec ctx rand).2 = seqOf ctx.sqn := by
  rw [seqInside, akOf, genAuthInfoAnswerAlgo]
  cases ctx.algo with
  | xor => exact congrArg seqOf (autnSqn_makeAutn ctx.sqn (securityXorF2345 ctx.key rand).ak ctx.amf _)
  | milenage => exact congrArg seqOf (autnSqn_makeAutn ctx.sqn (sec.milenageF2345 ctx.key ctx.opc rand).ak ctx.amf _)

/-! ### Calls -/

variable {s : Hss} {imsi : Nat} {ctx : UeCtx}

/-- What a call makes of a user -/
def afterCall (sec : Security) (ctx : UeCtx) : Call → UeCtx
  | .genAuthInfoAnswer _ rand => { ctx with sqn := incrementSqn ctx.sqn, lastRand := rand }
  | .resyncSqn _ auts =>
    { resyncSqnAlgo sec ctx auts with sqn := incrementSeqAfterResync (resyncSqnAlgo sec ctx auts).sqn }

theorem ctx_answer (s : Hss) (ctx : UeCtx) (rand : Octets 16) :
    (s.genAuthInfoAnswerAlgo sec ctx rand).1 = { ctx with lastRand := rand } := by
  rw [genAuthInfoAnswerAlgo]
  split
  · rfl
  · rfl

theorem find?_step_self (sec : Security) (call : Call)
    (h : s.imsiToUeCtx.find? call.imsi = some ctx) :
    (s.step sec call).imsiToUeCtx.find? call.imsi = some (afterCall sec ctx call) := by
  cases call with
  | genAuthInfoAnswer imsi rand =>
    rw [step, genAuthInfoAnswer, show s.imsiToUeCtx.find? imsi = some ctx from h]
    dsimp only
    rw [show (Call.genAuthInfoAnswer imsi rand).imsi = imsi from rfl, OrdMap.find?_insert, if_pos rfl, afterCall,
      ctx_answer]
    rfl
  | resyncSqn imsi auts =>
    rw [step, resyncSqn, show s.imsiToUeCtx.find? imsi = some ctx from h]
    dsimp only
    rw [show (Call.resyncSqn imsi auts).imsi = imsi from rfl, OrdMap.find?_insert, if_pos rfl, afterCall]

/-- A call for one user leaves the others unchanged. -/
theorem find?_step_other {call : Call} (h : imsi ≠ call.imsi) :
    (s.step sec call).imsiToUeCtx.find? imsi = s.imsiToUeCtx.find? imsi := by
  cases call with
  | genAuthInfoAnswer imsi' rand =>
    rw [step, genAuthInfoAnswer]
    split
    · rfl
    · exact OrdMap.find?_insert_ne _ _ h
  | resyncSqn imsi' auts =>
    rw [step, resyncSqn]
    split
    · rfl
    · exact OrdMap.find?_insert_ne _ _ h

/-! ### The law of a run -/

/-- The answer of a call for a user that is there -/
def answerOf (sec : Security) (s : Hss) (ctx : UeCtx) (rand : Octets 16) : AuthInfo :=
  (s.genAuthInfoAnswerAlgo sec ctx rand).2

theorem genAuthInfoAnswer_eq (h : s.imsiToUeCtx.find? imsi = some ctx) (rand : Octets 16) :
    (s.genAuthInfoAnswer sec imsi rand).2 = some (answerOf sec s ctx rand) := by
  rw [genAuthInfoAnswer, h]
  rfl

/-- The MAC-S in AUTS is the one that Milenage computes for the SQN_MS in it, under the last RAND. -/
def MacSVerified (sec : Security) (ctx : UeCtx) (auts : Octets 14) : Prop :=
  ctx.algo = .milenage ∧ macS auts = macSTmp sec ctx auts

/-- What a call is to do in the state `s`.

- `others`: the other users are unchanged;
- `accepted`: the USIM of the user accepts an answer;
- `verified`: a resynchronisation changes the SQN only if the MAC-S is right, and then the next AUTN has a SEQ above that
  of SQN_MS. -/
structure CallLaw (sec : Security) (s : Hss) (call : Call) : Prop where
  others : ∀ imsi, imsi ≠ call.imsi → (s.step sec call).imsiToUeCtx.find? imsi = s.imsiToUeCtx.find? imsi
  accepted : ∀ imsi rand ctx u info mcc mnc, call = .genAuthInfoAnswer imsi rand →
    s.imsiToUeCtx.find? imsi = some ctx → SameUser u ctx → (s.genAuthInfoAnswer sec imsi rand).2 = some info →
    Accepted sec s u info mcc mnc
  verified : ∀ imsi auts ctx ctx', call = .resyncSqn imsi auts → s.imsiToUeCtx.find? imsi = some ctx →
    (s.step sec call).imsiToUeCtx.find? imsi = some ctx' → ctx'.sqn ≠ ctx.sqn →
    MacSVerified sec ctx auts ∧ ∀ rand info, ((s.step sec call).genAuthInfoAnswer sec imsi rand).2 = some info →
      seqOf (sqnMs sec ctx auts) < seqInside sec ctx' info

/-- The parts SEQ in the AUTNs that a user gets from a call -/
def seqsOfCall (sec : Security) (imsi : Nat) (s : Hss) : Call → List Nat
  | .genAuthInfoAnswer imsi' rand =>
    if imsi' = imsi then
      match s.imsiToUeCtx.find? imsi with
      | none => []
      | some ctx => [seqInside sec ctx (answerOf sec s ctx rand)]
    else []
  | .resyncSqn _ _ => []

/-- The parts SEQ in the AUTNs that a user gets in a run -/
def seqsOf (sec : Security) (imsi : Nat) : Hss → List Call → List Nat
  | _, [] => []
  | s, call :: calls => seqsOfCall sec imsi s call ++ seqsOf sec imsi (s.step sec call) calls

/-- The calls do not resynchronise the user. -/
def NoResync (imsi : Nat) (calls : List Call) : Prop := ∀ auts, Call.resyncSqn imsi auts ∉ calls

/-- The law of authentication over a run from the state `s`.

- `lawful`: every call does what it is to do;
- `increases`: in a part of the run that does not resynchronise a user, each SEQ of the user is above the one before it,
  unless that is at the end of the range. -/
structure AuthLaw (sec : Security) (s : Hss) (calls : List Call) : Prop where
  lawful : ExecWithin (step sec) (CallLaw sec) s calls
  increases : ∀ pre part post, calls = pre ++ part ++ post → ∀ imsi, NoResync imsi part →
    (seqsOf sec imsi (exec (step sec) s pre) part).IsChain fun a b => a < b ∨ seqMaxValue ≤ a + 1

/-- A resynchronisation does not change the SQN, since SQN_MS is one SEQ below it, or it has the right MAC-S and a SEQ
that can go up. It is not supported for XOR. -/
def ResyncOk (sec : Security) (s : Hss) : Call → Prop
  | .genAuthInfoAnswer _ _ => True
  | .resyncSqn imsi auts => ∀ ctx, s.imsiToUeCtx.find? imsi = some ctx → ctx.algo = .milenage ∧
      (incrementSeqAfterResync (sqnMs sec ctx auts) = ctx.sqn ∨
        macS auts = macSTmp sec ctx auts ∧ seqOf (sqnMs sec ctx auts) + 1 < seqMaxValue)

/-- Without a resynchronisation, the parts SEQ of a user increase, from the one that the user has. -/
theorem seqsOf_chain (calls : List Call) (imsi : Nat) : ∀ s : Hss, NoResync imsi calls →
    (seqsOf sec imsi s calls).IsChain (fun a b => a < b ∨ seqMaxValue ≤ a + 1) ∧
      ∀ ctx, s.imsiToUeCtx.find? imsi = some ctx → ∀ a ∈ (seqsOf sec imsi s calls).head?, a = seqOf ctx.sqn := by
  induction calls with
  | nil => exact fun s _ => ⟨.nil, fun _ _ _ => nofun⟩
  | cons call calls ih =>
    intro s hno
    obtain ⟨hchain, hhead⟩ := ih (s.step sec call) fun auts hmem => hno auts (List.mem_cons_of_mem call hmem)
    rw [seqsOf]
    by_cases hcall : call.imsi = imsi
    · cases call with
      | resyncSqn imsi' auts =>
        rw [show imsi' = imsi from hcall] at hno
        exact absurd List.mem_cons_self (hno auts)
      | genAuthInfoAnswer imsi' rand =>
        obtain rfl : imsi' = imsi := hcall
        rw [seqsOfCall, if_pos rfl]
        cases hctx : s.imsiToUeCtx.find? imsi' with
        | none => exact ⟨hchain, fun _ => nofun⟩
        | some ctx =>
          dsimp only
          rw [answerOf, seqInside_answer]
          have hnext := hhead _ (find?_step_self sec (.genAuthInfoAnswer imsi' rand) hctx)
          refine ⟨List.isChain_cons.mpr ⟨fun b hb => ?_, hchain⟩, fun ctx' hctx' a ha => ?_⟩
          · rw [hnext b hb]
            show seqOf ctx.sqn < seqOf (incrementSqn ctx.sqn) ∨ _
            rw [seqOf_incrementSqn, lt_nextseq_iff (seqOf_le ctx.sqn)]
            exact Nat.lt_or_ge _ _
          · cases hctx'
            cases ha
            rfl
    · have hnone : seqsOfCall sec imsi s call = [] := by
        cases call with
        | resyncSqn imsi' auts => rfl
        | genAuthInfoAnswer imsi' rand => exact if_neg hcall
      rw [hnone, List.nil_append]
      exact ⟨hchain, fun ctx hctx => hhead ctx ((find?_step_other (Ne.symm hcall)).trans hctx)⟩

theorem sqn_afterResync (halgo : ctx.algo = .milenage) (imsi : Nat) (auts : Octets 14) :
    (afterCall sec ctx (.resyncSqn imsi auts)).sqn = incrementSeqAfterResync (sqnMs sec ctx auts) := by
  rw [afterCall, resyncSqnAlgo, halgo]
  rfl

theorem seqInside_afterResync (halgo : ctx.algo = .milenage) (s : Hss) (imsi : Nat) (auts : Octets 14)
    (rand : Octets 16) :
    seqInside sec (afterCall sec ctx (.resyncSqn imsi auts))
      (answerOf sec s (afterCall sec ctx (.resyncSqn imsi auts)) rand) =
      (seqOf (sqnMs sec ctx auts) + 1) % seqMaxValue := by
  rw [answerOf, seqInside_answer, sqn_afterResync halgo, seqOf_incrementSeqAfterResync]

/-- A call does what it is to do if and only if it is no resynchronisation that goes wrong. -/
theorem callLaw_iff (s : Hss) (call : Call) : CallLaw sec s call ↔ ResyncOk sec s call := by
  cases call with
  | genAuthInfoAnswer imsi rand =>
    refine ⟨fun _ => trivial, fun _ => ⟨fun _ hne => find?_step_other hne, ?_, fun _ _ _ _ => nofun⟩⟩
    intro imsi' rand' ctx u info mcc mnc hcall hctx huser hinfo
    rw [genAuthInfoAnswer_eq hctx] at hinfo
    cases hinfo
    exact accepted_answer s huser rand' mcc mnc
  | resyncSqn imsi auts =>
    constructor
    · intro h ctx hctx
      have hnext := find?_step_self sec (.resyncSqn imsi auts) hctx
      have hverified := h.verified imsi auts ctx _ rfl hctx hnext
      cases halgo : ctx.algo with
      | xor =>
        -- the SQN goes up, whatever AUTS has
        have hsqn : (afterCall sec ctx (.resyncSqn imsi auts)).sqn = incrementSeqAfterResync ctx.sqn := by
          rw [afterCall, resyncSqnAlgo, halgo]
          rfl
        rw [hsqn] at hverified
        have hmilenage := (hverified (incrementSeqAfterResync_ne ctx.sqn)).1.1
        rw [halgo] at hmilenage
        cases hmilenage
      | milenage =>
        refine ⟨rfl, or_iff_not_imp_left.mpr fun hchanged => ?_⟩
        rw [sqn_afterResync halgo] at hverified
        obtain ⟨⟨-, hmac⟩, habove⟩ := hverified hchanged
        have hlt := habove (fun _ => 0) _ (genAuthInfoAnswer_eq hnext _)
        rw [seqInside_afterResync halgo] at hlt
        exact ⟨hmac, (lt_nextseq_iff (seqOf_le _)).mp hlt⟩
    · intro h
      refine ⟨fun _ hne => find?_step_other hne, fun _ _ _ _ _ _ _ => nofun, ?_⟩
      intro imsi' auts' ctx ctx' hcall hctx hctx' hchanged
      cases hcall
      have hnext := find?_step_self sec (.resyncSqn imsi auts) hctx
      obtain rfl : afterCall sec ctx (.resyncSqn imsi auts) = ctx' :=
        Option.some.inj (hnext.symm.trans hctx')
      obtain ⟨halgo, hor⟩ := h ctx hctx
      rw [sqn_afterResync halgo] at hchanged
      obtain ⟨hmac, hroom⟩ := hor.resolve_left hchanged
      refine ⟨⟨halgo, hmac⟩, fun rand info hinfo => ?_⟩
      obtain rfl : answerOf sec _ (afterCall sec ctx (.resyncSqn imsi auts)) rand = info :=
        Option.some.inj ((genAuthInfoAnswer_eq hnext rand).symm.trans hinfo)
      rw [seqInside_afterResync halgo]
      exact (lt_nextseq_iff (seqOf_le _)).mpr hroom

/-- A run keeps the law of authentication if and only if its resynchronisations are right. -/
theorem authLaw_iff (sec : Security) (s : Hss) (calls : List Call) :
    AuthLaw sec s calls ↔ ExecWithin (step sec) (ResyncOk sec) s calls := by
  have hiff : ExecWithin (step sec) (CallLaw sec) s calls ↔ ExecWithin (step sec) (ResyncOk sec) s calls :=
    execWithin_iff_of_invariant (fun _ => True) (fun s call _ => callLaw_iff s call) (fun _ _ _ _ => trivial) calls s
      trivial
  refine ⟨fun h => hiff.mp h.lawful, fun h => ⟨hiff.mpr h, ?_⟩⟩
  exact fun pre part _ _ imsi hno => (seqsOf_chain part imsi _ hno).1

/-! ### A wrong MAC-S -/

/-- A Milenage whose functions are zero -/
def zeroMilenage : Security where
  milenageF1 _ _ _ _ _ := fun _ => 0
  milenageF1Star _ _ _ _ _ := fun _ => 0
  milenageF2345 _ _ _ := ⟨fun _ => 0, fun _ => 0, fun _ => 0, fun _ => 0⟩
  milenageF5Star _ _ _ := fun _ => 0
  generateKAsme _ _ _ _ _ := fun _ => 0

/-- A Milenage user -/
def oneUser : Hss := ⟨1, 1, OrdMap.insert ∅ 1 ⟨.milenage, fun _ => 0, fun _ => 0, fun _ => 0, fun _ => 0, fun _ => 0⟩⟩

/-- An AUTS with a MAC-S that is not the one of its SQN_MS changes the SQN. -/
theorem not_authLaw_wrongMac : ¬∀ sec s calls, AuthLaw sec s calls := by
  intro h
  have hlaw := (h zeroMilenage oneUser [.resyncSqn 1 fun _ => 1]).lawful.1
  obtain ⟨-, hsame | ⟨hmac, -⟩⟩ := (callLaw_iff _ _).mp hlaw _ rfl
  · exact absurd (congrFun hsame 0) (by decide)
  · exact absurd (congrFun hmac 0) (by decide)

end Odss.Epc.Hss
