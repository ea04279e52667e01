import Odss.Lib.Run

/-!
# `Odss.Lib.Relay`: a relay that holds one message

Messages go to a relay in their order. The relay takes them one after the other, holds the last
one, and serves it at any time, any number of times. A message is lost if the next one is taken
before it is served.

* `newest_send`, `newest_move`: only a new message changes the newest one.
* `sampled_run`: a run serves the messages in their order, each some number of times.
* `outputs_drain`: each message in flight can get through.
-/

set_option linter.all false

namespace Odss.Lib

/-- The messages in flight to the relay, the one that it holds, and those in flight from it. -/
structure Relay (α : Type) where
  incoming : List α
  held : α
  outgoing : List α

/-- A step of a relay, besides new messages. -/
inductive RelayMove where
  | take
  | serve
  | receive

namespace Relay

variable {α : Type}

/-- One step, for new messages or for a move, with the messages that the receiver gets. -/
def step (r : Relay α) : List α ⊕ RelayMove → Relay α × List α
  | .inl ms => ({ r with incoming := r.incoming ++ ms }, [])
  | .inr .take =>
    match r.incoming with
    | [] => (r, [])
    | m :: ms => ({ r with incoming := ms, held := m }, [])
  | .inr .serve => ({ r with outgoing := r.outgoing ++ [r.held] }, [])
  | .inr .receive =>
    match r.outgoing with
    | [] => (r, [])
    | m :: ms => ({ r with outgoing := ms }, [m])

/-- The state after a step. -/
def next (r : Relay α) (a : List α ⊕ RelayMove) : Relay α := (r.step a).1

/-- The message that was sent last, or the one that the relay holds if none is in flight. -/
def newest (r : Relay α) : α := r.incoming.getLast?.getD r.held

theorem newest_send (r : Relay α) (ms : List α) :
    (r.next (.inl ms)).newest = ms.getLast?.getD r.newest := by
  simp only [next, step, newest, List.getLast?_append]
  cases ms.getLast? <;> rfl

theorem newest_move (r : Relay α) (m : RelayMove) : (r.next (.inr m)).newest = r.newest := by
  cases m with
  | serve => rfl
  | take =>
    simp only [next, step, newest]
    split
    · rfl
    · rename_i m ms heq
      rw [heq, List.getLast?_cons]
      rfl
  | receive =>
    simp only [next, step]
    split <;> rfl

/-- The moves that take `n` messages, and pass the last of them on. -/
def drain (n : Nat) : List RelayMove := List.replicate n .take ++ [.serve, .receive]

/-- Each message in flight can be the first one that the receiver gets. -/
theorem outputs_drain (m : α) (after : List α) :
    ∀ (before : List α) (held : α),
      (outputs step ⟨before ++ m :: after, held, []⟩
        ((drain (before.length + 1)).map .inr)).flatten = [m] := by
  intro before
  induction before with
  | nil => intro held; rfl
  | cons m' before ih => intro held; exact ih m'

/-! ### Sampling -/

/-- `out` has the messages `ms` in their order, each as often as the counts say. -/
def Sampled (ms out : List α) : Prop :=
  ∃ counts : List Nat, counts.length = ms.length ∧
    out = (ms.zip counts).flatMap fun x => List.replicate x.2 x.1

theorem Sampled.mem {ms out : List α} (h : Sampled ms out) {m : α} (hm : m ∈ out) : m ∈ ms := by
  obtain ⟨counts, -, rfl⟩ := h
  obtain ⟨x, hx, hmx⟩ := List.mem_flatMap.mp hm
  rw [List.eq_of_mem_replicate hmx]
  exact (List.of_mem_zip hx).1

theorem Sampled.skip {ms out : List α} (h : Sampled ms out) (m : α) : Sampled (ms ++ [m]) out := by
  obtain ⟨counts, hlen, hout⟩ := h
  refine ⟨counts ++ [0], by simp [hlen], ?_⟩
  simp [List.zip_append hlen.symm, hout]

theorem Sampled.skips {ms out : List α} (h : Sampled ms out) (rest : List α) :
    Sampled (ms ++ rest) out := by
  induction rest generalizing ms with
  | nil => simpa using h
  | cons m rest ih => simpa using ih (h.skip m)

theorem Sampled.again {ms out : List α} {m : α} (h : Sampled (ms ++ [m]) out) :
    Sampled (ms ++ [m]) (out ++ [m]) := by
  obtain ⟨counts, hlen, hout⟩ := h
  have hne : counts ≠ [] := by rintro rfl; simp at hlen
  obtain ⟨ns, n, rfl⟩ : ∃ ns n, counts = ns ++ [n] :=
    ⟨_, _, (List.dropLast_append_getLast hne).symm⟩
  have hns : ms.length = ns.length := by simpa using hlen.symm
  refine ⟨ns ++ [n + 1], by simpa using hlen, ?_⟩
  simp [hout, List.zip_append hns, List.replicate_succ']

/-- The messages that a list of steps sends. -/
def sentBy : List (List α ⊕ RelayMove) → List α
  | [] => []
  | .inl ms :: as => ms ++ sentBy as
  | .inr _ :: as => sentBy as

/-- The relay has taken `taken`, and has served `out` and what is in flight. -/
def Serves (r : Relay α) (taken out : List α) : Prop :=
  (∃ ms, taken = ms ++ [r.held]) ∧ Sampled taken (out ++ r.outgoing)

theorem sampled_of_serves : ∀ (as : List (List α ⊕ RelayMove)) (r : Relay α) (taken out : List α),
    r.Serves taken out → Sampled (taken ++ r.incoming ++ sentBy as)
      (out ++ (outputs step r as).flatten ++ (exec next r as).outgoing) := by
  intro as
  induction as with
  | nil =>
    intro r taken out h
    simpa [outputs, sentBy] using h.2.skips r.incoming
  | cons a as ih =>
    intro r taken out h
    rcases a with ms | _ | _ | _
    · have hrun := ih (r.next (.inl ms)) taken out h
      simpa [outputs, sentBy, next, step] using hrun
    · cases hin : r.incoming with
      | nil =>
        have hrun := ih r taken out h
        simpa [outputs, sentBy, next, step, hin] using hrun
      | cons m ms =>
        have hrun := ih ⟨ms, m, r.outgoing⟩ (taken ++ [m]) out ⟨⟨taken, rfl⟩, h.2.skip m⟩
        simpa [outputs, sentBy, next, step, hin] using hrun
    · obtain ⟨⟨ms, rfl⟩, hout⟩ := h
      have hrun := ih (r.next (.inr .serve)) (ms ++ [r.held]) out
        ⟨⟨ms, rfl⟩, by simpa [next, step] using hout.again⟩
      simpa [outputs, sentBy, next, step] using hrun
    · cases hout : r.outgoing with
      | nil =>
        have hrun := ih r taken out h
        simpa [outputs, sentBy, next, step, hout] using hrun
      | cons m ms =>
        have hrun := ih ⟨r.incoming, r.held, ms⟩ taken (out ++ [m])
          ⟨h.1, by simpa [hout] using h.2⟩
        simpa [outputs, sentBy, next, step, hout] using hrun

/-- What is served is the held message and the sent ones, each some number of times. -/
theorem sampled_run (r : Relay α) (h : r.incoming = [] ∧ r.outgoing = [])
    (as : List (List α ⊕ RelayMove)) : Sampled (r.held :: sentBy as)
      ((outputs step r as).flatten ++ (exec next r as).outgoing) := by
  have hstart : r.Serves [r.held] [] := ⟨⟨[], rfl⟩, [0], rfl, by simp [h.2]⟩
  simpa [h.1] using sampled_of_serves as r _ _ hstart

end Relay

end Odss.Lib
