import Mathlib.Data.Option.Basic

namespace ArtRuntime.Calls

/-!
# Runs of calls and their refinement

A component is a step function from a state and a call to the next state
and an answer, `none` where the call fails.  `runCalls` answers a sequence of
calls and fails with the first call that fails; `runFinal` is the state it
ends in.

An implementation follows a specification in lock step (`Lockstep`) when
from related states every call fails in both or succeeds in both with one
answer; it then gives the same answers to every sequence of calls.  It
simulates the specification (`Simulates`) when every call the specification
accepts the implementation accepts too, with the same answer; a failure of
the specification is then a call outside the contract, and on every sequence
of calls within it the implementation answers as the specification does and
ends related to it.

Nothing in this module names the runtime.
-/

variable {σ τ γ ρ : Type}

/-- The answers to a sequence of calls, or `none` once a call fails. -/
def runCalls (step : σ → γ → Option (σ × ρ)) : σ → List γ → Option (List ρ)
  | _, [] => some []
  | state, call :: calls =>
      match step state call with
      | none => none
      | some (state, reply) => (runCalls step state calls).map (reply :: ·)

/-- `impl` follows `spec` in lock step under `related`: from related states a
call fails in both, or succeeds in both with one answer and related
states. -/
def Lockstep (impl : σ → γ → Option (σ × ρ)) (spec : τ → γ → Option (τ × ρ))
    (related : σ → τ → Prop) : Prop :=
  ∀ state abstract call, related state abstract →
    (impl state call = none ∧ spec abstract call = none) ∨
      ∃ state' abstract' reply, impl state call = some (state', reply) ∧
        spec abstract call = some (abstract', reply) ∧ related state' abstract'

/-- Lock step gives the same answers to every sequence of calls. -/
theorem Lockstep.runCalls_eq {impl : σ → γ → Option (σ × ρ)} {spec : τ → γ → Option (τ × ρ)}
    {related : σ → τ → Prop} (lockstep : Lockstep impl spec related) :
    ∀ (calls : List γ) {state : σ} {abstract : τ}, related state abstract →
      runCalls impl state calls = runCalls spec abstract calls
  | [], _, _, _ => rfl
  | call :: calls, state, abstract, isRelated => by
      rcases lockstep state abstract call isRelated with
        ⟨implFails, specFails⟩ | ⟨state', abstract', reply, implStep, specStep, isRelated'⟩
      · simp only [runCalls, implFails, specFails]
      · simp only [runCalls, implStep, specStep, lockstep.runCalls_eq calls isRelated']


/-- The state a sequence of calls ends in, or `none` once a call fails. -/
def runFinal (step : σ → γ → Option (σ × ρ)) : σ → List γ → Option σ
  | state, [] => some state
  | state, call :: calls =>
      match step state call with
      | none => none
      | some (state, _) => runFinal step state calls

/-- Every call that `spec` accepts from a related state `impl` accepts too,
with the same answer and a related state. -/
def Simulates (impl : σ → γ → Option (σ × ρ)) (spec : τ → γ → Option (τ × ρ))
    (related : σ → τ → Prop) : Prop :=
  ∀ state abstract call abstract' reply, related state abstract →
    spec abstract call = some (abstract', reply) →
      ∃ state', impl state call = some (state', reply) ∧ related state' abstract'

section Simulation

variable {impl : σ → γ → Option (σ × ρ)} {spec : τ → γ → Option (τ × ρ)}
  {related : σ → τ → Prop} (simulates : Simulates impl spec related)
include simulates

/-- On a sequence of calls that the specification answers, the
implementation gives its answers. -/
theorem Simulates.runCalls_eq :
    ∀ (calls : List γ) {state : σ} {abstract : τ} {replies : List ρ}, related state abstract →
      runCalls spec abstract calls = some replies → runCalls impl state calls = some replies
  | [], _, _, _, _, accepted => accepted
  | call :: calls, state, abstract, replies, isRelated, accepted => by
      unfold runCalls at accepted ⊢
      cases specStep : spec abstract call with
      | none => simp [specStep] at accepted
      | some next =>
          obtain ⟨abstract', reply⟩ := next
          simp only [specStep] at accepted
          obtain ⟨rest, restAccepted, rfl⟩ := Option.map_eq_some_iff.mp accepted
          obtain ⟨state', implStep, isRelated'⟩ :=
            simulates state abstract call abstract' reply isRelated specStep
          simp only [implStep, Simulates.runCalls_eq calls isRelated' restAccepted, Option.map_some]

/-- On a sequence of calls that the specification accepts, the
implementation ends related to where the specification ends. -/
theorem Simulates.runFinal :
    ∀ (calls : List γ) {state : σ} {abstract abstract' : τ}, related state abstract →
      runFinal spec abstract calls = some abstract' →
        ∃ state', runFinal impl state calls = some state' ∧ related state' abstract'
  | [], state, _, _, isRelated, accepted => ⟨state, rfl, Option.some.inj accepted ▸ isRelated⟩
  | call :: calls, state, abstract, abstract', isRelated, accepted => by
      unfold Calls.runFinal at accepted ⊢
      cases specStep : spec abstract call with
      | none => simp [specStep] at accepted
      | some next =>
          obtain ⟨middle, reply⟩ := next
          simp only [specStep] at accepted
          obtain ⟨state', implStep, isRelated'⟩ :=
            simulates state abstract call middle reply isRelated specStep
          simp only [implStep]
          exact Simulates.runFinal calls isRelated' accepted

end Simulation

end ArtRuntime.Calls
