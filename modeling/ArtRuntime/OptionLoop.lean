import Mathlib.Logic.Function.Basic
import Mathlib.Data.List.Basic
import Mathlib.Logic.Function.Iterate

namespace ArtRuntime.OptionLoop

/-!
# Loops that can fail

Shapes of loop in `Option`: a fold that runs each element through a
fallible conversion before a pure step, a fold that keeps an invariant and
a flag, a search for an element, a `while` loop that follows a successor
function until a test holds, and a loop that replaces the value of a map at
each key of a list in turn.  Each comes with the lemma that describes its
result when no step fails.
-/

variable {α β σ κ : Type}

/-- A fold whose step first converts its element, failing when the
conversion fails, converts the whole list first. -/
theorem foldlM_map_eq_mapM (convert : α → Option β) (step : σ → β → σ) :
    ∀ (init : σ) (elements : List α),
      elements.foldlM (fun state element => (convert element).map (step state)) init =
        (elements.mapM convert).map (List.foldl step init)
  | _, [] => rfl
  | init, element :: rest => by
      rw [List.foldlM_cons, List.mapM_cons]
      cases convert element with
      | none => rfl
      | some converted =>
          simp only [Option.map_some, Option.bind_eq_bind, Option.bind_some]
          rw [foldlM_map_eq_mapM convert step (step init converted) rest]
          cases rest.mapM convert <;> rfl

/-- A successful conversion turns each element into one that `read` maps to
what `original` maps the element to. -/
theorem map_of_mapM_eq_some {γ : Type} {convert : α → Option β} {read : β → γ}
    {original : α → γ} :
    ∀ {elements : List α} {converted : List β},
      (∀ element ∈ elements, ∀ result, convert element = some result →
        read result = original element) →
      elements.mapM convert = some converted → converted.map read = elements.map original
  | [], converted, _, success => by
      cases success
      rfl
  | element :: rest, converted, keeps, success => by
      rw [List.mapM_cons] at success
      cases first : convert element with
      | none => simp [first] at success
      | some head =>
          cases restConverted : rest.mapM convert with
          | none => simp [first, restConverted] at success
          | some tail =>
              simp only [first, restConverted, Option.bind_eq_bind, Option.bind_some,
                Option.pure_def, Option.some.injEq] at success
              subst success
              have restKeeps := fun other member => keeps other (List.mem_cons_of_mem element member)
              rw [List.map_cons, List.map_cons, keeps element List.mem_cons_self head first,
                map_of_mapM_eq_some restKeeps restConverted]

/-- Every element of a successful conversion converts an element of the
list. -/
theorem exists_of_mem_mapM {convert : α → Option β} :
    ∀ {elements : List α} {converted : List β},
      elements.mapM convert = some converted →
        ∀ result ∈ converted, ∃ element ∈ elements, convert element = some result
  | [], converted, success, result, member => by
      cases success
      exact absurd member List.not_mem_nil
  | element :: rest, converted, success, result, member => by
      rw [List.mapM_cons] at success
      cases first : convert element with
      | none => simp [first] at success
      | some head =>
          cases restConverted : rest.mapM convert with
          | none => simp [first, restConverted] at success
          | some tail =>
              simp only [first, restConverted, Option.bind_eq_bind, Option.bind_some,
                Option.pure_def, Option.some.injEq] at success
              subst success
              rcases List.mem_cons.mp member with isHead | inTail
              · exact ⟨element, List.mem_cons_self, isHead ▸ first⟩
              · obtain ⟨source, sourceMember, converts⟩ :=
                  exists_of_mem_mapM restConverted result inTail
                exact ⟨source, List.mem_cons_of_mem element sourceMember, converts⟩

/-- A conversion that succeeds on every element succeeds on the list. -/
theorem exists_mapM_eq_some {convert : α → Option β} :
    ∀ {elements : List α}, (∀ element ∈ elements, ∃ result, convert element = some result) →
      ∃ converted, elements.mapM convert = some converted
  | [], _ => ⟨[], rfl⟩
  | element :: rest, succeeds => by
      obtain ⟨head, first⟩ := succeeds element List.mem_cons_self
      obtain ⟨tail, restConverted⟩ :=
        exists_mapM_eq_some fun other member => succeeds other (List.mem_cons_of_mem element member)
      exact ⟨head :: tail, by simp [List.mapM_cons, first, restConverted]⟩

/-- A fold whose every step keeps an invariant succeeds, with the invariant.
If a flag of its state ends `false`, it was `false` at the start and every
element satisfied `done`, provided that a step ending with the flag `false`
started with it `false` and satisfied `done`. -/
theorem foldlM_flag (step : σ → α → Option σ) (invariant : σ → Prop) (flag : σ → Bool)
    (done : α → Prop) :
    ∀ (elements : List α) (init : σ), invariant init →
      (∀ state element, element ∈ elements → invariant state →
        ∃ next, step state element = some next ∧ invariant next ∧
          (flag next = false → flag state = false ∧ done element)) →
      ∃ result, elements.foldlM step init = some result ∧ invariant result ∧
        (flag result = false → flag init = false ∧ ∀ element ∈ elements, done element)
  | [], init, holds, _ =>
      ⟨init, rfl, holds, fun unset => ⟨unset, fun _ member => absurd member List.not_mem_nil⟩⟩
  | element :: rest, init, holds, steps => by
      obtain ⟨next, first, nextHolds, nextFlag⟩ := steps init element List.mem_cons_self holds
      obtain ⟨result, loop, resultHolds, resultFlag⟩ :=
        foldlM_flag step invariant flag done rest next nextHolds
          fun state other member => steps state other (List.mem_cons_of_mem element member)
      refine ⟨result, ?_, resultHolds, fun unset => ?_⟩
      · rw [List.foldlM_cons, first, Option.bind_eq_bind, Option.bind_some]
        exact loop
      · obtain ⟨nextUnset, restDone⟩ := resultFlag unset
        obtain ⟨initUnset, elementDone⟩ := nextFlag nextUnset
        refine ⟨initUnset, fun other member => ?_⟩
        rcases List.mem_cons.mp member with rfl | inRest
        · exact elementDone
        · exact restDone other inRest

/-- A search whose test succeeds on every element succeeds; when it finds
nothing, the test answered `false` on every element. -/
theorem anyM_spec {test : α → Option Bool} :
    ∀ {elements : List α}, (∀ element ∈ elements, ∃ answer, test element = some answer) →
      ∃ found, elements.anyM test = some found ∧
        (found = false → ∀ element ∈ elements, test element = some false)
  | [], _ => ⟨false, rfl, fun _ _ member => absurd member List.not_mem_nil⟩
  | element :: rest, succeeds => by
      obtain ⟨answer, first⟩ := succeeds element List.mem_cons_self
      cases answer with
      | true => exact ⟨true, by simp [List.anyM, first], fun found => by cases found⟩
      | false =>
          obtain ⟨found, search, allFalse⟩ :=
            anyM_spec fun other member => succeeds other (List.mem_cons_of_mem element member)
          refine ⟨found, by simp [List.anyM, first, search], fun notFound other member => ?_⟩
          rcases List.mem_cons.mp member with rfl | inRest
          · exact first
          · exact allFalse notFound other inRest

/-- A loop whose body works on the state in place and stops the loop at its
first failure, a failing step leaving the state as it was: the state reached
and whether the loop ran to its end. -/
def foldInPlace (step : σ → α → Option σ) : σ → List α → σ × Bool
  | state, [] => (state, true)
  | state, element :: rest =>
    match step state element with
    | some next => foldInPlace step next rest
    | none => (state, false)

/-- The fold in `Option` keeps the state of the in-place loop when it runs to
its end and forgets it when it stops. -/
theorem foldlM_eq_foldInPlace (step : σ → α → Option σ) :
    ∀ (init : σ) (elements : List α), elements.foldlM step init =
      if (foldInPlace step init elements).2 then some (foldInPlace step init elements).1
      else none
  | init, [] => rfl
  | init, element :: rest => by
    rw [List.foldlM_cons]
    cases stepped : step init element with
    | none => simp [foldInPlace, stepped]
    | some next =>
      rw [Option.bind_eq_bind, Option.bind_some, foldlM_eq_foldInPlace step next rest]
      simp only [foldInPlace, stepped]

/-- What every successful step keeps holds of the state the in-place loop
reaches, whether it runs to its end or stops. -/
theorem foldInPlace_invariant {step : σ → α → Option σ} (invariant : σ → Prop)
    (preserved : ∀ state element next, invariant state → step state element = some next →
      invariant next) :
    ∀ (init : σ) (elements : List α), invariant init →
      invariant (foldInPlace step init elements).1
  | init, [], holds => holds
  | init, element :: rest, holds => by
    cases stepped : step init element with
    | none => simpa [foldInPlace, stepped] using holds
    | some next =>
      simp only [foldInPlace, stepped]
      exact foldInPlace_invariant invariant preserved next rest
        (preserved init element next holds stepped)

/-- A `while` loop that follows `next` from `start` until `stop` holds,
run for at most `fuel` positions: `none` when `stop` holds at none of them. -/
def walkUntil (next : α → α) (stop : α → Bool) : Nat → α → Option α
  | 0, _ => none
  | fuel + 1, position =>
    if stop position then some position else walkUntil next stop fuel (next position)

/-- Where the loop stops, `stop` holds. -/
theorem stop_of_walkUntil {next : α → α} {stop : α → Bool} :
    ∀ {fuel : Nat} {start position : α}, walkUntil next stop fuel start = some position →
      stop position = true
  | 0, _, _, walked => by cases walked
  | fuel + 1, start, position, walked => by
    rw [walkUntil] at walked
    split at walked
    · next stops =>
      cases walked
      exact stops
    · exact stop_of_walkUntil walked

/-- What holds at `start` and is kept by `next` holds where the loop stops. -/
theorem walkUntil_invariant {next : α → α} {stop : α → Bool} (invariant : α → Prop)
    (kept : ∀ position, invariant position → invariant (next position)) :
    ∀ {fuel : Nat} {start position : α}, invariant start →
      walkUntil next stop fuel start = some position → invariant position
  | 0, _, _, _, walked => by cases walked
  | fuel + 1, start, position, holds, walked => by
    rw [walkUntil] at walked
    split at walked
    · cases walked
      exact holds
    · exact walkUntil_invariant invariant kept (kept start holds) walked

/-- Along a path whose positions follow `next`, the loop from one position
stops at the first later one where `stop` holds, when there is one within
`fuel` steps. -/
theorem walkUntil_path_first {next : α → α} {stop : α → Bool} {path : List α}
    (linked : ∀ t, (inside : t + 1 < path.length) → next path[t] = path[t + 1])
    {last : Nat} (inside : last < path.length) (stops : stop path[last] = true) :
    ∀ {first fuel : Nat} (ordered : first ≤ last), last - first < fuel →
      ∃ t, ∃ found : t < path.length, first ≤ t ∧ t ≤ last ∧ stop path[t] = true ∧
        walkUntil next stop fuel path[first] = some path[t] ∧
        ∀ u, first ≤ u → (before : u < t) → stop path[u] = false
  | first, 0, _, enough => absurd enough (Nat.not_lt_zero _)
  | first, fuel + 1, ordered, enough => by
    by_cases here : stop path[first] = true
    · refine ⟨first, by omega, Nat.le_refl _, ordered, here, ?_,
        fun u after before => absurd before (by omega)⟩
      rw [walkUntil, if_pos here]
    · -- Not there yet: the loop goes on from the next position of the path.
      have earlier : first < last :=
        Nat.lt_of_le_of_ne ordered fun same => here (by subst same; exact stops)
      obtain ⟨t, found, after, upto, stopsThere, walked, passed⟩ :=
        walkUntil_path_first linked inside stops earlier (show last - (first + 1) < fuel by omega)
      refine ⟨t, found, by omega, upto, stopsThere, ?_, fun u atLeast before => ?_⟩
      · rw [walkUntil, if_neg here, linked first (by omega)]
        exact walked
      by_cases atFirst : u = first
      · subst atFirst
        simpa using here
      · exact passed u (by omega) before

/-- Along a path whose positions follow `next`, the loop from one position
stops at the first later one where `stop` holds. -/
theorem walkUntil_path {next : α → α} {stop : α → Bool} {path : List α}
    (linked : ∀ t, (inside : t + 1 < path.length) → next path[t] = path[t + 1])
    {last : Nat} (inside : last < path.length) (stops : stop path[last] = true)
    {first fuel : Nat} (ordered : first ≤ last) (enough : last - first < fuel)
    (passed : ∀ t, first ≤ t → (before : t < last) → stop path[t] = false) :
    walkUntil next stop fuel path[first] = some path[last] := by
  obtain ⟨t, found, after, upto, stopsThere, walked, _⟩ :=
    walkUntil_path_first linked inside stops ordered enough
  have reached : t = last := by
    refine Nat.le_antisymm upto (Nat.le_of_not_lt fun short => ?_)
    rw [passed t after short] at stopsThere
    exact Bool.false_ne_true stopsThere
  subst reached
  exact walked

/-- The loop finds a position where `stop` holds when one lies within `fuel`
steps of `start`. -/
theorem walkUntil_isSome_of_iterate {next : α → α} {stop : α → Bool} :
    ∀ {fuel steps : Nat} {start : α}, steps < fuel → stop (next^[steps] start) = true →
      ∃ position, walkUntil next stop fuel start = some position ∧ stop position = true
  | 0, _, _, within, _ => absurd within (Nat.not_lt_zero _)
  | fuel + 1, steps, start, within, stops => by
    rw [walkUntil]
    by_cases here : stop start = true
    · exact ⟨start, by rw [if_pos here], here⟩
    · rw [if_neg here]
      cases steps with
      | zero => exact absurd stops here
      | succ steps =>
        rw [Function.iterate_succ_apply] at stops
        exact walkUntil_isSome_of_iterate (by omega) stops

variable [DecidableEq κ]

/-- Replace the value of `map` at each key of `keys` in turn by
`step key value`; `none` as soon as one step fails. -/
def updateEachM (keys : List κ) (step : κ → β → Option β) (map : κ → β) : Option (κ → β) :=
  keys.foldlM (fun map key => (step key (map key)).map (Function.update map key)) map

/-- When every key appears once, a loop that succeeds has run `step` once at
each of its keys, on the value it started with, and left the other keys
alone. -/
theorem updateEachM_spec {step : κ → β → Option β} :
    ∀ {keys : List κ} {map result : κ → β},
      keys.Nodup → updateEachM keys step map = some result → ∀ key,
        (key ∈ keys → step key (map key) = some (result key)) ∧
          (key ∉ keys → result key = map key)
  | [], _, _, _, success, _ => by
      cases success
      exact ⟨fun member => absurd member List.not_mem_nil, fun _ => rfl⟩
  | first :: rest, map, result, nodup, success, key => by
      rw [updateEachM, List.foldlM_cons] at success
      obtain ⟨firstFresh, restNodup⟩ := List.nodup_cons.mp nodup
      cases firstStep : step first (map first) with
      | none =>
          rw [firstStep] at success
          cases success
      | some value =>
          rw [firstStep] at success
          have restSpec := updateEachM_spec restNodup success
          by_cases isFirst : key = first
          · subst isFirst
            have untouched := (restSpec key).2 firstFresh
            rw [Function.update_self] at untouched
            exact ⟨fun _ => firstStep.trans (congrArg some untouched.symm),
              fun absent => absurd List.mem_cons_self absent⟩
          · have earlier : Function.update map first value key = map key :=
              Function.update_of_ne isFirst value map
            refine ⟨fun member => ?_, fun absent => ?_⟩
            · rw [← earlier]
              exact (restSpec key).1 ((List.mem_cons.mp member).resolve_left isFirst)
            · rw [← earlier]
              exact (restSpec key).2 (fun inRest => absent (List.mem_cons_of_mem first inRest))

/-- A loop whose step succeeds at each of its keys on every value succeeds. -/
theorem exists_updateEachM_eq_some {step : κ → β → Option β}
    {keys : List κ} (succeeds : ∀ key ∈ keys, ∀ value, ∃ result, step key value = some result)
    (map : κ → β) :
    ∃ result, updateEachM keys step map = some result := by
  induction keys generalizing map with
  | nil => exact ⟨map, rfl⟩
  | cons first rest inductionHypothesis =>
      obtain ⟨value, firstStep⟩ := succeeds first List.mem_cons_self (map first)
      obtain ⟨result, restLoop⟩ := inductionHypothesis
        (fun key member => succeeds key (List.mem_cons_of_mem first member))
        (Function.update map first value)
      refine ⟨result, ?_⟩
      rw [updateEachM, List.foldlM_cons, firstStep, Option.map_some, Option.bind_eq_bind,
        Option.bind_some]
      exact restLoop

end ArtRuntime.OptionLoop
