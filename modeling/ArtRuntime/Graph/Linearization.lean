import Mathlib.Logic.Relation
import Mathlib.Data.List.Perm.Basic
import Mathlib.Data.List.Pairwise
import Mathlib.Data.UInt
import Mathlib.Data.List.Basic

namespace ArtRuntime.Graph

/-!
# Linearizing a graph along a nesting

A topological sort that keeps a stack of released vertices may insert a
vertex below the vertices it should wait for: `insertBefore stop x l` puts
`x` just before the first element of `l` that `stop` accepts.  When the
stack is sorted along a transitive relation, `stop` accepts exactly the
elements that `x` may precede, and `x` is comparable with every element, the
insertion keeps the stack sorted.

`OneSegment p l` says that the members of `p` in `l` form one segment, and
that once a member has been followed by a non-member every member is in the
segment.  It is kept by appending a member that is not yet in the list, and
by appending a non-member once every member is in the list whenever one is;
and no non-member stands between two members.

`exists_exit` finds, on a path that starts inside a set and ends outside it,
the step that leaves the set.  The last section is the arithmetic of a count
of remaining predecessors held in a `uint32_t`: it reaches 1 exactly once
while it counts down from a number below `2 ^ 32`, and after it has passed 0
it does not reach 1 again within fewer than `2 ^ 32 - 1` further steps.

Nothing in this module names the runtime.
-/

variable {α : Type}

/-- `x` inserted just before the first element of the list that `stop`
accepts, or at the end. -/
def insertBefore (stop : α → Bool) (x : α) : List α → List α
  | [] => [x]
  | y :: rest => if stop y then x :: y :: rest else y :: insertBefore stop x rest

section InsertBefore

variable {stop : α → Bool} {x : α}

theorem insertBefore_perm : ∀ l : List α, (insertBefore stop x l).Perm (x :: l)
  | [] => List.Perm.refl _
  | y :: rest => by
      unfold insertBefore
      split
      · exact List.Perm.refl _
      · exact ((insertBefore_perm rest).cons y).trans (List.Perm.swap x y rest)

theorem mem_insertBefore {l : List α} {z : α} : z ∈ insertBefore stop x l ↔ z = x ∨ z ∈ l := by
  rw [(insertBefore_perm l).mem_iff, List.mem_cons]

variable {r : α → α → Prop} (trans : ∀ {a b c : α}, r a b → r b c → r a c)
include trans

/-- Inserting into a list sorted along `r` an element comparable with every
element, before the first element it is below, keeps the list sorted. -/
theorem pairwise_insertBefore :
    ∀ {l : List α}, l.Pairwise r → (∀ y ∈ l, stop y = true ↔ r x y) →
      (∀ y ∈ l, r x y ∨ r y x) → (insertBefore stop x l).Pairwise r
  | [], _, _, _ => List.pairwise_singleton r x
  | y :: rest, sorted, stops, comparable => by
      obtain ⟨yBelow, restSorted⟩ := List.pairwise_cons.mp sorted
      unfold insertBefore
      split
      case isTrue stopped =>
        have xy : r x y := (stops y List.mem_cons_self).mp stopped
        refine List.pairwise_cons.mpr ⟨fun z member => ?_, sorted⟩
        rcases List.mem_cons.mp member with rfl | later
        · exact xy
        · exact trans xy (yBelow z later)
      case isFalse passed =>
        -- `x` is not below `y`, so `y` is below `x`
        have yx : r y x := (comparable y List.mem_cons_self).resolve_left fun xy =>
          passed ((stops y List.mem_cons_self).mpr xy)
        refine List.pairwise_cons.mpr ⟨fun z member => ?_, ?_⟩
        · rcases mem_insertBefore.mp member with rfl | later
          · exact yx
          · exact yBelow z later
        · exact pairwise_insertBefore restSorted
            (fun z member => stops z (List.mem_cons_of_mem y member))
            (fun z member => comparable z (List.mem_cons_of_mem y member))

end InsertBefore

/-- The members of `p` in `l` form one segment `seg`, and once a non-member
follows it, every member is in it. -/
def OneSegment (p : α → Prop) (l : List α) : Prop :=
  ∃ pre seg suf, l = pre ++ seg ++ suf ∧ (∀ y ∈ pre, ¬ p y) ∧ (∀ y ∈ seg, p y) ∧
    (∀ y ∈ suf, ¬ p y) ∧ (suf ≠ [] → ∀ y, p y → y ∈ seg)

namespace OneSegment

variable {p : α → Prop} {l : List α} {x : α}

theorem nil : OneSegment p ([] : List α) :=
  ⟨[], [], [], rfl, by simp, by simp, by simp, fun absurd => absurd rfl |>.elim⟩

/-- Appending a member that is not yet in the list. -/
theorem append_of_mem (segment : OneSegment p l) (member : p x) (fresh : x ∉ l) :
    OneSegment p (l ++ [x]) := by
  obtain ⟨pre, seg, suf, rfl, preOut, segIn, sufOut, closed⟩ := segment
  -- a non-member after the segment would mean that `x` is already in it
  have sufNil : suf = [] := by
    by_contra nonempty
    exact fresh (List.mem_append_left _ (List.mem_append_right _ (closed nonempty x member)))
  subst sufNil
  refine ⟨pre, seg ++ [x], [], by simp, preOut, fun y inSeg => ?_, by simp,
    fun absurd => absurd rfl |>.elim⟩
  rcases List.mem_append.mp inSeg with old | new
  · exact segIn y old
  · exact (List.mem_singleton.mp new) ▸ member

/-- Appending a non-member, once every member is in the list when one is. -/
theorem append_of_not (segment : OneSegment p l) (notMember : ¬ p x)
    (complete : (∃ y ∈ l, p y) → ∀ y, p y → y ∈ l) : OneSegment p (l ++ [x]) := by
  obtain ⟨pre, seg, suf, rfl, preOut, segIn, sufOut, closed⟩ := segment
  rcases seg with _ | ⟨first, rest⟩
  · -- no member yet: everything so far goes before the segment
    refine ⟨pre ++ suf ++ [x], [], [], by simp, fun y member => ?_, by simp, by simp,
      fun absurd => absurd rfl |>.elim⟩
    rcases List.mem_append.mp member with old | new
    · rcases List.mem_append.mp old with inPre | inSuf
      · exact preOut y inPre
      · exact sufOut y inSuf
    · exact (List.mem_singleton.mp new) ▸ notMember
  · -- the segment has begun, so it holds every member
    have inSeg : ∀ y, p y → y ∈ first :: rest := fun y member => by
      have present := complete ⟨first, by simp, segIn first List.mem_cons_self⟩ y member
      rcases List.mem_append.mp present with old | inSuf
      · rcases List.mem_append.mp old with inPre | done
        · exact absurd member (preOut y inPre)
        · exact done
      · exact absurd member (sufOut y inSuf)
    refine ⟨pre, first :: rest, suf ++ [x], by simp, preOut, segIn, fun y member => ?_,
      fun _ => inSeg⟩
    rcases List.mem_append.mp member with old | new
    · exact sufOut y old
    · exact (List.mem_singleton.mp new) ▸ notMember

section Positions

variable [DecidableEq α] {y : α} {front back : List α}

theorem idxOf_lt_of_mem_left (member : x ∈ front) : (front ++ back).idxOf x < front.length := by
  rw [List.idxOf_append_of_mem member]
  exact List.idxOf_lt_length_of_mem member

theorem le_idxOf_of_not_mem_left (absent : x ∉ front) : front.length ≤ (front ++ back).idxOf x := by
  rw [List.idxOf_append_of_notMem absent]
  exact Nat.le_add_right _ _

/-- A member of the front part comes before an element that is not in it. -/
theorem idxOf_lt_idxOf (member : x ∈ front) (absent : y ∉ front) :
    (front ++ back).idxOf x < (front ++ back).idxOf y :=
  Nat.lt_of_lt_of_le (idxOf_lt_of_mem_left member) (le_idxOf_of_not_mem_left absent)

/-- No non-member stands between two members. -/
theorem between (segment : OneSegment p l) {a b c : α} (bMember : b ∈ l) (cMember : c ∈ l)
    (aIn : p a) (cIn : p c) (ab : l.idxOf a < l.idxOf b) (bc : l.idxOf b < l.idxOf c) : p b := by
  obtain ⟨pre, seg, suf, rfl, preOut, segIn, sufOut, -⟩ := segment
  by_contra bOut
  by_cases bFront : b ∈ pre ++ seg
  · rcases List.mem_append.mp bFront with inPre | inSeg
    · -- `b` before the segment, `a` in or after it
      have before : (pre ++ (seg ++ suf)).idxOf b < (pre ++ (seg ++ suf)).idxOf a :=
        idxOf_lt_idxOf inPre fun inPre => preOut a inPre aIn
      rw [← List.append_assoc] at before
      omega
    · exact bOut (segIn b inSeg)
  · -- `b` after the segment, `c` in it
    have cFront : c ∈ pre ++ seg :=
      (List.mem_append.mp cMember).resolve_right fun inSuf => sufOut c inSuf cIn
    have before : (pre ++ seg ++ suf).idxOf c < (pre ++ seg ++ suf).idxOf b :=
      idxOf_lt_idxOf cFront bFront
    omega

end Positions

end OneSegment

/-- A path from inside `p` to outside it takes a step that leaves `p`, from
which the rest of the path goes on. -/
theorem exists_exit {r : α → α → Prop} {p : α → Prop} {a b : α}
    (path : Relation.ReflTransGen r a b) (start : p a) (finish : ¬ p b) :
    ∃ u v, p u ∧ r u v ∧ ¬ p v ∧ Relation.ReflTransGen r v b := by
  induction path using Relation.ReflTransGen.head_induction_on with
  | refl => exact absurd start finish
  | head step rest inductionHypothesis =>
      rename_i u v
      by_cases inside : p v
      · exact inductionHypothesis inside
      · exact ⟨u, v, start, step, inside, rest⟩

section Countdown

/-- Subtracting one more from a `uint32_t` count. -/
theorem sub_ofNat_sub_one (count : UInt32) (taken : Nat) :
    count - UInt32.ofNat taken - 1 = count - UInt32.ofNat (taken + 1) := by
  apply UInt32.toNat_inj.mp
  simp only [UInt32.toNat_sub, UInt32.toNat_ofNat', UInt32.toNat_one]
  omega

theorem ofNat_sub_ofNat_of_le {total taken : Nat} (le : taken ≤ total) :
    UInt32.ofNat total - UInt32.ofNat taken = UInt32.ofNat (total - taken) := by
  rw [← UInt32.toNat_inj]
  simp only [UInt32.toNat_sub, UInt32.toNat_ofNat']
  omega

/-- Before it passes 0, the count is 1 exactly when one step is left. -/
theorem ofNat_sub_ofNat_eq_one_iff {total taken : Nat} (le : taken ≤ total)
    (fits : total < 2 ^ 32) :
    UInt32.ofNat total - UInt32.ofNat taken = 1 ↔ total - taken = 1 := by
  rw [← UInt32.toNat_inj]
  simp only [UInt32.toNat_sub, UInt32.toNat_ofNat', UInt32.toNat_one]
  omega

/-- Once it has passed 0, the count does not come back to 1. -/
theorem ofNat_sub_ofNat_ne_one {total taken : Nat} (le : total ≤ taken) (pos : 0 < total)
    (fits : taken + 1 < 2 ^ 32) :
    UInt32.ofNat total - UInt32.ofNat taken ≠ 1 := by
  rw [ne_eq, ← UInt32.toNat_inj]
  simp only [UInt32.toNat_sub, UInt32.toNat_ofNat', UInt32.toNat_one]
  omega

end Countdown

end ArtRuntime.Graph
