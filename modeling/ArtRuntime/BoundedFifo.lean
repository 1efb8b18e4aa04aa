import ArtRuntime.Queue.RingBuffer
import ArtRuntime.Calls.Refinement

namespace ArtRuntime.Base

open ArtRuntime.Queue ArtRuntime.Calls

/-!
# `BoundedFifoPowerOfTwo`

The model of `libartbase/base/bounded_fifo.h`.  `size_t` is `UInt64`: the
source's `back_index_++` relies on its wrapping at `2 ^ 64`, and so does the
model.  The array `data_` is a function from slot to element; the
constructor leaves it as it finds it, so it is an argument of `create`.  A
`DCHECK` that fails is `none`.

`contents` is what the fifo holds, from the element `front()` returns to the
last one pushed.  From any state whose size is within `kMaxSize`, whatever
`back_index_` is, the fifo answers every sequence of calls as the bounded
queue of its contents does, and fails a `DCHECK` exactly where the queue
refuses the call: the mask takes the slots modulo `kMaxSize`, which divides
`2 ^ 64`, so the wrap of the indices does not move them.
-/

/-- `IsPowerOfTwo(x)` of `bit_utils.h`, the test of the class's
`static_assert`. -/
def IsPowerOfTwo (x : UInt64) : Bool :=
  (x &&& (x - 1)) == 0

/-- `BoundedFifoPowerOfTwo<T, kMaxSize>`. -/
structure BoundedFifoPowerOfTwo (T : Type) (kMaxSize : UInt64) where
  back_index_ : UInt64
  size_ : UInt64
  data_ : Nat → T

namespace BoundedFifoPowerOfTwo

variable {T : Type} {kMaxSize : UInt64}

/-- `mask_`. -/
def mask_ (kMaxSize : UInt64) : UInt64 :=
  kMaxSize - 1

/-- `clear()`. -/
def clear (fifo : BoundedFifoPowerOfTwo T kMaxSize) : BoundedFifoPowerOfTwo T kMaxSize :=
  { fifo with back_index_ := 0, size_ := 0 }

/-- The constructor: `clear()`, with `data_` as it was found. -/
def create (data_ : Nat → T) : BoundedFifoPowerOfTwo T kMaxSize where
  back_index_ := 0
  size_ := 0
  data_ := data_

/-- `size()`. -/
def size (fifo : BoundedFifoPowerOfTwo T kMaxSize) : UInt64 :=
  fifo.size_

/-- `empty()`. -/
def empty (fifo : BoundedFifoPowerOfTwo T kMaxSize) : Bool :=
  fifo.size == 0

/-- `push_back(value)`: `none` when `DCHECK_LE(size_, kMaxSize)` fails. -/
def push_back (fifo : BoundedFifoPowerOfTwo T kMaxSize) (value : T) :
    Option (BoundedFifoPowerOfTwo T kMaxSize) :=
  let size_ := fifo.size_ + 1
  if size_ ≤ kMaxSize then
    some { back_index_ := fifo.back_index_ + 1
           size_ := size_
           data_ := Function.update fifo.data_ (fifo.back_index_ &&& mask_ kMaxSize).toNat value }
  else none

/-- `front()`: `none` when `DCHECK_GT(size_, 0U)` fails. -/
def front (fifo : BoundedFifoPowerOfTwo T kMaxSize) : Option T :=
  if fifo.size_ > 0 then some (fifo.data_ ((fifo.back_index_ - fifo.size_) &&& mask_ kMaxSize).toNat)
  else none

/-- `pop_front()`: `none` when `DCHECK_GT(size_, 0U)` fails. -/
def pop_front (fifo : BoundedFifoPowerOfTwo T kMaxSize) :
    Option (BoundedFifoPowerOfTwo T kMaxSize) :=
  if fifo.size_ > 0 then some { fifo with size_ := fifo.size_ - 1 } else none

/-- A call of the class's interface on the fifo, with what it returns. -/
def call (fifo : BoundedFifoPowerOfTwo T kMaxSize) :
    QueueCall T → Option (BoundedFifoPowerOfTwo T kMaxSize × QueueReply T)
  | .push value => (fifo.push_back value).map fun fifo => (fifo, .done)
  | .pop => fifo.pop_front.map fun fifo => (fifo, .done)
  | .front => fifo.front.map fun value => (fifo, .value value)
  | .size => some (fifo, .count fifo.size.toNat)
  | .empty => some (fifo, .isEmpty fifo.empty)
  | .clear => some (fifo.clear, .done)

section Refinement

/-- What the fifo holds, from its front: `size_` slots from
`back_index_ - size_` on. -/
def contents (fifo : BoundedFifoPowerOfTwo T kMaxSize) : List T :=
  ringRead fifo.data_ kMaxSize.toNat (fifo.back_index_ - fifo.size_).toNat fifo.size_.toNat

/-- The fifo holds `queue`, within its capacity. -/
structure Holds (fifo : BoundedFifoPowerOfTwo T kMaxSize) (queue : List T) : Prop where
  bounded : fifo.size_.toNat ≤ kMaxSize.toNat
  contents_eq : fifo.contents = queue

variable (power : IsPowerOfTwo kMaxSize = true)
include power

theorem and_mask_ (index : UInt64) :
    (index &&& mask_ kMaxSize).toNat = index.toNat % kMaxSize.toNat :=
  toNat_and_sub_one (by simpa [IsPowerOfTwo] using power) index

omit power in
theorem Holds.length_eq {fifo : BoundedFifoPowerOfTwo T kMaxSize} {queue : List T}
    (holds : Holds fifo queue) : fifo.size_.toNat = queue.length := by
  rw [← holds.contents_eq, contents, length_ringRead]

omit power in
theorem Holds.size_eq_zero_iff {fifo : BoundedFifoPowerOfTwo T kMaxSize} {queue : List T}
    (holds : Holds fifo queue) : fifo.size_ = 0 ↔ queue = [] := by
  rw [← UInt64.toNat_inj, UInt64.toNat_zero, holds.length_eq, List.length_eq_zero_iff]

omit power in
/-- A fifo that holds an element has a positive size. -/
theorem Holds.size_pos {fifo : BoundedFifoPowerOfTwo T kMaxSize} {first : T} {rest : List T}
    (holds : Holds fifo (first :: rest)) : fifo.size_ > 0 := by
  rw [gt_iff_lt, UInt64.lt_iff_toNat_lt, holds.length_eq, List.length_cons]
  exact Nat.succ_pos _

/-- The capacity of a fifo that holds an element, or has room for one, is
not 0, so it divides `2 ^ 64`. -/
theorem dvd_of_lt {size : Nat} (below : size < kMaxSize.toNat) : kMaxSize.toNat ∣ 2 ^ 64 := by
  refine dvd_of_and_sub_one (by simpa [IsPowerOfTwo] using power) fun zero => ?_
  have isZero : kMaxSize.toNat = 0 := by rw [zero]; rfl
  omega

/-- A push appends the value when the fifo has room, and fails its `DCHECK`
otherwise. -/
theorem Holds.push_back {fifo : BoundedFifoPowerOfTwo T kMaxSize} {queue : List T}
    (holds : Holds fifo queue) (value : T) :
    if queue.length < kMaxSize.toNat then
      ∃ fifo', fifo.push_back value = some fifo' ∧ Holds fifo' (queue ++ [value])
    else fifo.push_back value = none := by
  have length := holds.length_eq
  have bounded := holds.bounded
  have noWrap := lt_of_and_sub_one (by simpa [IsPowerOfTwo] using power)
  have sizeSucc : (fifo.size_ + 1).toNat = fifo.size_.toNat + 1 := by
    rw [UInt64.toNat_add, UInt64.toNat_one]
    omega
  have fits : fifo.size_ + 1 ≤ kMaxSize ↔ queue.length < kMaxSize.toNat := by
    rw [UInt64.le_iff_toNat_le, sizeSucc]
    omega
  unfold BoundedFifoPowerOfTwo.push_back
  dsimp only
  by_cases room : queue.length < kMaxSize.toNat
  case neg => rw [if_neg room, if_neg fun fitting => room (fits.mp fitting)]
  rw [if_pos room, if_pos (fits.mpr room)]
  refine ⟨_, rfl, ⟨by dsimp only; omega, ?_⟩⟩
  -- the new back is one past the old, so the start stays and the written slot comes last
  have sameStart : fifo.back_index_ + 1 - (fifo.size_ + 1) = fifo.back_index_ - fifo.size_ :=
    add_sub_add_right_eq_sub _ _ _
  have slot : (fifo.back_index_ &&& mask_ kMaxSize).toNat =
      ((fifo.back_index_ - fifo.size_).toNat + fifo.size_.toNat) % kMaxSize.toNat := by
    rw [and_mask_ power]
    conv_lhs => rw [← sub_add_cancel fifo.back_index_ fifo.size_]
    rw [UInt64.toNat_add, Nat.mod_mod_of_dvd _ (dvd_of_lt power room)]
  show ringRead _ kMaxSize.toNat (fifo.back_index_ + 1 - (fifo.size_ + 1)).toNat
    (fifo.size_ + 1).toNat = queue ++ [value]
  rw [sameStart, sizeSucc, slot, ringRead_write _ _ (by omega), ← holds.contents_eq]
  rfl

/-- A pop drops the front when the fifo holds an element, and fails its
`DCHECK` otherwise. -/
theorem Holds.pop_front {fifo : BoundedFifoPowerOfTwo T kMaxSize} {queue : List T}
    (holds : Holds fifo queue) :
    match queue with
    | [] => fifo.pop_front = none
    | _ :: rest => ∃ fifo', fifo.pop_front = some fifo' ∧ Holds fifo' rest := by
  unfold BoundedFifoPowerOfTwo.pop_front
  cases queue with
  | nil => simp [holds.size_eq_zero_iff.mpr rfl]
  | cons first rest =>
      have length := holds.length_eq
      have bounded := holds.bounded
      rw [List.length_cons] at length
      rw [if_pos holds.size_pos]
      have sizePred : (fifo.size_ - 1).toNat = rest.length := by
        rw [UInt64.toNat_sub, UInt64.toNat_one]
        have := fifo.size_.toNat_lt
        omega
      refine ⟨_, rfl, ⟨by dsimp only; omega, ?_⟩⟩
      -- the start moves on by one, modulo `2 ^ 64`, which `kMaxSize` divides
      have nextStart : (fifo.back_index_ - (fifo.size_ - 1)).toNat =
          ((fifo.back_index_ - fifo.size_).toNat + 1) % 2 ^ 64 := by
        rw [sub_sub_eq_add_sub, add_sub_right_comm, UInt64.toNat_add, UInt64.toNat_one]
      have whole := holds.contents_eq
      rw [contents, length, ringRead_succ] at whole
      show ringRead fifo.data_ kMaxSize.toNat (fifo.back_index_ - (fifo.size_ - 1)).toNat
        (fifo.size_ - 1).toNat = rest
      rw [sizePred, nextStart,
        ringRead_mod _ _ (dvd_of_lt power (show rest.length < kMaxSize.toNat by omega))]
      exact (List.cons.inj whole).2

/-- `front()` returns the first element the fifo holds, and fails its
`DCHECK` when it holds none. -/
theorem Holds.front {fifo : BoundedFifoPowerOfTwo T kMaxSize} {queue : List T}
    (holds : Holds fifo queue) : fifo.front = queue.head? := by
  unfold BoundedFifoPowerOfTwo.front
  cases queue with
  | nil => simp [holds.size_eq_zero_iff.mpr rfl]
  | cons first rest =>
      have length := holds.length_eq
      rw [List.length_cons] at length
      have whole := holds.contents_eq
      rw [contents, length, ringRead_succ] at whole
      rw [if_pos holds.size_pos, and_mask_ power, (List.cons.inj whole).1]
      rfl

omit power in
/-- `empty()` tells whether the fifo holds no element. -/
theorem Holds.empty {fifo : BoundedFifoPowerOfTwo T kMaxSize} {queue : List T}
    (holds : Holds fifo queue) : fifo.empty = queue.isEmpty := by
  unfold BoundedFifoPowerOfTwo.empty size
  cases queue with
  | nil => simp [holds.size_eq_zero_iff.mpr rfl]
  | cons first rest =>
      have nonzero : fifo.size_ ≠ 0 := fun zero =>
        List.cons_ne_nil first rest (holds.size_eq_zero_iff.mp zero)
      exact beq_eq_false_iff_ne.mpr nonzero

/-- Each call of the interface answers as the bounded queue of the fifo's
contents does, and keeps the fifo holding the queue's new contents. -/
theorem call_lockstep :
    Lockstep (@call T kMaxSize) (BoundedQueue.call kMaxSize.toNat) Holds := by
  intro fifo queue operation holds
  have length := holds.length_eq
  cases operation with
  | push value =>
      have pushed := holds.push_back power value
      unfold BoundedQueue.call
      split_ifs at pushed ⊢ with room
      · obtain ⟨fifo', isPushed, holds'⟩ := pushed
        exact .inr ⟨fifo', _, _, by rw [call, isPushed]; rfl, rfl, holds'⟩
      · exact .inl ⟨by rw [call, pushed]; rfl, rfl⟩
  | pop =>
      have popped := holds.pop_front power
      cases queue with
      | nil => exact .inl ⟨by rw [call, popped]; rfl, rfl⟩
      | cons first rest =>
          obtain ⟨fifo', isPopped, holds'⟩ := popped
          exact .inr ⟨fifo', rest, _, by rw [call, isPopped]; rfl, rfl, holds'⟩
  | front =>
      have isFront := holds.front power
      cases queue with
      | nil => exact .inl ⟨by rw [call, isFront]; rfl, rfl⟩
      | cons first rest => exact .inr ⟨fifo, _, _, by rw [call, isFront]; rfl, rfl, holds⟩
  | size => exact .inr ⟨fifo, queue, _, rfl, by rw [BoundedQueue.call, ← length]; rfl, holds⟩
  | empty => exact .inr ⟨fifo, queue, _, rfl, by rw [BoundedQueue.call, ← holds.empty], holds⟩
  | clear => exact .inr ⟨fifo.clear, [], _, rfl, rfl, ⟨by simp [clear], rfl⟩⟩

/-- From any state within its capacity, whatever `back_index_` is, the fifo
answers every sequence of calls as the bounded queue of its contents does,
and fails a `DCHECK` exactly where the queue refuses a call. -/
theorem runCalls_call_eq {fifo : BoundedFifoPowerOfTwo T kMaxSize}
    (bounded : fifo.size_.toNat ≤ kMaxSize.toNat) (calls : List (QueueCall T)) :
    runCalls call fifo calls = runCalls (BoundedQueue.call kMaxSize.toNat) fifo.contents calls :=
  (call_lockstep power).runCalls_eq calls ⟨bounded, rfl⟩

end Refinement

/-- A fifo of four slots, one push before `back_index_` wraps. -/
def nearWrap : BoundedFifoPowerOfTwo Nat 4 where
  back_index_ := 0xFFFFFFFFFFFFFFFF
  size_ := 1
  data_ := fun _ => 7

theorem nearWrap_runCalls :
    runCalls call nearWrap [.push 5, .pop, .front] =
      runCalls (BoundedQueue.call (4 : UInt64).toNat) nearWrap.contents [.push 5, .pop, .front] :=
  runCalls_call_eq (by decide) (by decide) _

example : runCalls call nearWrap [.push 5, .pop, .front] = some [.done, .done, .value 5] := by
  decide

end BoundedFifoPowerOfTwo

end ArtRuntime.Base
