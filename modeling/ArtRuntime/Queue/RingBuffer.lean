import Mathlib.Data.Nat.ModEq
import Mathlib.Data.Nat.Bitwise
import Mathlib.Data.UInt
import Mathlib.Logic.Function.Basic

namespace ArtRuntime.Queue

/-!
# Bounded FIFO queues and ring buffers

`BoundedQueue.call` is what a FIFO queue of bounded capacity does on each
call, on the list of its elements from the front: a push onto a full queue
and a pop or a read of the front of an empty one fail.

`ringRead data capacity start count` is what a ring buffer holds: the `count`
slots of `data` from `start` on, taken modulo the capacity.  Writing the slot
after the last appends to it, moving the start on drops its first element,
and a start counted modulo a multiple of the capacity reads the same slots.
The last section is the `x & (x - 1) == 0` test of a power of two on a 64-bit
word, and the mask `x - 1` that takes a residue modulo it.

Nothing in this module names the runtime.
-/

/-- A call on a bounded FIFO queue. -/
inductive QueueCall (α : Type) where
  | push (value : α)
  | pop
  | front
  | size
  | empty
  | clear

/-- What a call answers. -/
inductive QueueReply (α : Type) where
  | done
  | value (value : α)
  | count (count : Nat)
  | isEmpty (isEmpty : Bool)
  deriving DecidableEq

variable {α : Type}

/-- A call on a queue of at most `capacity` elements, `queue` from its front:
`none` when a push finds it full, or a pop or a read of the front finds it
empty. -/
def BoundedQueue.call (capacity : Nat) (queue : List α) :
    QueueCall α → Option (List α × QueueReply α)
  | .push value => if queue.length < capacity then some (queue ++ [value], .done) else none
  | .pop =>
      match queue with
      | [] => none
      | _ :: rest => some (rest, .done)
  | .front => queue.head?.map fun value => (queue, .value value)
  | .size => some (queue, .count queue.length)
  | .empty => some (queue, .isEmpty queue.isEmpty)
  | .clear => some ([], .done)

section Ring

/-- The `count` slots of `data` from `start` on, modulo `capacity`. -/
def ringRead (data : Nat → α) (capacity start count : Nat) : List α :=
  (List.range count).map fun offset => data ((start + offset) % capacity)

variable (data : Nat → α) (capacity : Nat)

@[simp] theorem length_ringRead (start count : Nat) :
    (ringRead data capacity start count).length = count := by
  simp [ringRead]

@[simp] theorem ringRead_zero (start : Nat) : ringRead data capacity start 0 = [] := rfl

/-- Offsets from one start that differ by less than the capacity name
different slots. -/
theorem add_mod_ne {start offset count : Nat} (before : offset < count) (room : count < capacity) :
    (start + offset) % capacity ≠ (start + count) % capacity := by
  intro same
  have congruent : offset ≡ count [MOD capacity] := Nat.ModEq.add_left_cancel' start same
  rw [Nat.ModEq, Nat.mod_eq_of_lt (by omega), Nat.mod_eq_of_lt room] at congruent
  omega

/-- Writing the slot after the last appends to the contents. -/
theorem ringRead_write {start count : Nat} (room : count < capacity) (value : α) :
    ringRead (Function.update data ((start + count) % capacity) value) capacity start (count + 1) =
      ringRead data capacity start count ++ [value] := by
  rw [ringRead, List.range_succ, List.map_append, List.map_singleton, Function.update_self]
  congr 1
  refine List.map_congr_left fun offset member => Function.update_of_ne ?_ _ _
  exact add_mod_ne capacity (List.mem_range.mp member) room

/-- The first element is the slot of the start; the rest start one slot on. -/
theorem ringRead_succ (start count : Nat) :
    ringRead data capacity start (count + 1) =
      data (start % capacity) :: ringRead data capacity (start + 1) count := by
  rw [ringRead, List.range_succ_eq_map, List.map_cons, List.map_map, Nat.add_zero]
  congr 1
  refine List.map_congr_left fun offset _ => ?_
  rw [Function.comp_apply, Nat.succ_eq_add_one, Nat.add_comm offset 1, Nat.add_assoc]

/-- A start counted modulo a multiple of the capacity reads the same
slots. -/
theorem ringRead_mod {modulus : Nat} (dvd : capacity ∣ modulus) (start count : Nat) :
    ringRead data capacity (start % modulus) count = ringRead data capacity start count := by
  unfold ringRead
  refine List.map_congr_left fun offset _ => ?_
  rw [Nat.add_mod, Nat.mod_mod_of_dvd start dvd, ← Nat.add_mod]

end Ring

section PowerOfTwo

/-- A word that passes the `x & (x - 1) == 0` test other than 0 is a power of
two. -/
theorem exists_pow_of_and_sub_one {x : UInt64} (power : x &&& (x - 1) = 0) (nonzero : x ≠ 0) :
    ∃ k, x.toNat = 2 ^ k := by
  have positive : 0 < x.toNat := by
    rcases Nat.eq_zero_or_pos x.toNat with zero | positive
    · exact absurd (UInt64.toNat_inj.mp (zero.trans UInt64.toNat_zero.symm)) nonzero
    · exact positive
  have minusOne : (x - 1).toNat = x.toNat - 1 := by
    rw [UInt64.toNat_sub, UInt64.toNat_one]
    have := x.toNat_lt
    omega
  have natPower : x.toNat &&& (x.toNat - 1) = 0 := by
    rw [← minusOne, ← UInt64.toNat_and, power, UInt64.toNat_zero]
  exact (Nat.and_sub_one_eq_zero_iff_isPowerOfTwo positive.ne').mp natPower

/-- Masking with `x - 1` takes the residue modulo `x`, for a word that
passes the test; for 0 the mask has every bit set. -/
theorem toNat_and_sub_one {x : UInt64} (power : x &&& (x - 1) = 0) (n : UInt64) :
    (n &&& (x - 1)).toNat = n.toNat % x.toNat := by
  rw [UInt64.toNat_and]
  by_cases zero : x = 0
  · subst zero
    rw [show ((0 : UInt64) - 1).toNat = 2 ^ 64 - 1 from rfl, Nat.and_two_pow_sub_one_eq_mod,
      UInt64.toNat_zero, Nat.mod_zero, Nat.mod_eq_of_lt n.toNat_lt]
  · obtain ⟨k, isPower⟩ := exists_pow_of_and_sub_one power zero
    have minusOne : (x - 1).toNat = 2 ^ k - 1 := by
      rw [UInt64.toNat_sub, UInt64.toNat_one, isPower]
      have := Nat.one_le_two_pow (n := k)
      have := x.toNat_lt
      omega
    rw [minusOne, Nat.and_two_pow_sub_one_eq_mod, isPower]

/-- A word other than 0 that passes the test divides `2 ^ 64`. -/
theorem dvd_of_and_sub_one {x : UInt64} (power : x &&& (x - 1) = 0) (nonzero : x ≠ 0) :
    x.toNat ∣ 2 ^ 64 := by
  obtain ⟨k, isPower⟩ := exists_pow_of_and_sub_one power nonzero
  have below : 2 ^ k < 2 ^ 64 := isPower ▸ x.toNat_lt
  rw [isPower]
  exact Nat.pow_dvd_pow 2 ((Nat.pow_lt_pow_iff_right (by omega)).mp below).le

/-- A word that passes the test is below `2 ^ 64 - 1`, so adding one to a
number no larger does not wrap. -/
theorem lt_of_and_sub_one {x : UInt64} (power : x &&& (x - 1) = 0) : x.toNat < 2 ^ 64 - 1 := by
  by_cases zero : x = 0
  · subst zero
    decide
  · obtain ⟨k, isPower⟩ := exists_pow_of_and_sub_one power zero
    have below : 2 ^ k < 2 ^ 64 := isPower ▸ x.toNat_lt
    have small : k ≤ 63 := by
      have := (Nat.pow_lt_pow_iff_right (by omega)).mp below
      omega
    have atMost : 2 ^ k ≤ 2 ^ 63 := Nat.pow_le_pow_right (by omega) small
    omega

end PowerOfTwo

end ArtRuntime.Queue
