import Mathlib.Data.Nat.BinaryRec
import Mathlib.Data.Nat.Bitwise

namespace ArtRuntime.Bits

/-!
# Little-endian bit streams over byte memory

A byte-addressed memory is read as one stream of bits: bit `position` is bit
`position % 8` of byte `position / 8`, so the least significant bit of a
little-endian word is the first bit of its lowest byte.  A bit field is a run
of the stream read as a number, least significant bit first, and a field
write replaces a run by the low bits of a value.

Every fact here is stated bit by bit, through `Nat.testBit` and
`BitVec.getLsbD`: words assembled from bytes, shifted and masked, are
compared with fields of the stream one bit at a time.
-/

/-- Bit `position` of a byte memory. -/
def bitAt (memory : Nat → BitVec 8) (position : Nat) : Bool :=
  (memory (position / 8)).getLsbD (position % 8)

/-- The little-endian value of the `count` bytes from `address`. -/
def littleEndian (memory : Nat → BitVec 8) (address : Nat) : Nat → Nat
  | 0 => 0
  | count + 1 => (memory address).toNat + 2 ^ 8 * littleEndian memory (address + 1) count

/-- The memory after the `count` low bytes of `value` are stored
little-endian from `address`. -/
def storeLittleEndian (memory : Nat → BitVec 8) (address value : Nat) : Nat → Nat → BitVec 8
  | 0 => memory
  | count + 1 =>
      storeLittleEndian (Function.update memory address (BitVec.ofNat 8 value)) (address + 1)
        (value / 2 ^ 8) count

/-- The `length` bits of a stream from `position`, least significant first. -/
def bitField (bits : Nat → Bool) (position : Nat) : Nat → Nat
  | 0 => 0
  | length + 1 => Nat.bit (bits position) (bitField bits (position + 1) length)

/-- The stream after the low `length` bits of `value` replace the run from
`position`. -/
def writeField (bits : Nat → Bool) (position length value : Nat) (bit : Nat) : Bool :=
  if position ≤ bit ∧ bit < position + length then value.testBit (bit - position) else bits bit

section Memory

variable (memory : Nat → BitVec 8)

/-- Bit `j` of a little-endian word is bit `8 * address + j` of the memory. -/
theorem testBit_littleEndian :
    ∀ (address count j : Nat),
      (littleEndian memory address count).testBit j =
        (decide (j < 8 * count) && bitAt memory (8 * address + j))
  | address, 0, j => by simp [littleEndian]
  | address, count + 1, j => by
      rw [littleEndian, Nat.add_comm, Nat.testBit_two_pow_mul_add _ (memory address).isLt]
      by_cases low : j < 8
      · have byteOf : (8 * address + j) / 8 = address := by omega
        have bitOf : (8 * address + j) % 8 = j := by omega
        simp [low, bitAt, byteOf, bitOf, BitVec.testBit_toNat, show j < 8 * (count + 1) by omega]
      · rw [if_neg low, testBit_littleEndian (address + 1) count (j - 8)]
        have shifted : 8 * (address + 1) + (j - 8) = 8 * address + j := by omega
        rw [shifted]
        congr 1
        exact decide_eq_decide.mpr (by omega)

/-- Replacing one byte changes exactly the bits of that byte. -/
theorem bitAt_update (address : Nat) (byte : BitVec 8) (position : Nat) :
    bitAt (Function.update memory address byte) position =
      if position / 8 = address then byte.getLsbD (position % 8) else bitAt memory position := by
  unfold bitAt
  by_cases same : position / 8 = address
  · rw [if_pos same, same, Function.update_self]
  · rw [if_neg same, Function.update_of_ne same]

end Memory

section Field

variable (bits : Nat → Bool)

/-- Bit `j` of a field is bit `position + j` of the stream, below its length. -/
theorem testBit_bitField :
    ∀ (position length j : Nat),
      (bitField bits position length).testBit j = (decide (j < length) && bits (position + j))
  | position, 0, j => by simp [bitField]
  | position, length + 1, 0 => by simp [bitField]
  | position, length + 1, j + 1 => by
      rw [bitField, Nat.testBit_bit_succ, testBit_bitField (position + 1) length j]
      simp [Nat.add_assoc, Nat.add_comm 1 j]

theorem bitField_lt (position length : Nat) : bitField bits position length < 2 ^ length := by
  apply Nat.lt_pow_two_of_testBit
  intro j beyond
  simp [testBit_bitField, show ¬ j < length by omega]

/-- A number whose bits are those of a run of the stream is that field. -/
theorem eq_bitField_of_testBit {value position length : Nat}
    (sameBits : ∀ j, value.testBit j = (decide (j < length) && bits (position + j))) :
    value = bitField bits position length := by
  apply Nat.eq_of_testBit_eq
  intro j
  rw [sameBits, testBit_bitField]

/-- A bit vector wide enough for a field, whose bits are those of the field,
has the field as its value. -/
theorem toNat_eq_bitField {width : Nat} {vector : BitVec width} {position length : Nat}
    (fits : length ≤ width)
    (sameBits : ∀ j < width, vector.getLsbD j = (decide (j < length) && bits (position + j))) :
    vector.toNat = bitField bits position length := by
  apply eq_bitField_of_testBit
  intro j
  rw [BitVec.testBit_toNat]
  by_cases inside : j < width
  · exact sameBits j inside
  · simp [BitVec.getLsbD_of_ge vector j (by omega), show ¬ j < length by omega]

/-- A field depends only on the bits of its run. -/
theorem bitField_congr {other : Nat → Bool} {position length : Nat}
    (agree : ∀ j < length, bits (position + j) = other (position + j)) :
    bitField bits position length = bitField other position length := by
  apply eq_bitField_of_testBit
  intro j
  rw [testBit_bitField]
  by_cases inside : j < length
  · simp [inside, agree j inside]
  · simp [inside]

/-- A field of `first + second` bits is its first `first` bits followed by the
next `second`. -/
theorem bitField_add (position first second : Nat) :
    bitField bits position (first + second) =
      bitField bits position first + 2 ^ first * bitField bits (position + first) second := by
  symm
  apply eq_bitField_of_testBit
  intro j
  rw [Nat.add_comm, Nat.testBit_two_pow_mul_add _ (bitField_lt bits position first)]
  by_cases low : j < first
  · simp [low, testBit_bitField, show j < first + second by omega]
  · rw [if_neg low, testBit_bitField, Nat.add_assoc, Nat.add_sub_cancel' (by omega)]
    congr 1
    exact decide_eq_decide.mpr (by omega)

/-- The bits `offset ..< offset + length` of a field are the field that starts
`offset` bits later, when they lie inside it. -/
theorem bitField_shiftRight_mod {position size offset length : Nat}
    (inside : offset + length ≤ size) :
    (bitField bits position size >>> offset) % 2 ^ length =
      bitField bits (position + offset) length := by
  apply eq_bitField_of_testBit
  intro j
  rw [Nat.testBit_mod_two_pow, Nat.testBit_shiftRight, testBit_bitField]
  by_cases low : j < length
  · simp [low, show offset + j < size by omega, Nat.add_assoc]
  · simp [low]

end Field

section Write

variable (bits : Nat → Bool) (position length value : Nat)

theorem writeField_of_not_mem {bit : Nat} (outside : bit < position ∨ position + length ≤ bit) :
    writeField bits position length value bit = bits bit := by
  unfold writeField
  rw [if_neg (by omega)]

theorem writeField_of_mem {j : Nat} (inside : j < length) :
    writeField bits position length value (position + j) = value.testBit j := by
  unfold writeField
  rw [if_pos (by omega), Nat.add_sub_cancel_left]

/-- A written field reads back as the value it was written with. -/
theorem bitField_writeField_self (fits : value < 2 ^ length) :
    bitField (writeField bits position length value) position length = value := by
  symm
  apply eq_bitField_of_testBit
  intro j
  by_cases inside : j < length
  · simp [inside, writeField_of_mem bits position length value inside]
  · have bound : value < 2 ^ j := lt_of_lt_of_le fits (Nat.pow_le_pow_right (by omega) (by omega))
    simp [inside, Nat.testBit_lt_two_pow bound]

/-- A field outside the written run is unchanged by the write. -/
theorem bitField_writeField_of_disjoint {other otherLength : Nat}
    (disjoint : other + otherLength ≤ position ∨ position + length ≤ other) :
    bitField (writeField bits position length value) other otherLength =
      bitField bits other otherLength := by
  apply bitField_congr
  intro j inside
  exact writeField_of_not_mem bits position length value (by omega)

/-- Storing a little-endian word writes its bits as one field. -/
theorem bitAt_storeLittleEndian (memory : Nat → BitVec 8) :
    ∀ (address value count : Nat),
      bitAt (storeLittleEndian memory address value count) =
        writeField (bitAt memory) (8 * address) (8 * count) value
  | address, value, 0 => by
      funext bit
      simp [storeLittleEndian, writeField]
  | address, value, count + 1 => by
      funext bit
      rw [storeLittleEndian, bitAt_storeLittleEndian _ (address + 1) (value / 2 ^ 8) count]
      unfold writeField
      rw [bitAt_update]
      by_cases later : 8 * (address + 1) ≤ bit ∧ bit < 8 * (address + 1) + 8 * count
      · rw [if_pos later, if_pos (by omega), Nat.testBit_div_two_pow]
        congr 1
        omega
      · rw [if_neg later]
        by_cases inByte : bit / 8 = address
        · rw [if_pos inByte, if_pos (by omega), BitVec.getLsbD_ofNat]
          simp only [show bit % 8 < 8 by omega, decide_true, Bool.true_and]
          congr 1
          omega
        · rw [if_neg inByte, if_neg (by omega)]

end Write

section Bytes

variable (memory : Nat → BitVec 8)

/-- Bit `bit` of the stream from byte `address` is a bit of byte
`address + bit / 8`. -/
theorem bitAt_eight_mul_add (address bit : Nat) :
    bitAt memory (8 * address + bit) = (memory (address + bit / 8)).getLsbD (bit % 8) := by
  unfold bitAt
  rw [show (8 * address + bit) / 8 = address + bit / 8 by omega,
    show (8 * address + bit) % 8 = bit % 8 by omega]

/-- The field of the first `length ≤ 8` bits of a byte is the byte's low
bits. -/
theorem bitField_byte (address : Nat) {length : Nat} (short : length ≤ 8) :
    bitField (bitAt memory) (8 * address) length = (memory address).toNat % 2 ^ length := by
  symm
  apply eq_bitField_of_testBit
  intro j
  rw [Nat.testBit_mod_two_pow, BitVec.testBit_toNat]
  by_cases inside : j < length
  · rw [bitAt_eight_mul_add, Nat.div_eq_of_lt (by omega), Nat.mod_eq_of_lt (by omega),
      Nat.add_zero]
  · simp [inside]

end Bytes

section Sequence

/-- `fields`, each a length and a value, stand one after another in the stream
from `position`, each holding its value. -/
def FieldsAt (bits : Nat → Bool) : Nat → List (Nat × Nat) → Prop
  | _, [] => True
  | position, (length, value) :: rest =>
      bitField bits position length = value ∧ FieldsAt bits (position + length) rest

/-- The number of bits a list of fields takes. -/
def fieldsLength (fields : List (Nat × Nat)) : Nat :=
  (fields.map Prod.fst).sum

@[simp] theorem fieldsLength_nil : fieldsLength [] = 0 :=
  rfl

@[simp] theorem fieldsLength_cons (length value : Nat) (fields : List (Nat × Nat)) :
    fieldsLength ((length, value) :: fields) = length + fieldsLength fields := by
  simp [fieldsLength]

@[simp] theorem fieldsLength_append (fields others : List (Nat × Nat)) :
    fieldsLength (fields ++ others) = fieldsLength fields + fieldsLength others := by
  simp [fieldsLength]

variable (bits : Nat → Bool)

@[simp] theorem fieldsAt_nil (position : Nat) : FieldsAt bits position [] :=
  trivial

@[simp] theorem fieldsAt_cons (position length value : Nat) (fields : List (Nat × Nat)) :
    FieldsAt bits position ((length, value) :: fields) ↔
      bitField bits position length = value ∧ FieldsAt bits (position + length) fields :=
  Iff.rfl

/-- Fields written after other fields are read after them. -/
theorem fieldsAt_append (fields others : List (Nat × Nat)) :
    ∀ position, FieldsAt bits position (fields ++ others) ↔
      FieldsAt bits position fields ∧ FieldsAt bits (position + fieldsLength fields) others := by
  induction fields with
  | nil => simp
  | cons field fields inductionHypothesis =>
      intro position
      obtain ⟨length, value⟩ := field
      simp only [List.cons_append, fieldsAt_cons, fieldsLength_cons, inductionHypothesis,
        Nat.add_assoc, and_assoc]

/-- Fields depend only on the bits they cover. -/
theorem fieldsAt_congr {other : Nat → Bool} (fields : List (Nat × Nat)) :
    ∀ position, (∀ j < fieldsLength fields, bits (position + j) = other (position + j)) →
      FieldsAt bits position fields → FieldsAt other position fields := by
  induction fields with
  | nil => simp
  | cons field fields inductionHypothesis =>
      intro position agree
      obtain ⟨length, value⟩ := field
      rintro ⟨first, rest⟩
      have firstAgrees : ∀ j < length, bits (position + j) = other (position + j) :=
        fun j short => agree j (by simp; omega)
      refine ⟨(bitField_congr bits firstAgrees).symm.trans first, ?_⟩
      apply inductionHypothesis (position + length) _ rest
      intro j inside
      have shifted := agree (length + j) (by simp; omega)
      rwa [← Nat.add_assoc] at shifted

/-- A field written at or after the end of some fields leaves them as they were. -/
theorem fieldsAt_writeField_of_le (fields : List (Nat × Nat)) {position start length value : Nat}
    (after : position + fieldsLength fields ≤ start) (written : FieldsAt bits position fields) :
    FieldsAt (writeField bits start length value) position fields := by
  apply fieldsAt_congr bits fields position _ written
  intro j inside
  exact (writeField_of_not_mem bits start length value (by omega)).symm

/-- Fields of one length `length` hold each value at `length` bits times its index. -/
theorem fieldsAt_map_of_length {α : Type} (length : Nat) (encode : α → Nat) (xs : List α) :
    ∀ position, FieldsAt bits position (xs.map fun x => (length, encode x)) →
      ∀ (i : Nat) (inside : i < xs.length),
        bitField bits (position + i * length) length = encode (xs.get ⟨i, inside⟩) := by
  induction xs with
  | nil => simp
  | cons x xs inductionHypothesis =>
      intro position written i inside
      rw [List.map_cons, fieldsAt_cons] at written
      cases i with
      | zero => simpa using written.1
      | succ i =>
          have later := inductionHypothesis (position + length) written.2 i
            (by simpa using inside)
          rw [Nat.succ_mul, Nat.add_comm (i * length), ← Nat.add_assoc]
          simpa using later

/-- The field at index `i` stands after the fields before it. -/
theorem bitField_of_fieldsAt (fields : List (Nat × Nat)) :
    ∀ position, FieldsAt bits position fields →
      ∀ (i : Nat) (inside : i < fields.length),
        bitField bits (position + fieldsLength (fields.take i)) (fields.get ⟨i, inside⟩).1 =
          (fields.get ⟨i, inside⟩).2 := by
  induction fields with
  | nil => simp
  | cons field fields inductionHypothesis =>
      intro position written i inside
      obtain ⟨length, value⟩ := field
      rw [fieldsAt_cons] at written
      cases i with
      | zero => simpa using written.1
      | succ i =>
          have later := inductionHypothesis (position + length) written.2 i
            (by simpa using inside)
          simpa [Nat.add_assoc] using later

/-- Blocks of fields that all take `length` bits stand each at `length` bits
times its index. -/
theorem fieldsAt_flatMap_of_length {α : Type} (block : α → List (Nat × Nat)) (length : Nat)
    (xs : List α) (sameLength : ∀ x ∈ xs, fieldsLength (block x) = length) :
    ∀ position, FieldsAt bits position (xs.flatMap block) →
      ∀ (i : Nat) (inside : i < xs.length),
        FieldsAt bits (position + i * length) (block (xs.get ⟨i, inside⟩)) := by
  induction xs with
  | nil => simp
  | cons x xs inductionHypothesis =>
      intro position written i inside
      rw [List.flatMap_cons, fieldsAt_append] at written
      cases i with
      | zero => simpa using written.1
      | succ i =>
          have restLength : ∀ y ∈ xs, fieldsLength (block y) = length :=
            fun y member => sameLength y (List.mem_cons_of_mem x member)
          have later := inductionHypothesis restLength _ written.2 i (by simpa using inside)
          rw [sameLength x List.mem_cons_self, Nat.add_assoc, Nat.add_comm length,
            ← Nat.succ_mul] at later
          simpa using later

end Sequence

end ArtRuntime.Bits
