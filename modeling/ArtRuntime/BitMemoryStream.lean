import ArtRuntime.BitMemoryRegion
import Mathlib.Data.Nat.Size

namespace ArtRuntime.Base

open ArtRuntime.Bits

/-!
# `BitMemoryReader`, `BitMemoryWriter` and varints

`libartbase/base/bit_memory_region.h`, with the helpers of
`libartbase/base/bit_utils.h` that they use.  The writer appends bit fields to
a byte vector and grows the vector as it goes; the reader walks a region whose
end is its cursor.  Both go through the stream `bitAt memory`, so a run of the
writer is described by the fields it has left in memory (`Wrote`), and a run
of the reader by the fields it finds at its cursor (`FieldsAt`).

A varint is a 4-bit code, the value itself up to `kVarintMax` and otherwise
`kVarintMax` plus the number of bytes of a payload that holds the value.
`WriteInterleavedVarints` writes all the codes first and the payloads of the
large values after them; `WriteVarint` is its case of one value.  The main
result is that the reader gives back what the writer wrote, from any start
bit, and reads exactly the bits written.

The vector does not move when it grows: its bytes start at `out_data` for the
whole run, which is what each region of the writer takes from
`out_->data()` after the resize.
-/

def kVarintBits : Nat := 4

def kVarintMax : Nat := 11

section BitUtils

/-- `MostSignificantBit(value)`: the index of the highest set bit, `-1` for
zero. -/
def MostSignificantBit (value : Nat) : Int :=
  if value = 0 then -1 else value.log2

/-- `MinimumBitsToStore(value)`. -/
def MinimumBitsToStore (value : Nat) : Nat :=
  (MostSignificantBit value + 1).toNat

/-- `RoundDown(x, n)` for the powers of two it is called with, where `x & -n`
clears the bits of `x` below `n`. -/
def RoundDown (x n : Nat) : Nat :=
  x - x % n

/-- `RoundUp(x, n)`. -/
def RoundUp (x n : Nat) : Nat :=
  RoundDown (x + n - 1) n

/-- `BitsToBytesRoundUp(num_bits)`. -/
def BitsToBytesRoundUp (num_bits : Nat) : Nat :=
  RoundUp num_bits kBitsPerByte / kBitsPerByte

/-- `MaskLeastSignificant<T>(bits)` for an unsigned `T` of `width` bits. -/
def MaskLeastSignificant (width bits : Nat) : BitVec width :=
  if bits ≥ width then BitVec.allOnes width
  else (BitVec.ofNat width 1 <<< bits) - BitVec.ofNat width 1

/-- `BitFieldExtract(value, lsb, width)` for an unsigned `T` of `size` bits. -/
def BitFieldExtract {size : Nat} (value : BitVec size) (lsb width : Nat) : BitVec size :=
  (value >>> lsb) &&& MaskLeastSignificant size width

/-- The number of bits to store a value is its binary length. -/
theorem MinimumBitsToStore_eq_size (value : Nat) : MinimumBitsToStore value = value.size := by
  unfold MinimumBitsToStore MostSignificantBit
  by_cases zero : value = 0
  · simp [zero]
  rw [if_neg zero]
  apply le_antisymm
  · have below : value.log2 < value.size := Nat.lt_size.mpr (Nat.log2_self_le zero)
    omega
  · have enough : value.size ≤ value.log2 + 1 := Nat.size_le.mpr Nat.lt_log2_self
    omega

theorem BitsToBytesRoundUp_eq (num_bits : Nat) : BitsToBytesRoundUp num_bits = (num_bits + 7) / 8 := by
  unfold BitsToBytesRoundUp RoundUp RoundDown kBitsPerByte
  omega

/-- The bytes rounded up hold every bit. -/
theorem le_BitsToBytesRoundUp (num_bits : Nat) : num_bits ≤ kBitsPerByte * BitsToBytesRoundUp num_bits := by
  rw [BitsToBytesRoundUp_eq]
  unfold kBitsPerByte
  omega

theorem toNat_BitFieldExtract {size : Nat} (value : BitVec size) (lsb : Nat) {width : Nat}
    (narrow : width < size) :
    (BitFieldExtract value lsb width).toNat = (value.toNat >>> lsb) % 2 ^ width := by
  have mask : (MaskLeastSignificant size width).toNat = 2 ^ width - 1 := by
    unfold MaskLeastSignificant
    rw [if_neg (by omega), BitVec.toNat_sub, BitVec.toNat_shiftLeft, BitVec.toNat_ofNat]
    have one : 1 % 2 ^ size = 1 := Nat.mod_eq_of_lt (Nat.one_lt_two_pow (by omega))
    have power : 2 ^ width < 2 ^ size := Nat.pow_lt_pow_right (by omega) narrow
    have positive := Nat.two_pow_pos width
    rw [one, Nat.one_shiftLeft, Nat.mod_eq_of_lt power,
      show 2 ^ size - 1 + 2 ^ width = 2 ^ size + (2 ^ width - 1) by omega, Nat.add_mod_left,
      Nat.mod_eq_of_lt (by omega)]
  rw [BitFieldExtract, BitVec.toNat_and, BitVec.toNat_ushiftRight, mask,
    Nat.and_two_pow_sub_one_eq_mod]

end BitUtils

/-! ## The reader -/

/-- `BitMemoryReader`: the region of the bits read so far.  There is no upper
bound, so the cursor is always at the end of the region. -/
structure BitMemoryReader where
  finished_region_ : BitMemoryRegion

namespace BitMemoryReader

/-- `BitMemoryReader(const uint8_t* data, ssize_t bit_offset)`. -/
def create (data : Nat) (bit_offset : Int) : BitMemoryReader :=
  ⟨BitMemoryRegion.create data bit_offset 0⟩

def NumberOfReadBits (reader : BitMemoryReader) : Nat :=
  reader.finished_region_.bit_size_

/-- `ReadRegion(bit_length)`: the next `bit_length` bits, and the reader past
them. -/
def ReadRegion (reader : BitMemoryReader) (bit_length : Nat) : BitMemoryRegion × BitMemoryReader :=
  let bit_offset := reader.finished_region_.bit_size_
  let finished_region_ := reader.finished_region_.Resize (bit_offset + bit_length)
  (finished_region_.Subregion bit_offset bit_length, ⟨finished_region_⟩)

/-- `ReadBits<Result>(bit_length)`. -/
def ReadBits (Result : UnsignedType) (memory : Nat → BitVec 8) (reader : BitMemoryReader)
    (bit_length : Nat) : BitVec Result.width × BitMemoryReader :=
  let (region, reader) := reader.ReadRegion bit_length
  (region.LoadBits Result memory 0 bit_length, reader)

variable (size_t : UnsignedType) (memory : Nat → BitVec 8)

/-- `ReadVarint()`: a code up to `kVarintMax` is the value, a larger one gives
the number of bytes to read.  The code has four bits, so `x - kVarintMax`
does not wrap. -/
def ReadVarint (reader : BitMemoryReader) : BitVec 32 × BitMemoryReader :=
  let (x, reader) := reader.ReadBits size_t memory kVarintBits
  let x : BitVec 32 := x.setWidth 32
  if x.toNat ≤ kVarintMax then (x, reader)
  else
    let (value, reader) := reader.ReadBits size_t memory ((x.toNat - kVarintMax) * kBitsPerByte)
    (value.setWidth 32, reader)

/-- The body of the second loop of `ReadInterleavedVarints`: a value above
`kVarintMax` is a code, replaced by the payload it announces. -/
def readVarintPayload (value : BitVec 32) (reader : BitMemoryReader) :
    BitVec 32 × BitMemoryReader :=
  if value.toNat > kVarintMax then
    let (payload, reader) := reader.ReadBits size_t memory ((value.toNat - kVarintMax) * kBitsPerByte)
    (payload.setWidth 32, reader)
  else (value, reader)

/-- The second loop of `ReadInterleavedVarints`, over the values in order. -/
def readVarintPayloads : List (BitVec 32) → BitMemoryReader → List (BitVec 32) × BitMemoryReader
  | [], reader => ([], reader)
  | value :: values, reader =>
      let (value, reader) := readVarintPayload size_t memory value reader
      let (values, reader) := readVarintPayloads values reader
      (value :: values, reader)

/-- `ReadInterleavedVarints<N>()`: the `N` codes in one `uint64_t` load, then
the payloads of the large ones. -/
def ReadInterleavedVarints (reader : BitMemoryReader) (N : Nat) : List (BitVec 32) × BitMemoryReader :=
  let (data, reader) := reader.ReadBits UnsignedType.uint64_t memory (N * kVarintBits)
  let values := (List.range N).map fun i =>
    (BitFieldExtract data (i * kVarintBits) kVarintBits).setWidth 32
  readVarintPayloads size_t memory values reader

end BitMemoryReader

/-! ## The writer -/

/-- `BitMemoryWriter<Vector>`: the memory, the vector `out_` (its data and
its size) and the bits written, from `bit_start_` to `bit_offset_`. -/
structure BitMemoryWriter where
  memory : Nat → BitVec 8
  out_data : Nat
  out_size : Nat
  bit_start_ : Nat
  bit_offset_ : Nat

namespace BitMemoryWriter

/-- `BitMemoryWriter(Vector* out, size_t bit_offset)`. -/
def create (memory : Nat → BitVec 8) (out_data out_size bit_offset : Nat) : BitMemoryWriter :=
  ⟨memory, out_data, out_size, bit_offset, bit_offset⟩

def NumberOfWrittenBits (writer : BitMemoryWriter) : Nat :=
  writer.bit_offset_ - writer.bit_start_

/-- `out_->resize(size)`: the bytes past the old end are zero. -/
def resize (writer : BitMemoryWriter) (size : Nat) : BitMemoryWriter :=
  { writer with
    memory := fun address =>
      if writer.out_data + writer.out_size ≤ address ∧ address < writer.out_data + size then 0#8
      else writer.memory address
    out_size := size }

/-- `Allocate(bit_length)`: grow the vector to hold the new bits and return
their region. -/
def Allocate (writer : BitMemoryWriter) (bit_length : Nat) : BitMemoryRegion × BitMemoryWriter :=
  let writer := writer.resize (BitsToBytesRoundUp (writer.bit_offset_ + bit_length))
  (BitMemoryRegion.create writer.out_data writer.bit_offset_ bit_length,
    { writer with bit_offset_ := writer.bit_offset_ + bit_length })

variable (size_t : UnsignedType)

/-- `WriteBits(uint32_t value, size_t bit_length)`: the value goes to
`StoreBits` as a `size_t`. -/
def WriteBits (writer : BitMemoryWriter) (value : BitVec 32) (bit_length : Nat) : BitMemoryWriter :=
  let (region, writer) := writer.Allocate bit_length
  { writer with
    memory := region.StoreBits size_t writer.memory 0 (value.setWidth size_t.width) bit_length }

/-- The body of the first loop of `WriteInterleavedVarints`: a small value is
its own code, a large one is written as `kVarintMax` plus its size in bytes. -/
def writeVarintCode (writer : BitMemoryWriter) (value : BitVec 32) : BitMemoryWriter :=
  if value.toNat > kVarintMax then
    writer.WriteBits size_t
      (BitVec.ofNat 32 (kVarintMax + BitsToBytesRoundUp (MinimumBitsToStore value.toNat)))
      kVarintBits
  else writer.WriteBits size_t value kVarintBits

/-- The body of the second loop: the payload of a large value. -/
def writeVarintPayload (writer : BitMemoryWriter) (value : BitVec 32) : BitMemoryWriter :=
  if value.toNat > kVarintMax then
    writer.WriteBits size_t value (BitsToBytesRoundUp (MinimumBitsToStore value.toNat) * kBitsPerByte)
  else writer

/-- `WriteInterleavedVarints<N>(values)`. -/
def WriteInterleavedVarints (writer : BitMemoryWriter) (values : List (BitVec 32)) :
    BitMemoryWriter :=
  let writer := values.foldl (writeVarintCode size_t) writer
  values.foldl (writeVarintPayload size_t) writer

/-- `WriteVarint(value)`. -/
def WriteVarint (writer : BitMemoryWriter) (value : BitVec 32) : BitMemoryWriter :=
  writer.WriteInterleavedVarints size_t [value]

end BitMemoryWriter

/-! ## The encoding -/

section Encoding

/-- The code `WriteInterleavedVarints` writes for a value. -/
def varintCode (value : BitVec 32) : Nat :=
  if value.toNat > kVarintMax then kVarintMax + BitsToBytesRoundUp (MinimumBitsToStore value.toNat)
  else value.toNat

/-- The bits of the payload of a large value. -/
def varintPayloadBits (value : BitVec 32) : Nat :=
  BitsToBytesRoundUp (MinimumBitsToStore value.toNat) * kBitsPerByte

/-- The codes of the values, in order. -/
def varintCodeFields (values : List (BitVec 32)) : List (Nat × Nat) :=
  values.map fun value => (kVarintBits, varintCode value)

/-- The payloads of the large values, in order. -/
def varintPayloadFields (values : List (BitVec 32)) : List (Nat × Nat) :=
  (values.filter fun value => value.toNat > kVarintMax).map fun value =>
    (varintPayloadBits value, value.toNat)

/-- What `WriteInterleavedVarints` writes: all the codes, then the payloads. -/
def interleavedVarintFields (values : List (BitVec 32)) : List (Nat × Nat) :=
  varintCodeFields values ++ varintPayloadFields values

variable (value : BitVec 32)

theorem size_toNat_le : value.toNat.size ≤ 32 :=
  Nat.size_le.mpr value.isLt

/-- A payload is the value's bits rounded up to whole bytes. -/
theorem varintPayloadBits_eq : varintPayloadBits value = 8 * ((value.toNat.size + 7) / 8) := by
  rw [varintPayloadBits, BitsToBytesRoundUp_eq, MinimumBitsToStore_eq_size, kBitsPerByte,
    Nat.mul_comm]

theorem varintPayloadBits_le : varintPayloadBits value ≤ 32 := by
  have bounded := size_toNat_le value
  rw [varintPayloadBits_eq]
  omega

theorem lt_two_pow_varintPayloadBits : value.toNat < 2 ^ varintPayloadBits value := by
  have roundedUp : value.toNat.size ≤ varintPayloadBits value := by
    rw [varintPayloadBits_eq]
    omega
  calc value.toNat < 2 ^ value.toNat.size := Nat.size_le.mp le_rfl
    _ ≤ 2 ^ varintPayloadBits value := Nat.pow_le_pow_right (by omega) roundedUp

theorem varintCode_lt : varintCode value < 2 ^ kVarintBits := by
  have bounded := size_toNat_le value
  unfold varintCode
  rw [BitsToBytesRoundUp_eq, MinimumBitsToStore_eq_size]
  split
  · simp only [kVarintMax, kVarintBits]
    omega
  · simp only [kVarintMax, kVarintBits] at *
    omega

theorem varintCode_of_le (small : value.toNat ≤ kVarintMax) : varintCode value = value.toNat := by
  rw [varintCode, if_neg (by omega)]

/-- The code of a large value is above `kVarintMax`, so that the reader takes
it for a length, and that length is the payload's. -/
theorem varintCode_of_gt (large : value.toNat > kVarintMax) :
    varintCode value > kVarintMax ∧
      (varintCode value - kVarintMax) * kBitsPerByte = varintPayloadBits value := by
  have wide : 3 < value.toNat.size := Nat.lt_size.mpr (by simp only [kVarintMax] at large; omega)
  rw [varintCode, if_pos large, varintPayloadBits, BitsToBytesRoundUp_eq, MinimumBitsToStore_eq_size]
  constructor
  · omega
  · rw [Nat.add_sub_cancel_left]

theorem varintPayloadFields_of_gt (large : value.toNat > kVarintMax) :
    varintPayloadFields [value] = [(varintPayloadBits value, value.toNat)] := by
  simp [varintPayloadFields, large]

theorem varintPayloadFields_of_le (small : value.toNat ≤ kVarintMax) :
    varintPayloadFields [value] = [] := by
  simp [varintPayloadFields, show ¬ value.toNat > kVarintMax by omega]

theorem fieldsLength_varintCodeFields (values : List (BitVec 32)) :
    fieldsLength (varintCodeFields values) = values.length * kVarintBits := by
  induction values with
  | nil => rfl
  | cons value values inductionHypothesis =>
      simp only [varintCodeFields, List.map_cons, fieldsLength_cons] at *
      rw [inductionHypothesis, List.length_cons, Nat.succ_mul, Nat.add_comm]

theorem varintPayloadFields_cons (values : List (BitVec 32)) :
    varintPayloadFields (value :: values) = varintPayloadFields [value] ++ varintPayloadFields values := by
  by_cases large : value.toNat > kVarintMax <;> simp [varintPayloadFields, large]

/-- Each value takes four bits, and a large one its payload after them. -/
theorem fieldsLength_interleavedVarintFields (values : List (BitVec 32)) :
    fieldsLength (interleavedVarintFields values) =
      (values.map fun value =>
        if value.toNat ≤ kVarintMax then 4 else 4 + 8 * ((value.toNat.size + 7) / 8)).sum := by
  induction values with
  | nil => rfl
  | cons value values inductionHypothesis =>
      rw [interleavedVarintFields, varintPayloadFields_cons, varintCodeFields] at *
      simp only [List.map_cons, fieldsLength_append, fieldsLength_cons, List.sum_cons] at *
      rw [← inductionHypothesis, ← varintPayloadBits_eq]
      by_cases large : value.toNat > kVarintMax
      · simp [varintPayloadFields, large, kVarintBits, show ¬ value.toNat ≤ kVarintMax by omega]
        omega
      · simp [varintPayloadFields, large, kVarintBits, show value.toNat ≤ kVarintMax by omega]
        omega

end Encoding

/-! ## The reader's steps -/

namespace BitMemoryReader

/-- The stream position of the next bit to read. -/
def cursor (reader : BitMemoryReader) : Nat :=
  reader.finished_region_.origin + reader.finished_region_.bit_size_

/-- The reader once `bit_length` more bits are read. -/
def skip (reader : BitMemoryReader) (bit_length : Nat) : BitMemoryReader :=
  ⟨reader.finished_region_.Resize (reader.NumberOfReadBits + bit_length)⟩

section Steps

variable (reader : BitMemoryReader)

@[simp] theorem cursor_skip (bit_length : Nat) :
    (reader.skip bit_length).cursor = reader.cursor + bit_length := by
  simp [skip, cursor, NumberOfReadBits, Nat.add_assoc]

@[simp] theorem NumberOfReadBits_skip (bit_length : Nat) :
    (reader.skip bit_length).NumberOfReadBits = reader.NumberOfReadBits + bit_length :=
  rfl

@[simp] theorem skip_zero : reader.skip 0 = reader :=
  rfl

theorem skip_skip (first second : Nat) :
    (reader.skip first).skip second = reader.skip (first + second) := by
  simp [skip, BitMemoryRegion.Resize, NumberOfReadBits, Nat.add_assoc]

@[simp] theorem cursor_create (data bit_offset : Nat) :
    (create data bit_offset).cursor = 8 * data + bit_offset := by
  unfold cursor create
  rw [BitMemoryRegion.origin_create_natCast]
  rfl

@[simp] theorem NumberOfReadBits_create (data : Nat) (bit_offset : Int) :
    (create data bit_offset).NumberOfReadBits = 0 :=
  rfl

/-- `ReadRegion` returns the region at the cursor. -/
@[simp] theorem origin_ReadRegion (bit_length : Nat) :
    (reader.ReadRegion bit_length).1.origin = reader.cursor := by
  simp [ReadRegion, cursor]

theorem ReadRegion_snd (bit_length : Nat) :
    (reader.ReadRegion bit_length).2 = reader.skip bit_length :=
  rfl

theorem ReadBits_snd (Result : UnsignedType) (memory : Nat → BitVec 8) (bit_length : Nat) :
    (reader.ReadBits Result memory bit_length).2 = reader.skip bit_length :=
  rfl

/-- `ReadBits` reads the field at the cursor. -/
theorem toNat_ReadBits (Result : UnsignedType) (memory : Nat → BitVec 8) {bit_length : Nat}
    (fits : bit_length ≤ Result.width) :
    (reader.ReadBits Result memory bit_length).1.toNat =
      bitField (bitAt memory) reader.cursor bit_length := by
  simp only [ReadBits, ReadRegion]
  rw [BitMemoryRegion.LoadBits_toNat _ _ _ fits]
  simp [cursor]

end Steps

section Varints

variable (size_t : UnsignedType) (memory : Nat → BitVec 8)

/-- `ReadVarint` is the loop body of `ReadInterleavedVarints` after the read of
one code. -/
theorem ReadVarint_eq (reader : BitMemoryReader) :
    reader.ReadVarint size_t memory =
      readVarintPayload size_t memory ((reader.ReadBits size_t memory kVarintBits).1.setWidth 32)
        (reader.skip kVarintBits) := by
  unfold ReadVarint readVarintPayload
  rw [← ReadBits_snd reader size_t memory kVarintBits]
  generalize reader.ReadBits size_t memory kVarintBits = read
  obtain ⟨x, next⟩ := read
  dsimp only
  by_cases small : (x.setWidth 32).toNat ≤ kVarintMax
  · rw [if_pos small, if_neg (by omega)]
  · rw [if_neg small, if_pos (by omega)]

variable (wide : 32 ≤ size_t.width)
include wide

/-- The loop body of `ReadInterleavedVarints` at the code of a value reads the
value's payload, if it has one. -/
theorem readVarintPayload_code (value : BitVec 32) (reader : BitMemoryReader)
    (found : FieldsAt (bitAt memory) reader.cursor (varintPayloadFields [value])) :
    readVarintPayload size_t memory (BitVec.ofNat 32 (varintCode value)) reader =
      (value, reader.skip (fieldsLength (varintPayloadFields [value]))) := by
  have code : (BitVec.ofNat 32 (varintCode value)).toNat = varintCode value :=
    Nat.mod_eq_of_lt (lt_trans (varintCode_lt value) (by decide))
  unfold readVarintPayload
  by_cases large : value.toNat > kVarintMax
  · obtain ⟨above, payloadBits⟩ := varintCode_of_gt value large
    have fields := varintPayloadFields_of_gt value large
    rw [fields, fieldsAt_cons] at found
    rw [code, if_pos above, payloadBits, fields]
    have payload := toNat_ReadBits reader size_t memory
      (show varintPayloadBits value ≤ size_t.width from le_trans (varintPayloadBits_le value) wide)
    simp only [fieldsLength_cons, fieldsLength_nil, Nat.add_zero, ReadBits_snd, Prod.mk.injEq,
      and_true]
    apply BitVec.eq_of_toNat_eq
    rw [BitVec.toNat_setWidth, payload, found.1, Nat.mod_eq_of_lt value.isLt]
  · rw [code, varintCode_of_le value (by omega), if_neg large,
      varintPayloadFields_of_le value (by omega), fieldsLength_nil, skip_zero,
      BitVec.ofNat_toNat, BitVec.setWidth_eq]

/-- The second loop of `ReadInterleavedVarints` at the codes of some values
reads their payloads in order. -/
theorem readVarintPayloads_codes (values : List (BitVec 32)) :
    ∀ reader : BitMemoryReader,
      FieldsAt (bitAt memory) reader.cursor (varintPayloadFields values) →
        readVarintPayloads size_t memory (values.map fun value => BitVec.ofNat 32 (varintCode value))
            reader =
          (values, reader.skip (fieldsLength (varintPayloadFields values))) := by
  induction values with
  | nil => intro reader _; rfl
  | cons value values inductionHypothesis =>
      intro reader found
      rw [varintPayloadFields_cons, fieldsAt_append] at found
      rw [List.map_cons, readVarintPayloads, readVarintPayload_code size_t memory wide value reader
        found.1]
      dsimp only
      rw [inductionHypothesis _ (by rw [cursor_skip]; exact found.2), skip_skip,
        varintPayloadFields_cons value values, fieldsLength_append]

/-- `ReadInterleavedVarints` at the fields `WriteInterleavedVarints` writes
reads back the values and exactly those fields. -/
theorem ReadInterleavedVarints_fields (values : List (BitVec 32))
    (fits : values.length * kVarintBits ≤ 64) (reader : BitMemoryReader)
    (found : FieldsAt (bitAt memory) reader.cursor (interleavedVarintFields values)) :
    reader.ReadInterleavedVarints size_t memory values.length =
      (values, reader.skip (fieldsLength (interleavedVarintFields values))) := by
  rw [interleavedVarintFields, fieldsAt_append] at found
  obtain ⟨codes, payloads⟩ := found
  have header := toNat_ReadBits reader UnsignedType.uint64_t memory
    (show values.length * kVarintBits ≤ UnsignedType.uint64_t.width from fits)
  -- the codes of the single `uint64_t` load, one per value
  have extracted : ((List.range values.length).map fun i =>
      (BitFieldExtract (reader.ReadBits UnsignedType.uint64_t memory
        (values.length * kVarintBits)).1 (i * kVarintBits) kVarintBits).setWidth 32) =
      values.map fun value => BitVec.ofNat 32 (varintCode value) := by
    apply List.ext_get (by simp)
    intro i inRange inValues
    have index : i < values.length := by simpa using inValues
    have inside : i * kVarintBits + kVarintBits ≤ values.length * kVarintBits := by
      rw [← Nat.succ_mul]
      exact Nat.mul_le_mul_right _ index
    have field := fieldsAt_map_of_length (bitAt memory) kVarintBits varintCode values
      reader.cursor codes i index
    apply BitVec.eq_of_toNat_eq
    simp only [List.get_eq_getElem, List.getElem_map, List.getElem_range] at field ⊢
    rw [BitVec.toNat_setWidth, toNat_BitFieldExtract _ _ (by decide), header,
      bitField_shiftRight_mod _ inside, field, BitVec.toNat_ofNat]
  unfold ReadInterleavedVarints
  dsimp only
  rw [fieldsLength_varintCodeFields] at payloads
  rw [extracted, ReadBits_snd, readVarintPayloads_codes size_t memory wide values _
    (by rw [cursor_skip]; exact payloads), skip_skip, interleavedVarintFields, fieldsLength_append,
    fieldsLength_varintCodeFields]

/-- `ReadVarint` at the fields `WriteVarint` writes reads back the value and
exactly those fields. -/
theorem ReadVarint_fields (value : BitVec 32) (reader : BitMemoryReader)
    (found : FieldsAt (bitAt memory) reader.cursor (interleavedVarintFields [value])) :
    reader.ReadVarint size_t memory =
      (value, reader.skip (fieldsLength (interleavedVarintFields [value]))) := by
  rw [interleavedVarintFields, varintCodeFields, List.map_cons, List.map_nil, List.cons_append,
    List.nil_append, fieldsAt_cons] at found
  have code : (reader.ReadBits size_t memory kVarintBits).1.setWidth 32 =
      BitVec.ofNat 32 (varintCode value) := by
    apply BitVec.eq_of_toNat_eq
    rw [BitVec.toNat_setWidth, toNat_ReadBits _ _ _ (le_trans (by decide) size_t.eight_le_width),
      found.1, BitVec.toNat_ofNat]
  rw [ReadVarint_eq, code, readVarintPayload_code size_t memory wide value _
    (by rw [cursor_skip]; exact found.2), skip_skip, interleavedVarintFields, fieldsLength_append,
    fieldsLength_varintCodeFields]
  rfl

end Varints

end BitMemoryReader

/-! ## The writer's steps -/

namespace BitMemoryWriter

/-- What a writer has written from the stream position `start`: `fields`, one
after another, the last ending at `bit_offset_`, inside the vector once one
has been written. -/
structure Wrote (writer : BitMemoryWriter) (start : Nat) (fields : List (Nat × Nat)) : Prop where
  start_eq : kBitsPerByte * writer.out_data + writer.bit_start_ = start
  offset : writer.bit_offset_ = writer.bit_start_ + fieldsLength fields
  inVector : fields = [] ∨ writer.bit_offset_ ≤ kBitsPerByte * writer.out_size
  holds : FieldsAt (bitAt writer.memory) start fields

/-- A new writer has written nothing from its offset. -/
theorem wrote_create (memory : Nat → BitVec 8) (out_data out_size bit_offset : Nat) :
    Wrote (create memory out_data out_size bit_offset) (kBitsPerByte * out_data + bit_offset) [] :=
  ⟨rfl, rfl, Or.inl rfl, trivial⟩

theorem Wrote.NumberOfWrittenBits {writer : BitMemoryWriter} {start : Nat}
    {fields : List (Nat × Nat)} (wrote : Wrote writer start fields) :
    writer.NumberOfWrittenBits = fieldsLength fields := by
  rw [BitMemoryWriter.NumberOfWrittenBits, wrote.offset]
  omega

/-- Growing the vector keeps the bits of its old bytes. -/
theorem bitAt_resize_of_lt (writer : BitMemoryWriter) (size : Nat) {position : Nat}
    (inside : position < kBitsPerByte * (writer.out_data + writer.out_size)) :
    bitAt (writer.resize size).memory position = bitAt writer.memory position := by
  simp only [bitAt, resize]
  simp only [kBitsPerByte] at inside
  rw [if_neg (by omega)]

variable (size_t : UnsignedType)

/-- `WriteBits` writes its field at `bit_offset_`, over the grown vector. -/
theorem bitAt_WriteBits (writer : BitMemoryWriter) {value : BitVec 32} {bit_length : Nat}
    (fits : bit_length ≤ size_t.width) (small : value.toNat < 2 ^ bit_length) :
    bitAt (writer.WriteBits size_t value bit_length).memory =
      writeField (bitAt (writer.resize (BitsToBytesRoundUp (writer.bit_offset_ + bit_length))).memory)
        (kBitsPerByte * writer.out_data + writer.bit_offset_) bit_length value.toNat := by
  have widened : (value.setWidth size_t.width).toNat = value.toNat := by
    rw [BitVec.toNat_setWidth]
    exact Nat.mod_eq_of_lt (lt_of_lt_of_le small (Nat.pow_le_pow_right (by omega) fits))
  simp only [WriteBits, Allocate]
  rw [BitMemoryRegion.bitAt_StoreBits _ _ fits (by rw [widened]; exact small),
    BitMemoryRegion.origin_create_natCast, widened]
  rfl

/-- `WriteBits` appends its field to what the writer wrote. -/
theorem Wrote.WriteBits {writer : BitMemoryWriter} {start : Nat} {fields : List (Nat × Nat)}
    (wrote : Wrote writer start fields) {value : BitVec 32} {bit_length : Nat}
    (fits : bit_length ≤ size_t.width) (small : value.toNat < 2 ^ bit_length) :
    Wrote (writer.WriteBits size_t value bit_length) start (fields ++ [(bit_length, value.toNat)]) := by
  have position : start + fieldsLength fields = kBitsPerByte * writer.out_data + writer.bit_offset_ := by
    rw [← wrote.start_eq, wrote.offset]
    omega
  refine ⟨wrote.start_eq, ?_, Or.inr (le_BitsToBytesRoundUp _), ?_⟩
  · simp only [BitMemoryWriter.WriteBits, Allocate, resize, fieldsLength_append, fieldsLength_cons,
      fieldsLength_nil, wrote.offset]
    omega
  rw [bitAt_WriteBits size_t writer fits small, fieldsAt_append, ← position]
  constructor
  · apply fieldsAt_writeField_of_le _ _ le_rfl
    -- the grown vector keeps every written bit: none, or all below the old end
    apply fieldsAt_congr _ fields start _ wrote.holds
    intro j inside
    rcases wrote.inVector with empty | inVector
    · simp [empty] at inside
    · rw [bitAt_resize_of_lt]
      rw [← wrote.start_eq, wrote.offset] at *
      simp only [kBitsPerByte] at *
      omega
  · simp only [fieldsAt_cons, fieldsAt_nil, and_true]
    exact bitField_writeField_self _ _ _ _ small

/-- The first loop's body writes the value's code. -/
theorem writeVarintCode_eq (writer : BitMemoryWriter) (value : BitVec 32) :
    writeVarintCode size_t writer value =
      writer.WriteBits size_t (BitVec.ofNat 32 (varintCode value)) kVarintBits := by
  unfold writeVarintCode varintCode
  split
  · rfl
  · rw [BitVec.ofNat_toNat, BitVec.setWidth_eq]

/-- The first loop of `WriteInterleavedVarints` writes the codes. -/
theorem Wrote.foldl_writeVarintCode (values : List (BitVec 32)) :
    ∀ {writer : BitMemoryWriter} {start : Nat} {fields : List (Nat × Nat)},
      Wrote writer start fields →
        Wrote (values.foldl (writeVarintCode size_t) writer) start (fields ++ varintCodeFields values) := by
  induction values with
  | nil => intro writer start fields wrote; simpa [varintCodeFields] using wrote
  | cons value values inductionHypothesis =>
      intro writer start fields wrote
      have code : (BitVec.ofNat 32 (varintCode value)).toNat = varintCode value :=
        Nat.mod_eq_of_lt (lt_trans (varintCode_lt value) (by decide))
      have written := wrote.WriteBits size_t
        (show kVarintBits ≤ size_t.width from le_trans (by decide) size_t.eight_le_width)
        (show (BitVec.ofNat 32 (varintCode value)).toNat < 2 ^ kVarintBits by
          rw [code]; exact varintCode_lt value)
      rw [code, ← writeVarintCode_eq] at written
      rw [List.foldl_cons]
      simpa [varintCodeFields] using inductionHypothesis written

/-- The second loop of `WriteInterleavedVarints` writes the payloads. -/
theorem Wrote.foldl_writeVarintPayload (wide : 32 ≤ size_t.width) (values : List (BitVec 32)) :
    ∀ {writer : BitMemoryWriter} {start : Nat} {fields : List (Nat × Nat)},
      Wrote writer start fields →
        Wrote (values.foldl (writeVarintPayload size_t) writer) start
          (fields ++ varintPayloadFields values) := by
  induction values with
  | nil => intro writer start fields wrote; simpa [varintPayloadFields] using wrote
  | cons value values inductionHypothesis =>
      intro writer start fields wrote
      rw [List.foldl_cons, varintPayloadFields_cons, ← List.append_assoc]
      apply inductionHypothesis
      unfold writeVarintPayload
      by_cases large : value.toNat > kVarintMax
      · rw [if_pos large, varintPayloadFields_of_gt value large]
        exact wrote.WriteBits size_t
          (le_trans (varintPayloadBits_le value) wide) (lt_two_pow_varintPayloadBits value)
      · rw [if_neg large, varintPayloadFields_of_le value (by omega), List.append_nil]
        exact wrote

/-- `WriteInterleavedVarints` appends the codes and then the payloads. -/
theorem Wrote.WriteInterleavedVarints (wide : 32 ≤ size_t.width) {writer : BitMemoryWriter}
    {start : Nat} {fields : List (Nat × Nat)} (wrote : Wrote writer start fields)
    (values : List (BitVec 32)) :
    Wrote (writer.WriteInterleavedVarints size_t values) start
      (fields ++ interleavedVarintFields values) := by
  have codes := wrote.foldl_writeVarintCode size_t values
  have payloads := codes.foldl_writeVarintPayload size_t wide values
  rwa [List.append_assoc] at payloads

end BitMemoryWriter

/-! ## The round trip -/

section RoundTrip

/-- A writer started at any bit of any vector writes interleaved varints that a
reader started at the same bit reads back, reading exactly the bits written:
four for a value up to `kVarintMax`, and four more than its bits rounded up to
bytes for a larger one.  `WriteVarint` and `ReadVarint` do the same for one
value.  `size_t` is at least as wide as the `uint32_t` values it carries. -/
theorem interleavedVarints_round_trip (size_t : UnsignedType) (wide : 32 ≤ size_t.width) :
    (∀ (memory : Nat → BitVec 8) (out_data out_size bit_offset : Nat) (values : List (BitVec 32)),
      values.length * kVarintBits ≤ 64 →
        let writer := (BitMemoryWriter.create memory out_data out_size bit_offset).WriteInterleavedVarints
          size_t values
        let read := (BitMemoryReader.create out_data bit_offset).ReadInterleavedVarints size_t
          writer.memory values.length
        read.1 = values ∧ read.2.NumberOfReadBits = writer.NumberOfWrittenBits ∧
          writer.NumberOfWrittenBits =
            (values.map fun value =>
              if value.toNat ≤ kVarintMax then 4 else 4 + 8 * ((value.toNat.size + 7) / 8)).sum) ∧
    ∀ (memory : Nat → BitVec 8) (out_data out_size bit_offset : Nat) (value : BitVec 32),
      let writer := (BitMemoryWriter.create memory out_data out_size bit_offset).WriteVarint size_t value
      let read := (BitMemoryReader.create out_data bit_offset).ReadVarint size_t writer.memory
      read.1 = value ∧ read.2.NumberOfReadBits = writer.NumberOfWrittenBits ∧
        writer.NumberOfWrittenBits =
          if value.toNat ≤ kVarintMax then 4 else 4 + 8 * ((value.toNat.size + 7) / 8) := by
  constructor
  · intro memory out_data out_size bit_offset values fits
    have wrote := (BitMemoryWriter.wrote_create memory out_data out_size bit_offset).WriteInterleavedVarints
      size_t wide values
    rw [List.nil_append] at wrote
    have found := wrote.holds
    rw [kBitsPerByte, ← BitMemoryReader.cursor_create out_data bit_offset] at found
    dsimp only
    rw [BitMemoryReader.ReadInterleavedVarints_fields size_t _ wide values fits _ found,
      wrote.NumberOfWrittenBits, ← fieldsLength_interleavedVarintFields]
    simp
  · intro memory out_data out_size bit_offset value
    have wrote := (BitMemoryWriter.wrote_create memory out_data out_size bit_offset).WriteInterleavedVarints
      size_t wide [value]
    rw [List.nil_append] at wrote
    have found := wrote.holds
    rw [kBitsPerByte, ← BitMemoryReader.cursor_create out_data bit_offset] at found
    have size := fieldsLength_interleavedVarintFields [value]
    rw [List.map_cons, List.map_nil, List.sum_cons, List.sum_nil, Nat.add_zero] at size
    dsimp only
    rw [BitMemoryWriter.WriteVarint, BitMemoryReader.ReadVarint_fields size_t _ wide value _ found,
      wrote.NumberOfWrittenBits, ← size]
    simp

theorem sourceExample_interleavedVarints_round_trip :
    32 ≤ UnsignedType.uint64_t.width ∧
      ((BitMemoryReader.create 0 3).ReadInterleavedVarints UnsignedType.uint64_t
          ((BitMemoryWriter.create (fun _ => 0#8) 0 0 3).WriteInterleavedVarints UnsignedType.uint64_t
            [1#32, 15#32, 12#32, 7#32, 11#32, 256#32]).memory 6).1 =
        [1#32, 15#32, 12#32, 7#32, 11#32, 256#32] :=
  ⟨by decide, ((interleavedVarints_round_trip UnsignedType.uint64_t (by decide)).1 (fun _ => 0#8) 0 0 3
    [1#32, 15#32, 12#32, 7#32, 11#32, 256#32] (by decide)).1⟩

end RoundTrip

end ArtRuntime.Base
