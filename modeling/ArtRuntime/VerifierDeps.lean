import ArtRuntime.Leb128
import ArtRuntime.BitMemoryStream
import ArtRuntime.Bits.ByteWords

namespace ArtRuntime.Verifier

open ArtRuntime.Bits

/-!
# Stored verifier dependencies

`VerifierDeps::Encode` writes, after a table of one word per dex file, each
dex file's dependencies: a table of one word per class definition holding
the offset of the class's assignability tuples, or `kNotVerifiedMarker` for
a class that did not verify, and a last word holding the end of the tuples;
the tuples themselves, two unsigned LEB128 numbers each; and, four-byte
aligned, the extra strings, a count and one offset per string followed by
the strings with their terminating NUL.  Every offset counts from the start
of the buffer and is stored as a `uint32_t`.

The decoders read the buffer in place.  They are modelled over the stored
bytes at the address `base` of `data_start`, with pointers as addresses, so
that `AlignUp` on a pointer is `RoundUp` on an address.  A load from outside
`[data_start, data_end)` and a subscript past the end of a `std::vector`
are behaviours the C++ leaves undefined; the model stops there with a
`Fault`.  A decoder that returns `false` gives `none`: its callers drop
what it had filled in.

A `std::set` is a `Finset`, iterated in its order by `Finset.sort`; the
tuple type orders its pairs lexicographically, as `std::tuple` does.
-/

/-- `dex::StringIndex`: a `uint32_t` index. -/
abbrev StringIndex := Fin (2 ^ 32)

/-- `TypeAssignability`, the tuple of a destination and a source index. -/
abbrev TypeAssignability := StringIndex ×ₗ StringIndex

def kNotVerifiedMarker : Nat := 2 ^ 32 - 1

/-- `VerifierDeps::DexFileDeps`. -/
structure DexFileDeps where
  strings : List (List UInt8)
  assignable_types : List (Finset TypeAssignability)
  verified_classes : List Bool
  deriving DecidableEq

/-- `DexFileDeps(num_class_defs)`. -/
def DexFileDeps.ofNumClassDefs (num_class_defs : Nat) : DexFileDeps :=
  ⟨[], List.replicate num_class_defs ∅, List.replicate num_class_defs false⟩

/-! ## Encoding -/

/-- `EncodeTuple(out, t)`: `Encode` of a `StringIndex` is its index. -/
def EncodeTuple (out : List UInt8) (t : TypeAssignability) : List UInt8 :=
  let out := Base.EncodeUnsignedLeb128ToVector out (BitVec.ofNat 64 (ofLex t).1.val)
  Base.EncodeUnsignedLeb128ToVector out (BitVec.ofNat 64 (ofLex t).2.val)

/-- `SetUint32InUint8Array(out, uint8_offset, uint32_offset, value)`: word
`uint32_offset` of the `uint32_t` array at byte `uint8_offset`. -/
def SetUint32InUint8Array (out : List UInt8) (uint8_offset uint32_offset value : Nat) :
    List UInt8 :=
  overwrite out (uint8_offset + 4 * uint32_offset) (word32Bytes value)

/-- The loop of `EncodeSetVector` from class `class_def_index`. -/
def EncodeSetVectorLoop (offsets_index : Nat) (verified_classes : List Bool) :
    (class_def_index : Nat) → List (Finset TypeAssignability) → List UInt8 → List UInt8
  | class_def_index, [], out =>
      SetUint32InUint8Array out offsets_index class_def_index out.length
  | class_def_index, set :: vector, out =>
      let out :=
        if verified_classes.getD class_def_index false then
          -- Store the offset of the set for this class.
          let out := SetUint32InUint8Array out offsets_index class_def_index out.length
          set.sort.foldl EncodeTuple out
        else
          SetUint32InUint8Array out offsets_index class_def_index kNotVerifiedMarker
      EncodeSetVectorLoop offsets_index verified_classes (class_def_index + 1) vector out

/-- `EncodeSetVector(out, vector, verified_classes)`. -/
def EncodeSetVector (out : List UInt8) (vector : List (Finset TypeAssignability))
    (verified_classes : List Bool) : List UInt8 :=
  let offsets_index := out.length % 2 ^ 32
  -- Make room for offsets for each class, +1 for marking the end of the
  -- assignability types data.
  let out := out ++ List.replicate ((vector.length + 1) * 4) 0
  EncodeSetVectorLoop offsets_index verified_classes 0 vector out

/-- The loop of `EncodeStringVector` from string `string_index`. -/
def EncodeStringVectorLoop (offsets_index : Nat) :
    (string_index : Nat) → List (List UInt8) → List UInt8 → List UInt8
  | _, [], out => out
  | string_index, str :: strings, out =>
      -- Store the offset of the string, then its data and the NUL of `c_str()`.
      let out := SetUint32InUint8Array out offsets_index string_index out.length
      EncodeStringVectorLoop offsets_index (string_index + 1) strings (out ++ str ++ [0])

/-- `EncodeStringVector(out, strings)`. -/
def EncodeStringVector (out : List UInt8) (strings : List (List UInt8)) : List UInt8 :=
  let offsets_index := out.length % 2 ^ 32
  -- Make room for offsets for each string, +1 for putting the number of strings.
  let out := out ++ List.replicate ((strings.length + 1) * 4) 0
  let out := SetUint32InUint8Array out offsets_index 0 strings.length
  EncodeStringVectorLoop offsets_index 1 strings out

/-- `buffer->resize(RoundUp(buffer->size(), sizeof(uint32_t)))`. -/
def AlignBuffer (buffer : List UInt8) : List UInt8 :=
  buffer ++ List.replicate (Base.RoundUp buffer.length 4 - buffer.length) 0

/-- The loop of `VerifierDeps::Encode` from dex file `dex_file_index`. -/
def EncodeLoop : (dex_file_index : Nat) → List DexFileDeps → List UInt8 → List UInt8
  | _, [], buffer => buffer
  | dex_file_index, deps :: dex_deps, buffer =>
      -- Four byte alignment before encoding the data.
      let buffer := AlignBuffer buffer
      let buffer := SetUint32InUint8Array buffer 0 dex_file_index buffer.length
      let buffer := EncodeSetVector buffer deps.assignable_types deps.verified_classes
      -- Four byte alignment before encoding strings.
      let buffer := EncodeStringVector (AlignBuffer buffer) deps.strings
      EncodeLoop (dex_file_index + 1) dex_deps buffer

/-- `VerifierDeps::Encode(dex_files, buffer)`, the dependencies of each dex
file in the order of `dex_files`. -/
def Encode (dex_deps : List DexFileDeps) : List UInt8 :=
  EncodeLoop 0 dex_deps (List.replicate (dex_deps.length * 4) 0)

/-! ## Decoding -/

/-- The buffer the decoders read: its bytes, from the address `base` of
`data_start`. -/
structure StoredData where
  base : Nat
  bytes : List UInt8

/-- What the C++ leaves undefined, where the model stops. -/
inductive Fault where
  /-- A load from outside `[data_start, data_end)`. -/
  | load (address : Nat)
  /-- `vector[index]` on a `std::vector` of `size` elements. -/
  | subscript (index size : Nat)
  deriving Repr, DecidableEq

namespace StoredData

variable (data : StoredData)

/-- `data_end`. -/
def limit : Nat :=
  data.base + data.bytes.length

/-- A load of the `uint32_t` at `address`. -/
def loadWord32 (address : Nat) : Except Fault Nat :=
  if data.base ≤ address then
    match readWord32 data.bytes (address - data.base) with
    | some word => .ok word
    | none => .error (.load address)
  else
    .error (.load address)

/-- A load of the byte at `address`. -/
def loadByte (address : Nat) : Except Fault UInt8 :=
  if inside : data.base ≤ address ∧ address - data.base < data.bytes.length then
    .ok data.bytes[address - data.base]
  else
    .error (.load address)

/-- The bytes from `address` on, as the checked LEB128 decoder reads them: it
reads nothing at or past the `end` it is given. -/
def bytesFrom (address : Nat) : Nat → UInt8 :=
  fun k => data.bytes.getD (address - data.base + k) 0

/-- The bytes of `[first, last)`. -/
def slice (first last : Nat) : List UInt8 :=
  (data.bytes.drop (first - data.base)).take (last - first)

/-- `memchr(address, 0, count)`: the address of the first zero byte of the
`count` bytes from `address`. -/
def memchrZero : (address count : Nat) → Except Fault (Option Nat)
  | _, 0 => .ok none
  | address, count + 1 =>
      match data.loadByte address with
      | .error fault => .error fault
      | .ok byte => if byte = 0 then .ok (some address) else memchrZero (address + 1) count

theorem lt_limit_of_loadWord32 {address word : Nat} (loaded : data.loadWord32 address = .ok word) :
    address < data.limit := by
  unfold loadWord32 at loaded
  split_ifs at loaded with above
  rcases read : readWord32 data.bytes (address - data.base) with _ | word'
  · rw [read] at loaded
    exact absurd loaded (by simp)
  · have inside := readWord32_isSome_iff.mp (by rw [read]; rfl)
    unfold limit
    omega

end StoredData

/-- `DecodeTuple(in, end, t)`: the tuple and where the cursor ends, or `none`
where it returns false. -/
def DecodeTuple (data : StoredData) (cursor end_ : Nat) : Option (TypeAssignability × Nat) :=
  match Base.DecodeUnsignedLeb128Checked 32 (data.bytesFrom cursor) (end_ - cursor) with
  | none => none
  | some (v1, read1) =>
    match Base.DecodeUnsignedLeb128Checked 32 (data.bytesFrom (cursor + read1))
        (end_ - (cursor + read1)) with
    | none => none
    | some (v2, read2) => some (toLex (v1.toFin, v2.toFin), cursor + read1 + read2)

theorem lt_of_DecodeTuple {data : StoredData} {cursor end_ : Nat} {tuple : TypeAssignability}
    {next : Nat} (decoded : DecodeTuple data cursor end_ = some (tuple, next)) : cursor < next := by
  unfold DecodeTuple at decoded
  rcases first : Base.DecodeUnsignedLeb128Checked 32 (data.bytesFrom cursor) (end_ - cursor) with
    _ | ⟨v1, read1⟩
  · simp only [first, reduceCtorEq] at decoded
  rcases second : Base.DecodeUnsignedLeb128Checked 32 (data.bytesFrom (cursor + read1))
      (end_ - (cursor + read1)) with _ | ⟨v2, read2⟩
  · simp only [first, second, reduceCtorEq] at decoded
  simp only [first, second, Option.some.injEq, Prod.mk.injEq] at decoded
  have readsOne := Base.DecodeLeb128Helper_pos (by decide) first
  omega

/-- The look-ahead of `DecodeSetVector` for class `i`: the first index
past `i`, from `next_valid_offset_index`, whose offset is not
`kNotVerifiedMarker`. -/
def NextValidOffsetIndex (data : StoredData) (offsets i : Nat) (next_valid_offset_index : Nat) :
    Except Fault Nat :=
  if next_valid_offset_index ≤ i then
    NextValidOffsetIndex data offsets i (next_valid_offset_index + 1)
  else
    match loaded : data.loadWord32 (offsets + 4 * next_valid_offset_index) with
    | .error fault => .error fault
    | .ok offset =>
      if offset = kNotVerifiedMarker then
        NextValidOffsetIndex data offsets i (next_valid_offset_index + 1)
      else
        .ok next_valid_offset_index
termination_by data.limit + i + 1 - next_valid_offset_index
decreasing_by
  · omega
  · have inside := data.lt_limit_of_loadWord32 loaded
    omega

/-- The loop of `DecodeSetVector` over the tuples of one class, up to
`set_end`. -/
def DecodeSetLoop (kFillSet : Bool) (data : StoredData) (end_ set_end : Nat) (cursor : Nat)
    (set : Finset TypeAssignability) : Option (Nat × Finset TypeAssignability) :=
  if cursor < set_end then
    match decoded : DecodeTuple data cursor end_ with
    | none => none
    | some (tuple, next) =>
      DecodeSetLoop kFillSet data end_ set_end next (if kFillSet then insert tuple set else set)
  else
    some (cursor, set)
termination_by set_end - cursor
decreasing_by
  have advanced := lt_of_DecodeTuple decoded
  omega

/-- What a decoder gives back: the cursor and what it filled in, `none`
where it returns false. -/
abbrev Decoded (α : Type) := Except Fault (Option (Nat × α))

/-- The loop of `DecodeSetVector<kFillSet>` over the classes from `i`, with
`remaining` of them left. -/
def DecodeSetVectorLoop (kFillSet : Bool) (data : StoredData) (start end_ offsets : Nat) :
    (remaining i next_valid_offset_index cursor : Nat) → List (Finset TypeAssignability) →
      List Bool → Decoded (List (Finset TypeAssignability) × List Bool)
  | 0, _, _, cursor, vector, verified_classes => .ok (some (cursor, vector, verified_classes))
  | remaining + 1, i, next_valid_offset_index, cursor, vector, verified_classes =>
    match data.loadWord32 (offsets + 4 * i) with
    | .error fault => .error fault
    | .ok offset =>
      if i < verified_classes.length then
        if offset = kNotVerifiedMarker then
          DecodeSetVectorLoop kFillSet data start end_ offsets remaining (i + 1)
            next_valid_offset_index cursor vector (verified_classes.set i false)
        else
          let verified_classes := verified_classes.set i true
          -- `std::set<T>& set = (*vector)[i]`, with or without `kFillSet`.
          if inVector : i < vector.length then
            match NextValidOffsetIndex data offsets i next_valid_offset_index with
            | .error fault => .error fault
            | .ok next_valid_offset_index =>
              match data.loadWord32 (offsets + 4 * next_valid_offset_index) with
              | .error fault => .error fault
              | .ok set_end_offset =>
                match DecodeSetLoop kFillSet data end_ (start + set_end_offset) (start + offset)
                    vector[i] with
                | none => .ok none
                | some (cursor, set) =>
                  DecodeSetVectorLoop kFillSet data start end_ offsets remaining (i + 1)
                    next_valid_offset_index cursor (vector.set i set) verified_classes
          else
            .error (.subscript i vector.length)
      else
        .error (.subscript i verified_classes.length)

/-- `DecodeSetVector<kFillSet>(cursor, start, end, vector, verified_classes,
num_class_defs)`. -/
def DecodeSetVector (kFillSet : Bool) (data : StoredData) (cursor start end_ : Nat)
    (vector : List (Finset TypeAssignability)) (verified_classes : List Bool)
    (num_class_defs : Nat) : Decoded (List (Finset TypeAssignability) × List Bool) :=
  let offsets := cursor
  -- Put the cursor after the offsets of each class, +1 for the offset of the
  -- end of the assignable types data.
  let cursor := cursor + (num_class_defs + 1) * 4
  match DecodeSetVectorLoop kFillSet data start end_ offsets num_class_defs 0 1 cursor vector
      verified_classes with
  | .ok (some (cursor, filled)) =>
    -- Align the cursor to start decoding the strings.
    .ok (some (Base.RoundUp cursor 4, filled))
  | other => other

/-- The loop of `DecodeStringVector<kFillVector>` from string `i`. -/
def DecodeStringVectorLoop (kFillVector : Bool) (data : StoredData) (start end_ offsets : Nat) :
    (remaining i cursor : Nat) → List (List UInt8) → Decoded (List (List UInt8))
  | 0, _, cursor, strings => .ok (some (cursor, strings))
  | remaining + 1, i, _, strings =>
    match data.loadWord32 (offsets + 4 * (i + 1)) with
    | .error fault => .error fault
    | .ok string_offset =>
      let string_start := start + string_offset
      -- `end - start - string_offset`, a `size_t`.
      let count := (((end_ - start : Nat) : Int) - string_offset) % 2 ^ 64
      match data.memchrZero string_start count.toNat with
      | .error fault => .error fault
      | .ok none => .ok none
      | .ok (some string_end) =>
        let strings :=
          if kFillVector then strings ++ [data.slice string_start string_end] else strings
        DecodeStringVectorLoop kFillVector data start end_ offsets remaining (i + 1)
          (string_end + 1) strings

/-- `DecodeStringVector<kFillVector>(cursor, start, end, strings)`. -/
def DecodeStringVector (kFillVector : Bool) (data : StoredData) (cursor start end_ : Nat)
    (strings : List (List UInt8)) : Decoded (List (List UInt8)) :=
  match data.loadWord32 cursor with
  | .error fault => .error fault
  | .ok num_strings =>
    DecodeStringVectorLoop kFillVector data start end_ cursor num_strings 0
      (cursor + 4 + num_strings * 4) strings

/-- `DecodeDexFileDeps<kOnlyVerifiedClasses>(deps, cursor, data_start,
data_end, num_class_defs)`. -/
def DecodeDexFileDeps (kOnlyVerifiedClasses : Bool) (data : StoredData) (deps : DexFileDeps)
    (cursor num_class_defs : Nat) : Decoded DexFileDeps :=
  match DecodeSetVector (!kOnlyVerifiedClasses) data cursor data.base data.limit
      deps.assignable_types deps.verified_classes num_class_defs with
  | .error fault => .error fault
  | .ok none => .ok none
  | .ok (some (cursor, assignable_types, verified_classes)) =>
    match DecodeStringVector (!kOnlyVerifiedClasses) data cursor data.base data.limit
        deps.strings with
    | .error fault => .error fault
    | .ok none => .ok none
    | .ok (some (cursor, strings)) =>
      .ok (some (cursor, ⟨strings, assignable_types, verified_classes⟩))

/-- The loop of `VerifierDeps::ParseStoredData` from dex file
`dex_file_index`: each dex file's number of class definitions and the
`DexFileDeps` it decodes into. -/
def ParseStoredDataLoop (data : StoredData) :
    (dex_file_index : Nat) → List (Nat × DexFileDeps) → Except Fault (Option (List DexFileDeps))
  | _, [] => .ok (some [])
  | dex_file_index, (num_class_defs, deps) :: dex_files =>
    -- Fetch the offset of this dex file's verifier data.
    match data.loadWord32 (data.base + 4 * dex_file_index) with
    | .error fault => .error fault
    | .ok offset =>
      match DecodeDexFileDeps false data deps (data.base + offset) num_class_defs with
      | .error fault => .error fault
      | .ok none => .ok none
      | .ok (some (_, deps)) =>
        match ParseStoredDataLoop data (dex_file_index + 1) dex_files with
        | .error fault => .error fault
        | .ok none => .ok none
        | .ok (some rest) => .ok (some (deps :: rest))

/-- `VerifierDeps::ParseStoredData(dex_files, data)`: the dependencies it
fills in, or `none` where it returns false. -/
def ParseStoredData (dex_files : List (Nat × DexFileDeps)) (data : StoredData) :
    Except Fault (Option (List DexFileDeps)) :=
  if data.bytes.isEmpty then
    .ok (some (dex_files.map Prod.snd))
  else
    ParseStoredDataLoop data 0 dex_files

end ArtRuntime.Verifier
