import ArtRuntime.BitMemoryStream

namespace ArtRuntime.Base

open ArtRuntime.Bits

/-!
# `BitTable`: tables of `uint32_t` values packed in bits

`libartbase/base/bit_table.h`.  `BitTableBuilderBase::Encode` writes a header
of interleaved varints, the number of rows and then the bits of each column,
followed by every row, column by column, each value plus one in the bits of
its column.  `BitTableBase::Decode` reads the header back, adds the column
bits up into `uint16_t` column offsets and takes the region of the rows, from
which `Get` loads a value.

Rows are counted and addressed in `uint32_t`: `Decode` skips
`num_rows_ * NumRowBits()` bits and `Get` loads from
`row * NumRowBits() + column_offset_[column]`, both computed in 32 bits.  The
round trip holds when the rows take fewer than `2 ^ 32` bits
(`encode_then_decode_round_trip`); past that `Decode` skips too few bits
(`decode_skips_short_of_wide_table`).

Each row is a function from its columns to values.  The de-duplication map of
the builder only serves `Dedup`, which is not modelled, and the checks of
debug builds at the end of `Encode` change nothing.
-/

/-- `kNoValue`: `-1` as a `uint32_t`. -/
def kNoValue : BitVec 32 :=
  BitVec.allOnes 32

/-- `kValueBias`: values are stored minus `kNoValue`, that is plus one, so
that `kNoValue` takes no bits. -/
def kValueBias : BitVec 32 :=
  kNoValue

/-- `BitTableBuilderBase<kNumColumns>`: the rows added so far. -/
structure BitTableBuilderBase (kNumColumns : Nat) where
  rows_ : List (Fin kNumColumns → BitVec 32)

namespace BitTableBuilderBase

variable {kNumColumns : Nat}

/-- `Measure(column_bits)`: for each column, the bits of the OR of its values
minus `kValueBias`. -/
def Measure (builder : BitTableBuilderBase kNumColumns) : Fin kNumColumns → BitVec 32 :=
  let max_column_value := builder.rows_.foldl
    (fun max_column_value row column => max_column_value column ||| (row column - kValueBias))
    fun _ => 0#32
  fun c => BitVec.ofNat 32 (MinimumBitsToStore (max_column_value c).toNat)

/-- `Encode(out)`: the header, then the rows. -/
def Encode (size_t : UnsignedType) (builder : BitTableBuilderBase kNumColumns)
    (out : BitMemoryWriter) : BitMemoryWriter :=
  let column_bits := builder.Measure
  let header := BitVec.ofNat 32 builder.rows_.length :: (List.finRange kNumColumns).map column_bits
  let out := out.WriteInterleavedVarints size_t header
  builder.rows_.foldl
    (fun out row => (List.finRange kNumColumns).foldl
      (fun out c => out.WriteBits size_t (row c - kValueBias) (column_bits c).toNat) out)
    out

end BitTableBuilderBase

/-- `BitTableBase<kNumColumns>` once decoded: the region of the rows, their
number and the offset of each column in a row, the last one being the size
of a row. -/
structure BitTableBase (kNumColumns : Nat) where
  table_data_ : BitMemoryRegion
  num_rows_ : BitVec 32
  column_offset_ : Fin (kNumColumns + 1) → BitVec 16

namespace BitTableBase

variable {kNumColumns : Nat}

/-- The loop of `Decode` over the columns: `column_offset_[i + 1]` is
`column_offset_[i] + header[i + 1]`, added in `uint32_t` and cast to
`uint16_t`. -/
def columnOffset (header : List (BitVec 32)) : Nat → BitVec 16
  | 0 => 0
  | i + 1 => ((columnOffset header i).setWidth 32 + header.getD (i + 1) 0).setWidth 16

def NumRows (table : BitTableBase kNumColumns) : BitVec 32 :=
  table.num_rows_

/-- `NumRowBits()`: `column_offset_[kNumColumns]`. -/
def NumRowBits (table : BitTableBase kNumColumns) : BitVec 32 :=
  (table.column_offset_ (Fin.last kNumColumns)).setWidth 32

/-- `NumColumnBits(column)`: the `uint16_t` offsets are subtracted as `int`. -/
def NumColumnBits (table : BitTableBase kNumColumns) (column : Fin kNumColumns) : BitVec 32 :=
  BitVec.ofInt 32
    ((table.column_offset_ column.succ).toNat - (table.column_offset_ column.castSucc).toNat)

/-- `Decode(reader)`: the header, the column offsets, and the region of
`num_rows_ * NumRowBits()` bits after the header. -/
def Decode (kNumColumns : Nat) (size_t : UnsignedType) (memory : Nat → BitVec 8)
    (reader : BitMemoryReader) : BitTableBase kNumColumns × BitMemoryReader :=
  let (header, reader) := reader.ReadInterleavedVarints size_t memory (1 + kNumColumns)
  let num_rows_ := header.getD 0 0
  let column_offset_ : Fin (kNumColumns + 1) → BitVec 16 := fun i => columnOffset header i
  let (table_data_, reader) :=
    reader.ReadRegion (num_rows_ * (column_offset_ (Fin.last kNumColumns)).setWidth 32).toNat
  (⟨table_data_, num_rows_, column_offset_⟩, reader)

/-- `Get(row, column)`: the offset is computed in `uint32_t`, the load and the
bias in `size_t`, and the result is a `uint32_t`. -/
def Get (size_t : UnsignedType) (memory : Nat → BitVec 8) (table : BitTableBase kNumColumns)
    (row : BitVec 32) (column : Fin kNumColumns) : BitVec 32 :=
  let offset := row * table.NumRowBits + (table.column_offset_ column.castSucc).setWidth 32
  (table.table_data_.LoadBits size_t memory offset.toNat (table.NumColumnBits column).toNat +
    kValueBias.setWidth size_t.width).setWidth 32

end BitTableBase

/-! ## The layout of an encoded table -/

section Layout

variable {kNumColumns : Nat}

/-- The bits of column `c`: those of the OR of its values plus one. -/
def columnBits (rows : List (Fin kNumColumns → BitVec 32)) (c : Fin kNumColumns) : Nat :=
  MinimumBitsToStore
    ((rows.map fun (row : Fin kNumColumns → BitVec 32) => row c + 1).foldl (· ||| ·) 0).toNat

/-- Where column `i` starts in a row: after the bits of the columns before it. -/
def columnStart (rows : List (Fin kNumColumns → BitVec 32)) (i : Nat) : Nat :=
  (((List.finRange kNumColumns).map (columnBits rows)).take i).sum

/-- The bits of a row. -/
def rowBits (rows : List (Fin kNumColumns → BitVec 32)) : Nat :=
  columnStart rows kNumColumns

/-- The header `Encode` writes: the number of rows, then the bits of each
column. -/
def tableHeader (rows : List (Fin kNumColumns → BitVec 32)) : List (BitVec 32) :=
  BitVec.ofNat 32 rows.length ::
    (List.finRange kNumColumns).map fun c => BitVec.ofNat 32 (columnBits rows c)

/-- The fields of a row: each value plus one, in the bits of its column. -/
def rowFields (rows : List (Fin kNumColumns → BitVec 32)) (row : Fin kNumColumns → BitVec 32) :
    List (Nat × Nat) :=
  (List.finRange kNumColumns).map fun c => (columnBits rows c, (row c + 1).toNat)

/-- What `Encode` writes: the header, then the rows. -/
def tableFields (rows : List (Fin kNumColumns → BitVec 32)) : List (Nat × Nat) :=
  interleavedVarintFields (tableHeader rows) ++ rows.flatMap (rowFields rows)

variable (rows : List (Fin kNumColumns → BitVec 32))

/-- Subtracting the bias adds one. -/
theorem sub_kValueBias (value : BitVec 32) : value - kValueBias = value + 1 := by
  apply BitVec.eq_of_toNat_eq
  have one : (1 : BitVec 32).toNat = 1 := rfl
  simp only [kValueBias, kNoValue, BitVec.toNat_sub, BitVec.toNat_add, BitVec.toNat_allOnes, one]
  omega

/-- A bit of an OR over a list is a bit of its start or of one of the values. -/
theorem testBit_foldl_or (values : List (BitVec 32)) :
    ∀ (init : BitVec 32) (i : Nat), (values.foldl (· ||| ·) init).toNat.testBit i =
      (init.toNat.testBit i || values.any fun value => value.toNat.testBit i) := by
  induction values with
  | nil => simp
  | cons value values inductionHypothesis =>
      intro init i
      rw [List.foldl_cons, inductionHypothesis, BitVec.toNat_or, Nat.testBit_or, List.any_cons,
        Bool.or_assoc]

theorem columnBits_le (c : Fin kNumColumns) : columnBits rows c ≤ 32 := by
  rw [columnBits, MinimumBitsToStore_eq_size]
  exact size_toNat_le _

/-- Every value plus one fits in the bits of its column. -/
theorem lt_two_pow_columnBits {row : Fin kNumColumns → BitVec 32} (member : row ∈ rows)
    (c : Fin kNumColumns) : (row c + 1).toNat < 2 ^ columnBits rows c := by
  rw [columnBits, MinimumBitsToStore_eq_size]
  apply Nat.lt_pow_two_of_testBit
  intro i beyond
  have clear := Nat.testBit_lt_two_pow (lt_of_lt_of_le (Nat.size_le.mp le_rfl)
    (Nat.pow_le_pow_right (by omega) beyond) :
      ((rows.map fun (row : Fin kNumColumns → BitVec 32) => row c + 1).foldl (· ||| ·) 0).toNat <
        2 ^ i)
  rw [testBit_foldl_or] at clear
  simp only [Bool.or_eq_false_iff, List.any_eq_false] at clear
  simpa using clear.2 (row c + 1) (List.mem_map_of_mem member)

theorem columnStart_succ (i : Nat) (inside : i < kNumColumns) :
    columnStart rows (i + 1) = columnStart rows i + columnBits rows ⟨i, inside⟩ := by
  rw [columnStart, columnStart, List.take_add_one, List.sum_append]
  simp [inside]

theorem columnStart_le : ∀ i ≤ kNumColumns, columnStart rows i ≤ 32 * i
  | 0, _ => by simp [columnStart]
  | i + 1, inside => by
      have before := columnStart_le i (by omega)
      have column := columnBits_le rows ⟨i, by omega⟩
      rw [columnStart_succ rows i (by omega)]
      omega

theorem columnStart_le_rowBits (i : Nat) : columnStart rows i ≤ rowBits rows := by
  have total : rowBits rows = ((List.finRange kNumColumns).map (columnBits rows)).sum := by
    rw [rowBits, columnStart, List.take_of_length_le (by simp)]
  have whole := congrArg List.sum
    (List.take_append_drop i ((List.finRange kNumColumns).map (columnBits rows)))
  rw [List.sum_append] at whole
  rw [columnStart, total]
  omega

/-- `columnStart_succ` at a column. -/
theorem columnStart_succ_column (c : Fin kNumColumns) :
    columnStart rows (c + 1) = columnStart rows c + columnBits rows c := by
  rw [columnStart_succ rows c c.isLt, Fin.eta]

theorem rowBits_le : rowBits rows ≤ 32 * kNumColumns :=
  columnStart_le rows kNumColumns le_rfl

/-- The fields of a row before column `i` end where the column starts. -/
theorem fieldsLength_rowFields_take (row : Fin kNumColumns → BitVec 32) (i : Nat) :
    fieldsLength ((rowFields rows row).take i) = columnStart rows i := by
  simp [rowFields, columnStart, fieldsLength, ← List.map_take, Function.comp_def]

theorem fieldsLength_rowFields (row : Fin kNumColumns → BitVec 32) :
    fieldsLength (rowFields rows row) = rowBits rows := by
  rw [rowBits, ← fieldsLength_rowFields_take rows row, List.take_of_length_le (by simp [rowFields])]

theorem fieldsLength_flatMap_rowFields (someRows : List (Fin kNumColumns → BitVec 32)) :
    fieldsLength (someRows.flatMap (rowFields rows)) = someRows.length * rowBits rows := by
  induction someRows with
  | nil => simp
  | cons row someRows inductionHypothesis =>
      rw [List.flatMap_cons, fieldsLength_append, inductionHypothesis, fieldsLength_rowFields,
        List.length_cons, Nat.succ_mul, Nat.add_comm]

end Layout

/-! ## The builder writes the layout -/

namespace BitTableBuilderBase

variable {kNumColumns : Nat}

/-- The accumulator of `Measure` holds, for each column, the OR of its values
plus one. -/
theorem foldl_max_column_value (rows : List (Fin kNumColumns → BitVec 32)) (c : Fin kNumColumns) :
    ∀ init : Fin kNumColumns → BitVec 32,
      rows.foldl
          (fun max_column_value row column => max_column_value column ||| (row column - kValueBias))
          init c =
        (rows.map fun (row : Fin kNumColumns → BitVec 32) => row c + 1).foldl (· ||| ·) (init c) := by
  induction rows with
  | nil => intro init; rfl
  | cons row rows inductionHypothesis =>
      intro init
      rw [List.foldl_cons, inductionHypothesis, List.map_cons, List.foldl_cons, sub_kValueBias]

theorem Measure_toNat (builder : BitTableBuilderBase kNumColumns) (c : Fin kNumColumns) :
    (builder.Measure c).toNat = columnBits builder.rows_ c := by
  have bounded : columnBits builder.rows_ c < 2 ^ 32 :=
    lt_of_le_of_lt (columnBits_le builder.rows_ c) (by decide)
  unfold Measure
  rw [foldl_max_column_value, BitVec.toNat_ofNat]
  exact Nat.mod_eq_of_lt bounded

variable (size_t : UnsignedType) (wide : 32 ≤ size_t.width) (builder : BitTableBuilderBase kNumColumns)
include wide

/-- The loop of `Encode` over the columns of a row writes the row's fields. -/
theorem wrote_foldl_columns {row : Fin kNumColumns → BitVec 32} (member : row ∈ builder.rows_)
    (columns : List (Fin kNumColumns)) :
    ∀ {writer : BitMemoryWriter} {start : Nat} {fields : List (Nat × Nat)},
      BitMemoryWriter.Wrote writer start fields →
        BitMemoryWriter.Wrote
          (columns.foldl
            (fun out c => out.WriteBits size_t (row c - kValueBias) (builder.Measure c).toNat) writer)
          start (fields ++ columns.map fun c => (columnBits builder.rows_ c, (row c + 1).toNat)) := by
  induction columns with
  | nil => intro writer start fields wrote; simpa using wrote
  | cons c columns inductionHypothesis =>
      intro writer start fields wrote
      have written := wrote.WriteBits size_t
        (show (builder.Measure c).toNat ≤ size_t.width by
          rw [Measure_toNat]; exact le_trans (columnBits_le _ c) wide)
        (show (row c - kValueBias).toNat < 2 ^ (builder.Measure c).toNat by
          rw [Measure_toNat, sub_kValueBias]; exact lt_two_pow_columnBits _ member c)
      have later := inductionHypothesis written
      rw [List.foldl_cons]
      rw [Measure_toNat, sub_kValueBias] at later ⊢
      simpa using later

/-- The loop of `Encode` over the rows writes their fields. -/
theorem wrote_foldl_rows (someRows : List (Fin kNumColumns → BitVec 32))
    (inRows : ∀ row ∈ someRows, row ∈ builder.rows_) :
    ∀ {writer : BitMemoryWriter} {start : Nat} {fields : List (Nat × Nat)},
      BitMemoryWriter.Wrote writer start fields →
        BitMemoryWriter.Wrote
          (someRows.foldl
            (fun out row => (List.finRange kNumColumns).foldl
              (fun out c => out.WriteBits size_t (row c - kValueBias) (builder.Measure c).toNat) out)
            writer)
          start (fields ++ someRows.flatMap (rowFields builder.rows_)) := by
  induction someRows with
  | nil => intro writer start fields wrote; simpa using wrote
  | cons row someRows inductionHypothesis =>
      intro writer start fields wrote
      have columns := wrote_foldl_columns size_t wide builder (inRows row List.mem_cons_self)
        (List.finRange kNumColumns) wrote
      have later := inductionHypothesis
        (fun other member => inRows other (List.mem_cons_of_mem row member)) columns
      rw [List.foldl_cons]
      simpa [rowFields] using later

/-- `Encode` writes the header and the rows of its table. -/
theorem wrote_Encode {writer : BitMemoryWriter} {start : Nat} {fields : List (Nat × Nat)}
    (wrote : BitMemoryWriter.Wrote writer start fields) :
    BitMemoryWriter.Wrote (builder.Encode size_t writer) start (fields ++ tableFields builder.rows_) := by
  have header : BitVec.ofNat 32 builder.rows_.length ::
      (List.finRange kNumColumns).map builder.Measure = tableHeader builder.rows_ := by
    simp only [tableHeader, List.cons.injEq, List.map_inj_left, true_and]
    intro c _
    apply BitVec.eq_of_toNat_eq
    rw [Measure_toNat, BitVec.toNat_ofNat,
      Nat.mod_eq_of_lt (lt_of_le_of_lt (columnBits_le builder.rows_ c) (by decide))]
  unfold Encode
  dsimp only
  rw [header]
  have rows := wrote_foldl_rows size_t wide builder builder.rows_ (fun _ member => member)
    (wrote.WriteInterleavedVarints size_t wide (tableHeader builder.rows_))
  rwa [List.append_assoc] at rows

end BitTableBuilderBase

/-! ## The decoder reads the layout -/

namespace BitTableBase

variable {kNumColumns : Nat} (narrow : kNumColumns ≤ 15) (rows : List (Fin kNumColumns → BitVec 32))
include narrow

/-- The column offsets of the decoded header are where the columns start; the
header's widths add up to at most `15 * 32` bits, so the `uint16_t` casts
keep them. -/
theorem columnOffset_tableHeader :
    ∀ i ≤ kNumColumns, (columnOffset (tableHeader rows) i).toNat = columnStart rows i
  | 0, _ => by simp [columnOffset, columnStart]
  | i + 1, inside => by
      have previous := columnOffset_tableHeader i (by omega)
      have header : (tableHeader rows).getD (i + 1) 0 =
          BitVec.ofNat 32 (columnBits rows ⟨i, by omega⟩) := by
        have index : i < (List.finRange kNumColumns).length := by simp; omega
        simp [tableHeader, List.getElem?_eq_getElem index]
      have bounded := columnStart_le rows (i + 1) inside
      have column := columnBits_le rows ⟨i, by omega⟩
      rw [columnStart_succ rows i (by omega)] at bounded ⊢
      rw [columnOffset, BitVec.toNat_setWidth, BitVec.toNat_add, BitVec.toNat_setWidth, previous,
        header, BitVec.toNat_ofNat]
      omega

/-- The number of bits `Decode` skips for the rows: their bits, in `uint32_t`. -/
theorem toNat_num_rows_mul_NumRowBits :
    (BitVec.ofNat 32 rows.length *
        (columnOffset (tableHeader rows) (Fin.last kNumColumns)).setWidth 32).toNat =
      rows.length * rowBits rows % 2 ^ 32 := by
  have row : rowBits rows < 2 ^ 32 :=
    lt_of_le_of_lt (rowBits_le rows) (by omega)
  rw [BitVec.toNat_mul, BitVec.toNat_ofNat, BitVec.toNat_setWidth, Fin.val_last,
    columnOffset_tableHeader narrow rows kNumColumns le_rfl, ← rowBits, Nat.mod_eq_of_lt row,
    Nat.mod_mul_mod]

variable (size_t : UnsignedType) (wide : 32 ≤ size_t.width) (memory : Nat → BitVec 8)
include wide

/-- `Decode` at a header of `Encode` reads the header, the number of rows and
the column offsets, and skips the bits of the rows computed in `uint32_t`. -/
theorem Decode_tableHeader (reader : BitMemoryReader)
    (found : FieldsAt (bitAt memory) reader.cursor (interleavedVarintFields (tableHeader rows))) :
    Decode kNumColumns size_t memory reader =
      (⟨((reader.skip (fieldsLength (interleavedVarintFields (tableHeader rows)))).ReadRegion
            (rows.length * rowBits rows % 2 ^ 32)).1,
          BitVec.ofNat 32 rows.length, fun i => columnOffset (tableHeader rows) i⟩,
        reader.skip (fieldsLength (interleavedVarintFields (tableHeader rows)) +
          rows.length * rowBits rows % 2 ^ 32)) := by
  have length : (tableHeader rows).length = 1 + kNumColumns := by
    simp [tableHeader, Nat.add_comm]
  have header := reader.ReadInterleavedVarints_fields size_t memory wide (tableHeader rows)
    (by rw [length, kVarintBits]; omega) found
  rw [length] at header
  unfold Decode
  rw [header]
  dsimp only
  rw [show (tableHeader rows).getD 0 0 = BitVec.ofNat 32 rows.length by simp [tableHeader],
    toNat_num_rows_mul_NumRowBits narrow rows, BitMemoryReader.ReadRegion_snd,
    BitMemoryReader.skip_skip]

/-- `Decode` reads the header and skips the rows' bits computed in `uint32_t`. -/
theorem NumberOfReadBits_Decode (reader : BitMemoryReader)
    (found : FieldsAt (bitAt memory) reader.cursor (interleavedVarintFields (tableHeader rows))) :
    (Decode kNumColumns size_t memory reader).2.NumberOfReadBits =
      reader.NumberOfReadBits + fieldsLength (interleavedVarintFields (tableHeader rows)) +
        rows.length * rowBits rows % 2 ^ 32 := by
  rw [Decode_tableHeader narrow rows size_t wide memory reader found,
    BitMemoryReader.NumberOfReadBits_skip, Nat.add_assoc]

theorem NumRows_Decode (reader : BitMemoryReader)
    (found : FieldsAt (bitAt memory) reader.cursor (interleavedVarintFields (tableHeader rows))) :
    (Decode kNumColumns size_t memory reader).1.NumRows = BitVec.ofNat 32 rows.length := by
  rw [Decode_tableHeader narrow rows size_t wide memory reader found]
  rfl

/-- Each column of the decoded table has the bits `Encode` gave it. -/
theorem NumColumnBits_Decode (reader : BitMemoryReader)
    (found : FieldsAt (bitAt memory) reader.cursor (interleavedVarintFields (tableHeader rows)))
    (c : Fin kNumColumns) :
    ((Decode kNumColumns size_t memory reader).1.NumColumnBits c).toNat = columnBits rows c := by
  have column := columnBits_le rows c
  rw [Decode_tableHeader narrow rows size_t wide memory reader found]
  simp only [NumColumnBits, Fin.val_succ, Fin.val_castSucc]
  rw [columnOffset_tableHeader narrow rows (c + 1) c.isLt, columnOffset_tableHeader narrow rows c
    (by omega), columnStart_succ_column rows c, BitVec.toNat_ofInt]
  omega

/-- `Get` at a row of a table whose rows take fewer than `2 ^ 32` bits loads
the value `Encode` wrote there. -/
theorem Get_Decode (reader : BitMemoryReader)
    (found : FieldsAt (bitAt memory) reader.cursor (tableFields rows))
    (fits : rows.length * rowBits rows < 2 ^ 32) (r : Nat) (inside : r < rows.length)
    (c : Fin kNumColumns) :
    (Decode kNumColumns size_t memory reader).1.Get size_t memory (BitVec.ofNat 32 r) c = rows[r] c := by
  rw [tableFields, fieldsAt_append] at found
  obtain ⟨header, body⟩ := found
  -- the field of row `r` and column `c` in memory
  have row := fieldsAt_flatMap_of_length (bitAt memory) (rowFields rows) (rowBits rows) rows
    (fun row _ => fieldsLength_rowFields rows row) _ body r inside
  have field := bitField_of_fieldsAt (bitAt memory) (rowFields rows rows[r]) _ row c
    (by simp [rowFields])
  rw [fieldsLength_rowFields_take] at field
  simp only [rowFields, List.get_eq_getElem, List.getElem_map, List.getElem_finRange,
    Fin.cast_mk, Fin.eta] at field
  -- the offset of `Get` does not wrap
  have columnEnd := columnStart_le_rowBits rows (c + 1)
  rw [columnStart_succ_column rows c] at columnEnd
  have before : r * rowBits rows + columnStart rows c < 2 ^ 32 := by
    have rowsBefore : (r + 1) * rowBits rows ≤ rows.length * rowBits rows :=
      Nat.mul_le_mul_right _ inside
    rw [Nat.succ_mul] at rowsBefore
    have column := columnBits_le rows c
    by_cases empty : columnBits rows c = 0
    · omega
    · omega
  have width := NumColumnBits_Decode narrow rows size_t wide memory reader header c
  rw [Decode_tableHeader narrow rows size_t wide memory reader header] at width ⊢
  have offset : (BitVec.ofNat 32 r * (columnOffset (tableHeader rows) (Fin.last kNumColumns)).setWidth 32 +
      (columnOffset (tableHeader rows) c.castSucc).setWidth 32).toNat =
        r * rowBits rows + columnStart rows c := by
    rw [BitVec.toNat_add, BitVec.toNat_mul, BitVec.toNat_ofNat, BitVec.toNat_setWidth,
      BitVec.toNat_setWidth, Fin.val_last, Fin.val_castSucc,
      columnOffset_tableHeader narrow rows kNumColumns le_rfl,
      columnOffset_tableHeader narrow rows c (by omega), ← rowBits, Nat.mul_mod_mod,
      Nat.mod_mul_mod, Nat.add_mod_mod, Nat.mod_add_mod, Nat.mod_eq_of_lt before]
  -- the rows' region starts after the header, at the reader's cursor
  have load : (((reader.skip (fieldsLength (interleavedVarintFields (tableHeader rows)))).ReadRegion
      (rows.length * rowBits rows % 2 ^ 32)).1.LoadBits size_t memory
        (r * rowBits rows + columnStart rows c) (columnBits rows c)).toNat = (rows[r] c + 1).toNat := by
    rw [BitMemoryRegion.LoadBits_toNat _ _ _ (le_trans (columnBits_le rows c) wide),
      BitMemoryReader.origin_ReadRegion, BitMemoryReader.cursor_skip, ← Nat.add_assoc, field]
  unfold Get
  dsimp only
  simp only [NumRowBits] at width ⊢
  rw [offset, width]
  apply BitVec.eq_of_toNat_eq
  have divides : 2 ^ 32 ∣ 2 ^ size_t.width := Nat.pow_dvd_pow 2 wide
  have bias : (kValueBias.setWidth size_t.width).toNat = 2 ^ 32 - 1 := by
    rw [BitVec.toNat_setWidth, kValueBias, kNoValue, BitVec.toNat_allOnes]
    exact Nat.mod_eq_of_lt (lt_of_lt_of_le (by omega) (Nat.pow_le_pow_right (by omega) wide))
  have one : (1 : BitVec 32).toNat = 1 := rfl
  rw [BitVec.toNat_setWidth, BitVec.toNat_add, load, bias, Nat.mod_mod_of_dvd _ divides,
    BitVec.toNat_add, one]
  have valueBound := (rows[r] c).isLt
  omega

end BitTableBase

/-! ## The round trip -/

section RoundTrip

/-- A table written by `Encode` at any bit of any vector and decoded from that
bit has the rows' number, the column widths of `Measure` and every value,
and the reader has read exactly the bits written, when the rows take fewer
than `2 ^ 32` bits.  A table has at most 15 columns, for its header of
`1 + kNumColumns` varints to fit one `uint64_t` load. -/
theorem encode_then_decode_round_trip (size_t : UnsignedType) (wide : 32 ≤ size_t.width)
    {kNumColumns : Nat} (narrow : kNumColumns ≤ 15) (rows : List (Fin kNumColumns → BitVec 32))
    (counted : rows.length < 2 ^ 32) (fits : rows.length * rowBits rows < 2 ^ 32)
    (memory : Nat → BitVec 8) (out_data out_size bit_offset : Nat) :
    let writer := (BitTableBuilderBase.mk rows).Encode size_t
      (BitMemoryWriter.create memory out_data out_size bit_offset)
    let decoded := BitTableBase.Decode kNumColumns size_t writer.memory (BitMemoryReader.create out_data bit_offset)
    decoded.1.NumRows.toNat = rows.length ∧
      (∀ c, (decoded.1.NumColumnBits c).toNat = columnBits rows c) ∧
      (∀ (r : Nat) (inside : r < rows.length) (c : Fin kNumColumns),
        decoded.1.Get size_t writer.memory (BitVec.ofNat 32 r) c = rows[r] c) ∧
      decoded.2.NumberOfReadBits = writer.NumberOfWrittenBits := by
  have wrote := BitTableBuilderBase.wrote_Encode size_t wide (BitTableBuilderBase.mk rows)
    (BitMemoryWriter.wrote_create memory out_data out_size bit_offset)
  rw [List.nil_append] at wrote
  have found := wrote.holds
  rw [kBitsPerByte, ← BitMemoryReader.cursor_create out_data bit_offset] at found
  have header := found
  rw [tableFields, fieldsAt_append] at header
  dsimp only
  refine ⟨?_, BitTableBase.NumColumnBits_Decode narrow rows size_t wide _ _ header.1,
    BitTableBase.Get_Decode narrow rows size_t wide _ _ found fits, ?_⟩
  · rw [BitTableBase.NumRows_Decode narrow rows size_t wide _ _ header.1, BitVec.toNat_ofNat,
      Nat.mod_eq_of_lt counted]
  · rw [BitTableBase.NumberOfReadBits_Decode narrow rows size_t wide _ _ header.1,
      BitMemoryReader.NumberOfReadBits_create, wrote.NumberOfWrittenBits, tableFields,
      fieldsLength_append, fieldsLength_flatMap_rowFields, Nat.mod_eq_of_lt fits, Nat.zero_add]

/-- The table of the source's single-column test: `42`, `kNoValue`, `1000`,
`kNoValue`. -/
def singleColumnTable : BitTableBuilderBase 1 :=
  ⟨[fun _ => 42#32, fun _ => kNoValue, fun _ => 1000#32, fun _ => kNoValue]⟩

theorem singleColumnTable_round_trip :
    singleColumnTable.rows_.length * rowBits singleColumnTable.rows_ < 2 ^ 32 ∧
      (BitTableBase.Decode 1 UnsignedType.uint64_t
          (singleColumnTable.Encode UnsignedType.uint64_t
            (BitMemoryWriter.create (fun _ => 0#8) 0 0 5)).memory
          (BitMemoryReader.create 0 5)).1.Get UnsignedType.uint64_t
          (singleColumnTable.Encode UnsignedType.uint64_t
            (BitMemoryWriter.create (fun _ => 0#8) 0 0 5)).memory
          (BitVec.ofNat 32 2) 0 = 1000#32 := by
  have fits : singleColumnTable.rows_.length * rowBits singleColumnTable.rows_ < 2 ^ 32 :=
    lt_of_le_of_lt (Nat.mul_le_mul_left 4 (rowBits_le singleColumnTable.rows_)) (by decide)
  exact ⟨fits, (encode_then_decode_round_trip UnsignedType.uint64_t (by decide) (by decide)
    singleColumnTable.rows_ (by decide) fits (fun _ => 0#8) 0 0 5).2.2.1 2 (by decide) 0⟩

/-- Values `0x7FFFFFFF` take 32 bits each once biased. -/
def wideTable : BitTableBuilderBase 1 :=
  ⟨List.replicate (2 ^ 27) fun _ => 0x7FFFFFFF#32⟩

/-- The OR of copies of one value is that value. -/
theorem foldl_or_replicate (value : BitVec 32) (count : Nat) :
    ∀ init : BitVec 32, (List.replicate (count + 1) value).foldl (· ||| ·) init = init ||| value := by
  induction count with
  | zero => intro init; rfl
  | succ count inductionHypothesis =>
      intro init
      rw [List.replicate_succ, List.foldl_cons, inductionHypothesis, BitVec.or_assoc,
        BitVec.or_self]

theorem rowBits_wideTable : rowBits wideTable.rows_ = 32 := by
  have all : ((wideTable.rows_.map fun (row : Fin 1 → BitVec 32) => row 0 + 1).foldl
      (· ||| ·) 0).toNat = 2 ^ 31 := by
    rw [wideTable, List.map_replicate, show 2 ^ 27 = 2 ^ 27 - 1 + 1 from rfl, foldl_or_replicate]
    decide
  have column : columnBits wideTable.rows_ 0 = 32 := by
    rw [columnBits, all, MinimumBitsToStore_eq_size, Nat.size_pow]
  rw [rowBits, columnStart, show List.finRange 1 = [0] from rfl]
  simp [column]

/-- A table of `2 ^ 27` rows of 32 bits: `Decode` multiplies the rows by their
bits in `uint32_t`, gets zero, and skips none of the `2 ^ 32` bits `Encode`
wrote for them. -/
theorem decode_skips_short_of_wide_table :
    let writer := wideTable.Encode UnsignedType.uint64_t (BitMemoryWriter.create (fun _ => 0#8) 0 0 0)
    let decoded := BitTableBase.Decode 1 UnsignedType.uint64_t writer.memory (BitMemoryReader.create 0 0)
    decoded.2.NumberOfReadBits + 2 ^ 32 = writer.NumberOfWrittenBits := by
  have count : wideTable.rows_.length = 2 ^ 27 := by
    simp only [wideTable, List.length_replicate]
  have wrote := BitTableBuilderBase.wrote_Encode UnsignedType.uint64_t (by decide) wideTable
    (BitMemoryWriter.wrote_create (fun _ => 0#8) 0 0 0)
  rw [List.nil_append] at wrote
  have start : (BitMemoryReader.create 0 0).cursor = kBitsPerByte * 0 + 0 :=
    BitMemoryReader.cursor_create 0 0
  have found := wrote.holds
  rw [← start, tableFields, fieldsAt_append] at found
  have bits := rowBits_wideTable
  dsimp only
  -- from here on the rows are known only by their number and width, so that
  -- nothing unfolds the `2 ^ 27` of them
  generalize wideTable.Encode UnsignedType.uint64_t (BitMemoryWriter.create (fun _ => 0#8) 0 0 0) =
    writer at wrote found ⊢
  generalize wideTable.rows_ = rows at count bits wrote found
  rewrite [BitTableBase.NumberOfReadBits_Decode (by decide) rows UnsignedType.uint64_t (by decide) _ _
      found.1, BitMemoryReader.NumberOfReadBits_create, wrote.NumberOfWrittenBits, tableFields,
    fieldsLength_append, fieldsLength_flatMap_rowFields, bits, count]
  omega

end RoundTrip

/-! ## The table its readers see -/

/-- `BitTable<Accessor>` as the code that walks a decoded table reads it: the
number of rows, and `Get(row, column)`. -/
structure BitTable (kNumColumns : Nat) where
  NumRows : BitVec 32
  Get : BitVec 32 → Fin kNumColumns → BitVec 32

namespace BitTable

/-- `GetInvalidRow()`: the accessor at row `static_cast<uint32_t>(-1)`. -/
def GetInvalidRow : BitVec 32 :=
  -1

end BitTable

/-- The decoded table `table` in `memory`, read through `Get`. -/
def BitTableBase.toBitTable {kNumColumns : Nat} (size_t : UnsignedType) (memory : Nat → BitVec 8)
    (table : BitTableBase kNumColumns) : BitTable kNumColumns :=
  ⟨table.NumRows, table.Get size_t memory⟩

end ArtRuntime.Base
