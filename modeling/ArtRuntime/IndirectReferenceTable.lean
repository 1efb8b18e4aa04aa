import Mathlib.Data.List.Nodup
import ArtRuntime.FixedWidth

namespace ArtRuntime.Jni

open ArtRuntime.FixedWidth

/-!
# The indirect reference table

`indirect_reference_table.{h,cc}` and `indirect_reference_table-inl.h`: the
table of JNI global and weak global references.  The table has no free list:
`top_index_` bounds the entries in use, a removed entry below it is a null
hole, and `current_num_holes_` caches the number of holes.  `Add` fills the
highest hole, found by a downward scan, or appends; `Remove` of the top entry
collapses the holes below it.  An `IndirectRef` packs the entry's index, the
entry's serial number, which `IrtEntry::Add` advances modulo
`kIRTMaxSerial`, and the table's kind.

* The table is the list of its `max_entries_` entries; a null `GcRoot` is
  `none`.  An `IndirectRef` is the `uintptr_t` it is cast to, a `Nat`.
* `Add` is `none` where the source's hole scan would run off the table:
  `Valid` rules it out.
* `CheckEntry` aborts the runtime on a stale reference unless CheckJNI is on;
  the model takes CheckJNI to be on, so the check fails with `false`.
* Read barriers and `VerifyObject` are left out.

`Valid` is the invariant of the table: the hole count is exact and the top
entry is in use.  `live` is what the table stands for, a map from references
to objects, and `Add_live`, `Remove_live` and `SweepJniWeakGlobals_live` say
that the operations act on it as a handle map does.  `run_refines` carries
both over whole runs, `serial_run` counts how far each serial has moved, and
`live_ToIndirectRef_run` says which old references a run leaves live.
-/

/-- `IndirectRefKind`. -/
inductive IndirectRefKind where
  | kJniTransition
  | kLocal
  | kGlobal
  | kWeakGlobal
  deriving DecidableEq, Repr

/-- The value of the enumerator. -/
def IndirectRefKind.toNat : IndirectRefKind → Nat
  | .kJniTransition => 0
  | .kLocal => 1
  | .kGlobal => 2
  | .kWeakGlobal => 3

def kIRTSerialBits : Nat := 3

def kIRTMaxSerial : Nat := (1 <<< kIRTSerialBits) - 1

def kShiftedSerialMask : Nat := (1 <<< kIRTSerialBits) - 1

/-- `MinimumBitsToStore(kLastKind)`. -/
def kKindBits : Nat := 2

def kKindMask : Nat := (1 <<< kKindBits) - 1

def EncodeIndex (table_index : Nat) : Nat :=
  table_index <<< kKindBits <<< kIRTSerialBits

/-- `static_cast<uint32_t>((uref >> kKindBits) >> kIRTSerialBits)`. -/
def DecodeIndex (uref : Nat) : Nat :=
  (uref >>> kKindBits >>> kIRTSerialBits) % 2 ^ 32

def EncodeSerial (serial : Nat) : Nat :=
  serial <<< kKindBits

/-- `static_cast<uint32_t>(uref >> kKindBits) & kShiftedSerialMask`. -/
def DecodeSerial (uref : Nat) : Nat :=
  (uref >>> kKindBits) % 2 ^ 32 &&& kShiftedSerialMask

def EncodeIndirectRefKind (kind : IndirectRefKind) : Nat :=
  kind.toNat

def EncodeIndirectRef (kind_ : IndirectRefKind) (table_index serial : Nat) : Nat :=
  EncodeIndex table_index ||| EncodeSerial serial ||| EncodeIndirectRefKind kind_

/-- `ExtractIndex(iref)`. -/
def ExtractIndex (iref : Nat) : Nat :=
  DecodeIndex iref

variable {Obj : Type}

/-- `IrtEntry`: a serial number and a reference, `none` for null. -/
structure IrtEntry (Obj : Type) where
  serial_ : Nat
  reference_ : Option Obj

/-- `IrtEntry::Add(obj)`: the serial advances, wrapping at `kIRTMaxSerial`. -/
def IrtEntry.Add (entry : IrtEntry Obj) (obj : Obj) : IrtEntry Obj :=
  let serial_ := entry.serial_ + 1
  { serial_ := if serial_ = kIRTMaxSerial then 0 else serial_, reference_ := some obj }

/-- The entry as the zeroed table memory holds it. -/
def IrtEntry.zero : IrtEntry Obj := ⟨0, none⟩

/-- `CountNullEntries(table, to)`, with `to` as `limit`. -/
def CountNullEntries (table : List (IrtEntry Obj)) (limit : Nat) : Nat :=
  (table.take limit).countP (·.reference_.isNone)

/-- The fields of `IndirectReferenceTable` that its operations read. -/
structure IndirectReferenceTable (Obj : Type) where
  kind_ : IndirectRefKind
  table_ : List (IrtEntry Obj)
  top_index_ : Nat
  current_num_holes_ : Nat

namespace IndirectReferenceTable

/-- `max_entries_`: the table memory holds that many entries. -/
def max_entries_ (irt : IndirectReferenceTable Obj) : Nat :=
  irt.table_.length

/-- The entry at `index`. -/
def entry (irt : IndirectReferenceTable Obj) (index : Nat) : IrtEntry Obj :=
  irt.table_.getD index IrtEntry.zero

/-- `ToIndirectRef(table_index)`. -/
def ToIndirectRef (irt : IndirectReferenceTable Obj) (table_index : Nat) : Nat :=
  EncodeIndirectRef irt.kind_ table_index (irt.entry table_index).serial_

/-- `CheckEntry(what, iref, idx)`, with CheckJNI on. -/
def CheckEntry (irt : IndirectReferenceTable Obj) (iref idx : Nat) : Bool :=
  irt.ToIndirectRef idx == iref

/-- The hole scan of `Add`: from `index` down, the first null entry; `none`
where the scan would run off the front of the table. -/
def ScanForHole (table : List (IrtEntry Obj)) : Nat → Option Nat
  | 0 => if (table.getD 0 IrtEntry.zero).reference_.isNone then some 0 else none
  | index + 1 =>
    if (table.getD (index + 1) IrtEntry.zero).reference_.isNone then some (index + 1)
    else ScanForHole table index

/-- `Add(obj, &error_msg)`: the table and the reference, `nullptr` when the
table is full; `none` where the hole scan would run off the table. -/
def Add (irt : IndirectReferenceTable Obj) (obj : Obj) :
    Option (IndirectReferenceTable Obj × Option Nat) :=
  if irt.top_index_ = irt.max_entries_ then
    -- Table overflow.
    some (irt, none)
  else do
    let (index, top_index_, current_num_holes_) ←
      if irt.current_num_holes_ > 0 then do
        -- Find the first hole; likely to be near the end of the list.
        let index ← ScanForHole irt.table_ (irt.top_index_ - 2)
        pure (index, irt.top_index_, irt.current_num_holes_ - 1)
      else
        -- Add to the end.
        pure (irt.top_index_, irt.top_index_ + 1, irt.current_num_holes_)
    let irt := { irt with
      table_ := irt.table_.modify index (·.Add obj), top_index_, current_num_holes_ }
    pure (irt, some (irt.ToIndirectRef index))

/-- The collapse loop of `Remove`: `--collapse_top_index > 0u &&
current_num_holes_ != 0`, then stop at a non-null entry or eat the hole.  The
loop starts at `top_index_`, which is positive, and never reaches `0`. -/
def CollapseLoop (table : List (IrtEntry Obj)) : Nat → Nat → Nat × Nat
  | 0, current_num_holes_ => (0, current_num_holes_)
  | collapse_top_index + 1, current_num_holes_ =>
    if collapse_top_index > 0 ∧ current_num_holes_ ≠ 0 then
      if (table.getD (collapse_top_index - 1) IrtEntry.zero).reference_.isSome then
        (collapse_top_index, current_num_holes_)
      else CollapseLoop table collapse_top_index (current_num_holes_ - 1)
    else (collapse_top_index, current_num_holes_)

/-- The table with the entry at `idx` null. -/
def clear (irt : IndirectReferenceTable Obj) (idx : Nat) : List (IrtEntry Obj) :=
  irt.table_.modify idx fun entry => { entry with reference_ := none }

/-- `Remove(iref)`: the table, and whether an entry was removed. -/
def Remove (irt : IndirectReferenceTable Obj) (iref : Nat) : IndirectReferenceTable Obj × Bool :=
  let top_index := irt.top_index_
  let idx := ExtractIndex iref
  if idx ≥ top_index then
    -- Bad --- stale reference?
    (irt, false)
  else if idx = top_index - 1 then
    -- Top-most entry.  Scan up and consume holes.
    if !irt.CheckEntry iref idx then (irt, false)
    else if irt.current_num_holes_ ≠ 0 then
      let (top_index_, current_num_holes_) :=
        CollapseLoop (irt.clear idx) top_index irt.current_num_holes_
      ({ irt with table_ := irt.clear idx, top_index_, current_num_holes_ }, true)
    else
      ({ irt with table_ := irt.clear idx, top_index_ := top_index - 1 }, true)
  else
    -- Not the top-most entry.  This creates a hole.
    if (irt.entry idx).reference_.isNone then (irt, false)
    else if !irt.CheckEntry iref idx then (irt, false)
    else ({ irt with table_ := irt.clear idx, current_num_holes_ := irt.current_num_holes_ + 1 },
      true)

/-- `Get(iref)`. -/
def Get (irt : IndirectReferenceTable Obj) (iref : Nat) : Option Obj :=
  (irt.entry (ExtractIndex iref)).reference_

/-- `Capacity()`. -/
def Capacity (irt : IndirectReferenceTable Obj) : Nat :=
  irt.top_index_

/-- `NEntriesForGlobal()`. -/
def NEntriesForGlobal (irt : IndirectReferenceTable Obj) : Int :=
  (irt.top_index_ : Int) - irt.current_num_holes_

/-- `VisitRoots(visitor, root_info)`: the roots visited, in order. -/
def VisitRoots (irt : IndirectReferenceTable Obj) : List Obj :=
  (irt.table_.take irt.Capacity).filterMap (·.reference_)

/-- `SweepJniWeakGlobals(visitor)`: each non-null entry below `Capacity()`
becomes what `IsMarked` returns for it, or the cleared weak global. -/
def SweepJniWeakGlobals (irt : IndirectReferenceTable Obj) (IsMarked : Obj → Option Obj)
    (cleared : Obj) : IndirectReferenceTable Obj :=
  { irt with
    table_ := irt.table_.mapIdx fun i entry =>
      if i < irt.Capacity then
        { entry with reference_ := entry.reference_.map fun obj => (IsMarked obj).getD cleared }
      else entry }

end IndirectReferenceTable

open IndirectReferenceTable

section Encoding

/-! ### Packing a reference -/

theorem IndirectRefKind.toNat_lt (kind : IndirectRefKind) : kind.toNat < 4 := by
  cases kind <;> decide

/-- The bits of a reference: the index, then three bits of serial, then two
of kind. -/
theorem EncodeIndirectRef_eq (kind : IndirectRefKind) (table_index : Nat) {serial : Nat}
    (small : serial < 8) :
    EncodeIndirectRef kind table_index serial = (table_index * 8 + serial) * 4 + kind.toNat := by
  have kindSmall := kind.toNat_lt
  -- The serial's bits lie below the index's, and the kind's below both.
  have indexSerial :=
    Nat.shiftLeft_add_eq_or_of_lt (i := 3) (show serial < 2 ^ 3 by omega) table_index
  have withKind := Nat.shiftLeft_add_eq_or_of_lt (i := 2) (show kind.toNat < 2 ^ 2 by omega)
    (table_index <<< 3 + serial)
  rw [EncodeIndirectRef, EncodeIndex, EncodeSerial, EncodeIndirectRefKind, kKindBits,
    kIRTSerialBits, ← Nat.shiftLeft_add, Nat.add_comm 2 3, Nat.shiftLeft_add,
    ← Nat.shiftLeft_or_distrib, ← indexSerial, ← withKind]
  omega

theorem DecodeIndex_EncodeIndirectRef (kind : IndirectRefKind) {table_index serial : Nat}
    (fits : table_index < 2 ^ 32) (small : serial < 8) :
    DecodeIndex (EncodeIndirectRef kind table_index serial) = table_index := by
  have kindSmall := kind.toNat_lt
  rw [EncodeIndirectRef_eq kind table_index small, DecodeIndex, kKindBits, kIRTSerialBits,
    Nat.shiftRight_eq_div_pow, Nat.shiftRight_eq_div_pow]
  omega

theorem DecodeSerial_EncodeIndirectRef (kind : IndirectRefKind) (table_index : Nat)
    {serial : Nat} (small : serial < 8) :
    DecodeSerial (EncodeIndirectRef kind table_index serial) = serial := by
  have kindSmall := kind.toNat_lt
  rw [EncodeIndirectRef_eq kind table_index small, DecodeSerial, kKindBits, kShiftedSerialMask,
    kIRTSerialBits, Nat.shiftRight_eq_div_pow, show (1 <<< 3) - 1 = 2 ^ 3 - 1 from rfl,
    Nat.and_two_pow_sub_one_eq_mod]
  omega

end Encoding

section Entries

/-! ### Entries and holes -/

variable {table : List (IrtEntry Obj)}

theorem getD_modify {index : Nat} (f : IrtEntry Obj → IrtEntry Obj) (inside : index < table.length)
    (i : Nat) :
    (table.modify index f).getD i IrtEntry.zero =
      if index = i then f (table.getD i IrtEntry.zero) else table.getD i IrtEntry.zero := by
  simp only [List.getD_eq_getElem?_getD, List.getElem?_modify]
  split
  · next same => subst same; simp [List.getElem?_eq_getElem inside]
  · simp

/-- One more entry counted: a hole adds one. -/
theorem CountNullEntries_succ {i : Nat} (inside : i < table.length) :
    CountNullEntries table (i + 1) = CountNullEntries table i +
      if (table.getD i IrtEntry.zero).reference_.isNone then 1 else 0 := by
  rw [CountNullEntries, CountNullEntries, List.take_add_one, List.countP_append,
    List.getElem?_eq_getElem inside]
  simp [List.countP_cons, List.getD_eq_getElem?_getD, List.getElem?_eq_getElem inside]

/-- A change to one entry changes the count of holes below `limit` only by
what it does to that entry's nullness. -/
theorem CountNullEntries_modify {index : Nat} (f : IrtEntry Obj → IrtEntry Obj)
    (inside : index < table.length) {limit : Nat} (within : limit ≤ table.length) :
    CountNullEntries (table.modify index f) limit +
        (if index < limit ∧ (table.getD index IrtEntry.zero).reference_.isNone then 1 else 0) =
      CountNullEntries table limit +
        (if index < limit ∧ (f (table.getD index IrtEntry.zero)).reference_.isNone then 1 else 0) := by
  induction limit with
  | zero => simp [CountNullEntries]
  | succ limit inductionHypothesis =>
    have below : limit < table.length := by omega
    rw [CountNullEntries_succ (by rw [List.length_modify]; exact below), CountNullEntries_succ below,
      getD_modify f inside]
    have earlier := inductionHypothesis (by omega)
    -- The entry at `limit` is the changed one or an untouched one.
    by_cases changed : index = limit
    · subst changed
      simp only [Nat.lt_irrefl, false_and, if_false, Nat.add_zero] at earlier
      simp only [if_true, Nat.lt_succ_self, true_and, earlier]
      split <;> split <;> omega
    · have before : index < limit + 1 ↔ index < limit := by omega
      simp only [changed, if_false, before]
      omega

/-- With no hole below `limit`, the entry just below it is in use. -/
theorem isSome_of_CountNullEntries_eq_zero {limit : Nat} (within : limit ≤ table.length)
    (positive : 0 < limit) (none_null : CountNullEntries table limit = 0) :
    (table.getD (limit - 1) IrtEntry.zero).reference_.isSome := by
  have split := CountNullEntries_succ (show limit - 1 < table.length by omega)
  rw [Nat.sub_add_cancel positive, none_null] at split
  cases entryIs : (table.getD (limit - 1) IrtEntry.zero).reference_ with
  | none =>
    rw [entryIs] at split
    simp at split
  | some obj => rfl

/-- A hole below `limit` when the count says there is one. -/
theorem exists_null_of_CountNullEntries_pos {limit : Nat} (within : limit ≤ table.length)
    (positive : 0 < CountNullEntries table limit) :
    ∃ index < limit, (table.getD index IrtEntry.zero).reference_.isNone := by
  induction limit with
  | zero => simp [CountNullEntries] at positive
  | succ limit inductionHypothesis =>
    rw [CountNullEntries_succ (by omega)] at positive
    by_cases null : (table.getD limit IrtEntry.zero).reference_.isNone
    · exact ⟨limit, Nat.lt_succ_self _, null⟩
    · simp only [null, Bool.false_eq_true, if_false, Nat.add_zero] at positive
      obtain ⟨index, below, isNull⟩ := inductionHypothesis (by omega) positive
      exact ⟨index, by omega, isNull⟩

/-- The hole scan from `index` down finds the highest hole at or below it
when there is one. -/
theorem ScanForHole_spec : ∀ {index : Nat},
    (∃ hole ≤ index, (table.getD hole IrtEntry.zero).reference_.isNone) →
      ∃ hole, ScanForHole table index = some hole ∧ hole ≤ index ∧
        (table.getD hole IrtEntry.zero).reference_.isNone
  | 0, ⟨hole, below, isNull⟩ => by
    have atZero : hole = 0 := by omega
    subst atZero
    exact ⟨0, by rw [ScanForHole, if_pos isNull], Nat.le_refl _, isNull⟩
  | index + 1, ⟨hole, below, isNull⟩ => by
    by_cases top : (table.getD (index + 1) IrtEntry.zero).reference_.isNone
    · exact ⟨index + 1, by rw [ScanForHole, if_pos top], Nat.le_refl _, top⟩
    · -- The entry at the top of the scan is in use, so the hole is lower.
      have lower : hole ≤ index := by
        rcases Nat.lt_or_eq_of_le below with less | same
        · omega
        · subst same; exact absurd isNull top
      obtain ⟨found, scanned, atMost, foundNull⟩ := ScanForHole_spec ⟨hole, lower, isNull⟩
      exact ⟨found, by rw [ScanForHole, if_neg top, scanned], by omega, foundNull⟩

/-- The collapse loop of `Remove`, entered at `collapse_top_index + 1` with
the entry at `collapse_top_index` null and the holes below it counted, stops
just above the highest entry in use, with the holes below that counted, and
has passed over null entries only. -/
theorem CollapseLoop_spec : ∀ {collapse_top_index current_num_holes_ : Nat},
    collapse_top_index < table.length →
    current_num_holes_ = CountNullEntries table collapse_top_index →
    (table.getD collapse_top_index IrtEntry.zero).reference_.isNone →
      let result := CollapseLoop table (collapse_top_index + 1) current_num_holes_
      result.1 ≤ collapse_top_index ∧ result.2 = CountNullEntries table result.1 ∧
        (0 < result.1 → (table.getD (result.1 - 1) IrtEntry.zero).reference_.isSome) ∧
        ∀ i, result.1 ≤ i → i ≤ collapse_top_index →
          (table.getD i IrtEntry.zero).reference_.isNone
  | collapse_top_index, current_num_holes_, inside, counted, isNull => by
    rw [CollapseLoop]
    by_cases continues : collapse_top_index > 0 ∧ current_num_holes_ ≠ 0
    · rw [if_pos continues]
      by_cases inUse : (table.getD (collapse_top_index - 1) IrtEntry.zero).reference_.isSome
      · -- Stop at the entry in use.
        rw [if_pos inUse]
        refine ⟨Nat.le_refl _, counted, fun _ => inUse, fun i above atMost => ?_⟩
        rw [show i = collapse_top_index by omega]
        exact isNull
      · -- Eat the hole below and go on.
        rw [if_neg inUse]
        have below : collapse_top_index - 1 + 1 = collapse_top_index := by omega
        have holeBelow : (table.getD (collapse_top_index - 1) IrtEntry.zero).reference_.isNone := by
          simpa using inUse
        have recount := CountNullEntries_succ
          (show collapse_top_index - 1 < table.length by omega)
        rw [below, if_pos holeBelow] at recount
        obtain ⟨atMost, counts, topInUse, passed⟩ := CollapseLoop_spec (by omega)
          (show current_num_holes_ - 1 = CountNullEntries table (collapse_top_index - 1) by omega)
          holeBelow
        rw [below] at atMost counts topInUse passed
        refine ⟨by omega, counts, topInUse, fun i above atMost' => ?_⟩
        by_cases last : i = collapse_top_index
        · rw [last]; exact isNull
        · exact passed i above (by omega)
    · rw [if_neg continues]
      refine ⟨Nat.le_refl _, counted, fun positive => ?_, fun i above atMost => ?_⟩
      · -- No hole is left below: the entry below is in use.
        have noHoles : current_num_holes_ = 0 := by omega
        exact isSome_of_CountNullEntries_eq_zero (by omega) positive (counted ▸ noHoles)
      · rw [show i = collapse_top_index by omega]
        exact isNull

end Entries

section Invariant

/-! ### The invariant of the table -/

/-- Claim (a) and what the encoding needs: the hole count is exact, the top
entry is in use, every index fits the 32 bits `DecodeIndex` keeps, and every
serial is below `kIRTMaxSerial`. -/
structure IndirectReferenceTable.Valid (irt : IndirectReferenceTable Obj) : Prop where
  top_le : irt.top_index_ ≤ irt.max_entries_
  fits : irt.max_entries_ ≤ 2 ^ 32
  holes : irt.current_num_holes_ = CountNullEntries irt.table_ irt.top_index_
  top_in_use : 0 < irt.top_index_ → (irt.entry (irt.top_index_ - 1)).reference_.isSome
  serials : ∀ index, (irt.entry index).serial_ < kIRTMaxSerial

/-- A freshly created table: every entry zero. -/
def IndirectReferenceTable.empty (kind : IndirectRefKind) (max_entries : Nat) :
    IndirectReferenceTable Obj :=
  ⟨kind, List.replicate max_entries IrtEntry.zero, 0, 0⟩

theorem empty_valid (kind : IndirectRefKind) {max_entries : Nat} (fits : max_entries ≤ 2 ^ 32) :
    (IndirectReferenceTable.empty kind max_entries : IndirectReferenceTable Obj).Valid where
  top_le := by simp [IndirectReferenceTable.empty, IndirectReferenceTable.max_entries_]
  fits := by simpa [IndirectReferenceTable.empty, IndirectReferenceTable.max_entries_] using fits
  holes := by simp [IndirectReferenceTable.empty, CountNullEntries]
  top_in_use := by simp [IndirectReferenceTable.empty]
  serials := fun index => by
    simp only [IndirectReferenceTable.empty, IndirectReferenceTable.entry, List.getD_eq_getElem?_getD,
      List.getElem?_replicate]
    split <;> exact (show 0 < kIRTMaxSerial by decide)

theorem IrtEntry.serial_Add_lt {entry : IrtEntry Obj} (below : entry.serial_ < kIRTMaxSerial)
    (obj : Obj) : (entry.Add obj).serial_ < kIRTMaxSerial := by
  simp only [IrtEntry.Add]
  split <;> simp only [kIRTMaxSerial, kIRTSerialBits] at * <;> omega

/-- Storing advances a serial below `kIRTMaxSerial` by one, modulo it. -/
theorem IrtEntry.serial_Add {entry : IrtEntry Obj} (below : entry.serial_ < kIRTMaxSerial)
    (obj : Obj) : (entry.Add obj).serial_ = (entry.serial_ + 1) % kIRTMaxSerial := by
  have seven : kIRTMaxSerial = 7 := rfl
  simp only [IrtEntry.Add, seven] at below ⊢
  split <;> omega

end Invariant


section Live

/-! ### What the table stands for

A table stands for a map from references to objects: a reference is live when
its index is below `top_index_` and it is the reference `ToIndirectRef` makes
for that index now, and it names the object stored there. -/

namespace IndirectReferenceTable

/-- The object each live reference names. -/
def live (irt : IndirectReferenceTable Obj) (iref : Nat) : Option Obj :=
  let idx := ExtractIndex iref
  if idx < irt.top_index_ ∧ irt.ToIndirectRef idx = iref then (irt.entry idx).reference_ else none

/-- The live references, in index order. -/
def liveRefs (irt : IndirectReferenceTable Obj) : List Nat :=
  ((List.range irt.top_index_).filter fun index => (irt.entry index).reference_.isSome).map
    irt.ToIndirectRef

end IndirectReferenceTable

variable {irt : IndirectReferenceTable Obj}

theorem IndirectReferenceTable.Valid.index_fits (valid : irt.Valid) {index : Nat} (below : index < irt.top_index_) :
    index < 2 ^ 32 :=
  Nat.lt_of_lt_of_le below (Nat.le_trans valid.top_le valid.fits)

theorem IndirectReferenceTable.Valid.serial_lt_eight (valid : irt.Valid) (index : Nat) : (irt.entry index).serial_ < 8 :=
  Nat.lt_trans (valid.serials index) (by decide)

/-- The index a table's own reference decodes to. -/
theorem IndirectReferenceTable.Valid.ExtractIndex_ToIndirectRef (valid : irt.Valid) {index : Nat}
    (below : index < irt.top_index_) : ExtractIndex (irt.ToIndirectRef index) = index :=
  DecodeIndex_EncodeIndirectRef irt.kind_ (valid.index_fits below) (valid.serial_lt_eight index)

/-- The reference for an index below the top names what the entry holds. -/
theorem IndirectReferenceTable.Valid.live_ToIndirectRef (valid : irt.Valid) {index : Nat}
    (below : index < irt.top_index_) :
    irt.live (irt.ToIndirectRef index) = (irt.entry index).reference_ := by
  rw [live, valid.ExtractIndex_ToIndirectRef below, if_pos ⟨below, rfl⟩]

/-- A live reference is the table's reference for its index, and that entry
holds its object. -/
theorem live_eq_some_iff {iref : Nat} {obj : Obj} :
    irt.live iref = some obj ↔ ExtractIndex iref < irt.top_index_ ∧
      irt.ToIndirectRef (ExtractIndex iref) = iref ∧
      (irt.entry (ExtractIndex iref)).reference_ = some obj := by
  rw [live]
  split
  · next holds => simp [holds]
  · next fails =>
    simp only [reduceCtorEq, false_iff]
    exact fun ⟨below, same, _⟩ => fails ⟨below, same⟩

end Live

section Add

/-! ### `Add` -/

namespace IndirectReferenceTable

/-- The table `Add` leaves after storing `obj` at `index`. -/
def stored (irt : IndirectReferenceTable Obj) (index : Nat) (obj : Obj)
    (top_index_ current_num_holes_ : Nat) : IndirectReferenceTable Obj :=
  { irt with table_ := irt.table_.modify index (·.Add obj), top_index_, current_num_holes_ }

end IndirectReferenceTable

variable {irt : IndirectReferenceTable Obj}

/-- What `Add` does on a valid table: report that it is full, fill a hole
below the top, or append.  The hole scan never runs off the table. -/
theorem Add_cases (valid : irt.Valid) (obj : Obj) :
    (irt.top_index_ = irt.max_entries_ ∧ irt.Add obj = some (irt, none)) ∨
    (∃ index < irt.top_index_, (irt.entry index).reference_.isNone ∧
      0 < irt.current_num_holes_ ∧
      irt.Add obj = some (irt.stored index obj irt.top_index_ (irt.current_num_holes_ - 1),
        some ((irt.stored index obj irt.top_index_ (irt.current_num_holes_ - 1)).ToIndirectRef
          index))) ∨
    (irt.top_index_ < irt.max_entries_ ∧ irt.current_num_holes_ = 0 ∧
      irt.Add obj = some (irt.stored irt.top_index_ obj (irt.top_index_ + 1) 0,
        some ((irt.stored irt.top_index_ obj (irt.top_index_ + 1) 0).ToIndirectRef
          irt.top_index_))) := by
  by_cases full : irt.top_index_ = irt.max_entries_
  · exact Or.inl ⟨full, by rw [IndirectReferenceTable.Add, if_pos full]⟩
  · right
    have room : irt.top_index_ < irt.max_entries_ := Nat.lt_of_le_of_ne valid.top_le full
    by_cases holes : irt.current_num_holes_ > 0
    · -- A hole lies below the top entry, which is in use: the scan finds it.
      left
      have positive : 0 < irt.top_index_ := by
        rcases Nat.eq_zero_or_pos irt.top_index_ with empty | positive
        · rw [valid.holes, empty] at holes; simp [CountNullEntries] at holes
        · exact positive
      have topInUse := valid.top_in_use positive
      have counted : 0 < CountNullEntries irt.table_ (irt.top_index_ - 1) := by
        have split := CountNullEntries_succ
          (show irt.top_index_ - 1 < irt.table_.length by unfold max_entries_ at room; omega)
        rw [Nat.sub_add_cancel positive, ← valid.holes] at split
        simp only [entry] at topInUse
        rw [show (irt.table_.getD (irt.top_index_ - 1) IrtEntry.zero).reference_.isNone = false by
          simpa using topInUse] at split
        simp only [Bool.false_eq_true, if_false, Nat.add_zero] at split
        omega
      obtain ⟨hole, below, isNull⟩ := exists_null_of_CountNullEntries_pos
        (by unfold max_entries_ at room; omega) counted
      obtain ⟨index, scanned, atMost, indexNull⟩ :=
        @ScanForHole_spec _ irt.table_ (irt.top_index_ - 2) ⟨hole, by omega, isNull⟩
      refine ⟨index, by omega, indexNull, holes, ?_⟩
      rw [IndirectReferenceTable.Add, if_neg full, if_pos holes]
      simp only [Option.bind_eq_bind, scanned, Option.pure_def, Option.bind_some]
      rfl
    · right
      refine ⟨room, by omega, ?_⟩
      rw [IndirectReferenceTable.Add, if_neg full, if_neg holes]
      simp only [Option.bind_eq_bind, Option.pure_def, Option.bind_some, show irt.current_num_holes_ = 0 by omega]
      rfl

@[simp] theorem top_index_stored (index : Nat) (obj : Obj) (top_index_ current_num_holes_ : Nat) :
    (irt.stored index obj top_index_ current_num_holes_).top_index_ = top_index_ := rfl

@[simp] theorem kind_stored (index : Nat) (obj : Obj) (top_index_ current_num_holes_ : Nat) :
    (irt.stored index obj top_index_ current_num_holes_).kind_ = irt.kind_ := rfl

theorem entry_stored {index : Nat} (inside : index < irt.max_entries_) (obj : Obj)
    (top_index_ current_num_holes_ i : Nat) :
    (irt.stored index obj top_index_ current_num_holes_).entry i =
      if index = i then (irt.entry i).Add obj else irt.entry i :=
  getD_modify _ inside i

theorem max_entries_stored (index : Nat) (obj : Obj) (top_index_ current_num_holes_ : Nat) :
    (irt.stored index obj top_index_ current_num_holes_).max_entries_ = irt.max_entries_ :=
  List.length_modify _ _ _

theorem serials_stored (valid : irt.Valid) {index : Nat} (inside : index < irt.max_entries_)
    (obj : Obj) (top_index_ current_num_holes_ i : Nat) :
    ((irt.stored index obj top_index_ current_num_holes_).entry i).serial_ < kIRTMaxSerial := by
  rw [entry_stored inside]
  split
  · exact IrtEntry.serial_Add_lt (valid.serials i) obj
  · exact valid.serials i

/-- Storing at `index` advances that entry's serial and no other. -/
theorem serial_stored (valid : irt.Valid) {index : Nat} (inside : index < irt.max_entries_)
    (obj : Obj) (top_index_ current_num_holes_ i : Nat) :
    ((irt.stored index obj top_index_ current_num_holes_).entry i).serial_ =
      ((irt.entry i).serial_ + if index = i then 1 else 0) % kIRTMaxSerial := by
  rw [entry_stored inside]
  split
  · exact IrtEntry.serial_Add (valid.serials i) obj
  · rw [Nat.add_zero, Nat.mod_eq_of_lt (valid.serials i)]

/-- The reference `Add` returns decodes to the entry it stored at. -/
theorem ExtractIndex_stored (valid : irt.Valid) {index : Nat} (inside : index < irt.max_entries_)
    (obj : Obj) (top_index_ current_num_holes_ : Nat) :
    ExtractIndex ((irt.stored index obj top_index_ current_num_holes_).ToIndirectRef index) =
      index :=
  DecodeIndex_EncodeIndirectRef _ (Nat.lt_of_lt_of_le inside valid.fits)
    (Nat.lt_trans (serials_stored valid inside obj _ _ index) (by decide))

/-- Filling a hole below the top keeps the table valid. -/
theorem IndirectReferenceTable.Valid.stored_hole (valid : irt.Valid) {index : Nat} (below : index < irt.top_index_)
    (isNull : (irt.entry index).reference_.isNone) (obj : Obj) :
    (irt.stored index obj irt.top_index_ (irt.current_num_holes_ - 1)).Valid := by
  have inside : index < irt.max_entries_ := Nat.lt_of_lt_of_le below valid.top_le
  refine ⟨?_, ?_, ?_, fun positive => ?_, serials_stored valid inside obj _ _⟩
  · rw [max_entries_stored]; exact valid.top_le
  · rw [max_entries_stored]; exact valid.fits
  · -- The hole is gone, and nothing else changed below the top.
    have recount := CountNullEntries_modify (·.Add obj) inside valid.top_le
    rw [if_pos ⟨below, isNull⟩, if_neg (by simp [IrtEntry.Add]), Nat.add_zero] at recount
    show irt.current_num_holes_ - 1 = CountNullEntries (irt.table_.modify index (·.Add obj))
      irt.top_index_
    rw [valid.holes]
    omega
  · -- The top entry is in use, so it is not the hole.
    have topInUse := valid.top_in_use positive
    have other : index ≠ irt.top_index_ - 1 := by
      intro same
      rw [same, Option.isNone_iff_eq_none] at isNull
      rw [isNull] at topInUse
      exact Bool.false_ne_true topInUse
    show ((irt.stored index obj irt.top_index_ _).entry (irt.top_index_ - 1)).reference_.isSome
    rw [entry_stored inside, if_neg other]
    exact topInUse

/-- Appending keeps the table valid. -/
theorem IndirectReferenceTable.Valid.stored_top (valid : irt.Valid) (room : irt.top_index_ < irt.max_entries_)
    (noHoles : irt.current_num_holes_ = 0) (obj : Obj) :
    (irt.stored irt.top_index_ obj (irt.top_index_ + 1) 0).Valid := by
  refine ⟨?_, ?_, ?_, fun _ => ?_, serials_stored valid room obj _ _⟩
  · rw [max_entries_stored]; exact room
  · rw [max_entries_stored]; exact valid.fits
  · -- Below the old top nothing changed, and the new top entry is in use.
    have below := CountNullEntries_modify (·.Add obj) room (Nat.le_of_lt room)
    simp only [Nat.lt_irrefl, false_and, if_false, Nat.add_zero] at below
    show 0 = CountNullEntries (irt.table_.modify irt.top_index_ (·.Add obj)) (irt.top_index_ + 1)
    rw [CountNullEntries_succ (by rw [List.length_modify]; exact room), below, ← valid.holes,
      noHoles, getD_modify _ room, if_pos rfl]
    simp [IrtEntry.Add]
  · show ((irt.stored irt.top_index_ obj _ _).entry (irt.top_index_ + 1 - 1)).reference_.isSome
    rw [Nat.add_sub_cancel, entry_stored room, if_pos rfl]
    rfl

/-- `Add` keeps the table valid. -/
theorem Add_valid (valid : irt.Valid) {obj : Obj} {result : IndirectReferenceTable Obj × Option Nat}
    (added : irt.Add obj = some result) : result.1.Valid := by
  rcases Add_cases valid obj with ⟨_, full⟩ | ⟨index, below, isNull, holes, filled⟩ |
      ⟨room, noHoles, appended⟩
  · rw [full] at added; cases added; exact valid
  · rw [filled] at added; cases added; exact valid.stored_hole below isNull obj
  · rw [appended] at added; cases added; exact valid.stored_top room noHoles obj

/-- An entry that no live reference names: a hole, or the entry at the top. -/
theorem live_eq_none_of_free {index : Nat}
    (free : (index < irt.top_index_ ∧ (irt.entry index).reference_.isNone) ∨
      index = irt.top_index_) {iref : Nat} (at_index : ExtractIndex iref = index) :
    irt.live iref = none := by
  rw [live, at_index]
  split
  · next inUse =>
    rcases free with ⟨_, isNull⟩ | atTop
    · exact Option.isNone_iff_eq_none.mp isNull
    · exact absurd inUse.1 (by omega)
  · rfl

/-- Storing an object in a free entry makes the entry's new reference name
it and changes nothing else. -/
theorem live_stored (valid : irt.Valid) {index : Nat} (inside : index < irt.max_entries_)
    (free : (index < irt.top_index_ ∧ (irt.entry index).reference_.isNone) ∨
      index = irt.top_index_)
    (obj : Obj) {top_index_ current_num_holes_ : Nat} (covers : index < top_index_)
    (same_below : ∀ i, i ≠ index → (i < top_index_ ↔ i < irt.top_index_)) :
    (irt.stored index obj top_index_ current_num_holes_).live =
      Function.update irt.live
        ((irt.stored index obj top_index_ current_num_holes_).ToIndirectRef index) (some obj) := by
  have decoded := ExtractIndex_stored valid inside obj top_index_ current_num_holes_
  funext iref
  rw [Function.update_apply]
  by_cases at_index : ExtractIndex iref = index
  · -- The stored entry: only its new reference is live.
    rw [live, at_index]
    by_cases named : iref = (irt.stored index obj top_index_ current_num_holes_).ToIndirectRef index
    · rw [if_pos named, if_pos ⟨covers, named.symm⟩, entry_stored inside, if_pos rfl]
      rfl
    · rw [if_neg named, if_neg (fun isLive => named isLive.2.symm)]
      exact (live_eq_none_of_free free at_index).symm
  · -- Any other entry, below the top before and after alike.
    have other : iref ≠ (irt.stored index obj top_index_ current_num_holes_).ToIndirectRef index :=
      fun named => at_index (named ▸ decoded)
    rw [if_neg other, live, live]
    have untouched : (irt.stored index obj top_index_ current_num_holes_).entry (ExtractIndex iref) =
        irt.entry (ExtractIndex iref) := by
      rw [entry_stored inside, if_neg (Ne.symm at_index)]
    simp only [ToIndirectRef, untouched, top_index_stored, kind_stored, same_below _ at_index]
    congr

/-- `Add` of a non-null object returns a reference that was not live and
makes it name the object; every other reference keeps what it names. -/
theorem Add_live (valid : irt.Valid) {obj : Obj} {added : IndirectReferenceTable Obj}
    {iref : Nat} (adds : irt.Add obj = some (added, some iref)) :
    irt.live iref = none ∧ added.live = Function.update irt.live iref (some obj) := by
  rcases Add_cases valid obj with ⟨_, full⟩ | ⟨index, below, isNull, _, filled⟩ |
      ⟨room, _, appended⟩
  · rw [full] at adds; cases adds
  · rw [filled] at adds
    cases adds
    have inside := Nat.lt_of_lt_of_le below valid.top_le
    refine ⟨live_eq_none_of_free (Or.inl ⟨below, isNull⟩)
      (ExtractIndex_stored valid inside obj _ _), ?_⟩
    exact live_stored valid inside (Or.inl ⟨below, isNull⟩) obj below (fun _ _ => Iff.rfl)
  · rw [appended] at adds
    cases adds
    refine ⟨live_eq_none_of_free (Or.inr rfl) (ExtractIndex_stored valid room obj _ _), ?_⟩
    exact live_stored valid room (Or.inr rfl) obj (Nat.lt_succ_self _)
      (fun i other => by omega)

end Add

section Remove

/-! ### `Remove` -/

variable {irt : IndirectReferenceTable Obj}

theorem getD_clear {idx : Nat} (inside : idx < irt.max_entries_) (i : Nat) :
    (irt.clear idx).getD i IrtEntry.zero =
      if idx = i then { irt.entry i with reference_ := none } else irt.entry i :=
  getD_modify _ inside i

theorem length_clear (idx : Nat) : (irt.clear idx).length = irt.max_entries_ :=
  List.length_modify _ _ _

/-- Clearing an entry at or above `limit` leaves the holes below it. -/
theorem CountNullEntries_clear_of_le {idx limit : Nat} (inside : idx < irt.max_entries_)
    (above : limit ≤ idx) : CountNullEntries (irt.clear idx) limit = CountNullEntries irt.table_ limit := by
  have recount := CountNullEntries_modify
    (fun entry => { entry with reference_ := none }) inside (Nat.le_trans above (Nat.le_of_lt inside))
  rw [if_neg (fun below => Nat.not_lt_of_le above below.1),
    if_neg (fun below => Nat.not_lt_of_le above below.1)] at recount
  exact recount

/-- The holes below the top entry are all the holes below the top. -/
theorem IndirectReferenceTable.Valid.holes_below_top (valid : irt.Valid) (positive : 0 < irt.top_index_) :
    CountNullEntries irt.table_ (irt.top_index_ - 1) = irt.current_num_holes_ := by
  have split := CountNullEntries_succ
    (show irt.top_index_ - 1 < irt.table_.length by
      have := valid.top_le; unfold max_entries_ at this; omega)
  have inUse := valid.top_in_use positive
  simp only [entry] at inUse
  rw [Nat.sub_add_cancel positive, ← valid.holes,
    show (irt.table_.getD (irt.top_index_ - 1) IrtEntry.zero).reference_.isNone = false by
      simpa using inUse] at split
  simp only [Bool.false_eq_true, if_false, Nat.add_zero] at split
  exact split.symm

theorem serials_clear (valid : irt.Valid) {idx : Nat} (inside : idx < irt.max_entries_) (i : Nat) :
    ((irt.clear idx).getD i IrtEntry.zero).serial_ < kIRTMaxSerial := by
  rw [getD_clear inside]
  split
  · exact valid.serials i
  · exact valid.serials i

/-- Clearing an entry keeps every serial. -/
theorem serial_clear (idx i : Nat) :
    ((irt.clear idx).getD i IrtEntry.zero).serial_ = (irt.entry i).serial_ := by
  simp only [clear, entry, List.getD_eq_getElem?_getD, List.getElem?_modify]
  cases irt.table_[i]? <;> split <;> rfl

/-- Clearing an entry nulls it and no other. -/
theorem reference_clear (idx i : Nat) :
    ((irt.clear idx).getD i IrtEntry.zero).reference_ =
      if idx = i then none else (irt.entry i).reference_ := by
  simp only [clear, entry, List.getD_eq_getElem?_getD, List.getElem?_modify]
  cases irt.table_[i]? <;> split <;> rfl

/-- Removing the top entry when there are holes: the collapse loop leaves a
valid table, and only null entries above its new top. -/
theorem IndirectReferenceTable.Valid.clear_collapse (valid : irt.Valid)
    (positive : 0 < irt.top_index_) :
    ({ irt with
        table_ := irt.clear (irt.top_index_ - 1)
        top_index_ := (CollapseLoop (irt.clear (irt.top_index_ - 1)) irt.top_index_
          irt.current_num_holes_).1
        current_num_holes_ := (CollapseLoop (irt.clear (irt.top_index_ - 1)) irt.top_index_
          irt.current_num_holes_).2 } : IndirectReferenceTable Obj).Valid ∧
      (CollapseLoop (irt.clear (irt.top_index_ - 1)) irt.top_index_ irt.current_num_holes_).1 ≤
        irt.top_index_ ∧
      ∀ i, (CollapseLoop (irt.clear (irt.top_index_ - 1)) irt.top_index_
          irt.current_num_holes_).1 ≤ i → i < irt.top_index_ →
        ((irt.clear (irt.top_index_ - 1)).getD i IrtEntry.zero).reference_.isNone := by
  have inside : irt.top_index_ - 1 < irt.max_entries_ := by have := valid.top_le; omega
  have counted : irt.current_num_holes_ =
      CountNullEntries (irt.clear (irt.top_index_ - 1)) (irt.top_index_ - 1) := by
    rw [CountNullEntries_clear_of_le inside (Nat.le_refl _), valid.holes_below_top positive]
  have cleared : ((irt.clear (irt.top_index_ - 1)).getD (irt.top_index_ - 1)
      IrtEntry.zero).reference_.isNone := by
    rw [getD_clear inside, if_pos rfl]
    rfl
  have loop := CollapseLoop_spec (by rw [length_clear]; exact inside) counted cleared
  rw [Nat.sub_add_cancel positive] at loop
  obtain ⟨atMost, counts, topInUse, passed⟩ := loop
  refine ⟨⟨?_, ?_, counts, topInUse, serials_clear valid inside⟩, by omega,
    fun i above below => passed i above (by omega)⟩
  · dsimp only [max_entries_]
    rw [length_clear]; have := valid.top_le; omega
  · dsimp only [max_entries_]
    rw [length_clear]; exact valid.fits

/-- Removing the top entry when there is no hole. -/
theorem IndirectReferenceTable.Valid.clear_top (valid : irt.Valid)
    (positive : 0 < irt.top_index_) (noHoles : irt.current_num_holes_ = 0) :
    ({ irt with
        table_ := irt.clear (irt.top_index_ - 1)
        top_index_ := irt.top_index_ - 1 } : IndirectReferenceTable Obj).Valid ∧
      ((irt.clear (irt.top_index_ - 1)).getD (irt.top_index_ - 1) IrtEntry.zero).reference_.isNone := by
  have inside : irt.top_index_ - 1 < irt.max_entries_ := by have := valid.top_le; omega
  have counted : CountNullEntries (irt.clear (irt.top_index_ - 1)) (irt.top_index_ - 1) = 0 := by
    rw [CountNullEntries_clear_of_le inside (Nat.le_refl _), valid.holes_below_top positive,
      noHoles]
  refine ⟨⟨?_, ?_, ?_, fun below => ?_, serials_clear valid inside⟩, ?_⟩
  · dsimp only [max_entries_]
    rw [length_clear]; omega
  · dsimp only [max_entries_]
    rw [length_clear]; exact valid.fits
  · exact noHoles.trans counted.symm
  · show ((irt.clear (irt.top_index_ - 1)).getD (irt.top_index_ - 1 - 1)
      IrtEntry.zero).reference_.isSome
    exact isSome_of_CountNullEntries_eq_zero (by rw [length_clear]; omega) below counted
  · rw [getD_clear inside, if_pos rfl]
    rfl

/-- Removing an entry in use below the top entry leaves one more hole. -/
theorem IndirectReferenceTable.Valid.clear_hole (valid : irt.Valid) {idx : Nat} (below : idx < irt.top_index_ - 1)
    (inUse : (irt.entry idx).reference_.isSome) :
    ({ irt with
        table_ := irt.clear idx
        current_num_holes_ := irt.current_num_holes_ + 1 } : IndirectReferenceTable Obj).Valid := by
  have inside : idx < irt.max_entries_ := by have := valid.top_le; omega
  refine ⟨?_, ?_, ?_, fun positive => ?_, serials_clear valid inside⟩
  · dsimp only [max_entries_]
    rw [length_clear]; exact valid.top_le
  · dsimp only [max_entries_]
    rw [length_clear]; exact valid.fits
  · -- The cleared entry is the new hole.
    have recount := CountNullEntries_modify
      (fun entry => { entry with reference_ := none }) inside valid.top_le
    have wasInUse : (irt.table_.getD idx IrtEntry.zero).reference_.isNone = false := by
      simpa [entry] using inUse
    rw [wasInUse] at recount
    simp only [Bool.false_eq_true, and_false, if_false, Nat.add_zero] at recount
    rw [if_pos ⟨by omega, rfl⟩] at recount
    show irt.current_num_holes_ + 1 = CountNullEntries (irt.clear idx) irt.top_index_
    rw [valid.holes]
    exact recount.symm
  · show ((irt.clear idx).getD (irt.top_index_ - 1) IrtEntry.zero).reference_.isSome
    rw [getD_clear inside, if_neg (by omega)]
    exact valid.top_in_use positive

theorem live_of_CheckEntry {iref : Nat} (below : ExtractIndex iref < irt.top_index_)
    (checked : irt.CheckEntry iref (ExtractIndex iref) = true) :
    irt.live iref = (irt.entry (ExtractIndex iref)).reference_ := by
  rw [live, if_pos ⟨below, beq_iff_eq.mp checked⟩]

theorem live_eq_none_of_CheckEntry {iref : Nat}
    (stale : irt.CheckEntry iref (ExtractIndex iref) = false) : irt.live iref = none := by
  rw [live, if_neg (fun isLive => by simp [CheckEntry, isLive.2] at stale)]

theorem live_eq_none_of_null {iref : Nat}
    (null : (irt.entry (ExtractIndex iref)).reference_.isNone) : irt.live iref = none := by
  rw [live]
  split
  · exact Option.isNone_iff_eq_none.mp null
  · rfl

theorem live_eq_none_of_le {iref : Nat} (beyond : irt.top_index_ ≤ ExtractIndex iref) :
    irt.live iref = none := by
  rw [live, if_neg (fun isLive => Nat.not_lt_of_le beyond isLive.1)]

/-- What `Remove` does on a valid table: fail and change nothing, when the
reference is not live; or clear its entry, lower the top over the holes
under it when it was the top entry, and keep the table valid. -/
theorem Remove_cases (valid : irt.Valid) (iref : Nat) :
    (irt.Remove iref = (irt, false) ∧ irt.live iref = none) ∨
    ((irt.Remove iref).2 = true ∧ (irt.live iref).isSome ∧
      (irt.Remove iref).1.kind_ = irt.kind_ ∧
      (irt.Remove iref).1.table_ = irt.clear (ExtractIndex iref) ∧
      (irt.Remove iref).1.top_index_ ≤ irt.top_index_ ∧
      (∀ i, (irt.Remove iref).1.top_index_ ≤ i → i < irt.top_index_ →
        ((irt.clear (ExtractIndex iref)).getD i IrtEntry.zero).reference_.isNone) ∧
      (irt.Remove iref).1.Valid) := by
  rw [IndirectReferenceTable.Remove]
  dsimp only
  by_cases stale : ExtractIndex iref ≥ irt.top_index_
  · exact Or.inl ⟨by rw [if_pos stale], live_eq_none_of_le stale⟩
  rw [if_neg stale]
  have below : ExtractIndex iref < irt.top_index_ := by omega
  by_cases atTop : ExtractIndex iref = irt.top_index_ - 1
  · -- The top entry: in use, so its reference is live when it checks.
    rw [if_pos atTop]
    cases checked : irt.CheckEntry iref (ExtractIndex iref) with
    | false => exact Or.inl ⟨by simp, live_eq_none_of_CheckEntry checked⟩
    | true =>
      right
      have isLive : (irt.live iref).isSome := by
        rw [live_of_CheckEntry below checked, atTop]
        exact valid.top_in_use (by omega)
      simp only [Bool.not_true, Bool.false_eq_true, if_false]
      rw [atTop]
      split
      · obtain ⟨removedValid, lowered, passed⟩ := valid.clear_collapse (by omega)
        exact ⟨rfl, isLive, rfl, rfl, lowered, passed, removedValid⟩
      · next noHoles =>
        obtain ⟨removedValid, cleared⟩ := valid.clear_top (by omega) (by omega)
        refine ⟨rfl, isLive, rfl, rfl, Nat.sub_le _ _, fun i above below' => ?_, removedValid⟩
        rw [show i = irt.top_index_ - 1 by dsimp only at above; omega]
        exact cleared
  · -- An entry below the top: a hole, or one in use that leaves a hole.
    rw [if_neg atTop]
    by_cases null : (irt.entry (ExtractIndex iref)).reference_.isNone
    · exact Or.inl ⟨by rw [if_pos null], live_eq_none_of_null null⟩
    · rw [if_neg null]
      cases checked : irt.CheckEntry iref (ExtractIndex iref) with
      | false => exact Or.inl ⟨by simp, live_eq_none_of_CheckEntry checked⟩
      | true =>
        have inUse : (irt.entry (ExtractIndex iref)).reference_.isSome := by
          cases entryIs : (irt.entry (ExtractIndex iref)).reference_ with
          | none => simp [entryIs] at null
          | some _ => rfl
        simp only [Bool.not_true, Bool.false_eq_true, if_false]
        exact Or.inr ⟨trivial, by rw [live_of_CheckEntry below checked]; exact inUse, trivial, trivial,
          Nat.le_refl _, fun i above below' => absurd below' (Nat.not_lt_of_le above),
          valid.clear_hole (by omega) inUse⟩

/-- `Remove` keeps the table valid. -/
theorem Remove_valid (valid : irt.Valid) (iref : Nat) : (irt.Remove iref).1.Valid := by
  rcases Remove_cases valid iref with ⟨unchanged, _⟩ | ⟨_, _, _, _, _, _, removedValid⟩
  · rw [unchanged]; exact valid
  · exact removedValid

/-- `Remove` keeps the kind and every serial. -/
theorem serial_Remove (valid : irt.Valid) (iref : Nat) :
    (irt.Remove iref).1.kind_ = irt.kind_ ∧
      ∀ i, ((irt.Remove iref).1.entry i).serial_ = (irt.entry i).serial_ := by
  rcases Remove_cases valid iref with ⟨unchanged, _⟩ | ⟨_, _, sameKind, cleared, _⟩
  · rw [unchanged]
    exact ⟨rfl, fun _ => rfl⟩
  · refine ⟨sameKind, fun i => ?_⟩
    rw [entry, cleared]
    exact serial_clear _ i

/-- `Remove` succeeds exactly on the live references; afterwards the
reference is dead and every other one names what it named. -/
theorem Remove_live (valid : irt.Valid) (iref : Nat) :
    (irt.Remove iref).2 = (irt.live iref).isSome ∧
      (irt.Remove iref).1.live = Function.update irt.live iref none := by
  rcases Remove_cases valid iref with ⟨unchanged, dead⟩ |
      ⟨removes, isLive, sameKind, cleared, lowered, passed, _⟩
  · rw [unchanged, dead]
    exact ⟨rfl, (Function.update_eq_self iref irt.live).symm.trans (by rw [dead])⟩
  · refine ⟨by rw [removes, isLive], ?_⟩
    have below : ExtractIndex iref < irt.top_index_ := by
      by_contra beyond
      rw [live_eq_none_of_le (Nat.le_of_not_lt beyond)] at isLive
      exact Bool.false_ne_true isLive
    have inside : ExtractIndex iref < irt.max_entries_ := Nat.lt_of_lt_of_le below valid.top_le
    have named : irt.ToIndirectRef (ExtractIndex iref) = iref := by
      by_contra other
      rw [live, if_neg (fun isLive => other isLive.2)] at isLive
      exact Bool.false_ne_true isLive
    -- Entries keep their serials, so the references of the other entries do not change.
    have sameRef : ∀ i, (irt.Remove iref).1.ToIndirectRef i = irt.ToIndirectRef i := by
      intro i
      simp only [ToIndirectRef, sameKind, (serial_Remove valid iref).2 i]
    funext ref
    rw [Function.update_apply]
    by_cases same : ref = iref
    · subst same
      rw [if_pos rfl, live, sameRef, named]
      split
      · simp only [entry, cleared, getD_clear inside, if_true]
      · rfl
    · rw [if_neg same, live, live, sameRef]
      by_cases atCleared : ExtractIndex ref = ExtractIndex iref
      · -- The cleared entry's one live reference was `iref`.
        rw [atCleared, named, if_neg (fun isLive => same isLive.2.symm),
          if_neg (fun isLive => same isLive.2.symm)]
      · have untouched : (irt.Remove iref).1.entry (ExtractIndex ref) = irt.entry (ExtractIndex ref) := by
          simp only [entry, cleared, getD_clear inside, if_neg (Ne.symm atCleared)]
        rw [untouched]
        by_cases stillBelow : ExtractIndex ref < (irt.Remove iref).1.top_index_
        · have wasBelow : ExtractIndex ref < irt.top_index_ := Nat.lt_of_lt_of_le stillBelow lowered
          simp only [stillBelow, wasBelow, true_and]
        · -- Above the new top only null entries were passed over.
          rw [if_neg (fun isLive => stillBelow isLive.1)]
          split
          · next isLive =>
            have null := passed (ExtractIndex ref) (Nat.le_of_not_lt stillBelow) isLive.1
            rw [getD_clear inside, if_neg (Ne.symm atCleared)] at null
            exact (Option.isNone_iff_eq_none.mp null).symm
          · rfl

end Remove

section Reading

/-! ### `Get`, `VisitRoots` and `NEntriesForGlobal` -/

variable {irt : IndirectReferenceTable Obj}

/-- `Get` of a live reference returns the object it names. -/
theorem Get_of_live {iref : Nat} {obj : Obj} (isLive : irt.live iref = some obj) :
    irt.Get iref = some obj :=
  (live_eq_some_iff.mp isLive).2.2

/-- The live references are the table's references for the entries in use
below the top. -/
theorem mem_liveRefs (valid : irt.Valid) {iref : Nat} :
    iref ∈ irt.liveRefs ↔ (irt.live iref).isSome := by
  constructor
  · intro member
    obtain ⟨index, chosen, named⟩ := List.mem_map.mp member
    obtain ⟨below, inUse⟩ := List.mem_filter.mp chosen
    rw [← named, valid.live_ToIndirectRef (List.mem_range.mp below)]
    exact inUse
  · intro isLive
    obtain ⟨obj, named⟩ := Option.isSome_iff_exists.mp isLive
    obtain ⟨below, same, stored⟩ := live_eq_some_iff.mp named
    exact List.mem_map.mpr ⟨ExtractIndex iref,
      List.mem_filter.mpr ⟨List.mem_range.mpr below, by rw [stored]; rfl⟩, same⟩

/-- The indices of the live references are those of the entries in use
below the top. -/
theorem map_ExtractIndex_liveRefs (valid : irt.Valid) :
    irt.liveRefs.map ExtractIndex =
      (List.range irt.top_index_).filter fun index => (irt.entry index).reference_.isSome := by
  rw [liveRefs, List.map_map]
  refine (List.map_congr_left fun index chosen => ?_).trans (List.map_id _)
  exact valid.ExtractIndex_ToIndirectRef (List.mem_range.mp (List.mem_filter.mp chosen).1)

/-- No two live references share an index. -/
theorem nodup_ExtractIndex_liveRefs (valid : irt.Valid) : (irt.liveRefs.map ExtractIndex).Nodup := by
  rw [map_ExtractIndex_liveRefs valid]
  exact List.nodup_range.filter _

theorem nodup_liveRefs (valid : irt.Valid) : irt.liveRefs.Nodup :=
  (nodup_ExtractIndex_liveRefs valid).of_map ExtractIndex

theorem filterMap_take_reference (n : Nat) (within : n ≤ irt.max_entries_) :
    (irt.table_.take n).filterMap (·.reference_) =
      (List.range n).filterMap fun index => (irt.entry index).reference_ := by
  induction n with
  | zero => rfl
  | succ n inductionHypothesis =>
    have inside : n < irt.table_.length := within
    rw [List.take_add_one, List.filterMap_append, inductionHypothesis (by omega), List.range_succ,
      List.filterMap_append, List.getElem?_eq_getElem inside]
    simp only [entry, List.getD_eq_getElem?_getD, List.getElem?_eq_getElem inside,
      Option.toList_some, List.filterMap_cons, List.filterMap_nil, Option.getD_some]

/-- `VisitRoots` visits the object of each live reference, once, in index
order. -/
theorem VisitRoots_eq (valid : irt.Valid) : irt.VisitRoots = irt.liveRefs.filterMap irt.live := by
  rw [VisitRoots, Capacity, filterMap_take_reference _ valid.top_le, liveRefs, List.filterMap_map,
    List.filterMap_filter]
  apply List.filterMap_congr
  intro index below
  simp only [Function.comp_apply, valid.live_ToIndirectRef (List.mem_range.mp below)]
  split
  · rfl
  · next notInUse => simpa using notInUse

/-- The entries in use and the holes below a limit add up to it. -/
theorem length_filter_add_CountNullEntries {n : Nat} (within : n ≤ irt.max_entries_) :
    ((List.range n).filter fun index => (irt.entry index).reference_.isSome).length +
      CountNullEntries irt.table_ n = n := by
  induction n with
  | zero => rfl
  | succ n inductionHypothesis =>
    rw [List.range_succ, List.filter_append, List.length_append,
      CountNullEntries_succ (show n < irt.table_.length from within)]
    have earlier := inductionHypothesis (by omega)
    rw [List.filter_cons, List.filter_nil]
    -- The entry at `n` is in use or a hole, not both.
    have oneOf : (if (irt.entry n).reference_.isSome then [n] else []).length +
        (if (irt.table_.getD n IrtEntry.zero).reference_.isNone then 1 else 0) = 1 := by
      show (if (irt.entry n).reference_.isSome then [n] else []).length +
        (if (irt.entry n).reference_.isNone then 1 else 0) = 1
      cases (irt.entry n).reference_ <;> rfl
    omega

/-- `NEntriesForGlobal()` counts the live references. -/
theorem NEntriesForGlobal_eq (valid : irt.Valid) :
    irt.NEntriesForGlobal = irt.liveRefs.length := by
  have counted := length_filter_add_CountNullEntries valid.top_le
  rw [NEntriesForGlobal, liveRefs, List.length_map, valid.holes]
  omega

end Reading

section Sweep

/-! ### `SweepJniWeakGlobals` -/

variable {irt : IndirectReferenceTable Obj}

theorem entry_SweepJniWeakGlobals (IsMarked : Obj → Option Obj) (cleared : Obj) (index : Nat) :
    (irt.SweepJniWeakGlobals IsMarked cleared).entry index =
      if index < irt.top_index_ then
        { irt.entry index with
          reference_ := (irt.entry index).reference_.map fun obj => (IsMarked obj).getD cleared }
      else irt.entry index := by
  simp only [entry, SweepJniWeakGlobals, Capacity, List.getD_eq_getElem?_getD, List.getElem?_mapIdx]
  by_cases below : index < irt.top_index_
  · rw [if_pos below]
    cases irt.table_[index]? <;> simp [below]
    rfl
  · rw [if_neg below]
    cases irt.table_[index]? <;> simp [below]

@[simp] theorem top_index_SweepJniWeakGlobals (IsMarked : Obj → Option Obj) (cleared : Obj) :
    (irt.SweepJniWeakGlobals IsMarked cleared).top_index_ = irt.top_index_ := rfl

theorem serial_SweepJniWeakGlobals (IsMarked : Obj → Option Obj) (cleared : Obj) (index : Nat) :
    ((irt.SweepJniWeakGlobals IsMarked cleared).entry index).serial_ = (irt.entry index).serial_ := by
  rw [entry_SweepJniWeakGlobals]
  split <;> rfl

theorem isNone_SweepJniWeakGlobals (IsMarked : Obj → Option Obj) (cleared : Obj) (index : Nat) :
    ((irt.SweepJniWeakGlobals IsMarked cleared).entry index).reference_.isNone =
      (irt.entry index).reference_.isNone := by
  rw [entry_SweepJniWeakGlobals]
  split
  · exact Option.isNone_map
  · rfl

theorem ToIndirectRef_SweepJniWeakGlobals (IsMarked : Obj → Option Obj) (cleared : Obj)
    (index : Nat) :
    (irt.SweepJniWeakGlobals IsMarked cleared).ToIndirectRef index = irt.ToIndirectRef index := by
  simp only [ToIndirectRef, serial_SweepJniWeakGlobals]
  rfl

/-- Two tables whose entries below `n` are null alike count the same holes
below it. -/
theorem CountNullEntries_congr {table other : List (IrtEntry Obj)} {n : Nat}
    (within : n ≤ table.length) (sameLength : other.length = table.length)
    (alike : ∀ index < n, (other.getD index IrtEntry.zero).reference_.isNone =
      (table.getD index IrtEntry.zero).reference_.isNone) :
    CountNullEntries other n = CountNullEntries table n := by
  induction n with
  | zero => rfl
  | succ n inductionHypothesis =>
    rw [CountNullEntries_succ (by omega), CountNullEntries_succ (by omega),
      inductionHypothesis (by omega) (fun index below => alike index (by omega)),
      alike n (Nat.lt_succ_self n)]

/-- A sweep keeps which entries are null and every serial, so it keeps the
table valid. -/
theorem SweepJniWeakGlobals_valid (valid : irt.Valid) (IsMarked : Obj → Option Obj)
    (cleared : Obj) : (irt.SweepJniWeakGlobals IsMarked cleared).Valid := by
  have sameLength : (irt.SweepJniWeakGlobals IsMarked cleared).table_.length = irt.table_.length :=
    List.length_mapIdx
  refine ⟨?_, ?_, ?_, fun positive => ?_, fun index => ?_⟩
  · show _ ≤ (irt.SweepJniWeakGlobals IsMarked cleared).table_.length
    rw [sameLength]; exact valid.top_le
  · show (irt.SweepJniWeakGlobals IsMarked cleared).table_.length ≤ _
    rw [sameLength]; exact valid.fits
  · show irt.current_num_holes_ =
      CountNullEntries (irt.SweepJniWeakGlobals IsMarked cleared).table_ irt.top_index_
    rw [CountNullEntries_congr valid.top_le sameLength
      (fun index _ => isNone_SweepJniWeakGlobals IsMarked cleared index)]
    exact valid.holes
  · rw [top_index_SweepJniWeakGlobals] at positive ⊢
    have inUse := valid.top_in_use positive
    rw [entry_SweepJniWeakGlobals, if_pos (by omega)]
    simpa using inUse
  · rw [serial_SweepJniWeakGlobals]
    exact valid.serials index

/-- A sweep replaces what each live reference names by what `IsMarked`
returns for it, or by the cleared weak global. -/
theorem SweepJniWeakGlobals_live (IsMarked : Obj → Option Obj) (cleared : Obj) :
    (irt.SweepJniWeakGlobals IsMarked cleared).live =
      fun iref => (irt.live iref).map fun obj => (IsMarked obj).getD cleared := by
  funext iref
  simp only [live, ToIndirectRef_SweepJniWeakGlobals, top_index_SweepJniWeakGlobals]
  split
  · next isLive => rw [entry_SweepJniWeakGlobals, if_pos isLive.1]
  · rfl

end Sweep

section Runs

/-! ### Runs of operations

A run is any finite sequence of `Add`, `Remove` and `SweepJniWeakGlobals`.
Against it stands what a table of references is for: a map from handles to
objects, where adding picks a handle not in use, removing a handle reports
whether it was in use, and a sweep maps every object.  `run_refines` says
that a valid table runs every sequence, stays valid after each operation,
and moves its `live` map as the handle map moves. -/

/-- The operations of a run. -/
inductive Operation (Obj : Type) where
  | Add (obj : Obj)
  | Remove (iref : Nat)
  | SweepJniWeakGlobals (IsMarked : Obj → Option Obj) (cleared : Obj)

/-- What an operation returns. -/
inductive Outcome where
  | added (iref : Option Nat)
  | removed (found : Bool)
  | swept

/-- One operation. -/
def IndirectReferenceTable.step (irt : IndirectReferenceTable Obj) :
    Operation Obj → Option (IndirectReferenceTable Obj × Outcome)
  | .Add obj => (irt.Add obj).map fun added => (added.1, .added added.2)
  | .Remove iref => some ((irt.Remove iref).1, .removed (irt.Remove iref).2)
  | .SweepJniWeakGlobals IsMarked cleared =>
    some (irt.SweepJniWeakGlobals IsMarked cleared, .swept)

/-- A run: the table after it and what each operation returned. -/
def IndirectReferenceTable.run (irt : IndirectReferenceTable Obj) :
    List (Operation Obj) → Option (IndirectReferenceTable Obj × List Outcome)
  | [] => some (irt, [])
  | operation :: rest => do
    let (next, outcome) ← irt.step operation
    let (final, outcomes) ← next.run rest
    pure (final, outcome :: outcomes)

/-- One operation on a map from handles to objects. -/
inductive HandleStep : (Nat → Option Obj) → Operation Obj → Outcome → (Nat → Option Obj) → Prop
  | add_fresh {map : Nat → Option Obj} {obj : Obj} {handle : Nat} (fresh : map handle = none) :
      HandleStep map (.Add obj) (.added (some handle)) (Function.update map handle (some obj))
  | add_full {map : Nat → Option Obj} {obj : Obj} : HandleStep map (.Add obj) (.added none) map
  | remove {map : Nat → Option Obj} {handle : Nat} :
      HandleStep map (.Remove handle) (.removed (map handle).isSome)
        (Function.update map handle none)
  | sweep {map : Nat → Option Obj} {IsMarked : Obj → Option Obj} {cleared : Obj} :
      HandleStep map (.SweepJniWeakGlobals IsMarked cleared) .swept
        (fun handle => (map handle).map fun obj => (IsMarked obj).getD cleared)

/-- A run on a map from handles to objects. -/
inductive HandleRun : (Nat → Option Obj) → List (Operation Obj) → List Outcome →
    (Nat → Option Obj) → Prop
  | nil {map : Nat → Option Obj} : HandleRun map [] [] map
  | cons {map middle final : Nat → Option Obj} {operation : Operation Obj} {outcome : Outcome}
      {operations : List (Operation Obj)} {outcomes : List Outcome} :
      HandleStep map operation outcome middle → HandleRun middle operations outcomes final →
      HandleRun map (operation :: operations) (outcome :: outcomes) final

variable {irt : IndirectReferenceTable Obj}

/-- One operation on a valid table never runs off it, keeps it valid, and
acts on `live` as on a map from handles. -/
theorem step_refines (valid : irt.Valid) (operation : Operation Obj) :
    ∃ next outcome, irt.step operation = some (next, outcome) ∧ next.Valid ∧
      HandleStep irt.live operation outcome next.live := by
  cases operation with
  | Add obj =>
    obtain ⟨added, adds⟩ : ∃ added, irt.Add obj = some added := by
      rcases Add_cases valid obj with ⟨_, full⟩ | ⟨_, _, _, _, filled⟩ | ⟨_, _, appended⟩
      · exact ⟨_, full⟩
      · exact ⟨_, filled⟩
      · exact ⟨_, appended⟩
    refine ⟨added.1, .added added.2, by simp [IndirectReferenceTable.step, adds],
      Add_valid valid adds, ?_⟩
    obtain ⟨next, result⟩ := added
    cases result with
    | none =>
      -- A full table reports it and is left as it was.
      rcases Add_cases valid obj with ⟨_, full⟩ | ⟨_, _, _, _, filled⟩ | ⟨_, _, appended⟩
      · rw [full] at adds; cases adds; exact .add_full
      · rw [filled] at adds; cases adds
      · rw [appended] at adds; cases adds
    | some iref =>
      obtain ⟨fresh, stored⟩ := Add_live valid adds
      rw [stored]
      exact .add_fresh fresh
  | Remove iref =>
    obtain ⟨found, removed⟩ := Remove_live valid iref
    refine ⟨_, _, rfl, Remove_valid valid iref, ?_⟩
    rw [found, removed]
    exact .remove
  | SweepJniWeakGlobals IsMarked cleared =>
    refine ⟨_, _, rfl, SweepJniWeakGlobals_valid valid IsMarked cleared, ?_⟩
    rw [SweepJniWeakGlobals_live]
    exact .sweep

/-- Every run of a valid table goes through, keeps it valid after each
operation, and moves `live` as a map from handles moves. -/
theorem run_refines : ∀ (operations : List (Operation Obj)) {irt : IndirectReferenceTable Obj},
    irt.Valid → ∃ final outcomes, irt.run operations = some (final, outcomes) ∧ final.Valid ∧
      HandleRun irt.live operations outcomes final.live
  | [], irt, valid => ⟨irt, [], rfl, valid, .nil⟩
  | operation :: rest, irt, valid => by
    obtain ⟨next, outcome, stepped, nextValid, handleStep⟩ := step_refines valid operation
    obtain ⟨final, outcomes, ran, finalValid, handleRun⟩ := run_refines rest nextValid
    refine ⟨final, outcome :: outcomes, ?_, finalValid, .cons handleStep handleRun⟩
    simp [IndirectReferenceTable.run, stepped, ran]

/-- A run that goes through: its first operation, then the rest. -/
theorem run_cons_eq_some {operation : Operation Obj} {rest : List (Operation Obj)}
    {final : IndirectReferenceTable Obj} {outcomes : List Outcome}
    (ran : irt.run (operation :: rest) = some (final, outcomes)) :
    ∃ next outcome laterOutcomes, irt.step operation = some (next, outcome) ∧
      next.run rest = some (final, laterOutcomes) ∧ outcomes = outcome :: laterOutcomes := by
  simp only [IndirectReferenceTable.run, Option.bind_eq_bind, Option.bind_eq_some_iff] at ran
  obtain ⟨⟨next, outcome⟩, stepped, ⟨final', laterOutcomes⟩, ranRest, same⟩ := ran
  simp only [Option.pure_def, Option.some.injEq, Prod.mk.injEq] at same
  obtain ⟨rfl, rfl⟩ := same
  exact ⟨next, outcome, laterOutcomes, stepped, ranRest, rfl⟩

theorem step_valid (valid : irt.Valid) {operation : Operation Obj}
    {next : IndirectReferenceTable Obj} {outcome : Outcome}
    (stepped : irt.step operation = some (next, outcome)) : next.Valid := by
  obtain ⟨next', outcome', stepped', nextValid, _⟩ := step_refines valid operation
  rw [stepped] at stepped'
  cases stepped'
  exact nextValid

/-! The collapse loop of `Remove` leaves the top just above the highest
entry in use: with `top_in_use`, that every entry from the top on is null. -/

/-- Every entry at or above the top is null. -/
def IndirectReferenceTable.NullAbove (irt : IndirectReferenceTable Obj) : Prop :=
  ∀ i, irt.top_index_ ≤ i → (irt.entry i).reference_.isNone

theorem nullAbove_empty (kind : IndirectRefKind) (max_entries : Nat) :
    (IndirectReferenceTable.empty kind max_entries : IndirectReferenceTable Obj).NullAbove := by
  intro i _
  simp only [IndirectReferenceTable.empty, entry, List.getD_eq_getElem?_getD,
    List.getElem?_replicate]
  split <;> rfl

theorem nullAbove_step (valid : irt.Valid) (above : irt.NullAbove) {operation : Operation Obj}
    {next : IndirectReferenceTable Obj} {outcome : Outcome}
    (stepped : irt.step operation = some (next, outcome)) : next.NullAbove := by
  cases operation with
  | Add obj =>
    simp only [IndirectReferenceTable.step] at stepped
    rcases Add_cases valid obj with ⟨_, full⟩ | ⟨index, below, _, _, filled⟩ |
        ⟨room, _, appended⟩
    · rw [full] at stepped
      cases stepped
      exact above
    · -- The hole filled lies below the top, which stays where it was.
      rw [filled] at stepped
      cases stepped
      intro i atLeast
      rw [top_index_stored] at atLeast
      rw [entry_stored (Nat.lt_of_lt_of_le below valid.top_le), if_neg (by omega)]
      exact above i atLeast
    · -- The entry appended is the old top, now below the new one.
      rw [appended] at stepped
      cases stepped
      intro i atLeast
      rw [top_index_stored] at atLeast
      rw [entry_stored room, if_neg (by omega)]
      exact above i (by omega)
  | Remove iref =>
    simp only [IndirectReferenceTable.step, Option.some.injEq, Prod.mk.injEq] at stepped
    obtain ⟨rfl, -⟩ := stepped
    rcases Remove_cases valid iref with ⟨unchanged, _⟩ | ⟨_, _, _, cleared, _, passed, _⟩
    · rw [unchanged]
      exact above
    · intro i atLeast
      rw [entry, cleared]
      by_cases under : i < irt.top_index_
      · -- Between the new top and the old one the loop passed only holes.
        exact passed i atLeast under
      · rw [reference_clear]
        split
        · rfl
        · exact above i (Nat.le_of_not_lt under)
  | SweepJniWeakGlobals IsMarked cleared =>
    simp only [IndirectReferenceTable.step, Option.some.injEq, Prod.mk.injEq] at stepped
    obtain ⟨rfl, -⟩ := stepped
    intro i atLeast
    rw [top_index_SweepJniWeakGlobals] at atLeast
    rw [entry_SweepJniWeakGlobals, if_neg (Nat.not_lt_of_le atLeast)]
    exact above i atLeast

theorem nullAbove_run (operations : List (Operation Obj)) {irt final : IndirectReferenceTable Obj}
    {outcomes : List Outcome} (valid : irt.Valid) (above : irt.NullAbove)
    (ran : irt.run operations = some (final, outcomes)) : final.NullAbove := by
  induction operations generalizing irt outcomes with
  | nil =>
    simp only [IndirectReferenceTable.run, Option.some.injEq, Prod.mk.injEq] at ran
    obtain ⟨rfl, -⟩ := ran
    exact above
  | cons operation rest inductionHypothesis =>
    obtain ⟨next, outcome, laterOutcomes, stepped, ranRest, -⟩ := run_cons_eq_some ran
    exact inductionHypothesis (step_valid valid stepped) (nullAbove_step valid above stepped)
      ranRest

/-- How many times an operation's outcome filled the entry at `index`: once
for an `Add` that returned a reference to it. -/
def Outcome.fills (index : Nat) : Outcome → Nat
  | .added (some iref) => if ExtractIndex iref = index then 1 else 0
  | _ => 0

/-- One operation keeps the kind and advances the serial of each entry by
the number of times it filled it. -/
theorem serial_step (valid : irt.Valid) {operation : Operation Obj}
    {next : IndirectReferenceTable Obj} {outcome : Outcome}
    (stepped : irt.step operation = some (next, outcome)) :
    next.kind_ = irt.kind_ ∧ ∀ index,
      (next.entry index).serial_ = ((irt.entry index).serial_ + outcome.fills index) % kIRTMaxSerial := by
  have unchanged : ∀ index,
      (irt.entry index).serial_ = ((irt.entry index).serial_ + 0) % kIRTMaxSerial :=
    fun index => (Nat.mod_eq_of_lt (valid.serials index)).symm
  cases operation with
  | Add obj =>
    simp only [IndirectReferenceTable.step] at stepped
    rcases Add_cases valid obj with ⟨_, full⟩ | ⟨index, below, _, _, filled⟩ |
        ⟨room, _, appended⟩
    · rw [full] at stepped
      cases stepped
      exact ⟨rfl, unchanged⟩
    · rw [filled] at stepped
      cases stepped
      have inside := Nat.lt_of_lt_of_le below valid.top_le
      refine ⟨rfl, fun i => ?_⟩
      rw [serial_stored valid inside, Outcome.fills, ExtractIndex_stored valid inside]
    · rw [appended] at stepped
      cases stepped
      refine ⟨rfl, fun i => ?_⟩
      rw [serial_stored valid room, Outcome.fills, ExtractIndex_stored valid room]
  | Remove iref =>
    simp only [IndirectReferenceTable.step, Option.some.injEq, Prod.mk.injEq] at stepped
    obtain ⟨removed, found⟩ := stepped
    subst removed found
    exact ⟨(serial_Remove valid iref).1,
      fun index => ((serial_Remove valid iref).2 index).trans (unchanged index)⟩
  | SweepJniWeakGlobals IsMarked cleared =>
    simp only [IndirectReferenceTable.step, Option.some.injEq, Prod.mk.injEq] at stepped
    obtain ⟨swept, done⟩ := stepped
    subst swept done
    exact ⟨rfl, fun index => (serial_SweepJniWeakGlobals IsMarked cleared index).trans
      (unchanged index)⟩

/-- A run keeps the kind and advances the serial of each entry by the number
of times the run filled it, modulo `kIRTMaxSerial`. -/
theorem serial_run (operations : List (Operation Obj)) {irt final : IndirectReferenceTable Obj}
    {outcomes : List Outcome} (valid : irt.Valid)
    (ran : irt.run operations = some (final, outcomes)) :
    final.kind_ = irt.kind_ ∧ ∀ index, (final.entry index).serial_ =
      ((irt.entry index).serial_ + (outcomes.map (Outcome.fills index)).sum) % kIRTMaxSerial := by
  induction operations generalizing irt outcomes with
  | nil =>
    simp only [IndirectReferenceTable.run, Option.some.injEq, Prod.mk.injEq] at ran
    obtain ⟨rfl, rfl⟩ := ran
    exact ⟨rfl, fun index => by
      rw [List.map_nil, List.sum_nil, Nat.add_zero, Nat.mod_eq_of_lt (valid.serials index)]⟩
  | cons operation rest inductionHypothesis =>
    obtain ⟨next, outcome, laterOutcomes, stepped, ranRest, rfl⟩ := run_cons_eq_some ran
    obtain ⟨stepKind, stepSerial⟩ := serial_step valid stepped
    obtain ⟨restKind, restSerial⟩ := inductionHypothesis (step_valid valid stepped) ranRest
    refine ⟨restKind.trans stepKind, fun index => ?_⟩
    rw [restSerial, stepSerial, List.map_cons, List.sum_cons, Nat.mod_add_mod, Nat.add_assoc]

/-- A reference the table made for an entry is live after a run exactly
when the entry is in use below the top and the run filled it a multiple of
`kIRTMaxSerial` times: a reuse is detected unless the serial has wrapped
back to where it was. -/
theorem live_ToIndirectRef_run (valid : irt.Valid) {operations : List (Operation Obj)}
    {final : IndirectReferenceTable Obj} {outcomes : List Outcome}
    (ran : irt.run operations = some (final, outcomes)) {index : Nat} (fits : index < 2 ^ 32) :
    (final.live (irt.ToIndirectRef index)).isSome ↔
      index < final.top_index_ ∧ (final.entry index).reference_.isSome ∧
        (outcomes.map (Outcome.fills index)).sum % kIRTMaxSerial = 0 := by
  obtain ⟨sameKind, serial⟩ := serial_run operations valid ran
  have seven : kIRTMaxSerial = 7 := rfl
  have below := valid.serials index
  have wrapped : ((irt.entry index).serial_ + (outcomes.map (Outcome.fills index)).sum) %
      kIRTMaxSerial < 8 := Nat.lt_trans (Nat.mod_lt _ (by decide)) (by decide)
  -- The serial is back where it was exactly after a multiple of `kIRTMaxSerial` fills.
  have sameRef : final.ToIndirectRef index = irt.ToIndirectRef index ↔
      (outcomes.map (Outcome.fills index)).sum % kIRTMaxSerial = 0 := by
    rw [ToIndirectRef, ToIndirectRef, sameKind, serial index]
    constructor
    · intro same
      have serials := congrArg DecodeSerial same
      rw [DecodeSerial_EncodeIndirectRef _ _ wrapped,
        DecodeSerial_EncodeIndirectRef _ _ (valid.serial_lt_eight index)] at serials
      rw [seven] at serials below ⊢
      omega
    · intro multiple
      rw [seven] at multiple below ⊢
      rw [show ((irt.entry index).serial_ + (outcomes.map (Outcome.fills index)).sum) % 7 =
        (irt.entry index).serial_ by omega]
  have decoded : ExtractIndex (irt.ToIndirectRef index) = index :=
    DecodeIndex_EncodeIndirectRef irt.kind_ fits (valid.serial_lt_eight index)
  rw [live, decoded, ← sameRef]
  split
  · next isLive => simp [isLive]
  · next notLive =>
    simp only [Option.isSome_none, Bool.false_eq_true, false_iff]
    exact fun ⟨inside, _, same⟩ => notLive ⟨inside, same⟩

theorem live_empty (kind : IndirectRefKind) (max_entries : Nat) :
    (IndirectReferenceTable.empty kind max_entries : IndirectReferenceTable Obj).live =
      fun _ => none := by
  funext iref
  exact live_eq_none_of_le (Nat.zero_le _)

/-- From a fresh table, every run of operations goes through, and after it
the hole count is exact, the top entry is in use and every entry from the top
on is null; the live references are those a handle map would hold after the
same run, with distinct indices below the top, and they are what `Get`,
`VisitRoots` and `NEntriesForGlobal` read; and across any further run, the
reference the table made for an entry stays live exactly while the entry is
in use and was filled a multiple of `kIRTMaxSerial` times. -/
theorem run_holes_exact_and_stale_detected (kind : IndirectRefKind) {max_entries : Nat}
    (fits : max_entries ≤ 2 ^ 32) (operations later : List (Operation Obj)) :
    ∃ irt outcomes final laterOutcomes,
      (IndirectReferenceTable.empty kind max_entries).run operations = some (irt, outcomes) ∧
      irt.run later = some (final, laterOutcomes) ∧
      irt.Valid ∧ irt.NullAbove ∧
      HandleRun (fun _ => none) operations outcomes irt.live ∧
      (irt.liveRefs.map ExtractIndex).Nodup ∧
      (∀ iref, iref ∈ irt.liveRefs ↔ (irt.live iref).isSome) ∧
      (∀ iref obj, irt.live iref = some obj →
        ExtractIndex iref < irt.top_index_ ∧ irt.Get iref = some obj) ∧
      irt.VisitRoots = irt.liveRefs.filterMap irt.live ∧
      irt.NEntriesForGlobal = irt.liveRefs.length ∧
      ∀ index < irt.max_entries_, ((final.live (irt.ToIndirectRef index)).isSome ↔
        index < final.top_index_ ∧ (final.entry index).reference_.isSome ∧
          (laterOutcomes.map (Outcome.fills index)).sum % kIRTMaxSerial = 0) := by
  have freshValid : (IndirectReferenceTable.empty kind max_entries : IndirectReferenceTable Obj).Valid :=
    empty_valid kind fits
  obtain ⟨irt, outcomes, ran, valid, handleRun⟩ := run_refines operations freshValid
  obtain ⟨final, laterOutcomes, ranLater, -, -⟩ := run_refines later valid
  refine ⟨irt, outcomes, final, laterOutcomes, ran, ranLater, valid,
    nullAbove_run operations freshValid (nullAbove_empty kind max_entries) ran, ?_,
    nodup_ExtractIndex_liveRefs valid, fun iref => mem_liveRefs valid,
    fun iref obj isLive => ⟨(live_eq_some_iff.mp isLive).1, Get_of_live isLive⟩,
    VisitRoots_eq valid, NEntriesForGlobal_eq valid, fun index inside =>
      live_ToIndirectRef_run valid ranLater (Nat.lt_of_lt_of_le inside valid.fits)⟩
  rw [← live_empty kind max_entries]
  exact handleRun

/-- Two adds and a remove of the first reference, then one more add. -/
theorem run_holes_exact_and_stale_detected_small :
    (4 : Nat) ≤ 2 ^ 32 ∧ ∃ irt outcomes final laterOutcomes,
      (IndirectReferenceTable.empty .kGlobal 4).run
          [.Add 5, .Add 6, .Remove (EncodeIndirectRef .kGlobal 0 1)] = some (irt, outcomes) ∧
      irt.run [.Add (7 : Nat)] = some (final, laterOutcomes) ∧
      irt.Valid ∧ irt.NullAbove ∧
      HandleRun (fun _ => none) [.Add 5, .Add 6, .Remove (EncodeIndirectRef .kGlobal 0 1)]
        outcomes irt.live ∧
      (irt.liveRefs.map ExtractIndex).Nodup ∧
      (∀ iref, iref ∈ irt.liveRefs ↔ (irt.live iref).isSome) ∧
      (∀ iref obj, irt.live iref = some obj →
        ExtractIndex iref < irt.top_index_ ∧ irt.Get iref = some obj) ∧
      irt.VisitRoots = irt.liveRefs.filterMap irt.live ∧
      irt.NEntriesForGlobal = irt.liveRefs.length ∧
      ∀ index < irt.max_entries_, ((final.live (irt.ToIndirectRef index)).isSome ↔
        index < final.top_index_ ∧ (final.entry index).reference_.isSome ∧
          (laterOutcomes.map (Outcome.fills index)).sum % kIRTMaxSerial = 0) :=
  ⟨by decide, run_holes_exact_and_stale_detected .kGlobal (by decide) _ _⟩

end Runs

end ArtRuntime.Jni
