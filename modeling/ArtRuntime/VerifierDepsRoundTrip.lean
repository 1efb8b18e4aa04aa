import ArtRuntime.VerifierDeps

namespace ArtRuntime.Verifier

open ArtRuntime.Bits

/-!
# What `VerifierDeps::Encode` writes, read back

The encoder reserves each offset table first and fills it in while it
appends what the offsets point to.  The layout functions below say what ends
up in the buffer: the words each table holds and the bytes after it, as
functions of where the table starts.  The decoders are then run against that
layout.  `ParseStoredData` reads back every dex file's dependencies from a
four-byte aligned address; `ParseVerifiedClasses`, which decodes into a
`DexFileDeps` whose `assignable_types_` is empty, subscripts that vector at
the first verified class it meets.
-/

section Lists

variable {α : Type}

/-- A vector filled up to `k`, with the placeholder `x` from `k` on, is
filled up to `k + 1` when its element `k` is the placeholder. -/
theorem take_append_replicate_succ {l : List α} {k m : Nat} {x : α} (inside : k < l.length)
    (same : l[k] = x) :
    l.take k ++ List.replicate (m + 1) x = l.take (k + 1) ++ List.replicate m x := by
  rw [List.take_add_one, List.getElem?_eq_getElem inside, same, List.replicate_succ]
  simp

/-- Filling in element `k` of a vector filled up to `k`. -/
theorem set_take_append_replicate {l : List α} {k m : Nat} {x y : α} (inside : k < l.length)
    (same : l[k] = y) :
    (l.take k ++ List.replicate (m + 1) x).set k y = l.take (k + 1) ++ List.replicate m x := by
  subst same
  have prefixLength : (l.take k).length = k := List.length_take_of_le (Nat.le_of_lt inside)
  rw [List.set_append_right _ _ (by omega), prefixLength, Nat.sub_self, List.replicate_succ,
    List.set_cons_zero, List.take_add_one, List.getElem?_eq_getElem inside]
  simp only [Option.toList_some, List.append_assoc, List.singleton_append]

end Lists

/-! ## The layout `Encode` writes -/

/-- The bytes `EncodeTuple` appends for a tuple. -/
def tupleBytes (t : TypeAssignability) : List UInt8 :=
  encodeNat (ofLex t).1.val ++ encodeNat (ofLex t).2.val

/-! The order of a `std::set<TypeAssignability>` is the lexicographic order
of `std::tuple`; its laws are named here so that the sort below refers to
them rather than carrying proofs of its own. -/

theorem isTrans_le : IsTrans TypeAssignability (· ≤ ·) := inferInstance

theorem antisymm_le : Std.Antisymm fun a b : TypeAssignability => a ≤ b := inferInstance

theorem total_le : Std.Total fun a b : TypeAssignability => a ≤ b := inferInstance

/-- The tuples of a set, in its order. -/
def setBytes (set : Finset TypeAssignability) : List UInt8 :=
  (@Finset.sort _ set (· ≤ ·) _ isTrans_le antisymm_le total_le).flatMap tupleBytes

/-- The tuples `EncodeSetVector` writes for class `class_def_index`: none
for a class that did not verify. -/
def classBytes (verified_classes : List Bool) (class_def_index : Nat)
    (set : Finset TypeAssignability) : List UInt8 :=
  if verified_classes.getD class_def_index false then setBytes set else []

/-- The tuples of the classes from `class_def_index` on. -/
def setData (verified_classes : List Bool) :
    (class_def_index : Nat) → List (Finset TypeAssignability) → List UInt8
  | _, [] => []
  | class_def_index, set :: vector =>
      classBytes verified_classes class_def_index set ++
        setData verified_classes (class_def_index + 1) vector

/-- The offsets `EncodeSetVector` stores for the classes from
`class_def_index` on, whose tuples start at `position`, and the end offset. -/
def setOffsets (verified_classes : List Bool) :
    (class_def_index position : Nat) → List (Finset TypeAssignability) → List Nat
  | _, position, [] => [position]
  | class_def_index, position, set :: vector =>
      (if verified_classes.getD class_def_index false then position else kNotVerifiedMarker) ::
        setOffsets verified_classes (class_def_index + 1)
          (position + (classBytes verified_classes class_def_index set).length) vector

/-- What `EncodeSetVector` appends to a buffer of `position` bytes. -/
def setVectorBytes (position : Nat) (vector : List (Finset TypeAssignability))
    (verified_classes : List Bool) : List UInt8 :=
  (setOffsets verified_classes 0 (position + 4 * (vector.length + 1)) vector).flatMap
      word32Bytes ++
    setData verified_classes 0 vector

/-- Where the tuples of class `class_def_index` start, for a set vector at
`position`. -/
def tuplesStart (position : Nat) (vector : List (Finset TypeAssignability))
    (verified_classes : List Bool) (class_def_index : Nat) : Nat :=
  position + 4 * (vector.length + 1) +
    (setData verified_classes 0 (vector.take class_def_index)).length

/-- The string data: each string followed by the NUL of `c_str()`. -/
def stringData (strings : List (List UInt8)) : List UInt8 :=
  strings.flatMap fun str => str ++ [0]

/-- The offsets `EncodeStringVector` stores for strings that start at
`position`. -/
def stringOffsets : (position : Nat) → List (List UInt8) → List Nat
  | _, [] => []
  | position, str :: strings => position :: stringOffsets (position + str.length + 1) strings

/-- What `EncodeStringVector` appends to a buffer of `position` bytes. -/
def stringVectorBytes (position : Nat) (strings : List (List UInt8)) : List UInt8 :=
  (strings.length :: stringOffsets (position + 4 * (strings.length + 1)) strings).flatMap
      word32Bytes ++
    stringData strings

/-- Where string `string_index` starts, for a string vector at `position`. -/
def stringStart (position : Nat) (strings : List (List UInt8)) (string_index : Nat) : Nat :=
  position + 4 * (strings.length + 1) + (stringData (strings.take string_index)).length

/-- The zeros that align a buffer of `size` bytes to four. -/
def padding (size : Nat) : List UInt8 :=
  List.replicate (Base.RoundUp size 4 - size) 0

/-- What `Encode` appends for one dex file to a buffer of `size` bytes. -/
def dexFileBytes (size : Nat) (deps : DexFileDeps) : List UInt8 :=
  let sets := setVectorBytes (Base.RoundUp size 4) deps.assignable_types deps.verified_classes
  let setsEnd := Base.RoundUp size 4 + sets.length
  padding size ++ sets ++ padding setsEnd ++ stringVectorBytes (Base.RoundUp setsEnd 4) deps.strings

/-- The offsets `Encode` stores for dex files whose data starts after `size`
bytes. -/
def dexOffsets : (size : Nat) → List DexFileDeps → List Nat
  | _, [] => []
  | size, deps :: dex_deps =>
      Base.RoundUp size 4 :: dexOffsets (size + (dexFileBytes size deps).length) dex_deps

/-- What `Encode` appends for the dex files after `size` bytes. -/
def dexData : (size : Nat) → List DexFileDeps → List UInt8
  | _, [] => []
  | size, deps :: dex_deps =>
      dexFileBytes size deps ++ dexData (size + (dexFileBytes size deps).length) dex_deps

/-! ## The encoder writes the layout -/

theorem EncodeTuple_eq (out : List UInt8) (t : TypeAssignability) :
    EncodeTuple out t = out ++ tupleBytes t := by
  have narrow : ∀ index : StringIndex, (BitVec.ofNat 64 index.val).toNat = index.val := by
    intro index
    have below := index.isLt
    rw [BitVec.toNat_ofNat]
    omega
  -- `EncodeUnsignedLeb128ToVector` appends what `EncodeUnsignedLeb128` writes.
  show out ++ Base.EncodeUnsignedLeb128 _ ++ Base.EncodeUnsignedLeb128 _ = _
  rw [Base.EncodeUnsignedLeb128_eq, Base.EncodeUnsignedLeb128_eq, narrow, narrow, tupleBytes,
    List.append_assoc]

theorem foldl_EncodeTuple (tuples : List TypeAssignability) :
    ∀ out, tuples.foldl EncodeTuple out = out ++ tuples.flatMap tupleBytes := by
  induction tuples with
  | nil => simp
  | cons t tuples inductionHypothesis =>
    intro out
    rw [List.foldl_cons, inductionHypothesis, EncodeTuple_eq, List.flatMap_cons, List.append_assoc]

/-- Storing word `written.length` of a table whose first words are written
fills the four reserved bytes after them. -/
theorem SetUint32InUint8Array_append (front : List UInt8) (written : List Nat)
    (reserved back : List UInt8) (value : Nat) (four : reserved.length = 4) :
    SetUint32InUint8Array (front ++ written.flatMap word32Bytes ++ reserved ++ back)
        front.length written.length value =
      front ++ (written ++ [value]).flatMap word32Bytes ++ back := by
  have position :
      front.length + 4 * written.length = (front ++ written.flatMap word32Bytes).length := by
    simp only [List.length_append, length_flatMap_word32Bytes]
  rw [SetUint32InUint8Array, position, overwrite_append _ _ _ _ (by simp [four])]
  simp

/-- The loop of `EncodeSetVector`, from a buffer of `position` bytes whose
table has its first words written and the rest reserved, fills the table in
and appends the tuples. -/
theorem EncodeSetVectorLoop_eq (verified_classes : List Bool) (front : List UInt8) :
    ∀ (vector : List (Finset TypeAssignability)) (written : List Nat) (data : List UInt8)
      (position : Nat),
      (front ++ written.flatMap word32Bytes ++ List.replicate ((vector.length + 1) * 4) 0 ++
          data).length = position →
      EncodeSetVectorLoop front.length verified_classes written.length vector
          (front ++ written.flatMap word32Bytes ++ List.replicate ((vector.length + 1) * 4) 0 ++
            data) =
        front ++ (written ++ setOffsets verified_classes written.length position vector).flatMap
            word32Bytes ++
          data ++ setData verified_classes written.length vector := by
  intro vector
  induction vector with
  | nil =>
    intro written data position atEnd
    rw [EncodeSetVectorLoop, atEnd, SetUint32InUint8Array_append _ _ _ _ _ (by simp)]
    simp only [setOffsets, setData, List.append_nil]
  | cons set vector inductionHypothesis =>
    intro written data position atEnd
    -- Storing this class's word leaves the reserved words of the classes after it.
    have stored : ∀ value, SetUint32InUint8Array
        (front ++ written.flatMap word32Bytes ++ List.replicate ((vector.length + 1 + 1) * 4) 0 ++
          data) front.length written.length value =
        front ++ (written ++ [value]).flatMap word32Bytes ++
          List.replicate ((vector.length + 1) * 4) 0 ++ data := by
      intro value
      have reserve : List.replicate ((vector.length + 1 + 1) * 4) (0 : UInt8) =
          List.replicate 4 0 ++ List.replicate ((vector.length + 1) * 4) 0 := by
        rw [← List.replicate_add]
        congr 1
        omega
      rw [reserve]
      simpa using SetUint32InUint8Array_append front written (List.replicate 4 0)
        (List.replicate ((vector.length + 1) * 4) 0 ++ data) value (by simp)
    simp only [List.length_cons] at atEnd
    rw [EncodeSetVectorLoop, List.length_cons, atEnd]
    by_cases verifiedHere : verified_classes.getD written.length false = true
    · -- A verified class: its offset, then its tuples.
      have next := inductionHypothesis (written ++ [position]) (data ++ setBytes set)
        (position + (setBytes set).length) (by simp at atEnd ⊢; omega)
      rw [List.length_append, List.length_singleton] at next
      rw [if_pos verifiedHere]
      dsimp only
      rw [stored, foldl_EncodeTuple, List.append_assoc _ data, ← setBytes, next]
      simp only [setOffsets, setData, classBytes, verifiedHere, if_true]
      simp
    · -- A class that did not verify: the marker, and no tuples.
      have next := inductionHypothesis (written ++ [kNotVerifiedMarker]) data position
        (by simp at atEnd ⊢; omega)
      rw [List.length_append, List.length_singleton] at next
      rw [if_neg verifiedHere, stored, next]
      simp only [setOffsets, setData, classBytes, verifiedHere, Bool.false_eq_true, if_false]
      simp

theorem EncodeSetVector_eq (out : List UInt8) (vector : List (Finset TypeAssignability))
    (verified_classes : List Bool) (small : out.length < 2 ^ 32) :
    EncodeSetVector out vector verified_classes =
      out ++ setVectorBytes out.length vector verified_classes := by
  have loop := EncodeSetVectorLoop_eq verified_classes out vector [] []
    (out.length + 4 * (vector.length + 1)) (by simp; omega)
  simp only [List.length_nil, List.flatMap_nil, List.append_nil, List.nil_append] at loop
  rw [EncodeSetVector, Nat.mod_eq_of_lt small]
  rw [loop, setVectorBytes, List.append_assoc]

/-- The loop of `EncodeStringVector`, from a buffer of `position` bytes whose
table has its first words written and the rest reserved, fills the table in
and appends the strings. -/
theorem EncodeStringVectorLoop_eq (front : List UInt8) :
    ∀ (strings : List (List UInt8)) (written : List Nat) (data : List UInt8) (position : Nat),
      (front ++ written.flatMap word32Bytes ++ List.replicate (strings.length * 4) 0 ++
          data).length = position →
      EncodeStringVectorLoop front.length written.length strings
          (front ++ written.flatMap word32Bytes ++ List.replicate (strings.length * 4) 0 ++ data) =
        front ++ (written ++ stringOffsets position strings).flatMap word32Bytes ++ data ++
          stringData strings := by
  intro strings
  induction strings with
  | nil =>
    intro written data position _
    simp [EncodeStringVectorLoop, stringOffsets, stringData]
  | cons str strings inductionHypothesis =>
    intro written data position atEnd
    have reserve : List.replicate ((strings.length + 1) * 4) (0 : UInt8) =
        List.replicate 4 0 ++ List.replicate (strings.length * 4) 0 := by
      rw [← List.replicate_add]
      congr 1
      omega
    have stored : SetUint32InUint8Array
        (front ++ written.flatMap word32Bytes ++ List.replicate ((strings.length + 1) * 4) 0 ++
          data) front.length written.length position =
        front ++ (written ++ [position]).flatMap word32Bytes ++
          List.replicate (strings.length * 4) 0 ++ data := by
      rw [reserve]
      simpa using SetUint32InUint8Array_append front written (List.replicate 4 0)
        (List.replicate (strings.length * 4) 0 ++ data) position (by simp)
    have next := inductionHypothesis (written ++ [position]) (data ++ str ++ [0])
      (position + str.length + 1) (by simp at atEnd ⊢; omega)
    rw [List.length_append, List.length_singleton] at next
    simp only [List.length_cons] at atEnd
    rw [EncodeStringVectorLoop, List.length_cons, atEnd]
    rw [stored, List.append_assoc _ data, List.append_assoc _ (data ++ str), next]
    simp [stringOffsets, stringData]

theorem EncodeStringVector_eq (out : List UInt8) (strings : List (List UInt8))
    (small : out.length < 2 ^ 32) :
    EncodeStringVector out strings = out ++ stringVectorBytes out.length strings := by
  have reserve : List.replicate ((strings.length + 1) * 4) (0 : UInt8) =
      List.replicate 4 0 ++ List.replicate (strings.length * 4) 0 := by
    rw [← List.replicate_add]
    congr 1
    omega
  -- The count goes into word 0.
  have counted : SetUint32InUint8Array (out ++ List.replicate ((strings.length + 1) * 4) 0)
      out.length 0 strings.length =
      out ++ [strings.length].flatMap word32Bytes ++ List.replicate (strings.length * 4) 0 ++ [] := by
    rw [reserve]
    simpa using SetUint32InUint8Array_append out [] (List.replicate 4 0)
      (List.replicate (strings.length * 4) 0) strings.length (by simp)
  have loop := EncodeStringVectorLoop_eq out strings [strings.length] []
    (out.length + 4 * (strings.length + 1)) (by simp; omega)
  rw [EncodeStringVector, Nat.mod_eq_of_lt small]
  rw [counted]
  simp only [List.length_singleton] at loop
  rw [loop, stringVectorBytes]
  simp

theorem AlignBuffer_eq (buffer : List UInt8) : AlignBuffer buffer = buffer ++ padding buffer.length :=
  rfl

theorem le_RoundUp (size : Nat) : size ≤ Base.RoundUp size 4 := by
  unfold Base.RoundUp Base.RoundDown
  omega

theorem length_AlignBuffer (buffer : List UInt8) :
    (AlignBuffer buffer).length = Base.RoundUp buffer.length 4 := by
  have above := le_RoundUp buffer.length
  rw [AlignBuffer_eq, List.length_append, padding, List.length_replicate]
  omega

/-! The encoders only append and overwrite: a buffer never shrinks. -/

theorem length_le_AlignBuffer (buffer : List UInt8) : buffer.length ≤ (AlignBuffer buffer).length := by
  rw [AlignBuffer_eq, List.length_append]
  exact Nat.le_add_right _ _

theorem length_le_EncodeSetVectorLoop (offsets_index : Nat) (verified_classes : List Bool) :
    ∀ (vector : List (Finset TypeAssignability)) (class_def_index : Nat) (out : List UInt8),
      out.length ≤
        (EncodeSetVectorLoop offsets_index verified_classes class_def_index vector out).length := by
  intro vector
  induction vector with
  | nil => intro class_def_index out; exact length_le_overwrite _ _ _
  | cons set vector inductionHypothesis =>
    intro class_def_index out
    rw [EncodeSetVectorLoop]
    refine le_trans ?_ (inductionHypothesis _ _)
    split
    · dsimp only
      rw [foldl_EncodeTuple, List.length_append]
      exact le_trans (length_le_overwrite _ _ _) (Nat.le_add_right _ _)
    · exact length_le_overwrite _ _ _

theorem length_le_EncodeSetVector (out : List UInt8) (vector : List (Finset TypeAssignability))
    (verified_classes : List Bool) :
    out.length ≤ (EncodeSetVector out vector verified_classes).length :=
  le_trans (by simp) (length_le_EncodeSetVectorLoop _ _ _ _ _)

theorem length_le_EncodeStringVectorLoop (offsets_index : Nat) :
    ∀ (strings : List (List UInt8)) (string_index : Nat) (out : List UInt8),
      out.length ≤ (EncodeStringVectorLoop offsets_index string_index strings out).length := by
  intro strings
  induction strings with
  | nil => intro string_index out; exact le_refl _
  | cons str strings inductionHypothesis =>
    intro string_index out
    rw [EncodeStringVectorLoop]
    refine le_trans ?_ (inductionHypothesis _ _)
    have stored := length_le_overwrite out (offsets_index + 4 * string_index)
      (word32Bytes out.length)
    simp only [SetUint32InUint8Array, List.length_append] at stored ⊢
    omega

theorem length_le_EncodeStringVector (out : List UInt8) (strings : List (List UInt8)) :
    out.length ≤ (EncodeStringVector out strings).length :=
  le_trans (le_trans (by simp) (length_le_overwrite _ _ _))
    (length_le_EncodeStringVectorLoop _ _ _ _)

theorem length_le_EncodeLoop :
    ∀ (dex_deps : List DexFileDeps) (dex_file_index : Nat) (buffer : List UInt8),
      buffer.length ≤ (EncodeLoop dex_file_index dex_deps buffer).length := by
  intro dex_deps
  induction dex_deps with
  | nil => intro dex_file_index buffer; exact le_refl _
  | cons deps dex_deps inductionHypothesis =>
    intro dex_file_index buffer
    rw [EncodeLoop]
    refine le_trans ?_ (inductionHypothesis _ _)
    calc buffer.length
        ≤ (AlignBuffer buffer).length := length_le_AlignBuffer _
      _ ≤ (SetUint32InUint8Array (AlignBuffer buffer) 0 dex_file_index
            (AlignBuffer buffer).length).length := length_le_overwrite _ _ _
      _ ≤ _ := length_le_EncodeSetVector _ deps.assignable_types deps.verified_classes
      _ ≤ _ := length_le_AlignBuffer _
      _ ≤ _ := length_le_EncodeStringVector _ deps.strings

/-- The loop of `Encode`, from a buffer of `size` bytes whose table of dex
files has its first words written and the rest reserved, fills the table in
and appends each dex file's data, as long as the buffer it ends with is
addressed by `uint32_t` offsets. -/
theorem EncodeLoop_eq :
    ∀ (dex_deps : List DexFileDeps) (written : List Nat) (body : List UInt8) (size : Nat),
      (written.flatMap word32Bytes ++ List.replicate (4 * dex_deps.length) 0 ++ body).length =
          size →
      (EncodeLoop written.length dex_deps
          (written.flatMap word32Bytes ++ List.replicate (4 * dex_deps.length) 0 ++ body)).length <
        2 ^ 32 →
      EncodeLoop written.length dex_deps
          (written.flatMap word32Bytes ++ List.replicate (4 * dex_deps.length) 0 ++ body) =
        (written ++ dexOffsets size dex_deps).flatMap word32Bytes ++ body ++ dexData size dex_deps := by
  intro dex_deps
  induction dex_deps with
  | nil =>
    intro written body size _ _
    simp [EncodeLoop, dexOffsets, dexData]
  | cons deps dex_deps inductionHypothesis =>
    intro written body size atEnd fits
    have reserve : List.replicate (4 * (dex_deps.length + 1)) (0 : UInt8) =
        List.replicate 4 0 ++ List.replicate (4 * dex_deps.length) 0 := by
      rw [← List.replicate_add]
      congr 1
      omega
    -- Align, then store this dex file's offset in its word of the table.
    have aligned : AlignBuffer (written.flatMap word32Bytes ++
        List.replicate (4 * (deps :: dex_deps).length) 0 ++ body) =
        written.flatMap word32Bytes ++ List.replicate (4 * (deps :: dex_deps).length) 0 ++
          (body ++ padding size) := by
      rw [AlignBuffer_eq, atEnd, List.append_assoc _ body]
    have alignedLength : (written.flatMap word32Bytes ++
        List.replicate (4 * (deps :: dex_deps).length) 0 ++ (body ++ padding size)).length =
        Base.RoundUp size 4 := by
      rw [← aligned, length_AlignBuffer, atEnd]
    have headed : SetUint32InUint8Array (written.flatMap word32Bytes ++
        List.replicate (4 * (deps :: dex_deps).length) 0 ++ (body ++ padding size)) 0
        written.length (Base.RoundUp size 4) =
        (written ++ [Base.RoundUp size 4]).flatMap word32Bytes ++
          List.replicate (4 * dex_deps.length) 0 ++ (body ++ padding size) := by
      rw [List.length_cons, reserve]
      simpa using SetUint32InUint8Array_append [] written (List.replicate 4 0)
        (List.replicate (4 * dex_deps.length) 0 ++ (body ++ padding size)) (Base.RoundUp size 4)
        (by simp)
    have headedLength : ((written ++ [Base.RoundUp size 4]).flatMap word32Bytes ++
        List.replicate (4 * dex_deps.length) 0 ++ (body ++ padding size)).length =
        Base.RoundUp size 4 := by
      rw [← headed, SetUint32InUint8Array, length_overwrite (by simp; omega), alignedLength]
    rw [EncodeLoop, aligned, alignedLength, headed] at fits ⊢
    set headedBuffer := (written ++ [Base.RoundUp size 4]).flatMap word32Bytes ++
      List.replicate (4 * dex_deps.length) 0 ++ (body ++ padding size) with headedBufferEq
    set sets := setVectorBytes (Base.RoundUp size 4) deps.assignable_types deps.verified_classes
      with setsEq
    -- Then the set vector and the strings, each after aligning; every stage
    -- fits in 32 bits since the buffer only grows.
    have stagesFit := lt_of_le_of_lt (length_le_EncodeLoop _ _ _) fits
    have setsFit : headedBuffer.length < 2 ^ 32 :=
      lt_of_le_of_lt (le_trans (length_le_EncodeSetVector _ deps.assignable_types
        deps.verified_classes) (le_trans (length_le_AlignBuffer _)
          (length_le_EncodeStringVector _ deps.strings))) stagesFit
    have setsStored : EncodeSetVector headedBuffer deps.assignable_types deps.verified_classes =
        headedBuffer ++ sets := by
      rw [EncodeSetVector_eq _ _ _ setsFit, headedLength]
    have setsAligned : AlignBuffer (headedBuffer ++ sets) =
        headedBuffer ++ sets ++ padding (Base.RoundUp size 4 + sets.length) := by
      rw [AlignBuffer_eq, List.length_append, headedLength]
    rw [setsStored, setsAligned] at stagesFit fits ⊢
    have stringsFit := lt_of_le_of_lt (length_le_EncodeStringVector _ deps.strings) stagesFit
    have stringsAt : (headedBuffer ++ sets ++ padding (Base.RoundUp size 4 + sets.length)).length =
        Base.RoundUp (Base.RoundUp size 4 + sets.length) 4 := by
      rw [← setsAligned, length_AlignBuffer, List.length_append, headedLength]
    rw [EncodeStringVector_eq _ _ stringsFit, stringsAt] at fits ⊢
    have filed : headedBuffer ++ sets ++ padding (Base.RoundUp size 4 + sets.length) ++
        stringVectorBytes (Base.RoundUp (Base.RoundUp size 4 + sets.length) 4) deps.strings =
        (written ++ [Base.RoundUp size 4]).flatMap word32Bytes ++
          List.replicate (4 * dex_deps.length) 0 ++ (body ++ dexFileBytes size deps) := by
      simp [headedBuffer, sets, dexFileBytes]
    rw [filed] at fits ⊢
    have next := inductionHypothesis (written ++ [Base.RoundUp size 4])
      (body ++ dexFileBytes size deps) (size + (dexFileBytes size deps).length)
      (by simp at atEnd ⊢; omega)
    rw [List.length_append, List.length_singleton] at next
    rw [next fits]
    simp [dexOffsets, dexData]

theorem Encode_eq (dex_deps : List DexFileDeps) (fits : (Encode dex_deps).length < 2 ^ 32) :
    Encode dex_deps =
      (dexOffsets (4 * dex_deps.length) dex_deps).flatMap word32Bytes ++
        dexData (4 * dex_deps.length) dex_deps := by
  have loop := EncodeLoop_eq dex_deps [] [] (4 * dex_deps.length) (by simp)
  simp only [List.flatMap_nil, List.nil_append, List.append_nil, List.length_nil] at loop
  rw [Encode, Nat.mul_comm] at fits ⊢
  exact loop fits

/-! ## Reading stored bytes -/

section Reading

variable {data : StoredData}

theorem loadWord32_stored {front back : List UInt8} {words : List Nat}
    (stored : data.bytes = front ++ words.flatMap word32Bytes ++ back) {j : Nat}
    (inside : j < words.length) :
    data.loadWord32 (data.base + front.length + 4 * j) = .ok (words[j] % 2 ^ 32) := by
  have read : readWord32 data.bytes (front.length + 4 * j) = some (words[j] % 2 ^ 32) := by
    rw [stored, List.append_assoc, readWord32_append_of_le (by omega), Nat.add_sub_cancel_left,
      readWord32_flatMap _ inside]
  unfold StoredData.loadWord32
  rw [if_pos (by omega), show data.base + front.length + 4 * j - data.base = front.length + 4 * j by
    omega, read]

theorem loadByte_stored {front back : List UInt8} {byte : UInt8}
    (stored : data.bytes = front ++ byte :: back) :
    data.loadByte (data.base + front.length) = .ok byte := by
  have inside : data.base ≤ data.base + front.length ∧
      data.base + front.length - data.base < data.bytes.length := by
    rw [stored]
    simp
  unfold StoredData.loadByte
  rw [dif_pos inside]
  simp [stored]

theorem holdsAt_bytesFrom {front bytes back : List UInt8}
    (stored : data.bytes = front ++ bytes ++ back) :
    Base.HoldsAt (data.bytesFrom (data.base + front.length)) 0 bytes := by
  intro i inside
  rw [StoredData.bytesFrom, show data.base + front.length - data.base + (0 + i) = front.length + i by
    omega, stored, List.append_assoc, List.getD_eq_getElem?_getD,
    List.getElem?_append_right (by omega), Nat.add_sub_cancel_left,
    List.getElem?_append_left inside, List.getElem?_eq_getElem inside, Option.getD_some]

theorem slice_stored {front str back : List UInt8} (stored : data.bytes = front ++ str ++ back) :
    data.slice (data.base + front.length) (data.base + front.length + str.length) = str := by
  rw [StoredData.slice, stored, show data.base + front.length - data.base = front.length by omega,
    show data.base + front.length + str.length - (data.base + front.length) = str.length by omega,
    List.append_assoc, List.drop_left, List.take_left]

/-- The checked decoder reads a number of 32 bits written in its shortest
encoding before the end of the data. -/
theorem DecodeUnsignedLeb128Checked_stored {front back : List UInt8} {index : StringIndex}
    (stored : data.bytes = front ++ encodeNat index.val ++ back) :
    Base.DecodeUnsignedLeb128Checked 32 (data.bytesFrom (data.base + front.length))
        (data.limit - (data.base + front.length)) =
      some (BitVec.ofNat 32 index.val, (encodeNat index.val).length) := by
  apply Base.DecodeLeb128Helper_encodeNat (by decide) index.isLt (holdsAt_bytesFrom stored)
  intro e isEnd
  rw [← Option.some.inj isEnd, StoredData.limit, stored]
  simp
  omega

theorem DecodeTuple_stored {front back : List UInt8} {t : TypeAssignability}
    (stored : data.bytes = front ++ tupleBytes t ++ back) :
    DecodeTuple data (data.base + front.length) data.limit =
      some (t, data.base + front.length + (tupleBytes t).length) := by
  have destination := DecodeUnsignedLeb128Checked_stored
    (show data.bytes = front ++ encodeNat (ofLex t).1.val ++ (encodeNat (ofLex t).2.val ++ back) by
      rw [stored, tupleBytes]; simp)
  have source := DecodeUnsignedLeb128Checked_stored
    (show data.bytes = front ++ encodeNat (ofLex t).1.val ++ encodeNat (ofLex t).2.val ++ back by
      rw [stored, tupleBytes]; simp)
  rw [List.length_append, ← Nat.add_assoc] at source
  rw [DecodeTuple, destination]
  dsimp only
  rw [source]
  simp [tupleBytes, Nat.add_assoc]

theorem length_tupleBytes_pos (t : TypeAssignability) : 0 < (tupleBytes t).length := by
  have nonempty := (isEncoding_encodeNat (ofLex t).1.val).ne_nil
  rw [tupleBytes, List.length_append]
  have := List.length_pos_iff.mpr nonempty
  omega

/-- The loop over the tuples of one class reads every tuple written between
its cursor and the end of its set. -/
theorem DecodeSetLoop_stored (kFillSet : Bool) :
    ∀ (tuples : List TypeAssignability) (front back : List UInt8)
      (set : Finset TypeAssignability),
      data.bytes = front ++ tuples.flatMap tupleBytes ++ back →
      DecodeSetLoop kFillSet data data.limit
          (data.base + front.length + (tuples.flatMap tupleBytes).length)
          (data.base + front.length) set =
        some (data.base + front.length + (tuples.flatMap tupleBytes).length,
          if kFillSet then set ∪ tuples.toFinset else set) := by
  intro tuples
  induction tuples with
  | nil =>
    intro front back set _
    rw [DecodeSetLoop]
    simp
  | cons t tuples inductionHypothesis =>
    intro front back set stored
    have decoded := DecodeTuple_stored
      (show data.bytes = front ++ tupleBytes t ++ (tuples.flatMap tupleBytes ++ back) by
        rw [stored]; simp)
    have next := inductionHypothesis (front ++ tupleBytes t) back
      (if kFillSet then insert t set else set) (by rw [stored]; simp)
    have advances := length_tupleBytes_pos t
    rw [List.length_append, ← Nat.add_assoc] at next
    rw [DecodeSetLoop, if_pos (by simp; omega)]
    split
    · rename_i noTuple
      rw [decoded] at noTuple
      exact absurd noTuple (by simp)
    · rename_i tuple cursor readTuple
      rw [decoded, Option.some.injEq, Prod.mk.injEq] at readTuple
      obtain ⟨rfl, rfl⟩ := readTuple
      rw [List.flatMap_cons, List.length_append, ← Nat.add_assoc, next]
      cases kFillSet <;> simp

/-- `memchr` finds the NUL after a string that holds none. -/
theorem memchrZero_stored :
    ∀ (str front back : List UInt8) (count : Nat),
      data.bytes = front ++ str ++ 0 :: back → 0 ∉ str → str.length < count →
      data.memchrZero (data.base + front.length) count =
        .ok (some (data.base + front.length + str.length)) := by
  intro str
  induction str with
  | nil =>
    intro front back count stored _ room
    cases count with
    | zero => exact absurd room (Nat.lt_irrefl 0)
    | succ count =>
      rw [StoredData.memchrZero, loadByte_stored (by simpa using stored)]
      simp
  | cons byte str inductionHypothesis =>
    intro front back count stored noNul room
    cases count with
    | zero => exact absurd room (Nat.not_lt_zero _)
    | succ count =>
      have notNul : byte ≠ 0 := fun isNul => noNul (by simp [isNul])
      have next := inductionHypothesis (front ++ [byte]) back count (by rw [stored]; simp)
        (fun inStr => noNul (List.mem_cons_of_mem _ inStr)) (by simp at room; omega)
      rw [List.length_append, List.length_singleton, ← Nat.add_assoc] at next
      rw [StoredData.memchrZero, loadByte_stored
        (show data.bytes = front ++ byte :: (str ++ 0 :: back) by rw [stored]; simp)]
      simp only [notNul, if_false]
      rw [next, List.length_cons]
      congr 2
      omega

end Reading

/-! ## The tables of the layout -/

section SetTable

variable (verified_classes : List Bool)

theorem setData_append :
    ∀ (front back : List (Finset TypeAssignability)) (class_def_index : Nat),
      setData verified_classes class_def_index (front ++ back) =
        setData verified_classes class_def_index front ++
          setData verified_classes (class_def_index + front.length) back := by
  intro front
  induction front with
  | nil => intro back class_def_index; simp [setData]
  | cons set front inductionHypothesis =>
    intro back class_def_index
    rw [List.cons_append, setData, setData, inductionHypothesis, List.length_cons,
      List.append_assoc, show class_def_index + 1 + front.length =
        class_def_index + (front.length + 1) by omega]

theorem length_setOffsets :
    ∀ (vector : List (Finset TypeAssignability)) (class_def_index position : Nat),
      (setOffsets verified_classes class_def_index position vector).length = vector.length + 1 := by
  intro vector
  induction vector with
  | nil => intro class_def_index position; rfl
  | cons set vector inductionHypothesis =>
    intro class_def_index position
    rw [setOffsets, List.length_cons, inductionHypothesis, List.length_cons]

/-- Entry `j` of an offset table: the marker for a class that did not verify,
and otherwise where the class's tuples start; the last entry is where they
end. -/
theorem getElem_setOffsets :
    ∀ (vector : List (Finset TypeAssignability)) (class_def_index position j : Nat)
      (inside : j < (setOffsets verified_classes class_def_index position vector).length),
      (setOffsets verified_classes class_def_index position vector)[j] =
        if j < vector.length ∧ verified_classes.getD (class_def_index + j) false = false then
          kNotVerifiedMarker
        else position + (setData verified_classes class_def_index (vector.take j)).length := by
  intro vector
  induction vector with
  | nil =>
    intro class_def_index position j inside
    have first : j = 0 := by simpa [setOffsets] using inside
    subst first
    simp [setOffsets, setData]
  | cons set vector inductionHypothesis =>
    intro class_def_index position j inside
    cases j with
    | zero =>
      cases verifiedHere : verified_classes.getD class_def_index false <;>
        simp only [setOffsets, List.getElem_cons_zero, verifiedHere] <;>
        simp [setData]
    | succ j =>
      simp only [setOffsets, List.getElem_cons_succ]
      rw [inductionHypothesis, show class_def_index + (j + 1) = class_def_index + 1 + j by omega]
      simp [setData, Nat.add_assoc]

theorem length_setVectorBytes (position : Nat) (vector : List (Finset TypeAssignability)) :
    (setVectorBytes position vector verified_classes).length =
      4 * (vector.length + 1) + (setData verified_classes 0 vector).length := by
  simp only [setVectorBytes, List.length_append, length_flatMap_word32Bytes, length_setOffsets]

/-- The tuples of class `k + 1` start after those of class `k`. -/
theorem tuplesStart_succ {position : Nat} {vector : List (Finset TypeAssignability)} {k : Nat}
    (inside : k < vector.length) :
    tuplesStart position vector verified_classes (k + 1) =
      tuplesStart position vector verified_classes k +
        (classBytes verified_classes k vector[k]).length := by
  rw [tuplesStart, tuplesStart, List.take_add_one, List.getElem?_eq_getElem inside,
    Option.toList_some, setData_append, List.length_take_of_le (Nat.le_of_lt inside)]
  simp [setData]
  omega

/-- Classes that did not verify have no tuples: those of the next verified
class start where the last ones ended. -/
theorem tuplesStart_skip {position : Nat} {vector : List (Finset TypeAssignability)}
    {k stop : Nat} (after : k + 1 ≤ stop) (within : stop ≤ vector.length)
    (skipped : ∀ j, k < j → j < stop → verified_classes.getD j false = false) :
    tuplesStart position vector verified_classes stop =
      tuplesStart position vector verified_classes (k + 1) := by
  induction stop, after using Nat.le_induction with
  | base => rfl
  | succ stop atLeast inductionHypothesis =>
    rw [tuplesStart_succ verified_classes (by omega), classBytes,
      skipped stop (by omega) (by omega), inductionHypothesis (by omega)
        (fun j low high => skipped j low (by omega))]
    simp

theorem tuplesStart_le (position : Nat) (vector : List (Finset TypeAssignability)) (k : Nat) :
    tuplesStart position vector verified_classes k ≤
      position + (setVectorBytes position vector verified_classes).length := by
  have split := setData_append verified_classes (vector.take k) (vector.drop k) 0
  rw [List.take_append_drop] at split
  rw [tuplesStart, length_setVectorBytes, split, List.length_append]
  omega

/-- The set vector's tuples around those of class `k`. -/
theorem setData_split {vector : List (Finset TypeAssignability)} {k : Nat}
    (inside : k < vector.length) :
    setData verified_classes 0 vector =
      setData verified_classes 0 (vector.take k) ++ classBytes verified_classes k vector[k] ++
        setData verified_classes (k + 1) (vector.drop (k + 1)) := by
  have split := setData_append verified_classes (vector.take k) (vector.drop k) 0
  rw [List.take_append_drop, List.drop_eq_getElem_cons inside,
    List.length_take_of_le (Nat.le_of_lt inside), Nat.zero_add, setData] at split
  rw [split, List.append_assoc]

/-- The first class past `k` that verified, or the end of the classes. -/
theorem exists_nextVerified {n k : Nat} (inside : k < n) :
    ∃ stop, k < stop ∧ stop ≤ n ∧ (stop < n → verified_classes.getD stop false = true) ∧
      ∀ j, k < j → j < stop → verified_classes.getD j false = false := by
  have existsStop : ∃ stop, k < stop ∧
      (stop = n ∨ (stop < n ∧ verified_classes.getD stop false = true)) :=
    ⟨n, inside, Or.inl rfl⟩
  have atMost : Nat.find existsStop ≤ n := Nat.find_min' existsStop ⟨inside, Or.inl rfl⟩
  refine ⟨Nat.find existsStop, (Nat.find_spec existsStop).1, atMost, ?_, ?_⟩
  · intro below
    rcases (Nat.find_spec existsStop).2 with atEnd | ⟨_, isVerified⟩
    · omega
    · exact isVerified
  · intro j after before
    have notStop := Nat.find_min existsStop before
    cases isVerified : verified_classes.getD j false
    · rfl
    · exact absurd ⟨after, Or.inr ⟨by omega, isVerified⟩⟩ notStop

end SetTable

/-! ## Decoding a stored set vector -/

section SetVector

variable {data : StoredData}

/-- The look-ahead stops at the first entry past `i`, from where it starts,
that is not the marker. -/
theorem NextValidOffsetIndex_eq {offsets i stop word : Nat} (after : i < stop)
    (atStop : data.loadWord32 (offsets + 4 * stop) = .ok word) (notMarker : word ≠ kNotVerifiedMarker)
    (skipped : ∀ j, i < j → j < stop →
      data.loadWord32 (offsets + 4 * j) = .ok kNotVerifiedMarker)
    (next_valid_offset_index : Nat) :
    next_valid_offset_index ≤ stop →
      NextValidOffsetIndex data offsets i next_valid_offset_index = .ok stop := by
  fun_induction NextValidOffsetIndex data offsets i next_valid_offset_index with
  | case1 next_valid_offset_index _ inductionHypothesis =>
    intro atMost
    exact inductionHypothesis (by omega)
  | case2 next_valid_offset_index notBefore fault loaded =>
    intro atMost
    -- Every entry up to `stop` loads.
    rcases Nat.lt_or_eq_of_le atMost with before | atEnd
    · rw [skipped _ (by omega) before] at loaded
      cases loaded
    · rw [atEnd, atStop] at loaded
      cases loaded
  | case3 next_valid_offset_index notBefore loaded inductionHypothesis =>
    intro atMost
    have notStop : next_valid_offset_index ≠ stop := by
      rintro rfl
      rw [atStop, Except.ok.injEq] at loaded
      exact notMarker loaded
    exact inductionHypothesis (by omega)
  | case4 next_valid_offset_index notBefore offset loaded isValid =>
    intro atMost
    have notBeforeStop : ¬next_valid_offset_index < stop := by
      intro before
      rw [skipped _ (by omega) before, Except.ok.injEq] at loaded
      exact isValid loaded.symm
    rw [show next_valid_offset_index = stop by omega]

/-- Word `j` of a stored set vector's table, for a table that ends below the
marker. -/
theorem loadWord32_setVector {front back : List UInt8} {vector : List (Finset TypeAssignability)}
    {verified_classes : List Bool}
    (stored : data.bytes = front ++ setVectorBytes front.length vector verified_classes ++ back)
    (fits : front.length + (setVectorBytes front.length vector verified_classes).length <
      kNotVerifiedMarker)
    {j : Nat} (inside : j ≤ vector.length) :
    data.loadWord32 (data.base + front.length + 4 * j) =
      .ok (if j < vector.length ∧ verified_classes.getD j false = false then kNotVerifiedMarker
        else tuplesStart front.length vector verified_classes j) := by
  have table : data.bytes = front ++
      (setOffsets verified_classes 0 (front.length + 4 * (vector.length + 1)) vector).flatMap
        word32Bytes ++ (setData verified_classes 0 vector ++ back) := by
    rw [stored, setVectorBytes]
    simp only [List.append_assoc]
  rw [loadWord32_stored table (by rw [length_setOffsets]; omega),
    getElem_setOffsets verified_classes vector 0 _ j (by rw [length_setOffsets]; omega),
    Nat.zero_add]
  by_cases isMarker : j < vector.length ∧ verified_classes.getD j false = false
  · rw [if_pos isMarker, if_pos isMarker]
    rfl
  · have below := tuplesStart_le verified_classes front.length vector j
    rw [if_neg isMarker, if_neg isMarker, Nat.mod_eq_of_lt (by unfold kNotVerifiedMarker tuplesStart at *; omega)]
    rfl

/-- The look-ahead from a verified class stops at the next verified class,
or at the end offset. -/
theorem NextValidOffsetIndex_setVector {front back : List UInt8}
    {vector : List (Finset TypeAssignability)} {verified_classes : List Bool}
    (stored : data.bytes = front ++ setVectorBytes front.length vector verified_classes ++ back)
    (fits : front.length + (setVectorBytes front.length vector verified_classes).length <
      kNotVerifiedMarker)
    {k stop next_valid_offset_index : Nat} (after : k < stop) (within : stop ≤ vector.length)
    (atStop : stop < vector.length → verified_classes.getD stop false = true)
    (skipped : ∀ j, k < j → j < stop → verified_classes.getD j false = false)
    (atMost : next_valid_offset_index ≤ stop) :
    NextValidOffsetIndex data (data.base + front.length) k next_valid_offset_index = .ok stop := by
  have stopWord := loadWord32_setVector stored fits within
  rw [if_neg (fun isMarker => by rw [atStop isMarker.1] at isMarker; cases isMarker.2)] at stopWord
  apply NextValidOffsetIndex_eq after stopWord ?_ ?_ next_valid_offset_index atMost
  · have below := tuplesStart_le verified_classes front.length vector stop
    omega
  · intro j low high
    rw [loadWord32_setVector stored fits (by omega), if_pos ⟨by omega, skipped j low high⟩]

/-- The tuples of a verified class decode, into an empty set, to the class's
set. -/
theorem DecodeSetLoop_setVector {front back : List UInt8}
    {vector : List (Finset TypeAssignability)} {verified_classes : List Bool}
    (stored : data.bytes = front ++ setVectorBytes front.length vector verified_classes ++ back)
    {k : Nat} (inside : k < vector.length) (isVerified : verified_classes.getD k false = true) :
    DecodeSetLoop true data data.limit
        (data.base + tuplesStart front.length vector verified_classes (k + 1))
        (data.base + tuplesStart front.length vector verified_classes k) ∅ =
      some (data.base + tuplesStart front.length vector verified_classes (k + 1), vector[k]) := by
  set before := front ++ (setOffsets verified_classes 0 (front.length + 4 * (vector.length + 1))
    vector).flatMap word32Bytes ++ setData verified_classes 0 (vector.take k) with beforeEq
  have beforeLength : before.length = tuplesStart front.length vector verified_classes k := by
    simp only [before, tuplesStart, List.length_append, length_flatMap_word32Bytes,
      length_setOffsets]
  have classStored : data.bytes = before ++ vector[k].sort.flatMap tupleBytes ++
      (setData verified_classes (k + 1) (vector.drop (k + 1)) ++ back) := by
    rw [stored, setVectorBytes, setData_split verified_classes inside, classBytes,
      if_pos isVerified, setBytes]
    simp [before]
  have ends : tuplesStart front.length vector verified_classes (k + 1) =
      before.length + (vector[k].sort.flatMap tupleBytes).length := by
    rw [tuplesStart_succ verified_classes inside, classBytes, if_pos isVerified, setBytes,
      beforeLength]
  rw [ends, ← Nat.add_assoc, ← beforeLength, DecodeSetLoop_stored true _ before _ ∅ classStored]
  simp [Finset.sort_toFinset]

/-- The loop of `DecodeSetVector<true>` over a stored set vector, from class
`class_def_index` on, into vectors filled up to that class: every class
gets its set back and its verified bit.  `next_valid_offset_index` is the
look-ahead's position, past the classes it has found unverified. -/
theorem DecodeSetVectorLoop_fill {front back : List UInt8}
    {vector : List (Finset TypeAssignability)} {verified_classes : List Bool}
    (stored : data.bytes = front ++ setVectorBytes front.length vector verified_classes ++ back)
    (fits : front.length + (setVectorBytes front.length vector verified_classes).length <
      kNotVerifiedMarker)
    (sameLength : verified_classes.length = vector.length)
    (unverifiedEmpty : ∀ j (inside : j < vector.length),
      verified_classes.getD j false = false → vector[j] = ∅) :
    ∀ remaining class_def_index next_valid_offset_index,
      class_def_index + remaining = vector.length →
      (class_def_index < vector.length → next_valid_offset_index ≤ vector.length) →
      (∀ j, class_def_index < j → j < next_valid_offset_index →
        verified_classes.getD j false = false) →
      DecodeSetVectorLoop true data data.base data.limit (data.base + front.length) remaining
          class_def_index next_valid_offset_index
          (data.base + tuplesStart front.length vector verified_classes class_def_index)
          (vector.take class_def_index ++ List.replicate remaining ∅)
          (verified_classes.take class_def_index ++ List.replicate remaining false) =
        .ok (some (data.base + tuplesStart front.length vector verified_classes vector.length,
          vector, verified_classes)) := by
  intro remaining
  induction remaining with
  | zero =>
    intro class_def_index next_valid_offset_index counted _ _
    rw [Nat.add_zero] at counted
    subst counted
    rw [DecodeSetVectorLoop, List.take_of_length_le (le_refl _),
      List.take_of_length_le (by omega)]
    simp
  | succ remaining inductionHypothesis =>
    intro k next_valid_offset_index counted bounded skippedBefore
    have inside : k < vector.length := by omega
    have insideVerified : k < verified_classes.length := by omega
    have filledLength : k < (verified_classes.take k ++ List.replicate (remaining + 1) false).length := by
      simp
      omega
    rw [DecodeSetVectorLoop, loadWord32_setVector stored fits (Nat.le_of_lt inside)]
    dsimp only
    rw [if_pos filledLength]
    cases isVerified : verified_classes.getD k false with
    | false =>
      -- The marker: the class keeps its empty set and no tuples are read.
      have cursorSame : tuplesStart front.length vector verified_classes (k + 1) =
          tuplesStart front.length vector verified_classes k := by
        rw [tuplesStart_succ verified_classes inside, classBytes, isVerified]
        rfl
      have bitAt : verified_classes[k] = false := by
        rw [← List.getD_eq_getElem _ false insideVerified, isVerified]
      rw [if_pos (show k < vector.length ∧ false = false from ⟨inside, rfl⟩), if_pos rfl,
        set_take_append_replicate insideVerified bitAt, take_append_replicate_succ inside (unverifiedEmpty k inside isVerified), ← cursorSame]
      exact inductionHypothesis (k + 1) next_valid_offset_index (by omega)
        (fun _ => bounded inside) (fun j low high => skippedBefore j (by omega) high)
    | true =>
      -- A verified class: look ahead to where its tuples end, then read them.
      obtain ⟨stop, after, within, atStop, skipped⟩ :=
        exists_nextVerified verified_classes inside
      have atMost : next_valid_offset_index ≤ stop := by
        by_contra past
        have stopSkipped := skippedBefore stop after (by omega)
        rcases Nat.lt_or_eq_of_le within with before | atEnd
        · rw [atStop before] at stopSkipped
          cases stopSkipped
        · have := bounded inside
          omega
      have offsetBelow : tuplesStart front.length vector verified_classes k ≠ kNotVerifiedMarker := by
        have below := tuplesStart_le verified_classes front.length vector k
        omega
      have bitAt : verified_classes[k] = true := by
        rw [← List.getD_eq_getElem _ false insideVerified, isVerified]
      have vectorLength : k < (vector.take k ++ List.replicate (remaining + 1) ∅).length := by
        simp
        omega
      have placeholder : (vector.take k ++ List.replicate (remaining + 1) ∅)[k] = ∅ := by
        rw [List.getElem_append_right (by simp)]
        simp
      have endsAt : tuplesStart front.length vector verified_classes stop =
          tuplesStart front.length vector verified_classes (k + 1) :=
        tuplesStart_skip verified_classes after within skipped
      rw [if_neg (show ¬(k < vector.length ∧ true = false) from fun isMarker => by
          cases isMarker.2), if_neg offsetBelow, set_take_append_replicate insideVerified bitAt,
        dif_pos vectorLength,
        NextValidOffsetIndex_setVector stored fits after within atStop skipped atMost]
      dsimp only
      rw [loadWord32_setVector stored fits within,
        if_neg (show ¬(stop < vector.length ∧ verified_classes.getD stop false = false) from
          fun isMarker => by rw [atStop isMarker.1] at isMarker; cases isMarker.2)]
      dsimp only
      rw [placeholder, endsAt, DecodeSetLoop_setVector stored inside isVerified]
      dsimp only
      rw [set_take_append_replicate inside rfl]
      exact inductionHypothesis (k + 1) stop (by omega) (fun _ => within)
        (fun j low high => skipped j (by omega) high)

/-- `AlignUp` of a pointer past a four-byte aligned base is the base plus
`RoundUp` of the offset. -/
theorem RoundUp_add_of_aligned {base : Nat} (aligned : base % 4 = 0) (offset : Nat) :
    Base.RoundUp (base + offset) 4 = base + Base.RoundUp offset 4 := by
  unfold Base.RoundUp Base.RoundDown
  omega

/-- `DecodeSetVector<true>` reads a stored set vector back into fresh
vectors, and leaves the cursor aligned after it. -/
theorem DecodeSetVector_stored {front back : List UInt8}
    {vector : List (Finset TypeAssignability)} {verified_classes : List Bool}
    (aligned : data.base % 4 = 0)
    (stored : data.bytes = front ++ setVectorBytes front.length vector verified_classes ++ back)
    (fits : front.length + (setVectorBytes front.length vector verified_classes).length <
      kNotVerifiedMarker)
    (sameLength : verified_classes.length = vector.length)
    (unverifiedEmpty : ∀ j (inside : j < vector.length),
      verified_classes.getD j false = false → vector[j] = ∅) :
    DecodeSetVector true data (data.base + front.length) data.base data.limit
        (List.replicate vector.length ∅) (List.replicate vector.length false) vector.length =
      .ok (some (data.base + Base.RoundUp (front.length +
        (setVectorBytes front.length vector verified_classes).length) 4,
          vector, verified_classes)) := by
  have loop := DecodeSetVectorLoop_fill stored fits sameLength unverifiedEmpty vector.length 0 1
    (Nat.zero_add _) (fun inside => inside) (fun j low high => absurd high (by omega))
  have start : data.base + front.length + (vector.length + 1) * 4 =
      data.base + tuplesStart front.length vector verified_classes 0 := by
    simp only [tuplesStart, List.take_zero, setData, List.length_nil]
    omega
  have finish : tuplesStart front.length vector verified_classes vector.length =
      front.length + (setVectorBytes front.length vector verified_classes).length := by
    rw [tuplesStart, List.take_of_length_le (le_refl _), length_setVectorBytes]
    omega
  simp only [List.take_zero, List.nil_append] at loop
  rw [DecodeSetVector, start, loop, finish]
  dsimp only
  rw [RoundUp_add_of_aligned aligned]

end SetVector

/-! ## Decoding a stored string vector -/

section StringTable

theorem length_stringOffsets :
    ∀ (strings : List (List UInt8)) (position : Nat),
      (stringOffsets position strings).length = strings.length := by
  intro strings
  induction strings with
  | nil => intro position; rfl
  | cons str strings inductionHypothesis =>
    intro position
    rw [stringOffsets, List.length_cons, inductionHypothesis, List.length_cons]

theorem getElem_stringOffsets :
    ∀ (strings : List (List UInt8)) (position j : Nat)
      (inside : j < (stringOffsets position strings).length),
      (stringOffsets position strings)[j] = position + (stringData (strings.take j)).length := by
  intro strings
  induction strings with
  | nil => intro position j inside; simp [stringOffsets] at inside
  | cons str strings inductionHypothesis =>
    intro position j inside
    cases j with
    | zero => simp [stringOffsets, stringData]
    | succ j =>
      simp only [stringOffsets, List.getElem_cons_succ]
      rw [inductionHypothesis]
      simp [stringData]
      omega

theorem length_stringVectorBytes (position : Nat) (strings : List (List UInt8)) :
    (stringVectorBytes position strings).length =
      4 * (strings.length + 1) + (stringData strings).length := by
  simp only [stringVectorBytes, List.length_append, length_flatMap_word32Bytes, List.length_cons,
    length_stringOffsets]

/-- The strings around string `k`. -/
theorem stringData_split {strings : List (List UInt8)} {k : Nat} (inside : k < strings.length) :
    stringData strings =
      stringData (strings.take k) ++ (strings[k] ++ [0]) ++ stringData (strings.drop (k + 1)) := by
  conv_lhs => rw [← List.take_append_drop k strings, List.drop_eq_getElem_cons inside]
  simp only [stringData, List.flatMap_append, List.flatMap_cons, List.append_assoc]

theorem stringStart_succ {position : Nat} {strings : List (List UInt8)} {k : Nat}
    (inside : k < strings.length) :
    stringStart position strings (k + 1) = stringStart position strings k + strings[k].length + 1 := by
  rw [stringStart, stringStart, List.take_add_one, List.getElem?_eq_getElem inside,
    Option.toList_some, stringData, stringData, List.flatMap_append]
  simp only [List.flatMap_cons, List.flatMap_nil, List.append_nil, List.length_append,
    List.length_singleton]
  omega

end StringTable

section StringVector

variable {data : StoredData}

/-- Word `j + 1` of a stored string vector's table is where string `j`
starts. -/
theorem loadWord32_stringVector {front back : List UInt8} {strings : List (List UInt8)}
    (stored : data.bytes = front ++ stringVectorBytes front.length strings ++ back)
    (small : data.bytes.length < 2 ^ 32) {j : Nat} (inside : j < strings.length) :
    data.loadWord32 (data.base + front.length + 4 * (j + 1)) =
      .ok (stringStart front.length strings j) := by
  have table : data.bytes = front ++ (strings.length ::
      stringOffsets (front.length + 4 * (strings.length + 1)) strings).flatMap word32Bytes ++
        (stringData strings ++ back) := by
    rw [stored, stringVectorBytes]
    simp only [List.append_assoc]
  have below : stringStart front.length strings j < 2 ^ 32 := by
    have split := stringData_split inside
    have total := congrArg List.length stored
    rw [List.length_append, List.length_append, length_stringVectorBytes, split] at total
    simp only [List.length_append] at total
    unfold stringStart
    omega
  rw [loadWord32_stored table (by simp [length_stringOffsets]; omega), List.getElem_cons_succ,
    getElem_stringOffsets _ _ _ (by rw [length_stringOffsets]; omega)]
  exact congrArg Except.ok (Nat.mod_eq_of_lt below)

/-- The loop of `DecodeStringVector` over a stored string vector, from
string `string_index` on: `memchr` finds the NUL after each string, and the
strings are appended in order when the vector is filled. -/
theorem DecodeStringVectorLoop_stored (kFillVector : Bool) {front back : List UInt8}
    {strings : List (List UInt8)}
    (stored : data.bytes = front ++ stringVectorBytes front.length strings ++ back)
    (small : data.bytes.length < 2 ^ 32) (noNul : ∀ str ∈ strings, 0 ∉ str)
    (init : List (List UInt8)) :
    ∀ remaining string_index, string_index + remaining = strings.length →
      DecodeStringVectorLoop kFillVector data data.base data.limit (data.base + front.length)
          remaining string_index (data.base + stringStart front.length strings string_index)
          (if kFillVector then init ++ strings.take string_index else init) =
        .ok (some (data.base + stringStart front.length strings strings.length,
          if kFillVector then init ++ strings else init)) := by
  intro remaining
  induction remaining with
  | zero =>
    intro string_index counted
    rw [Nat.add_zero] at counted
    subst counted
    rw [DecodeStringVectorLoop, List.take_of_length_le (le_refl _)]
  | succ remaining inductionHypothesis =>
    intro k counted
    have inside : k < strings.length := by omega
    -- String `k` and its NUL, with what comes before them.
    set before := front ++ (strings.length ::
      stringOffsets (front.length + 4 * (strings.length + 1)) strings).flatMap word32Bytes ++
        stringData (strings.take k) with beforeEq
    have beforeLength : before.length = stringStart front.length strings k := by
      simp only [before, stringStart, List.length_append, length_flatMap_word32Bytes,
        List.length_cons, length_stringOffsets]
    have stringStored : data.bytes = before ++ strings[k] ++
        0 :: (stringData (strings.drop (k + 1)) ++ back) := by
      rw [stored, stringVectorBytes, stringData_split inside]
      simp [before]
    have total := congrArg List.length stringStored
    simp only [List.length_append, List.length_cons] at total
    have count : ((((data.limit - data.base : Nat) : Int) -
        (stringStart front.length strings k : Nat)) % 2 ^ 64).toNat =
        data.bytes.length - stringStart front.length strings k := by
      unfold StoredData.limit
      omega
    have found := memchrZero_stored strings[k] before _
      (data.bytes.length - stringStart front.length strings k) stringStored
      (noNul _ (List.getElem_mem inside)) (by omega)
    have sliced := slice_stored stringStored
    rw [beforeLength] at found sliced
    have next := inductionHypothesis (k + 1) (by omega)
    rw [stringStart_succ inside] at next
    simp only [← Nat.add_assoc] at next
    rw [DecodeStringVectorLoop, loadWord32_stringVector stored small inside]
    dsimp only
    rw [count, found]
    dsimp only
    rw [sliced]
    cases kFillVector
    · simp only [Bool.false_eq_true, if_false] at next ⊢
      exact next
    · simp only [if_true] at next ⊢
      rw [List.append_assoc, ← Option.toList_some, ← List.getElem?_eq_getElem inside,
        ← List.take_add_one]
      exact next

/-- `DecodeStringVector` reads a stored string vector back, and leaves the
cursor after its last string. -/
theorem DecodeStringVector_stored (kFillVector : Bool) {front back : List UInt8}
    {strings : List (List UInt8)}
    (stored : data.bytes = front ++ stringVectorBytes front.length strings ++ back)
    (small : data.bytes.length < 2 ^ 32) (noNul : ∀ str ∈ strings, 0 ∉ str)
    (init : List (List UInt8)) :
    DecodeStringVector kFillVector data (data.base + front.length) data.base data.limit init =
      .ok (some (data.base + front.length + (stringVectorBytes front.length strings).length,
        if kFillVector then init ++ strings else init)) := by
  have counted : data.loadWord32 (data.base + front.length + 4 * 0) = .ok strings.length := by
    have table : data.bytes = front ++ [strings.length].flatMap word32Bytes ++
        ((stringOffsets (front.length + 4 * (strings.length + 1)) strings).flatMap word32Bytes ++
          stringData strings ++ back) := by
      rw [stored, stringVectorBytes]
      simp
    have below : strings.length < 2 ^ 32 := by
      have total := congrArg List.length stored
      simp only [List.length_append, length_stringVectorBytes] at total
      omega
    rw [loadWord32_stored table (by simp)]
    exact congrArg Except.ok (Nat.mod_eq_of_lt below)
  have loop := DecodeStringVectorLoop_stored kFillVector stored small noNul init strings.length 0
    (Nat.zero_add _)
  have start : data.base + front.length + 4 + strings.length * 4 =
      data.base + stringStart front.length strings 0 := by
    simp only [stringStart, List.take_zero, stringData, List.flatMap_nil, List.length_nil]
    omega
  have finish : stringStart front.length strings strings.length =
      front.length + (stringVectorBytes front.length strings).length := by
    rw [stringStart, List.take_of_length_le (le_refl _), length_stringVectorBytes]
    omega
  rw [Nat.mul_zero, Nat.add_zero] at counted
  rw [DecodeStringVector, counted]
  dsimp only
  rw [start]
  simp only [List.take_zero, List.append_nil, ite_self] at loop
  rw [loop, finish, Nat.add_assoc]

end StringVector

/-! ## Reading back a dex file -/

/-- What `VerifierDeps` holds for a dex file it encodes: a set and a bit per
class definition, empty sets for the classes that did not verify, and extra
strings without a NUL. -/
structure DexFileDeps.WellFormed (deps : DexFileDeps) : Prop where
  numClassDefs : deps.assignable_types.length = deps.verified_classes.length
  unverifiedEmpty : ∀ j (inside : j < deps.assignable_types.length),
    deps.verified_classes.getD j false = false → deps.assignable_types[j] = ∅
  noNul : ∀ str ∈ deps.strings, 0 ∉ str

theorem length_padding (size : Nat) : (padding size).length = Base.RoundUp size 4 - size :=
  List.length_replicate ..

/-- Where `Encode` puts the set vector of a dex file whose data follows
`size` bytes. -/
def setsPosition (size : Nat) : Nat :=
  Base.RoundUp size 4

/-- Where `Encode` puts the string vector of that dex file. -/
def stringsPosition (size : Nat) (deps : DexFileDeps) : Nat :=
  Base.RoundUp (setsPosition size +
    (setVectorBytes (setsPosition size) deps.assignable_types deps.verified_classes).length) 4

theorem dexFileBytes_eq (size : Nat) (deps : DexFileDeps) :
    dexFileBytes size deps =
      padding size ++ setVectorBytes (setsPosition size) deps.assignable_types deps.verified_classes ++
        padding (setsPosition size +
          (setVectorBytes (setsPosition size) deps.assignable_types deps.verified_classes).length) ++
        stringVectorBytes (stringsPosition size deps) deps.strings :=
  rfl

theorem setsEnd_le_stringsPosition (size : Nat) (deps : DexFileDeps) :
    setsPosition size +
        (setVectorBytes (setsPosition size) deps.assignable_types deps.verified_classes).length ≤
      stringsPosition size deps :=
  le_RoundUp _

section DexFile

variable {data : StoredData}

/-- The two vectors of one dex file's data, at the positions `Encode`
aligned them to. -/
theorem dexFileBytes_stored {front back : List UInt8} {deps : DexFileDeps}
    (stored : data.bytes = front ++ dexFileBytes front.length deps ++ back) :
    ∃ setsFront stringsFront : List UInt8,
      setsFront.length = setsPosition front.length ∧
      stringsFront.length = stringsPosition front.length deps ∧
      data.bytes = setsFront ++ setVectorBytes setsFront.length deps.assignable_types
        deps.verified_classes ++ (padding (setsPosition front.length +
          (setVectorBytes (setsPosition front.length) deps.assignable_types
            deps.verified_classes).length) ++
          stringVectorBytes (stringsPosition front.length deps) deps.strings ++ back) ∧
      data.bytes = stringsFront ++ stringVectorBytes stringsFront.length deps.strings ++ back := by
  have setsAt : (front ++ padding front.length).length = setsPosition front.length := by
    rw [setsPosition, ← length_AlignBuffer, AlignBuffer_eq]
  refine ⟨front ++ padding front.length, front ++ padding front.length ++
    setVectorBytes (setsPosition front.length) deps.assignable_types deps.verified_classes ++
    padding (setsPosition front.length + (setVectorBytes (setsPosition front.length)
      deps.assignable_types deps.verified_classes).length), setsAt, ?_, ?_, ?_⟩
  · have above := setsEnd_le_stringsPosition front.length deps
    simp only [List.length_append, length_padding, setsAt]
    unfold stringsPosition at above ⊢
    omega
  · rw [stored, dexFileBytes_eq, setsAt]
    simp
  · rw [stored, dexFileBytes_eq]
    have stringsAt : (front ++ padding front.length ++
        setVectorBytes (setsPosition front.length) deps.assignable_types deps.verified_classes ++
        padding (setsPosition front.length + (setVectorBytes (setsPosition front.length)
          deps.assignable_types deps.verified_classes).length)).length =
        stringsPosition front.length deps := by
      have above := setsEnd_le_stringsPosition front.length deps
      simp only [List.length_append, length_padding, setsAt]
      unfold stringsPosition at above ⊢
      omega
    rw [stringsAt]
    simp

/-- `DecodeDexFileDeps<false>` reads one dex file's dependencies back into a
fresh `DexFileDeps(num_class_defs)`. -/
theorem DecodeDexFileDeps_stored {front back : List UInt8} {deps : DexFileDeps}
    (aligned : data.base % 4 = 0) (wellFormed : deps.WellFormed)
    (stored : data.bytes = front ++ dexFileBytes front.length deps ++ back)
    (small : data.bytes.length < 2 ^ 32) :
    DecodeDexFileDeps false data (DexFileDeps.ofNumClassDefs deps.verified_classes.length)
        (data.base + setsPosition front.length) deps.verified_classes.length =
      .ok (some (data.base + stringsPosition front.length deps +
        (stringVectorBytes (stringsPosition front.length deps) deps.strings).length, deps)) := by
  obtain ⟨setsFront, stringsFront, setsAt, stringsAt, setsStored, stringsStored⟩ :=
    dexFileBytes_stored stored
  have total := congrArg List.length stringsStored
  rw [List.length_append, List.length_append, length_stringVectorBytes, stringsAt] at total
  have above := setsEnd_le_stringsPosition front.length deps
  rw [← setsAt] at above
  have sets := DecodeSetVector_stored aligned setsStored
    (by unfold kNotVerifiedMarker; omega) wellFormed.numClassDefs.symm wellFormed.unverifiedEmpty
  have stringsEq : Base.RoundUp (setsPosition front.length + (setVectorBytes
      (setsPosition front.length) deps.assignable_types deps.verified_classes).length) 4 =
      stringsPosition front.length deps := rfl
  rw [wellFormed.numClassDefs, setsAt, stringsEq, ← stringsAt] at sets
  have strings := DecodeStringVector_stored true stringsStored small wellFormed.noNul []
  rw [stringsAt, if_pos rfl, List.nil_append] at strings
  rw [DecodeDexFileDeps, DexFileDeps.ofNumClassDefs, Bool.not_false]
  dsimp only
  rw [sets, ← stringsAt]
  dsimp only
  rw [stringsAt, strings]

end DexFile

/-! ## Reading back every dex file -/

theorem dexData_append :
    ∀ (done rest : List DexFileDeps) (size : Nat),
      dexData size (done ++ rest) =
        dexData size done ++ dexData (size + (dexData size done).length) rest := by
  intro done
  induction done with
  | nil => intro rest size; simp [dexData]
  | cons deps done inductionHypothesis =>
    intro rest size
    simp only [List.cons_append, dexData, inductionHypothesis, List.length_append, List.append_assoc,
      Nat.add_assoc]

theorem dexOffsets_append :
    ∀ (done rest : List DexFileDeps) (size : Nat),
      dexOffsets size (done ++ rest) =
        dexOffsets size done ++ dexOffsets (size + (dexData size done).length) rest := by
  intro done
  induction done with
  | nil => intro rest size; simp [dexOffsets, dexData]
  | cons deps done inductionHypothesis =>
    intro rest size
    simp only [List.cons_append, dexOffsets, dexData, inductionHypothesis, List.length_append,
      Nat.add_assoc]

theorem length_dexOffsets :
    ∀ (dex_deps : List DexFileDeps) (size : Nat), (dexOffsets size dex_deps).length = dex_deps.length := by
  intro dex_deps
  induction dex_deps with
  | nil => intro size; rfl
  | cons deps dex_deps inductionHypothesis =>
    intro size
    rw [dexOffsets, List.length_cons, inductionHypothesis, List.length_cons]

section Parsing

variable {data : StoredData} {dex_deps : List DexFileDeps}

/-- Each dex file's word of the table holds where its set vector starts, and
its data is in place there. -/
theorem dexFile_stored
    (stored : data.bytes = (dexOffsets (4 * dex_deps.length) dex_deps).flatMap word32Bytes ++
      dexData (4 * dex_deps.length) dex_deps)
    (small : data.bytes.length < 2 ^ 32) {done rest : List DexFileDeps} {deps : DexFileDeps}
    (split : done ++ deps :: rest = dex_deps) :
    ∃ front back, data.loadWord32 (data.base + 4 * done.length) = .ok (setsPosition front.length) ∧
      data.bytes = front ++ dexFileBytes front.length deps ++ back := by
  let header := (dexOffsets (4 * dex_deps.length) dex_deps).flatMap word32Bytes
  let front := header ++ dexData (4 * dex_deps.length) done
  have frontLength :
      front.length = 4 * dex_deps.length + (dexData (4 * dex_deps.length) done).length := by
    simp only [front, header, List.length_append, length_flatMap_word32Bytes, length_dexOffsets]
  have offsets : dexOffsets (4 * dex_deps.length) dex_deps =
      dexOffsets (4 * dex_deps.length) done ++ setsPosition front.length ::
        dexOffsets (front.length + (dexFileBytes front.length deps).length) rest := by
    rw [← split, dexOffsets_append, dexOffsets, split, frontLength]
    rfl
  have fileStored : data.bytes = front ++ dexFileBytes front.length deps ++
      dexData (front.length + (dexFileBytes front.length deps).length) rest := by
    rw [stored]
    conv_lhs => rw [← split]
    rw [dexData_append, dexData, split, ← frontLength]
    simp [front, header]
  refine ⟨front, _, ?_, fileStored⟩
  have below : setsPosition front.length < 2 ^ 32 := by
    have total := congrArg List.length fileStored
    have above := le_RoundUp front.length
    simp only [List.length_append, dexFileBytes_eq, length_padding] at total
    unfold setsPosition
    omega
  have word := loadWord32_stored
    (show data.bytes = [] ++ (dexOffsets (4 * dex_deps.length) dex_deps).flatMap word32Bytes ++
      dexData (4 * dex_deps.length) dex_deps by rw [stored]; rfl)
    (j := done.length) (by rw [length_dexOffsets, ← split]; simp)
  rw [List.length_nil, Nat.add_zero] at word
  have entry : (dexOffsets (4 * dex_deps.length) dex_deps)[done.length]? =
      some (setsPosition front.length) := by
    rw [offsets, List.getElem?_append_right (length_dexOffsets done _).le, length_dexOffsets,
      Nat.sub_self]
    rfl
  obtain ⟨_, entryEq⟩ := List.getElem?_eq_some_iff.mp entry
  rw [word, entryEq, Nat.mod_eq_of_lt below]

/-- The loop of `ParseStoredData` reads back each dex file after those it
has read. -/
theorem ParseStoredDataLoop_stored (aligned : data.base % 4 = 0)
    (wellFormed : ∀ deps ∈ dex_deps, deps.WellFormed)
    (stored : data.bytes = (dexOffsets (4 * dex_deps.length) dex_deps).flatMap word32Bytes ++
      dexData (4 * dex_deps.length) dex_deps)
    (small : data.bytes.length < 2 ^ 32) :
    ∀ (rest done : List DexFileDeps), done ++ rest = dex_deps →
      ParseStoredDataLoop data done.length (rest.map fun deps =>
          (deps.verified_classes.length, DexFileDeps.ofNumClassDefs deps.verified_classes.length)) =
        .ok (some rest) := by
  intro rest
  induction rest with
  | nil => intro done _; rfl
  | cons deps rest inductionHypothesis =>
    intro done split
    obtain ⟨front, back, word, fileStored⟩ := dexFile_stored stored small split
    have file := DecodeDexFileDeps_stored aligned (wellFormed deps (by rw [← split]; simp))
      fileStored small
    have next := inductionHypothesis (done ++ [deps]) (by rw [← split]; simp)
    rw [List.length_append, List.length_singleton] at next
    rw [List.map_cons, ParseStoredDataLoop, word]
    dsimp only
    rw [file]
    dsimp only
    rw [next]

end Parsing

/-- `ParseStoredData` on what `Encode` wrote, placed at a four-byte aligned
address, reads back every dex file's verified classes, assignability sets
and extra strings into the fresh `DexFileDeps(NumClassDefs())` of each dex
file, reading only inside the buffer, as long as the buffer is addressed by
`uint32_t` offsets. -/
theorem ParseStoredData_Encode {base : Nat} {dex_deps : List DexFileDeps}
    (aligned : base % 4 = 0) (wellFormed : ∀ deps ∈ dex_deps, deps.WellFormed)
    (fits : (Encode dex_deps).length < 2 ^ 32) :
    ParseStoredData (dex_deps.map fun deps =>
        (deps.verified_classes.length, DexFileDeps.ofNumClassDefs deps.verified_classes.length))
        ⟨base, Encode dex_deps⟩ =
      .ok (some dex_deps) := by
  cases dex_deps with
  | nil => rfl
  | cons deps rest =>
    have stored := Encode_eq (deps :: rest) fits
    have nonEmpty : (Encode (deps :: rest)).isEmpty = false := by
      rw [stored, dexOffsets]
      rfl
    rw [ParseStoredData]
    dsimp only
    rw [nonEmpty, if_neg Bool.false_ne_true]
    exact @ParseStoredDataLoop_stored ⟨base, Encode (deps :: rest)⟩ _ aligned wellFormed
      stored fits _ [] rfl

theorem ParseStoredData_Encode_twoClasses :
    (0 : Nat) % 4 = 0 ∧
      ParseStoredData [(2, DexFileDeps.ofNumClassDefs 2)]
          ⟨0, Encode [⟨[[97, 98]], [{toLex (1, 2)}, ∅], [true, false]⟩]⟩ =
        .ok (some [⟨[[97, 98]], [{toLex (1, 2)}, ∅], [true, false]⟩]) :=
  ⟨rfl, ParseStoredData_Encode rfl
    (fun deps member => by
      rw [List.mem_singleton] at member
      subst member
      exact ⟨rfl, by decide, by decide⟩)
    (by decide +kernel)⟩

end ArtRuntime.Verifier
