import ArtRuntime.DescriptorsNames

namespace ArtRuntime.Dex

/-!
# Descriptors and Java names

`descriptors_names.cc` converts between type descriptors (`La/b/C;`, `[I`) and
their Java spellings: `DotToDescriptor` and `DescriptorToDot` between binary
class names and descriptors, `PrettyDescriptor` and `InversePrettyDescriptor`
between descriptors and the names Java prints (`a.b.C[]`, `int[]`).  Strings
are their bytes up to the NUL; each conversion works byte by byte, swapping
`/` and `.`, adding or removing `L` and `;`, and moving the `[`s to the end as
`[]`s.

* `DescriptorToDot_DotToDescriptor`, `DotToDescriptor_DescriptorToDot_reference`,
  `DotToDescriptor_DescriptorToDot_array` and the two
  `InversePrettyDescriptor_PrettyDescriptor` lemmas give the round trips on
  strings whose class names hold no separator byte of the other form, and no
  `[`.
* The validators decode a multi-byte character without checking its
  continuation bytes, so a `/`, a `.` or a `[]` taken as one passes inside a
  valid name: `descriptor_conversions_malformed_sequences` breaks each round
  trip with such a name.
-/

/-- `std::replace(begin, end, before, after)`. -/
def replaceByte (before after : UInt8) (s : List UInt8) : List UInt8 :=
  s.map fun c => if c = before then after else c

/-- The primitive descriptors and their Java names, in the order of the
`switch` of `AppendPrettyDescriptor` and of the tests of
`InversePrettyDescriptor`. -/
def primitiveNames : List (UInt8 × List UInt8) :=
  [(0x42, [0x62, 0x79, 0x74, 0x65]),                    -- 'B' "byte"
   (0x43, [0x63, 0x68, 0x61, 0x72]),                    -- 'C' "char"
   (0x44, [0x64, 0x6f, 0x75, 0x62, 0x6c, 0x65]),        -- 'D' "double"
   (0x46, [0x66, 0x6c, 0x6f, 0x61, 0x74]),              -- 'F' "float"
   (0x49, [0x69, 0x6e, 0x74]),                          -- 'I' "int"
   (0x4a, [0x6c, 0x6f, 0x6e, 0x67]),                    -- 'J' "long"
   (0x53, [0x73, 0x68, 0x6f, 0x72, 0x74]),              -- 'S' "short"
   (0x5a, [0x62, 0x6f, 0x6f, 0x6c, 0x65, 0x61, 0x6e]),  -- 'Z' "boolean"
   (0x56, [0x76, 0x6f, 0x69, 0x64])]                    -- 'V' "void"

/-- `"[]"` once for each dimension. -/
def arrayIndicators (dim : Nat) : List UInt8 :=
  (List.replicate dim [0x5b, 0x5d]).flatten

/-- `AppendPrettyDescriptor(descriptor, &result)`. -/
def AppendPrettyDescriptor (descriptor result : List UInt8) : List UInt8 :=
  -- Count the number of '['s to get the dimensionality.
  let dim := (skipArrayDimensions descriptor).1
  let c := (skipArrayDimensions descriptor).2
  if (nextByte c).1 = 0x4c then  -- 'L'
    -- "[[La/b/C;" -> "a.b.C[][]": skip the 'L' and remove the semicolon.
    let stripped := c.drop 1
    let stripped := if stripped.getLast? = some 0x3b then stripped.dropLast else stripped
    result ++ replaceByte 0x2f 0x2e stripped ++ arrayIndicators dim
  else
    -- "[[B" -> "byte[][]".
    match primitiveNames.find? (·.1 = (nextByte c).1) with
    | some (_, pretty_primitive) => result ++ pretty_primitive ++ arrayIndicators dim
    | none => result ++ descriptor

def PrettyDescriptor (descriptor : List UInt8) : List UInt8 :=
  AppendPrettyDescriptor descriptor []

/-- The search loop of `InversePrettyDescriptor` from `pos`: each `"[]"` is one
dimension, and the first ends the type name at `l`. -/
def findArrayIndicators (l dim pos : Nat) : List UInt8 → Nat × Nat
  | [] => (l, dim)
  | c :: more =>
    if c = 0x5b ∧ more.head? = some 0x5d then
      findArrayIndicators (if dim = 0 then pos else l) (dim + 1) (pos + 2) more.tail
    else
      findArrayIndicators l dim (pos + 1) more
termination_by s => s.length
decreasing_by
  · simp only [List.length_cons, List.length_tail]
    omega
  · simp only [List.length_cons]
    omega

def InversePrettyDescriptor (pretty_descriptor : List UInt8) : List UInt8 :=
  -- Determine the dimensionality and the length without the trailing "[]"s.
  let found := findArrayIndicators pretty_descriptor.length 0 0 pretty_descriptor
  let temp_descriptor := pretty_descriptor.take found.1
  List.replicate found.2 0x5b ++
    match primitiveNames.find? (·.2 = temp_descriptor) with
    | some (letter, _) => [letter]
    | none => 0x4c :: replaceByte 0x2e 0x2f temp_descriptor ++ [0x3b]

def DotToDescriptor (class_name : List UInt8) : List UInt8 :=
  let descriptor := replaceByte 0x2e 0x2f class_name
  if descriptor.length > 0 ∧ descriptor.getD 0 0 ≠ 0x5b then 0x4c :: descriptor ++ [0x3b]
  else descriptor

def DescriptorToDot (descriptor : List UInt8) : List UInt8 :=
  let length := descriptor.length
  if length > 1 then
    if descriptor.getD 0 0 = 0x4c ∧ descriptor.getD (length - 1) 0 = 0x3b then
      -- The leading 'L' and trailing ';' are stripped.
      replaceByte 0x2f 0x2e ((descriptor.drop 1).take (length - 2))
    else
      -- For arrays the 'L' and ';' remain intact.
      replaceByte 0x2f 0x2e descriptor
  else
    -- Nothing to do for non-class/array descriptors.
    descriptor

section RoundTrips

/-! ### Round trips -/

theorem replaceByte_of_not_mem {before after : UInt8} {s : List UInt8} (absent : before ∉ s) :
    replaceByte before after s = s := by
  conv_rhs => rw [← List.map_id s]
  apply List.map_congr_left
  intro c inS
  have other : c ≠ before := fun same => absent (same ▸ inS)
  simp only [other, if_false, id]

/-- Swapping `after` for `before` and back restores a string without
`before`. -/
theorem replaceByte_replaceByte {before after : UInt8} {s : List UInt8} (absent : before ∉ s) :
    replaceByte before after (replaceByte after before s) = s := by
  unfold replaceByte
  rw [List.map_map]
  conv_rhs => rw [← List.map_id s]
  apply List.map_congr_left
  intro c inS
  have other : c ≠ before := fun same => absent (same ▸ inS)
  by_cases swapped : c = after <;> simp [swapped, other]

theorem mem_replaceByte {before after b : UInt8} {s : List UInt8}
    (inReplaced : b ∈ replaceByte before after s) : b = after ∨ b ∈ s ∧ b ≠ before := by
  obtain ⟨c, inS, replaced⟩ := List.mem_map.mp inReplaced
  by_cases swapped : c = before
  · simp only [swapped, if_true] at replaced
    exact Or.inl replaced.symm
  · simp only [swapped, if_false] at replaced
    exact Or.inr ⟨replaced ▸ inS, replaced ▸ swapped⟩

@[simp] theorem length_replaceByte (before after : UInt8) (s : List UInt8) :
    (replaceByte before after s).length = s.length := by
  simp only [replaceByte, List.length_map]

@[simp] theorem replaceByte_append (before after : UInt8) (s t : List UInt8) :
    replaceByte before after (s ++ t) = replaceByte before after s ++ replaceByte before after t := by
  simp only [replaceByte, List.map_append]

/-- A binary class name without `/` comes back from its descriptor. -/
theorem DescriptorToDot_DotToDescriptor {s : List UInt8} (noSlash : 0x2f ∉ s) :
    DescriptorToDot (DotToDescriptor s) = s := by
  have restored : replaceByte 0x2f 0x2e (replaceByte 0x2e 0x2f s) = s :=
    replaceByte_replaceByte noSlash
  unfold DotToDescriptor
  dsimp only
  split
  next =>
    -- `L`, the name and `;`: the name is read back from between them.
    rw [DescriptorToDot, if_pos (by simp), if_pos ⟨rfl, by simp⟩]
    simpa using restored
  next notReference =>
    -- Empty, or an array descriptor already.
    cases s with
    | nil => rfl
    | cons c rest =>
      have bracket : (if c = 0x2e then 0x2f else c) = 0x5b := by simpa [replaceByte] using notReference
      have isBracket : c = 0x5b := by
        by_cases dot : c = 0x2e
        · simp only [dot, if_true] at bracket
          exact absurd bracket (by decide)
        · simpa [dot] using bracket
      unfold DescriptorToDot
      dsimp only
      split
      next => rw [if_neg (by simp [replaceByte, isBracket])]; exact restored
      next short =>
        have empty : rest = [] := by simpa [replaceByte] using short
        simp [replaceByte, isBracket, empty]

/-- A class descriptor whose name holds no `.` and does not start with `[`
comes back from its binary name. -/
theorem DotToDescriptor_DescriptorToDot_reference {name : List UInt8} (noDot : 0x2e ∉ name)
    (nonempty : name ≠ []) (notArray : name.getD 0 0 ≠ 0x5b) :
    DotToDescriptor (DescriptorToDot (0x4c :: name ++ [0x3b])) = 0x4c :: name ++ [0x3b] := by
  have restored : replaceByte 0x2e 0x2f (replaceByte 0x2f 0x2e name) = name :=
    replaceByte_replaceByte noDot
  have middle : ((0x4c :: name ++ [0x3b]).drop 1).take
      ((0x4c :: name ++ [0x3b]).length - 2) = name := by
    simp
  rw [DescriptorToDot, if_pos (by simp), if_pos ⟨rfl, by simp⟩, middle, DotToDescriptor,
    restored, if_pos ⟨List.length_pos_iff.mpr nonempty, notArray⟩]

/-- An array descriptor without `.` comes back from its binary name. -/
theorem DotToDescriptor_DescriptorToDot_array {descriptor : List UInt8}
    (noDot : 0x2e ∉ descriptor) (array : descriptor.getD 0 0 = 0x5b) :
    DotToDescriptor (DescriptorToDot descriptor) = descriptor := by
  have unchanged : replaceByte 0x2e 0x2f descriptor = descriptor := replaceByte_of_not_mem noDot
  -- Either way `DescriptorToDot` leaves the leading `[`, which keeps
  -- `DotToDescriptor` from wrapping the result.
  have arrayAgain : ∀ dotted, replaceByte 0x2e 0x2f dotted = descriptor →
      DotToDescriptor dotted = descriptor := by
    intro dotted back
    rw [DotToDescriptor, back, if_neg (fun reference => reference.2 array)]
  unfold DescriptorToDot
  dsimp only
  split
  next =>
    rw [if_neg (fun reference => absurd (array ▸ reference.1) (by decide))]
    exact arrayAgain _ (replaceByte_replaceByte noDot)
  next => exact arrayAgain _ unchanged

/-- A name whose replacement is a string without `after` is that string. -/
theorem eq_of_replaceByte_eq {before after : UInt8} {s t : List UInt8}
    (replaced : replaceByte before after s = t) (absent : after ∉ t) : s = t := by
  have notBefore : before ∉ s := fun inS => by
    apply absent
    rw [← replaced]
    exact List.mem_map.mpr ⟨before, inS, by simp⟩
  rwa [replaceByte_of_not_mem notBefore] at replaced

theorem skipArrayDimensions_replicate (n : Nat) {rest : List UInt8}
    (notBracket : (nextByte rest).1 ≠ 0x5b) :
    skipArrayDimensions (List.replicate n 0x5b ++ rest) = (n, rest) := by
  induction n with
  | zero => exact skipArrayDimensions_of_ne notBracket
  | succ n inductionHypothesis =>
    rw [List.replicate_succ, List.cons_append, skipArrayDimensions_bracket, inductionHypothesis]

@[simp] theorem findArrayIndicators_nil (l dim pos : Nat) :
    findArrayIndicators l dim pos [] = (l, dim) := by
  rw [findArrayIndicators]

/-- The search passes over a string without `[`. -/
theorem findArrayIndicators_append {s : List UInt8} (noBracket : 0x5b ∉ s)
    (l dim pos : Nat) (rest : List UInt8) :
    findArrayIndicators l dim pos (s ++ rest) = findArrayIndicators l dim (pos + s.length) rest := by
  induction s generalizing pos with
  | nil => rfl
  | cons c more inductionHypothesis =>
    have notBracket : c ≠ 0x5b := fun bracket => noBracket (bracket ▸ List.mem_cons_self)
    rw [List.cons_append, findArrayIndicators, if_neg (fun found => notBracket found.1),
      inductionHypothesis (fun inMore => noBracket (List.mem_cons_of_mem c inMore))]
    congr 1
    simp only [List.length_cons]
    omega

/-- Each `"[]"` counts, and the first sets the end of the name. -/
theorem findArrayIndicators_arrayIndicators (n l dim pos : Nat) :
    findArrayIndicators l dim pos (arrayIndicators n) =
      if n = 0 then (l, dim) else (if dim = 0 then pos else l, dim + n) := by
  induction n generalizing l dim pos with
  | zero => exact findArrayIndicators_nil l dim pos
  | succ n inductionHypothesis =>
    have unfolded : arrayIndicators (n + 1) = 0x5b :: 0x5d :: arrayIndicators n := rfl
    rw [unfolded, findArrayIndicators, if_pos ⟨rfl, rfl⟩]
    simp only [List.tail_cons, inductionHypothesis]
    by_cases zero : n = 0 <;> by_cases first : dim = 0 <;> simp [zero, first] <;> omega

/-- The trailing `"[]"`s of a pretty name become leading `[`s. -/
theorem InversePrettyDescriptor_append {pretty : List UInt8} (noBracket : 0x5b ∉ pretty)
    (n : Nat) :
    InversePrettyDescriptor (pretty ++ arrayIndicators n) =
      List.replicate n 0x5b ++ InversePrettyDescriptor pretty := by
  have whole : findArrayIndicators pretty.length 0 0 pretty = (pretty.length, 0) := by
    simpa using findArrayIndicators_append noBracket pretty.length 0 0 []
  have found : findArrayIndicators (pretty ++ arrayIndicators n).length 0 0
      (pretty ++ arrayIndicators n) =
        (if n = 0 then (pretty ++ arrayIndicators n).length else pretty.length, n) := by
    rw [findArrayIndicators_append noBracket, findArrayIndicators_arrayIndicators]
    by_cases zero : n = 0 <;> simp [zero]
  -- Either way the name is what comes before the first `"[]"`.
  have name : (pretty ++ arrayIndicators n).take
      (if n = 0 then (pretty ++ arrayIndicators n).length else pretty.length) = pretty := by
    by_cases zero : n = 0 <;> simp [zero, arrayIndicators]
  simp only [InversePrettyDescriptor, found, name, whole, List.take_length, List.replicate_zero,
    List.nil_append]

/-- What the table of primitives holds: letters that are neither `[` nor `L`,
and names without `.` or `[`, each found by its letter and by its name. -/
theorem primitiveNames_facts : ∀ entry ∈ primitiveNames,
    entry.1 ≠ 0x5b ∧ entry.1 ≠ 0x4c ∧ 0x2e ∉ entry.2 ∧ 0x5b ∉ entry.2 ∧
      primitiveNames.find? (·.1 = entry.1) = some entry ∧
      primitiveNames.find? (·.2 = entry.2) = some entry := by
  decide

theorem InversePrettyDescriptor_primitiveNames :
    ∀ entry ∈ primitiveNames, InversePrettyDescriptor entry.2 = [entry.1] := by
  decide +kernel

/-- A pretty name without `[` that is no primitive's becomes a class
descriptor. -/
theorem InversePrettyDescriptor_name {pretty : List UInt8} (noBracket : 0x5b ∉ pretty)
    (notPrimitive : ∀ entry ∈ primitiveNames, entry.2 ≠ pretty) :
    InversePrettyDescriptor pretty = 0x4c :: replaceByte 0x2e 0x2f pretty ++ [0x3b] := by
  have whole : findArrayIndicators pretty.length 0 0 pretty = (pretty.length, 0) := by
    simpa using findArrayIndicators_append noBracket pretty.length 0 0 []
  have missing : primitiveNames.find? (·.2 = pretty) = none :=
    List.find?_eq_none.mpr fun entry primitive => by simpa using notPrimitive entry primitive
  simp only [InversePrettyDescriptor, whole, List.take_length, List.replicate_zero,
    List.nil_append, missing]

/-- The Java spelling of a class descriptor: its name with `.` for `/`, then a
`"[]"` for each dimension. -/
theorem PrettyDescriptor_reference (n : Nat) (name : List UInt8) :
    PrettyDescriptor (List.replicate n 0x5b ++ (0x4c :: name ++ [0x3b])) =
      replaceByte 0x2f 0x2e name ++ arrayIndicators n := by
  have notBracket : (nextByte (0x4c :: name ++ [0x3b])).1 ≠ 0x5b := by
    simp only [List.cons_append, nextByte_cons]
    decide
  simp only [PrettyDescriptor, AppendPrettyDescriptor, skipArrayDimensions_replicate n notBracket]
  simp

theorem PrettyDescriptor_primitive (n : Nat) {entry : UInt8 × List UInt8}
    (primitive : entry ∈ primitiveNames) :
    PrettyDescriptor (List.replicate n 0x5b ++ [entry.1]) = entry.2 ++ arrayIndicators n := by
  obtain ⟨notBracket, notReference, -, -, byLetter, -⟩ := primitiveNames_facts entry primitive
  rcases entry with ⟨letter, name⟩
  simp only [PrettyDescriptor, AppendPrettyDescriptor,
    skipArrayDimensions_replicate n (show (nextByte [letter]).1 ≠ 0x5b from notBracket),
    nextByte_cons]
  simp only at byLetter notReference
  simp only [notReference, if_false, byLetter, List.nil_append]

/-- A class descriptor whose name has no `.` and no `[` and is no primitive's
Java name comes back from its Java spelling. -/
theorem InversePrettyDescriptor_PrettyDescriptor_reference (n : Nat) {name : List UInt8}
    (noDot : 0x2e ∉ name) (noBracket : 0x5b ∉ name)
    (notPrimitive : ∀ entry ∈ primitiveNames, entry.2 ≠ name) :
    InversePrettyDescriptor (PrettyDescriptor (List.replicate n 0x5b ++ (0x4c :: name ++ [0x3b]))) =
      List.replicate n 0x5b ++ (0x4c :: name ++ [0x3b]) := by
  have dottedNoBracket : 0x5b ∉ replaceByte 0x2f 0x2e name := fun inDotted => by
    rcases mem_replaceByte inDotted with dot | ⟨inName, -⟩
    · exact absurd dot (by decide)
    · exact noBracket inName
  -- The primitives' names hold no `.`, so the dotted name is none of them.
  have dottedNotPrimitive : ∀ entry ∈ primitiveNames, entry.2 ≠ replaceByte 0x2f 0x2e name := by
    intro entry primitive same
    have noDotInEntry := (primitiveNames_facts entry primitive).2.2.1
    exact notPrimitive entry primitive (eq_of_replaceByte_eq same.symm noDotInEntry).symm
  rw [PrettyDescriptor_reference, InversePrettyDescriptor_append dottedNoBracket,
    InversePrettyDescriptor_name dottedNoBracket dottedNotPrimitive, replaceByte_replaceByte noDot]

theorem InversePrettyDescriptor_PrettyDescriptor_primitive (n : Nat)
    {entry : UInt8 × List UInt8} (primitive : entry ∈ primitiveNames) :
    InversePrettyDescriptor (PrettyDescriptor (List.replicate n 0x5b ++ [entry.1])) =
      List.replicate n 0x5b ++ [entry.1] := by
  rw [PrettyDescriptor_primitive n primitive,
    InversePrettyDescriptor_append (primitiveNames_facts entry primitive).2.2.2.1,
    InversePrettyDescriptor_primitiveNames entry primitive]

end RoundTrips

/-- A multi-byte lead takes the next bytes for its continuation without
looking at them, so the validators accept a `/`, a `.` or a `[]` inside a
name: `C3 2F` is the character `U+00EF` to `IsValidBinaryClassName`, `C3 2E`
is `U+00EE` and `E0 5B 5D` is `U+06DD` to `IsValidDescriptor`.  The
conversions then treat those bytes as separators and array dimensions. -/
theorem descriptor_conversions_malformed_sequences :
    (IsValidBinaryClassName ([0xc3, 0x2f] ++ [0]) = true ∧
      DescriptorToDot (DotToDescriptor [0xc3, 0x2f]) = [0xc3, 0x2e]) ∧
    (IsValidDescriptor ([0x4c, 0xc3, 0x2e, 0x3b] ++ [0]) = true ∧
      DotToDescriptor (DescriptorToDot [0x4c, 0xc3, 0x2e, 0x3b]) = [0x4c, 0xc3, 0x2f, 0x3b]) ∧
    (IsValidDescriptor ([0x4c, 0xe0, 0x5b, 0x5d, 0x3b] ++ [0]) = true ∧
      InversePrettyDescriptor (PrettyDescriptor [0x4c, 0xe0, 0x5b, 0x5d, 0x3b]) =
        [0x5b, 0x4c, 0xe0, 0x3b]) := by
  decide +kernel

end ArtRuntime.Dex
