import ArtRuntime.ProfileCompilationInfo
import ArtRuntime.Lattice.CappedSet
import Mathlib.Order.WithBot
import Mathlib.Order.BooleanAlgebra.Basic
import Mathlib.Data.Finset.Lattice.Basic
import Mathlib.Data.List.GetD

namespace ArtRuntime.Profile

open ArtRuntime.Lattice ArtRuntime.OptionLoop

/-!
# The content of a profile

What a profile says, without the indexes that only number its entries: for
each profile key, the dex file's checksum and sizes, its classes, its hot
methods with their inline caches, and its method flags.  A class is named by
its type index when the dex file has a `TypeId` for it and by its descriptor
otherwise.  An inline cache is a value of `InlineCache`: a set of at most four
classes, below megamorphic, below missing types.

Every part of a dex file's content is a join semilattice.  This module proves
that merging one dex file's data, one method, one inline cache and one dex pc
computes the join of the contents.
-/

/-- A class as a profile names it. -/
inductive ClassName where
  | typeIndex (index : Nat)
  | descriptor (name : String)
deriving DecidableEq

/-- The class that `type_index` names in a dex file of `num_type_ids` types:
a type of the dex file, or an extra descriptor of the profile. -/
def ClassNameOf (extra_descriptors : List String) (num_type_ids type_index : Nat) : ClassName :=
  if type_index < num_type_ids then .typeIndex type_index
  else .descriptor (extra_descriptors.getD (type_index - num_type_ids) "")

/-- The inline cache lattice: `Classes(S)` with `|S| ≤ 4`, below `Megamorphic`,
below `MissingTypes`. -/
abbrev InlineCache :=
  CappedSet ClassName (kIndividualInlineCacheSize - 1)

/-- The inline cache a `DexPcData` stands for. -/
def DexPcData.Content (name : Nat → ClassName) (data : DexPcData) : InlineCache :=
  if data.is_missing_types then ⊤
  else if data.is_megamorphic then .many
  else .ofFinset (data.classes.image name)

/-- The inline caches of one method by dex pc, `⊥` where there is none. -/
abbrev InlineCacheContent :=
  Fin 0x10000 → WithBot InlineCache

/-- The inline caches of the hot methods by method index, `⊥` for a method
that is not hot. -/
abbrev MethodContent :=
  Fin 0x10000 → WithBot InlineCacheContent

/-- The content of an `InlineCacheMap`. -/
def InlineCacheMapContent (name : Nat → ClassName) (inline_cache : InlineCacheMap) :
    InlineCacheContent :=
  fun dex_pc =>
    match inline_cache dex_pc with
    | none => ⊥
    | some data => (data.Content name : InlineCache)

/-- The content of a `MethodMap`. -/
def MethodMapContent (name : Nat → ClassName) (method_map : MethodMap) : MethodContent :=
  fun method_index =>
    match method_map method_index with
    | none => ⊥
    | some inline_cache => (InlineCacheMapContent name inline_cache : InlineCacheContent)

/-- Bit `index` of a bitmap stored as bytes. -/
def BitmapBit (bitmap_storage : List Nat) (index : Nat) : Bool :=
  (bitmap_storage.getD (index / 8) 0).testBit (index % 8)

/-- What a profile records about one dex file: its classes, its hot methods,
and its method flags bit by bit. -/
abbrev DexContent :=
  Finset ClassName × MethodContent × (Nat → Bool)

/-- The content of a `DexFileData` under the profile's extra descriptors. -/
def DexFileData.Content (extra_descriptors : List String) (data : DexFileData) : DexContent :=
  (data.class_set.image (ClassNameOf extra_descriptors data.num_type_ids),
    MethodMapContent (ClassNameOf extra_descriptors data.num_type_ids) data.method_map,
    BitmapBit data.bitmap_storage)

/-- Every class a `DexPcData` names is below `bound`. -/
def DexPcData.Valid (bound : Nat) (data : DexPcData) : Prop :=
  ∀ type_index ∈ data.classes, type_index < bound

/-- Every class an `InlineCacheMap` names is below `bound`. -/
def InlineCacheMapValid (bound : Nat) (inline_cache : InlineCacheMap) : Prop :=
  ∀ dex_pc data, inline_cache dex_pc = some data → data.Valid bound

/-- Every class a `MethodMap` names is below `bound`. -/
def MethodMapValid (bound : Nat) (method_map : MethodMap) : Prop :=
  ∀ method_index inline_cache, method_map method_index = some inline_cache →
    InlineCacheMapValid bound inline_cache

/-- Every class a `DexFileData` names is below `bound`. -/
structure DexFileData.Valid (bound : Nat) (data : DexFileData) : Prop where
  classes : ∀ type_index ∈ data.class_set, type_index < bound
  methods : MethodMapValid bound data.method_map

theorem DexFileData.Valid.mono {bound bound' : Nat} (le : bound ≤ bound') {data : DexFileData}
    (valid : data.Valid bound) : data.Valid bound' :=
  ⟨fun type_index member => (valid.classes type_index member).trans_le le,
    fun method_index inline_cache present dex_pc dex_pc_data atDexPc type_index member =>
      (valid.methods method_index inline_cache present dex_pc dex_pc_data atDexPc type_index
        member).trans_le le⟩

/-- What must agree between two profiles' records of one dex file. -/
structure DexFileHeader where
  checksum : Nat
  num_type_ids : Nat
  num_method_ids : Nat
deriving DecidableEq

/-- The header of a `DexFileData`. -/
def DexFileData.Header (data : DexFileData) : DexFileHeader :=
  ⟨data.checksum, data.num_type_ids, data.num_method_ids⟩

section Congruence

variable {name otherName : Nat → ClassName} {bound : Nat}

/-- Contents read through two namings that agree below `bound` agree on data
whose classes are below `bound`. -/
theorem DexPcData.Content_congr {data : DexPcData} (valid : data.Valid bound)
    (agree : ∀ type_index < bound, name type_index = otherName type_index) :
    data.Content name = data.Content otherName := by
  unfold DexPcData.Content
  rw [Finset.image_congr fun type_index member => agree type_index (valid type_index member)]

theorem InlineCacheMapContent_congr {inline_cache : InlineCacheMap}
    (valid : InlineCacheMapValid bound inline_cache)
    (agree : ∀ type_index < bound, name type_index = otherName type_index) :
    InlineCacheMapContent name inline_cache = InlineCacheMapContent otherName inline_cache := by
  funext dex_pc
  unfold InlineCacheMapContent
  cases entry : inline_cache dex_pc with
  | none => rfl
  | some data => simp only [DexPcData.Content_congr (valid dex_pc data entry) agree]

theorem MethodMapContent_congr {method_map : MethodMap}
    (valid : MethodMapValid bound method_map)
    (agree : ∀ type_index < bound, name type_index = otherName type_index) :
    MethodMapContent name method_map = MethodMapContent otherName method_map := by
  funext method_index
  unfold MethodMapContent
  cases entry : method_map method_index with
  | none => rfl
  | some inline_cache =>
      simp only [InlineCacheMapContent_congr (valid method_index inline_cache entry) agree]

/-- New extra descriptors at the end of the table change no class that a
valid dex file names. -/
theorem DexFileData.Content_append {extra_descriptors added : List String} {data : DexFileData}
    (valid : data.Valid (data.num_type_ids + extra_descriptors.length)) :
    data.Content (extra_descriptors ++ added) = data.Content extra_descriptors := by
  have agree : ∀ type_index < data.num_type_ids + extra_descriptors.length,
      ClassNameOf (extra_descriptors ++ added) data.num_type_ids type_index =
        ClassNameOf extra_descriptors data.num_type_ids type_index := by
    intro type_index below
    unfold ClassNameOf
    split
    · rfl
    · rw [List.getD_append _ _ _ _ (by omega)]
  unfold DexFileData.Content
  rw [Finset.image_congr fun type_index member => agree type_index (valid.classes type_index member),
    MethodMapContent_congr valid.methods agree]

end Congruence

section AddClass

variable {name : Nat → ClassName} {bound : Nat}

/-- `AddClass` joins the class's singleton, as long as `name` tells apart
every index below `bound`. -/
theorem AddClass_Content
    (injective : Set.InjOn name (Set.Iio bound))
    {data : DexPcData}
    (valid : data.Valid bound)
    {type_index : Nat}
    (typeValid : type_index < bound) :
    (data.AddClass type_index).Content name =
      data.Content name ⊔ .ofFinset {name type_index} := by
  unfold DexPcData.AddClass
  by_cases missing : data.is_missing_types = true
  · rw [if_pos (by simp [missing])]
    simp only [DexPcData.Content, missing, if_true, top_sup_eq]
  by_cases megamorphic : data.is_megamorphic = true
  · simp [missing, megamorphic, DexPcData.Content]
  have plain : (data.is_megamorphic || data.is_missing_types) = false := by
    simp_all
  have named : data.Content name = .ofFinset (data.classes.image name) := by
    simp [DexPcData.Content, missing, megamorphic]
  rw [if_neg (by simp [plain]), named, ← CappedSet.ofFinset_union]
  by_cases present : type_index ∈ data.classes
  · rw [if_pos present, Finset.union_eq_left.mpr
      (Finset.singleton_subset_iff.mpr (Finset.mem_image_of_mem name present))]
    exact named
  rw [if_neg present]
  have fresh : name type_index ∉ data.classes.image name := by
    intro member
    obtain ⟨other, otherMember, same⟩ := Finset.mem_image.mp member
    exact present (injective (valid other otherMember) typeValid same ▸ otherMember)
  have grown : (data.classes.image name ∪ {name type_index}).card = data.classes.card + 1 := by
    rw [Finset.union_comm, ← Finset.insert_eq, Finset.card_insert_of_notMem fresh,
      Finset.card_image_of_injOn (injective.mono fun other member => valid other member)]
  split
  · rw [CappedSet.ofFinset_of_cap_lt (by unfold kIndividualInlineCacheSize at *; omega)]
    simp [DexPcData.Content, missing]
  · simp only [DexPcData.Content, missing, megamorphic, if_false, Bool.false_eq_true]
    rw [Finset.image_insert, Finset.insert_eq, Finset.union_comm]

theorem AddClass_valid {data : DexPcData} (valid : data.Valid bound) {type_index : Nat}
    (typeValid : type_index < bound) :
    (data.AddClass type_index).Valid bound := by
  unfold DexPcData.AddClass
  split_ifs
  · exact valid
  · exact valid
  · intro other member
    simp at member
  · intro other member
    rcases Finset.mem_insert.mp member with same | old
    · exact same ▸ typeValid
    · exact valid other old

/-- A run of `AddClass` joins the set of the classes it adds. -/
theorem foldl_AddClass_Content
    (injective : Set.InjOn name (Set.Iio bound)) :
    ∀ {data : DexPcData} {type_indexes : List Nat},
      data.Valid bound → (∀ type_index ∈ type_indexes, type_index < bound) →
        (type_indexes.foldl DexPcData.AddClass data).Content name =
            data.Content name ⊔ .ofFinset (type_indexes.map name).toFinset ∧
          (type_indexes.foldl DexPcData.AddClass data).Valid bound
  | data, [], valid, _ => by
      rw [List.foldl_nil, List.map_nil, List.toFinset_nil, CappedSet.ofFinset_empty,
        sup_bot_eq]
      exact ⟨rfl, valid⟩
  | data, type_index :: rest, valid, allValid => by
      have headValid := allValid type_index List.mem_cons_self
      have restValid := fun other member => allValid other (List.mem_cons_of_mem type_index member)
      obtain ⟨content, stillValid⟩ :=
        foldl_AddClass_Content injective (AddClass_valid valid headValid) restValid
      refine ⟨?_, stillValid⟩
      rw [List.foldl_cons, content, AddClass_Content injective valid headValid, sup_assoc,
        ← CappedSet.ofFinset_union, List.map_cons, List.toFinset_cons, Finset.insert_eq]

end AddClass

/-- The assumptions under which a merge computes the join of two contents:
`name` tells apart the indexes below `bound`, and `remap` sends each index of
the other profile below `otherBound` to an index below `bound` that names
the same class. -/
structure Translation (name otherName : Nat → ClassName) (bound otherBound : Nat)
    (remap : Nat → Option Nat) : Prop where
  injective : Set.InjOn name (Set.Iio bound)
  preserves : ∀ type_index < otherBound, ∀ new_index, remap type_index = some new_index →
    new_index < bound ∧ name new_index = otherName type_index

theorem image_eq_map_sort_toFinset {β : Type} [DecidableEq β] (set : Finset Nat) (read : Nat → β) :
    set.image read = ((set.sort (· ≤ ·)).map read).toFinset := by
  ext value
  simp [Finset.mem_sort]

section Merge

variable {name otherName : Nat → ClassName} {bound otherBound : Nat} {remap : Nat → Option Nat}

/-- Translating a set of the other profile's classes keeps the classes it
names. -/
theorem mapM_remap_sort
    (translation : Translation name otherName bound otherBound remap)
    {set : Finset Nat}
    (valid : ∀ type_index ∈ set, type_index < otherBound)
    {remapped : List Nat}
    (remaps : (set.sort (· ≤ ·)).mapM remap = some remapped) :
    (remapped.map name).toFinset = set.image otherName ∧ ∀ new_index ∈ remapped, new_index < bound := by
  have sortedValid : ∀ type_index ∈ set.sort (· ≤ ·), type_index < otherBound :=
    fun type_index member => valid type_index ((Finset.mem_sort _).mp member)
  constructor
  · rw [map_of_mapM_eq_some
      (fun type_index member new_index translates =>
        (translation.preserves type_index (sortedValid type_index member) new_index
          translates).2) remaps,
      ← image_eq_map_sort_toFinset]
  · intro new_index member
    obtain ⟨type_index, typeMember, translates⟩ := exists_of_mem_mapM remaps new_index member
    exact (translation.preserves type_index (sortedValid type_index typeMember) new_index
      translates).1

theorem Content_of_plain {name : Nat → ClassName} {data : DexPcData}
    (notMissing : data.is_missing_types ≠ true) (notMegamorphic : data.is_megamorphic ≠ true) :
    data.Content name = .ofFinset (data.classes.image name) := by
  simp [DexPcData.Content, notMissing, notMegamorphic]

theorem Content_sup_many {name : Nat → ClassName} (data : DexPcData) :
    (data.SetIsMegamorphic).Content name = data.Content name ⊔ .many := by
  unfold DexPcData.SetIsMegamorphic DexPcData.Content
  by_cases missing : data.is_missing_types = true
  · simp [missing]
  by_cases megamorphic : data.is_megamorphic = true
  · simp [missing, megamorphic]
  · simp [missing, megamorphic]

/-- Merging one dex pc's inline cache joins the two inline caches. -/
theorem MergeDexPcData_Content
    (translation : Translation name otherName bound otherBound remap)
    {data other merged : DexPcData}
    (valid : data.Valid bound)
    (otherValid : other.Valid otherBound)
    (merges : MergeDexPcData remap data other = some merged) :
    merged.Content name = data.Content name ⊔ other.Content otherName ∧ merged.Valid bound := by
  unfold MergeDexPcData at merges
  by_cases missing : other.is_missing_types = true
  · rw [if_pos missing] at merges
    cases merges
    refine ⟨?_, fun type_index member => by simp [DexPcData.SetIsMissingTypes] at member⟩
    simp [DexPcData.SetIsMissingTypes, DexPcData.Content, missing]
  by_cases megamorphic : other.is_megamorphic = true
  · rw [if_neg missing, if_pos megamorphic] at merges
    cases merges
    refine ⟨?_, ?_⟩
    · rw [Content_sup_many]
      simp [DexPcData.Content, missing, megamorphic]
    · unfold DexPcData.SetIsMegamorphic
      split
      · exact valid
      · intro type_index member
        simp at member
  rw [if_neg missing, if_neg megamorphic, foldlM_map_eq_mapM] at merges
  obtain ⟨remapped, remaps, added⟩ := Option.map_eq_some_iff.mp merges
  obtain ⟨names, remappedValid⟩ := mapM_remap_sort translation otherValid remaps
  obtain ⟨content, stillValid⟩ :=
    foldl_AddClass_Content translation.injective valid remappedValid
  rw [← added, content, names, Content_of_plain missing megamorphic]
  exact ⟨rfl, stillValid⟩

/-- A dex pc that `FindOrAddDexPc` adds starts at the bottom of the inline
cache lattice, so merging into it gives the other inline cache. -/
theorem FindOrAddDexPc_sup (entry : Option DexPcData) (joined : InlineCache) :
    (((FindOrAddDexPc entry).Content name ⊔ joined : InlineCache) : WithBot InlineCache) =
      (match entry with
        | none => (⊥ : WithBot InlineCache)
        | some data => ((data.Content name : InlineCache) : WithBot InlineCache)) ⊔
        (joined : WithBot InlineCache) := by
  cases entry with
  | none =>
      have emptyContent : (FindOrAddDexPc none).Content name = ⊥ := by
        simp [FindOrAddDexPc, DexPcData.empty, DexPcData.Content]
      rw [emptyContent, bot_sup_eq]
      exact (bot_sup_eq (joined : WithBot InlineCache)).symm
  | some data => exact WithBot.coe_sup _ _

/-- Merging one method's inline caches joins them dex pc by dex pc. -/
theorem MergeInlineCache_Content
    (translation : Translation name otherName bound otherBound remap)
    {inline_cache other merged : InlineCacheMap}
    (valid : InlineCacheMapValid bound inline_cache)
    (otherValid : InlineCacheMapValid otherBound other)
    (merges : MergeInlineCache remap inline_cache other = some merged) :
    InlineCacheMapContent name merged =
        InlineCacheMapContent name inline_cache ⊔ InlineCacheMapContent otherName other ∧
      InlineCacheMapValid bound merged := by
  have spec := updateEachM_spec (List.nodup_finRange _) merges
  have atDexPc : ∀ dex_pc,
      InlineCacheMapContent name merged dex_pc =
          InlineCacheMapContent name inline_cache dex_pc ⊔
            InlineCacheMapContent otherName other dex_pc ∧
        ∀ data, merged dex_pc = some data → data.Valid bound := by
    intro dex_pc
    have step := (spec dex_pc).1 (List.mem_finRange dex_pc)
    cases otherAt : other dex_pc with
    | none =>
        rw [otherAt, Option.some.injEq] at step
        refine ⟨?_, fun data present => valid dex_pc data (step.trans present)⟩
        simp only [InlineCacheMapContent, otherAt, ← step, sup_bot_eq]
    | some otherData =>
        rw [otherAt] at step
        obtain ⟨mergedData, mergesData, stored⟩ := Option.map_eq_some_iff.mp step
        have entryValid : (FindOrAddDexPc (inline_cache dex_pc)).Valid bound := by
          cases entry : inline_cache dex_pc with
          | none => intro type_index member; simp [FindOrAddDexPc, DexPcData.empty] at member
          | some data => exact valid dex_pc data entry
        obtain ⟨content, dataValid⟩ := MergeDexPcData_Content translation entryValid
          (otherValid dex_pc otherData otherAt) mergesData
        refine ⟨?_, fun data present => ?_⟩
        · simp only [InlineCacheMapContent, otherAt, ← stored, content, FindOrAddDexPc_sup]
        · rw [← stored, Option.some.injEq] at present
          exact present ▸ dataValid
  exact ⟨funext fun dex_pc => (atDexPc dex_pc).1, fun dex_pc => (atDexPc dex_pc).2⟩

/-- A method that `FindOrAddHotMethod` adds starts with no inline caches, so
merging into it gives the other method's inline caches. -/
theorem FindOrAddHotMethod_sup (entry : Option InlineCacheMap) (joined : InlineCacheContent) :
    ((InlineCacheMapContent name (entry.getD fun _ => none) ⊔ joined : InlineCacheContent) :
        WithBot InlineCacheContent) =
      (match entry with
        | none => (⊥ : WithBot InlineCacheContent)
        | some inline_cache =>
            ((InlineCacheMapContent name inline_cache : InlineCacheContent) :
              WithBot InlineCacheContent)) ⊔
        (joined : WithBot InlineCacheContent) := by
  cases entry with
  | none =>
      have emptyContent : InlineCacheMapContent name (fun _ => none) = ⊥ := rfl
      rw [Option.getD_none, emptyContent, bot_sup_eq]
      exact (bot_sup_eq (joined : WithBot InlineCacheContent)).symm
  | some inline_cache => exact WithBot.coe_sup _ _

/-- Merging one dex file's hot methods joins them method by method. -/
theorem MergeMethods_Content
    (translation : Translation name otherName bound otherBound remap)
    {num_method_ids : Nat}
    {method_map other merged : MethodMap}
    (valid : MethodMapValid bound method_map)
    (otherValid : MethodMapValid otherBound other)
    (merges : MergeMethods remap num_method_ids method_map other = some merged) :
    MethodMapContent name merged =
        MethodMapContent name method_map ⊔ MethodMapContent otherName other ∧
      MethodMapValid bound merged := by
  have spec := updateEachM_spec (List.nodup_finRange _) merges
  have atMethod : ∀ method_index,
      MethodMapContent name merged method_index =
          MethodMapContent name method_map method_index ⊔
            MethodMapContent otherName other method_index ∧
        ∀ inline_cache, merged method_index = some inline_cache →
          InlineCacheMapValid bound inline_cache := by
    intro method_index
    have step := (spec method_index).1 (List.mem_finRange method_index)
    cases otherAt : other method_index with
    | none =>
        rw [otherAt, Option.some.injEq] at step
        refine ⟨?_, fun inline_cache present => valid method_index inline_cache
          (step.trans present)⟩
        simp only [MethodMapContent, otherAt, ← step, sup_bot_eq]
    | some otherInlineCache =>
        simp only [otherAt, Option.bind_eq_bind] at step
        obtain ⟨entryCache, finds, rest⟩ := Option.bind_eq_some_iff.mp step
        obtain ⟨mergedCache, mergesCache, stored⟩ := Option.bind_eq_some_iff.mp rest
        rw [Option.pure_def, Option.some.injEq] at stored
        have found : entryCache = (method_map method_index).getD fun _ => none := by
          unfold DexFileData.FindOrAddHotMethod at finds
          split at finds
          · cases finds
          · exact (Option.some.inj finds).symm
        subst found
        have entryValid :
            InlineCacheMapValid bound ((method_map method_index).getD fun _ => none) := by
          cases entry : method_map method_index with
          | none => intro dex_pc data absent; cases absent
          | some inline_cache => exact valid method_index inline_cache entry
        obtain ⟨content, cacheValid⟩ := MergeInlineCache_Content translation entryValid
          (otherValid method_index otherInlineCache otherAt) mergesCache
        refine ⟨?_, fun inline_cache present => ?_⟩
        · simp only [MethodMapContent, otherAt, ← stored, content, FindOrAddHotMethod_sup]
        · rw [← stored, Option.some.injEq] at present
          exact present ▸ cacheValid
  exact ⟨funext fun method_index => (atMethod method_index).1,
    fun method_index => (atMethod method_index).2⟩

theorem foldl_insert_eq_union (init : Finset Nat) (elements : List Nat) :
    elements.foldl (fun set element => insert element set) init = init ∪ elements.toFinset := by
  induction elements generalizing init with
  | nil => simp
  | cons element rest inductionHypothesis =>
      rw [List.foldl_cons, inductionHypothesis, List.toFinset_cons, Finset.insert_eq,
        Finset.insert_eq, Finset.union_left_comm, Finset.union_assoc]

/-- Merging one dex file's classes unites them: the classes with a `TypeId`
keep their index, and the others are translated. -/
theorem MergeClasses_Content
    {extra_descriptors_remap : List Nat}
    {num_type_ids : Nat}
    (translation : Translation name otherName bound otherBound
      (RemapTypeIndex extra_descriptors_remap num_type_ids))
    (lowerSame : ∀ type_index < num_type_ids, name type_index = otherName type_index)
    (lowerBound : num_type_ids ≤ bound)
    {class_set other merged : Finset Nat}
    (valid : ∀ type_index ∈ class_set, type_index < bound)
    (otherValid : ∀ type_index ∈ other, type_index < otherBound)
    (merges : MergeClasses extra_descriptors_remap num_type_ids class_set other = some merged) :
    merged.image name = class_set.image name ∪ other.image otherName ∧
      ∀ type_index ∈ merged, type_index < bound := by
  unfold MergeClasses at merges
  rw [foldlM_map_eq_mapM] at merges
  obtain ⟨remapped, remaps, added⟩ := Option.map_eq_some_iff.mp merges
  have upperValid : ∀ type_index ∈ other.filter (num_type_ids ≤ ·), type_index < otherBound :=
    fun type_index member => otherValid type_index (Finset.mem_of_mem_filter type_index member)
  obtain ⟨names, remappedValid⟩ := mapM_remap_sort translation upperValid remaps
  have lowerNames : (other.filter (· < num_type_ids)).image name =
      (other.filter (· < num_type_ids)).image otherName :=
    Finset.image_congr fun type_index member =>
      lowerSame type_index (Finset.mem_filter.mp member).2
  have remappedNames : remapped.toFinset.image name = (remapped.map name).toFinset := by
    ext value
    simp
  have split : other.image otherName =
      (other.filter (· < num_type_ids)).image otherName ∪
        (other.filter (num_type_ids ≤ ·)).image otherName := by
    rw [← Finset.image_union]
    congr 1
    ext type_index
    simp only [Finset.mem_union, Finset.mem_filter]
    constructor
    · intro member
      exact (Nat.lt_or_ge type_index num_type_ids).imp (⟨member, ·⟩) (⟨member, ·⟩)
    · rintro (⟨member, _⟩ | ⟨member, _⟩) <;> exact member
  rw [← added, foldl_insert_eq_union]
  refine ⟨?_, fun type_index member => ?_⟩
  · rw [Finset.image_union, Finset.image_union, remappedNames, names, lowerNames, split,
      Finset.union_assoc]
  · rcases Finset.mem_union.mp member with old | new
    · rcases Finset.mem_union.mp old with kept | lower
      · exact valid type_index kept
      · exact ((Finset.mem_filter.mp lower).2).trans_le lowerBound
    · exact remappedValid type_index (List.mem_toFinset.mp new)

/-- Or-ing two bitmaps of one size sets each bit that either sets. -/
theorem BitmapBit_zipWith {bitmap other : List Nat} (sameSize : bitmap.length = other.length)
    (index : Nat) :
    BitmapBit (List.zipWith (· ||| ·) bitmap other) index =
      (BitmapBit bitmap index || BitmapBit other index) := by
  unfold BitmapBit
  rw [List.getD_eq_getElem?_getD, List.getD_eq_getElem?_getD, List.getD_eq_getElem?_getD,
    List.getElem?_zipWith]
  by_cases inside : index / 8 < bitmap.length
  · rw [List.getElem?_eq_getElem inside, List.getElem?_eq_getElem (sameSize ▸ inside)]
    simp [Nat.testBit_or]
  · rw [List.getElem?_eq_none (by omega), List.getElem?_eq_none (by omega)]
    simp

end Merge

/-- Merging one dex file's data keeps its key, its header and its version,
and or-s the two bitmaps over the shorter one's length. -/
theorem MergeDexFileData_frame
    {extra_descriptors_remap : List Nat} {merge_classes : Bool}
    {data other merged : DexFileData}
    (merges : MergeDexFileData extra_descriptors_remap merge_classes data other = some merged) :
    merged.profile_key = data.profile_key ∧ merged.Header = data.Header ∧
      merged.is_for_boot_image = data.is_for_boot_image ∧
      merged.bitmap_storage.length =
        min data.bitmap_storage.length other.bitmap_storage.length := by
  unfold MergeDexFileData at merges
  simp only [Option.bind_eq_bind] at merges
  -- with or without the classes, the dex file is rebuilt around the same fields
  split at merges
  all_goals
    obtain ⟨class_set, _, rest⟩ := Option.bind_eq_some_iff.mp merges
    obtain ⟨method_map, _, stored⟩ := Option.bind_eq_some_iff.mp rest
    rw [Option.pure_def, Option.some.injEq] at stored
    subst stored
    exact ⟨rfl, rfl, rfl, List.length_zipWith⟩

theorem ClassNameOf_of_lt {extra_descriptors : List String} {num_type_ids type_index : Nat}
    (below : type_index < num_type_ids) :
    ClassNameOf extra_descriptors num_type_ids type_index = .typeIndex type_index :=
  if_pos below

/-- Merging one dex file's data joins its content with the other profile's:
classes, hot methods with their inline caches, and method flags. -/
theorem MergeDexFileData_Content
    {extra_descriptors other_extra_descriptors : List String}
    {extra_descriptors_remap : List Nat}
    {data other merged : DexFileData}
    (translation : Translation (ClassNameOf extra_descriptors data.num_type_ids)
      (ClassNameOf other_extra_descriptors data.num_type_ids)
      (data.num_type_ids + extra_descriptors.length)
      (data.num_type_ids + other_extra_descriptors.length)
      (RemapTypeIndex extra_descriptors_remap data.num_type_ids))
    (sameTypes : other.num_type_ids = data.num_type_ids)
    (sameSize : data.bitmap_storage.length = other.bitmap_storage.length)
    (valid : data.Valid (data.num_type_ids + extra_descriptors.length))
    (otherValid : other.Valid (other.num_type_ids + other_extra_descriptors.length))
    (merges : MergeDexFileData extra_descriptors_remap true data other = some merged) :
    merged.Content extra_descriptors =
        data.Content extra_descriptors ⊔ other.Content other_extra_descriptors ∧
      merged.Valid (data.num_type_ids + extra_descriptors.length) := by
  rw [sameTypes] at otherValid
  unfold MergeDexFileData at merges
  simp only [if_true, Option.bind_eq_bind] at merges
  obtain ⟨class_set, mergesClasses, rest⟩ := Option.bind_eq_some_iff.mp merges
  obtain ⟨method_map, mergesMethods, stored⟩ := Option.bind_eq_some_iff.mp rest
  rw [Option.pure_def, Option.some.injEq] at stored
  subst stored
  have lowerSame : ∀ type_index < data.num_type_ids,
      ClassNameOf extra_descriptors data.num_type_ids type_index =
        ClassNameOf other_extra_descriptors data.num_type_ids type_index :=
    fun type_index below => by rw [ClassNameOf_of_lt below, ClassNameOf_of_lt below]
  obtain ⟨classes, classesValid⟩ := MergeClasses_Content translation lowerSame
    (Nat.le_add_right _ _) valid.classes otherValid.classes mergesClasses
  obtain ⟨methods, methodsValid⟩ := MergeMethods_Content translation valid.methods
    otherValid.methods mergesMethods
  refine ⟨?_, classesValid, methodsValid⟩
  simp only [DexFileData.Content, DexFileData.MergeBitmap, sameTypes, Prod.mk_sup_mk,
    Finset.sup_eq_union, classes, methods]
  refine Prod.ext rfl (Prod.ext rfl (funext fun index => ?_))
  dsimp only
  rw [BitmapBit_zipWith sameSize, Pi.sup_apply]
  cases BitmapBit data.bitmap_storage index <;> cases BitmapBit other.bitmap_storage index <;> rfl

end ArtRuntime.Profile
