import ArtRuntime.ProfileMerge

namespace ArtRuntime.Profile

open ArtRuntime.OptionLoop

/-!
# When `MergeWith` succeeds

`MergeWith` fails when the other profile does not fit: a dex file past
`MaxProfileIndex`, an extra descriptor past `kMaxExtraDescriptors`, a class
whose translated index the 16-bit type index cannot hold, or a hot method
past its dex file's method count; and it refuses profiles of another version
or with another checksum for a shared key.  This module proves that these are
the only failures: a merge of well-formed profiles that fit together
succeeds, so the join of `mergeWith_is_semilattice_join` is reached.
-/

/-- What a well-formed profile needs of another one for `MergeWith` to
succeed. -/
structure Mergeable (profile other : ProfileCompilationInfo) : Prop where
  same_version : profile.for_boot_image = other.for_boot_image
  same_header : ∀ data ∈ profile.info_, ∀ other_data ∈ other.info_,
    data.profile_key = other_data.profile_key → data.Header = other_data.Header
  dex_files_fit : profile.info_.length + other.info_.length ≤ MaxProfileIndex
  descriptors_fit :
    profile.extra_descriptors_.length + other.extra_descriptors_.length ≤ kMaxExtraDescriptors
  types_fit : ∀ other_data ∈ other.info_,
    other_data.num_type_ids + profile.extra_descriptors_.length +
      other.extra_descriptors_.length ≤ kDexNoIndex16
  hot_methods : ∀ other_data ∈ other.info_, ∀ method_index,
    other_data.method_map method_index ≠ none → method_index.val < other_data.num_method_ids

section DexFile

variable {remap : Nat → Option Nat} {bound : Nat}

theorem mapM_sort_succeeds
    (covers : ∀ type_index < bound, ∃ new_index, remap type_index = some new_index)
    {set : Finset Nat}
    (valid : ∀ type_index ∈ set, type_index < bound) :
    ∃ remapped, (set.sort (· ≤ ·)).mapM remap = some remapped :=
  exists_mapM_eq_some fun type_index member =>
    covers type_index (valid type_index ((Finset.mem_sort _).mp member))

theorem MergeDexPcData_succeeds
    (covers : ∀ type_index < bound, ∃ new_index, remap type_index = some new_index)
    (data : DexPcData)
    {other : DexPcData}
    (otherValid : other.Valid bound) :
    ∃ merged, MergeDexPcData remap data other = some merged := by
  unfold MergeDexPcData
  split
  · exact ⟨_, rfl⟩
  split
  · exact ⟨_, rfl⟩
  rw [foldlM_map_eq_mapM]
  obtain ⟨remapped, remaps⟩ := mapM_sort_succeeds covers otherValid
  exact ⟨_, by rw [remaps, Option.map_some]⟩

theorem MergeInlineCache_succeeds
    (covers : ∀ type_index < bound, ∃ new_index, remap type_index = some new_index)
    (inline_cache : InlineCacheMap)
    {other : InlineCacheMap}
    (otherValid : InlineCacheMapValid bound other) :
    ∃ merged, MergeInlineCache remap inline_cache other = some merged := by
  refine exists_updateEachM_eq_some (fun dex_pc _ entry => ?_) inline_cache
  cases otherAt : other dex_pc with
  | none => exact ⟨entry, rfl⟩
  | some otherData =>
      obtain ⟨merged, merges⟩ := MergeDexPcData_succeeds covers (FindOrAddDexPc entry)
        (otherValid dex_pc otherData otherAt)
      exact ⟨some merged, by simp only [merges, Option.map_some]⟩

/-- The hot methods merge when every hot method of the other profile is a
method of the dex file. -/
theorem MergeMethods_succeeds
    (covers : ∀ type_index < bound, ∃ new_index, remap type_index = some new_index)
    {num_method_ids : Nat}
    (method_map : MethodMap)
    {other : MethodMap}
    (otherValid : MethodMapValid bound other)
    (hot : ∀ method_index, other method_index ≠ none → method_index.val < num_method_ids) :
    ∃ merged, MergeMethods remap num_method_ids method_map other = some merged := by
  refine exists_updateEachM_eq_some (fun method_index _ entry => ?_) method_map
  cases otherAt : other method_index with
  | none => exact ⟨entry, rfl⟩
  | some otherInlineCache =>
      have inside : method_index.val < num_method_ids := hot method_index (by simp [otherAt])
      have finds : DexFileData.FindOrAddHotMethod num_method_ids method_index entry =
          some (entry.getD fun _ => none) :=
        if_neg (Nat.not_le.mpr inside)
      obtain ⟨merged, merges⟩ := MergeInlineCache_succeeds covers (entry.getD fun _ => none)
        (otherValid method_index otherInlineCache otherAt)
      exact ⟨some merged, by simp only [finds, merges, Option.bind_eq_bind, Option.bind_some,
        Option.pure_def]⟩

theorem MergeClasses_succeeds
    {extra_descriptors_remap : List Nat}
    {num_type_ids : Nat}
    (covers : ∀ type_index < bound, ∃ new_index,
      RemapTypeIndex extra_descriptors_remap num_type_ids type_index = some new_index)
    (class_set : Finset Nat)
    {other : Finset Nat}
    (otherValid : ∀ type_index ∈ other, type_index < bound) :
    ∃ merged, MergeClasses extra_descriptors_remap num_type_ids class_set other = some merged := by
  unfold MergeClasses
  rw [foldlM_map_eq_mapM]
  obtain ⟨remapped, remaps⟩ := mapM_sort_succeeds covers
    fun type_index (member : type_index ∈ other.filter (num_type_ids ≤ ·)) =>
      otherValid type_index (Finset.mem_of_mem_filter type_index member)
  exact ⟨_, by rw [remaps, Option.map_some]⟩

/-- `RemapTypeIndex` translates every class of a dex file of the other
profile when the remap of the descriptors covers the other profile's
descriptors with indexes that fit after the dex file's types. -/
theorem RemapTypeIndex_succeeds
    {extra_descriptors_remap : List Nat}
    {num_type_ids type_index : Nat}
    (inside : type_index < num_type_ids + extra_descriptors_remap.length)
    (fits : ∀ new_index ∈ extra_descriptors_remap, num_type_ids + new_index < kDexNoIndex16) :
    ∃ new_index, RemapTypeIndex extra_descriptors_remap num_type_ids type_index = some new_index := by
  unfold RemapTypeIndex
  split
  · have position : type_index - num_type_ids < extra_descriptors_remap.length := by omega
    have fit := fits _ (List.getElem_mem position)
    refine ⟨num_type_ids + extra_descriptors_remap[type_index - num_type_ids], ?_⟩
    rw [List.getElem?_eq_getElem position, Option.bind_eq_bind, Option.bind_some,
      if_neg (by omega)]
  · exact ⟨type_index, rfl⟩

/-- Merging one dex file of the other profile into an entry with the same
type count succeeds when its classes translate and its hot methods are
methods of the entry. -/
theorem MergeDexFileData_succeeds
    {extra_descriptors_remap : List Nat}
    {other_extra_descriptors : List String}
    {data other : DexFileData}
    (sameTypes : data.num_type_ids = other.num_type_ids)
    (remapLength : extra_descriptors_remap.length = other_extra_descriptors.length)
    (fits : ∀ new_index ∈ extra_descriptors_remap,
      other.num_type_ids + new_index < kDexNoIndex16)
    (otherValid : other.Valid (other.num_type_ids + other_extra_descriptors.length))
    (hot : ∀ method_index, other.method_map method_index ≠ none →
      method_index.val < data.num_method_ids) :
    ∃ merged, MergeDexFileData extra_descriptors_remap true data other = some merged := by
  have covers : ∀ type_index < other.num_type_ids + other_extra_descriptors.length,
      ∃ new_index, RemapTypeIndex extra_descriptors_remap data.num_type_ids type_index =
        some new_index :=
    fun type_index inside =>
      RemapTypeIndex_succeeds (by omega) fun new_index member => sameTypes ▸ fits new_index member
  obtain ⟨class_set, mergesClasses⟩ :=
    MergeClasses_succeeds covers data.class_set otherValid.classes
  obtain ⟨method_map, mergesMethods⟩ :=
    MergeMethods_succeeds covers data.method_map otherValid.methods hot
  unfold MergeDexFileData
  simp only [if_true, mergesClasses, mergesMethods, Option.bind_eq_bind, Option.bind_some,
    Option.pure_def]
  exact ⟨_, rfl⟩

end DexFile

section RemapLoops

open ProfileCompilationInfo

/-- `GetOrAddDexFileData` succeeds for a dex file whose key, if the profile
has it, has the same header there, while the profile has room for a new
entry. -/
theorem GetOrAddDexFileData_succeeds
    {profile : ProfileCompilationInfo}
    {other_data : DexFileData}
    (sameHeader : ∀ data ∈ profile.info_,
      data.profile_key = other_data.profile_key → data.Header = other_data.Header)
    (room : profile.info_.length < MaxProfileIndex) :
    ∃ profile' index, profile.GetOrAddDexFileData other_data.profile_key other_data.checksum
      other_data.num_type_ids other_data.num_method_ids = some (profile', index) := by
  unfold GetOrAddDexFileData
  cases search : profile.info_.findIdx? (·.profile_key == other_data.profile_key) with
  | some position =>
      obtain ⟨inside, keyed, _⟩ := List.findIdx?_eq_some_iff_getElem.mp search
      have header := sameHeader _ (List.getElem_mem inside) (by simpa using keyed)
      simp only [DexFileData.Header, DexFileHeader.mk.injEq] at header
      refine ⟨profile, position, ?_⟩
      simp only [Option.bind_eq_bind, Option.bind_some, List.getElem?_eq_getElem inside, header,
        ne_eq, not_true_eq_false, or_self, if_false]
  | none =>
      refine ⟨{ profile with info_ := profile.info_ ++ [DexFileData.create other_data.profile_key
        other_data.checksum other_data.num_type_ids other_data.num_method_ids
        profile.for_boot_image] }, profile.info_.length, ?_⟩
      simp only [Nat.ne_of_lt room, if_false, Option.bind_eq_bind, Option.bind_some,
        List.getElem?_append_right (Nat.le_refl _), Nat.sub_self, List.getElem?_cons_zero]
      simp [DexFileData.create]

/-- The loop that builds `dex_profile_index_remap` succeeds over dex files of
distinct keys that agree on their header with the profile, while the profile
has room for all of them. -/
theorem RemapDexFiles_succeeds :
    ∀ {others : List DexFileData} {profile : ProfileCompilationInfo} (remap : List Nat),
      (others.map (·.profile_key)).Nodup →
      (∀ data ∈ profile.info_, ∀ other_data ∈ others,
        data.profile_key = other_data.profile_key → data.Header = other_data.Header) →
      profile.info_.length + others.length ≤ MaxProfileIndex →
      ∃ result, others.foldlM RemapDexFile (profile, remap) = some result
  | [], _, remap, _, _, _ => ⟨_, rfl⟩
  | other_data :: rest, profile, remap, nodup, sameHeader, room => by
      obtain ⟨otherFresh, restNodup⟩ := List.nodup_cons.mp nodup
      rw [List.length_cons] at room
      obtain ⟨profile₁, index, adds⟩ := GetOrAddDexFileData_succeeds
        (fun data member => sameHeader data member other_data List.mem_cons_self) (by omega)
      obtain ⟨_, _, grown, _⟩ := GetOrAddDexFileData_spec adds
      -- the entry added for this dex file has a key that no later dex file has
      have restHeader : ∀ data ∈ profile₁.info_, ∀ later ∈ rest,
          data.profile_key = later.profile_key → data.Header = later.Header := by
        intro data member later laterMember same
        rcases grown with kept | ⟨appended, _⟩
        · exact sameHeader data (kept ▸ member) later (List.mem_cons_of_mem _ laterMember) same
        · rw [appended] at member
          rcases List.mem_append.mp member with old | new
          · exact sameHeader data old later (List.mem_cons_of_mem _ laterMember) same
          · rw [List.mem_singleton] at new
            subst new
            exact absurd (List.mem_map.mpr ⟨later, laterMember, same.symm⟩) otherFresh
      have restRoom : profile₁.info_.length + rest.length ≤ MaxProfileIndex := by
        rcases grown with kept | ⟨appended, _⟩
        · rw [kept]
          omega
        · rw [appended, List.length_append, List.length_singleton]
          omega
      have step : RemapDexFile (profile, remap) other_data = some (profile₁, remap ++ [index]) := by
        unfold RemapDexFile
        simp only [Option.bind_eq_bind, adds, Option.bind_some, Option.pure_def]
      rw [List.foldlM_cons, step, Option.bind_eq_bind, Option.bind_some]
      exact RemapDexFiles_succeeds (remap ++ [index]) restNodup restHeader restRoom

/-- The loop that builds `extra_descriptors_remap` succeeds while the table
has room for every descriptor of the other profile, and adds at most one
descriptor per descriptor of the other profile. -/
theorem RemapExtraDescriptors_succeeds :
    ∀ {descriptors : List String} {profile : ProfileCompilationInfo} (remap : List Nat),
      profile.extra_descriptors_.length + descriptors.length ≤ kMaxExtraDescriptors →
      ∃ profile' remap',
        descriptors.foldlM RemapExtraDescriptor (profile, remap) = some (profile', remap') ∧
        profile'.extra_descriptors_.length ≤
          profile.extra_descriptors_.length + descriptors.length
  | [], profile, remap, _ => ⟨profile, remap, rfl, Nat.le_add_right _ _⟩
  | descriptor :: rest, profile, remap, room => by
      rw [List.length_cons] at room
      have step : ∃ profile₁ index,
          RemapExtraDescriptor (profile, remap) descriptor = some (profile₁, remap ++ [index]) ∧
          profile₁.extra_descriptors_.length ≤ profile.extra_descriptors_.length + 1 := by
        unfold RemapExtraDescriptor
        dsimp only
        cases search : profile.extra_descriptors_.idxOf? descriptor with
        | some index => exact ⟨profile, index, rfl, Nat.le_add_right _ _⟩
        | none =>
            have notFull : profile.extra_descriptors_.length ≠ kMaxExtraDescriptors := by omega
            refine ⟨{ profile with
              extra_descriptors_ := profile.extra_descriptors_ ++ [descriptor] },
              profile.extra_descriptors_.length, ?_, by simp⟩
            simp only [AddExtraDescriptor, notFull, if_false]
      obtain ⟨profile₁, index, steps, grown⟩ := step
      obtain ⟨profile', remap', loops, bounded⟩ :=
        RemapExtraDescriptors_succeeds (remap ++ [index]) (by omega : profile₁.extra_descriptors_.length + rest.length ≤ kMaxExtraDescriptors)
      refine ⟨profile', remap', ?_, by rw [List.length_cons]; omega⟩
      rw [List.foldlM_cons, steps, Option.bind_eq_bind, Option.bind_some]
      exact loops

end RemapLoops

section MergeLoop

open ProfileCompilationInfo

variable {extra_descriptors_remap : List Nat}

/-- The last loop of `MergeWith` succeeds over dex files of distinct keys
that each point at an entry of their key into which they merge. -/
theorem foldlM_MergeDexFileEntry_succeeds :
    ∀ {pairs : List (DexFileData × Nat)} {info : List DexFileData},
      (pairs.map (·.1.profile_key)).Nodup →
      (∀ pair ∈ pairs, ∃ data, info[pair.2]? = some data ∧
        data.profile_key = pair.1.profile_key ∧
        ∃ merged, MergeDexFileData extra_descriptors_remap true data pair.1 = some merged) →
      ∃ info', pairs.foldlM (MergeDexFileEntry extra_descriptors_remap true) info = some info'
  | [], info, _, _ => ⟨info, rfl⟩
  | (other, index) :: rest, info, pairKeys, pointed => by
      obtain ⟨data, present, pointedKey, merged, merges⟩ :=
        pointed (other, index) List.mem_cons_self
      have otherFresh : ∀ pair ∈ rest, pair.1.profile_key ≠ other.profile_key :=
        fun pair member same =>
          (List.nodup_cons.mp pairKeys).1 (List.mem_map.mpr ⟨pair, member, same⟩)
      -- the later dex files point at entries of other keys, which this step keeps
      have restPointed : ∀ pair ∈ rest, ∃ data, (info.set index merged)[pair.2]? = some data ∧
          data.profile_key = pair.1.profile_key ∧
          ∃ merged, MergeDexFileData extra_descriptors_remap true data pair.1 = some merged := by
        intro pair member
        obtain ⟨restData, restAt, restKey, restMerges⟩ :=
          pointed pair (List.mem_cons_of_mem _ member)
        exact ⟨restData, getElem?_set_of_key_ne present restAt fun same =>
          otherFresh pair member (restKey.symm.trans (same.trans pointedKey)), restKey, restMerges⟩
      have step : MergeDexFileEntry extra_descriptors_remap true info (other, index) =
          some (info.set index merged) := by
        unfold MergeDexFileEntry
        simp only [present, merges, Option.bind_eq_bind, Option.bind_some, Option.pure_def]
      rw [List.foldlM_cons, step, Option.bind_eq_bind, Option.bind_some]
      exact foldlM_MergeDexFileEntry_succeeds (List.nodup_cons.mp pairKeys).2 restPointed

end MergeLoop

/-- Every index that the remap of the descriptors gives is an index of the
merged table. -/
theorem lt_length_of_mem_remap
    {extra_descriptors other_extra_descriptors : List String}
    {extra_descriptors_remap : List Nat}
    (length : extra_descriptors_remap.length = other_extra_descriptors.length)
    (pointed : ∀ pair ∈ other_extra_descriptors.zip extra_descriptors_remap,
      extra_descriptors[pair.2]? = some pair.1) :
    ∀ new_index ∈ extra_descriptors_remap, new_index < extra_descriptors.length := by
  intro new_index member
  obtain ⟨position, atPosition⟩ := List.mem_iff_getElem?.mp member
  have inside : position < other_extra_descriptors.length :=
    length ▸ (List.getElem?_eq_some_iff.mp atPosition).1
  have pairMember : (other_extra_descriptors[position], new_index) ∈
      other_extra_descriptors.zip extra_descriptors_remap :=
    List.mem_iff_getElem?.mpr ⟨position, List.getElem?_zip_eq_some.mpr
      ⟨List.getElem?_eq_getElem inside, atPosition⟩⟩
  exact (List.getElem?_eq_some_iff.mp (pointed _ pairMember)).1

namespace ProfileCompilationInfo

/-- Profiles that agree on the header of every shared key pass the checksum
loop of `MergeWith`. -/
theorem ChecksumMismatch_eq_false {profile other : ProfileCompilationInfo}
    (wellFormed : profile.WellFormed)
    (sameHeader : ∀ data ∈ profile.info_, ∀ other_data ∈ other.info_,
      data.profile_key = other_data.profile_key → data.Header = other_data.Header) :
    profile.ChecksumMismatch other = false := by
  unfold ChecksumMismatch
  rw [List.any_eq_false]
  intro other_data member
  cases found : profile.FindDexData other_data.profile_key with
  | none => simp
  | some data =>
      obtain ⟨dataMember, keyed⟩ := (FindDexData_eq_some_iff wellFormed).mp found
      have sameChecksum : data.checksum = other_data.checksum :=
        congrArg DexFileHeader.checksum (sameHeader data dataMember other_data member keyed)
      simp [sameChecksum]

/-- `MergeWith` of two well-formed profiles that fit together succeeds. -/
theorem MergeWith_succeeds {profile other : ProfileCompilationInfo}
    (wellFormed : profile.WellFormed)
    (otherWellFormed : other.WellFormed)
    (mergeable : Mergeable profile other) :
    ∃ merged, profile.MergeWith other true = some merged := by
  have sameVersion : profile.SameVersion other = true := by
    simp [SameVersion, mergeable.same_version]
  have noMismatch := ChecksumMismatch_eq_false wellFormed mergeable.same_header
  obtain ⟨⟨dexFiles, remap⟩, remapsDexFiles⟩ : ∃ result, profile.RemapDexFiles other = some result :=
    RemapDexFiles_succeeds [] otherWellFormed.keys_nodup mergeable.same_header
      mergeable.dex_files_fit
  obtain ⟨_, descriptors₁, _, _, indexes, remapped, length, pointed⟩ :=
    foldlM_RemapDexFile remapsDexFiles
  rw [List.nil_append] at remapped
  subst remapped
  obtain ⟨descriptors, extra_descriptors_remap, remapsDescriptors, bounded⟩ :
      ∃ descriptors extra_descriptors_remap,
        dexFiles.RemapExtraDescriptors other = some (descriptors, extra_descriptors_remap) ∧
        descriptors.extra_descriptors_.length ≤
          dexFiles.extra_descriptors_.length + other.extra_descriptors_.length :=
    RemapExtraDescriptors_succeeds [] (by rw [descriptors₁]; exact mergeable.descriptors_fit)
  obtain ⟨info₂, _, _, _, descriptorIndexes, remapped₂, length₂, pointed₂⟩ :=
    foldlM_RemapExtraDescriptor remapsDescriptors
  rw [List.nil_append] at remapped₂
  subst remapped₂
  rw [descriptors₁] at bounded
  -- every translated class index fits after the types of its dex file
  have fits : ∀ other_data ∈ other.info_, ∀ new_index ∈ extra_descriptors_remap,
      other_data.num_type_ids + new_index < kDexNoIndex16 := by
    intro other_data member new_index indexMember
    have below := lt_length_of_mem_remap length₂ pointed₂ new_index indexMember
    have fit := mergeable.types_fit other_data member
    omega
  have pointedPairs : ∀ pair ∈ other.info_.zip remap, ∃ data,
      descriptors.info_[pair.2]? = some data ∧ data.profile_key = pair.1.profile_key ∧
      ∃ merged, MergeDexFileData extra_descriptors_remap true data pair.1 = some merged := by
    intro pair member
    obtain ⟨data, atIndex, keyed, header⟩ := pointed pair member
    have otherMember := (List.of_mem_zip member).1
    have sameMethods : data.num_method_ids = pair.1.num_method_ids :=
      congrArg DexFileHeader.num_method_ids header
    refine ⟨data, by rw [info₂]; exact atIndex, keyed, MergeDexFileData_succeeds
      (congrArg DexFileHeader.num_type_ids header) length₂ (fits pair.1 otherMember)
      (otherWellFormed.valid pair.1 otherMember) fun method_index hot => ?_⟩
    rw [sameMethods]
    exact mergeable.hot_methods pair.1 otherMember method_index hot
  have pairKeys : ((other.info_.zip remap).map (·.1.profile_key)).Nodup := by
    rw [map_profile_key_zip (by omega)]
    exact otherWellFormed.keys_nodup
  obtain ⟨info, loops⟩ := foldlM_MergeDexFileEntry_succeeds pairKeys pointedPairs
  refine ⟨{ descriptors with info_ := info }, ?_⟩
  unfold MergeWith
  simp only [sameVersion, noMismatch, Bool.not_true, Bool.false_eq_true, if_false,
    Option.bind_eq_bind, remapsDexFiles, remapsDescriptors, Option.bind_some, loops,
    Option.pure_def]

end ProfileCompilationInfo

/-- One dex file `base.apk` of two types and one method, with the class of
type 0 and the class `LFoo;`, an extra descriptor. -/
def baseProfile : ProfileCompilationInfo where
  for_boot_image := false
  info_ := [{
    profile_key := "base.apk"
    checksum := 1
    num_type_ids := 2
    num_method_ids := 1
    is_for_boot_image := false
    method_map := fun _ => none
    class_set := {0, 2}
    bitmap_storage := [1] }]
  extra_descriptors_ := ["LFoo;"]

/-- The same dex file with the classes of type 1, `LBar;` and `LFoo;`, under
other extra-descriptor indexes, and method 0 hot with type 1 and `LFoo;` at
dex pc 0. -/
def otherProfile : ProfileCompilationInfo where
  for_boot_image := false
  info_ := [{
    profile_key := "base.apk"
    checksum := 1
    num_type_ids := 2
    num_method_ids := 1
    is_for_boot_image := false
    method_map := fun method_index =>
      if method_index = 0 then
        some fun dex_pc => if dex_pc = 0 then some ⟨false, false, {1, 3}⟩ else none
      else none
    class_set := {1, 2, 3}
    bitmap_storage := [2] }]
  extra_descriptors_ := ["LBar;", "LFoo;"]

theorem baseProfile_wellFormed : baseProfile.WellFormed where
  keys_nodup := by simp [baseProfile]
  descriptors_nodup := by simp [baseProfile]
  valid := by
    intro data member
    simp only [baseProfile, List.mem_singleton] at member
    subst member
    exact ⟨by decide, fun _ _ absent => by cases absent⟩
  bitmaps := by
    intro data member
    simp only [baseProfile, List.mem_singleton] at member
    subst member
    decide

theorem otherProfile_wellFormed : otherProfile.WellFormed where
  keys_nodup := by simp [otherProfile]
  descriptors_nodup := by simp [otherProfile]
  valid := by
    intro data member
    simp only [otherProfile, List.mem_singleton] at member
    subst member
    refine ⟨by decide, fun method_index inline_cache hot dex_pc dex_pc_data atDexPc => ?_⟩
    dsimp only at hot
    split at hot
    · cases hot
      dsimp only at atDexPc
      split at atDexPc
      · cases atDexPc
        unfold DexPcData.Valid
        decide
      · cases atDexPc
    · cases hot
  bitmaps := by
    intro data member
    simp only [otherProfile, List.mem_singleton] at member
    subst member
    decide

theorem otherProfile_hot_methods : ∀ other_data ∈ otherProfile.info_, ∀ method_index,
    other_data.method_map method_index ≠ none → method_index.val < other_data.num_method_ids := by
  intro other_data member method_index hot
  simp only [otherProfile, List.mem_singleton] at member
  subst member
  dsimp only at hot ⊢
  split at hot
  · rename_i first
    simp [first]
  · exact absurd rfl hot

/-- Merged either way, the two profiles have one content, although the
extra descriptors `LBar;` and `LFoo;` get other indexes in each. -/
theorem mergeWith_baseProfile_otherProfile_comm :
    ∃ baseOther otherBase : ProfileCompilationInfo,
      baseProfile.MergeWith otherProfile true = some baseOther ∧
      otherProfile.MergeWith baseProfile true = some otherBase ∧
      baseOther.Content = otherBase.Content := by
  have sameHeader : ∀ data ∈ baseProfile.info_, ∀ other_data ∈ otherProfile.info_,
      data.profile_key = other_data.profile_key → data.Header = other_data.Header := by
    intro data member other_data otherMember _
    simp only [baseProfile, otherProfile, List.mem_singleton] at member otherMember
    subst member otherMember
    rfl
  have forward : Mergeable baseProfile otherProfile :=
    ⟨rfl, sameHeader, by decide, by decide, by simp [otherProfile, baseProfile, kDexNoIndex16],
      otherProfile_hot_methods⟩
  have backward : Mergeable otherProfile baseProfile :=
    ⟨rfl, fun other_data otherMember data member same =>
      (sameHeader data member other_data otherMember same.symm).symm, by decide, by decide,
      by simp [otherProfile, baseProfile, kDexNoIndex16], fun data member method_index hot => by
        simp only [baseProfile, List.mem_singleton] at member
        subst member
        exact absurd rfl hot⟩
  obtain ⟨baseOther, mergesForward⟩ :=
    ProfileCompilationInfo.MergeWith_succeeds baseProfile_wellFormed otherProfile_wellFormed forward
  obtain ⟨otherBase, mergesBackward⟩ :=
    ProfileCompilationInfo.MergeWith_succeeds otherProfile_wellFormed baseProfile_wellFormed backward
  exact ⟨baseOther, otherBase, mergesForward, mergesBackward,
    mergeWith_is_semilattice_join.2.1 baseProfile otherProfile baseOther otherBase
      baseProfile_wellFormed otherProfile_wellFormed mergesForward mergesBackward⟩

end ArtRuntime.Profile
