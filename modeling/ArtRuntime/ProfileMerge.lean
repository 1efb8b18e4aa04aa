import ArtRuntime.ProfileContent

namespace ArtRuntime.Profile

open ArtRuntime.Lattice ArtRuntime.OptionLoop

/-!
# `MergeWith` is a semilattice join

The content of a profile (`ProfileContent`) keys each dex file by its
profile key and names each class by its type index or descriptor, so it
forgets the order in which dex files and extra descriptors were first seen.
Two contents merge by uniting their dex files and joining their data key by
key; the merge is commutative for consistent contents (same version, same
checksum and sizes for a key both have), associative, and idempotent.

`MergeWith_Content` proves that a successful `MergeWith` of two well-formed
profiles is well formed and has the merge of their contents as content.
-/

/-- What a profile says, without indexes. -/
structure ProfileContent where
  for_boot_image : Bool
  dex_files : String → Option DexFileHeader
  dex_data : String → DexContent

namespace ProfileContent

/-- The union of the dex files and the key-by-key join of their data. -/
def merge (content other : ProfileContent) : ProfileContent where
  for_boot_image := content.for_boot_image
  dex_files key := (content.dex_files key).or (other.dex_files key)
  dex_data := content.dex_data ⊔ other.dex_data

/-- Two contents that agree on their version and on every dex file both
record. -/
structure Consistent (content other : ProfileContent) : Prop where
  same_version : content.for_boot_image = other.for_boot_image
  same_header : ∀ key header otherHeader, content.dex_files key = some header →
    other.dex_files key = some otherHeader → header = otherHeader

theorem merge_assoc (first second third : ProfileContent) :
    (first.merge second).merge third = first.merge (second.merge third) := by
  simp only [merge, Option.or_assoc, sup_assoc]

theorem merge_self (content : ProfileContent) : content.merge content = content := by
  simp only [merge, Option.or_self, sup_idem]

theorem merge_comm {content other : ProfileContent} (consistent : Consistent content other) :
    content.merge other = other.merge content := by
  have dexFiles : ∀ key, (content.dex_files key).or (other.dex_files key) =
      (other.dex_files key).or (content.dex_files key) := by
    intro key
    cases first : content.dex_files key with
    | none => cases other.dex_files key <;> rfl
    | some header =>
        cases second : other.dex_files key with
        | none => rfl
        | some otherHeader =>
            rw [consistent.same_header key header otherHeader first second]
  simp only [merge, consistent.same_version, dexFiles, sup_comm content.dex_data]

end ProfileContent

namespace ProfileCompilationInfo

/-- The content of a profile. -/
def Content (profile : ProfileCompilationInfo) : ProfileContent where
  for_boot_image := profile.for_boot_image
  dex_files key := (profile.FindDexData key).map DexFileData.Header
  dex_data key :=
    match profile.FindDexData key with
    | none => ⊥
    | some data => data.Content profile.extra_descriptors_

/-- What the profile's indexes keep true: one entry per key, one index per
extra descriptor, every class index naming a type or an extra descriptor,
and bitmaps of the size the version gives. -/
structure WellFormed (profile : ProfileCompilationInfo) : Prop where
  keys_nodup : (profile.info_.map (·.profile_key)).Nodup
  descriptors_nodup : profile.extra_descriptors_.Nodup
  valid : ∀ data ∈ profile.info_,
    data.Valid (data.num_type_ids + profile.extra_descriptors_.length)
  bitmaps : ∀ data ∈ profile.info_, data.bitmap_storage.length =
    DexFileData.ComputeBitmapStorage profile.for_boot_image data.num_method_ids

end ProfileCompilationInfo

section Lookup

variable {info : List DexFileData} {key : String}

/-- With one entry per key, the search by key finds exactly the entry with
that key. -/
theorem find?_key_eq_some_iff
    (nodup : (info.map (·.profile_key)).Nodup)
    {data : DexFileData} :
    info.find? (·.profile_key == key) = some data ↔ data ∈ info ∧ data.profile_key = key := by
  constructor
  · intro found
    exact ⟨List.mem_of_find?_eq_some found, by simpa using List.find?_some found⟩
  · rintro ⟨member, keyed⟩
    cases search : info.find? (·.profile_key == key) with
    | none =>
        exact absurd (by simpa [keyed] using List.find?_eq_none.mp search data member) id
    | some found =>
        have foundKey : found.profile_key = key := by simpa using List.find?_some search
        rw [List.inj_on_of_nodup_map nodup (List.mem_of_find?_eq_some search) member
          (foundKey.trans keyed.symm)]

/-- Replacing an entry by one with the same key keeps the keys. -/
theorem map_profile_key_set
    {index : Nat} {data merged : DexFileData}
    (present : info[index]? = some data)
    (sameKey : merged.profile_key = data.profile_key) :
    (info.set index merged).map (·.profile_key) = info.map (·.profile_key) := by
  obtain ⟨inside, atIndex⟩ := List.getElem?_eq_some_iff.mp present
  have mapInside : index < (info.map (·.profile_key)).length := by simpa using inside
  rw [List.map_set, sameKey, ← atIndex]
  calc (info.map (·.profile_key)).set index info[index].profile_key
      = (info.map (·.profile_key)).set index (info.map (·.profile_key))[index] := by
        rw [List.getElem_map]
    _ = info.map (·.profile_key) := List.set_getElem_self mapInside

/-- Replacing an entry by one with the same key changes what the search
finds for that key only. -/
theorem find?_set
    (nodup : (info.map (·.profile_key)).Nodup)
    {index : Nat} {data merged : DexFileData}
    (present : info[index]? = some data)
    (sameKey : merged.profile_key = data.profile_key) :
    (info.set index merged).find? (·.profile_key == key) =
      if data.profile_key = key then some merged else info.find? (·.profile_key == key) := by
  have inside := (List.getElem?_eq_some_iff.mp present).1
  have setNodup : ((info.set index merged).map (·.profile_key)).Nodup :=
    (map_profile_key_set present sameKey).symm ▸ nodup
  have mergedMember : merged ∈ info.set index merged :=
    List.mem_iff_getElem?.mpr ⟨index, List.getElem?_set_self inside⟩
  split
  · rename_i keyed
    exact (find?_key_eq_some_iff setNodup).mpr ⟨mergedMember, sameKey.trans keyed⟩
  · rename_i other
    refine Option.ext fun found => ?_
    rw [find?_key_eq_some_iff setNodup, find?_key_eq_some_iff nodup]
    constructor
    · rintro ⟨member, keyed⟩
      rcases List.mem_or_eq_of_mem_set member with old | isMerged
      · exact ⟨old, keyed⟩
      · exact absurd (isMerged ▸ keyed) (sameKey ▸ other)
    · rintro ⟨member, keyed⟩
      obtain ⟨position, at_position⟩ := List.mem_iff_getElem?.mp member
      have elsewhere : index ≠ position := by
        rintro rfl
        rw [present, Option.some.injEq] at at_position
        exact other (at_position ▸ keyed)
      exact ⟨List.mem_iff_getElem?.mpr ⟨position, by rw [List.getElem?_set_ne elsewhere,
        at_position]⟩, keyed⟩

end Lookup

section MergeLoop

open ProfileCompilationInfo

variable {extra_descriptors_remap : List Nat}

/-- Setting the entry at `index` keeps an entry of another key. -/
theorem getElem?_set_of_key_ne {info : List DexFileData} {index position : Nat}
    {data entry merged : DexFileData}
    (present : info[index]? = some data)
    (atPosition : info[position]? = some entry)
    (differs : entry.profile_key ≠ data.profile_key) :
    (info.set index merged)[position]? = some entry := by
  have elsewhere : index ≠ position := by
    rintro rfl
    rw [present, Option.some.injEq] at atPosition
    exact differs (atPosition ▸ rfl)
  rw [List.getElem?_set_ne elsewhere, atPosition]

theorem MergeDexFileEntry_spec {info info' : List DexFileData} {entry : DexFileData × Nat}
    (steps : MergeDexFileEntry extra_descriptors_remap true info entry = some info') :
    ∃ data merged, info[entry.2]? = some data ∧
      MergeDexFileData extra_descriptors_remap true data entry.1 = some merged ∧
      info' = info.set entry.2 merged := by
  unfold MergeDexFileEntry at steps
  simp only [Option.bind_eq_bind] at steps
  obtain ⟨data, present, rest⟩ := Option.bind_eq_some_iff.mp steps
  obtain ⟨merged, merges, stored⟩ := Option.bind_eq_some_iff.mp rest
  rw [Option.pure_def, Option.some.injEq] at stored
  exact ⟨data, merged, present, merges, stored.symm⟩

/-- The last loop of `MergeWith`, over entries with distinct keys that each
point at the entry of their key: it keeps the keys, leaves the other keys'
entries alone, and replaces each pointed-at entry by its merge. -/
theorem foldlM_MergeDexFileEntry :
    ∀ {pairs : List (DexFileData × Nat)} {info info' : List DexFileData},
      (info.map (·.profile_key)).Nodup →
      (pairs.map (·.1.profile_key)).Nodup →
      (∀ pair ∈ pairs, ∃ data, info[pair.2]? = some data ∧
        data.profile_key = pair.1.profile_key) →
      pairs.foldlM (MergeDexFileEntry extra_descriptors_remap true) info = some info' →
        info'.map (·.profile_key) = info.map (·.profile_key) ∧
        (∀ key, (∀ pair ∈ pairs, pair.1.profile_key ≠ key) →
          info'.find? (·.profile_key == key) = info.find? (·.profile_key == key)) ∧
        (∀ pair ∈ pairs, ∃ data merged,
          info.find? (·.profile_key == pair.1.profile_key) = some data ∧
          MergeDexFileData extra_descriptors_remap true data pair.1 = some merged ∧
          info'.find? (·.profile_key == pair.1.profile_key) = some merged)
  | [], info, info', _, _, _, loops => by
      cases loops
      exact ⟨rfl, fun _ _ => rfl, fun pair member => absurd member List.not_mem_nil⟩
  | (other, index) :: rest, info, info', nodup, pairKeys, pointed, loops => by
      rw [List.foldlM_cons] at loops
      obtain ⟨info₁, firstStep, restLoop⟩ := Option.bind_eq_some_iff.mp loops
      obtain ⟨data, merged, present, merges, rfl⟩ := MergeDexFileEntry_spec firstStep
      obtain ⟨pointedData, pointedAt, pointedKey⟩ := pointed (other, index) List.mem_cons_self
      rw [present, Option.some.injEq] at pointedAt
      subst pointedAt
      have sameKey := (MergeDexFileData_frame merges).1
      have otherFresh : ∀ pair ∈ rest, pair.1.profile_key ≠ other.profile_key :=
        fun pair member same => (List.nodup_cons.mp pairKeys).1 (List.mem_map.mpr ⟨pair, member, same⟩)
      have keys₁ := map_profile_key_set present sameKey
      have restPointed : ∀ pair ∈ rest, ∃ data, (info.set index merged)[pair.2]? = some data ∧
          data.profile_key = pair.1.profile_key := by
        intro pair member
        obtain ⟨restData, restAt, restKey⟩ := pointed pair (List.mem_cons_of_mem _ member)
        exact ⟨restData, getElem?_set_of_key_ne present restAt fun same =>
          otherFresh pair member (restKey.symm.trans (same.trans pointedKey)), restKey⟩
      obtain ⟨keys, untouched, mergedPairs⟩ := foldlM_MergeDexFileEntry
        (keys₁.symm ▸ nodup) (List.nodup_cons.mp pairKeys).2 restPointed restLoop
      have setFind : ∀ key, (info.set index merged).find? (·.profile_key == key) =
          if data.profile_key = key then some merged else info.find? (·.profile_key == key) :=
        fun _ => find?_set nodup present sameKey
      refine ⟨keys.trans keys₁, fun key absent => ?_, fun pair member => ?_⟩
      · rw [untouched key fun pair member => absent pair (List.mem_cons_of_mem _ member),
          setFind, if_neg (pointedKey ▸ absent (other, index) List.mem_cons_self)]
      · rcases List.mem_cons.mp member with isFirst | inRest
        · subst isFirst
          refine ⟨data, merged, ?_, merges, ?_⟩
          · exact (find?_key_eq_some_iff nodup).mpr
              ⟨List.mem_of_getElem? present, pointedKey⟩
          · rw [untouched _ fun pair member => otherFresh pair member, setFind, if_pos pointedKey]
        · obtain ⟨restData, restMerged, restFound, restMerges, restFinal⟩ :=
            mergedPairs pair inRest
          have differs : data.profile_key ≠ pair.1.profile_key := fun same =>
            otherFresh pair inRest (same.symm.trans pointedKey)
          rw [setFind, if_neg differs] at restFound
          exact ⟨restData, restMerged, restFound, restMerges, restFinal⟩

end MergeLoop

section RemapLoops

open ProfileCompilationInfo

/-- `GetOrAddDexFileData` keeps the version and the extra descriptors, adds
an entry only for a new key, and returns the position of an entry with the
key and the given header. -/
theorem GetOrAddDexFileData_spec
    {profile profile' : ProfileCompilationInfo}
    {key : String} {checksum num_type_ids num_method_ids index : Nat}
    (adds : profile.GetOrAddDexFileData key checksum num_type_ids num_method_ids =
      some (profile', index)) :
    profile'.for_boot_image = profile.for_boot_image ∧
      profile'.extra_descriptors_ = profile.extra_descriptors_ ∧
      (profile'.info_ = profile.info_ ∨
        profile'.info_ = profile.info_ ++ [DexFileData.create key checksum num_type_ids
          num_method_ids profile.for_boot_image] ∧
        ∀ data ∈ profile.info_, data.profile_key ≠ key) ∧
      ∃ data, profile'.info_[index]? = some data ∧ data.profile_key = key ∧
        data.Header = ⟨checksum, num_type_ids, num_method_ids⟩ := by
  -- the checks that follow the lookup, shared by a found and a new entry
  have checked : ∀ {found : ProfileCompilationInfo} {position : Nat} {result : DexFileData},
      (if result.checksum ≠ checksum then none
        else if num_type_ids ≠ result.num_type_ids ∨ num_method_ids ≠ result.num_method_ids then
          none
        else some (found, position)) = some (profile', index) →
      found = profile' ∧ position = index ∧
        result.Header = ⟨checksum, num_type_ids, num_method_ids⟩ := by
    intro found position result checks
    split_ifs at checks with checksumDiffers sizesDiffer
    rw [Option.some.injEq, Prod.mk.injEq] at checks
    refine ⟨checks.1, checks.2, ?_⟩
    simp only [DexFileData.Header, DexFileHeader.mk.injEq]
    omega
  unfold GetOrAddDexFileData at adds
  cases search : profile.info_.findIdx? (·.profile_key == key) with
  | some position =>
      simp only [search, Option.bind_eq_bind, Option.bind_some] at adds
      obtain ⟨result, atIndex, checks⟩ := Option.bind_eq_some_iff.mp adds
      obtain ⟨rfl, rfl, header⟩ := checked checks
      obtain ⟨inside, keyed, _⟩ := List.findIdx?_eq_some_iff_getElem.mp search
      rw [List.getElem?_eq_getElem inside, Option.some.injEq] at atIndex
      refine ⟨rfl, rfl, Or.inl rfl, result, by rw [List.getElem?_eq_getElem inside, atIndex],
        ?_, header⟩
      simpa [← atIndex] using keyed
  | none =>
      simp only [search] at adds
      split at adds
      · simp at adds
      simp only [Option.bind_eq_bind, Option.bind_some] at adds
      obtain ⟨result, atIndex, checks⟩ := Option.bind_eq_some_iff.mp adds
      obtain ⟨rfl, rfl, header⟩ := checked checks
      have fresh : ∀ data ∈ profile.info_, data.profile_key ≠ key := by
        intro data member same
        have := List.findIdx?_eq_none_iff.mp search data member
        simp [same] at this
      refine ⟨rfl, rfl, Or.inr ⟨rfl, fresh⟩, result, atIndex, ?_, header⟩
      simp only [List.getElem?_append_right (Nat.le_refl _), Nat.sub_self,
        List.getElem?_cons_zero, Option.some.injEq] at atIndex
      rw [← atIndex]
      rfl

/-- A dex file that `MergeWith` adds for a key of the other profile. -/
def CreatedFor (for_boot_image : Bool) (other_dex_data : DexFileData) : DexFileData :=
  DexFileData.create other_dex_data.profile_key other_dex_data.checksum
    other_dex_data.num_type_ids other_dex_data.num_method_ids for_boot_image

@[simp]
theorem CreatedFor_profile_key (for_boot_image : Bool) (other_dex_data : DexFileData) :
    (CreatedFor for_boot_image other_dex_data).profile_key = other_dex_data.profile_key :=
  rfl

@[simp]
theorem CreatedFor_Header (for_boot_image : Bool) (other_dex_data : DexFileData) :
    (CreatedFor for_boot_image other_dex_data).Header = other_dex_data.Header :=
  rfl

/-- A new entry records nothing yet. -/
@[simp]
theorem CreatedFor_Content (for_boot_image : Bool) (other_dex_data : DexFileData)
    (extra_descriptors : List String) :
    (CreatedFor for_boot_image other_dex_data).Content extra_descriptors = ⊥ := by
  refine Prod.ext (by simp [CreatedFor, DexFileData.create, DexFileData.Content]) (Prod.ext rfl ?_)
  funext index
  simp only [DexFileData.Content, CreatedFor, DexFileData.create, BitmapBit,
    List.getD_eq_getElem?_getD, List.getElem?_replicate]
  split <;> simp

theorem CreatedFor_valid (for_boot_image : Bool) (other_dex_data : DexFileData) (bound : Nat) :
    (CreatedFor for_boot_image other_dex_data).Valid bound :=
  ⟨fun _ member => absurd member (Finset.notMem_empty _), fun _ _ absent => by cases absent⟩

@[simp]
theorem CreatedFor_bitmap_length (for_boot_image : Bool) (other_dex_data : DexFileData) :
    (CreatedFor for_boot_image other_dex_data).bitmap_storage.length =
      DexFileData.ComputeBitmapStorage for_boot_image other_dex_data.num_method_ids :=
  List.length_replicate

/-- The loop that builds `dex_profile_index_remap`: it keeps the version and
the extra descriptors, appends one new entry per new key, and sends each dex
file of the other profile to the position of an entry with its key and
header. -/
theorem foldlM_RemapDexFile :
    ∀ {others : List DexFileData} {profile profile' : ProfileCompilationInfo}
      {remap remap' : List Nat},
      others.foldlM RemapDexFile (profile, remap) = some (profile', remap') →
        profile'.for_boot_image = profile.for_boot_image ∧
        profile'.extra_descriptors_ = profile.extra_descriptors_ ∧
        (∃ added, profile'.info_ = profile.info_ ++ added ∧
          ∀ data ∈ added, ∃ other ∈ others, data = CreatedFor profile.for_boot_image other) ∧
        ((profile.info_.map (·.profile_key)).Nodup → (profile'.info_.map (·.profile_key)).Nodup) ∧
        ∃ indexes, remap' = remap ++ indexes ∧ indexes.length = others.length ∧
          ∀ pair ∈ others.zip indexes, ∃ data, profile'.info_[pair.2]? = some data ∧
            data.profile_key = pair.1.profile_key ∧ data.Header = pair.1.Header
  | [], profile, profile', remap, remap', loops => by
      cases loops
      refine ⟨rfl, rfl, ⟨[], by simp, by simp⟩, id, [], by simp, rfl, by simp⟩
  | other :: rest, profile, profile', remap, remap', loops => by
      rw [List.foldlM_cons] at loops
      obtain ⟨⟨profile₁, remap₁⟩, firstStep, restLoop⟩ := Option.bind_eq_some_iff.mp loops
      unfold RemapDexFile at firstStep
      simp only [Option.bind_eq_bind] at firstStep
      obtain ⟨⟨added₁, index⟩, adds, stored⟩ := Option.bind_eq_some_iff.mp firstStep
      rw [Option.pure_def, Option.some.injEq, Prod.mk.injEq] at stored
      obtain ⟨rfl, rfl⟩ := stored
      obtain ⟨version₁, descriptors₁, grown₁, data₁, at₁, key₁, header₁⟩ :=
        GetOrAddDexFileData_spec adds
      obtain ⟨version, descriptors, ⟨added, grown, created⟩, nodup, indexes, remapped, length,
        pointed⟩ := foldlM_RemapDexFile restLoop
      have prefix₁ : ∃ first, added₁.info_ = profile.info_ ++ first ∧
          ∀ data ∈ first, data = CreatedFor profile.for_boot_image other := by
        rcases grown₁ with same | ⟨appended, _⟩
        · exact ⟨[], by simp [same], by simp⟩
        · exact ⟨_, appended, fun data member => List.mem_singleton.mp member⟩
      obtain ⟨first, firstGrown, firstCreated⟩ := prefix₁
      refine ⟨version.trans version₁, descriptors.trans descriptors₁,
        ⟨first ++ added, by rw [grown, firstGrown, List.append_assoc], ?_⟩, ?_,
        index :: indexes, by rw [remapped, List.append_assoc, List.singleton_append],
        by rw [List.length_cons, length, List.length_cons], ?_⟩
      · intro data member
        rcases List.mem_append.mp member with isFirst | isAdded
        · exact ⟨other, List.mem_cons_self, firstCreated data isFirst⟩
        · obtain ⟨source, sourceMember, same⟩ := created data isAdded
          exact ⟨source, List.mem_cons_of_mem other sourceMember, version₁ ▸ same⟩
      · intro startNodup
        apply nodup
        rcases grown₁ with same | ⟨appended, fresh⟩
        · exact same ▸ startNodup
        · rw [appended, List.map_append, List.nodup_append]
          refine ⟨startNodup, List.nodup_singleton _, ?_⟩
          intro existing existingMember new newMember same
          obtain ⟨data, member, rfl⟩ := List.mem_map.mp existingMember
          rw [List.map_singleton, List.mem_singleton] at newMember
          exact fresh data member (same.trans newMember)
      · intro pair member
        rw [List.zip_cons_cons] at member
        rcases List.mem_cons.mp member with isFirst | inRest
        · subst isFirst
          have inside : index < added₁.info_.length := (List.getElem?_eq_some_iff.mp at₁).1
          refine ⟨data₁, ?_, key₁, header₁⟩
          rw [grown, List.getElem?_append_left inside, at₁]
        · exact pointed pair inRest

/-- The loop that builds `extra_descriptors_remap`: it keeps the dex files
and the version, appends the new descriptors once each, and sends each
descriptor of the other profile to its index. -/
theorem foldlM_RemapExtraDescriptor :
    ∀ {descriptors : List String} {profile profile' : ProfileCompilationInfo}
      {remap remap' : List Nat},
      descriptors.foldlM RemapExtraDescriptor (profile, remap) = some (profile', remap') →
        profile'.info_ = profile.info_ ∧ profile'.for_boot_image = profile.for_boot_image ∧
        (∃ added, profile'.extra_descriptors_ = profile.extra_descriptors_ ++ added) ∧
        (profile.extra_descriptors_.Nodup → profile'.extra_descriptors_.Nodup) ∧
        ∃ indexes, remap' = remap ++ indexes ∧ indexes.length = descriptors.length ∧
          ∀ pair ∈ descriptors.zip indexes, profile'.extra_descriptors_[pair.2]? = some pair.1
  | [], profile, profile', remap, remap', loops => by
      cases loops
      exact ⟨rfl, rfl, ⟨[], by simp⟩, id, [], by simp, rfl, by simp⟩
  | descriptor :: rest, profile, profile', remap, remap', loops => by
      rw [List.foldlM_cons] at loops
      obtain ⟨⟨profile₁, remap₁⟩, firstStep, restLoop⟩ := Option.bind_eq_some_iff.mp loops
      -- one step: the descriptor is found, or appended at the end of the table
      have step : profile₁.info_ = profile.info_ ∧
          profile₁.for_boot_image = profile.for_boot_image ∧
          (∃ added, profile₁.extra_descriptors_ = profile.extra_descriptors_ ++ added) ∧
          (profile.extra_descriptors_.Nodup → profile₁.extra_descriptors_.Nodup) ∧
          ∃ index, remap₁ = remap ++ [index] ∧
            profile₁.extra_descriptors_[index]? = some descriptor := by
        unfold RemapExtraDescriptor at firstStep
        dsimp only at firstStep
        cases search : profile.extra_descriptors_.idxOf? descriptor with
        | some index =>
            rw [search, Option.some.injEq, Prod.mk.injEq] at firstStep
            obtain ⟨rfl, rfl⟩ := firstStep
            obtain ⟨inside, atIndex, _⟩ := List.idxOf?_eq_some_iff.mp search
            exact ⟨rfl, rfl, ⟨[], by simp⟩, id, index, rfl,
              by rw [List.getElem?_eq_getElem inside, atIndex]⟩
        | none =>
            simp only [search, AddExtraDescriptor] at firstStep
            split at firstStep
            · simp at firstStep
            simp only [Option.some.injEq, Prod.mk.injEq] at firstStep
            obtain ⟨rfl, rfl⟩ := firstStep
            refine ⟨rfl, rfl, ⟨[descriptor], rfl⟩, fun nodup => ?_, _, rfl, by simp⟩
            exact List.nodup_append.mpr ⟨nodup, List.nodup_singleton _,
              fun existing member new newMember same => List.idxOf?_eq_none_iff.mp search
                (List.mem_singleton.mp newMember ▸ same ▸ member)⟩
      obtain ⟨info₁, version₁, ⟨added₁, grown₁⟩, nodup₁, index, remapped₁, at₁⟩ := step
      obtain ⟨info, version, ⟨added, grown⟩, nodup, indexes, remapped, length, pointed⟩ :=
        foldlM_RemapExtraDescriptor restLoop
      have inside : index < profile₁.extra_descriptors_.length :=
        (List.getElem?_eq_some_iff.mp at₁).1
      refine ⟨info.trans info₁, version.trans version₁,
        ⟨added₁ ++ added, by rw [grown, grown₁, List.append_assoc]⟩, nodup ∘ nodup₁,
        index :: indexes, by rw [remapped, remapped₁, List.append_assoc, List.singleton_append],
        by rw [List.length_cons, length, List.length_cons], fun pair member => ?_⟩
      rw [List.zip_cons_cons] at member
      rcases List.mem_cons.mp member with isFirst | inRest
      · subst isFirst
        rw [grown, List.getElem?_append_left inside, at₁]
      · exact pointed pair inRest

end RemapLoops

/-- With distinct extra descriptors and a remap that sends each of the other
profile's descriptors to its index, `RemapTypeIndex` translates names
faithfully. -/
theorem translation_of_remap
    {extra_descriptors other_extra_descriptors : List String}
    {extra_descriptors_remap : List Nat} {num_type_ids : Nat}
    (nodup : extra_descriptors.Nodup)
    (pointed : ∀ pair ∈ other_extra_descriptors.zip extra_descriptors_remap,
      extra_descriptors[pair.2]? = some pair.1) :
    Translation (ClassNameOf extra_descriptors num_type_ids)
      (ClassNameOf other_extra_descriptors num_type_ids)
      (num_type_ids + extra_descriptors.length) (num_type_ids + other_extra_descriptors.length)
      (RemapTypeIndex extra_descriptors_remap num_type_ids) := by
  constructor
  · intro first firstBelow second secondBelow same
    simp only [Set.mem_Iio] at firstBelow secondBelow
    unfold ClassNameOf at same
    by_cases firstType : first < num_type_ids <;> by_cases secondType : second < num_type_ids <;>
      simp only [firstType, secondType, ↓reduceIte, reduceCtorEq, ClassName.typeIndex.injEq,
        ClassName.descriptor.injEq] at same
    · exact same
    · rw [List.getD_eq_getElem _ _ (by omega), List.getD_eq_getElem _ _ (by omega),
        nodup.getElem_inj_iff] at same
      omega
  · intro type_index below new_index translates
    unfold RemapTypeIndex at translates
    split at translates
    · rename_i extra
      simp only [Option.bind_eq_bind] at translates
      obtain ⟨descriptor_index, remapped, checked⟩ := Option.bind_eq_some_iff.mp translates
      split at checked
      · cases checked
      rw [Option.some.injEq] at checked
      subst checked
      have inside : type_index - num_type_ids < other_extra_descriptors.length := by omega
      have pairMember : (other_extra_descriptors[type_index - num_type_ids], descriptor_index) ∈
          other_extra_descriptors.zip extra_descriptors_remap :=
        List.mem_iff_getElem?.mpr ⟨type_index - num_type_ids, List.getElem?_zip_eq_some.mpr
          ⟨List.getElem?_eq_getElem inside, remapped⟩⟩
      have named := pointed _ pairMember
      have descriptorInside := (List.getElem?_eq_some_iff.mp named).1
      refine ⟨by omega, ?_⟩
      unfold ClassNameOf
      rw [if_neg (by omega), if_neg (by omega), Nat.add_sub_cancel_left,
        List.getD_eq_getElem _ _ descriptorInside, List.getD_eq_getElem _ _ inside]
      simp only at named
      rw [List.getElem?_eq_getElem descriptorInside, Option.some.injEq] at named
      rw [named]
    · rw [Option.some.injEq] at translates
      subst translates
      refine ⟨by omega, ?_⟩
      rw [ClassNameOf_of_lt (by omega), ClassNameOf_of_lt (by omega)]

/-- Pairing dex files with their positions keeps their keys. -/
theorem map_profile_key_zip {others : List DexFileData} {remap : List Nat}
    (length : others.length ≤ remap.length) :
    (others.zip remap).map (·.1.profile_key) = others.map (·.profile_key) := by
  have viaFirst : (others.zip remap).map (·.1.profile_key) =
      ((others.zip remap).map Prod.fst).map (·.profile_key) := by
    rw [List.map_map]
    rfl
  rw [viaFirst, List.map_fst_zip length]

theorem exists_mem_zip {α β : Type} {left : List α} {right : List β}
    (length : right.length = left.length) {element : α} (member : element ∈ left) :
    ∃ partner, (element, partner) ∈ left.zip right := by
  obtain ⟨position, atPosition⟩ := List.mem_iff_getElem?.mp member
  have inside : position < right.length := length ▸ (List.getElem?_eq_some_iff.mp atPosition).1
  exact ⟨right[position], List.mem_iff_getElem?.mpr ⟨position,
    List.getElem?_zip_eq_some.mpr ⟨atPosition, List.getElem?_eq_getElem inside⟩⟩⟩

namespace ProfileCompilationInfo

/-- A successful `MergeWith`, stage by stage. -/
theorem MergeWith_stages {profile other merged : ProfileCompilationInfo}
    (merges : profile.MergeWith other true = some merged) :
    profile.for_boot_image = other.for_boot_image ∧
      ∃ dexFiles remap descriptors extra_descriptors_remap,
        profile.RemapDexFiles other = some (dexFiles, remap) ∧
        dexFiles.RemapExtraDescriptors other = some (descriptors, extra_descriptors_remap) ∧
        (other.info_.zip remap).foldlM (MergeDexFileEntry extra_descriptors_remap true)
          descriptors.info_ = some merged.info_ ∧
        merged.for_boot_image = descriptors.for_boot_image ∧
        merged.extra_descriptors_ = descriptors.extra_descriptors_ := by
  unfold MergeWith at merges
  simp only [Option.bind_eq_bind] at merges
  split at merges
  · cases merges
  rename_i sameVersion
  split at merges
  · cases merges
  simp only [Option.pure_def] at merges
  obtain ⟨⟨dexFiles, remap⟩, remapsDexFiles, rest⟩ := Option.bind_eq_some_iff.mp merges
  obtain ⟨⟨descriptors, extra_descriptors_remap⟩, remapsDescriptors, rest⟩ :=
    Option.bind_eq_some_iff.mp rest
  obtain ⟨info, loops, stored⟩ := Option.bind_eq_some_iff.mp rest
  rw [Option.some.injEq] at stored
  subst stored
  refine ⟨by simpa [SameVersion] using sameVersion, dexFiles, remap, descriptors,
    extra_descriptors_remap, remapsDexFiles, remapsDescriptors, loops, rfl, rfl⟩

/-- The entry with a key of a well-formed profile is the profile's entry. -/
theorem FindDexData_eq_some_iff {profile : ProfileCompilationInfo}
    (wellFormed : profile.WellFormed) {key : String} {data : DexFileData} :
    profile.FindDexData key = some data ↔ data ∈ profile.info_ ∧ data.profile_key = key :=
  find?_key_eq_some_iff wellFormed.keys_nodup

/-- What a successful `MergeWith` of well-formed profiles leaves under each
key: the profile's entry where the other profile has none, and otherwise the
merge of the profile's entry, or of a new one, with the other's. -/
theorem MergeWith_entries {profile other merged : ProfileCompilationInfo}
    (wellFormed : profile.WellFormed) (otherWellFormed : other.WellFormed)
    (merges : profile.MergeWith other true = some merged) :
    profile.for_boot_image = other.for_boot_image ∧
    merged.for_boot_image = profile.for_boot_image ∧
    (merged.info_.map (·.profile_key)).Nodup ∧
    merged.extra_descriptors_.Nodup ∧
    (∃ added, merged.extra_descriptors_ = profile.extra_descriptors_ ++ added) ∧
    ∃ extra_descriptors_remap,
      (∀ num_type_ids, Translation (ClassNameOf merged.extra_descriptors_ num_type_ids)
        (ClassNameOf other.extra_descriptors_ num_type_ids)
        (num_type_ids + merged.extra_descriptors_.length)
        (num_type_ids + other.extra_descriptors_.length)
        (RemapTypeIndex extra_descriptors_remap num_type_ids)) ∧
      ∀ key,
        (other.FindDexData key = none → merged.FindDexData key = profile.FindDexData key) ∧
        ∀ other_data, other.FindDexData key = some other_data →
          ∃ data result,
            (profile.FindDexData key = some data ∨
              profile.FindDexData key = none ∧
                data = CreatedFor profile.for_boot_image other_data) ∧
            data.Header = other_data.Header ∧
            MergeDexFileData extra_descriptors_remap true data other_data = some result ∧
            merged.FindDexData key = some result := by
  obtain ⟨sameVersion, dexFiles, remap, descriptors, extra_descriptors_remap, remapsDexFiles,
    remapsDescriptors, loops, mergedVersion, mergedDescriptors⟩ := MergeWith_stages merges
  obtain ⟨version₁, descriptors₁, ⟨added, grown, created⟩, nodup₁, indexes, remapped, length,
    pointed⟩ := foldlM_RemapDexFile remapsDexFiles
  rw [List.nil_append] at remapped
  subst remapped
  obtain ⟨info₂, version₂, ⟨addedDescriptors, grown₂⟩, nodup₂, descriptorIndexes, remapped₂,
    length₂, pointed₂⟩ := foldlM_RemapExtraDescriptor remapsDescriptors
  rw [List.nil_append] at remapped₂
  subst remapped₂
  have keys₁ := nodup₁ wellFormed.keys_nodup
  have otherKeys := otherWellFormed.keys_nodup
  have pairKeys : ((other.info_.zip remap).map (·.1.profile_key)).Nodup := by
    rw [map_profile_key_zip (by omega)]
    exact otherKeys
  have pointedPairs : ∀ pair ∈ other.info_.zip remap, ∃ data,
      descriptors.info_[pair.2]? = some data ∧ data.profile_key = pair.1.profile_key := by
    intro pair member
    obtain ⟨data, atIndex, keyed, _⟩ := pointed pair member
    exact ⟨data, info₂ ▸ atIndex, keyed⟩
  obtain ⟨finalKeys, untouched, mergedPairs⟩ :=
    foldlM_MergeDexFileEntry (info₂ ▸ keys₁) pairKeys pointedPairs loops
  have findGrown : ∀ key, dexFiles.info_.find? (·.profile_key == key) =
      (profile.FindDexData key).or (added.find? (·.profile_key == key)) := by
    intro key
    rw [grown, List.find?_append]
    rfl
  have addedKeys : ∀ key data, added.find? (·.profile_key == key) = some data →
      ∃ source ∈ other.info_, data = CreatedFor profile.for_boot_image source ∧
        source.profile_key = key := by
    intro key data found
    obtain ⟨source, sourceMember, rfl⟩ := created data (List.mem_of_find?_eq_some found)
    exact ⟨source, sourceMember, rfl, by simpa using List.find?_some found⟩
  refine ⟨sameVersion, mergedVersion.trans (version₂.trans version₁), finalKeys ▸ info₂ ▸ keys₁,
    mergedDescriptors ▸ nodup₂ (descriptors₁ ▸ wellFormed.descriptors_nodup),
    ⟨addedDescriptors, by rw [mergedDescriptors, grown₂, descriptors₁]⟩, extra_descriptors_remap,
    fun num_type_ids => mergedDescriptors ▸ translation_of_remap
      (nodup₂ (descriptors₁ ▸ wellFormed.descriptors_nodup)) pointed₂,
    fun key => ⟨fun absent => ?_, fun other_data found => ?_⟩⟩
  · have notOther : ∀ pair ∈ other.info_.zip remap, pair.1.profile_key ≠ key := by
      intro pair member same
      have := List.find?_eq_none.mp absent pair.1 (List.of_mem_zip member).1
      simp [same] at this
    have noneAdded : added.find? (·.profile_key == key) = none := by
      cases search : added.find? (·.profile_key == key) with
      | none => rfl
      | some data =>
          obtain ⟨source, sourceMember, _, sourceKey⟩ := addedKeys key data search
          have := List.find?_eq_none.mp absent source sourceMember
          simp [sourceKey] at this
    show merged.info_.find? _ = _
    rw [untouched key notOther, info₂, findGrown, noneAdded, Option.or_none]
  · obtain ⟨otherMember, otherKey⟩ := (FindDexData_eq_some_iff otherWellFormed).mp found
    obtain ⟨index, pairMember⟩ := exists_mem_zip (by omega) otherMember
    obtain ⟨data, result, foundData, mergesData, foundResult⟩ := mergedPairs _ pairMember
    obtain ⟨pointedData, atIndex, pointedKey, pointedHeader⟩ := pointed _ pairMember
    rw [info₂, otherKey] at foundData
    rw [otherKey] at foundResult
    have dataMember := (find?_key_eq_some_iff keys₁).mp foundData
    have samePointed : pointedData = data :=
      List.inj_on_of_nodup_map keys₁ (List.mem_of_getElem? atIndex) dataMember.1
        (pointedKey.trans (otherKey.trans dataMember.2.symm))
    subst samePointed
    refine ⟨pointedData, result, ?_, pointedHeader, mergesData, foundResult⟩
    rw [findGrown] at foundData
    cases existing : profile.FindDexData key with
    | some old =>
        rw [existing, Option.some_or, Option.some.injEq] at foundData
        exact Or.inl (foundData ▸ rfl)
    | none =>
        rw [existing, Option.none_or] at foundData
        obtain ⟨source, sourceMember, isCreated, sourceKey⟩ := addedKeys key _ foundData
        have sameSource : source = other_data :=
          List.inj_on_of_nodup_map otherKeys sourceMember otherMember (sourceKey.trans otherKey.symm)
        exact Or.inr ⟨rfl, sameSource ▸ isCreated⟩

/-- A successful merge of two well-formed profiles is well formed, the two
contents are consistent, and the content of the result is the merge of the
two contents. -/
theorem MergeWith_Content {profile other merged : ProfileCompilationInfo}
    (wellFormed : profile.WellFormed) (otherWellFormed : other.WellFormed)
    (merges : profile.MergeWith other true = some merged) :
    merged.Content = profile.Content.merge other.Content ∧
      profile.Content.Consistent other.Content ∧ merged.WellFormed := by
  obtain ⟨sameVersion, mergedVersion, mergedKeys, mergedNodup, ⟨added, mergedDescriptors⟩,
    extra_descriptors_remap, translation, entries⟩ :=
    MergeWith_entries wellFormed otherWellFormed merges
  have longer : profile.extra_descriptors_.length ≤ merged.extra_descriptors_.length := by
    rw [mergedDescriptors, List.length_append]
    exact Nat.le_add_right _ _
  -- an entry of the profile keeps its content among the merged descriptors
  have oldContent : ∀ data ∈ profile.info_,
      data.Content merged.extra_descriptors_ = data.Content profile.extra_descriptors_ :=
    fun data member => mergedDescriptors ▸ DexFileData.Content_append (wellFormed.valid data member)
  -- under a key of the other profile: the merged entry and everything known of it
  have atKey : ∀ key other_data, other.FindDexData key = some other_data →
      ∃ data result,
        (profile.FindDexData key = some data ∨
          profile.FindDexData key = none ∧ data = CreatedFor profile.for_boot_image other_data) ∧
        data.Header = other_data.Header ∧ merged.FindDexData key = some result ∧
        result.Header = data.Header ∧
        result.Content merged.extra_descriptors_ =
          profile.Content.dex_data key ⊔ other.Content.dex_data key ∧
        result.Valid (result.num_type_ids + merged.extra_descriptors_.length) ∧
        result.bitmap_storage.length =
          DexFileData.ComputeBitmapStorage profile.for_boot_image result.num_method_ids := by
    intro key other_data found
    obtain ⟨data, result, origin, header, mergesData, foundResult⟩ := (entries key).2 other_data found
    have otherMember := ((FindDexData_eq_some_iff otherWellFormed).mp found).1
    have sameMethods : data.num_method_ids = other_data.num_method_ids :=
      congrArg DexFileHeader.num_method_ids header
    have dataFacts : data.Valid (data.num_type_ids + merged.extra_descriptors_.length) ∧
        data.bitmap_storage.length =
          DexFileData.ComputeBitmapStorage profile.for_boot_image data.num_method_ids ∧
        data.Content merged.extra_descriptors_ = profile.Content.dex_data key := by
      rcases origin with existing | ⟨absent, rfl⟩
      · have member := ((FindDexData_eq_some_iff wellFormed).mp existing).1
        refine ⟨(wellFormed.valid data member).mono (by omega), wellFormed.bitmaps data member, ?_⟩
        simp only [Content, existing, oldContent data member]
      · refine ⟨CreatedFor_valid _ _ _, CreatedFor_bitmap_length _ _, ?_⟩
        simp only [Content, absent, CreatedFor_Content]
    obtain ⟨dataValid, dataSize, dataContent⟩ := dataFacts
    have sameSize : data.bitmap_storage.length = other_data.bitmap_storage.length := by
      rw [dataSize, otherWellFormed.bitmaps other_data otherMember, sameVersion, sameMethods]
    obtain ⟨_, resultHeader, _, resultSize⟩ := MergeDexFileData_frame mergesData
    rw [← sameSize, Nat.min_self] at resultSize
    have sameTypes : result.num_type_ids = data.num_type_ids :=
      congrArg DexFileHeader.num_type_ids resultHeader
    obtain ⟨content, resultValid⟩ := MergeDexFileData_Content (translation data.num_type_ids)
      (congrArg DexFileHeader.num_type_ids header).symm sameSize dataValid
      (otherWellFormed.valid other_data otherMember) mergesData
    refine ⟨data, result, origin, header, foundResult, resultHeader, ?_, sameTypes ▸ resultValid,
      ?_⟩
    · simp only [content, dataContent, Content, found]
    · have resultMethods : result.num_method_ids = data.num_method_ids :=
        congrArg DexFileHeader.num_method_ids resultHeader
      rw [resultSize, dataSize, resultMethods]
  have consistent : profile.Content.Consistent other.Content := by
    refine ⟨sameVersion, fun key header otherHeader profileHas otherHas => ?_⟩
    obtain ⟨otherData, found, rfl⟩ := Option.map_eq_some_iff.mp otherHas
    obtain ⟨data, found', rfl⟩ := Option.map_eq_some_iff.mp profileHas
    obtain ⟨_, _, origin, header, _⟩ := atKey key otherData found
    rcases origin with existing | ⟨absent, _⟩
    · rw [found', Option.some.injEq] at existing
      exact existing ▸ header
    · rw [found'] at absent
      cases absent
  refine ⟨?_, consistent, ?_⟩
  · have dexFiles : ∀ key, (merged.FindDexData key).map DexFileData.Header =
        ((profile.FindDexData key).map DexFileData.Header).or
          ((other.FindDexData key).map DexFileData.Header) := by
      intro key
      cases found : other.FindDexData key with
      | none => rw [(entries key).1 found, Option.map_none, Option.or_none]
      | some other_data =>
          obtain ⟨data, result, origin, header, foundResult, resultHeader, _⟩ :=
            atKey key other_data found
          rw [foundResult, Option.map_some, resultHeader]
          rcases origin with existing | ⟨absent, rfl⟩
          · rw [existing, Option.map_some, Option.some_or]
          · rw [absent, Option.map_none, Option.none_or, Option.map_some, header]
    have dexData : ∀ key, merged.Content.dex_data key =
        profile.Content.dex_data key ⊔ other.Content.dex_data key := by
      intro key
      cases found : other.FindDexData key with
      | none =>
          have otherEmpty : other.Content.dex_data key = ⊥ := by simp only [Content, found]
          rw [otherEmpty, sup_bot_eq]
          simp only [Content, (entries key).1 found]
          cases existing : profile.FindDexData key with
          | none => rfl
          | some data =>
              exact oldContent data ((FindDexData_eq_some_iff wellFormed).mp existing).1
      | some other_data =>
          obtain ⟨data, result, _, _, foundResult, _, content, _⟩ := atKey key other_data found
          simp only [Content, foundResult, content]
    simp only [ProfileContent.merge, Content] at dexFiles dexData ⊢
    rw [mergedVersion]
    congr 1
    · funext key
      exact dexFiles key
    · funext key
      exact dexData key
  · refine ⟨mergedKeys, mergedNodup, fun data member => ?_, fun data member => ?_⟩ <;>
    · have found := (find?_key_eq_some_iff mergedKeys).mpr ⟨member, rfl⟩
      cases otherFound : other.FindDexData data.profile_key with
      | none =>
          rw [show merged.info_.find? _ = merged.FindDexData data.profile_key from rfl,
            (entries _).1 otherFound] at found
          have old := ((FindDexData_eq_some_iff wellFormed).mp found).1
          first
            | exact (wellFormed.valid data old).mono (by omega)
            | rw [wellFormed.bitmaps data old, mergedVersion]
      | some other_data =>
          obtain ⟨_, result, _, _, foundResult, _, _, resultValid, resultSize⟩ :=
            atKey _ other_data otherFound
          rw [show merged.info_.find? _ = merged.FindDexData data.profile_key from rfl,
            foundResult, Option.some.injEq] at found
          subst found
          first
            | exact resultValid
            | rw [resultSize, mergedVersion]

end ProfileCompilationInfo

open ProfileCompilationInfo in
theorem mergeWith_is_semilattice_join :
    (∀ profile other merged : ProfileCompilationInfo,
      profile.WellFormed → other.WellFormed → profile.MergeWith other true = some merged →
        merged.Content = profile.Content.merge other.Content) ∧
    (∀ first second firstSecond secondFirst : ProfileCompilationInfo,
      first.WellFormed → second.WellFormed →
      first.MergeWith second true = some firstSecond →
      second.MergeWith first true = some secondFirst →
        firstSecond.Content = secondFirst.Content) ∧
    (∀ first second third firstSecond left secondThird right : ProfileCompilationInfo,
      first.WellFormed → second.WellFormed → third.WellFormed →
      first.MergeWith second true = some firstSecond →
      firstSecond.MergeWith third true = some left →
      second.MergeWith third true = some secondThird →
      first.MergeWith secondThird true = some right →
        left.Content = right.Content) ∧
    (∀ profile merged : ProfileCompilationInfo,
      profile.WellFormed → profile.MergeWith profile true = some merged →
        merged.Content = profile.Content) := by
  refine ⟨fun profile other merged wellFormed otherWellFormed merges =>
    (MergeWith_Content wellFormed otherWellFormed merges).1, ?_, ?_, ?_⟩
  · intro first second firstSecond secondFirst firstWellFormed secondWellFormed forward backward
    obtain ⟨forwardContent, consistent, _⟩ :=
      MergeWith_Content firstWellFormed secondWellFormed forward
    obtain ⟨backwardContent, _, _⟩ := MergeWith_Content secondWellFormed firstWellFormed backward
    rw [forwardContent, backwardContent, ProfileContent.merge_comm consistent]
  · intro first second third firstSecond left secondThird right firstWellFormed secondWellFormed
      thirdWellFormed mergesFirst mergesLeft mergesSecond mergesRight
    obtain ⟨firstSecondContent, _, firstSecondWellFormed⟩ :=
      MergeWith_Content firstWellFormed secondWellFormed mergesFirst
    obtain ⟨secondThirdContent, _, secondThirdWellFormed⟩ :=
      MergeWith_Content secondWellFormed thirdWellFormed mergesSecond
    calc left.Content
        = firstSecond.Content.merge third.Content :=
          (MergeWith_Content firstSecondWellFormed thirdWellFormed mergesLeft).1
      _ = (first.Content.merge second.Content).merge third.Content := by rw [firstSecondContent]
      _ = first.Content.merge (second.Content.merge third.Content) :=
          ProfileContent.merge_assoc _ _ _
      _ = first.Content.merge secondThird.Content := by rw [secondThirdContent]
      _ = right.Content :=
          (MergeWith_Content firstWellFormed secondThirdWellFormed mergesRight).1.symm
  · intro profile merged wellFormed merges
    rw [(MergeWith_Content wellFormed wellFormed merges).1, ProfileContent.merge_self]

end ArtRuntime.Profile
