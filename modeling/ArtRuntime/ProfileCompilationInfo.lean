import Mathlib.Data.Finset.Sort
import ArtRuntime.OptionLoop

namespace ArtRuntime.Profile

open OptionLoop

/-!
# `ProfileCompilationInfo::MergeWith`

The model of `libprofile/profile/profile_compilation_info.{h,cc}` as far as
`MergeWith` reads and writes a profile.

* `ArenaSafeMap<uint16_t, V>` is a function from `Fin 0x10000` to `Option V`.
  The source's iteration over a map in key order is a loop over
  `List.finRange 0x10000` that skips the absent keys (`updateEachM`).
* `ArenaSet<dex::TypeIndex>` is a `Finset Nat`, iterated in ascending order.
* `info_` is the list of dex file data in profile-index order, so the
  `profile_index` of an entry is its position.  `profile_key_map_`, the
  index of `info_` by key, and `extra_descriptors_indexes_`, the index of
  `extra_descriptors_` by string, are searches of the lists they index.
* `version_` is `for_boot_image`, the one thing the version decides here.
* A failed merge is `none`.  The source returns `false` and leaves behind
  whatever it had merged so far; the model does not keep that state.
-/

/-- `ProfileCompilationInfo::kIndividualInlineCacheSize`. -/
def kIndividualInlineCacheSize : Nat := 5

/-- `DexFile::kDexNoIndex16`. -/
def kDexNoIndex16 : Nat := 0xFFFF

/-- `kMaxExtraDescriptors`. -/
def kMaxExtraDescriptors : Nat := kDexNoIndex16

/-- `MaxProfileIndex()`: the largest `uint16_t`. -/
def MaxProfileIndex : Nat := 0xFFFF

/-- `MethodHotness::kFlagLastRegular`. -/
def kFlagLastRegular : Nat := 1 <<< 2

/-- `MethodHotness::kFlagLastBoot`. -/
def kFlagLastBoot : Nat := 1 <<< 15

/-- `DexFileData::FlagBitmapIndex(flag)`. -/
def FlagBitmapIndex (flag : Nat) : Nat :=
  Nat.log2 flag - 1

/-- `DexPcData`: the inline cache of one dex pc. -/
structure DexPcData where
  is_missing_types : Bool
  is_megamorphic : Bool
  classes : Finset Nat
deriving DecidableEq

namespace DexPcData

/-- A fresh `DexPcData`. -/
def empty : DexPcData :=
  ⟨false, false, ∅⟩

/-- `DexPcData::AddClass(type_idx)`. -/
def AddClass (data : DexPcData) (type_idx : Nat) : DexPcData :=
  if data.is_megamorphic || data.is_missing_types then data
  else if type_idx ∈ data.classes then data
  else if data.classes.card + 1 ≥ kIndividualInlineCacheSize then
    { data with is_megamorphic := true, classes := ∅ }
  else
    { data with classes := insert type_idx data.classes }

/-- `DexPcData::SetIsMegamorphic()`. -/
def SetIsMegamorphic (data : DexPcData) : DexPcData :=
  if data.is_missing_types then data
  else { data with is_megamorphic := true, classes := ∅ }

/-- `DexPcData::SetIsMissingTypes()`. -/
def SetIsMissingTypes (data : DexPcData) : DexPcData :=
  { data with is_megamorphic := false, is_missing_types := true, classes := ∅ }

end DexPcData

/-- `InlineCacheMap`: dex pc to inline cache. -/
abbrev InlineCacheMap := Fin 0x10000 → Option DexPcData

/-- `MethodMap`: hot method index to its inline caches. -/
abbrev MethodMap := Fin 0x10000 → Option InlineCacheMap

/-- `DexFileData`: what a profile records about one dex file. -/
structure DexFileData where
  profile_key : String
  checksum : Nat
  num_type_ids : Nat
  num_method_ids : Nat
  is_for_boot_image : Bool
  method_map : MethodMap
  class_set : Finset Nat
  bitmap_storage : List Nat

namespace DexFileData

/-- `ComputeBitmapBits(is_for_boot_image, num_method_ids)`. -/
def ComputeBitmapBits (is_for_boot_image : Bool) (num_method_ids : Nat) : Nat :=
  num_method_ids *
    (FlagBitmapIndex (if is_for_boot_image then kFlagLastBoot else kFlagLastRegular) + 1)

/-- `ComputeBitmapStorage(is_for_boot_image, num_method_ids)`: the bitmap's
bytes. -/
def ComputeBitmapStorage (is_for_boot_image : Bool) (num_method_ids : Nat) : Nat :=
  (ComputeBitmapBits is_for_boot_image num_method_ids + 7) / 8

/-- The constructor `DexFileData(allocator, key, checksum, index, num_types,
num_methods, for_boot_image)`: no classes, no hot methods, a zero bitmap. -/
def create (key : String) (location_checksum num_types num_methods : Nat)
    (for_boot_image : Bool) : DexFileData where
  profile_key := key
  checksum := location_checksum
  num_type_ids := num_types
  num_method_ids := num_methods
  is_for_boot_image := for_boot_image
  method_map := fun _ => none
  class_set := ∅
  bitmap_storage := List.replicate (ComputeBitmapStorage for_boot_image num_methods) 0

/-- `FindOrAddHotMethod(method_index)` on the method's current entry: its
inline caches, an empty map for a method not yet hot, and `nullptr` past
`num_method_ids`. -/
def FindOrAddHotMethod (num_method_ids : Nat) (method_index : Fin 0x10000)
    (entry : Option InlineCacheMap) : Option InlineCacheMap :=
  if method_index.val ≥ num_method_ids then none else some (entry.getD fun _ => none)

/-- `MergeBitmap(other)`: byte-wise or. -/
def MergeBitmap (data other : DexFileData) : DexFileData :=
  { data with bitmap_storage := List.zipWith (· ||| ·) data.bitmap_storage other.bitmap_storage }

end DexFileData

/-- `FindOrAddDexPc(inline_cache, dex_pc)` on the dex pc's current entry. -/
def FindOrAddDexPc (entry : Option DexPcData) : DexPcData :=
  entry.getD DexPcData.empty

/-- The type index of `other`'s `type_index` in the merged profile: a type
with a `TypeId` keeps its index, a type named by an extra descriptor moves to
the descriptor's index in the merged profile, and an index that the 16-bit
type index cannot hold fails the merge. -/
def RemapTypeIndex (extra_descriptors_remap : List Nat) (num_type_ids type_index : Nat) :
    Option Nat :=
  if type_index ≥ num_type_ids then do
    let new_extra_descriptor_index ← extra_descriptors_remap[type_index - num_type_ids]?
    if new_extra_descriptor_index ≥ kDexNoIndex16 - num_type_ids then none
    else some (num_type_ids + new_extra_descriptor_index)
  else
    some type_index

/-- The merge of one dex pc's inline cache in `MergeWith`. -/
def MergeDexPcData (remap : Nat → Option Nat) (dex_pc_data other : DexPcData) :
    Option DexPcData :=
  if other.is_missing_types then some dex_pc_data.SetIsMissingTypes
  else if other.is_megamorphic then some dex_pc_data.SetIsMegamorphic
  else
    (other.classes.sort (· ≤ ·)).foldlM
      (fun data type_index => (remap type_index).map data.AddClass) dex_pc_data

/-- The merge of one method's inline caches in `MergeWith`. -/
def MergeInlineCache (remap : Nat → Option Nat) (inline_cache other_inline_cache : InlineCacheMap) :
    Option InlineCacheMap :=
  updateEachM (List.finRange 0x10000)
    (fun dex_pc entry =>
      match other_inline_cache dex_pc with
      | none => some entry
      | some other_data => (MergeDexPcData remap (FindOrAddDexPc entry) other_data).map some)
    inline_cache

/-- The merge of one dex file's classes in `MergeWith`: the classes with a
`TypeId` in bulk, then each class named by an extra descriptor under its new
index. -/
def MergeClasses (extra_descriptors_remap : List Nat) (num_type_ids : Nat)
    (class_set other_class_set : Finset Nat) : Option (Finset Nat) :=
  ((other_class_set.filter (num_type_ids ≤ ·)).sort (· ≤ ·)).foldlM
    (fun class_set type_index =>
      (RemapTypeIndex extra_descriptors_remap num_type_ids type_index).map
        (fun new_index => insert new_index class_set))
    (class_set ∪ other_class_set.filter (· < num_type_ids))

/-- The merge of one dex file's hot methods and inline caches in
`MergeWith`. -/
def MergeMethods (remap : Nat → Option Nat) (num_method_ids : Nat)
    (method_map other_method_map : MethodMap) : Option MethodMap :=
  updateEachM (List.finRange 0x10000)
    (fun method_index entry =>
      match other_method_map method_index with
      | none => some entry
      | some other_inline_cache => do
          let inline_cache ← DexFileData.FindOrAddHotMethod num_method_ids method_index entry
          let merged ← MergeInlineCache remap inline_cache other_inline_cache
          pure (some merged))
    method_map

/-- The body of `MergeWith`'s last loop for one dex file of `other`. -/
def MergeDexFileData (extra_descriptors_remap : List Nat) (merge_classes : Bool)
    (dex_data other_dex_data : DexFileData) : Option DexFileData := do
  let num_type_ids := dex_data.num_type_ids
  let remap := RemapTypeIndex extra_descriptors_remap num_type_ids
  let class_set ←
    if merge_classes then
      MergeClasses extra_descriptors_remap num_type_ids dex_data.class_set
        other_dex_data.class_set
    else
      pure dex_data.class_set
  let method_map ←
    MergeMethods remap dex_data.num_method_ids dex_data.method_map other_dex_data.method_map
  pure (DexFileData.MergeBitmap { dex_data with class_set, method_map } other_dex_data)

/-- `ProfileCompilationInfo`. -/
structure ProfileCompilationInfo where
  for_boot_image : Bool
  info_ : List DexFileData
  extra_descriptors_ : List String

namespace ProfileCompilationInfo

/-- `SameVersion(other)`. -/
def SameVersion (profile other : ProfileCompilationInfo) : Bool :=
  profile.for_boot_image == other.for_boot_image

/-- `FindDexData(profile_key, checksum, verify_checksum = false)`. -/
def FindDexData (profile : ProfileCompilationInfo) (profile_key : String) :
    Option DexFileData :=
  profile.info_.find? (·.profile_key == profile_key)

/-- `GetOrAddDexFileData(profile_key, checksum, num_type_ids,
num_method_ids)`: the profile, with a new entry for a new key, and the
entry's profile index. -/
def GetOrAddDexFileData (profile : ProfileCompilationInfo) (profile_key : String)
    (checksum num_type_ids num_method_ids : Nat) : Option (ProfileCompilationInfo × Nat) := do
  let (profile, profile_index) ←
    match profile.info_.findIdx? (·.profile_key == profile_key) with
    | some profile_index => some (profile, profile_index)
    | none =>
        if profile.info_.length = MaxProfileIndex then none
        else
          some ({ profile with
            info_ := profile.info_ ++ [DexFileData.create profile_key checksum num_type_ids
              num_method_ids profile.for_boot_image] }, profile.info_.length)
  let result ← profile.info_[profile_index]?
  if result.checksum ≠ checksum then none
  else if num_type_ids ≠ result.num_type_ids ∨ num_method_ids ≠ result.num_method_ids then none
  else some (profile, profile_index)

/-- `AddExtraDescriptor(extra_descriptor)`: the new index, or
`kMaxExtraDescriptors` when the table is full. -/
def AddExtraDescriptor (profile : ProfileCompilationInfo) (extra_descriptor : String) :
    ProfileCompilationInfo × Nat :=
  let new_extra_descriptor_index := profile.extra_descriptors_.length
  if new_extra_descriptor_index = kMaxExtraDescriptors then (profile, kMaxExtraDescriptors)
  else
    ({ profile with extra_descriptors_ := profile.extra_descriptors_ ++ [extra_descriptor] },
      new_extra_descriptor_index)

/-- The checksum loop of `MergeWith`: some dex file of `other` is in
`profile` with another checksum. -/
def ChecksumMismatch (profile other : ProfileCompilationInfo) : Bool :=
  other.info_.any fun other_dex_data =>
    match profile.FindDexData other_dex_data.profile_key with
    | some dex_data => dex_data.checksum != other_dex_data.checksum
    | none => false

/-- One iteration of the loop of `MergeWith` that builds
`dex_profile_index_remap`. -/
def RemapDexFile (state : ProfileCompilationInfo × List Nat) (other_dex_data : DexFileData) :
    Option (ProfileCompilationInfo × List Nat) := do
  let (profile, remap) := state
  let (profile, profile_index) ←
    profile.GetOrAddDexFileData other_dex_data.profile_key other_dex_data.checksum
      other_dex_data.num_type_ids other_dex_data.num_method_ids
  pure (profile, remap ++ [profile_index])

/-- The loop of `MergeWith` that builds `dex_profile_index_remap`. -/
def RemapDexFiles (profile other : ProfileCompilationInfo) :
    Option (ProfileCompilationInfo × List Nat) :=
  other.info_.foldlM RemapDexFile (profile, [])

/-- One iteration of the loop of `MergeWith` that builds
`extra_descriptors_remap`. -/
def RemapExtraDescriptor (state : ProfileCompilationInfo × List Nat)
    (other_extra_descriptor : String) : Option (ProfileCompilationInfo × List Nat) :=
  let (profile, remap) := state
  match profile.extra_descriptors_.idxOf? other_extra_descriptor with
  | some index => some (profile, remap ++ [index])
  | none =>
      let (profile, extra_descriptor_index) := profile.AddExtraDescriptor other_extra_descriptor
      if extra_descriptor_index = kMaxExtraDescriptors then none
      else some (profile, remap ++ [extra_descriptor_index])

/-- The loop of `MergeWith` that builds `extra_descriptors_remap`. -/
def RemapExtraDescriptors (profile other : ProfileCompilationInfo) :
    Option (ProfileCompilationInfo × List Nat) :=
  other.extra_descriptors_.foldlM RemapExtraDescriptor (profile, [])

/-- One iteration of the last loop of `MergeWith`: merge one dex file of
`other` into the entry at its remapped profile index. -/
def MergeDexFileEntry (extra_descriptors_remap : List Nat) (merge_classes : Bool)
    (info : List DexFileData) (entry : DexFileData × Nat) : Option (List DexFileData) := do
  let (other_dex_data, profile_index) := entry
  let dex_data ← info[profile_index]?
  let merged ← MergeDexFileData extra_descriptors_remap merge_classes dex_data other_dex_data
  pure (info.set profile_index merged)

/-- `MergeWith(other, merge_classes)`. -/
def MergeWith (profile other : ProfileCompilationInfo) (merge_classes : Bool) :
    Option ProfileCompilationInfo := do
  if !profile.SameVersion other then none
  if profile.ChecksumMismatch other then none
  let (profile, dex_profile_index_remap) ← profile.RemapDexFiles other
  let (profile, extra_descriptors_remap) ← profile.RemapExtraDescriptors other
  let info ←
    (other.info_.zip dex_profile_index_remap).foldlM
      (MergeDexFileEntry extra_descriptors_remap merge_classes) profile.info_
  pure { profile with info_ := info }

end ProfileCompilationInfo

end ArtRuntime.Profile
