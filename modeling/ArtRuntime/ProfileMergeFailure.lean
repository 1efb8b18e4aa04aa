import ArtRuntime.ProfileCompilationInfo

namespace ArtRuntime.Profile.ProfileCompilationInfo

open ArtRuntime.OptionLoop

/-!
# What a failed `MergeWith` leaves behind

`MergeWith` works on `this` in place.  Its version and checksum checks only
read, but the loop that builds `dex_profile_index_remap` adds each dex file
of `other` that `this` lacks before it looks at the next one, and returns
`false` at the first dex file that `GetOrAddDexFileData` refuses.  The model
of `MergeWith` is a function to `Option`, which forgets what the loop added;
`RemapDexFilesInPlace` is the same loop as the source runs it, through
`foldInPlace`, and keeps it.

`RemapDexFiles_eq` connects the two, `info_prefix_RemapDexFilesInPlace` says
that the loop only appends dex files, and `MergeWith_fails_after_adding` is a
merge that returns `false` with a dex file of `other` left in the profile.
-/

/-- The loop of `MergeWith` that builds `dex_profile_index_remap`, run on
`this` in place: the profile it reaches and whether every dex file of `other`
found or got an entry. -/
def RemapDexFilesInPlace (profile other : ProfileCompilationInfo) :
    ProfileCompilationInfo × Bool :=
  let ran := foldInPlace RemapDexFile (profile, []) other.info_
  (ran.1.1, ran.2)

/-- The remap loop of the model of `MergeWith` is the in-place loop, with the
state forgotten when it stops. -/
theorem RemapDexFiles_eq (profile other : ProfileCompilationInfo) :
    profile.RemapDexFiles other =
      if (foldInPlace RemapDexFile (profile, []) other.info_).2 then
        some (foldInPlace RemapDexFile (profile, []) other.info_).1
      else none :=
  foldlM_eq_foldInPlace RemapDexFile (profile, []) other.info_

/-- When the in-place loop stops, `MergeWith` fails. -/
theorem MergeWith_eq_none_of_stopped {profile other : ProfileCompilationInfo}
    (stopped : (profile.RemapDexFilesInPlace other).2 = false) (merge_classes : Bool) :
    profile.MergeWith other merge_classes = none := by
  have remapFails : profile.RemapDexFiles other = none := by
    rw [RemapDexFiles_eq]
    simp only [RemapDexFilesInPlace] at stopped
    simp [stopped]
  simp only [MergeWith, remapFails]
  split <;> simp

/-- `GetOrAddDexFileData` keeps the dex files it finds and at most appends
one. -/
theorem info_prefix_GetOrAddDexFileData {profile : ProfileCompilationInfo} {profile_key : String}
    {checksum num_type_ids num_method_ids : Nat} {result : ProfileCompilationInfo × Nat}
    (added : profile.GetOrAddDexFileData profile_key checksum num_type_ids num_method_ids =
      some result) :
    profile.info_ <+: result.1.info_ := by
  -- The checks after the lookup return the profile the lookup produced.
  have checked : ∀ {found : ProfileCompilationInfo} {profile_index : Nat}
      {lookup : Option DexFileData}, (lookup.bind fun entry =>
        if entry.checksum ≠ checksum then none
        else if num_type_ids ≠ entry.num_type_ids ∨ num_method_ids ≠ entry.num_method_ids then none
        else some (found, profile_index)) = some result → result.1 = found := by
    intro found profile_index lookup checks
    obtain ⟨entry, -, checks⟩ := Option.bind_eq_some_iff.mp checks
    split at checks
    · cases checks
    · split at checks
      · cases checks
      · cases checks
        rfl
  rw [GetOrAddDexFileData] at added
  -- The entry is found, or appended when the table has room.
  split at added
  · simp only [Option.bind_eq_bind, Option.bind_some] at added
    rw [checked added]
  · split at added
    · simp at added
    · simp only [Option.bind_eq_bind, Option.bind_some] at added
      rw [checked added]
      exact List.prefix_append _ _

/-- The in-place remap loop only appends dex files: those of `this` stay at
their profile indexes, also when the loop stops. -/
theorem info_prefix_RemapDexFilesInPlace (profile other : ProfileCompilationInfo) :
    profile.info_ <+: (profile.RemapDexFilesInPlace other).1.info_ := by
  show profile.info_ <+: (foldInPlace RemapDexFile (profile, []) other.info_).1.1.info_
  exact foldInPlace_invariant
    (fun state : ProfileCompilationInfo × List Nat => profile.info_ <+: state.1.info_)
    (fun state other_dex_data next extends_ stepped => by
      simp only [RemapDexFile, Option.bind_eq_bind] at stepped
      cases added : state.1.GetOrAddDexFileData other_dex_data.profile_key
          other_dex_data.checksum other_dex_data.num_type_ids other_dex_data.num_method_ids with
      | none => simp [added] at stepped
      | some result =>
        simp only [added, Option.bind_some, Option.pure_def, Option.some.injEq] at stepped
        rw [← stepped]
        exact extends_.trans (info_prefix_GetOrAddDexFileData added))
    (profile, []) other.info_ (List.prefix_refl _)

/-- A profile with the dex file `"a"`: checksum `1`, one type id, no
methods. -/
def singleDexProfile : ProfileCompilationInfo where
  for_boot_image := false
  info_ := [DexFileData.create "a" 1 1 0 false]
  extra_descriptors_ := []

/-- The dex file `"b"`, then `"a"` with the same checksum and two type ids. -/
def mismatchedProfile : ProfileCompilationInfo where
  for_boot_image := false
  info_ := [DexFileData.create "b" 2 1 0 false, DexFileData.create "a" 1 2 0 false]
  extra_descriptors_ := []

/-- The checksums agree, so the merge gets past its checks; it then adds
`"b"`, refuses `"a"` for its number of type ids and returns `false`, with
`"b"` left in the profile. -/
theorem MergeWith_fails_after_adding :
    singleDexProfile.SameVersion mismatchedProfile = true ∧
      singleDexProfile.ChecksumMismatch mismatchedProfile = false ∧
      (singleDexProfile.MergeWith mismatchedProfile true).isNone = true ∧
      (singleDexProfile.RemapDexFilesInPlace mismatchedProfile).2 = false ∧
      singleDexProfile.info_.map (·.profile_key) = ["a"] ∧
      (singleDexProfile.RemapDexFilesInPlace mismatchedProfile).1.info_.map (·.profile_key) =
        ["a", "b"] := by
  decide +kernel

end ArtRuntime.Profile.ProfileCompilationInfo
