import Bootstrap.VirtualApk

/-! Which names the new central directory lists. A removed name is kept out of
filename_2_entry, but the second emission loop does not ask whether a name was removed. -/
namespace Bootstrap.ShadowZip
open CInt ByteLayout Zip ParseApk

def baseNames (disk : Disk) : List Bytes := (apkRefs disk).map (nameOf disk)
def patchNames (disk : Disk) : List Bytes := (patchRefs disk).map (nameOf disk)
def directoryNames (res : Result) : List Bytes := res.emitted.map fileName

/-- The directory in .patch.data has the base and patch names without the removed ones, each once, and each
from where it is newest. -/
structure MergeLaw (disk : Disk) (res : Result) : Prop where
  written : centralDir res.emitted <+: res.patchData
  once : (directoryNames res).Nodup
  names : ∀ n, n ∈ directoryNames res ↔ (n ∈ baseNames disk ∨ n ∈ patchNames disk) ∧ n ∉ removedNames disk
  newest : ∀ r ∈ res.allEntries,
    (nameOf disk r ∈ patchNames disk → r ∈ patchRefs disk) ∧ (nameOf disk r ∉ patchNames disk → r ∈ apkRefs disk)

section
variable {patchDir sysApkFile : Bytes} {disk : Disk} {res : Result}

theorem directoryOrder (run : InitRun patchDir sysApkFile disk res) :
    res.allEntries = order disk ∧ directoryNames res = (order disk).map (nameOf disk) := by
  obtain ⟨s, emits, same⟩ := run.run
  obtain ⟨names, _, emitted⟩ := emitsKeeps emits
  have entriesSame : res.allEntries = order disk := by rw [same]; exact emitted
  have heapSame : res.heap = s.heap := by rw [same]; rfl
  refine ⟨entriesSame, ?_⟩
  rw [directoryNames, Result.emitted, List.map_map, entriesSame]
  refine List.map_congr_left fun r _ => ?_
  simp only [Function.comp_apply, heapSame, nameOf, fileName, names r]
  rfl

theorem directoryWritten (run : InitRun patchDir sysApkFile disk res) : centralDir res.emitted <+: res.patchData := by
  obtain ⟨s, _, same⟩ := run.run
  rw [same, writtenData]
  exact List.prefix_append _ _

theorem apkOrderKept (run : InitRun patchDir sysApkFile disk res) {t : EntryRef} (mem : t ∈ apkOrder disk) :
    nameOf disk t ∉ removedNames disk ∧ nameOf disk t ∈ baseNames disk := by
  obtain ⟨r, known, choice⟩ := memApkOrder.mp mem
  obtain ⟨kept, named, _⟩ := chosen run choice
  rw [named]
  exact ⟨kept, List.mem_map_of_mem known⟩

theorem apkOrderNames {n : Bytes} (base : n ∈ baseNames disk) (kept : n ∉ removedNames disk) :
    ∃ r ∈ apkRefs disk, nameOf disk r = n ∧ (replacement disk n).getD r ∈ apkOrder disk := by
  obtain ⟨r, known, rfl⟩ := List.mem_map.mp base
  exact ⟨r, known, rfl, memApkOrder.mpr ⟨r, known, by rw [if_neg kept]⟩⟩

theorem removedEmitted (run : InitRun patchDir sysApkFile disk res) {r : EntryRef} (patch : r ∈ patchRefs disk)
    (gone : nameOf disk r ∈ removedNames disk) : r ∈ order disk := by
  refine List.mem_append_right _ (List.mem_filter.mpr ⟨patch, decide_eq_true fun first => ?_⟩)
  exact (apkOrderKept run first).1 gone

theorem mergeHolds (run : InitRun patchDir sysApkFile disk res) (distinct : DistinctNames disk)
    (kept : ∀ r ∈ patchRefs disk, nameOf disk r ∉ removedNames disk) : MergeLaw disk res := by
  obtain ⟨entriesSame, names⟩ := directoryOrder run
  have standing : ∀ r ∈ patchRefs disk, replacement disk (nameOf disk r) = some r :=
    fun r mem => (run.replaced _ r).mpr ⟨mem, rfl, kept r mem⟩
  -- a patch entry that the first loop left out has a name the base APK does not have
  have added : ∀ r ∈ patchOrder disk, nameOf disk r ∉ baseNames disk := by
    intro r mem base
    obtain ⟨patch, out⟩ := List.mem_filter.mp mem
    obtain ⟨t, _, named, inside⟩ := apkOrderNames base (kept r patch)
    rw [standing r patch, Option.getD_some] at inside
    exact of_decide_eq_true out inside
  refine ⟨directoryWritten run, ?_, ?_, ?_⟩
  · rw [names, order, List.map_append]
    refine List.nodup_append'.mpr ⟨apkNamesOnce run distinct, ?_, ?_⟩
    · refine List.Nodup.map_on ?_ ((refsFromNodup 2 _).filter _)
      intro r left t right same
      have one := standing r (List.mem_filter.mp left).1
      rw [same, standing t (List.mem_filter.mp right).1] at one
      exact (Option.some.inj one).symm
    · intro n left right
      obtain ⟨t, first, rfl⟩ := List.mem_map.mp left
      obtain ⟨r, second, same⟩ := List.mem_map.mp right
      exact added r second (same ▸ (apkOrderKept run first).2)
  · intro n
    rw [names]
    constructor
    · intro mem
      obtain ⟨r, known, rfl⟩ := List.mem_map.mp mem
      rcases List.mem_append.mp known with first | second
      · obtain ⟨stays, base⟩ := apkOrderKept run first
        exact ⟨.inl base, stays⟩
      · have patch := (List.mem_filter.mp second).1
        exact ⟨.inr (List.mem_map_of_mem patch), kept r patch⟩
    · rintro ⟨base | patch, stays⟩
      · obtain ⟨r, known, named, inside⟩ := apkOrderNames base stays
        refine List.mem_map.mpr ⟨_, List.mem_append_left _ inside, ?_⟩
        cases found : replacement disk n with
        | none => exact named
        | some p => exact ((run.replaced n p).mp found).2.1
      · obtain ⟨r, known, rfl⟩ := List.mem_map.mp patch
        by_cases first : r ∈ apkOrder disk
        · exact List.mem_map_of_mem (List.mem_append_left _ first)
        · exact List.mem_map_of_mem (List.mem_append_right _ (List.mem_filter.mpr ⟨known, decide_eq_true first⟩))
  · intro r mem
    rw [entriesSame] at mem
    rcases List.mem_append.mp mem with first | second
    · obtain ⟨a, known, choice⟩ := memApkOrder.mp first
      obtain ⟨stays, named, which⟩ := chosen run choice
      rw [if_neg stays] at choice
      constructor
      · intro patch
        obtain ⟨p, inside, same⟩ := List.mem_map.mp patch
        have found := standing p inside
        rw [same, named] at found
        rw [found, Option.getD_some] at choice
        exact Option.some.inj choice ▸ inside
      · intro absent
        rcases which with patch | own
        · exact absurd (List.mem_map_of_mem patch) absent
        · exact own ▸ known
    · have patch := (List.mem_filter.mp second).1
      exact ⟨fun _ => patch, fun absent => absurd (List.mem_map_of_mem patch) absent⟩

theorem mergeLawExactly (accepted : init patchDir sysApkFile disk = .ok res) (distinct : DistinctNames disk) :
    MergeLaw disk res ↔ ∀ r ∈ patchRefs disk, nameOf disk r ∉ removedNames disk := by
  have run := initRun accepted
  constructor
  · intro law r patch gone
    have listed : nameOf disk r ∈ directoryNames res := by
      rw [(directoryOrder run).2]
      exact List.mem_map_of_mem (removedEmitted run patch gone)
    exact ((law.names _).mp listed).2 gone
  · exact mergeHolds run distinct

end

theorem sampleMerge : MergeLaw sampleDisk sampleResult :=
  (mergeLawExactly sampleAccepted (by decide +kernel)).mpr (by decide +kernel)

/- The patch brings the file that the list removes. -/
def removedPatchDisk : Disk where
  apk := some (archiveOf [⟨[97], [1, 2, 3], 0x55bc801d⟩])
  patches := [([112], some (archiveOf [⟨[98], [9, 9, 9], 0x588ee170⟩]))]
  removedFiles := some [98, 10]
  headerOpens := true
  endOpens := true

theorem removedNameEmitted : ∃ res, init [47, 112] [47, 97] removedPatchDisk = .ok res ∧
    DistinctNames removedPatchDisk ∧ removedNames removedPatchDisk = [[98]] ∧ directoryNames res = [[97], [98]] ∧
    ¬ MergeLaw removedPatchDisk res := by
  have accepted : init [47, 112] [47, 97] removedPatchDisk = .ok (resultOf [47, 112] [47, 97] removedPatchDisk) :=
    acceptedResult (by decide +kernel)
  have names : directoryNames (resultOf [47, 112] [47, 97] removedPatchDisk) = [[97], [98]] := by decide +kernel
  have removed : removedNames removedPatchDisk = [[98]] := by decide +kernel
  refine ⟨_, accepted, by decide +kernel, removed, names, fun law => ?_⟩
  have listed : [98] ∈ directoryNames (resultOf [47, 112] [47, 97] removedPatchDisk) := by simp [names]
  exact ((law.names [98]).mp listed).2 (by simp [removed])

end Bootstrap.ShadowZip
