import Bootstrap.TableInvariant

/-! Which tables refer only to bytes that exist. The ranges come from header fields that nobody
compares with the length of the archive, and an entry that is emitted again takes its range from
the place of its first emission. -/
namespace Bootstrap.ShadowZip
open CInt ByteLayout Zip ParseApk SerialUtils Tiling

def Servable (disk : Disk) (res : Result) : Prop := ∀ p ∈ res.globalData.patchPartitions,
  p.startInFile ≤ p.stopInFile ∧ p.stopInFile ≤ (contents disk res p.fileIndex).length

/-- Every entry ends inside its archive, wherever its offset field says that it begins when it is emitted. -/
def Backed (disk : Disk) : Prop :=
  ∀ c ∈ planned disk, dataStop c.entry ≤ (archiveFiles disk c.ref.1).length

instance (disk res) : Decidable (Servable disk res) := by unfold Servable; infer_instance
instance (disk) : Decidable (Backed disk) := by unfold Backed; infer_instance

theorem joinsHeld {files : Nat → Bytes} {es : List ZipEntry} {b b' : Build} (run : Joins es b b')
    (inside : ∀ e ∈ es, e.mUserData1 ≠ 1 ∧ dataStop e ≤ (files e.mUserData1).length) (held : AllHeld files b) :
    AllHeld files b' := by
  induction run with
  | nil => exact held
  | cons added rest ih =>
    obtain ⟨other, within⟩ := inside _ List.mem_cons_self
    exact ih (fun f mem => inside f (List.mem_cons_of_mem _ mem)) (addedHeld added other within held)

def Reaches (file stop : Nat) (ps : List FilePartitionInfo) : Prop := ∃ p ∈ ps, p.fileIndex = file ∧ stop ≤ p.stopInFile

theorem addedReaches {i : Nat} {e : ZipEntry} {b b' : Build} (added : Added i e b b') :
    Reaches i (dataStop e) b'.patchPartitions := by
  have ordered := spanOrdered e
  cases added with
  | merged ps p table file adjacent aligned =>
    refine ⟨_, List.mem_append_right _ List.mem_cons_self, file, ?_⟩
    simp only [adjacent, entrySize]
    omega
  | moved unaligned header written =>
    exact ⟨_, List.mem_append_right _ (List.mem_cons_of_mem _ List.mem_cons_self), rfl, Nat.le_refl _⟩
  | fresh aligned => exact ⟨_, List.mem_append_right _ List.mem_cons_self, rfl, Nat.le_refl _⟩

theorem addedKeepsReach {i file stop : Nat} {e : ZipEntry} {b b' : Build} (added : Added i e b b')
    (reaches : Reaches file stop b.patchPartitions) : Reaches file stop b'.patchPartitions := by
  obtain ⟨q, mem, own, far⟩ := reaches
  cases added with
  | merged ps p table same adjacent aligned =>
    rw [table] at mem
    rcases List.mem_append.mp mem with old | last
    · exact ⟨q, List.mem_append_left _ old, own, far⟩
    · obtain rfl := List.mem_singleton.mp last
      refine ⟨_, List.mem_append_right _ List.mem_cons_self, own, ?_⟩
      dsimp only
      omega
  | moved unaligned header written => exact ⟨q, List.mem_append_left _ mem, own, far⟩
  | fresh aligned => exact ⟨q, List.mem_append_left _ mem, own, far⟩

theorem joinsKeepReach {file stop : Nat} {es : List ZipEntry} {b b' : Build} (run : Joins es b b')
    (reaches : Reaches file stop b.patchPartitions) : Reaches file stop b'.patchPartitions := by
  induction run with
  | nil => exact reaches
  | cons added rest ih => exact ih (addedKeepsReach added reaches)

theorem joinsReach {es : List ZipEntry} {b b' : Build} (run : Joins es b b') :
    ∀ e ∈ es, Reaches e.mUserData1 (dataStop e) b'.patchPartitions := by
  induction run with
  | nil => simp
  | cons added rest ih =>
    intro f mem
    rcases List.mem_cons.mp mem with rfl | mem
    · exact joinsKeepReach rest (addedReaches added)
    · exact ih f mem

section
variable {patchDir sysApkFile : Bytes} {disk : Disk} {res : Result}

theorem servableBacked (run : InitRun patchDir sysApkFile disk res) {es : List ZipEntry} {b : Build}
    (joins : Joins es startBuild b) (table : b.patchPartitions <+: res.globalData.patchPartitions)
    (planned : es = plannedEntries disk) (servable : Servable disk res) : Backed disk := by
  intro c mem
  subst planned
  obtain ⟨known, own, _⟩ := plannedFrom run mem
  obtain ⟨p, there, file, far⟩ := joinsReach joins c.entry (List.mem_map_of_mem mem)
  have held := (servable p (table.subset there)).2
  rw [file, own, archiveContents res known] at held
  exact Nat.le_trans far held

theorem backedServable (run : InitRun patchDir sysApkFile disk res) {b : Build}
    (joins : Joins (plannedEntries disk) startBuild b) (header : res.entriesHeader = b.header)
    (backed : Backed disk) : ∀ p ∈ b.patchPartitions,
      p.startInFile ≤ p.stopInFile ∧ p.stopInFile ≤ (contents disk res p.fileIndex).length := by
  have held : AllHeld (archiveFiles disk) b := by
    refine joinsHeld joins (fun e mem => ?_) (fun p mem => by simp [startBuild, pieces] at mem)
    obtain ⟨c, known, rfl⟩ := List.mem_map.mp mem
    obtain ⟨_, own, other, _⟩ := plannedFrom run known
    rw [own]
    exact ⟨other, backed c known⟩
  intro p mem
  have known : piece p ∈ pieces b.patchPartitions := List.mem_map_of_mem mem
  have ordered := (tilesEven (joinsReady joins startReady).tiles _ known).ordered
  have within : (piece p).Held (contents disk res) := heldGrow (header ▸ contentsGrow disk res) (held _ known)
  exact ⟨ordered, within⟩

theorem servableExactly (accepted : init patchDir sysApkFile disk = .ok res) (sized : Sized disk) :
    Servable disk res ↔ Backed disk := by
  have run := initRun accepted
  obtain ⟨s, same, _, _, joins, _⟩ := initFollows run sized
  have table : res.globalData.patchPartitions = s.build.patchPartitions ++ [⟨s.build.preShadowStop,
      res.globalData.endOfFile, (allFilesOf patchDir sysApkFile disk).length - 1, 0, u64 res.patchData.length⟩] := by
    rw [same]
    rfl
  constructor
  · exact servableBacked run joins (table ▸ List.prefix_append _ _) rfl
  · intro backed p mem
    rw [table] at mem
    rcases List.mem_append.mp mem with front | last
    · exact backedServable run joins (by rw [same]; rfl) backed p front
    · have index : (allFilesOf patchDir sysApkFile disk).length - 1 = disk.patches.length + 2 := by simp [allFilesOf]
      have within : u64 (res.patchData.length : Int) ≤ res.patchData.length := by
        unfold u64
        omega
      rw [List.mem_singleton.mp last, index, lastFile]
      exact ⟨Nat.zero_le _, within⟩

end

theorem sampleSized : Sized sampleDisk := ⟨by decide +kernel, by decide +kernel, by decide +kernel⟩

theorem sampleServable : Servable sampleDisk sampleResult ∧ Backed sampleDisk :=
  have backed : Backed sampleDisk := by decide +kernel
  ⟨(servableExactly sampleAccepted sampleSized).mpr backed, backed⟩

/- The size field of the only record says 65539 where the file has three bytes. -/
def oversizedDisk : Disk :=
  { sampleDisk with apk := some ((archiveOf [⟨[97], [1, 2, 3], 0x55bc801d⟩]).set 56 1), removedFiles := none }

/- A name that stands twice in the base APK and is replaced: its second emission takes the bytes of the patch from
where the first one came to stand. -/
def repeatedDisk : Disk where
  apk := some (archiveOf [⟨[99], List.replicate 40 6, 0⟩, ⟨[97], [1], 0⟩, ⟨[97], [2], 0⟩])
  patches := [([112], some (archiveOf [⟨[97], [9, 9, 9], 0⟩]))]
  removedFiles := none
  headerOpens := true
  endOpens := true

theorem pastTheEnd : (∃ res, init [47, 112] [47, 97] oversizedDisk = .ok res ∧ ¬ Servable oversizedDisk res) ∧
    ∃ res, init [47, 112] [47, 97] repeatedDisk = .ok res ∧ ¬ Servable repeatedDisk res :=
  ⟨⟨resultOf [47, 112] [47, 97] oversizedDisk, acceptedResult (by decide +kernel), by decide +kernel⟩,
    resultOf [47, 112] [47, 97] repeatedDisk, acceptedResult (by decide +kernel), by decide +kernel⟩

end Bootstrap.ShadowZip
