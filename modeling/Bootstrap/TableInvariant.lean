import Bootstrap.EmissionPlan
import Bootstrap.VirtualApk

/-! The partition table after every call of add_entry_to_partition, and as init hands it out:
it tiles the virtual file, its pieces are as long on both sides, and its files exist. -/
namespace Bootstrap.ShadowZip
open CInt ByteLayout Zip ParseApk SerialUtils Tiling

structure TableInvariant (files : Nat) (b : Build) : Prop where
  tiles : Tiles 0 (pieces b.patchPartitions) b.preShadowStop
  indices : ∀ p ∈ b.patchPartitions, p.fileIndex < files

theorem addedIndices {files i : Nat} {e : ZipEntry} {b b' : Build} (two : 2 ≤ files) (own : i < files)
    (added : Added i e b b') (indices : ∀ p ∈ b.patchPartitions, p.fileIndex < files) :
    ∀ p ∈ b'.patchPartitions, p.fileIndex < files := by
  intro p mem
  cases added with
  | merged ps q table file adjacent aligned =>
    rw [table] at indices
    rcases List.mem_append.mp mem with old | last
    · exact indices p (List.mem_append_left _ old)
    · rw [List.mem_singleton.mp last]
      exact indices q (List.mem_append_right _ (List.mem_singleton.mpr rfl))
  | moved unaligned header written =>
    simp only [List.mem_append, List.mem_cons, List.not_mem_nil, or_false] at mem
    rcases mem with old | rfl | rfl
    · exact indices p old
    · exact two
    · exact own
  | fresh aligned =>
    rcases List.mem_append.mp mem with old | last
    · exact indices p old
    · rw [List.mem_singleton.mp last]
      exact own

theorem joinsIndices {files : Nat} {es : List ZipEntry} {b b' : Build} (two : 2 ≤ files) (run : Joins es b b')
    (own : ∀ e ∈ es, e.mUserData1 < files) (indices : ∀ p ∈ b.patchPartitions, p.fileIndex < files) :
    ∀ p ∈ b'.patchPartitions, p.fileIndex < files := by
  induction run with
  | nil => exact indices
  | cons added rest ih =>
    refine ih (fun f mem => own f (List.mem_cons_of_mem _ mem)) ?_
    exact addedIndices two (own _ List.mem_cons_self) added indices

theorem callsTable {files : Nat} {es : List ZipEntry} (two : 2 ≤ files) (fit : ∀ e ∈ es, e.mUserData1 < files ∧ Fit e)
    (total : placeAfter 0 es < 2 ^ 31) :
    ∃ b, addEntries es startBuild = .ok b ∧ Joins es startBuild b ∧ Ready b ∧ TableInvariant files b := by
  have header := headerAfterLe 0 es
  obtain ⟨b, calls, joins⟩ := addEntriesJoin startReady (fun e mem => (fit e mem).2) (Nat.lt_trans total (by decide))
    (by simp only [startBuild, List.length_nil]; omega)
  have ready := joinsReady joins startReady
  exact ⟨b, calls, joins, ready, ready.tiles, joinsIndices two joins (fun e mem => (fit e mem).1) (by simp [startBuild])⟩

theorem heapAfterDescends (rs : List EntryRef) (heap : Heap) (place : Nat) (t : EntryRef) :
    Descends (heap t) (heapAfter rs heap place t) := by
  induction rs generalizing heap place with
  | nil => exact .refl _
  | cons r rs ih =>
    have further := ih (Function.update heap r (settled (heap r) place)) (place + emittedLength (heap r) place)
    by_cases own : t = r
    · subst t
      rw [Function.update_self] at further
      exact (settledDescends _ _).trans further
    · rw [Function.update_of_ne own] at further
      exact further

theorem writeLeast (h : LocalFileHeader) : 30 ≤ h.write.length := by
  rw [LocalFileHeader.write, List.length_append, packLength]
  simp [LocalFileHeader.fields, widths]

theorem emittedLeast (e : ZipEntry) (place : Nat) : 30 ≤ emittedLength e place := by
  have least := writeLeast (padded e place).mLFH
  unfold emittedLength
  split
  · unfold entrySize dataStop dataStart LocalFileHeader.kLFHLen
    omega
  · omega

theorem placeAfterCount (place : Nat) (es : List ZipEntry) : place + 30 * es.length ≤ placeAfter place es := by
  induction es generalizing place with
  | nil => exact Nat.le_refl _
  | cons e es ih =>
    have least := emittedLeast e place
    have rest := ih (place + emittedLength e place)
    rw [List.length_cons, placeAfter]
    omega

theorem plannedCount (disk : Disk) : (plannedEntries disk).length = (order disk).length := by
  have all := congrArg List.length (planRefs (order disk) (entries disk) 0)
  rw [List.length_map] at all
  rw [plannedEntries, List.length_map]
  exact all

theorem recordMoved (c : CentralDirEntry) (mLocalHeaderRelOffset : Nat) :
    { c with mLocalHeaderRelOffset }.write.length = c.write.length := by
  simp only [CentralDirEntry.write, List.length_append, packLength, CentralDirEntry.fields, widths, List.map_cons,
    List.map_nil]

theorem recordsBound (heap : Heap) {rs : List EntryRef} (bound : ∀ r ∈ rs, (heap r).mCDE.write.length < 2 ^ 18) :
    (rs.flatMap (fun r => (heap r).mCDE.write)).length ≤ rs.length * 2 ^ 18 := by
  induction rs with
  | nil => simp
  | cons r rs ih =>
    have head := bound r List.mem_cons_self
    have tail := ih (fun t mem => bound t (List.mem_cons_of_mem _ mem))
    rw [List.flatMap_cons, List.length_append, List.length_cons]
    omega

section
variable {patchDir sysApkFile : Bytes} {disk : Disk} {res : Result}

theorem orderValid (run : InitRun patchDir sysApkFile disk res) {r : EntryRef} (mem : r ∈ order disk) :
    (entries disk r).mCDE.Valid := by
  obtain ⟨path, _, e, own, same, _, _⟩ := entryOf (orderKnown run mem)
  rw [same]
  exact (parsedFiles own).found.mCDE

theorem followedRecord {heap : Heap} {place : Nat} {s : Loop} (run : InitRun patchDir sysApkFile disk res)
    (follows : Follows heap place s) (descends : ∀ t, Descends (entries disk t) (heap t)) {r : EntryRef}
    (mem : r ∈ order disk) : (s.heap r).mCDE.write.length < 2 ^ 18 := by
  obtain ⟨_, ⟨offset, record⟩, _⟩ := descends r
  rw [(follows.same r).mCDE, record, recordMoved]
  exact recordBound (orderValid run mem)

structure Finished (disk : Disk) (res : Result) (b : Build) : Prop where
  table : res.globalData.patchPartitions = b.patchPartitions ++
    [⟨b.preShadowStop, res.globalData.endOfFile, disk.patches.length + 2, 0, res.patchData.length⟩]
  stop : res.globalData.endOfFile = b.preShadowStop + res.patchData.length
  header : res.entriesHeader = b.header
  files : res.globalData.allFiles.length = disk.patches.length + 3

theorem initFinished (run : InitRun patchDir sysApkFile disk res) (sized : Sized disk)
    (total : placeAfter 0 (plannedEntries disk) < 2 ^ 40) : ∃ s, res = finish (allFilesOf patchDir sysApkFile disk) s ∧
      s.allEntries = order disk ∧ addEntries (plannedEntries disk) startBuild = .ok s.build ∧
      Joins (plannedEntries disk) startBuild s.build ∧
      Follows (heapAfter (order disk) (entries disk) 0) (placeAfter 0 (plannedEntries disk)) s ∧ Finished disk res s.build := by
  obtain ⟨s, same, emitted, calls, joins, follows⟩ := initFollows run sized
  refine ⟨s, same, emitted, calls, joins, follows, ?_⟩
  have count := placeAfterCount 0 (plannedEntries disk)
  rw [plannedCount] at count
  have records := recordsBound s.heap (fun r mem => followedRecord run follows
    (fun t => heapAfterDescends (order disk) (entries disk) 0 t) mem)
  have patchData : res.patchData.length = (s.allEntries.flatMap (fun r => (s.heap r).mCDE.write)).length + 22 := by
    rw [same]
    simp only [finish, List.length_append]
    rw [EndOfCentralDir.writeLength rfl]
    rfl
  rw [emitted] at patchData
  have place := follows.place
  have size : u64 (res.patchData.length : Int) = res.patchData.length := u64Exact (by omega)
  have sum : u64 ((s.build.preShadowStop + res.patchData.length : Nat) : Int) = s.build.preShadowStop + res.patchData.length :=
    u64Exact (by omega)
  have stop : res.globalData.endOfFile = u64 ((s.build.preShadowStop + u64 res.patchData.length : Nat) : Int) := by
    rw [same]
    rfl
  rw [size, sum] at stop
  have files : (allFilesOf patchDir sysApkFile disk).length = disk.patches.length + 3 := by
    simp [allFilesOf]
  refine ⟨?_, stop, by rw [same]; rfl, by rw [same]; exact files⟩
  have table : res.globalData.patchPartitions = s.build.patchPartitions ++ [⟨s.build.preShadowStop,
      res.globalData.endOfFile, (allFilesOf patchDir sysApkFile disk).length - 1, 0, u64 res.patchData.length⟩] := by
    rw [same]
    rfl
  rw [table, size, files]
  rfl

theorem finishedTiles {b : Build} (finished : Finished disk res b) (tiles : Tiles 0 (pieces b.patchPartitions) b.preShadowStop) :
    Tiles 0 (pieces res.globalData.patchPartitions) res.globalData.endOfFile := by
  have stop := finished.stop
  rw [finished.table, piecesSnoc]
  exact tilesSnoc tiles (p := piece ⟨b.preShadowStop, res.globalData.endOfFile, disk.patches.length + 2, 0,
    res.patchData.length⟩) rfl ⟨Nat.zero_le _, by simp only [piece]; omega⟩

theorem plannedIndex (run : InitRun patchDir sysApkFile disk res) {c : Emission} (mem : c ∈ planned disk) :
    c.entry.mUserData1 < disk.patches.length + 2 := by
  obtain ⟨known, own, _⟩ := plannedFrom run mem
  rw [own]
  rcases known with apk | patch
  · have zero := (memRefs.mp apk).1
    omega
  · obtain ⟨k, es, there, place, _⟩ := memRefsFrom.mp patch
    obtain ⟨inside, _⟩ := List.getElem?_eq_some_iff.mp there
    rw [patchEntries, List.length_map] at inside
    omega

end

structure InitTable (disk : Disk) (res : Result) : Prop where
  calls : ∃ b, addEntries (plannedEntries disk) startBuild = .ok b ∧
    res.globalData.patchPartitions.dropLast = b.patchPartitions
  drawn : ∀ e ∈ plannedEntries disk, e.mUserData1 < res.globalData.allFiles.length ∧ Fit e
  tiles : Tiles 0 (pieces res.globalData.patchPartitions) res.globalData.endOfFile
  indices : ∀ p ∈ res.globalData.patchPartitions, p.fileIndex < res.globalData.allFiles.length

/-- However many entries are added, in any order and from any files: no call fails, each joins the table in one of
the three ways, and the table keeps its invariant; so does the table of init. -/
theorem partitionsTile :
    (∀ files es, 2 ≤ files → (∀ e ∈ es, e.mUserData1 < files ∧ Fit e) → placeAfter 0 es < 2 ^ 31 →
      ∃ b, addEntries es startBuild = .ok b ∧ TableInvariant files b ∧
        ∀ e, e.mUserData1 < files → Fit e → placeAfter 0 (es ++ [e]) < 2 ^ 31 →
          ∃ e' b', addEntryToPartition e b = .ok (e', b') ∧ Added e.mUserData1 e b b' ∧ TableInvariant files b') ∧
    ∀ patchDir sysApkFile disk res, init patchDir sysApkFile disk = .ok res →
      (∀ e ∈ plannedEntries disk, entrySize e < 2 ^ 31) → placeAfter 0 (plannedEntries disk) < 2 ^ 31 →
        InitTable disk res := by
  refine ⟨?_, ?_⟩
  · intro files es two fit total
    obtain ⟨b, calls, joins, ready, invariant⟩ := callsTable two fit total
    refine ⟨b, calls, invariant, fun e own fits next => ?_⟩
    have place : b.preShadowStop = placeAfter 0 es := joinsPlace joins
    have header : b.header.length = 0 + headerAfter 0 es := (joinsGrows joins).2
    have written := headerAfterLe 0 es
    have part := headerPartLe e (placeAfter 0 es)
    rw [placeAfterAppend, placeAfter, placeAfter] at next
    obtain ⟨b', step, added⟩ := addEntryAdded ready fits (by omega) (by rw [place]; omega)
    exact ⟨_, b', step, added, (addedReady ready added).tiles, addedIndices two own added invariant.indices⟩
  · intro patchDir sysApkFile disk res accepted sizes total
    have run := initRun accepted
    have header := headerAfterLe 0 (plannedEntries disk)
    have sized : Sized disk := ⟨fun c mem => sizes _ (List.mem_map_of_mem mem), by omega, by omega⟩
    obtain ⟨s, _, _, calls, joins, _, finished⟩ := initFinished run sized (by omega)
    have tiles := (joinsReady joins startReady).tiles
    have files := finished.files
    have drawn : ∀ e ∈ plannedEntries disk, e.mUserData1 < disk.patches.length + 2 ∧ Fit e := by
      intro e mem
      obtain ⟨c, known, rfl⟩ := List.mem_map.mp mem
      exact ⟨plannedIndex run known, plannedFit run sized known⟩
    refine ⟨⟨s.build, calls, by rw [finished.table, List.dropLast_concat]⟩, ?_, finishedTiles finished tiles, ?_⟩
    · intro e mem
      obtain ⟨own, fit⟩ := drawn e mem
      exact ⟨by omega, fit⟩
    · intro p mem
      rw [finished.table] at mem
      rcases List.mem_append.mp mem with front | last
      · have low := joinsIndices (Nat.le_add_left 2 _) joins (fun e mem => (drawn e mem).1) (by simp [startBuild]) p front
        omega
      · rw [List.mem_singleton.mp last, files]
        dsimp only
        omega

def sampleEntry : ZipEntry := { StoredFile.entry (⟨[101], [8], 0⟩, 0) with mUserData1 := 2 }

theorem sampleFit : Fit sampleEntry := ⟨⟨[101], rfl, rfl⟩, by decide, by decide +kernel⟩

theorem sampleTable : InitTable sampleDisk sampleResult ∧ ∃ b, addEntries (plannedEntries sampleDisk) startBuild = .ok b ∧
    TableInvariant 4 b ∧ ∃ e' b', addEntryToPartition sampleEntry b = .ok (e', b') ∧ Added 2 sampleEntry b b' ∧
      TableInvariant 4 b' := by
  have table := partitionsTile.2 _ _ _ _ sampleAccepted (by decide +kernel) (by decide +kernel)
  have four : sampleResult.globalData.allFiles.length = 4 := by decide +kernel
  obtain ⟨b, calls, invariant, next⟩ := partitionsTile.1 4 (plannedEntries sampleDisk) (by decide) (four ▸ table.drawn)
    (by decide +kernel)
  exact ⟨table, b, calls, invariant, next sampleEntry (by decide) sampleFit (by decide +kernel)⟩

end Bootstrap.ShadowZip
