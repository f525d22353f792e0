import Bootstrap.MergePlan
import Bootstrap.WrittenArchive

/-! The virtual file: what the partition table shows of the files as init leaves them. -/
namespace Bootstrap.ShadowZip
open CInt ByteLayout Zip ParseApk SerialUtils Tiling

def archiveFiles (disk : Disk) (i : Nat) : Bytes :=
  (disk.apk.getD [] :: [] :: disk.patches.map (fun p => p.2.getD [])).getD i []

def contents (disk : Disk) (res : Result) (i : Nat) : Bytes := (filesAfter disk res).getD i []

def virtualFile (disk : Disk) (res : Result) : Bytes :=
  gather (contents disk res) (pieces res.globalData.patchPartitions)

def archivePaths (disk : Disk) : List (Option Bytes) := disk.apk :: disk.patches.map Prod.snd

structure Inside (disk : Disk) : Prop where
  ranges : ∀ path ∈ archivePaths disk, ∀ e ∈ parsed path, dataStop e ≤ (path.getD []).length
  archives : ∀ path ∈ archivePaths disk, (path.getD []).length < 2 ^ 31

structure Bounded (disk : Disk) (res : Result) : Prop extends Inside disk where
  virtual : (virtualFile disk res).length < 2 ^ 31
  count : res.allEntries.length ≤ 65535

def DistinctNames (disk : Disk) : Prop := ((apkRefs disk).map (nameOf disk)).Nodup

instance (disk) : Decidable (DistinctNames disk) := by unfold DistinctNames; infer_instance

theorem contentsGrow (disk : Disk) (res : Result) (i : Nat) :
    withHeader (archiveFiles disk) res.entriesHeader i <+: contents disk res i := by
  match i with
  | 0 => exact List.prefix_rfl
  | 1 => exact List.prefix_rfl
  | k+2 =>
    rw [withHeaderOther _ _ (by omega)]
    simp only [archiveFiles, contents, filesAfter, List.getElem?_cons_succ, List.getD_eq_getElem?_getD]
    by_cases inside : k < (disk.patches.map (fun p => p.2.getD [])).length
    · rw [List.getElem?_append_left inside]
    · rw [List.getElem?_eq_none (by omega)]
      exact List.nil_prefix

section
variable {disk : Disk}

theorem entryOf {r : EntryRef} (mem : r ∈ apkRefs disk ∨ r ∈ patchRefs disk) :
    ∃ path ∈ archivePaths disk, ∃ e ∈ parsed path,
      entries disk r = { e with mUserData1 := r.1 } ∧ archiveFiles disk r.1 = path.getD [] ∧ r.1 ≠ 1 := by
  obtain ⟨i, j⟩ := r
  rcases mem with mem | mem
  · obtain ⟨rfl, low⟩ := memRefs.mp mem
    have here := List.getElem?_eq_getElem low
    exact ⟨disk.apk, by simp [archivePaths], _, List.mem_of_getElem? here, entriesAt rfl here, rfl, by simp⟩
  · obtain ⟨k, es, there, rfl, low⟩ := memRefsFrom.mp mem
    have here := List.getElem?_eq_getElem low
    obtain ⟨p, zip, rfl⟩ := Option.map_eq_some_iff.mp (List.getElem?_map .. ▸ there)
    have file : archiveFiles disk (2 + k) = p.2.getD [] := by
      simp only [archiveFiles, Nat.add_comm 2 k, List.getD_eq_getElem?_getD, List.getElem?_cons_succ,
        List.getElem?_map, zip, Option.map_some, Option.getD_some]
    refine ⟨p.2, ?_, _, List.mem_of_getElem? here, entriesAt (patchArchive there) here, file, by omega⟩
    simp only [archivePaths, List.mem_cons, List.mem_map]
    exact .inr ⟨p, List.mem_of_getElem? zip, rfl⟩

theorem soundEntry (bounded : Inside disk) {r : EntryRef}
    (mem : r ∈ apkRefs disk ∨ r ∈ patchRefs disk) : Sound (archiveFiles disk) (entries disk) r := by
  obtain ⟨path, known, e, own, same, file, other⟩ := entryOf mem
  have fileEntry := parsedFiles own
  have alike : Same (entries disk r) { e with mUserData1 := r.1 } := by rw [same]; exact ⟨rfl, rfl, rfl⟩
  constructor
  · rw [same]
  · exact other
  · rw [file]
    obtain ⟨cde, lfh, offset, header⟩ := fileEntry.found
    exact foundSame alike ⟨cde, lfh, offset, header⟩
  · rw [file, (offsetsSame alike).2.2]
    exact bounded.ranges path known e own
  · rw [file]
    exact bounded.archives path known
  · rw [same]
    exact fileEntry.name

theorem shortExtra (short : ∀ path ∈ archivePaths disk, ∀ e ∈ parsed path, e.mLFH.mExtraFieldLength ≤ 65532)
    {r : EntryRef} (known : r ∈ apkRefs disk ∨ r ∈ patchRefs disk) :
    (entries disk r).mLFH.mExtraFieldLength ≤ 65532 := by
  obtain ⟨path, archive, e, own, same, _, _⟩ := entryOf known
  rw [same]
  exact short path archive e own

theorem chosen {patchDir sysApkFile : Bytes} {res : Result} (run : InitRun patchDir sysApkFile disk res)
    {r t : EntryRef} (choice : (if nameOf disk r ∈ removedNames disk then none
      else some ((replacement disk (nameOf disk r)).getD r)) = some t) :
    nameOf disk r ∉ removedNames disk ∧ nameOf disk t = nameOf disk r ∧ (t ∈ patchRefs disk ∨ t = r) := by
  by_cases gone : nameOf disk r ∈ removedNames disk
  · rw [if_pos gone] at choice
    cases choice
  · rw [if_neg gone] at choice
    cases found : replacement disk (nameOf disk r) with
    | none =>
      rw [found] at choice
      cases choice
      exact ⟨gone, rfl, .inr rfl⟩
    | some p =>
      rw [found] at choice
      cases choice
      obtain ⟨mem, named, _⟩ := (run.replaced _ _).mp found
      exact ⟨gone, named, .inl mem⟩

theorem memApkOrder {t : EntryRef} : t ∈ apkOrder disk ↔ ∃ r ∈ apkRefs disk,
    (if nameOf disk r ∈ removedNames disk then none else some ((replacement disk (nameOf disk r)).getD r)) = some t :=
  List.mem_filterMap

theorem orderKnown {patchDir sysApkFile : Bytes} {res : Result} (run : InitRun patchDir sysApkFile disk res)
    {t : EntryRef} (mem : t ∈ order disk) : t ∈ apkRefs disk ∨ t ∈ patchRefs disk := by
  rcases List.mem_append.mp mem with mem | mem
  · obtain ⟨r, known, choice⟩ := memApkOrder.mp mem
    rcases (chosen run choice).2.2 with patch | rfl
    · exact .inr patch
    · exact .inl known
  · exact .inr (List.mem_filter.mp mem).1

theorem apkNamesOnce {patchDir sysApkFile : Bytes} {res : Result} (run : InitRun patchDir sysApkFile disk res)
    (distinct : DistinctNames disk) : ((apkOrder disk).map (nameOf disk)).Nodup := by
  refine List.pairwise_map.mpr (List.pairwise_filterMap.mpr ((List.pairwise_map.mp distinct).imp ?_))
  intro a b different t left u right same
  rw [(chosen run left).2.1, (chosen run right).2.1] at same
  exact different same

theorem orderOnce {patchDir sysApkFile : Bytes} {res : Result} (run : InitRun patchDir sysApkFile disk res)
    (distinct : DistinctNames disk) : (order disk).Nodup := by
  refine List.nodup_append'.mpr ⟨(apkNamesOnce run distinct).of_map, (refsFromNodup 2 _).filter _, ?_⟩
  intro t left right
  exact absurd left (of_decide_eq_true (List.mem_filter.mp right).2)

end

/-! The offsets of the header file are ints. A header file of 2^31 bytes would be shown whole
by a partition whose int offset has wrapped, so a virtual file below that bound rules it out. -/

theorem wayTable {e e' : ZipEntry} {b b' : Build} {amount : Nat} (way : Way e b amount e' b') :
    b.patchPartitions.dropLast <+: b'.patchPartitions.dropLast := by
  cases way with
  | kept _ _ p table =>
    rcases table with table | table <;> rw [table, List.dropLast_concat]
    exact List.dropLast_prefix _
  | padded _ _ _ p q table =>
    rw [table, List.append_cons, List.dropLast_concat]
    exact (List.dropLast_prefix _).trans (List.prefix_append _ _)

theorem emitsTable {rs : List EntryRef} {s s' : Loop} (run : Emits rs s s') :
    s.build.patchPartitions.dropLast <+: s'.build.patchPartitions.dropLast := by
  induction run with
  | nil => exact List.prefix_rfl
  | cons before step rest ih =>
    obtain ⟨e', b', added, rfl⟩ := emitCases step
    rw [(markedSame before).2.2.1] at added
    obtain ⟨_, _, way⟩ := addEntryWay added
    exact (wayTable way).trans ih

theorem emitsCross {rs : List EntryRef} {s s' : Loop} (run : Emits rs s s') (size : Nat)
    (below : s.build.header.length < size) (reached : size ≤ s'.build.header.length) :
    ∃ before r after s₁ marked s₂, rs = before ++ r :: after ∧ Emits before s s₁ ∧
      (marked = s₁ ∨ marked = mark r s₁) ∧ emit r marked = .ok s₂ ∧ Emits after s₂ s' ∧
      s₁.build.header.length < size ∧ size ≤ s₂.build.header.length := by
  induction run with
  | nil => omega
  | @cons r rs s marked next last before step rest ih =>
    by_cases here : size ≤ next.build.header.length
    · exact ⟨[], r, rs, s, marked, next, rfl, .nil s, before, step, rest, below, here⟩
    · obtain ⟨first, t, after, s₁, marked', s₂, rfl, run₁, before', step', run₂, low, high⟩ := ih (by omega) reached
      exact ⟨r :: first, t, after, s₁, marked', s₂, rfl, .cons before step run₁, before', step', run₂, low, high⟩

theorem wrapped {n : Nat} (high : 2 ^ 31 ≤ n) (low : n < 2 ^ 32) : 2 ^ 62 ≤ u64 (i32 n) := by
  unfold u64 i32
  omega

theorem exactOffset {n : Nat} (low : n < 2 ^ 31) : u64 (i32 n) = n := by
  unfold u64 i32
  omega

section
variable {disk : Disk} {patchDir sysApkFile : Bytes} {res : Result}

theorem startGoing (files : Nat → Bytes) : Going files (startLoop disk) :=
  ⟨startReady, by intro p mem; simp [startLoop, startBuild, pieces] at mem, Nat.le_refl _⟩

theorem emissionRan (run : InitRun patchDir sysApkFile disk res) (bounded : Inside disk)
    (distinct : DistinctNames disk) {before after : List EntryRef} (split : order disk = before ++ after)
    (count : (order disk).length ≤ 65535) {s : Loop} (emits : Emits before (startLoop disk) s)
    (header : s.build.header.length < 2 ^ 31) : Ran (archiveFiles disk) (entries disk) before (startLoop disk) s := by
  have once := orderOnce run distinct
  have size := congrArg List.length split
  rw [split] at once
  rw [List.length_append] at size
  refine emitsRan emits (startGoing _) (fun r mem => soundEntry bounded (orderKnown run ?_)) (fun r _ => ⟨rfl, rfl, rfl⟩)
    (List.nodup_append.mp once).1 ?_ header
  · rw [split]
    exact List.mem_append_left _ mem
  · simp only [startLoop, startBuild]
    omega

theorem wayWidth {e e' : ZipEntry} {b b' : Build} {amount : Nat} (way : Way e b amount e' b') (valid : e.mLFH.Valid) :
    b'.header.length ≤ b.header.length + 2 ^ 18 := by
  cases way with
  | kept _ header =>
    rw [header]
    omega
  | padded _ ok header =>
    have width := addPaddingLength valid ok
    have name := valid.ranged.mFileNameLength
    have extra := u16Bound (e.mLFH.mExtraFieldLength + amount : Nat)
    have reach := congrArg List.length header
    rw [List.length_append] at reach
    unfold LocalFileHeader.kLFHLen at width
    omega

/-- The call at which the header file comes to 2^31 bytes: it writes one local header, at an offset that is still an
int. -/
theorem headerCross (run : InitRun patchDir sysApkFile disk res) (inside : Inside disk) (distinct : DistinctNames disk)
    (count : (order disk).length ≤ 65535) {s : Loop} (emits : Emits (order disk) (startLoop disk) s)
    (large : 2 ^ 31 ≤ s.build.header.length) :
    ∃ before r after s₁ e e' b' amount, order disk = before ++ r :: after ∧
      Ran (archiveFiles disk) (entries disk) before (startLoop disk) s₁ ∧ Way e s₁.build amount e' b' ∧
      s₁.build.header.length < 2 ^ 31 ∧ 2 ^ 31 ≤ b'.header.length ∧
      b'.header.length ≤ s₁.build.header.length + 2 ^ 18 ∧ s₁.build.header <+: s.build.header ∧
      b'.patchPartitions.dropLast <+: s.build.patchPartitions := by
  obtain ⟨before, r, after, s₁, marked, s₂, split, run₁, marking, step, run₂, low, high⟩ :=
    emitsCross emits (2 ^ 31) (by simp [startLoop, startBuild]) large
  have ran := emissionRan run inside distinct split count run₁ low
  have grown := (emitsKeeps (.cons marking step run₂ : Emits (r :: after) s₁ s)).2.1
  have kept := (emitsTable run₂).trans (List.dropLast_prefix _)
  have once := orderOnce run distinct
  rw [split] at once
  have absent : r ∉ before := fun mem => (List.nodup_append.mp once).2.2 r mem r List.mem_cons_self rfl
  have own := soundEntry inside (orderKnown run (split ▸ List.mem_append_right _ List.mem_cons_self))
  obtain ⟨marks, _, build, _⟩ := markedSame marking
  have alike : (marked.heap r).mLFH = (entries disk r).mLFH := by
    rw [(marks r).mLFH, ran.others r absent]
    rfl
  obtain ⟨e', b', added, rfl⟩ := emitCases step
  rw [build] at added
  obtain ⟨_, _, way⟩ := addEntryWay added
  exact ⟨before, r, after, s₁, _, e', b', _, split, ran, way, low, high, wayWidth way (alike ▸ own.found.mLFH), grown,
    kept⟩

theorem headerBelow (run : InitRun patchDir sysApkFile disk res) (bounded : Bounded disk res)
    (distinct : DistinctNames disk) : res.entriesHeader.length < 2 ^ 31 := by
  obtain ⟨s, emits, same⟩ := run.run
  have count := bounded.count
  have virtual := bounded.virtual
  have entriesSame : res.allEntries = order disk := by rw [same]; exact (emitsKeeps emits).2.2
  have headerSame : res.entriesHeader = s.build.header := by rw [same]; rfl
  have table : s.build.patchPartitions <+: res.globalData.patchPartitions := by
    rw [same]
    exact List.prefix_append _ _
  rw [entriesSame] at count
  rw [headerSame]
  by_contra large
  obtain ⟨before, r, after, s₁, e, e', b', amount, split, ran, way, low, high, width, grown, kept⟩ :=
    headerCross run bounded.toInside distinct count emits (by omega)
  cases way with
  | kept _ same =>
    rw [same] at high
    omega
  | padded _ ok header p q pushed file start stop =>
    -- the partition of the header that crosses the bound shows the header file to its end
    rw [pushed, List.append_cons, List.dropLast_concat] at kept
    obtain ⟨tail, whole⟩ := kept.trans table
    rw [exactOffset low] at start
    have far := wrapped high (by omega)
    rw [← stop] at far
    have grow : ∀ i, withHeader (archiveFiles disk) s₁.build.header i <+: contents disk res i := by
      intro i
      refine List.IsPrefix.trans ?_ (contentsGrow disk res i)
      obtain ⟨more, longer⟩ := grown
      rw [headerSame, ← longer]
      exact withHeaderGrow _ _ more i
    have kept := gatherGrow grow (tilesEven ran.going.ready.tiles) ran.going.held
    have length := gatherLength ran.going.ready.tiles ran.going.held
    have first := ran.going.header
    have cross : ((piece p).bytes (contents disk res)).length =
        min (p.stopInFile - s₁.build.header.length) (s.build.header.length - s₁.build.header.length) := by
      have source : contents disk res (piece p).source = s.build.header := by
        rw [← headerSame, show (piece p).source = 1 from file]
        rfl
      simp only [Piece.bytes, source, slice, List.length_take, List.length_drop]
      simp only [piece, start]
    rw [virtualFile, ← whole] at virtual
    simp only [pieces, List.map_append, gatherAppend, List.map_cons, List.map_nil, gatherCons, gatherNil,
      List.append_nil, List.length_append, cross] at virtual
    rw [pieces] at kept length
    rw [kept, length] at virtual
    omega

def body (disk : Disk) : Bytes := assemble (imageOf (archiveFiles disk) (entries disk)) 0 (order disk)

def places (disk : Disk) : List (EntryRef × Nat) :=
  placesFrom (imageOf (archiveFiles disk) (entries disk)) 0 (order disk)

theorem writtenData (allFiles : List Bytes) (s : Loop) : (finish allFiles s).patchData =
    centralDir (finish allFiles s).emitted ++ (endOfCentralDir s.allEntries.length
      (centralDir (finish allFiles s).emitted).length s.build.preShadowStop).write := by
  have records : centralDir (finish allFiles s).emitted = s.allEntries.flatMap (fun r => (s.heap r).mCDE.write) := by
    rw [centralDir, Result.emitted, List.flatMap_map]
    rfl
  rw [records]
  rfl

/-- The virtual file is the body, and then what .patch.data holds. -/
structure Layout (disk : Disk) (res : Result) : Prop where
  allEntries : res.allEntries = order disk
  patchData : res.patchData = centralDir res.emitted ++
    (endOfCentralDir res.allEntries.length (centralDir res.emitted).length (body disk).length).write
  virtual : virtualFile disk res = body disk ++ res.patchData
  placed : ∀ p ∈ places disk, Placed (entries disk p.1) p.2 (res.heap p.1)
  endOfFile : res.globalData.endOfFile = (virtualFile disk res).length

theorem placeBelow {p : EntryRef × Nat} (mem : p ∈ places disk) :
    p.2 + (imageOf (archiveFiles disk) (entries disk) p.1 p.2).length ≤ (body disk).length := by
  obtain ⟨before, after, split, there⟩ := assembleSlice _ mem
  rw [body, split, there]
  simp only [List.length_append]
  omega

theorem placeOf {r : EntryRef} (mem : r ∈ order disk) : ∃ place, (r, place) ∈ places disk := by
  rw [← placesItems (imageOf (archiveFiles disk) (entries disk)) 0 (order disk)] at mem
  obtain ⟨p, known, rfl⟩ := List.mem_map.mp mem
  exact ⟨p.2, known⟩

theorem recordBound {c : CentralDirEntry} (valid : c.Valid) : c.write.length < 2 ^ 18 := by
  have name := valid.ranged.mFileNameLength
  have extra := valid.ranged.mExtraFieldLength
  have comment := valid.ranged.mFileCommentLength
  rw [CentralDirEntry.writeLength valid, CentralDirEntry.size, CentralDirEntry.kCDELen]
  omega

theorem centralDirBound {es : List ZipEntry} (valid : ∀ e ∈ es, e.mCDE.Valid) :
    (centralDir es).length ≤ es.length * 2 ^ 18 := by
  induction es with
  | nil => simp [centralDir]
  | cons e es ih =>
    have head := recordBound (valid e List.mem_cons_self)
    have tail := ih (fun d mem => valid d (List.mem_cons_of_mem _ mem))
    unfold centralDir at tail ⊢
    rw [List.flatMap_cons, List.length_append, List.length_cons]
    omega

theorem lastFile (res : Result) : contents disk res (disk.patches.length + 2) = res.patchData := by
  simp only [contents, filesAfter, List.getD_eq_getElem?_getD, List.getElem?_cons_succ]
  rw [List.getElem?_append_right (by simp)]
  simp

theorem emittedValid (run : InitRun patchDir sysApkFile disk res) (bounded : Inside disk)
    (placed : ∀ p ∈ places disk, Placed (entries disk p.1) p.2 (res.heap p.1))
    (low : (body disk).length < 2 ^ 31) {p : EntryRef × Nat} (mem : p ∈ places disk) :
    (res.heap p.1).mCDE.Valid := by
  have known : p.1 ∈ order disk := by
    rw [← placesItems (imageOf (archiveFiles disk) (entries disk)) 0 (order disk)]
    exact List.mem_map_of_mem mem
  have own := soundEntry bounded (orderKnown run known)
  have below := placeBelow mem
  rw [(placed p mem).mCDE]
  exact own.found.mCDE.withOffset (smallIsLong (by omega))

theorem tableShows (run : InitRun patchDir sysApkFile disk res) (bounded : Inside disk) (distinct : DistinctNames disk)
    (count : (order disk).length ≤ 65535) (header : res.entriesHeader.length < 2 ^ 31) :
    ∃ s, res = finish (allFilesOf patchDir sysApkFile disk) s ∧ s.allEntries = order disk ∧
      Ran (archiveFiles disk) (entries disk) (order disk) (startLoop disk) s ∧
      gather (contents disk res) (pieces s.build.patchPartitions) = body disk := by
  obtain ⟨s, emits, same⟩ := run.run
  have headerSame : res.entriesHeader = s.build.header := by rw [same]; rfl
  have ran := emissionRan run bounded distinct (List.append_nil _).symm count emits (headerSame ▸ header)
  have kept := gatherGrow (headerSame ▸ contentsGrow disk res) (tilesEven ran.going.ready.tiles) ran.going.held
  exact ⟨s, same, (emitsKeeps emits).2.2, ran, kept.trans ran.shown⟩

theorem layoutFrom (run : InitRun patchDir sysApkFile disk res) (bounded : Inside disk) (distinct : DistinctNames disk)
    (count : (order disk).length ≤ 65535) (header : res.entriesHeader.length < 2 ^ 31)
    (low : (body disk).length < 2 ^ 31) : Layout disk res := by
  obtain ⟨s, same, loopSame, ran, all⟩ := tableShows run bounded distinct count header
  have entriesSame : res.allEntries = order disk := by rw [same]; exact loopSame
  have heapSame : res.heap = s.heap := by rw [same]; rfl
  have place : s.build.preShadowStop = (body disk).length := by
    rw [ran.place]
    exact Nat.zero_add _
  have patchData : res.patchData = centralDir res.emitted ++
      (endOfCentralDir res.allEntries.length (centralDir res.emitted).length (body disk).length).write := by
    have records : centralDir res.emitted = s.allEntries.flatMap (fun r => (s.heap r).mCDE.write) := by
      rw [centralDir, Result.emitted, heapSame, entriesSame, loopSame, List.flatMap_map]
    rw [records, entriesSame, ← loopSame, ← place, same]
    rfl
  have table : res.globalData.patchPartitions = s.build.patchPartitions ++
      [⟨s.build.preShadowStop, u64 (s.build.preShadowStop + u64 res.patchData.length : Nat),
        disk.patches.length + 2, 0, u64 res.patchData.length⟩] := by
    rw [same]
    simp [finish, allFilesOf]
  have placed : ∀ p ∈ places disk, Placed (entries disk p.1) p.2 (res.heap p.1) := by
    rw [heapSame]
    exact ran.placed
  have valid : ∀ e ∈ res.emitted, e.mCDE.Valid := by
    intro e mem
    obtain ⟨r, known, rfl⟩ := List.mem_map.mp mem
    obtain ⟨place, there⟩ := placeOf (entriesSame ▸ known)
    exact emittedValid run bounded placed low there
  have records := centralDirBound valid
  have size : res.patchData.length < 2 ^ 40 := by
    have emittedCount : res.emitted.length = (order disk).length := by rw [Result.emitted, List.length_map, entriesSame]
    rw [patchData, List.length_append, EndOfCentralDir.writeLength rfl, EndOfCentralDir.kEOCDLen]
    omega
  have exact : u64 (res.patchData.length : Int) = res.patchData.length := u64Exact (by omega)
  have whole : virtualFile disk res = body disk ++ res.patchData := by
    rw [virtualFile, table, piecesSnoc, gatherAppend, all, gatherCons, gatherNil, List.append_nil, Piece.bytes, piece]
    dsimp only
    rw [exact, lastFile, Nat.sub_zero, sliceWhole]
  refine ⟨entriesSame, patchData, whole, placed, ?_⟩
  have stop : res.globalData.endOfFile = u64 (s.build.preShadowStop + u64 res.patchData.length : Nat) := by
    rw [same]
    rfl
  rw [stop, exact, place, whole, List.length_append]
  exact u64Exact (by omega)

theorem allEntriesOrder (run : InitRun patchDir sysApkFile disk res) : res.allEntries = order disk := by
  obtain ⟨s, emits, same⟩ := run.run
  rw [same]
  exact (emitsKeeps emits).2.2

theorem headerFits (run : InitRun patchDir sysApkFile disk res) (inside : Inside disk) (distinct : DistinctNames disk)
    (count : (order disk).length ≤ 65535) (low : (body disk).length + 2 ^ 18 < 2 ^ 31) :
    res.entriesHeader.length < 2 ^ 31 := by
  obtain ⟨s, emits, same⟩ := run.run
  have headerSame : res.entriesHeader = s.build.header := by rw [same]; rfl
  rw [headerSame]
  by_contra large
  obtain ⟨before, r, after, s₁, e, e', b', amount, split, ran, _, _, high, width, _⟩ :=
    headerCross run inside distinct count emits (by omega)
  have place := ran.place
  have within := ran.going.header
  simp only [startLoop, startBuild, Nat.zero_add] at place
  rw [body, split, assembleAppend, List.length_append] at low
  omega

theorem layout (run : InitRun patchDir sysApkFile disk res) (bounded : Bounded disk res)
    (distinct : DistinctNames disk) : Layout disk res := by
  have header := headerBelow run bounded distinct
  have count := bounded.count
  have virtual := bounded.virtual
  rw [allEntriesOrder run] at count
  obtain ⟨s, same, _, _, all⟩ := tableShows run bounded.toInside distinct count header
  have table : ∃ p, res.globalData.patchPartitions = s.build.patchPartitions ++ [p] := by
    rw [same]
    exact ⟨_, rfl⟩
  obtain ⟨p, table⟩ := table
  rw [virtualFile, table, piecesSnoc, gatherAppend, all, List.length_append] at virtual
  exact layoutFrom run bounded.toInside distinct count header (by omega)

theorem standsAt (laid : Layout disk res) (bounded : Bounded disk res) {r : EntryRef} (mem : r ∈ order disk) :
    ∃ place before after, (r, place) ∈ places disk ∧ place = before.length ∧ place < 2 ^ 31 ∧
      virtualFile disk res = before ++ (image (archiveFiles disk r.1) (entries disk r) place ++ after) := by
  obtain ⟨place, there⟩ := placeOf mem
  obtain ⟨before, after, split, start⟩ := assembleSlice _ there
  refine ⟨place, before, after ++ res.patchData, there, by omega, ?_, ?_⟩
  · have all := bounded.virtual
    have inside := placeBelow there
    rw [laid.virtual, List.length_append] at all
    dsimp only at inside
    omega
  · rw [laid.virtual, body, split]
    simp only [imageOf, List.append_assoc]

end

end Bootstrap.ShadowZip
