import Bootstrap.InitOutcome
import Bootstrap.VirtualApk

/-! parse_apk over the virtual APK. The writer stitches headers, data, central directory and
end record from several files; the reader is meant to find the same entries again. -/
namespace Bootstrap.ShadowZip
open CInt ByteLayout Zip ParseApk Tiling

def normal (h : LocalFileHeader) : LocalFileHeader :=
  { h with mExtraField := if h.mExtraFieldLength = 0 then none else some ((extraBytes h).take h.mExtraFieldLength) }

def reread (e : ZipEntry) : ZipEntry := ⟨0, 0, normal e.mLFH, e.mCDE⟩

/-! The numbers of the end record, from the merged entries alone. -/

def placedSize (e : ZipEntry) (place : Nat) : Nat :=
  LocalFileHeader.kLFHLen + e.mLFH.mFileNameLength + u16 (e.mLFH.mExtraFieldLength + padding e place : Nat) + dataLength e

def mergedCount (disk : Disk) : Nat := (order disk).length
def directorySize (disk : Disk) : Nat := ((order disk).map (fun r => (entries disk r).mCDE.size)).sum
def directoryOffset (disk : Disk) : Nat :=
  (order disk).foldl (fun place r => place + placedSize (entries disk r) place) 0

/-- The virtual APK parses back: the emitted entries, in order, with the records that were written. -/
def ParsesBack (disk : Disk) (res : Result) : Prop :=
  ∃ es, parseApk (some (virtualFile disk res)) = .ok es ∧ es.map ZipEntry.mCDE = res.emitted.map ZipEntry.mCDE

theorem normalWrite (h : LocalFileHeader) : (normal h).write = h.write := by
  have extra : writeCounted h.mExtraFieldLength (normal h).mExtraField = writeCounted h.mExtraFieldLength h.mExtraField := by
    rw [writeCounted, writeCounted, normal]
    by_cases none : h.mExtraFieldLength = 0
    · rw [if_pos none, if_pos none]
    · simp only [if_neg none, Option.getD_some, List.take_take, Nat.min_self, extraBytes]
  have fields : (normal h).fields = h.fields := rfl
  rw [LocalFileHeader.write, LocalFileHeader.write, fields]
  exact congrArg (pack h.fields ++ ·) (congrArg (writeCounted h.mFileNameLength h.mFileName ++ ·) extra)

theorem normalValid {h : LocalFileHeader} (ranged : h.Ranged) (name : Counted h.mFileNameLength h.mFileName)
    (enough : h.mExtraFieldLength ≤ (extraBytes h).length) : (normal h).Valid := by
  refine ⟨ranged.withCounted h.mFileName _, name, ?_⟩
  simp only [normal]
  by_cases none : h.mExtraFieldLength = 0
  · rw [if_pos none]
    exact none
  · rw [if_neg none]
    exact ⟨none, by rw [List.length_take]; omega⟩

theorem paddedNormal {e : ZipEntry} (valid : e.mLFH.Valid) (place : Nat) : (normal (padded e place).mLFH).Valid := by
  by_cases none : padding e place = 0
  · rw [paddedNone none]
    exact normalValid valid.ranged valid.mFileName (Nat.le_of_eq (extraCounted valid.mExtraField).symm)
  · rw [addPaddingHeader valid.mExtraField (addPaddingOk none)]
    have narrow := u16Nat (e.mLFH.mExtraFieldLength + padding e place)
    have length := extraCounted valid.mExtraField
    refine normalValid (valid.ranged.withExtra _ (u16Bound _)) valid.mFileName ?_
    simp only [extraBytes, Option.getD_some, List.length_append, List.length_replicate] at length ⊢
    rw [narrow, length]
    exact Nat.mod_le _ _

section
variable {patchDir sysApkFile : Bytes} {disk : Disk} {res : Result}

theorem rereadFile (run : InitRun patchDir sysApkFile disk res) (bounded : Bounded disk res) (laid : Layout disk res)
    {p : EntryRef × Nat} (mem : p ∈ places disk) : FileEntry (virtualFile disk res) (reread (res.heap p.1)) := by
  have all := bounded.virtual
  rw [laid.virtual, List.length_append] at all
  have known : p.1 ∈ order disk := by
    rw [← placesItems (imageOf (archiveFiles disk) (entries disk)) 0 (order disk)]
    exact List.mem_map_of_mem mem
  have sound := soundEntry bounded.toInside (orderKnown run known)
  have valid := emittedValid run bounded.toInside laid.placed (by omega) mem
  have placed := laid.placed p mem
  have below := placeBelow mem
  obtain ⟨before, after, split, there⟩ := assembleSlice _ mem
  have offset : (res.heap p.1).mCDE.mLocalHeaderRelOffset = before.length := by
    rw [placed.mCDE]
    dsimp only
    omega
  refine ⟨⟨valid, ?_, ?_, ?_⟩, ⟨rfl, rfl⟩, ?_⟩
  · rw [reread, placed.mLFH]
    exact paddedNormal sound.found.mLFH p.2
  · simp only [reread, offset]
    rw [i64Exact (by omega) (by omega)]
    omega
  · refine ⟨slice (archiveFiles disk p.1.1) (dataStart (entries disk p.1)) (dataLength (entries disk p.1)) ++
      (after ++ res.patchData), ?_⟩
    simp only [reread, offset, normalWrite, placed.mLFH]
    rw [laid.virtual, body, split, imageOf, image, List.append_assoc, List.drop_left, List.append_assoc,
      List.append_assoc]
  · rw [ZipEntry.getFileName, reread, placed.mCDE]
    exact sound.name

theorem sizeWithOffset (c : CentralDirEntry) (mLocalHeaderRelOffset : Nat) :
    { c with mLocalHeaderRelOffset }.size = c.size := rfl

theorem virtualWritten (laid : Layout disk res) :
    virtualFile disk res = writtenArchive (body disk) (res.emitted.map reread) := by
  have records : centralDir (res.emitted.map reread) = centralDir res.emitted := by
    simp only [centralDir, List.flatMap_map, reread]
  have count : (res.emitted.map reread).length = res.allEntries.length := by simp [Result.emitted]
  rw [writtenArchive, endRecord, records, count, laid.virtual, laid.patchData]

theorem directoryLength (run : InitRun patchDir sysApkFile disk res) (inside : Inside disk) (laid : Layout disk res)
    (low : (body disk).length < 2 ^ 31) : (centralDir res.emitted).length = directorySize disk := by
  have each : ∀ r ∈ order disk, (res.heap r).mCDE.write.length = (entries disk r).mCDE.size := by
    intro r mem
    obtain ⟨place, there⟩ := placeOf mem
    have valid := emittedValid run inside laid.placed low there
    rw [CentralDirEntry.writeLength valid, (laid.placed _ there).mCDE]
    exact sizeWithOffset _ _
  rw [centralDir, Result.emitted, laid.allEntries, List.flatMap_map, List.length_flatMap, directorySize]
  exact congrArg List.sum (List.map_congr_left each)

theorem assembleSize {files : Nat → Bytes} {es : Heap} {rs : List EntryRef} (sound : ∀ r ∈ rs, Sound files es r)
    (place : Nat) : place + (assemble (imageOf files es) place rs).length =
      rs.foldl (fun place r => place + placedSize (es r) place) place := by
  induction rs generalizing place with
  | nil => rfl
  | cons r rs ih =>
    have own := sound r List.mem_cons_self
    have size : (imageOf files es r place).length = placedSize (es r) place := by
      rw [imageOf, imageLength own.inside, paddedLength own.found.mLFH, placedSize]
    rw [assembleCons, List.length_append, List.foldl_cons, size, ← Nat.add_assoc]
    exact ih (fun t mem => sound t (List.mem_cons_of_mem _ mem)) _

theorem directoryPlace (run : InitRun patchDir sysApkFile disk res) (inside : Inside disk) :
    (body disk).length = directoryOffset disk := by
  have size := assembleSize (fun r mem => soundEntry inside (orderKnown run (t := r) mem)) 0
  rw [Nat.zero_add] at size
  exact size

theorem boundedFrom (run : InitRun patchDir sysApkFile disk res) (inside : Inside disk) (distinct : DistinctNames disk)
    (count : mergedCount disk ≤ 65535) (small : directoryOffset disk + directorySize disk + 2 ^ 18 < 2 ^ 31) :
    Bounded disk res := by
  have place := directoryPlace run inside
  have header := headerFits run inside distinct count (by omega)
  have laid := layoutFrom run inside distinct count header (by omega)
  have size := directoryLength run inside laid (by omega)
  refine ⟨inside, ?_, by rw [laid.allEntries]; exact count⟩
  rw [laid.virtual, laid.patchData, List.length_append, List.length_append, EndOfCentralDir.writeLength rfl,
    EndOfCentralDir.kEOCDLen]
  omega

theorem reparses (run : InitRun patchDir sysApkFile disk res) (bounded : Bounded disk res)
    (distinct : DistinctNames disk) :
    ParsesBack disk res ↔ ¬ EndClash (mergedCount disk) (directorySize disk) (directoryOffset disk) := by
  have laid := layout run bounded distinct
  have virtual := bounded.virtual
  have counted := bounded.count
  have written := virtualWritten laid
  have number : (res.emitted.map reread).length = mergedCount disk := by
    rw [List.length_map, Result.emitted, List.length_map, laid.allEntries, mergedCount]
  have records : centralDir (res.emitted.map reread) = centralDir res.emitted := by
    simp only [centralDir, List.flatMap_map, reread]
  have place := directoryPlace run bounded.toInside
  rw [laid.virtual, laid.patchData, List.length_append, List.length_append] at virtual
  have size := directoryLength run bounded.toInside laid (by omega)
  have few : mergedCount disk < 2 ^ 16 := by
    rw [laid.allEntries] at counted
    unfold mergedCount
    omega
  have clash : Misleads (endRecord (res.emitted.map reread) (body disk).length) ↔
      EndClash (mergedCount disk) (directorySize disk) (directoryOffset disk) := by
    rw [endRecord, number, records, size, place]
    exact misleadsExactly few (by omega) (by omega)
  rw [← clash]
  constructor
  · rintro ⟨es, parses, _⟩ misled
    rw [written, parseMisled misled] at parses
    cases parses
  · intro clear
    refine ⟨res.emitted.map reread, ?_, ?_⟩
    · rw [written]
      refine parseWritten (by omega) (by rw [records]; omega) (by omega) ?_ clear
      rw [← written]
      intro e mem
      obtain ⟨served, emitted, rfl⟩ := List.mem_map.mp mem
      obtain ⟨r, known, rfl⟩ := List.mem_map.mp emitted
      obtain ⟨place, there⟩ := placeOf (laid.allEntries ▸ known)
      exact rereadFile run bounded laid there
    · rw [List.map_map]
      rfl

theorem parsesBackExactly (accepted : init patchDir sysApkFile disk = .ok res) (bounded : Bounded disk res)
    (distinct : DistinctNames disk) :
    ParsesBack disk res ↔ ¬ EndClash (mergedCount disk) (directorySize disk) (directoryOffset disk) :=
  reparses (initRun accepted) bounded distinct

end

def soleDisk (f : StoredFile) : Disk where
  apk := some (archiveOf [f])
  patches := [([112], some (archiveOf []))]
  removedFiles := none
  headerOpens := true
  endOpens := true

section
variable {f : StoredFile} (proper : f.Proper) (small : f.data.length < 2 ^ 30)

theorem emptyArchive : parseApk (some (archiveOf [])) = .ok [] :=
  archiveParses (by simp) (by simp) (by decide) (by decide)

theorem storedRange (f : StoredFile) : dataStart (StoredFile.entry (f, 0)) = 30 + f.name.length ∧
    dataLength (StoredFile.entry (f, 0)) = f.data.length ∧ (StoredFile.entry (f, 0)).isCompressed = false := by
  have descriptor : (StoredFile.entry (f, 0)).hasDD = false := by
    simp [ZipEntry.hasDD, StoredFile.entry, StoredFile.header]
  refine ⟨?_, ?_, rfl⟩
  · simp only [dataStart, StoredFile.entry, StoredFile.record, StoredFile.header, LocalFileHeader.kLFHLen, Nat.zero_add,
      Nat.add_zero]
  · rw [dataLength, descriptor]
    rfl

theorem soleEntries : storedEntries [f] = [StoredFile.entry (f, 0)] := rfl

include proper in
theorem soleDirectory : (centralDir (storedEntries [f])).length = 46 + f.name.length := by
  rw [soleEntries, centralDir, List.flatMap_cons, List.flatMap_nil, List.append_nil, StoredFile.entry,
    CentralDirEntry.writeLength (StoredFile.recordValid proper (Nat.two_pow_pos 31))]
  rfl

theorem soleBody : assemble StoredFile.image 0 [f] = f.image 0 := by
  rw [assembleCons, assembleNil, List.append_nil]

include proper in
theorem soleLength : (archiveOf [f]).length = 30 + f.name.length + f.data.length + (46 + f.name.length + 22) := by
  rw [archiveOf, writtenArchive, List.length_append, List.length_append, soleDirectory proper, endRecordLength,
    soleBody, StoredFile.imageLength proper]

include proper small in
theorem soleParsed (clear : ¬ EndClash 1 (46 + f.name.length) (30 + f.name.length + f.data.length)) :
    parseApk (some (archiveOf [f])) = .ok [StoredFile.entry (f, 0)] := by
  have name := proper.length
  refine archiveParses (by simpa using proper) (by simp) (by rw [soleLength proper]; omega) ?_
  rw [soleDirectory proper, soleBody, StoredFile.imageLength proper]
  exact clear

include proper small in
theorem soleRun (clear : ¬ EndClash 1 (46 + f.name.length) (30 + f.name.length + f.data.length))
    (patchDir sysApkFile : Bytes) : ∃ res, init patchDir sysApkFile (soleDisk f) = .ok res := by
  have apk := soleParsed proper small clear
  have parse : ∀ path ∈ archivePaths (soleDisk f), (parseApk path).toOption.isSome := by
    intro path mem
    simp only [archivePaths, soleDisk, List.map_cons, List.map_nil, List.mem_cons, List.not_mem_nil, or_false] at mem
    rcases mem with rfl | rfl
    · rw [apk]
      rfl
    · rw [emptyArchive]
      rfl
  have patch : parsed (some (archiveOf [])) = [] := by rw [parsed, emptyArchive]
  have merge : Mergeable (soleDisk f) := by
    refine ⟨?_, ?_, ?_⟩
    · simp only [apkEntries, soleDisk, parsed, apk]
    · intro p mem
      rw [List.mem_singleton.mp mem, emptyArchive, patch]
    · simp only [allKept, soleDisk, List.map_cons, List.map_nil, List.flatMap_cons, List.flatMap_nil, patch, keptNames,
        List.filter_nil, List.append_nil]
      exact List.nodup_nil
  refine initAccepted (parsedNames parse) ?_ patchDir sysApkFile
  have some : (soleDisk f).patches ≠ [] := List.cons_ne_nil _ _
  rw [outcome, if_neg some, if_neg (not_not.mpr merge)]
  rfl

include proper small in
theorem soleOrder (clear : ¬ EndClash 1 (46 + f.name.length) (30 + f.name.length + f.data.length)) :
    order (soleDisk f) = [(0, 0)] ∧ entries (soleDisk f) (0, 0) = StoredFile.entry (f, 0) ∧
      ∀ path ∈ archivePaths (soleDisk f), (path = some (archiveOf [f]) ∧ parsed path = [StoredFile.entry (f, 0)]) ∨
        (path = some (archiveOf []) ∧ parsed path = []) := by
  have apk : parsed (some (archiveOf [f])) = [StoredFile.entry (f, 0)] := by rw [parsed, soleParsed proper small clear]
  have patch : parsed (some (archiveOf [])) = [] := by rw [parsed, emptyArchive]
  have files : apkEntries (soleDisk f) = [StoredFile.entry (f, 0)] := apk
  have added : patchEntries (soleDisk f) = [[]] := by
    rw [patchEntries, soleDisk, List.map_cons, List.map_nil, patch]
  refine ⟨?_, ?_, ?_⟩
  · have none : patchRefs (soleDisk f) = [] := by
      rw [patchRefs, added]
      rfl
    have one : apkRefs (soleDisk f) = [(0, 0)] := by
      rw [apkRefs, files]
      rfl
    have kept : removedNames (soleDisk f) = [] := rfl
    have own : ∀ n, replacement (soleDisk f) n = Option.none := by
      intro n
      rw [replacement, none]
      rfl
    rw [order, patchOrder, apkOrder, none, one]
    simp [kept, own]
  · rw [entries, archiveEntries, files]
    rfl
  · intro path mem
    simp only [archivePaths, soleDisk, List.map_cons, List.map_nil, List.mem_cons, List.not_mem_nil, or_false] at mem
    rcases mem with rfl | rfl
    · exact .inl ⟨rfl, apk⟩
    · exact .inr ⟨rfl, patch⟩

include proper small in
theorem soleInside (clear : ¬ EndClash 1 (46 + f.name.length) (30 + f.name.length + f.data.length)) :
    Inside (soleDisk f) ∧ DistinctNames (soleDisk f) := by
  have name := proper.length
  have length := soleLength proper
  obtain ⟨_, _, archives⟩ := soleOrder proper small clear
  refine ⟨⟨fun path mem e own => ?_, fun path mem => ?_⟩, ?_⟩
  · rcases archives path mem with ⟨rfl, apk⟩ | ⟨_, patch⟩
    · rw [apk] at own
      obtain rfl := List.mem_singleton.mp own
      obtain ⟨start, size, _⟩ := storedRange f
      rw [Option.getD_some, length, dataStop, start, size]
      omega
    · rw [patch] at own
      cases own
  · rcases archives path mem with ⟨rfl, _⟩ | ⟨rfl, _⟩
    · rw [Option.getD_some, length]
      omega
    · decide
  · have files : apkEntries (soleDisk f) = [StoredFile.entry (f, 0)] := by
      have apk := soleParsed proper small clear
      rw [apkEntries, soleDisk, parsed, apk]
    rw [DistinctNames, apkRefs, files]
    simp [refs]

include proper small in
theorem soleNumbers (clear : ¬ EndClash 1 (46 + f.name.length) (30 + f.name.length + f.data.length)) :
    mergedCount (soleDisk f) = 1 ∧ directorySize (soleDisk f) = 46 + f.name.length ∧
      directoryOffset (soleDisk f) = 30 + f.name.length + (4 - (30 + f.name.length) % 4) % 4 + f.data.length := by
  obtain ⟨emitted, entry, _⟩ := soleOrder proper small clear
  rw [mergedCount, directorySize, directoryOffset, emitted]
  refine ⟨rfl, ?_, ?_⟩
  · rw [List.map_singleton, List.sum_singleton, entry]
    rfl
  · obtain ⟨_, size, stored⟩ := storedRange f
    have amount : padding (StoredFile.entry (f, 0)) 0 = (4 - (30 + f.name.length) % 4) % 4 := by
      rw [padding, stored]
      simp only [alignment, StoredFile.entry, StoredFile.header, LocalFileHeader.kLFHLen, Nat.zero_add, Nat.add_zero,
        Bool.false_eq_true, if_false]
    have bound := paddingBound (StoredFile.entry (f, 0)) 0
    have narrow : u16 ((0 : Nat) + padding (StoredFile.entry (f, 0)) 0 : Nat) = padding (StoredFile.entry (f, 0)) 0 := by
      rw [Nat.zero_add]
      exact u16Exact (by omega)
    rw [List.foldl_cons, List.foldl_nil, entry, Nat.zero_add, placedSize, size, ← amount]
    exact congrArg (fun n => 30 + f.name.length + n + f.data.length) narrow

include proper small in
theorem soleClashes (clear : ¬ EndClash 1 (46 + f.name.length) (30 + f.name.length + f.data.length))
    (there : 30 + f.name.length + (4 - (30 + f.name.length) % 4) % 4 + f.data.length = 0x06054b50)
    {patchDir sysApkFile : Bytes} {res : Result} (accepted : init patchDir sysApkFile (soleDisk f) = .ok res) :
    Bounded (soleDisk f) res ∧ ¬ ParsesBack (soleDisk f) res := by
  have name := proper.length
  obtain ⟨inside, distinct⟩ := soleInside proper small clear
  obtain ⟨count, size, offset⟩ := soleNumbers proper small clear
  have run := initRun accepted
  have bounded := boundedFrom run inside distinct (by omega) (by omega)
  refine ⟨bounded, fun parses => (reparses run bounded distinct).mp parses ?_⟩
  rw [offset, there]
  unfold EndClash
  simp

end

/- The file whose end moves the central directory to the offset that spells the signature. -/
def clashFile : StoredFile := ⟨[97], List.replicate 101010224 0, 0x62ac063e⟩

theorem clashProper : clashFile.Proper := by
  have name : clashFile.name = [97] := rfl
  have length : clashFile.data.length = 101010224 := List.length_replicate
  have text : ∀ ch ∈ clashFile.name, ch ≠ 0 := by
    intro ch mem
    rw [name] at mem
    rw [List.mem_singleton.mp mem]
    decide
  exact ⟨by rw [name]; decide, by rw [name]; decide, text, by rw [name]; decide, lt_of_eq_of_lt length (by decide)⟩

theorem clashNotParsed : ∃ res, init [47, 112] [47, 97] (soleDisk clashFile) = .ok res ∧
    Bounded (soleDisk clashFile) res ∧ DistinctNames (soleDisk clashFile) ∧ ¬ ParsesBack (soleDisk clashFile) res := by
  have length : clashFile.data.length = 101010224 := List.length_replicate
  have name : clashFile.name.length = 1 := rfl
  have small : clashFile.data.length < 2 ^ 30 := by omega
  have clear : ¬ EndClash 1 (46 + clashFile.name.length) (30 + clashFile.name.length + clashFile.data.length) := by
    rw [length, name]
    decide
  obtain ⟨res, accepted⟩ := soleRun clashProper small clear [47, 112] [47, 97]
  obtain ⟨bounded, broken⟩ := soleClashes clashProper small clear (by rw [length, name]) accepted
  exact ⟨res, accepted, bounded, (soleInside clashProper small clear).2, broken⟩

theorem sampleParsesBack : ParsesBack sampleDisk sampleResult :=
  (parsesBackExactly sampleAccepted sampleBounded (by decide +kernel)).mpr (by decide +kernel)

end Bootstrap.ShadowZip
