import Bootstrap.ParseApk
import Bootstrap.SerialUtils
import Mathlib.Logic.Function.Basic

/-! ShadowZip::init: merge the base APK with the patch archives into a partition table.
Files are known by their index in all_files_ and are different files; what is written to an
open FILE is stored. -/
namespace Bootstrap.ShadowZip
open CInt ByteLayout Zip ParseApk SerialUtils

structure ShadowZipGlobalData where
  patchPartitions : List FilePartitionInfo
  allFiles : List Bytes
  endOfFile : Nat
  deriving DecidableEq, Repr

/- What init finds. A file that cannot be opened is `none`; a directory that cannot be opened
lists nothing. The two flags say whether fopen creates the data files. -/
structure Disk where
  apk : Option Bytes
  patches : List (Bytes × Option Bytes)
  removedFiles : Option Bytes
  headerOpens : Bool
  endOpens : Bool
  deriving DecidableEq, Repr

/-- A ZipEntry*: the index of its archive and its place among the archive's entries. -/
abbrev EntryRef := Nat × Nat

abbrev Heap := EntryRef → ZipEntry

def snprintf512 (text : Bytes) : Bytes := text.take 511

def text (s : String) : Bytes := s.toUTF8.data.toList

def isIllegalPathChar (ch : UInt8) : Bool := ch == 0x0d || ch == 0x0a || ch == 0x22 || ch == 0x27

def readRemovedFiles (stream : Option Bytes) : List Bytes :=
  match stream with
  | none => []
  | some content =>
    ((content.splitOn 0x0a).map (fun line => line.filter (fun ch => !isIllegalPathChar ch))).filter (· ≠ [])

structure Build where
  preFileIndex : Int
  preFileStop : Nat
  preShadowStop : Nat
  patchPartitions : List FilePartitionInfo
  header : Bytes
  deriving DecidableEq, Repr

def alignment : Nat := 4

/- A stored file's data is to start at a multiple of the alignment. -/
def entryPadding (entry : ZipEntry) (filename : Bytes) (preShadowStop : Nat) : Nat :=
  if !entry.isCompressed && !isDirectory filename then
    let shadowZipRawFileOffset := u64 (preShadowStop + LocalFileHeader.kLFHLen + entry.mLFH.mFileNameLength +
      entry.mLFH.mExtraFieldLength : Nat)
    (alignment - shadowZipRawFileOffset % alignment) % alignment
  else 0

/- Header offsets are ints from ftell. The merge extends patch_partitions.back(), which an
empty vector does not have. -/
def addEntryToPartition (entry : ZipEntry) (b : Build) : Except Stop (ZipEntry × Build) := do
  let fileIndex := entry.mUserData1
  let fileStart := u64 entry.getEntryBegin
  let filename ← entry.getFileName
  let padding := entryPadding entry filename b.preShadowStop
  let preFileStop := u64 entry.getEntryEnd
  let entrySize := i32 (preFileStop - fileStart)
  if (fileIndex : Int) = b.preFileIndex ∧ fileStart = b.preFileStop ∧ padding = 0 then
    match b.patchPartitions.getLast? with
    | none => .error .faulted
    | some partition =>
      let partition := { partition with
        shadowStop := u64 (partition.shadowStop + entrySize), stopInFile := u64 (partition.stopInFile + entrySize) }
      return (entry, ⟨fileIndex, preFileStop, u64 (b.preShadowStop + entrySize),
        b.patchPartitions.dropLast ++ [partition], b.header⟩)
  else if padding ≠ 0 then
    let rawFileOffset := u64 entry.getFileOffset
    match entry.addPadding padding with
    | .error _ => .error .exited
    | .ok entry =>
      let headerFileStart := i32 b.header.length
      let header := b.header ++ entry.mLFH.write
      let headerFileStop := i32 header.length
      let localHeader : FilePartitionInfo := ⟨b.preShadowStop, u64 (b.preShadowStop + headerFileStop - headerFileStart),
        1, u64 headerFileStart, u64 headerFileStop⟩
      let preShadowStop := u64 (b.preShadowStop + i32 (headerFileStop - headerFileStart))
      let data : FilePartitionInfo := ⟨preShadowStop, u64 (preShadowStop + preFileStop - rawFileOffset),
        fileIndex, rawFileOffset, preFileStop⟩
      return (entry, ⟨fileIndex, preFileStop, u64 (preShadowStop + (preFileStop - rawFileOffset)),
        b.patchPartitions ++ [localHeader, data], header⟩)
  else
    let partition : FilePartitionInfo := ⟨b.preShadowStop, u64 (b.preShadowStop + entrySize), fileIndex,
      fileStart, preFileStop⟩
    return (entry, ⟨fileIndex, preFileStop, u64 (b.preShadowStop + entrySize), b.patchPartitions ++ [partition],
      b.header⟩)

/- filename_2_entry -/
abbrev Filename2Entry := List (Bytes × EntryRef)

def addPatchEntries (removed : List Bytes) (i : Nat) : Nat → List ZipEntry → Filename2Entry →
    Except Stop Filename2Entry
  | _, [], m => .ok m
  | j, entry :: entries, m => do
    let filename ← entry.getFileName
    if (m.lookup filename).isSome then .error .failed
    else if filename ∈ removed then addPatchEntries removed i (j + 1) entries m
    else addPatchEntries removed i (j + 1) entries ((filename, (i, j)) :: m)

def parsePatches (removed : List Bytes) : Nat → List (Option Bytes) → Filename2Entry →
    Except Stop (List (List ZipEntry) × Filename2Entry)
  | _, [], m => .ok ([], m)
  | i, zip :: zips, m => do
    let zipEntries ← parseApk zip
    let m ← addPatchEntries removed i 0 zipEntries m
    let (entriesInZipFile, m) ← parsePatches removed (i + 1) zips m
    return (zipEntries :: entriesInZipFile, m)

def heapOf (entriesInZipFile : List (List ZipEntry)) : Heap :=
  fun r => { (entriesInZipFile.getD r.1 []).getD r.2 default with mUserData1 := r.1 }

def refs (i : Nat) (entries : List ZipEntry) : List EntryRef := (List.range entries.length).map (fun j => (i, j))

def refsFrom : Nat → List (List ZipEntry) → List EntryRef
  | _, [] => []
  | i, entries :: rest => refs i entries ++ refsFrom (i + 1) rest

structure Loop where
  heap : Heap
  build : Build
  allEntries : List EntryRef

def emit (r : EntryRef) (s : Loop) : Except Stop Loop := do
  let entryNewStart := s.build.preShadowStop
  let (entry, build) ← addEntryToPartition (s.heap r) s.build
  return ⟨Function.update s.heap r (entry.setLFHOffset (i64 entryNewStart)), build, s.allEntries ++ [r]⟩

def mark (r : EntryRef) (s : Loop) : Loop :=
  { s with heap := Function.update s.heap r { s.heap r with mUserData2 := 1 } }

def emitApk (removed : List Bytes) (m : Filename2Entry) : List EntryRef → Loop → Except Stop Loop
  | [], s => .ok s
  | r :: rs, s => do
    let name ← (s.heap r).getFileName
    if name ∈ removed then emitApk removed m rs s
    else
      let entry := (m.lookup name).getD r
      let s ← emit entry (mark entry s)
      emitApk removed m rs s

def emitPatches : List EntryRef → Loop → Except Stop Loop
  | [], s => .ok s
  | r :: rs, s =>
    if (s.heap r).mUserData2 ≠ 0 then emitPatches rs s
    else do
      let s ← emit r s
      emitPatches rs s

structure Result where
  globalData : ShadowZipGlobalData
  entriesHeader : Bytes
  patchData : Bytes
  heap : Heap
  allEntries : List EntryRef

def Result.emitted (res : Result) : List ZipEntry := res.allEntries.map res.heap

def endOfCentralDir (entries : Nat) (size offset : Nat) : EndOfCentralDir where
  mDiskNumber := 0
  mDiskWithCentralDir := 0
  mNumEntries := u16 entries
  mTotalNumEntries := u16 entries
  mCentralDirSize := size
  mCentralDirOffset := offset
  mCommentLen := 0
  mComment := none

/- The central directory and the end record, in .patch.data. -/
def finish (allFiles : List Bytes) (s : Loop) : Result :=
  let cdOffset := s.build.preShadowStop
  let centralDir := s.allEntries.flatMap (fun r => (s.heap r).mCDE.write)
  let endOfCd := endOfCentralDir s.allEntries.length centralDir.length cdOffset
  let patchData := centralDir ++ endOfCd.write
  let endSize := u64 patchData.length
  let endOfFile := u64 (cdOffset + endSize : Nat)
  let partition : FilePartitionInfo := ⟨cdOffset, endOfFile, allFiles.length - 1, 0, endSize⟩
  ⟨⟨s.build.patchPartitions ++ [partition], allFiles, endOfFile⟩, s.build.header, patchData, s.heap, s.allEntries⟩

def startBuild : Build := ⟨-1, 0, 0, [], []⟩

/- The FILE of the headers is closed on every way out, which a NULL one does not survive. -/
def init (patchDir sysApkFile : Bytes) (disk : Disk) : Except Stop Result :=
  let changedEntriesHeaderPath := snprintf512 (patchDir ++ text "/.entries_header.data")
  let apkPatchPath := snprintf512 (patchDir ++ text "/assets_bin_Data")
  let patchFiles := disk.patches.map (fun p => apkPatchPath ++ 0x2f :: p.1)
  let endPatchPath := snprintf512 (patchDir ++ text "/.patch.data")
  if !disk.headerOpens then .error .faulted
  else if patchFiles = [] then .error .failed
  else do
    let removed := readRemovedFiles disk.removedFiles
    let (patchEntries, filename2Entry) ← parsePatches removed 2 (disk.patches.map Prod.snd) []
    let apkEntries ← parseApk disk.apk
    let entriesInZipFile := apkEntries :: [] :: patchEntries
    let s : Loop := ⟨heapOf entriesInZipFile, startBuild, []⟩
    let s ← emitApk removed filename2Entry (refs 0 apkEntries) s
    let s ← emitPatches (refsFrom 1 ([] :: patchEntries)) s
    if !disk.endOpens then .error .faulted
    else return finish (sysApkFile :: changedEntriesHeaderPath :: (patchFiles ++ [endPatchPath])) s

def filesAfter (disk : Disk) (res : Result) : List Bytes :=
  disk.apk.getD [] :: res.entriesHeader :: (disk.patches.map (fun p => p.2.getD []) ++ [res.patchData])

end Bootstrap.ShadowZip
