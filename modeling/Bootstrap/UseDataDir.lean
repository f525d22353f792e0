import Bootstrap.FileStore
import Bootstrap.ShadowZipInit
import Bootstrap.UserDb

/-! use_data_dir, and what the next start makes of it, as operations on files. A path names
a file as it is spelled. -/
namespace Bootstrap.UseDataDir
open CInt ByteLayout Zip ShadowZip UserDb FileStore

abbrev Files := Store Bytes UInt8
abbrev FileOp := Op Bytes UInt8

def snprintf256 (text : Bytes) : Bytes := text.take 255

/- "%s/%s" -/
def join (dir name : Bytes) : Bytes := dir ++ 0x2f :: name

structure Dirent where
  name : Bytes
  type : Nat
  deriving DecidableEq, Repr

def DT_DIR : Nat := 4

/- NEW_SO_POSTFIX -/
def newSoPostfix : Bytes := [0x2e, 0x6e, 0x65, 0x77]

def hasPostfix (filename : Bytes) : Bool :=
  decide (newSoPostfix.length < filename.length) &&
    filename.drop (filename.length - newSoPostfix.length) == newSoPostfix

def soName (filename : Bytes) : Bytes := filename.take (filename.length - newSoPostfix.length)

/-! copy_file. The system decides how much a read or a write moves. -/

inductive ReadOutcome where
  | bytes (n : Nat) | error
  deriving DecidableEq, Repr

inductive WriteOutcome where
  | bytes (n : Nat) | interrupted | error
  deriving DecidableEq, Repr

/- A schedule that has run out moves whole buffers. -/
structure CopySchedule where
  targetOpens : Bool
  reads : List ReadOutcome
  writes : List WriteOutcome
  deriving DecidableEq, Repr

def copyBufferSize : Nat := 4096

/- The inner loop: what reached the file, piece by piece, and whether it came to its end. -/
def writeBuffer : List WriteOutcome → Bytes → List Bytes × Bool × List WriteOutcome
  | [], buf => ([buf], true, [])
  | .interrupted :: writes, buf => writeBuffer writes buf
  | .error :: writes, _ => ([], false, writes)
  | .bytes n :: writes, buf =>
    if buf.length ≤ n then ([buf], true, writes)
    else
      let (pieces, ok, writes) := writeBuffer writes (buf.drop n)
      (buf.take n :: pieces, ok, writes)

/- A read that fails ends the loop as the end of the file does. Each read takes something
until then, so that the source's length bounds the rounds. -/
def copyLoop : Nat → List ReadOutcome → List WriteOutcome → Bytes → List Bytes × Bool
  | 0, _, _, _ => ([], true)
  | _, .error :: _, _, _ => ([], true)
  | rounds+1, reads, writes, source =>
    let nread := match reads with
      | .bytes n :: _ => min (max 1 n) copyBufferSize
      | _ => copyBufferSize
    if source = [] then ([], true)
    else
      let (pieces, ok, writes) := writeBuffer writes (source.take nread)
      if !ok then (pieces, false)
      else
        let (more, ok) := copyLoop rounds reads.tail writes (source.drop nread)
        (pieces ++ more, ok)

/- The target is opened with O_CREAT | O_EXCL. -/
def copyFile (schedule : CopySchedule) (fromPath toPath : Bytes) (s : Files) : List FileOp × Bool :=
  match s fromPath with
  | none => ([], false)
  | some source =>
    if !schedule.targetOpens || (s toPath).isSome then ([], false)
    else
      let (pieces, ok) := copyLoop (source.length + 1) schedule.reads schedule.writes source
      (.create toPath :: pieces.map (Op.append toPath), ok)

/- Whether the copy succeeded is not asked. -/
def prepareLib (dataDir dataPath : Bytes) (schedule : CopySchedule) (filename : Bytes) (s : Files) : List FileOp :=
  let fromFilepath := snprintf256 (join dataPath filename)
  let toFilepath := snprintf256 (join dataDir filename)
  let newFilepath := fromFilepath.take (fromFilepath.length - newSoPostfix.length)
  (copyFile schedule fromFilepath toFilepath s).1 ++ replace fromFilepath newFilepath

def prepareSoLib (dataDir dataPath : Bytes) (schedules : Bytes → CopySchedule) : List Dirent → Files → List FileOp
  | [], _ => []
  | ent :: ents, s =>
    if ent.type &&& DT_DIR ≠ 0 ∨ ¬ hasPostfix ent.name then prepareSoLib dataDir dataPath schedules ents s
    else
      let ops := prepareLib dataDir dataPath (schedules ent.name) ent.name s
      ops ++ prepareSoLib dataDir dataPath schedules ents (runs s ops)

/-- How stdio cuts what is written to a FILE: at some places, and without loss. -/
structure Flush where
  pieces : Bytes → List Bytes
  whole : ∀ content, (pieces content).flatten = content

/- One call of use_data_dir: its argument, what the system answers and what it lists. The
last field is what the header file got if init does not return. -/
structure Call where
  dataPath : Bytes
  bundleId : Bytes
  apkPath : Bytes
  opens : Bool
  dirents : List Dirent
  schedules : Bytes → CopySchedule
  patchNames : List Bytes
  headerOpens : Bool
  endOpens : Bool
  tmpOpens : Bool
  errno : Nat
  flush : Flush
  unfinished : Bytes

section
variable (dataDir : Bytes) (call : Call)

def userDbPath : Bytes := snprintf256 (join dataDir (text "user.db"))
def userDbTmpPath : Bytes := snprintf256 (join dataDir (text "user.db.tmp"))
def headerPath : Bytes := snprintf512 (call.dataPath ++ text "/.entries_header.data")
def endPatchPath : Bytes := snprintf512 (call.dataPath ++ text "/.patch.data")

def diskOf (s : Files) : Disk where
  apk := s call.apkPath
  patches := call.patchNames.map (fun name =>
    (name, s (snprintf512 (call.dataPath ++ text "/assets_bin_Data") ++ 0x2f :: name)))
  removedFiles := s (snprintf512 (call.dataPath ++ text "/removed_files.txt"))
  headerOpens := call.headerOpens
  endOpens := call.endOpens

def written (path content : Bytes) : List FileOp := (call.flush.pieces content).map (Op.append path)

/- ShadowZip::init. What the header's buffer still holds is written when it is closed, behind
the other file. -/
def initOps (s : Files) : List FileOp × Except Stop Result :=
  if !call.headerOpens then ([], .error .faulted)
  else
    let opened : List FileOp := [.truncate (headerPath call)]
    match init call.dataPath call.apkPath (diskOf call (runs s opened)) with
    | .error .failed => (opened, .error .failed)
    | .error stop => (opened ++ written call (headerPath call) call.unfinished, .error stop)
    | .ok res =>
      let header := written call (headerPath call) res.entriesHeader
      (opened ++ header.dropLast ++ (.truncate (endPatchPath call) :: written call (endPatchPath call) res.patchData) ++
        header.getLast?.toList, .ok res)

/- The call returns an error string or NULL, or the process ends in it. -/
inductive Outcome where
  | cleared
  | refused (error : Bytes)
  | activated (record : Record)
  | died
  deriving DecidableEq, Repr

def recordOf (res : Result) : Record :=
  ⟨call.dataPath, call.apkPath, call.bundleId, res.globalData.allFiles, res.globalData.patchPartitions,
    res.globalData.endOfFile⟩

def initError : Bytes := snprintf256 (text "failed to do ShadowZip::init(" ++ call.dataPath ++ text ", " ++ call.apkPath ++
  text ")")
def openError : Bytes := snprintf256 (text "can't open:" ++ userDbTmpPath dataDir ++ text ", errno:" ++
  text (toString call.errno))

/- user.db.tmp is written, and takes the place of user.db. -/
def saveOps (res : Result) : List FileOp × Outcome :=
  if !call.tmpOpens then ([], .refused (openError dataDir call))
  else match serialUserDb (recordOf call res) with
    | .error _ => ([.truncate (userDbTmpPath dataDir)], .died)
    | .ok content =>
      (.truncate (userDbTmpPath dataDir) :: written call (userDbTmpPath dataDir) content ++
        replace (userDbTmpPath dataDir) (userDbPath dataDir), .activated (recordOf call res))

def useDataDir (s : Files) : List FileOp × Outcome :=
  if call.dataPath = [] then ([.unlink (userDbPath dataDir)], .cleared)
  else if !call.opens then ([], .refused (text "can't access data dir!"))
  else
    let libs := prepareSoLib dataDir call.dataPath call.schedules call.dirents s
    let (merge, result) := initOps call (runs s libs)
    match result with
    | .error .failed => (libs ++ merge, .refused (initError call))
    | .error _ => (libs ++ merge, .died)
    | .ok res => (libs ++ merge ++ (saveOps dataDir call res).1, (saveOps dataDir call res).2)

end

/-! The next start. -/

/- pre_process_all_so_lib; the listing is readdir's. -/
def preProcessAllSoLib (dataDir : Bytes) (listing : List Dirent) : List FileOp :=
  listing.flatMap (fun ent =>
    if ent.type &&& DT_DIR ≠ 0 ∨ ¬ hasPostfix ent.name then []
    else
      let newFilepath := snprintf256 (join dataDir ent.name)
      let oldFilepath := newFilepath.take (newFilepath.length - newSoPostfix.length)
      replace newFilepath oldFilepath ++ [.chmod oldFilepath])

/- One start: what the system answers, and what it lists of the data directory. -/
structure Boot where
  dataPathOpens : Bool
  apkStat : Bool
  apkNewer : Bool
  dataDirOpens : Bool
  listing : List Dirent

/- extract_patch_info: the files it leaves, and the record it takes if it returns true. A
user.db that does not decode ends the start, or has it go on without the patch. -/
def extractPatchInfo (dataDir : Bytes) (boot : Boot) (s : Files) : Files × Option Record :=
  match s (userDbPath dataDir) with
  | none => (s, none)
  | some content =>
    match unserialUserDb content with
    | .error _ => (s, none)
    | .ok (record, _) =>
      if !boot.dataPathOpens || !boot.apkStat then (s, none)
      else if boot.apkNewer then ((Op.unlink (userDbPath dataDir)).run s, none)
      else if !boot.dataDirOpens then (s, none)
      else
        let s := runs s (preProcessAllSoLib dataDir boot.listing)
        if (s (snprintf256 (join dataDir (text "libil2cpp.so")))).isSome then (s, some record) else (s, none)

end Bootstrap.UseDataDir
