import Bootstrap.OpenFiles
import Bootstrap.ShadowStream
import Mathlib.Data.Nat.Digits.Lemmas

/-! The link from a descriptor to its ShadowZip: a FileExtraData that is saved in the file or
in the shared memory behind the descriptor, and read back from there by every hooked call. -/
namespace Bootstrap.FileMapping
open CInt ByteLayout OpenFiles SerialUtils
open Bootstrap.ShadowZip (ShadowZipGlobalData snprintf512 text)
open ShadowStream (ShadowZip Files SEEK_SET SEEK_CUR SEEK_END)
open PlainFile (Memory store)

def MY_MAGIC_NUM : Nat := 0x1983546019835460
def NULL : Nat := 0

structure FileExtraData where
  magicNum : Nat
  self : Nat
  shadowZip : Nat
  file : Nat
  mmapBuffer : Nat
  fd : Int
  deriving DecidableEq, Repr

namespace FileExtraData

def sizeOf : Nat := 48

/- Four bytes of padding follow fd; new FileExtraData() clears them. -/
def fields (r : FileExtraData) : List Field :=
  [(8, r.magicNum), (8, r.self), (8, r.shadowZip), (8, r.file), (8, r.mmapBuffer), (4, u32 r.fd), (4, 0)]

def image (r : FileExtraData) : Bytes := pack r.fields

def ofImage (raw : Bytes) : FileExtraData where
  magicNum := readLE (slice raw 0 8)
  self := readLE (slice raw 8 8)
  shadowZip := readLE (slice raw 16 8)
  file := readLE (slice raw 24 8)
  mmapBuffer := readLE (slice raw 32 8)
  fd := i32 (readLE (slice raw 40 4))

structure Fits (r : FileExtraData) : Prop where
  magicNum : r.magicNum < 2 ^ 64
  self : r.self < 2 ^ 64
  shadowZip : r.shadowZip < 2 ^ 64
  file : r.file < 2 ^ 64
  mmapBuffer : r.mmapBuffer < 2 ^ 64
  fd : -(2 ^ 31) ≤ r.fd ∧ r.fd < 2 ^ 31

end FileExtraData

structure FileId where
  dev : Nat
  ino : Nat
  deriving DecidableEq, Repr

/-- What stays the same from the start on: the mode, the globals, and what fstat, the heap of
ShadowZip and the file system behind it answer. -/
structure Process where
  useSharedMem : Bool
  useDataPath : Bytes
  shmId : FileId
  apkId : FileId
  fileId : Nat → FileId
  files : Files
  data : ShadowZipGlobalData

inductive Note where
  | newZip (address : Nat)
  | newRecord (address : Nat)
  | deletedZip (address : Nat)
  | deletedRecord (address : Nat)
  deriving DecidableEq, Repr

/- streams tells which descriptor a live FILE* has; notes records each new and each delete. -/
structure World extends Kernel where
  streams : Nat → Option Int
  records : Nat → Option FileExtraData
  zips : Nat → Option ShadowZip
  notes : List Note

inductive Fault where
  | dangling
  | stopped (stop : Stop)
  deriving DecidableEq, Repr

/-- What the system chooses when a file is opened; pos is what the memory of a new ShadowZip
held, and written is how much of a record reaches the file. -/
structure Given where
  refused : Bool
  fd : Int
  node : Nat
  stream : Nat
  record : Nat
  zip : Nat
  buffer : Nat
  pos : Int
  written : Nat
  deriving DecidableEq, Repr

def deref {α : Type} (heap : Nat → Option α) (pointer : Nat) : Except Fault α :=
  match heap pointer with
  | some a => .ok a
  | none => .error .dangling

def inZip {α : Type} : Except Stop α → Except Fault α
  | .ok a => .ok a
  | .error stop => .error (.stopped stop)

def hexDigit (d : Nat) : UInt8 := UInt8.ofNat (if d < 10 then 0x30 + d else 0x57 + d)

/- "%08llx" -/
def hex (n : Nat) : Bytes :=
  let digits := (Nat.digits 16 n).reverse.map hexDigit
  List.replicate (8 - digits.length) 0x30 ++ digits

/- "wb+" and "r+" -/
def wbPlus : Flags := ⟨true, true, false, true⟩

section
variable (p : Process)

def savePath (record : Nat) : Bytes := snprintf512 (p.useDataPath ++ text "/rt_fd_mappings/" ++ hex record)

/- The device gives out a new region of zeros; the record is copied there when all is set. -/
def saveMemMapping (w : World) (r : FileExtraData) (given : Given) : Except Fault (FileExtraData × World) :=
  if given.refused then .error (.stopped .exited)
  else
    let r := { r with file := given.stream, fd := given.fd, mmapBuffer := given.buffer }
    .ok (r, { w with
      toKernel := { w.setFile given.fd (some ⟨given.node, 0, true⟩) with
        contents := Function.update w.contents given.node r.image }
      streams := Function.update w.streams given.stream (some given.fd) })

/- What fwrite and fflush return is not looked at. -/
def saveFileMapping (w : World) (r : FileExtraData) (given : Given) : Except Fault (FileExtraData × World) :=
  match if given.refused then none else w.openFile (savePath p r.self) wbPlus given.fd given.node with
  | none => .error (.stopped .exited)
  | some k =>
    let r := { r with file := given.stream, fd := given.fd }
    let k := k.write given.fd (r.image.take given.written)
    let k := (k.lseek given.fd 0 SEEK_SET).2
    .ok (r, { w with toKernel := k, streams := Function.update w.streams given.stream (some given.fd) })

def saveMapping (w : World) (shadowZip : Nat) (given : Given) : Except Fault (FileExtraData × World) := do
  let r : FileExtraData := ⟨MY_MAGIC_NUM, given.record, shadowZip, NULL, NULL, 0⟩
  let w := { w with notes := w.notes ++ [.newRecord given.record] }
  let (r, w) ← if p.useSharedMem then saveMemMapping w r given else saveFileMapping p w r given
  return (r, { w with records := Function.update w.records given.record (some r) })

def validate (fd readCnt : Int) (copy : Bytes) : Nat :=
  let r := FileExtraData.ofImage copy
  if readCnt ≠ FileExtraData.sizeOf then NULL
  else if r.magicNum ≠ MY_MAGIC_NUM then NULL
  else if r.fd ≠ fd then NULL
  else r.self

def getFileMapping (k : Kernel) (fd : Int) : Nat × Kernel :=
  let (pos, k) := k.lseek fd 0 SEEK_CUR
  if pos ≠ 0 then (NULL, k)
  else
    let (_, k) := k.lseek fd 0 SEEK_SET
    let (readCnt, copy, k) := k.read fd FileExtraData.sizeOf
    let (_, k) := k.lseek fd 0 SEEK_SET
    (validate fd readCnt copy, k)

/- A region can be mapped. -/
def getMemMapping (k : Kernel) (fd : Int) : Nat :=
  match k.fds fd with
  | none => NULL
  | some f =>
    if p.shmId ≠ p.fileId f.node then NULL
    else
      let copy := slice (k.contents f.node) 0 FileExtraData.sizeOf
      validate fd FileExtraData.sizeOf copy

def getMapping (w : World) (fd : Int) : Nat × World :=
  if p.useSharedMem then (getMemMapping p w.toKernel fd, w)
  else ((getFileMapping w.toKernel fd).1, { w with toKernel := (getFileMapping w.toKernel fd).2 })

def fclose (w : World) (stream : Nat) : Except Fault (Int × World) := do
  let fd ← deref w.streams stream
  let (ret, k) := w.close fd
  return (ret, { w with toKernel := k, streams := Function.update w.streams stream none })

def deleteZip (w : World) (zip : Nat) : Except Fault World :=
  if zip = NULL then .ok w
  else do
    let _ ← deref w.zips zip
    return { w with zips := Function.update w.zips zip none, notes := w.notes ++ [.deletedZip zip] }

def deleteRecord (w : World) (record : Nat) : Except Fault World :=
  if record = NULL then .ok w
  else do
    let _ ← deref w.records record
    return { w with records := Function.update w.records record none, notes := w.notes ++ [.deletedRecord record] }

def cleanMappingData (w : World) (fileExtraData : Nat) : Except Fault World := do
  let r ← deref w.records fileExtraData
  let w := if p.useSharedMem then w else { w with toKernel := w.unlink (savePath p r.self) }
  let (_, w) ← fclose w r.file
  let w ← deleteZip w r.shadowZip
  let r ← deref w.records fileExtraData
  deleteRecord w r.self

/-! The hooks. An open is of the APK if the path leads to its device and inode. -/

def rawOpen (w : World) (path : Bytes) (flags : Flags) (given : Given) : Int × World :=
  match if given.refused then none else w.openFile path flags given.fd given.node with
  | none => (-1, w)
  | some k => (given.fd, { w with toKernel := k })

def rawFopen (w : World) (path : Bytes) (mode : Flags) (given : Given) : Nat × World :=
  match if given.refused then none else w.openFile path mode given.fd given.node with
  | none => (NULL, w)
  | some k =>
    (given.stream, { w with toKernel := k, streams := Function.update w.streams given.stream (some given.fd) })

def isApk (w : World) (path : Bytes) : Bool :=
  match w.names path with
  | none => false
  | some node => p.fileId node == p.apkId

/- new ShadowZip(), its fopen, and the record; none when the ShadowZip cannot open its APK. -/
def openShadow (w : World) (given : Given) : Except Fault (Option FileExtraData × World) := do
  let shadowZip := ShadowStream.shadowZip p.data given.pos
  let w := { w with notes := w.notes ++ [Note.newZip given.zip] }
  let (fp, shadowZip) ← inZip (ShadowStream.fopen p.files shadowZip)
  let w := { w with zips := Function.update w.zips given.zip (some shadowZip) }
  match fp with
  | none =>
    let w ← deleteZip w given.zip
    return (none, w)
  | some _ =>
    let (fileExtraData, w) ← saveMapping p w given.zip given
    return (some fileExtraData, w)

def myOpen (w : World) (path : Bytes) (flags : Flags) (given : Given) : Except Fault (Int × World) :=
  if isApk p w path then do
    let (fileExtraData, w) ← openShadow p w given
    match fileExtraData with
    | none => return rawOpen w path flags given
    | some r => return (r.fd, w)
  else return rawOpen w path flags given

def myFopen (w : World) (path : Bytes) (mode : Flags) (given : Given) : Except Fault (Nat × World) :=
  if isApk p w path then do
    let (fileExtraData, w) ← openShadow p w given
    match fileExtraData with
    | none => return rawFopen w path mode given
    | some r => return (r.file, w)
  else return rawFopen w path mode given

def getCachedShadowzip (w : World) (fd : Int) : Except Fault (Nat × World) := do
  let (fileExtraData, w) := getMapping p w fd
  if fileExtraData = NULL then return (NULL, w)
  else do
    let r ← deref w.records fileExtraData
    return (r.shadowZip, w)

def hooked {α : Type} (w : World) (fd : Int) (member : ShadowZip → Except Stop (α × ShadowZip))
    (libc : World → α × World) : Except Fault (α × World) := do
  let (shadowZip, w) ← getCachedShadowzip p w fd
  if shadowZip = NULL then return libc w
  else do
    let z ← deref w.zips shadowZip
    let (answer, z) ← inZip (member z)
    return (answer, { w with zips := Function.update w.zips shadowZip (some z) })

def rawRead (fd : Int) (buf : Memory) (nbyte : Nat) (w : World) : (Int × Memory) × World :=
  let (ret, bytes, k) := w.read fd nbyte
  ((ret, store buf 0 bytes), { w with toKernel := k })

def myRead (w : World) (fd : Int) (buf : Memory) (nbyte : Nat) : Except Fault ((Int × Memory) × World) :=
  hooked p w fd
    (fun z => do
      let (ret, buf, z) ← ShadowStream.fread p.files buf 1 nbyte z
      return ((i64 ret, buf), z))
    (rawRead fd buf nbyte)

def rawLseek (fd offset : Int) (whence : Nat) (w : World) : Int × World :=
  let (ret, k) := w.lseek fd offset whence
  (ret, { w with toKernel := k })

/- off_t is off64_t here, and my_lseek64 is the same function. -/
def myLseek (w : World) (fd offset : Int) (whence : Nat) : Except Fault (Int × World) :=
  hooked p w fd
    (fun z =>
      let (ret, z) := ShadowStream.fseek offset whence z
      .ok (if ret = 0 then ShadowStream.ftell z else ret, z))
    (rawLseek fd offset whence)

def rawClose (fd : Int) (w : World) : Int × World :=
  let (ret, k) := w.close fd
  (ret, { w with toKernel := k })

def myClose (w : World) (fd : Int) : Except Fault (Int × World) := do
  let (fileExtraData, w) := getMapping p w fd
  if fileExtraData ≠ NULL then
    let w ← cleanMappingData p w fileExtraData
    return (0, w)
  else return rawClose fd w

def myFclose (w : World) (stream : Nat) : Except Fault (Int × World) := do
  let fd ← deref w.streams stream
  let (fileExtraData, w) := getMapping p w fd
  if fileExtraData ≠ NULL then
    let w ← cleanMappingData p w fileExtraData
    return (0, w)
  else fclose w stream

/-- stdio reads ahead: what a call answers on an ordinary FILE*, and the offset at which it
leaves the descriptor. -/
structure Stdio (α : Type) where
  answer : α
  offset : Nat

def stdio {α : Type} (fd : Int) (libc : Stdio α) (w : World) : α × World :=
  (libc.answer, { w with
    toKernel := w.setFile fd ((w.fds fd).map (fun f => { f with offset := libc.offset })) })

def hookedStream {α : Type} (w : World) (stream : Nat) (member : ShadowZip → Except Stop (α × ShadowZip))
    (libc : Stdio α) : Except Fault (α × World) := do
  let fd ← deref w.streams stream
  hooked p w fd member (stdio fd libc)

def myFseek (w : World) (stream : Nat) (offset : Int) (whence : Nat) (libc : Stdio Int) : Except Fault (Int × World) :=
  hookedStream p w stream
    (fun z => .ok (i32 (ShadowStream.fseek offset whence z).1, (ShadowStream.fseek offset whence z).2)) libc

/- The answer of ftell is cut to an int. -/
def myFtell (w : World) (stream : Nat) (libc : Stdio Int) : Except Fault (Int × World) := do
  let (ret, w) ← hookedStream p w stream (fun z => .ok (ShadowStream.ftell z, z)) libc
  return (i32 ret, w)

def myFread (w : World) (ptr : Memory) (size nmemb stream : Nat) (libc : Stdio (Nat × Memory)) :
    Except Fault ((Nat × Memory) × World) :=
  hookedStream p w stream
    (fun z => do
      let (ret, ptr, z) ← ShadowStream.fread p.files ptr size nmemb z
      return ((ret, ptr), z)) libc

def myFgets (w : World) (s : Memory) (size : Int) (stream : Nat) (libc : Stdio (Option Memory)) :
    Except Fault (Option Memory × World) :=
  hookedStream p w stream (ShadowStream.fgets p.files s size) libc

end
end Bootstrap.FileMapping
