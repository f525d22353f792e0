import Bootstrap.ShadowZipInit
import Bootstrap.PlainFile

/-! The stream that a ShadowZip offers on the virtual file: a position, the partition table,
and a cache of open FILEs on the files that the table names. -/
namespace Bootstrap.ShadowStream
open Bootstrap.ShadowZip CInt ByteLayout SerialUtils
open PlainFile (Memory store Call Answer lineOf)

structure Handle where
  id : Nat
  path : Bytes
  position : Nat
  deriving DecidableEq, Repr

/- opened and closed record the calls of ::fopen and ::fclose. -/
structure ShadowZip extends ShadowZipGlobalData where
  pos : Int
  fpArray : List (Option Handle)
  opened : List Bytes
  closed : List Nat
  deriving DecidableEq, Repr

abbrev Files := Bytes → Option Bytes

/- All but the first are closed. -/
def closeOthers : List (Option Handle) → List (Option Handle) × List Nat
  | [] => ([], [])
  | fp :: fps => (fp :: fps.map (fun _ => none), fps.filterMap (Option.map Handle.id))

/- An index outside a vector is not defined. -/
def prepareFile (files : Files) (fileIndex : Int) (z : ShadowZip) : Except Stop (Option Handle × ShadowZip) :=
  if fileIndex < 0 then .error .faulted
  else match z.fpArray[fileIndex.toNat]? with
    | none => .error .faulted
    | some (some fp) => .ok (some fp, z)
    | some none =>
      let (fpArray, gone) := closeOthers z.fpArray
      let z := { z with fpArray, closed := z.closed ++ gone }
      match z.allFiles[fileIndex.toNat]? with
      | none => .error .faulted
      | some path =>
        match files path with
        | none => .ok (none, z)
        | some _ =>
          let fp : Handle := ⟨z.opened.length, path, 0⟩
          .ok (some fp, { z with fpArray := z.fpArray.set fileIndex.toNat (some fp), opened := z.opened ++ [path] })

/- The position of a new ShadowZip is whatever its memory held. -/
def shadowZip (data : ShadowZipGlobalData) (pos : Int) : ShadowZip := ⟨data, pos, [], [], []⟩

def fopen (files : Files) (z : ShadowZip) : Except Stop (Option Handle × ShadowZip) :=
  prepareFile files 0 { z with pos := 0, fpArray := List.replicate z.allFiles.length none }

def SEEK_SET : Nat := 0
def SEEK_CUR : Nat := 1
def SEEK_END : Nat := 2

/- end_of_file_ is unsigned; so is the comparison with it. -/
def fseek (offset : Int) (whence : Nat) (z : ShadowZip) : Int × ShadowZip :=
  let pos :=
    if whence = SEEK_SET then offset
    else if whence = SEEK_CUR then i64 (z.pos + offset)
    else if whence = SEEK_END then i64 (u64 (z.endOfFile + offset))
    else z.pos
  if pos < 0 ∨ z.endOfFile < u64 pos then (-1, z) else (0, { z with pos })

def ftell (z : ShadowZip) : Int := z.pos

def rewind (z : ShadowZip) : ShadowZip := { z with pos := 0 }

structure Reading where
  zip : ShadowZip
  start : Nat
  ret : Nat
  writePtr : Int
  memory : Memory

/- ::fseek and ::fread on an open FILE; a negative offset leaves it where it was. -/
def readHandle (files : Files) (fp : Handle) (offset size : Nat) : Bytes × Handle :=
  let position := if i64 offset < 0 then fp.position else offset
  let bytes := slice ((files fp.path).getD []) position size
  (bytes, { fp with position := position + bytes.length })

/- One round of the loop; the flag says whether it returns. The counts are taken from the
table, not from what ::fread delivers. -/
def readPartition (files : Files) (stop : Nat) (info : FilePartitionInfo) (r : Reading) :
    Except Stop (Bool × Reading) :=
  if info.shadowStop ≤ r.start then .ok (false, r)
  else if r.start < info.shadowStart then .error .faulted
  else do
    let startInFile := u64 (r.start - info.shadowStart + info.startInFile : Int)
    let stopInFile :=
      if info.shadowStop ≤ stop then info.stopInFile else u64 (stop - info.shadowStart + info.startInFile : Int)
    let readSize := i64 (stopInFile - startInFile)
    let (file, zip) ← prepareFile files (i32 info.fileIndex) r.zip
    match file with
    | none => .error .faulted
    | some fp =>
      let (bytes, fp) := readHandle files fp startInFile (u64 readSize)
      let fpArray := zip.fpArray.set (i32 info.fileIndex).toNat (some fp)
      let start := u64 (r.start + readSize)
      return (decide (stop ≤ start), ⟨{ zip with pos := i64 (zip.pos + readSize), fpArray }, start,
        u64 (r.ret + readSize), r.writePtr + readSize, store r.memory r.writePtr bytes⟩)

def readPartitions (files : Files) (stop : Nat) : List FilePartitionInfo → Reading → Except Stop Reading
  | [], r => .ok r
  | info :: infos, r => do
    let (done, r) ← readPartition files stop info r
    if done then return r else readPartitions files stop infos r

def fread (files : Files) (memory : Memory) (size nmemb : Nat) (z : ShadowZip) :
    Except Stop (Nat × Memory × ShadowZip) :=
  if i32 nmemb ≤ 0 then .ok (0, memory, z)
  else do
    let stop := u64 (z.pos + u64 (size * nmemb : Nat))
    let r ← readPartitions files stop z.patchPartitions ⟨z, u64 z.pos, 0, 0, memory⟩
    return (r.ret, r.memory, r.zip)

/- ::fseek and ::fgets on an open FILE; none is NULL. -/
def getLine (files : Files) (fp : Handle) (offset : Nat) (size : Int) : Option Bytes × Handle :=
  let position := if i64 offset < 0 then fp.position else offset
  let bytes := (lineOf (((files fp.path).getD []).drop position)).take (size - 1).toNat
  (if size ≤ 0 ∨ (bytes = [] ∧ size ≠ 1) then none else some bytes, { fp with position := position + bytes.length })

/- Only the partition at the position is asked. -/
def fgetsFrom (files : Files) (memory : Memory) (size : Int) (z : ShadowZip) :
    List FilePartitionInfo → Except Stop (Option Memory × ShadowZip)
  | [] => .ok (none, z)
  | info :: infos =>
    let begin_ := u64 z.pos
    if info.shadowStop ≤ begin_ then fgetsFrom files memory size z infos
    else if begin_ < info.shadowStart then .error .faulted
    else do
      let startInFile := u64 (begin_ - info.shadowStart + info.startInFile : Int)
      let (file, z) ← prepareFile files (i32 info.fileIndex) z
      match file with
      | none => .error .faulted
      | some fp =>
        let (line, fp) := getLine files fp startInFile size
        let fpArray := z.fpArray.set (i32 info.fileIndex).toNat (some fp)
        let readSize := i64 (fp.position - startInFile : Int)
        return (line.map (fun bytes => store memory 0 (bytes ++ [0])), { z with pos := i64 (z.pos + readSize), fpArray })

def fgets (files : Files) (memory : Memory) (size : Int) (z : ShadowZip) : Except Stop (Option Memory × ShadowZip) :=
  fgetsFrom files memory size z z.patchPartitions

def call (files : Files) (z : ShadowZip) : Call → Except Stop (Answer × ShadowZip)
  | .fseek offset whence => .ok (.moved (fseek offset whence z).1, (fseek offset whence z).2)
  | .rewind => .ok (.rewound, rewind z)
  | .ftell => .ok (.told (ftell z), z)
  | .fread size nmemb ptr => do
    let (count, ptr, z) ← fread files ptr size nmemb z
    return (.read count ptr, z)

def calls (files : Files) (z : ShadowZip) : List Call → Except Stop (List Answer × ShadowZip)
  | [] => .ok ([], z)
  | c :: cs => do
    let (answer, z) ← call files z c
    let (answers, z) ← calls files z cs
    return (answer :: answers, z)

def fclose (z : ShadowZip) : ShadowZip :=
  { z with fpArray := [], closed := z.closed ++ z.fpArray.filterMap (Option.map Handle.id) }

end Bootstrap.ShadowStream
