import Bootstrap.WrittenArchive
import Bootstrap.Tiling
import Mathlib.Data.List.TakeWhile

/-! Archives of stored files, written the way zip tools write them: parse_apk accepts them and
delivers their files. They are the inputs of the runs shown on concrete archives. -/
namespace Bootstrap.ShadowZip
open CInt ByteLayout Zip ParseApk Tiling

structure StoredFile where
  name : Bytes
  data : Bytes
  crc : Nat
  deriving DecidableEq, Repr

namespace StoredFile

def header (f : StoredFile) : LocalFileHeader where
  mVersionToExtract := 10
  mGPBitFlag := 0
  mCompressionMethod := ZipEntry.kCompressStored
  mLastModFileTime := 0
  mLastModFileDate := 0x21
  mCRC32 := longOfWord f.crc
  mCompressedSize := f.data.length
  mUncompressedSize := f.data.length
  mFileNameLength := f.name.length
  mExtraFieldLength := 0
  mFileName := some f.name
  mExtraField := none

def record (f : StoredFile) (offset : Nat) : CentralDirEntry where
  mVersionMadeBy := 10
  mVersionToExtract := 10
  mGPBitFlag := 0
  mCompressionMethod := ZipEntry.kCompressStored
  mLastModFileTime := 0
  mLastModFileDate := 0x21
  mCRC32 := longOfWord f.crc
  mCompressedSize := f.data.length
  mUncompressedSize := f.data.length
  mFileNameLength := f.name.length
  mExtraFieldLength := 0
  mFileCommentLength := 0
  mDiskNumberStart := 0
  mInternalAttrs := 0
  mExternalAttrs := 0
  mLocalHeaderRelOffset := offset
  mFileName := some f.name
  mExtraField := none
  mFileComment := none

def image (f : StoredFile) (_place : Nat) : Bytes := f.header.write ++ f.data

def entry (p : StoredFile × Nat) : ZipEntry := ⟨0, 0, p.1.header, p.1.record p.2⟩

structure Proper (f : StoredFile) : Prop where
  some : f.name ≠ []
  length : f.name.length < 2 ^ 16
  text : ∀ ch ∈ f.name, ch ≠ 0
  file : isDirectory f.name = false
  data : f.data.length < 2 ^ 31

theorem headerValid {f : StoredFile} (proper : f.Proper) : f.header.Valid := by
  have nonempty : f.name.length ≠ 0 := fun zero => proper.some (List.length_eq_zero_iff.mp zero)
  refine ⟨?_, ⟨nonempty, rfl⟩, rfl⟩
  constructor <;> simp only [header, ZipEntry.kCompressStored]
  case mCRC32 => exact longOfWordIsLong _
  case mCompressedSize | mUncompressedSize => exact smallIsLong proper.data
  case mFileNameLength => exact proper.length
  all_goals decide

theorem recordValid {f : StoredFile} (proper : f.Proper) {offset : Nat} (low : offset < 2 ^ 31) :
    (f.record offset).Valid := by
  have nonempty : f.name.length ≠ 0 := fun zero => proper.some (List.length_eq_zero_iff.mp zero)
  refine ⟨?_, ⟨nonempty, rfl⟩, rfl, rfl⟩
  constructor <;> simp only [record, ZipEntry.kCompressStored]
  case mCRC32 => exact longOfWordIsLong _
  case mCompressedSize | mUncompressedSize => exact smallIsLong proper.data
  case mFileNameLength => exact proper.length
  case mLocalHeaderRelOffset => exact smallIsLong low
  case mExternalAttrs => exact smallIsLong (by decide)
  all_goals decide

theorem imageLength {f : StoredFile} (proper : f.Proper) (place : Nat) :
    (f.image place).length = 30 + f.name.length + f.data.length := by
  have valid := headerValid proper
  rw [image, List.length_append,
    LocalFileHeader.writeLength valid.mFileName (writeCountedLength valid.mExtraField)]
  rfl

theorem cName {f : StoredFile} (proper : f.Proper) (offset : Nat) :
    (entry (f, offset)).getFileName = .ok f.name := by
  have whole : f.name.takeWhile (· != 0) = f.name :=
    List.takeWhile_eq_self_iff.mpr fun ch mem => by simpa using proper.text ch mem
  simp only [ZipEntry.getFileName, entry, record, cString, whole]

end StoredFile

open StoredFile in
def storedEntries (fs : List StoredFile) : List ZipEntry := (placesFrom StoredFile.image 0 fs).map entry

def archiveOf (fs : List StoredFile) : Bytes :=
  writtenArchive (assemble StoredFile.image 0 fs) (storedEntries fs)

theorem archiveParses {fs : List StoredFile} (proper : ∀ f ∈ fs, f.Proper) (count : fs.length < 2 ^ 16)
    (small : (archiveOf fs).length < 2 ^ 31)
    (clear : ¬ EndClash fs.length (centralDir (storedEntries fs)).length (assemble StoredFile.image 0 fs).length) :
    parseApk (some (archiveOf fs)) = .ok (storedEntries fs) := by
  have number : (storedEntries fs).length = fs.length := by
    rw [storedEntries, List.length_map, ← List.length_map (f := Prod.fst), placesItems]
  have sizes := small
  rw [archiveOf, writtenArchive, List.length_append, List.length_append] at sizes
  refine parseWritten (by rw [number]; exact count) (by omega) (by omega) ?_ ?_
  · intro e mem
    obtain ⟨⟨f, place⟩, known, rfl⟩ := List.mem_map.mp mem
    have own : f ∈ fs := by
      rw [← placesItems StoredFile.image 0 fs]
      exact List.mem_map_of_mem (f := Prod.fst) known
    have good := proper f own
    obtain ⟨before, after, split, there⟩ := assembleSlice _ known
    have low : place < 2 ^ 31 := by
      have total := congrArg List.length split
      simp only [List.length_append] at total
      omega
    refine ⟨⟨StoredFile.recordValid good low, StoredFile.headerValid good, ?_, ?_⟩, ⟨rfl, rfl⟩, f.name,
      StoredFile.cName good place, good.file⟩
    · have exact := i64Exact (x := place) (by omega) (by omega)
      show 0 ≤ i64 (place : Int)
      omega
    · have start : place = before.length := by omega
      refine ⟨f.data ++ (after ++ (centralDir (storedEntries fs) ++ endRecord (storedEntries fs)
        (assemble StoredFile.image 0 fs).length)), ?_⟩
      simp only [StoredFile.entry, StoredFile.record]
      rw [writtenArchive, split, start, List.append_assoc, List.drop_left, StoredFile.image, List.append_assoc,
        List.append_assoc]
  · rw [endRecord, number]
    intro misled
    exact clear ((misleadsExactly count (by omega) (by omega)).mp misled)

end Bootstrap.ShadowZip
