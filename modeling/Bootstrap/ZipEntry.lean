import Bootstrap.ByteLayout

/-! The three ZIP records as they are read from and written to a FILE, and the entry that
joins a central-directory record with its local header. A stream is given by the bytes
from its position on; `unsigned long` fields hold the sign extension of a 32-bit word. -/
namespace Bootstrap.Zip
open CInt ByteLayout

/- buf[3] << 24 is an int, so a word with its top bit set is extended with ones. -/
def longOfWord (word : Nat) : Nat := u64 (i32 word)

def getShortLE (buf : Bytes) (off : Nat) : Nat := readLE (slice buf off 2)
def getLongLE (buf : Bytes) (off : Nat) : Nat := longOfWord (readLE (slice buf off 4))

/-- The values that an `unsigned long` field can have been read as. -/
def IsLong (value : Nat) : Prop := value = longOfWord (value % 2 ^ 32)
instance (value) : Decidable (IsLong value) := by unfold IsLong; infer_instance

theorem longOfWordMod (word : Nat) : longOfWord word % 2 ^ 32 = word % 2 ^ 32 := by
  unfold longOfWord u64 i32; omega

theorem longOfWordIsLong (word : Nat) : IsLong (longOfWord word) := by
  unfold IsLong longOfWord u64 i32; omega

theorem smallIsLong {value : Nat} (small : value < 2 ^ 31) : IsLong value := by
  unfold IsLong longOfWord u64 i32; omega

theorem getShortBound (buf : Bytes) (off : Nat) : getShortLE buf off < 2 ^ 16 := by
  have bound := readLeBound (slice buf off 2)
  have short := sliceLengthLe buf off 2
  have mono : 256 ^ (slice buf off 2).length ≤ 256 ^ 2 := Nat.pow_le_pow_right (by decide) short
  have two : (256 : Nat) ^ 2 = 2 ^ 16 := rfl
  unfold getShortLE
  omega

theorem getLongIsLong (buf : Bytes) (off : Nat) : IsLong (getLongLE buf off) := longOfWordIsLong _

theorem putShortRead {buf : Bytes} {off : Nat} (inside : off + 2 ≤ buf.length) :
    le 2 (getShortLE buf off) = slice buf off 2 := leOfSlice inside

theorem putLongRead {buf : Bytes} {off : Nat} (inside : off + 4 ≤ buf.length) :
    le 4 (getLongLE buf off) = slice buf off 4 := by
  rw [← leOfSlice inside, ← leMod 4 (getLongLE buf off), ← leMod 4 (readLE (slice buf off 4))]
  exact congrArg (le 4) (longOfWordMod _)

theorem splitAtField {fields : List Field} {i : Nat} {f : Field} (found : fields[i]? = some f) :
    fields = fields.take i ++ f :: fields.drop (i + 1) := by
  obtain ⟨inside, rfl⟩ := List.getElem?_eq_some_iff.mp found
  rw [← List.drop_eq_getElem_cons inside, List.take_append_drop]

theorem shortField {fields : List Field} (i : Nat) {value off : Nat} (found : fields[i]? = some (2, value))
    (place : widths (fields.take i) = off) (small : value < 2 ^ 16) (tail : Bytes) :
    getShortLE (pack fields ++ tail) off = value := by
  subst off
  have h := packedWord (fields.take i) (show value < 256 ^ 2 from small) (fields.drop (i + 1)) tail
  rwa [← splitAtField found] at h

theorem longField {fields : List Field} (i : Nat) {value off : Nat} (found : fields[i]? = some (4, value))
    (place : widths (fields.take i) = off) (long : IsLong value) (tail : Bytes) :
    getLongLE (pack fields ++ tail) off = value := by
  subst off
  have h := packedField (fields.take i) 4 value (fields.drop (i + 1)) tail
  rw [← splitAtField found] at h
  rw [getLongLE, h]
  exact long.symm

/-! A counted field is left NULL when its count is zero, and is otherwise read whole or not at all. -/

def readCounted (len : Nat) (fp : Bytes) : Except Stop (Option Bytes × Bytes) :=
  if len = 0 then .ok (none, fp)
  else if (slice fp 0 len).length ≠ len then .error .failed
  else .ok (some (slice fp 0 len), fp.drop len)

def writeCounted (len : Nat) (field : Option Bytes) : Bytes :=
  if len = 0 then [] else (field.getD []).take len

def Counted (len : Nat) : Option Bytes → Prop
  | none => len = 0
  | some raw => len ≠ 0 ∧ raw.length = len

theorem countedExact (len : Nat) : Exact (writeCounted len) (Counted len) (readCounted len) := by
  constructor
  · intro field counted rest
    cases field with
    | none =>
      have zero : len = 0 := counted
      simp [readCounted, writeCounted, zero]
    | some raw =>
      obtain ⟨some, length⟩ := counted
      subst length
      have stored := sliceHead (rfl : raw.length = raw.length) rest
      simp only [readCounted, writeCounted, if_neg some, Option.getD_some, List.take_length, stored, ne_eq,
        not_true_eq_false, if_false, List.drop_left]
  · intro raw field rest h
    unfold readCounted at h
    split at h
    · rename_i zero
      cases h
      exact ⟨zero, by simp [writeCounted, zero]⟩
    · rename_i some
      split at h
      · cases h
      · rename_i whole
        cases h
        have length : (slice raw 0 len).length = len := Decidable.not_not.mp whole
        refine ⟨⟨some, length⟩, ?_⟩
        rw [writeCounted, if_neg some, Option.getD_some, List.take_of_length_le (by omega)]
        simp [slice]

theorem writeCountedLength {len : Nat} {field : Option Bytes} (counted : Counted len field) :
    (writeCounted len field).length = len := by
  cases field with
  | none =>
    have zero : len = 0 := counted
    simp [writeCounted, zero]
  | some raw => simp [writeCounted, counted.1, counted.2]

structure LocalFileHeader where
  mVersionToExtract : Nat
  mGPBitFlag : Nat
  mCompressionMethod : Nat
  mLastModFileTime : Nat
  mLastModFileDate : Nat
  mCRC32 : Nat
  mCompressedSize : Nat
  mUncompressedSize : Nat
  mFileNameLength : Nat
  mExtraFieldLength : Nat
  mFileName : Option Bytes
  mExtraField : Option Bytes
  deriving DecidableEq, Repr, Inhabited

namespace LocalFileHeader

def kSignature : Nat := 0x04034b50
def kLFHLen : Nat := 30

def fields (h : LocalFileHeader) : List Field :=
  [(4, kSignature), (2, h.mVersionToExtract), (2, h.mGPBitFlag), (2, h.mCompressionMethod),
    (2, h.mLastModFileTime), (2, h.mLastModFileDate), (4, h.mCRC32), (4, h.mCompressedSize),
    (4, h.mUncompressedSize), (2, h.mFileNameLength), (2, h.mExtraFieldLength)]

/- The header of the fixed part; the two counted fields are still NULL. -/
def ofBuf (buf : Bytes) : LocalFileHeader where
  mVersionToExtract := getShortLE buf 0x04
  mGPBitFlag := getShortLE buf 0x06
  mCompressionMethod := getShortLE buf 0x08
  mLastModFileTime := getShortLE buf 0x0a
  mLastModFileDate := getShortLE buf 0x0c
  mCRC32 := getLongLE buf 0x0e
  mCompressedSize := getLongLE buf 0x12
  mUncompressedSize := getLongLE buf 0x16
  mFileNameLength := getShortLE buf 0x1a
  mExtraFieldLength := getShortLE buf 0x1c
  mFileName := none
  mExtraField := none

def read (fp : Bytes) : Except Stop (LocalFileHeader × Bytes) :=
  let buf := slice fp 0 kLFHLen
  if buf.length ≠ kLFHLen then .error .failed
  else if getLongLE buf 0x00 ≠ kSignature then .error .failed
  else do
    let h := ofBuf buf
    let (mFileName, fp) ← readCounted h.mFileNameLength (fp.drop kLFHLen)
    let (mExtraField, fp) ← readCounted h.mExtraFieldLength fp
    return ({ h with mFileName, mExtraField }, fp)

def write (h : LocalFileHeader) : Bytes :=
  pack h.fields ++ (writeCounted h.mFileNameLength h.mFileName ++ writeCounted h.mExtraFieldLength h.mExtraField)

def size (h : LocalFileHeader) : Nat := kLFHLen + h.mFileNameLength + h.mExtraFieldLength

structure Ranged (h : LocalFileHeader) : Prop where
  mVersionToExtract : h.mVersionToExtract < 2 ^ 16
  mGPBitFlag : h.mGPBitFlag < 2 ^ 16
  mCompressionMethod : h.mCompressionMethod < 2 ^ 16
  mLastModFileTime : h.mLastModFileTime < 2 ^ 16
  mLastModFileDate : h.mLastModFileDate < 2 ^ 16
  mCRC32 : IsLong h.mCRC32
  mCompressedSize : IsLong h.mCompressedSize
  mUncompressedSize : IsLong h.mUncompressedSize
  mFileNameLength : h.mFileNameLength < 2 ^ 16
  mExtraFieldLength : h.mExtraFieldLength < 2 ^ 16

structure Valid (h : LocalFileHeader) : Prop where
  ranged : h.Ranged
  mFileName : Counted h.mFileNameLength h.mFileName
  mExtraField : Counted h.mExtraFieldLength h.mExtraField

theorem fieldsWithCounted (h : LocalFileHeader) (mFileName mExtraField : Option Bytes) :
    { h with mFileName, mExtraField }.fields = h.fields := rfl

theorem ofBufRanged (buf : Bytes) : (ofBuf buf).Ranged := by
  constructor <;> simp only [ofBuf]
  case mCRC32 | mCompressedSize | mUncompressedSize => exact getLongIsLong _ _
  all_goals exact getShortBound _ _

theorem Ranged.withCounted {h : LocalFileHeader} (ranged : h.Ranged) (mFileName mExtraField : Option Bytes) :
    { h with mFileName, mExtraField }.Ranged :=
  ⟨ranged.1, ranged.2, ranged.3, ranged.4, ranged.5, ranged.6, ranged.7, ranged.8, ranged.9, ranged.10⟩

theorem Ranged.withExtra {h : LocalFileHeader} (ranged : h.Ranged) (mExtraField : Option Bytes)
    {mExtraFieldLength : Nat} (small : mExtraFieldLength < 2 ^ 16) :
    { h with mExtraField, mExtraFieldLength }.Ranged :=
  ⟨ranged.1, ranged.2, ranged.3, ranged.4, ranged.5, ranged.6, ranged.7, ranged.8, ranged.9, small⟩

theorem ofBufFields {h : LocalFileHeader} (ranged : h.Ranged) (tail : Bytes) :
    ofBuf (pack h.fields ++ tail) = { h with mFileName := none, mExtraField := none } := by
  have version : getShortLE (pack h.fields ++ tail) 0x04 = h.mVersionToExtract :=
    shortField 1 rfl (by simp [fields, widths]) ranged.mVersionToExtract tail
  have flags : getShortLE (pack h.fields ++ tail) 0x06 = h.mGPBitFlag :=
    shortField 2 rfl (by simp [fields, widths]) ranged.mGPBitFlag tail
  have method : getShortLE (pack h.fields ++ tail) 0x08 = h.mCompressionMethod :=
    shortField 3 rfl (by simp [fields, widths]) ranged.mCompressionMethod tail
  have time : getShortLE (pack h.fields ++ tail) 0x0a = h.mLastModFileTime :=
    shortField 4 rfl (by simp [fields, widths]) ranged.mLastModFileTime tail
  have date : getShortLE (pack h.fields ++ tail) 0x0c = h.mLastModFileDate :=
    shortField 5 rfl (by simp [fields, widths]) ranged.mLastModFileDate tail
  have crc : getLongLE (pack h.fields ++ tail) 0x0e = h.mCRC32 :=
    longField 6 rfl (by simp [fields, widths]) ranged.mCRC32 tail
  have compressed : getLongLE (pack h.fields ++ tail) 0x12 = h.mCompressedSize :=
    longField 7 rfl (by simp [fields, widths]) ranged.mCompressedSize tail
  have uncompressed : getLongLE (pack h.fields ++ tail) 0x16 = h.mUncompressedSize :=
    longField 8 rfl (by simp [fields, widths]) ranged.mUncompressedSize tail
  have name : getShortLE (pack h.fields ++ tail) 0x1a = h.mFileNameLength :=
    shortField 9 rfl (by simp [fields, widths]) ranged.mFileNameLength tail
  have extra : getShortLE (pack h.fields ++ tail) 0x1c = h.mExtraFieldLength :=
    shortField 10 rfl (by simp [fields, widths]) ranged.mExtraFieldLength tail
  simp only [ofBuf, version, flags, method, time, date, crc, compressed, uncompressed, name, extra]

theorem fieldsOfBuf {buf : Bytes} (length : buf.length = kLFHLen) (sig : getLongLE buf 0x00 = kSignature) :
    pack (ofBuf buf).fields = buf := by
  unfold kLFHLen at length
  have parts : pack (ofBuf buf).fields = (cut buf 0 [4, 2, 2, 2, 2, 2, 4, 4, 4, 2, 2]).flatten := by
    simp only [pack, fields, ofBuf, cut, List.flatMap_cons, List.flatMap_nil, List.flatten_cons,
      List.flatten_nil, Nat.zero_add, Nat.reduceAdd]
    rw [← sig, putLongRead (by omega), putShortRead (by omega), putShortRead (by omega),
      putShortRead (by omega), putShortRead (by omega), putShortRead (by omega), putLongRead (by omega),
      putLongRead (by omega), putLongRead (by omega), putShortRead (by omega), putShortRead (by omega)]
  have whole := sliceWhole buf
  rw [length] at whole
  rw [parts, cutJoin]
  exact whole

theorem writeLength {h : LocalFileHeader} (name : Counted h.mFileNameLength h.mFileName)
    (extra : (writeCounted h.mExtraFieldLength h.mExtraField).length = h.mExtraFieldLength) :
    h.write.length = h.size := by
  rw [write, List.length_append, List.length_append, packLength, writeCountedLength name, extra]
  simp [fields, widths, size, kLFHLen]
  omega

theorem exact : Exact write Valid read := by
  constructor
  · intro h valid rest
    have length : (pack h.fields).length = kLFHLen := by simp [fields, widths, kLFHLen]
    have sig : getLongLE (pack h.fields ++ []) 0x00 = kSignature :=
      longField 0 rfl (by simp [fields, widths]) (smallIsLong (by decide)) []
    have fixed := ofBufFields valid.ranged []
    have buf := sliceHead length (writeCounted h.mFileNameLength h.mFileName ++
      (writeCounted h.mExtraFieldLength h.mExtraField ++ rest))
    rw [List.append_nil] at sig fixed
    rw [write, List.append_assoc, List.append_assoc, read]
    simp only [buf, length, ne_eq, not_true_eq_false, if_false, fixed, List.drop_left' length]
    rw [if_neg (fun bad => bad sig), exceptOk ((countedExact _).roundTrip valid.mFileName _)]
    dsimp only
    rw [exceptOk ((countedExact _).roundTrip valid.mExtraField _)]
    rfl
  · intro raw h rest read
    unfold LocalFileHeader.read at read
    dsimp only at read
    split at read
    · cases read
    split at read
    · cases read
    rename_i whole sig
    obtain ⟨⟨name, r⟩, hn, read⟩ := exceptBind read
    obtain ⟨⟨extra, r'⟩, he, read⟩ := exceptBind read
    cases read
    obtain ⟨nameCounted, hr⟩ := (countedExact _).wellFormed hn
    obtain ⟨extraCounted, rfl⟩ := (countedExact _).wellFormed he
    have length : (slice raw 0 kLFHLen).length = kLFHLen := Decidable.not_not.mp whole
    have fixed := fieldsOfBuf length (Decidable.not_not.mp sig)
    refine ⟨⟨(ofBufRanged _).withCounted _ _, nameCounted, extraCounted⟩, ?_⟩
    have split : raw = slice raw 0 kLFHLen ++ raw.drop kLFHLen := by simp [slice]
    rw [write, fieldsWithCounted, fixed, List.append_assoc, List.append_assoc, ← hr]
    exact split

end LocalFileHeader

structure CentralDirEntry where
  mVersionMadeBy : Nat
  mVersionToExtract : Nat
  mGPBitFlag : Nat
  mCompressionMethod : Nat
  mLastModFileTime : Nat
  mLastModFileDate : Nat
  mCRC32 : Nat
  mCompressedSize : Nat
  mUncompressedSize : Nat
  mFileNameLength : Nat
  mExtraFieldLength : Nat
  mFileCommentLength : Nat
  mDiskNumberStart : Nat
  mInternalAttrs : Nat
  mExternalAttrs : Nat
  mLocalHeaderRelOffset : Nat
  mFileName : Option Bytes
  mExtraField : Option Bytes
  mFileComment : Option Bytes
  deriving DecidableEq, Repr, Inhabited

namespace CentralDirEntry

def kSignature : Nat := 0x02014b50
def kCDELen : Nat := 46

def fields (c : CentralDirEntry) : List Field :=
  [(4, kSignature), (2, c.mVersionMadeBy), (2, c.mVersionToExtract), (2, c.mGPBitFlag),
    (2, c.mCompressionMethod), (2, c.mLastModFileTime), (2, c.mLastModFileDate), (4, c.mCRC32),
    (4, c.mCompressedSize), (4, c.mUncompressedSize), (2, c.mFileNameLength), (2, c.mExtraFieldLength),
    (2, c.mFileCommentLength), (2, c.mDiskNumberStart), (2, c.mInternalAttrs), (4, c.mExternalAttrs),
    (4, c.mLocalHeaderRelOffset)]

def ofBuf (buf : Bytes) : CentralDirEntry where
  mVersionMadeBy := getShortLE buf 0x04
  mVersionToExtract := getShortLE buf 0x06
  mGPBitFlag := getShortLE buf 0x08
  mCompressionMethod := getShortLE buf 0x0a
  mLastModFileTime := getShortLE buf 0x0c
  mLastModFileDate := getShortLE buf 0x0e
  mCRC32 := getLongLE buf 0x10
  mCompressedSize := getLongLE buf 0x14
  mUncompressedSize := getLongLE buf 0x18
  mFileNameLength := getShortLE buf 0x1c
  mExtraFieldLength := getShortLE buf 0x1e
  mFileCommentLength := getShortLE buf 0x20
  mDiskNumberStart := getShortLE buf 0x22
  mInternalAttrs := getShortLE buf 0x24
  mExternalAttrs := getLongLE buf 0x26
  mLocalHeaderRelOffset := getLongLE buf 0x2a
  mFileName := none
  mExtraField := none
  mFileComment := none

def read (fp : Bytes) : Except Stop (CentralDirEntry × Bytes) :=
  let buf := slice fp 0 kCDELen
  if buf.length ≠ kCDELen then .error .failed
  else if getLongLE buf 0x00 ≠ kSignature then .error .failed
  else do
    let c := ofBuf buf
    let (mFileName, fp) ← readCounted c.mFileNameLength (fp.drop kCDELen)
    let (mExtraField, fp) ← readCounted c.mExtraFieldLength fp
    let (mFileComment, fp) ← readCounted c.mFileCommentLength fp
    return ({ c with mFileName, mExtraField, mFileComment }, fp)

def write (c : CentralDirEntry) : Bytes :=
  pack c.fields ++ (writeCounted c.mFileNameLength c.mFileName ++
    (writeCounted c.mExtraFieldLength c.mExtraField ++ writeCounted c.mFileCommentLength c.mFileComment))

def size (c : CentralDirEntry) : Nat :=
  kCDELen + c.mFileNameLength + c.mExtraFieldLength + c.mFileCommentLength

structure Ranged (c : CentralDirEntry) : Prop where
  mVersionMadeBy : c.mVersionMadeBy < 2 ^ 16
  mVersionToExtract : c.mVersionToExtract < 2 ^ 16
  mGPBitFlag : c.mGPBitFlag < 2 ^ 16
  mCompressionMethod : c.mCompressionMethod < 2 ^ 16
  mLastModFileTime : c.mLastModFileTime < 2 ^ 16
  mLastModFileDate : c.mLastModFileDate < 2 ^ 16
  mCRC32 : IsLong c.mCRC32
  mCompressedSize : IsLong c.mCompressedSize
  mUncompressedSize : IsLong c.mUncompressedSize
  mFileNameLength : c.mFileNameLength < 2 ^ 16
  mExtraFieldLength : c.mExtraFieldLength < 2 ^ 16
  mFileCommentLength : c.mFileCommentLength < 2 ^ 16
  mDiskNumberStart : c.mDiskNumberStart < 2 ^ 16
  mInternalAttrs : c.mInternalAttrs < 2 ^ 16
  mExternalAttrs : IsLong c.mExternalAttrs
  mLocalHeaderRelOffset : IsLong c.mLocalHeaderRelOffset

structure Valid (c : CentralDirEntry) : Prop where
  ranged : c.Ranged
  mFileName : Counted c.mFileNameLength c.mFileName
  mExtraField : Counted c.mExtraFieldLength c.mExtraField
  mFileComment : Counted c.mFileCommentLength c.mFileComment

theorem fieldsWithCounted (c : CentralDirEntry) (mFileName mExtraField mFileComment : Option Bytes) :
    { c with mFileName, mExtraField, mFileComment }.fields = c.fields := rfl

theorem Ranged.withCounted {c : CentralDirEntry} (ranged : c.Ranged)
    (mFileName mExtraField mFileComment : Option Bytes) :
    { c with mFileName, mExtraField, mFileComment }.Ranged :=
  ⟨ranged.1, ranged.2, ranged.3, ranged.4, ranged.5, ranged.6, ranged.7, ranged.8, ranged.9, ranged.10,
    ranged.11, ranged.12, ranged.13, ranged.14, ranged.15, ranged.16⟩

theorem Valid.withOffset {c : CentralDirEntry} (valid : c.Valid) {mLocalHeaderRelOffset : Nat}
    (long : IsLong mLocalHeaderRelOffset) : { c with mLocalHeaderRelOffset }.Valid :=
  have r := valid.ranged
  ⟨⟨r.1, r.2, r.3, r.4, r.5, r.6, r.7, r.8, r.9, r.10, r.11, r.12, r.13, r.14, r.15, long⟩,
    valid.mFileName, valid.mExtraField, valid.mFileComment⟩

theorem ofBufRanged (buf : Bytes) : (ofBuf buf).Ranged := by
  constructor <;> simp only [ofBuf]
  case mCRC32 | mCompressedSize | mUncompressedSize | mExternalAttrs | mLocalHeaderRelOffset =>
    exact getLongIsLong _ _
  all_goals exact getShortBound _ _

theorem ofBufFields {c : CentralDirEntry} (ranged : c.Ranged) (tail : Bytes) :
    ofBuf (pack c.fields ++ tail) = { c with mFileName := none, mExtraField := none, mFileComment := none } := by
  have madeBy : getShortLE (pack c.fields ++ tail) 0x04 = c.mVersionMadeBy :=
    shortField 1 rfl (by simp [fields, widths]) ranged.mVersionMadeBy tail
  have version : getShortLE (pack c.fields ++ tail) 0x06 = c.mVersionToExtract :=
    shortField 2 rfl (by simp [fields, widths]) ranged.mVersionToExtract tail
  have flags : getShortLE (pack c.fields ++ tail) 0x08 = c.mGPBitFlag :=
    shortField 3 rfl (by simp [fields, widths]) ranged.mGPBitFlag tail
  have method : getShortLE (pack c.fields ++ tail) 0x0a = c.mCompressionMethod :=
    shortField 4 rfl (by simp [fields, widths]) ranged.mCompressionMethod tail
  have time : getShortLE (pack c.fields ++ tail) 0x0c = c.mLastModFileTime :=
    shortField 5 rfl (by simp [fields, widths]) ranged.mLastModFileTime tail
  have date : getShortLE (pack c.fields ++ tail) 0x0e = c.mLastModFileDate :=
    shortField 6 rfl (by simp [fields, widths]) ranged.mLastModFileDate tail
  have crc : getLongLE (pack c.fields ++ tail) 0x10 = c.mCRC32 :=
    longField 7 rfl (by simp [fields, widths]) ranged.mCRC32 tail
  have compressed : getLongLE (pack c.fields ++ tail) 0x14 = c.mCompressedSize :=
    longField 8 rfl (by simp [fields, widths]) ranged.mCompressedSize tail
  have uncompressed : getLongLE (pack c.fields ++ tail) 0x18 = c.mUncompressedSize :=
    longField 9 rfl (by simp [fields, widths]) ranged.mUncompressedSize tail
  have name : getShortLE (pack c.fields ++ tail) 0x1c = c.mFileNameLength :=
    shortField 10 rfl (by simp [fields, widths]) ranged.mFileNameLength tail
  have extra : getShortLE (pack c.fields ++ tail) 0x1e = c.mExtraFieldLength :=
    shortField 11 rfl (by simp [fields, widths]) ranged.mExtraFieldLength tail
  have comment : getShortLE (pack c.fields ++ tail) 0x20 = c.mFileCommentLength :=
    shortField 12 rfl (by simp [fields, widths]) ranged.mFileCommentLength tail
  have disk : getShortLE (pack c.fields ++ tail) 0x22 = c.mDiskNumberStart :=
    shortField 13 rfl (by simp [fields, widths]) ranged.mDiskNumberStart tail
  have internal : getShortLE (pack c.fields ++ tail) 0x24 = c.mInternalAttrs :=
    shortField 14 rfl (by simp [fields, widths]) ranged.mInternalAttrs tail
  have external : getLongLE (pack c.fields ++ tail) 0x26 = c.mExternalAttrs :=
    longField 15 rfl (by simp [fields, widths]) ranged.mExternalAttrs tail
  have offset : getLongLE (pack c.fields ++ tail) 0x2a = c.mLocalHeaderRelOffset :=
    longField 16 rfl (by simp [fields, widths]) ranged.mLocalHeaderRelOffset tail
  simp only [ofBuf, madeBy, version, flags, method, time, date, crc, compressed, uncompressed, name, extra,
    comment, disk, internal, external, offset]

theorem fieldsOfBuf {buf : Bytes} (length : buf.length = kCDELen) (sig : getLongLE buf 0x00 = kSignature) :
    pack (ofBuf buf).fields = buf := by
  unfold kCDELen at length
  have parts : pack (ofBuf buf).fields =
      (cut buf 0 [4, 2, 2, 2, 2, 2, 2, 4, 4, 4, 2, 2, 2, 2, 2, 4, 4]).flatten := by
    simp only [pack, fields, ofBuf, cut, List.flatMap_cons, List.flatMap_nil, List.flatten_cons,
      List.flatten_nil, Nat.zero_add, Nat.reduceAdd]
    rw [← sig, putLongRead (by omega), putShortRead (by omega), putShortRead (by omega),
      putShortRead (by omega), putShortRead (by omega), putShortRead (by omega), putShortRead (by omega),
      putLongRead (by omega), putLongRead (by omega), putLongRead (by omega), putShortRead (by omega),
      putShortRead (by omega), putShortRead (by omega), putShortRead (by omega), putShortRead (by omega),
      putLongRead (by omega), putLongRead (by omega)]
  have whole := sliceWhole buf
  rw [length] at whole
  rw [parts, cutJoin]
  exact whole

theorem writeLength {c : CentralDirEntry} (valid : c.Valid) : c.write.length = c.size := by
  rw [write, List.length_append, List.length_append, List.length_append, packLength,
    writeCountedLength valid.mFileName, writeCountedLength valid.mExtraField,
    writeCountedLength valid.mFileComment]
  simp [fields, widths, size, kCDELen]
  omega

theorem exact : Exact write Valid read := by
  constructor
  · intro c valid rest
    have length : (pack c.fields).length = kCDELen := by simp [fields, widths, kCDELen]
    have sig : getLongLE (pack c.fields ++ []) 0x00 = kSignature :=
      longField 0 rfl (by simp [fields, widths]) (smallIsLong (by decide)) []
    have fixed := ofBufFields valid.ranged []
    have buf := sliceHead length (writeCounted c.mFileNameLength c.mFileName ++
      (writeCounted c.mExtraFieldLength c.mExtraField ++
        (writeCounted c.mFileCommentLength c.mFileComment ++ rest)))
    rw [List.append_nil] at sig fixed
    rw [write, List.append_assoc, List.append_assoc, List.append_assoc, read]
    simp only [buf, length, ne_eq, not_true_eq_false, if_false, fixed, List.drop_left' length]
    rw [if_neg (fun bad => bad sig), exceptOk ((countedExact _).roundTrip valid.mFileName _)]
    dsimp only
    rw [exceptOk ((countedExact _).roundTrip valid.mExtraField _)]
    dsimp only
    rw [exceptOk ((countedExact _).roundTrip valid.mFileComment _)]
    rfl
  · intro raw c rest read
    unfold CentralDirEntry.read at read
    dsimp only at read
    split at read
    · cases read
    split at read
    · cases read
    rename_i whole sig
    obtain ⟨⟨name, r⟩, hn, read⟩ := exceptBind read
    obtain ⟨⟨extra, r'⟩, he, read⟩ := exceptBind read
    obtain ⟨⟨comment, r''⟩, hc, read⟩ := exceptBind read
    cases read
    obtain ⟨nameCounted, hr⟩ := (countedExact _).wellFormed hn
    obtain ⟨extraCounted, hr'⟩ := (countedExact _).wellFormed he
    obtain ⟨commentCounted, hr''⟩ := (countedExact _).wellFormed hc
    have length : (slice raw 0 kCDELen).length = kCDELen := Decidable.not_not.mp whole
    have fixed := fieldsOfBuf length (Decidable.not_not.mp sig)
    refine ⟨⟨(ofBufRanged _).withCounted _ _ _, nameCounted, extraCounted, commentCounted⟩, ?_⟩
    have split : raw = slice raw 0 kCDELen ++ raw.drop kCDELen := by simp [slice]
    rw [write, fieldsWithCounted, fixed, List.append_assoc, List.append_assoc, List.append_assoc,
      ← hr'', ← hr', ← hr]
    exact split

end CentralDirEntry

/- A `const char*` field of len bytes: NULL when there is none, else what stands before its first NUL. -/
def cString (field : Option Bytes) : Except Stop Bytes :=
  match field with
  | none => .error .faulted
  | some raw => .ok (raw.takeWhile (· != 0))

/- mUserData1 is an index of all_files_ and counts like one. -/
structure ZipEntry where
  mUserData1 : Nat
  mUserData2 : Int
  mLFH : LocalFileHeader
  mCDE : CentralDirEntry
  deriving DecidableEq, Repr, Inhabited

namespace ZipEntry
open LocalFileHeader (kLFHLen)

def kCompressStored : Nat := 0
def kUsesDataDescr : Nat := 0x0008

def isCompressed (e : ZipEntry) : Bool := e.mCDE.mCompressionMethod != kCompressStored
def hasDD (e : ZipEntry) : Bool := e.mLFH.mGPBitFlag &&& kUsesDataDescr != 0

/- The sums are unsigned long; off_t takes them back as signed. -/
def getFileOffset (e : ZipEntry) : Int :=
  i64 ((e.mCDE.mLocalHeaderRelOffset + kLFHLen + e.mLFH.mFileNameLength + e.mLFH.mExtraFieldLength : Nat) : Int)
def getEntryBegin (e : ZipEntry) : Int := i64 e.mCDE.mLocalHeaderRelOffset
def getEntryEnd (e : ZipEntry) : Int :=
  i64 (e.getFileOffset + e.mCDE.mCompressedSize + if e.hasDD then 16 else 0)

def getFileName (e : ZipEntry) : Except Stop Bytes := cString e.mCDE.mFileName

def setLFHOffset (e : ZipEntry) (offset : Int) : ZipEntry :=
  { e with mCDE := { e.mCDE with mLocalHeaderRelOffset := u64 offset } }

/- fseek takes the unsigned long offset as a long, and refuses a negative one. -/
def seekSet (raw : Bytes) (offset : Nat) : Except Stop Bytes :=
  if i64 offset < 0 then .error .failed else .ok (raw.drop offset)

/- The stream comes back to where the CDE ended. A mismatch of the two headers is only logged. -/
def initFromCDE (raw fp : Bytes) : Except Stop (ZipEntry × Bytes) := do
  let (mCDE, fp) ← CentralDirEntry.read fp
  let header ← seekSet raw mCDE.mLocalHeaderRelOffset
  let (mLFH, _) ← LocalFileHeader.read header
  return (⟨0, 0, mLFH, mCDE⟩, fp)

/- The extra array may be longer than the 16-bit count that says how much of it is written. -/
def addPadding (e : ZipEntry) (padding : Nat) : Except Stop ZipEntry :=
  let len := e.mLFH.mExtraFieldLength
  if padding = 0 then .error .failed
  else if 0 < len then
    let mExtraField := some ((e.mLFH.mExtraField.getD []).take len ++ List.replicate padding 0)
    .ok { e with mLFH := { e.mLFH with mExtraField, mExtraFieldLength := u16 (len + padding : Nat) } }
  else
    .ok { e with mLFH := { e.mLFH with
      mExtraField := some (List.replicate padding 0), mExtraFieldLength := u16 padding } }

structure FoundIn (raw : Bytes) (e : ZipEntry) : Prop where
  mCDE : e.mCDE.Valid
  mLFH : e.mLFH.Valid
  offset : 0 ≤ i64 e.mCDE.mLocalHeaderRelOffset
  header : ∃ rest, raw.drop e.mCDE.mLocalHeaderRelOffset = e.mLFH.write ++ rest

theorem initFromCdeSource {raw fp : Bytes} {e : ZipEntry} {rest : Bytes} (h : initFromCDE raw fp = .ok (e, rest)) :
    e.FoundIn raw ∧ e.mUserData1 = 0 ∧ e.mUserData2 = 0 ∧ fp = e.mCDE.write ++ rest := by
  obtain ⟨⟨c, fp'⟩, hc, h⟩ := exceptBind h
  obtain ⟨header, hs, h⟩ := exceptBind h
  obtain ⟨⟨l, behind⟩, hl, h⟩ := exceptBind h
  cases h
  obtain ⟨validC, rfl⟩ := CentralDirEntry.exact.wellFormed hc
  obtain ⟨validL, split⟩ := LocalFileHeader.exact.wellFormed hl
  by_cases negative : i64 c.mLocalHeaderRelOffset < 0
  · simp only [seekSet, if_pos negative] at hs
    cases hs
  · simp only [seekSet, if_neg negative] at hs
    cases hs
    exact ⟨⟨validC, validL, Int.not_lt.mp negative, behind, split⟩, rfl, rfl, rfl⟩

theorem initFromCdeRead {raw : Bytes} {c : CentralDirEntry} {l : LocalFileHeader} (validC : c.Valid) (validL : l.Valid)
    (offset : 0 ≤ i64 c.mLocalHeaderRelOffset) {behind : Bytes}
    (header : raw.drop c.mLocalHeaderRelOffset = l.write ++ behind) (rest : Bytes) :
    initFromCDE raw (c.write ++ rest) = .ok (⟨0, 0, l, c⟩, rest) := by
  have sought : seekSet raw c.mLocalHeaderRelOffset = .ok (l.write ++ behind) := by
    rw [seekSet, if_neg (by omega), header]
  rw [initFromCDE, exceptOk (CentralDirEntry.exact.roundTrip validC rest)]
  dsimp only
  rw [exceptOk sought, exceptOk (LocalFileHeader.exact.roundTrip validL behind)]
  rfl

end ZipEntry

end Bootstrap.Zip
