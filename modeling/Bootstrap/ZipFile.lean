import Bootstrap.ZipEntry

/-! The end-of-central-directory record, decoded from a buffer and written to a FILE. -/
namespace Bootstrap.Zip
open CInt ByteLayout

structure EndOfCentralDir where
  mDiskNumber : Nat
  mDiskWithCentralDir : Nat
  mNumEntries : Nat
  mTotalNumEntries : Nat
  mCentralDirSize : Nat
  mCentralDirOffset : Nat
  mCommentLen : Nat
  mComment : Option Bytes
  deriving DecidableEq, Repr, Inhabited

namespace EndOfCentralDir

def kSignature : Nat := 0x06054b50
def kEOCDLen : Nat := 22
def kMaxCommentLen : Nat := 65535
def kMaxEOCDSearch : Nat := kMaxCommentLen + kEOCDLen

def fields (e : EndOfCentralDir) : List Field :=
  [(4, kSignature), (2, e.mDiskNumber), (2, e.mDiskWithCentralDir), (2, e.mNumEntries), (2, e.mTotalNumEntries),
    (4, e.mCentralDirSize), (4, e.mCentralDirOffset), (2, e.mCommentLen)]

def ofBuf (buf : Bytes) : EndOfCentralDir where
  mDiskNumber := getShortLE buf 0x04
  mDiskWithCentralDir := getShortLE buf 0x06
  mNumEntries := getShortLE buf 0x08
  mTotalNumEntries := getShortLE buf 0x0a
  mCentralDirSize := getLongLE buf 0x0c
  mCentralDirOffset := getLongLE buf 0x10
  mCommentLen := getShortLE buf 0x14
  mComment := none

def readBuf (buf : Bytes) : Except Stop EndOfCentralDir :=
  if buf.length < kEOCDLen then .error .failed
  else if getLongLE buf 0x00 ≠ kSignature then .error .failed
  else
    let e := ofBuf buf
    if e.mCommentLen = 0 then .ok e
    else if buf.length < kEOCDLen + e.mCommentLen then .error .failed
    else .ok { e with mComment := some (slice buf kEOCDLen e.mCommentLen) }

/- fwrite(mComment, mCommentLen, 1, fp) stores the whole comment. -/
def write (e : EndOfCentralDir) : Bytes := pack e.fields ++ writeCounted e.mCommentLen e.mComment

structure Ranged (e : EndOfCentralDir) : Prop where
  mDiskNumber : e.mDiskNumber < 2 ^ 16
  mDiskWithCentralDir : e.mDiskWithCentralDir < 2 ^ 16
  mNumEntries : e.mNumEntries < 2 ^ 16
  mTotalNumEntries : e.mTotalNumEntries < 2 ^ 16
  mCentralDirSize : IsLong e.mCentralDirSize
  mCentralDirOffset : IsLong e.mCentralDirOffset
  mCommentLen : e.mCommentLen < 2 ^ 16

theorem ofBufFields {e : EndOfCentralDir} (ranged : e.Ranged) (tail : Bytes) :
    ofBuf (pack e.fields ++ tail) = { e with mComment := none } := by
  have disk : getShortLE (pack e.fields ++ tail) 0x04 = e.mDiskNumber :=
    shortField 1 rfl (by simp [fields, widths]) ranged.mDiskNumber tail
  have diskWith : getShortLE (pack e.fields ++ tail) 0x06 = e.mDiskWithCentralDir :=
    shortField 2 rfl (by simp [fields, widths]) ranged.mDiskWithCentralDir tail
  have num : getShortLE (pack e.fields ++ tail) 0x08 = e.mNumEntries :=
    shortField 3 rfl (by simp [fields, widths]) ranged.mNumEntries tail
  have total : getShortLE (pack e.fields ++ tail) 0x0a = e.mTotalNumEntries :=
    shortField 4 rfl (by simp [fields, widths]) ranged.mTotalNumEntries tail
  have size : getLongLE (pack e.fields ++ tail) 0x0c = e.mCentralDirSize :=
    longField 5 rfl (by simp [fields, widths]) ranged.mCentralDirSize tail
  have offset : getLongLE (pack e.fields ++ tail) 0x10 = e.mCentralDirOffset :=
    longField 6 rfl (by simp [fields, widths]) ranged.mCentralDirOffset tail
  have comment : getShortLE (pack e.fields ++ tail) 0x14 = e.mCommentLen :=
    shortField 7 rfl (by simp [fields, widths]) ranged.mCommentLen tail
  simp only [ofBuf, disk, diskWith, num, total, size, offset, comment]

theorem readBufWritten {e : EndOfCentralDir} (ranged : e.Ranged) (bare : e.mCommentLen = 0)
    (none : e.mComment = none) : readBuf e.write = .ok e := by
  have length : (pack e.fields).length = kEOCDLen := by simp [fields, widths, kEOCDLen]
  have sig : getLongLE (pack e.fields ++ []) 0x00 = kSignature :=
    longField 0 rfl (by simp [fields, widths]) (smallIsLong (by decide)) []
  have fixed := ofBufFields ranged []
  have written : e.write = pack e.fields ++ [] := by rw [write, writeCounted, if_pos bare]
  have same : { e with mComment := Option.none } = e := by rw [← none]
  rw [written, readBuf, if_neg (by simp [length]), if_neg (fun bad => bad sig)]
  simp only [fixed, if_pos bare, same]

theorem writeLength {e : EndOfCentralDir} (bare : e.mCommentLen = 0) : e.write.length = kEOCDLen := by
  rw [write, writeCounted, if_pos bare, List.append_nil, packLength]
  simp [fields, widths, kEOCDLen]

end EndOfCentralDir

end Bootstrap.Zip
