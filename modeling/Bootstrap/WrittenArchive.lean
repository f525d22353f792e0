import Bootstrap.ShadowZipInit
import Mathlib.Tactic.IntervalCases

/-! An archive in the form in which init writes one: some bytes, the central directory and a
bare end record. parse_apk reads its entries back unless the scan is misled by the end record. -/
namespace Bootstrap.ShadowZip
open CInt ByteLayout Zip ParseApk

def centralDir (es : List ZipEntry) : Bytes := es.flatMap (fun e => e.mCDE.write)

def endRecord (es : List ZipEntry) (offset : Nat) : Bytes :=
  (endOfCentralDir es.length (centralDir es).length offset).write

def writtenArchive (front : Bytes) (es : List ZipEntry) : Bytes :=
  front ++ (centralDir es ++ endRecord es front.length)

def Misleads (record : Bytes) : Prop := ∃ j, 0 < j ∧ j < 19 ∧ SignatureAt record j

theorem readEntriesWritten {raw : Bytes} {es : List ZipEntry} (files : ∀ e ∈ es, FileEntry raw e) (rest : Bytes) :
    readEntries raw es.length (centralDir es ++ rest) = .ok (es, rest) := by
  induction es with
  | nil => rfl
  | cons e es ih =>
    have own := files e List.mem_cons_self
    have tail := ih (fun d mem => files d (List.mem_cons_of_mem _ mem))
    obtain ⟨behind, header⟩ := own.found.header
    obtain ⟨filename, named, isFile⟩ := own.name
    have head := ZipEntry.initFromCdeRead own.found.mCDE own.found.mLFH own.found.offset header (centralDir es ++ rest)
    have same : (⟨0, 0, e.mLFH, e.mCDE⟩ : ZipEntry) = e := by
      obtain ⟨one, two⟩ := own.fresh
      rw [← one, ← two]
    rw [same] at head
    have split : centralDir (e :: es) ++ rest = e.mCDE.write ++ (centralDir es ++ rest) := by
      simp [centralDir]
    rw [List.length_cons, readEntries, split, exceptOk head]
    dsimp only
    rw [exceptOk named, exceptOk tail]
    simp only [isFile]
    rfl

theorem signatureRight (front tail : Bytes) (j : Nat) : SignatureAt (front ++ tail) (front.length + j) ↔ SignatureAt tail j := by
  have byte : (front ++ tail).getD (front.length + j) 0 = tail.getD j 0 := by
    rw [List.getD_eq_getElem?_getD, List.getElem?_append_right (by omega), Nat.add_sub_cancel_left,
      List.getD_eq_getElem?_getD]
  rw [SignatureAt, SignatureAt, byte, getLongLE, getLongLE, sliceRight]

section
variable {es : List ZipEntry} {front : Bytes} (count : es.length < 2 ^ 16) (size : (centralDir es).length < 2 ^ 31)
  (place : front.length < 2 ^ 31)

theorem endRecordLength (es : List ZipEntry) (offset : Nat) : (endRecord es offset).length = 22 :=
  EndOfCentralDir.writeLength rfl

include size place in
omit count in
theorem endRecordRead : EndOfCentralDir.readBuf (endRecord es front.length) =
    .ok (endOfCentralDir es.length (centralDir es).length front.length) := by
  refine EndOfCentralDir.readBufWritten ?_ rfl rfl
  constructor <;> simp only [endOfCentralDir]
  case mNumEntries | mTotalNumEntries => exact u16Bound _
  case mCentralDirSize => exact smallIsLong size
  case mCentralDirOffset => exact smallIsLong place
  all_goals decide

theorem endRecordSignature (es : List ZipEntry) (offset : Nat) : SignatureAt (endRecord es offset) 0 := by
  have sig : getLongLE (pack (endOfCentralDir es.length (centralDir es).length offset).fields ++ []) 0 =
      EndOfCentralDir.kSignature :=
    longField 0 rfl (by simp [EndOfCentralDir.fields, widths]) (smallIsLong (by decide)) []
  have bare : (endOfCentralDir es.length (centralDir es).length offset).mCommentLen = 0 := rfl
  refine ⟨rfl, ?_⟩
  rw [endRecord, EndOfCentralDir.write, writeCounted, if_pos bare]
  exact sig

theorem searched (record front : Bytes) (length : record.length = 22) :
    ∃ tail, slice (front ++ record) ((front ++ record).length - min (front ++ record).length EndOfCentralDir.kMaxEOCDSearch)
        (min (front ++ record).length EndOfCentralDir.kMaxEOCDSearch) = tail ++ record ∧
      min (front ++ record).length EndOfCentralDir.kMaxEOCDSearch - 3 = tail.length + 19 := by
  have total : (front ++ record).length = front.length + 22 := by rw [List.length_append, length]
  have large : EndOfCentralDir.kMaxEOCDSearch = 65557 := rfl
  have start : (front ++ record).length - min (front ++ record).length EndOfCentralDir.kMaxEOCDSearch ≤ front.length := by
    omega
  refine ⟨front.drop ((front ++ record).length - min (front ++ record).length EndOfCentralDir.kMaxEOCDSearch), ?_, ?_⟩
  · rw [slice, List.drop_append_of_le_length start, List.take_of_length_le]
    rw [List.length_append, List.length_drop, length]
    omega
  · rw [List.length_drop]
    omega

theorem parseMisled (misled : Misleads (endRecord es front.length)) :
    parseApk (some (writtenArchive front es)) = .error .failed := by
  obtain ⟨j, positive, inside, signature⟩ := misled
  have length := endRecordLength es front.length
  obtain ⟨tail, buf, amount⟩ := searched (endRecord es front.length) (front ++ centralDir es) length
  rw [writtenArchive, ← List.append_assoc, parseApk]
  have enough : ¬ (front ++ centralDir es ++ endRecord es front.length).length < EndOfCentralDir.kEOCDLen := by
    rw [List.length_append, length, EndOfCentralDir.kEOCDLen]
    omega
  obtain ⟨i, low, high, found⟩ := searchAtLeast ((signatureRight tail _ j).mpr signature)
    (n := tail.length + 19) (by omega)
  rw [if_neg enough]
  simp only [buf, amount, found]
  have short : ((tail ++ endRecord es front.length).drop i).length < EndOfCentralDir.kEOCDLen := by
    rw [List.length_drop, List.length_append, length, EndOfCentralDir.kEOCDLen]
    omega
  rw [EndOfCentralDir.readBuf, if_pos short]
  rfl

include count size place in
theorem parseWritten (files : ∀ e ∈ es, FileEntry (writtenArchive front es) e)
    (clear : ¬ Misleads (endRecord es front.length)) : parseApk (some (writtenArchive front es)) = .ok es := by
  have length := endRecordLength es front.length
  have read := endRecordRead size place
  obtain ⟨tail, buf, amount⟩ := searched (endRecord es front.length) (front ++ centralDir es) length
  have enough : ¬ (front ++ centralDir es ++ endRecord es front.length).length < EndOfCentralDir.kEOCDLen := by
    rw [List.length_append, length, EndOfCentralDir.kEOCDLen]
    omega
  have found : searchEOCD (tail ++ endRecord es front.length) (tail.length + 19) = some tail.length := by
    refine searchLast ((signatureRight tail _ 0).mpr (endRecordSignature es front.length)) (by omega) ?_
    intro i low high signature
    refine clear ⟨i - tail.length, by omega, by omega, (signatureRight tail _ _).mp ?_⟩
    rwa [Nat.add_sub_cancel' (by omega)]
  have whole : writtenArchive front es = front ++ centralDir es ++ endRecord es front.length :=
    (List.append_assoc _ _ _).symm
  have sought : ZipEntry.seekSet (writtenArchive front es) front.length =
      .ok (centralDir es ++ endRecord es front.length) := by
    have offset : ¬ i64 (front.length : Int) < 0 := by
      rw [i64Exact (by omega) (by omega)]
      omega
    rw [ZipEntry.seekSet, if_neg offset, writtenArchive, List.drop_left]
  have entries := readEntriesWritten files (endRecord es front.length)
  have number : u16 (es.length : Int) = es.length := u16Exact count
  have checked : (slice (endRecord es front.length) 0 4).length = 4 := sliceLength (by omega)
  have signature : getLongLE (slice (endRecord es front.length) 0 4) 0 = EndOfCentralDir.kSignature := by
    rw [getLongLE, sliceOfSlice _ (by omega)]
    exact (endRecordSignature es front.length).2
  rw [parseApk, whole, if_neg enough]
  simp only [buf, amount, found, List.drop_left]
  rw [exceptOk read, ← whole, readCentralDir, if_neg (by simp [endOfCentralDir])]
  simp only [endOfCentralDir, number]
  rw [exceptOk sought, exceptOk entries]
  simp only [checked, signature, ne_eq, not_true_eq_false, if_false]

end

/-! When the end record misleads the scan: its count, size and offset spell the signature. -/

def EndClash (n size offset : Nat) : Prop :=
  (n = 0x4b50 ∧ size % 2 ^ 16 = 0x0605) ∨ (n / 2 ^ 8 = 0x50 ∧ size % 2 ^ 24 = 0x06054b) ∨ size = 0x06054b50 ∨
    (size / 2 ^ 8 = 0x054b50 ∧ offset % 2 ^ 8 = 0x06) ∨ (size / 2 ^ 16 = 0x4b50 ∧ offset % 2 ^ 16 = 0x0605) ∨
    (size / 2 ^ 24 = 0x50 ∧ offset % 2 ^ 24 = 0x06054b) ∨ offset = 0x06054b50
instance (n size offset) : Decidable (EndClash n size offset) := by unfold EndClash; infer_instance

theorem signatureWord {word : Nat} (small : word < 2 ^ 32) :
    longOfWord word = EndOfCentralDir.kSignature ↔ word = 0x06054b50 := by
  unfold longOfWord u64 i32 EndOfCentralDir.kSignature
  omega

theorem signatureBytes {buf : Bytes} {j : Nat} (inside : j + 4 ≤ buf.length) :
    SignatureAt buf j ↔ slice buf j 4 = [0x50, 0x4b, 0x05, 0x06] := by
  have length : (slice buf j 4).length = 4 := sliceLength inside
  have bound := readLeBound (slice buf j 4)
  rw [length] at bound
  have word := signatureWord bound
  constructor
  · rintro ⟨_, long⟩
    have value := word.mp long
    have bytes := leDecoded (slice buf j 4)
    rw [length, value] at bytes
    rw [← bytes]
    rfl
  · intro bytes
    refine ⟨?_, word.mpr (by rw [bytes]; rfl)⟩
    have head := congrArg (fun b => b.getD 0 0) bytes
    simpa [slice, List.getD_eq_getElem?_getD] using head

theorem endRecordBytes (n size offset : Nat) : (endOfCentralDir n size offset).write =
    [0x50, 0x4b, 0x05, 0x06, 0, 0, 0, 0, .ofNat (u16 n), .ofNat (u16 n / 256), .ofNat (u16 n), .ofNat (u16 n / 256),
      .ofNat size, .ofNat (size / 256), .ofNat (size / 256 / 256), .ofNat (size / 256 / 256 / 256), .ofNat offset,
      .ofNat (offset / 256), .ofNat (offset / 256 / 256), .ofNat (offset / 256 / 256 / 256), 0, 0] := by
  simp [EndOfCentralDir.write, EndOfCentralDir.fields, EndOfCentralDir.kSignature, endOfCentralDir, pack, le,
    writeCounted]

theorem windows (n₀ n₁ s₀ s₁ s₂ s₃ o₀ o₁ o₂ o₃ : UInt8) :
    (∃ j, 0 < j ∧ j < 19 ∧ slice [0x50, 0x4b, 0x05, 0x06, 0, 0, 0, 0, n₀, n₁, n₀, n₁, s₀, s₁, s₂, s₃, o₀, o₁, o₂, o₃,
      0, 0] j 4 = [0x50, 0x4b, 0x05, 0x06]) ↔
    (n₀ = 0x50 ∧ n₁ = 0x4b ∧ s₀ = 0x05 ∧ s₁ = 0x06) ∨ (n₁ = 0x50 ∧ s₀ = 0x4b ∧ s₁ = 0x05 ∧ s₂ = 0x06) ∨
      (s₀ = 0x50 ∧ s₁ = 0x4b ∧ s₂ = 0x05 ∧ s₃ = 0x06) ∨ (s₁ = 0x50 ∧ s₂ = 0x4b ∧ s₃ = 0x05 ∧ o₀ = 0x06) ∨
      (s₂ = 0x50 ∧ s₃ = 0x4b ∧ o₀ = 0x05 ∧ o₁ = 0x06) ∨ (s₃ = 0x50 ∧ o₀ = 0x4b ∧ o₁ = 0x05 ∧ o₂ = 0x06) ∨
      (o₀ = 0x50 ∧ o₁ = 0x4b ∧ o₂ = 0x05 ∧ o₃ = 0x06) := by
  constructor
  · rintro ⟨j, positive, inside, bytes⟩
    interval_cases j <;>
      simp only [slice, List.drop_succ_cons, List.drop_zero, List.take_succ_cons, List.take_zero, List.cons.injEq,
        and_true] at bytes
    case «8» | «9» =>
      obtain ⟨rfl, rfl, bad, _⟩ := bytes
      simp at bad
    case «10» | «11» | «12» | «13» | «14» | «15» | «16» => simp [bytes]
    all_goals simp at bytes
  · rintro (⟨rfl, rfl, rfl, rfl⟩ | ⟨rfl, rfl, rfl, rfl⟩ | ⟨rfl, rfl, rfl, rfl⟩ | ⟨rfl, rfl, rfl, rfl⟩ |
      ⟨rfl, rfl, rfl, rfl⟩ | ⟨rfl, rfl, rfl, rfl⟩ | ⟨rfl, rfl, rfl, rfl⟩)
    · exact ⟨10, by decide, by decide, rfl⟩
    · exact ⟨11, by decide, by decide, rfl⟩
    · exact ⟨12, by decide, by decide, rfl⟩
    · exact ⟨13, by decide, by decide, rfl⟩
    · exact ⟨14, by decide, by decide, rfl⟩
    · exact ⟨15, by decide, by decide, rfl⟩
    · exact ⟨16, by decide, by decide, rfl⟩

theorem misleadsExactly {n size offset : Nat} (count : n < 2 ^ 16) (small : size < 2 ^ 31) (low : offset < 2 ^ 31) :
    Misleads (endOfCentralDir n size offset).write ↔ EndClash n size offset := by
  have number : u16 (n : Int) = n := u16Exact count
  have length : (endOfCentralDir n size offset).write.length = 22 := EndOfCentralDir.writeLength rfl
  have spelled : Misleads (endOfCentralDir n size offset).write ↔
      ∃ j, 0 < j ∧ j < 19 ∧ slice (endOfCentralDir n size offset).write j 4 = [0x50, 0x4b, 0x05, 0x06] := by
    refine exists_congr fun j => and_congr_right fun _ => and_congr_right fun low => signatureBytes (by omega)
  rw [spelled, endRecordBytes, windows, number]
  simp only [UInt8.ofNat_eq_iff_mod_eq_toNat]
  unfold EndClash
  simp only [UInt8.reduceToNat]
  refine or_congr (by omega) (or_congr (by omega) (or_congr (by omega) (or_congr (by omega) (or_congr (by omega)
    (or_congr (by omega) (by omega))))))

end Bootstrap.ShadowZip
