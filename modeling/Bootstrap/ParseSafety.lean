import Bootstrap.StoredArchive

/-! parse_apk over arbitrary bytes: with every access of the search buffer checked against what
was read, which inputs it survives, and which records it delivers. -/
namespace Bootstrap.ParseApk
open CInt ByteLayout Zip

def byteAt (buf : Bytes) (i : Nat) : Except Stop UInt8 :=
  match buf[i]? with
  | some ch => .ok ch
  | none => .error .faulted

def bytesAt (buf : Bytes) : Nat → Nat → Except Stop Bytes
  | _, 0 => .ok []
  | i, n+1 => do
    let ch ← byteAt buf i
    let rest ← bytesAt buf (i + 1) n
    return ch :: rest

def shortLE (buf : Bytes) (i : Nat) : Except Stop Nat := do
  let bytes ← bytesAt buf i 2
  return readLE bytes

def longLE (buf : Bytes) (i : Nat) : Except Stop Nat := do
  let bytes ← bytesAt buf i 4
  return longOfWord (readLE bytes)

def searchChecked (buf : Bytes) : Nat → Except Stop (Option Nat)
  | 0 => .ok none
  | i+1 => do
    let ch ← byteAt buf i
    if ch ≠ 0x50 then searchChecked buf i
    else do
      let word ← longLE buf i
      if word ≠ EndOfCentralDir.kSignature then searchChecked buf i else return some i

def readBufChecked (buf : Bytes) (i len : Nat) : Except Stop EndOfCentralDir :=
  if len < EndOfCentralDir.kEOCDLen then .error .failed
  else do
    let signature ← longLE buf (i + 0x00)
    if signature ≠ EndOfCentralDir.kSignature then .error .failed
    else do
      let mDiskNumber ← shortLE buf (i + 0x04)
      let mDiskWithCentralDir ← shortLE buf (i + 0x06)
      let mNumEntries ← shortLE buf (i + 0x08)
      let mTotalNumEntries ← shortLE buf (i + 0x0a)
      let mCentralDirSize ← longLE buf (i + 0x0c)
      let mCentralDirOffset ← longLE buf (i + 0x10)
      let mCommentLen ← shortLE buf (i + 0x14)
      let e : EndOfCentralDir := ⟨mDiskNumber, mDiskWithCentralDir, mNumEntries, mTotalNumEntries, mCentralDirSize,
        mCentralDirOffset, mCommentLen, none⟩
      if mCommentLen = 0 then .ok e
      else if len < EndOfCentralDir.kEOCDLen + mCommentLen then .error .failed
      else do
        let comment ← bytesAt buf (i + EndOfCentralDir.kEOCDLen) mCommentLen
        return { e with mComment := some comment }

def readAmount (raw : Bytes) : Nat := min raw.length EndOfCentralDir.kMaxEOCDSearch

def lastBytes (raw : Bytes) : Bytes := slice raw (raw.length - readAmount raw) (readAmount raw)

def parseChecked (raw : Bytes) : Except Stop (List ZipEntry) :=
  if raw.length < EndOfCentralDir.kEOCDLen then .error .failed
  else do
    let found ← searchChecked (lastBytes raw) (readAmount raw - 3)
    match found with
    | none => .error .failed
    | some i => do
      let endOfCentralDir ← readBufChecked (lastBytes raw) i (readAmount raw - i)
      readCentralDir raw endOfCentralDir

theorem byteAtOk {buf : Bytes} {i : Nat} (inside : i < buf.length) : byteAt buf i = .ok (buf.getD i 0) := by
  rw [byteAt, List.getD_eq_getElem?_getD, List.getElem?_eq_getElem inside]
  rfl

theorem bytesAtOk {buf : Bytes} {i n : Nat} (inside : i + n ≤ buf.length) : bytesAt buf i n = .ok (slice buf i n) := by
  induction n generalizing i with
  | zero => rw [sliceEmpty]; rfl
  | succ n ih =>
    have here : i < buf.length := by omega
    have head : slice buf i (n + 1) = buf.getD i 0 :: slice buf (i + 1) n := by
      rw [slice, List.drop_eq_getElem_cons here, List.take_succ_cons, List.getD_eq_getElem?_getD,
        List.getElem?_eq_getElem here]
      rfl
    rw [bytesAt, exceptOk (byteAtOk here), exceptOk (ih (by omega)), head]
    rfl

theorem shortOk {buf : Bytes} {i : Nat} (inside : i + 2 ≤ buf.length) : shortLE buf i = .ok (getShortLE buf i) := by
  rw [shortLE, exceptOk (bytesAtOk inside)]
  rfl

theorem longOk {buf : Bytes} {i : Nat} (inside : i + 4 ≤ buf.length) : longLE buf i = .ok (getLongLE buf i) := by
  rw [longLE, exceptOk (bytesAtOk inside)]
  rfl

theorem searchCheckedOk {buf : Bytes} {n : Nat} (inside : n + 3 ≤ buf.length) :
    searchChecked buf n = .ok (searchEOCD buf n) := by
  induction n with
  | zero => rfl
  | succ i ih =>
    have before := ih (by omega)
    rw [searchChecked, exceptOk (byteAtOk (by omega))]
    by_cases first : buf.getD i 0 = 0x50
    · rw [if_neg (fun other => other first), exceptOk (longOk (by omega))]
      by_cases word : getLongLE buf i = EndOfCentralDir.kSignature
      · rw [if_neg (fun other => other word), searchEOCD, if_pos ⟨first, word⟩]
        rfl
      · rw [if_pos word, before, searchEOCD, if_neg (fun found => word found.2)]
    · rw [if_pos first, before, searchEOCD, if_neg (fun found => first found.1)]

theorem sliceDrop (buf : Bytes) (i off n : Nat) : slice (buf.drop i) off n = slice buf (i + off) n := by
  rw [slice, slice, List.drop_drop]

theorem readBufCheckedOk {buf : Bytes} {i len : Nat} (whole : i + len = buf.length) :
    readBufChecked buf i len = EndOfCentralDir.readBuf (buf.drop i) := by
  have length : (buf.drop i).length = len := by
    rw [List.length_drop]
    omega
  have short : ∀ off, off + 2 ≤ len → shortLE buf (i + off) = .ok (getShortLE (buf.drop i) off) := fun off inside => by
    rw [shortOk (by omega), getShortLE, getShortLE, sliceDrop]
  have long : ∀ off, off + 4 ≤ len → longLE buf (i + off) = .ok (getLongLE (buf.drop i) off) := fun off inside => by
    rw [longOk (by omega), getLongLE, getLongLE, sliceDrop]
  rw [readBufChecked, EndOfCentralDir.readBuf, length]
  by_cases tooShort : len < EndOfCentralDir.kEOCDLen
  · rw [if_pos tooShort, if_pos tooShort]
  · have enough : 22 ≤ len := Nat.not_lt.mp tooShort
    rw [if_neg tooShort, if_neg tooShort, exceptOk (long 0 (by omega))]
    by_cases signature : getLongLE (buf.drop i) 0 = EndOfCentralDir.kSignature
    · rw [if_neg (fun other => other signature), if_neg (fun other => other signature)]
      rw [exceptOk (short 0x04 (by omega)), exceptOk (short 0x06 (by omega)), exceptOk (short 0x08 (by omega)),
        exceptOk (short 0x0a (by omega)), exceptOk (long 0x0c (by omega)), exceptOk (long 0x10 (by omega)),
        exceptOk (short 0x14 (by omega))]
      dsimp only [EndOfCentralDir.ofBuf]
      by_cases bare : getShortLE (buf.drop i) 0x14 = 0
      · rw [if_pos bare, if_pos bare]
      · rw [if_neg bare, if_neg bare]
        by_cases exceeds : len < EndOfCentralDir.kEOCDLen + getShortLE (buf.drop i) 0x14
        · rw [if_pos exceeds, if_pos exceeds]
        · rw [if_neg exceeds, if_neg exceeds, exceptOk (bytesAtOk (by omega)), sliceDrop]
          rfl
    · rw [if_pos signature, if_pos signature]

theorem lastBytesLength (raw : Bytes) : (lastBytes raw).length = readAmount raw := by
  rw [lastBytes, sliceLength]
  unfold readAmount
  omega

theorem searchInside {buf : Bytes} {i n : Nat} (found : searchEOCD buf n = some i) : i < n := by
  induction n with
  | zero => cases found
  | succ n ih =>
    rw [searchEOCD] at found
    split at found
    · cases found
      exact Nat.lt_succ_self _
    · exact Nat.lt_succ_of_lt (ih found)

theorem parseCheckedSame (raw : Bytes) : parseChecked raw = parseApk (some raw) := by
  have length := lastBytesLength raw
  rw [parseChecked, parseApk]
  by_cases small : raw.length < EndOfCentralDir.kEOCDLen
  · rw [if_pos small, if_pos small]
  · have enough : 22 ≤ readAmount raw := by
      have least : 22 ≤ raw.length := Nat.not_lt.mp small
      have most : EndOfCentralDir.kMaxEOCDSearch = 65557 := rfl
      unfold readAmount
      omega
    have searched : searchChecked (lastBytes raw) (readAmount raw - 3) = .ok (searchEOCD (lastBytes raw) (readAmount raw - 3)) :=
      searchCheckedOk (by omega)
    rw [if_neg small, if_neg small, exceptOk searched]
    unfold lastBytes at searched length ⊢
    unfold readAmount at searched length enough ⊢
    dsimp only
    cases found : searchEOCD (slice raw (raw.length - min raw.length EndOfCentralDir.kMaxEOCDSearch)
        (min raw.length EndOfCentralDir.kMaxEOCDSearch)) (min raw.length EndOfCentralDir.kMaxEOCDSearch - 3) with
    | none => rfl
    | some i =>
      have inside := searchInside found
      dsimp only
      rw [readBufCheckedOk (by omega)]

def OnlyFails {α : Type} (x : Except Stop α) : Prop := ∀ stop, x = .error stop → stop = .failed

theorem okFails {α : Type} (a : α) : OnlyFails (.ok a : Except Stop α) := fun _ bad => by cases bad

theorem failedFails {α : Type} : OnlyFails (.error .failed : Except Stop α) := fun _ bad => by
  cases bad
  rfl

theorem bindFails {α β : Type} {x : Except Stop α} {f : α → Except Stop β} (first : OnlyFails x)
    (next : ∀ a, OnlyFails (f a)) : OnlyFails (x >>= f) := by
  intro stop h
  cases x with
  | error other =>
    cases h
    exact first _ rfl
  | ok a => exact next a stop h

theorem readCountedFails (len : Nat) (fp : Bytes) : OnlyFails (readCounted len fp) := by
  unfold readCounted
  split
  · exact okFails _
  · split
    · exact failedFails
    · exact okFails _

theorem headerReadFails (fp : Bytes) : OnlyFails (LocalFileHeader.read fp) := by
  unfold LocalFileHeader.read
  dsimp only
  split
  · exact failedFails
  · split
    · exact failedFails
    · exact bindFails (readCountedFails _ _) fun _ => bindFails (readCountedFails _ _) fun _ => okFails _

theorem recordReadFails (fp : Bytes) : OnlyFails (CentralDirEntry.read fp) := by
  unfold CentralDirEntry.read
  dsimp only
  split
  · exact failedFails
  · split
    · exact failedFails
    · exact bindFails (readCountedFails _ _) fun _ => bindFails (readCountedFails _ _) fun _ =>
        bindFails (readCountedFails _ _) fun _ => okFails _

theorem seekFails (raw : Bytes) (offset : Nat) : OnlyFails (ZipEntry.seekSet raw offset) := by
  unfold ZipEntry.seekSet
  split
  · exact failedFails
  · exact okFails _

theorem entryReadFails (raw fp : Bytes) : OnlyFails (ZipEntry.initFromCDE raw fp) :=
  bindFails (recordReadFails fp) fun _ => bindFails (seekFails raw _) fun _ =>
    bindFails (headerReadFails _) fun _ => okFails _

theorem readBufFails (buf : Bytes) : OnlyFails (EndOfCentralDir.readBuf buf) := by
  unfold EndOfCentralDir.readBuf
  dsimp only
  split
  · exact failedFails
  · split
    · exact failedFails
    · split
      · exact okFails _
      · split
        · exact failedFails
        · exact okFails _

def records (cs : List CentralDirEntry) : Bytes := cs.flatMap CentralDirEntry.write

structure Readable (raw : Bytes) (c : CentralDirEntry) : Prop where
  valid : c.Valid
  offset : 0 ≤ i64 c.mLocalHeaderRelOffset
  header : ∃ l : LocalFileHeader, l.Valid ∧ ∃ rest, raw.drop c.mLocalHeaderRelOffset = l.write ++ rest

def isFile (c : CentralDirEntry) : Bool :=
  match cString c.mFileName with
  | .ok filename => !isDirectory filename
  | .error _ => false

theorem readableRead {raw : Bytes} {c : CentralDirEntry} (readable : Readable raw c) (rest : Bytes) :
    ∃ e : ZipEntry, e.mCDE = c ∧ ZipEntry.initFromCDE raw (c.write ++ rest) = .ok (e, rest) := by
  obtain ⟨l, valid, behind, header⟩ := readable.header
  exact ⟨_, rfl, ZipEntry.initFromCdeRead readable.valid valid readable.offset header rest⟩

theorem readReadable {raw fp : Bytes} {e : ZipEntry} {rest : Bytes} (h : ZipEntry.initFromCDE raw fp = .ok (e, rest)) :
    Readable raw e.mCDE ∧ fp = e.mCDE.write ++ rest := by
  obtain ⟨found, _, _, split⟩ := ZipEntry.initFromCdeSource h
  exact ⟨⟨found.mCDE, found.offset, _, found.mLFH, found.header⟩, split⟩

theorem cStringNamed {c : CentralDirEntry} (valid : c.Valid) (some : c.mFileNameLength ≠ 0) :
    ∃ filename, cString c.mFileName = .ok filename := by
  have counted := valid.mFileName
  cases field : c.mFileName with
  | none =>
    rw [field] at counted
    exact absurd counted some
  | some raw => exact ⟨_, rfl⟩

theorem cStringNameless {c : CentralDirEntry} (valid : c.Valid) (zero : c.mFileNameLength = 0) :
    cString c.mFileName = .error .faulted := by
  have counted := valid.mFileName
  cases field : c.mFileName with
  | none => rfl
  | some raw =>
    rw [field] at counted
    exact absurd zero counted.1

theorem readEntriesRecords {raw : Bytes} {n : Nat} {fp : Bytes} {es : List ZipEntry} {rest : Bytes}
    (h : readEntries raw n fp = .ok (es, rest)) : ∃ cs, cs.length = n ∧ (∀ c ∈ cs, CentralDirEntry.Valid c) ∧
      fp = records cs ++ rest ∧ es.map ZipEntry.mCDE = cs.filter isFile := by
  induction n generalizing fp es rest with
  | zero =>
    cases h
    exact ⟨[], rfl, by simp, rfl, rfl⟩
  | succ n ih =>
    obtain ⟨⟨entry, fp'⟩, he, h⟩ := exceptBind h
    obtain ⟨filename, hf, h⟩ := exceptBind h
    obtain ⟨⟨tail, fp''⟩, hr, last⟩ := exceptBind h
    obtain ⟨entriesSame, rfl⟩ := Prod.mk.inj (Except.ok.inj last)
    obtain ⟨readable, split⟩ := readReadable he
    obtain ⟨cs, count, valid, rfl, delivered⟩ := ih hr
    have kind : isFile entry.mCDE = !isDirectory filename := by
      rw [ZipEntry.getFileName] at hf
      rw [isFile, hf]
    refine ⟨entry.mCDE :: cs, by rw [List.length_cons, count], ?_, ?_, ?_⟩
    · intro c mem
      rcases List.mem_cons.mp mem with rfl | mem
      · exact readable.valid
      · exact valid c mem
    · rw [split, records, records, List.flatMap_cons, List.append_assoc]
    · rw [← entriesSame]
      cases directory : isDirectory filename with
      | true =>
        rw [directory] at kind
        rw [List.filter_cons_of_neg (by rw [kind]; decide)]
        exact delivered
      | false =>
        rw [directory] at kind
        rw [List.filter_cons_of_pos (by rw [kind]; decide), ← delivered]
        rfl

theorem readEntriesFaults {raw : Bytes} {n : Nat} {fp : Bytes} {stop : Stop} (h : readEntries raw n fp = .error stop)
    (other : stop ≠ .failed) : stop = .faulted ∧ ∃ cs c rest, fp = records cs ++ (CentralDirEntry.write c ++ rest) ∧
      cs.length < n ∧ (∀ d ∈ cs, Readable raw d ∧ d.mFileNameLength ≠ 0) ∧ Readable raw c ∧ c.mFileNameLength = 0 := by
  induction n generalizing fp with
  | zero => cases h
  | succ n ih =>
    rw [readEntries] at h
    cases he : ZipEntry.initFromCDE raw fp with
    | error bad =>
      have fails := entryReadFails raw fp bad he
      rw [he] at h
      cases h
      exact absurd fails other
    | ok p =>
      obtain ⟨entry, fp'⟩ := p
      obtain ⟨readable, rfl⟩ := readReadable he
      rw [exceptOk he] at h
      dsimp only at h
      by_cases zero : entry.mCDE.mFileNameLength = 0
      · have null : entry.getFileName = .error .faulted := cStringNameless readable.valid zero
        rw [null] at h
        cases h
        exact ⟨rfl, [], entry.mCDE, fp', rfl, Nat.succ_pos _, by simp, readable, zero⟩
      · obtain ⟨filename, named⟩ := cStringNamed readable.valid zero
        rw [exceptOk (show entry.getFileName = .ok filename from named)] at h
        have deeper : readEntries raw n fp' = .error stop := by
          cases hr : readEntries raw n fp' with
          | error bad =>
            rw [hr] at h
            exact h
          | ok q =>
            rw [exceptOk hr] at h
            cases h
        obtain ⟨same, cs, c, rest, rfl, below, named, last⟩ := ih deeper
        refine ⟨same, entry.mCDE :: cs, c, rest, ?_, Nat.succ_lt_succ below, ?_, last⟩
        · rw [records, records, List.flatMap_cons, List.append_assoc]
        · intro d mem
          rcases List.mem_cons.mp mem with rfl | mem
          · exact ⟨readable, zero⟩
          · exact named d mem

theorem readEntriesNameless {raw : Bytes} {cs : List CentralDirEntry} {c : CentralDirEntry} {rest : Bytes} {n : Nat}
    (below : cs.length < n) (named : ∀ d ∈ cs, Readable raw d ∧ d.mFileNameLength ≠ 0) (readable : Readable raw c)
    (zero : c.mFileNameLength = 0) : readEntries raw n (records cs ++ (c.write ++ rest)) = .error .faulted := by
  induction cs generalizing n with
  | nil =>
    obtain ⟨n, rfl⟩ := Nat.exists_eq_succ_of_ne_zero (show n ≠ 0 by intro none; subst none; cases below)
    obtain ⟨e, record, read⟩ := readableRead readable rest
    have null : e.getFileName = .error .faulted := by
      rw [ZipEntry.getFileName, record]
      exact cStringNameless readable.valid zero
    show readEntries raw (n + 1) (c.write ++ rest) = _
    rw [readEntries, exceptOk read]
    dsimp only
    rw [null]
    rfl
  | cons d cs ih =>
    obtain ⟨n, rfl⟩ := Nat.exists_eq_succ_of_ne_zero (show n ≠ 0 by intro none; subst none; cases below)
    obtain ⟨own, some⟩ := named d List.mem_cons_self
    obtain ⟨e, record, read⟩ := readableRead own (records cs ++ (c.write ++ rest))
    obtain ⟨filename, name⟩ := cStringNamed own.valid some
    have fileName : e.getFileName = .ok filename := by
      rw [ZipEntry.getFileName, record]
      exact name
    have later := ih (Nat.lt_of_succ_lt_succ below) (fun b mem => named b (List.mem_cons_of_mem _ mem))
    have split : records (d :: cs) ++ (c.write ++ rest) = d.write ++ (records cs ++ (c.write ++ rest)) := by
      rw [records, records, List.flatMap_cons, List.append_assoc]
    rw [readEntries, split, exceptOk read]
    dsimp only
    rw [exceptOk fileName, later]
    rfl

def EndRecord (raw : Bytes) (endOfCentralDir : EndOfCentralDir) : Prop :=
  EndOfCentralDir.kEOCDLen ≤ raw.length ∧ ∃ i, searchEOCD (lastBytes raw) (readAmount raw - 3) = some i ∧
    EndOfCentralDir.readBuf ((lastBytes raw).drop i) = .ok endOfCentralDir

structure SingleDisk (e : EndOfCentralDir) : Prop where
  mDiskNumber : e.mDiskNumber = 0
  mDiskWithCentralDir : e.mDiskWithCentralDir = 0
  mNumEntries : e.mNumEntries = e.mTotalNumEntries

/-- The walk comes to a record without a name, over records that it can read. -/
def MeetsNameless (raw : Bytes) : Prop := ∃ endOfCentralDir cs c rest, EndRecord raw endOfCentralDir ∧
  SingleDisk endOfCentralDir ∧ 0 ≤ i64 endOfCentralDir.mCentralDirOffset ∧
  raw.drop endOfCentralDir.mCentralDirOffset = records cs ++ (CentralDirEntry.write c ++ rest) ∧
  cs.length < endOfCentralDir.mTotalNumEntries ∧ (∀ d ∈ cs, Readable raw d ∧ d.mFileNameLength ≠ 0) ∧
  Readable raw c ∧ c.mFileNameLength = 0

structure ParsesSafely (raw : Bytes) : Prop where
  returns : (∃ es, parseChecked raw = .ok es) ∨ parseChecked raw = .error .failed
  delivers : ∀ es, parseChecked raw = .ok es → ∃ endOfCentralDir cs, EndRecord raw endOfCentralDir ∧
    cs.length = endOfCentralDir.mTotalNumEntries ∧ (∀ c ∈ cs, CentralDirEntry.Valid c) ∧
    records cs <+: raw.drop endOfCentralDir.mCentralDirOffset ∧ es.map ZipEntry.mCDE = cs.filter isFile

theorem parseFrom {raw : Bytes} {e : EndOfCentralDir} (known : EndRecord raw e) :
    parseApk (some raw) = readCentralDir raw e := by
  obtain ⟨enough, i, found, read⟩ := known
  unfold lastBytes readAmount at found read
  rw [parseApk, if_neg (Nat.not_lt.mpr enough)]
  simp only [found, read]
  rfl

theorem parseWithout {raw : Bytes} (unknown : ∀ e, ¬ EndRecord raw e) : parseApk (some raw) = .error .failed := by
  rw [parseApk]
  split
  · rfl
  · rename_i enough
    dsimp only
    split
    · rfl
    · rename_i i found
      cases read : EndOfCentralDir.readBuf ((lastBytes raw).drop i) with
      | error stop =>
        have fails := readBufFails _ stop read
        unfold lastBytes readAmount at read
        rw [read, fails]
        rfl
      | ok e => exact absurd ⟨Nat.not_lt.mp enough, i, found, read⟩ (unknown e)

theorem seekPositive {raw : Bytes} {offset : Nat} (positive : 0 ≤ i64 offset) :
    ZipEntry.seekSet raw offset = .ok (raw.drop offset) := by
  rw [ZipEntry.seekSet, if_neg (Int.not_lt.mpr positive)]

theorem readCentralDirFaults {raw : Bytes} {e : EndOfCentralDir} {stop : Stop} (h : readCentralDir raw e = .error stop)
    (other : stop ≠ .failed) : SingleDisk e ∧ 0 ≤ i64 e.mCentralDirOffset ∧
      readEntries raw e.mTotalNumEntries (raw.drop e.mCentralDirOffset) = .error stop := by
  unfold readCentralDir at h
  split at h
  · cases h
    exact absurd rfl other
  · rename_i single
    rw [not_or, not_or, Decidable.not_not, Decidable.not_not, Decidable.not_not] at single
    by_cases negative : i64 (e.mCentralDirOffset : Int) < 0
    · rw [ZipEntry.seekSet, if_pos negative] at h
      cases h
      exact absurd rfl other
    · have positive := Int.not_lt.mp negative
      refine ⟨⟨single.1, single.2.1, single.2.2⟩, positive, ?_⟩
      rw [exceptOk (seekPositive positive)] at h
      cases walk : readEntries raw e.mTotalNumEntries (raw.drop e.mCentralDirOffset) with
      | error bad =>
        rw [walk] at h
        cases h
        rfl
      | ok p =>
        rw [exceptOk walk] at h
        dsimp only at h
        split at h
        · cases h
          exact absurd rfl other
        · split at h
          · cases h
            exact absurd rfl other
          · cases h

theorem readCentralDirRecords {raw : Bytes} {e : EndOfCentralDir} {es : List ZipEntry}
    (h : readCentralDir raw e = .ok es) : ∃ cs, cs.length = e.mTotalNumEntries ∧ (∀ c ∈ cs, CentralDirEntry.Valid c) ∧
      records cs <+: raw.drop e.mCentralDirOffset ∧ es.map ZipEntry.mCDE = cs.filter isFile := by
  unfold readCentralDir at h
  split at h
  · cases h
  · obtain ⟨fp, sought, h⟩ := exceptBind h
    obtain ⟨⟨entries, rest⟩, walk, h⟩ := exceptBind h
    dsimp only at h
    split at h
    · cases h
    · split at h
      · cases h
      · cases h
        obtain ⟨cs, count, valid, split, delivered⟩ := readEntriesRecords walk
        refine ⟨cs, count, valid, ?_, delivered⟩
        unfold ZipEntry.seekSet at sought
        split at sought
        · cases sought
        · cases sought
          exact ⟨rest, split.symm⟩

theorem faultsNameless {raw : Bytes} {stop : Stop} (h : parseApk (some raw) = .error stop) (other : stop ≠ .failed) :
    MeetsNameless raw := by
  by_cases known : ∃ e, EndRecord raw e
  · obtain ⟨e, known⟩ := known
    rw [parseFrom known] at h
    obtain ⟨single, positive, walk⟩ := readCentralDirFaults h other
    obtain ⟨_, cs, c, rest, split, below, named, readable, zero⟩ := readEntriesFaults walk other
    exact ⟨e, cs, c, rest, known, single, positive, split, below, named, readable, zero⟩
  · rw [parseWithout (fun e record => known ⟨e, record⟩)] at h
    cases h
    exact absurd rfl other

theorem namelessFaults {raw : Bytes} (meets : MeetsNameless raw) : parseApk (some raw) = .error .faulted := by
  obtain ⟨e, cs, c, rest, known, single, positive, split, below, named, readable, zero⟩ := meets
  have whole : ¬ (e.mDiskNumber ≠ 0 ∨ e.mDiskWithCentralDir ≠ 0 ∨ e.mNumEntries ≠ e.mTotalNumEntries) := by
    rintro (one | two | three)
    · exact one single.mDiskNumber
    · exact two single.mDiskWithCentralDir
    · exact three single.mNumEntries
  rw [parseFrom known, readCentralDir, if_neg whole, exceptOk (seekPositive positive), split,
    readEntriesNameless below named readable zero]
  rfl

theorem parsesSafelyExactly (raw : Bytes) : ParsesSafely raw ↔ ¬ MeetsNameless raw := by
  constructor
  · intro safe meets
    have faults := namelessFaults meets
    rw [← parseCheckedSame] at faults
    rcases safe.returns with ⟨es, ok⟩ | failed
    · rw [faults] at ok
      cases ok
    · rw [faults] at failed
      cases failed
  · intro never
    constructor
    · rw [parseCheckedSame]
      cases parsed : parseApk (some raw) with
      | ok es => exact .inl ⟨es, rfl⟩
      | error stop =>
        by_cases failed : stop = .failed
        · exact .inr (by rw [failed])
        · exact absurd (faultsNameless parsed failed) never
    · intro es ok
      rw [parseCheckedSame] at ok
      by_cases known : ∃ e, EndRecord raw e
      · obtain ⟨e, known⟩ := known
        rw [parseFrom known] at ok
        obtain ⟨cs, facts⟩ := readCentralDirRecords ok
        exact ⟨e, cs, known, facts⟩
      · rw [parseWithout (fun e record => known ⟨e, record⟩)] at ok
        cases ok

/- One stored file whose name is empty. -/
def namelessArchive : Bytes := ShadowZip.archiveOf [⟨[], [1], 0⟩]

theorem strlenOfNull : parseChecked namelessArchive = .error .faulted ∧ ¬ ParsesSafely namelessArchive := by
  have faults : parseChecked namelessArchive = .error .faulted := by decide +kernel
  refine ⟨faults, fun safe => ?_⟩
  rcases safe.returns with ⟨es, ok⟩ | failed
  · rw [faults] at ok
    cases ok
  · rw [faults] at failed
    cases failed

end Bootstrap.ParseApk
