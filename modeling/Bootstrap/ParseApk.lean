import Bootstrap.ZipFile

/-! parse_apk: find the end record from behind, walk the central directory, and stand on
the end record again. A file that cannot be opened is given as `none`. -/
namespace Bootstrap.ParseApk
open CInt ByteLayout Zip

/- An empty name counts as a directory. -/
def isDirectory (filename : Bytes) : Bool :=
  match filename.getLast? with
  | none => true
  | some ch => ch == 0x2f

def SignatureAt (buf : Bytes) (i : Nat) : Prop :=
  buf.getD i 0 = 0x50 ∧ getLongLE buf i = EndOfCentralDir.kSignature
instance (buf i) : Decidable (SignatureAt buf i) := by unfold SignatureAt; infer_instance

/- The scan for the magic over i = n - 1, …, 0. -/
def searchEOCD (buf : Bytes) : Nat → Option Nat
  | 0 => none
  | i+1 => if SignatureAt buf i then some i else searchEOCD buf i

def readEntries (raw : Bytes) : Nat → Bytes → Except Stop (List ZipEntry × Bytes)
  | 0, fp => .ok ([], fp)
  | n+1, fp => do
    let (entry, fp) ← ZipEntry.initFromCDE raw fp
    let filename ← entry.getFileName
    let (entries, fp) ← readEntries raw n fp
    return (if isDirectory filename then entries else entry :: entries, fp)

def readCentralDir (raw : Bytes) (endOfCentralDir : EndOfCentralDir) : Except Stop (List ZipEntry) :=
  if endOfCentralDir.mDiskNumber ≠ 0 ∨ endOfCentralDir.mDiskWithCentralDir ≠ 0 ∨
      endOfCentralDir.mNumEntries ≠ endOfCentralDir.mTotalNumEntries then .error .failed
  else do
    let fp ← ZipEntry.seekSet raw endOfCentralDir.mCentralDirOffset
    let (entries, fp) ← readEntries raw endOfCentralDir.mTotalNumEntries fp
    let checkBuf := slice fp 0 4
    if checkBuf.length ≠ 4 then .error .failed
    else if getLongLE checkBuf 0 ≠ EndOfCentralDir.kSignature then .error .failed
    else .ok entries

def parseApk (path : Option Bytes) : Except Stop (List ZipEntry) :=
  match path with
  | none => .error .failed
  | some raw =>
    if raw.length < EndOfCentralDir.kEOCDLen then .error .failed
    else
      let readAmount := min raw.length EndOfCentralDir.kMaxEOCDSearch
      let buf := slice raw (raw.length - readAmount) readAmount
      match searchEOCD buf (readAmount - 3) with
      | none => .error .failed
      | some i => do
        let endOfCentralDir ← EndOfCentralDir.readBuf (buf.drop i)
        readCentralDir raw endOfCentralDir

structure FileEntry (raw : Bytes) (e : ZipEntry) : Prop where
  found : e.FoundIn raw
  fresh : e.mUserData1 = 0 ∧ e.mUserData2 = 0
  name : ∃ filename, e.getFileName = .ok filename ∧ isDirectory filename = false

theorem readEntriesSource {raw : Bytes} {n : Nat} {fp : Bytes} {es : List ZipEntry} {rest : Bytes}
    (h : readEntries raw n fp = .ok (es, rest)) : ∀ e ∈ es, FileEntry raw e := by
  induction n generalizing fp es rest with
  | zero =>
    cases h
    simp
  | succ n ih =>
    obtain ⟨⟨entry, fp'⟩, he, h⟩ := exceptBind h
    obtain ⟨filename, hf, h⟩ := exceptBind h
    obtain ⟨⟨entries, fp''⟩, hr, h⟩ := exceptBind h
    cases h
    have tail := ih hr
    cases directory : isDirectory filename with
    | true => simpa using tail
    | false =>
      obtain ⟨found, one, two, _⟩ := ZipEntry.initFromCdeSource he
      intro e mem
      rcases List.mem_cons.mp (by simpa using mem) with rfl | mem
      · exact ⟨found, ⟨one, two⟩, filename, hf, directory⟩
      · exact tail e mem

theorem parseApkSource {path : Option Bytes} {es : List ZipEntry} (h : parseApk path = .ok es) :
    ∃ raw, path = some raw ∧ ∀ e ∈ es, FileEntry raw e := by
  cases path with
  | none => cases h
  | some raw =>
    refine ⟨raw, rfl, ?_⟩
    simp only [parseApk] at h
    split at h
    · cases h
    split at h
    · cases h
    obtain ⟨eocd, _, h⟩ := exceptBind h
    unfold readCentralDir at h
    split at h
    · cases h
    obtain ⟨fp, _, h⟩ := exceptBind h
    obtain ⟨⟨entries, fp'⟩, he, h⟩ := exceptBind h
    dsimp only at h
    split at h
    · cases h
    split at h
    · cases h
    cases h
    exact readEntriesSource he

/-- The end record that the scan stops at is the last one whose magic starts below n. -/
theorem searchLast {buf : Bytes} {i n : Nat} (signature : SignatureAt buf i) (inside : i < n)
    (later : ∀ j, i < j → j < n → ¬ SignatureAt buf j) : searchEOCD buf n = some i := by
  induction n with
  | zero => omega
  | succ n ih =>
    by_cases last : i = n
    · subst i
      simp only [searchEOCD, if_pos signature]
    · simp only [searchEOCD, if_neg (later n (by omega) (by omega))]
      exact ih (by omega) (fun j above below => later j above (by omega))

theorem searchAtLeast {buf : Bytes} {i n : Nat} (signature : SignatureAt buf i) (inside : i < n) :
    ∃ j, i ≤ j ∧ j < n ∧ searchEOCD buf n = some j := by
  induction n with
  | zero => omega
  | succ n ih =>
    by_cases here : SignatureAt buf n
    · exact ⟨n, by omega, by omega, by simp only [searchEOCD, if_pos here]⟩
    · by_cases last : i = n
      · exact absurd (last ▸ signature) here
      · obtain ⟨j, low, high, found⟩ := ih (by omega)
        exact ⟨j, low, by omega, by simpa only [searchEOCD, if_neg here] using found⟩

end Bootstrap.ParseApk
