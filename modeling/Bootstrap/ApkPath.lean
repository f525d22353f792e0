import Bootstrap.MergePlan
import Bootstrap.StoredArchive
import Bootstrap.TextScan

/-! get_apk_path: the first archive in /proc/self/maps that is of the bundle and holds its data. -/
namespace Bootstrap.ApkPath
open CInt ByteLayout Zip ParseApk ShadowZip
open TextScan (fgetsAll fgetsLine cStringWhole)

/- A line of blanks only is read before its start. -/
def isBlank (c : UInt8) : Bool := c == 0x20 || c == 0x0d || c == 0x0a || c == 0x09

def stripped (line : Bytes) : Bytes := (line.reverse.dropWhile isBlank).reverse

def TAIL : Bytes := text ".apk"

def strchr (c : UInt8) (line : Bytes) : Option Bytes :=
  match line.dropWhile (· ≠ c) with
  | [] => none
  | found => some found

def anyUnder (checkPath : Bytes) : List ZipEntry → Except Stop Bool
  | [] => .ok false
  | entry :: entries => do
    let filename ← entry.getFileName
    if checkPath <+: filename then return true else anyUnder checkPath entries

/- A path of NULL leads to no file. -/
def containsPath (apkFile : Option Bytes) (checkPath : Bytes) : Except Stop Bool :=
  match parseApk apkFile with
  | .error .failed => .ok false
  | .error stop => .error stop
  | .ok zipEntries => anyUnder checkPath zipEntries

def dataPath : Bytes := text "assets/bin/Data/"

section
variable (files : Bytes → Option Bytes) (bundleId : Bytes)

/- The tail of a short line starts before it. -/
def apkPathLoop : List Bytes → Except Stop Bytes
  | [] => .ok []
  | buffer :: lines =>
    let line := stripped (TextScan.cString buffer)
    if line = [] then .error .faulted
    else if TextScan.cString bundleId <:+: line then
      if line.length < TAIL.length then .error .faulted
      else if line.drop (line.length - TAIL.length) = TAIL then do
        let foundPath := strchr 0x2f line
        if ← containsPath (foundPath.bind files) dataPath then return foundPath.getD []
        else apkPathLoop lines
      else apkPathLoop lines
    else apkPathLoop lines

def getApkPath (maps : Option Bytes) : Except Stop Bytes :=
  match maps with
  | none => .ok []
  | some text => apkPathLoop files bundleId (fgetsAll 1024 [] text)

end

def Contains (apkFile : Option Bytes) (checkPath : Bytes) : Prop := ∃ e ∈ parsed apkFile, checkPath <+: fileName e

instance (apkFile checkPath) : Decidable (Contains apkFile checkPath) := by unfold Contains; infer_instance

theorem anyUnderExact {checkPath : Bytes} {entries : List ZipEntry} (named : ∀ e ∈ entries, ∃ filename, e.getFileName = .ok filename) :
    anyUnder checkPath entries = .ok (decide (∃ e ∈ entries, checkPath <+: fileName e)) := by
  induction entries with
  | nil => rfl
  | cons e entries ih =>
    obtain ⟨filename, own⟩ := named e List.mem_cons_self
    have same : fileName e = filename := by rw [fileName, own]
    rw [anyUnder, exceptOk own]
    by_cases under : checkPath <+: filename
    · rw [if_pos under, decide_eq_true ⟨e, List.mem_cons_self, same ▸ under⟩]
      rfl
    · rw [if_neg under, ih (fun d mem => named d (List.mem_cons_of_mem _ mem))]
      simp [same, under]

theorem containsCases (apkFile : Option Bytes) (checkPath : Bytes) :
    containsPath apkFile checkPath = .ok (decide (Contains apkFile checkPath)) ∨
      ∃ stop, stop ≠ .failed ∧ parseApk apkFile = .error stop ∧ containsPath apkFile checkPath = .error stop := by
  unfold containsPath
  split
  · rename_i failed
    exact .inl (by simp [Contains, parsed, failed])
  · rename_i stop other failed
    exact .inr ⟨stop, other, failed, rfl⟩
  · rename_i entries parses
    have all : parsed apkFile = entries := by rw [parsed, parses]
    refine .inl ?_
    have named : ∀ e ∈ entries, ∃ filename, e.getFileName = .ok filename := by
      intro e mem
      rw [← all] at mem
      obtain ⟨filename, named, _⟩ := (parsedFiles mem).name
      exact ⟨filename, named⟩
    simp only [anyUnderExact named, Contains, all]

section
variable {files : Bytes → Option Bytes} {bundleId : Bytes}

def Names (files : Bytes → Option Bytes) (bundleId line : Bytes) : Prop :=
  TextScan.cString bundleId <:+: stripped line ∧ TAIL <:+ stripped line ∧
    Contains ((strchr 0x2f (stripped line)).bind files) dataPath

instance (files bundleId line) : Decidable (Names files bundleId line) := by unfold Names; infer_instance

theorem strippedLine (line : Bytes) : stripped (line ++ [10]) = stripped line := by
  have newline : isBlank 10 = true := by decide
  rw [stripped, List.reverse_append, List.reverse_singleton, List.singleton_append, List.dropWhile_cons_of_pos newline, stripped]

theorem tailHere (line : Bytes) : line.drop (line.length - TAIL.length) = TAIL ↔ TAIL <:+ line := by
  rw [List.suffix_iff_eq_drop]
  exact eq_comm

/-- A line of the kernel: nothing but the line feed ends it, the buffer holds it, and it does not end in its first column. -/
structure Plain (line : Bytes) : Prop where
  text : 10 ∉ line ∧ 0 ∉ line
  short : line.length ≤ 1022
  long : TAIL.length ≤ (stripped line).length

theorem plainLines {lines : List Bytes} (plain : ∀ line ∈ lines, Plain line) :
    fgetsAll 1024 [] (lines.flatMap (· ++ [10])) = lines.map (· ++ [10]) := by
  induction lines with
  | nil => rfl
  | cons line lines ih =>
    have here := plain line List.mem_cons_self
    have short := here.short
    rw [List.flatMap_cons, List.append_assoc, List.singleton_append, fgetsLine here.text.1 (by rw [List.length_nil]; omega),
      ih (fun l mem => plain l (List.mem_cons_of_mem _ mem))]
    rfl

theorem loopLine {line : Bytes} (plain : Plain line)
    (parses : ∀ path stop, parseApk (files path) = .error stop → stop = .failed) (lines : List Bytes) :
    apkPathLoop files bundleId ((line ++ [10]) :: lines) =
      if Names files bundleId line then .ok ((strchr 0x2f (stripped line)).getD []) else apkPathLoop files bundleId lines := by
  have long := plain.long
  have whole : TextScan.cString (line ++ [10]) = line ++ [10] :=
    cStringWhole (by simpa [List.mem_append] using plain.text.2)
  have some_ : stripped line ≠ [] := fun empty => by rw [empty] at long; exact absurd long (by decide)
  rw [apkPathLoop, whole]
  simp only [strippedLine]
  rw [if_neg some_]
  by_cases bundle : TextScan.cString bundleId <:+: stripped line
  · rw [if_pos bundle, if_neg (Nat.not_lt.mpr long)]
    by_cases tail : TAIL <:+ stripped line
    · rw [if_pos ((tailHere _).mpr tail)]
      rcases containsCases ((strchr 0x2f (stripped line)).bind files) dataPath with answers | ⟨stop, bad, failed, _⟩
      · rw [exceptOk answers]
        by_cases contains : Contains ((strchr 0x2f (stripped line)).bind files) dataPath
        · have names : Names files bundleId line := ⟨bundle, tail, contains⟩
          rw [if_pos names, decide_eq_true contains]
          rfl
        · have other : ¬ Names files bundleId line := fun names => contains names.2.2
          rw [if_neg other, decide_eq_false contains]
          rfl
      · cases found : strchr 0x2f (stripped line) with
        | none =>
          rw [found] at failed
          cases failed
          exact absurd rfl bad
        | some path =>
          rw [found] at failed
          exact absurd (parses path stop failed) bad
    · rw [if_neg (fun here => tail ((tailHere _).mp here)), if_neg (fun names => tail names.2.1)]
  · rw [if_neg bundle, if_neg (fun names => bundle names.1)]

theorem apkPathExact {lines : List Bytes} (plain : ∀ line ∈ lines, Plain line)
    (parses : ∀ path stop, parseApk (files path) = .error stop → stop = .failed) :
    getApkPath files bundleId (some (lines.flatMap (· ++ [10]))) =
      .ok ((lines.find? (fun line => decide (Names files bundleId line))).elim [] (fun line => (strchr 0x2f (stripped line)).getD [])) := by
  rw [getApkPath, plainLines plain]
  induction lines with
  | nil => rfl
  | cons line lines ih =>
    rw [List.map_cons, loopLine (plain line List.mem_cons_self) parses]
    by_cases names : Names files bundleId line
    · rw [if_pos names, List.find?_cons, decide_eq_true names]
      rfl
    · rw [if_neg names, List.find?_cons, decide_eq_false names]
      exact ih (fun l mem => plain l (List.mem_cons_of_mem _ mem))

theorem strchrFound {c : UInt8} {line found : Bytes} (here : strchr c line = some found) :
    (∃ back, found = c :: back) ∧ found <:+ line := by
  rw [strchr] at here
  split at here
  · cases here
  · rename_i some_
    cases here
    refine ⟨?_, List.dropWhile_suffix _⟩
    cases same : line.dropWhile (· ≠ c) with
    | nil => exact absurd same some_
    | cons d back =>
      have stops := List.head?_dropWhile_not (· ≠ c) line
      rw [same] at stops
      simp only [List.head?_cons, ne_eq, decide_not, Bool.not_eq_eq_eq_not, Bool.not_false, decide_eq_true_eq] at stops
      exact ⟨back, by rw [stops]⟩

structure NamedBy (files : Bytes → Option Bytes) (bundleId buffer path : Bytes) : Prop where
  bundle : TextScan.cString bundleId <:+: stripped (TextScan.cString buffer)
  ends : path <:+ stripped (TextScan.cString buffer)
  absolute : ∃ back, path = 0x2f :: back
  tail : TAIL <:+ path
  data : Contains (files path) dataPath

theorem lineNames {buffer ret : Bytes} {lines : List Bytes} (found : apkPathLoop files bundleId (buffer :: lines) = .ok ret)
    (some_ : ret ≠ []) : NamedBy files bundleId buffer ret ∨ apkPathLoop files bundleId lines = .ok ret := by
  rw [apkPathLoop] at found
  dsimp only at found
  split at found
  · cases found
  split at found
  · rename_i bundle
    split at found
    · cases found
    split at found
    · rename_i tail
      rcases containsCases ((strchr 0x2f (stripped (TextScan.cString buffer))).bind files) dataPath with answers | ⟨stop, _, _, fails⟩
      · rw [exceptOk answers] at found
        by_cases contains : Contains ((strchr 0x2f (stripped (TextScan.cString buffer))).bind files) dataPath
        · rw [decide_eq_true contains] at found
          cases here : strchr 0x2f (stripped (TextScan.cString buffer)) with
          | none =>
            rw [here] at found
            cases found
            exact absurd rfl some_
          | some path =>
            rw [here] at found contains
            cases found
            obtain ⟨⟨back, rfl⟩, suffix_⟩ := strchrFound here
            refine .inl ⟨bundle, suffix_, ⟨back, rfl⟩, ?_, contains⟩
            rcases List.suffix_or_suffix_of_suffix ((tailHere _).mp tail) suffix_ with inside | short
            · exact inside
            · exact absurd (short.subset List.mem_cons_self) (by decide)
        · rw [decide_eq_false contains] at found
          exact .inr found
      · rw [fails] at found
        cases found
    · exact .inr found
  · exact .inr found

theorem apkPathSound {maps : Option Bytes} {ret : Bytes} (found : getApkPath files bundleId maps = .ok ret) (some_ : ret ≠ []) :
    ∃ text, maps = some text ∧ ∃ buffer ∈ fgetsAll 1024 [] text, NamedBy files bundleId buffer ret := by
  cases maps with
  | none =>
    cases found
    exact absurd rfl some_
  | some text =>
    refine ⟨text, rfl, ?_⟩
    rw [getApkPath] at found
    generalize fgetsAll 1024 [] text = lines at found ⊢
    induction lines with
    | nil =>
      cases found
      exact absurd rfl some_
    | cons buffer lines ih =>
      rcases lineNames found some_ with named | later
      · exact ⟨buffer, List.mem_cons_self, named⟩
      · obtain ⟨other, mem, named⟩ := ih later
        exact ⟨other, List.mem_cons_of_mem _ mem, named⟩

end

/- An archive of the bundle without the data, and one with it. -/
def sampleFiles (path : Bytes) : Option Bytes :=
  if path = text "/b/split.apk" then some (archiveOf [⟨text "lib/x", [1], 0⟩])
  else if path = text "/b/base.apk" then some (archiveOf [⟨text "assets/bin/Data/x", [2], 0⟩])
  else none

def sampleLines : List Bytes := [text "1000-2000 rw-p 00000000 00:00 0 ", text "2000-3000 r--s 00000000 08:01 7 /b/split.apk",
  text "3000-4000 r--s 00000000 08:01 8 /b/base.apk"]

theorem sampleParses (path : Bytes) (stop : Stop) (fails : parseApk (sampleFiles path) = .error stop) : stop = .failed := by
  have split : (parseApk (some (archiveOf [⟨text "lib/x", [1], 0⟩]))).toOption.isSome := by decide +kernel
  have base : (parseApk (some (archiveOf [⟨text "assets/bin/Data/x", [2], 0⟩]))).toOption.isSome := by decide +kernel
  unfold sampleFiles at fails
  split at fails
  · rw [fails] at split
    cases split
  · split at fails
    · rw [fails] at base
      cases base
    · cases fails
      rfl

theorem sampleApkPath : getApkPath sampleFiles (text "/b/") (some (sampleLines.flatMap (· ++ [10]))) = .ok (text "/b/base.apk") := by
  have plain : ∀ line ∈ sampleLines, Plain line := by
    intro line mem
    have all : ∀ line ∈ sampleLines, (10 ∉ line ∧ 0 ∉ line) ∧ line.length ≤ 1022 ∧ TAIL.length ≤ (stripped line).length := by
      decide +kernel
    obtain ⟨text, short, long⟩ := all line mem
    exact ⟨text, short, long⟩
  exact (apkPathExact plain sampleParses).trans (by decide +kernel)

theorem sampleSound : ∃ buffer ∈ fgetsAll 1024 [] (sampleLines.flatMap (· ++ [10])),
    NamedBy sampleFiles (text "/b/") buffer (text "/b/base.apk") := by
  have found : getApkPath sampleFiles (text "/b/") (some (sampleLines.flatMap (· ++ [10]))) = .ok (text "/b/base.apk") := by
    decide +kernel
  obtain ⟨_, same, named⟩ := apkPathSound found (by decide)
  cases same
  exact named

end Bootstrap.ApkPath
