import Bootstrap.Emission
import Mathlib.Data.List.Nodup

/-! What init merges, read off its inputs alone: the entries of the archives, the entry each
name is replaced by, and the order of emission. -/
namespace Bootstrap.ShadowZip
open CInt ByteLayout Zip ParseApk SerialUtils Tiling

def parsed (path : Option Bytes) : List ZipEntry :=
  match parseApk path with
  | .ok entries => entries
  | .error _ => []

def fileName (e : ZipEntry) : Bytes :=
  match e.getFileName with
  | .ok filename => filename
  | .error _ => []

section
variable (disk : Disk)

def removedNames : List Bytes := readRemovedFiles disk.removedFiles
def apkEntries : List ZipEntry := parsed disk.apk
def patchEntries : List (List ZipEntry) := disk.patches.map (fun p => parsed p.2)
def archiveEntries : List (List ZipEntry) := apkEntries disk :: [] :: patchEntries disk
def entries : Heap := heapOf (archiveEntries disk)
def nameOf (r : EntryRef) : Bytes := fileName (entries disk r)

def apkRefs : List EntryRef := refs 0 (apkEntries disk)
def patchRefs : List EntryRef := refsFrom 2 (patchEntries disk)

def replacement (n : Bytes) : Option EntryRef :=
  (patchRefs disk).find? (fun r => nameOf disk r == n && !(removedNames disk).contains n)

def apkOrder : List EntryRef := (apkRefs disk).filterMap (fun r =>
  if nameOf disk r ∈ removedNames disk then none else some ((replacement disk (nameOf disk r)).getD r))
def patchOrder : List EntryRef := (patchRefs disk).filter (fun r => r ∉ apkOrder disk)
def order : List EntryRef := apkOrder disk ++ patchOrder disk

end

theorem memRefs {i : Nat} {es : List ZipEntry} {r : EntryRef} : r ∈ refs i es ↔ r.1 = i ∧ r.2 < es.length := by
  obtain ⟨a, b⟩ := r
  simp only [refs, List.mem_map, List.mem_range, Prod.mk.injEq]
  constructor
  · rintro ⟨j, low, rfl, rfl⟩
    exact ⟨rfl, low⟩
  · rintro ⟨rfl, low⟩
    exact ⟨b, low, rfl, rfl⟩

theorem memRefsFrom {i : Nat} {ess : List (List ZipEntry)} {r : EntryRef} :
    r ∈ refsFrom i ess ↔ ∃ k es, ess[k]? = some es ∧ r.1 = i + k ∧ r.2 < es.length := by
  induction ess generalizing i with
  | nil => simp [refsFrom]
  | cons es ess ih =>
    rw [refsFrom, List.mem_append, memRefs, ih]
    constructor
    · rintro (⟨own, low⟩ | ⟨k, es', here, own, low⟩)
      · exact ⟨0, es, rfl, own, low⟩
      · exact ⟨k + 1, es', by simpa using here, by omega, low⟩
    · rintro ⟨k, es', here, own, low⟩
      cases k with
      | zero =>
        cases here
        exact .inl ⟨own, low⟩
      | succ k => exact .inr ⟨k, es', by simpa using here, by omega, low⟩

theorem refsNodup (i : Nat) (es : List ZipEntry) : (refs i es).Nodup := by
  refine List.Nodup.map ?_ List.nodup_range
  intro a b same
  cases same
  rfl

theorem refsFromNodup (i : Nat) (ess : List (List ZipEntry)) : (refsFrom i ess).Nodup := by
  induction ess generalizing i with
  | nil => exact List.nodup_nil
  | cons es ess ih =>
    refine List.nodup_append'.mpr ⟨refsNodup i es, ih (i + 1), ?_⟩
    intro r left right
    obtain ⟨own, _⟩ := memRefs.mp left
    obtain ⟨k, _, _, later, _⟩ := memRefsFrom.mp right
    omega

def namedFrom (i : Nat) : Nat → List ZipEntry → List (Bytes × EntryRef)
  | _, [] => []
  | j, e :: es => (fileName e, (i, j)) :: namedFrom i (j + 1) es

theorem memNamed {i j : Nat} {es : List ZipEntry} {n : Bytes} {r : EntryRef} :
    (n, r) ∈ namedFrom i j es ↔ ∃ k e, es[k]? = some e ∧ r = (i, j + k) ∧ n = fileName e := by
  induction es generalizing j with
  | nil => simp [namedFrom]
  | cons e es ih =>
    rw [namedFrom, List.mem_cons, ih]
    constructor
    · rintro (same | ⟨k, e', here, rfl, rfl⟩)
      · cases same
        exact ⟨0, e, rfl, rfl, rfl⟩
      · exact ⟨k + 1, e', by simpa using here, by rw [Nat.add_assoc, Nat.add_comm 1], rfl⟩
    · rintro ⟨k, e', here, rfl, rfl⟩
      cases k with
      | zero =>
        cases here
        exact .inl rfl
      | succ k => exact .inr ⟨k, e', by simpa using here, by rw [Nat.add_assoc, Nat.add_comm 1], rfl⟩

def Holds (removed : List Bytes) (m : Filename2Entry) (named : List (Bytes × EntryRef)) (m' : Filename2Entry) : Prop :=
  ∀ n r, m'.lookup n = some r ↔ m.lookup n = some r ∨ (n, r) ∈ named ∧ n ∉ removed

theorem lookupCons (n k : Bytes) (r : EntryRef) (m : Filename2Entry) :
    List.lookup n ((k, r) :: m) = if n = k then some r else m.lookup n := by
  rw [List.lookup_cons]
  by_cases same : n = k
  · simp [same]
  · simp [same, beq_false_of_ne same]

theorem fileNameOk {e : ZipEntry} {filename : Bytes} (named : e.getFileName = .ok filename) :
    e.getFileName = .ok (fileName e) := by rw [fileName, named]

theorem addPatchEntriesHolds {removed : List Bytes} {i j : Nat} {es : List ZipEntry} {m m' : Filename2Entry}
    (h : addPatchEntries removed i j es m = .ok m') : Holds removed m (namedFrom i j es) m' := by
  induction es generalizing j m with
  | nil =>
    cases h
    intro n r
    simp [namedFrom]
  | cons e es ih =>
    obtain ⟨filename, named, h⟩ := exceptBind h
    have own : filename = fileName e := Except.ok.inj (named.symm.trans (fileNameOk named))
    split at h
    · cases h
    rename_i absent
    have none : m.lookup filename = none := Option.not_isSome_iff_eq_none.mp absent
    split at h
    · rename_i gone
      intro n r
      rw [ih h n r, namedFrom, List.mem_cons, Prod.mk.injEq, ← own]
      constructor
      · rintro (old | ⟨mem, kept⟩)
        · exact .inl old
        · exact .inr ⟨.inr mem, kept⟩
      · rintro (old | ⟨⟨rfl, _⟩ | mem, kept⟩)
        · exact .inl old
        · exact absurd gone kept
        · exact .inr ⟨mem, kept⟩
    · rename_i kept
      intro n r
      rw [ih h n r, lookupCons, namedFrom, List.mem_cons, Prod.mk.injEq, ← own]
      by_cases same : n = filename
      · subst n
        rw [if_pos rfl, none]
        constructor
        · rintro (new | ⟨mem, _⟩)
          · exact .inr ⟨.inl ⟨rfl, (Option.some.inj new).symm⟩, kept⟩
          · exact .inr ⟨.inr mem, kept⟩
        · rintro (old | ⟨⟨_, rfl⟩ | mem, _⟩)
          · cases old
          · exact .inl rfl
          · exact .inr ⟨mem, kept⟩
      · rw [if_neg same]
        simp only [same, false_and, false_or]

def allNamed : Nat → List (List ZipEntry) → List (Bytes × EntryRef)
  | _, [] => []
  | i, es :: ess => namedFrom i 0 es ++ allNamed (i + 1) ess

theorem memAllNamed {i : Nat} {ess : List (List ZipEntry)} {n : Bytes} {r : EntryRef} :
    (n, r) ∈ allNamed i ess ↔
      ∃ a es k e, ess[a]? = some es ∧ es[k]? = some e ∧ r = (i + a, k) ∧ n = fileName e := by
  induction ess generalizing i with
  | nil => simp [allNamed]
  | cons es ess ih =>
    rw [allNamed, List.mem_append, memNamed, ih]
    constructor
    · rintro (⟨k, e, here, rfl, rfl⟩ | ⟨a, es', k, e, there, here, rfl, rfl⟩)
      · exact ⟨0, es, k, e, rfl, here, by simp, rfl⟩
      · exact ⟨a + 1, es', k, e, by simpa using there, here, by rw [Nat.add_assoc, Nat.add_comm 1], rfl⟩
    · rintro ⟨a, es', k, e, there, here, rfl, rfl⟩
      cases a with
      | zero =>
        cases there
        exact .inl ⟨k, e, here, by simp, rfl⟩
      | succ a => exact .inr ⟨a, es', k, e, by simpa using there, here, by rw [Nat.add_assoc, Nat.add_comm 1], rfl⟩

theorem Holds.trans {removed : List Bytes} {m m₁ m₂ : Filename2Entry} {named named' : List (Bytes × EntryRef)}
    (first : Holds removed m named m₁) (second : Holds removed m₁ named' m₂) :
    Holds removed m (named ++ named') m₂ := by
  intro n r
  rw [second n r, first n r, List.mem_append, or_and_right, or_assoc]

theorem parsedOk {path : Option Bytes} {es : List ZipEntry} (h : parseApk path = .ok es) : parsed path = es := by
  rw [parsed, h]

theorem parsePatchesHolds {removed : List Bytes} {i : Nat} {zips : List (Option Bytes)} {m m' : Filename2Entry}
    {ess : List (List ZipEntry)} (h : parsePatches removed i zips m = .ok (ess, m')) :
    ess = zips.map parsed ∧ (∀ z ∈ zips, parseApk z = .ok (parsed z)) ∧ Holds removed m (allNamed i ess) m' := by
  induction zips generalizing i m ess with
  | nil =>
    cases h
    refine ⟨rfl, by simp, ?_⟩
    intro n r
    simp [allNamed]
  | cons zip zips ih =>
    obtain ⟨es, read, h⟩ := exceptBind h
    obtain ⟨m₁, added, h⟩ := exceptBind h
    obtain ⟨⟨rest, m₂⟩, later, h⟩ := exceptBind h
    cases h
    obtain ⟨tail, ok, holds⟩ := ih later
    have own := parsedOk read
    refine ⟨by rw [List.map_cons, own, tail], ?_, (addPatchEntriesHolds added).trans holds⟩
    intro z mem
    rcases List.mem_cons.mp mem with rfl | mem
    · rw [own, read]
    · exact ok z mem

section
variable {disk : Disk}

theorem entriesAt {i j : Nat} {es : List ZipEntry} {e : ZipEntry} (archive : (archiveEntries disk)[i]? = some es)
    (here : es[j]? = some e) : entries disk (i, j) = { e with mUserData1 := i } := by
  simp only [entries, heapOf, List.getD_eq_getElem?_getD, archive, Option.getD_some, here]

theorem patchArchive {k : Nat} {es : List ZipEntry} (here : (patchEntries disk)[k]? = some es) :
    (archiveEntries disk)[2 + k]? = some es := by
  rw [archiveEntries, Nat.add_comm]
  simpa using here

theorem memPatchRefs {n : Bytes} {r : EntryRef} :
    (n, r) ∈ allNamed 2 (patchEntries disk) ↔ r ∈ patchRefs disk ∧ nameOf disk r = n := by
  rw [memAllNamed, patchRefs, memRefsFrom]
  constructor
  · rintro ⟨a, es, k, e, there, here, rfl, rfl⟩
    refine ⟨⟨a, es, there, rfl, (List.getElem?_eq_some_iff.mp here).1⟩, ?_⟩
    rw [nameOf, entriesAt (patchArchive there) here]
    rfl
  · rintro ⟨⟨a, es, there, own, low⟩, named⟩
    have here := List.getElem?_eq_getElem low
    obtain ⟨i, j⟩ := r
    simp only at own here
    subst own
    refine ⟨a, es, j, _, there, here, rfl, ?_⟩
    rw [← named, nameOf, entriesAt (patchArchive there) here]
    rfl

theorem lookupReplacement {m : Filename2Entry}
    (holds : Holds (removedNames disk) [] (allNamed 2 (patchEntries disk)) m) (n : Bytes) :
    m.lookup n = replacement disk n ∧
      ∀ r, replacement disk n = some r ↔ r ∈ patchRefs disk ∧ nameOf disk r = n ∧ n ∉ removedNames disk := by
  have meaning : ∀ r, m.lookup n = some r ↔ r ∈ patchRefs disk ∧ nameOf disk r = n ∧ n ∉ removedNames disk := by
    intro r
    rw [holds n r, memPatchRefs, List.lookup_nil, and_assoc]
    simp
  have same : m.lookup n = replacement disk n := by
    cases found : replacement disk n with
    | none =>
      cases held : m.lookup n with
      | none => rfl
      | some r =>
        obtain ⟨mem, named, kept⟩ := (meaning r).mp held
        have bad := List.find?_eq_none.mp found r mem
        simp [named, kept] at bad
    | some r =>
      have good := List.find?_some found
      have mem := List.mem_of_find?_eq_some found
      exact (meaning r).mpr ⟨mem, by simpa using good⟩
  exact ⟨same, fun r => same ▸ meaning r⟩

end

theorem emitMarks {r : EntryRef} {s s' : Loop} (h : emit r s = .ok s') (t : EntryRef) :
    (s'.heap t).mUserData2 = (s.heap t).mUserData2 := by
  obtain ⟨e', b', added, rfl⟩ := emitCases h
  obtain ⟨⟨_, _, two⟩, _⟩ := addEntryKeeps added
  by_cases own : t = r
  · subst t
    simp only [Function.update_self, ZipEntry.setLFHOffset, two]
  · simp only [Function.update_of_ne own]

theorem markMarks (r t : EntryRef) (s : Loop) :
    ((mark r s).heap t).mUserData2 = if t = r then 1 else (s.heap t).mUserData2 := by
  by_cases own : t = r
  · subst t
    simp only [mark, Function.update_self, if_true]
  · simp only [mark, Function.update_of_ne own, if_neg own]

theorem emitPatchesRun {rs : List EntryRef} {s s' : Loop} (h : emitPatches rs s = .ok s') :
    Emits (rs.filter (fun r => (s.heap r).mUserData2 = 0)) s s' := by
  induction rs generalizing s with
  | nil =>
    cases h
    exact .nil _
  | cons r rs ih =>
    unfold emitPatches at h
    by_cases marked : (s.heap r).mUserData2 = 0
    · rw [if_neg (fun other => other marked)] at h
      obtain ⟨next, step, h⟩ := exceptBind h
      have rest := ih h
      simp only [emitMarks step] at rest
      rw [List.filter_cons_of_pos (by simpa using marked)]
      exact .cons (.inl rfl) step rest
    · rw [if_pos marked] at h
      rw [List.filter_cons_of_neg (by simpa using marked)]
      exact ih h

theorem emitApkRun {removed : List Bytes} {m : Filename2Entry} {rs : List EntryRef} {s s' : Loop}
    (h : emitApk removed m rs s = .ok s') (name : EntryRef → Bytes) (named : ∀ r, fileName (s.heap r) = name r) :
    Emits (rs.filterMap (fun r => if name r ∈ removed then none else some ((m.lookup (name r)).getD r))) s s' ∧
      ∀ t, (s'.heap t).mUserData2 = 0 ↔ (s.heap t).mUserData2 = 0 ∧
        t ∉ rs.filterMap (fun r => if name r ∈ removed then none else some ((m.lookup (name r)).getD r)) := by
  induction rs generalizing s with
  | nil =>
    cases h
    exact ⟨.nil _, fun t => by simp⟩
  | cons r rs ih =>
    obtain ⟨filename, read, h⟩ := exceptBind h
    have own : filename = name r := by rw [← named r, fileName, read]
    subst own
    by_cases gone : name r ∈ removed
    · rw [if_pos gone] at h
      rw [List.filterMap_cons_none (by rw [if_pos gone])]
      exact ih h named
    · rw [if_neg gone] at h
      obtain ⟨next, step, h⟩ := exceptBind h
      have single : Emits [(m.lookup (name r)).getD r] s next := .cons (.inr rfl) step (.nil next)
      have kept : ∀ t, fileName (next.heap t) = name t := by
        intro t
        rw [← named t, fileName, (emitsKeeps single).1 t, fileName]
      obtain ⟨run, marks⟩ := ih h kept
      rw [List.filterMap_cons_some (by rw [if_neg gone])]
      refine ⟨.cons (.inr rfl) step run, fun t => ?_⟩
      rw [marks t, emitMarks step t, markMarks, List.mem_cons, not_or]
      by_cases here : t = (m.lookup (name r)).getD r
      · simp [here]
      · simp [here]

def allFilesOf (patchDir sysApkFile : Bytes) (disk : Disk) : List Bytes :=
  sysApkFile :: snprintf512 (patchDir ++ text "/.entries_header.data") ::
    (disk.patches.map (fun p => snprintf512 (patchDir ++ text "/assets_bin_Data") ++ 0x2f :: p.1) ++
      [snprintf512 (patchDir ++ text "/.patch.data")])

def startLoop (disk : Disk) : Loop := ⟨entries disk, startBuild, []⟩

structure InitRun (patchDir sysApkFile : Bytes) (disk : Disk) (res : Result) : Prop where
  apk : parseApk disk.apk = .ok (apkEntries disk)
  patches : ∀ p ∈ disk.patches, parseApk p.2 = .ok (parsed p.2)
  replaced : ∀ n r, replacement disk n = some r ↔ r ∈ patchRefs disk ∧ nameOf disk r = n ∧ n ∉ removedNames disk
  run : ∃ s, Emits (order disk) (startLoop disk) s ∧ res = finish (allFilesOf patchDir sysApkFile disk) s

theorem parsedFiles {path : Option Bytes} {e : ZipEntry} (mem : e ∈ parsed path) : FileEntry (path.getD []) e := by
  rw [parsed] at mem
  cases read : parseApk path with
  | error stop => simp [read] at mem
  | ok es =>
    obtain ⟨raw, rfl, all⟩ := parseApkSource read
    rw [read] at mem
    exact all e mem

theorem entriesFresh (disk : Disk) (r : EntryRef) : (entries disk r).mUserData2 = 0 := by
  obtain ⟨i, j⟩ := r
  cases archive : (archiveEntries disk)[i]? with
  | none => simp only [entries, heapOf, List.getD_eq_getElem?_getD, archive]; rfl
  | some es =>
    cases here : es[j]? with
    | none => simp only [entries, heapOf, List.getD_eq_getElem?_getD, archive, Option.getD_some, here]; rfl
    | some e =>
      rw [entriesAt archive here]
      have mem := List.mem_of_getElem? here
      have from_ := List.mem_of_getElem? archive
      simp only [archiveEntries, apkEntries, patchEntries, List.mem_cons, List.mem_map] at from_
      rcases from_ with rfl | rfl | ⟨p, _, rfl⟩
      · exact (parsedFiles mem).fresh.2
      · simp at mem
      · exact (parsedFiles mem).fresh.2

theorem initRun {patchDir sysApkFile : Bytes} {disk : Disk} {res : Result}
    (h : init patchDir sysApkFile disk = .ok res) : InitRun patchDir sysApkFile disk res := by
  unfold init at h
  dsimp only at h
  split at h
  · cases h
  split at h
  · cases h
  obtain ⟨⟨ess, m⟩, patches, h⟩ := exceptBind h
  obtain ⟨es, apk, h⟩ := exceptBind h
  obtain ⟨s₁, first, h⟩ := exceptBind h
  obtain ⟨s₂, second, h⟩ := exceptBind h
  split at h
  · cases h
  cases h
  obtain ⟨same, ok, holds⟩ := parsePatchesHolds patches
  have own := parsedOk apk
  rw [List.map_map] at same
  have patchesSame : ess = patchEntries disk := same
  have apkSame : es = apkEntries disk := own.symm
  subst patchesSame apkSame
  have replaced := fun n => lookupReplacement holds n
  obtain ⟨run, marks⟩ := emitApkRun first (nameOf disk) (fun _ => rfl)
  simp only [(replaced _).1] at run marks
  have rest := emitPatchesRun second
  have filtered : (refsFrom 1 ([] :: patchEntries disk)).filter (fun r => (s₁.heap r).mUserData2 = 0) =
      patchOrder disk := by
    refine List.filter_congr fun r _ => ?_
    have fresh := entriesFresh disk r
    simp only [marks r, decide_eq_decide]
    exact ⟨And.right, fun absent => ⟨fresh, absent⟩⟩
  rw [filtered] at rest
  exact ⟨apk, fun p mem => ok _ (List.mem_map_of_mem mem), fun n => (replaced n).2, s₂, emitsAppend run rest, rfl⟩

end Bootstrap.ShadowZip
