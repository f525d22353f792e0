import Bootstrap.ParseSafety
import Bootstrap.EmissionPlan

/-! What decides whether init succeeds: that the archives parse and that no two patch entries share
a name. The loops that build the table always come to their end. -/
namespace Bootstrap.ShadowZip
open CInt ByteLayout Zip ParseApk SerialUtils Tiling

def Named (disk : Disk) : Prop := ∀ raw, some raw ∈ archivePaths disk → ¬ MeetsNameless raw

theorem parseFails {path : Option Bytes} (named : ∀ raw, path = some raw → ¬ MeetsNameless raw) :
    OnlyFails (parseApk path) := by
  intro stop h
  cases path with
  | none =>
    cases h
    rfl
  | some raw =>
    by_contra other
    exact named raw rfl (faultsNameless h other)

theorem parsedNames {disk : Disk} (parse : ∀ path ∈ archivePaths disk, (parseApk path).toOption.isSome) : Named disk := by
  intro raw mem meets
  have ok := parse (some raw) mem
  rw [namelessFaults meets] at ok
  cases ok

theorem parsedNamed (path : Option Bytes) : ∀ e ∈ parsed path, e.getFileName = .ok (fileName e) := by
  intro e mem
  obtain ⟨filename, named, _⟩ := (parsedFiles mem).name
  exact fileNameOk named

/-! filename_2_entry: an archive fits into it when its names are new. -/

def keptNames (removed : List Bytes) (es : List ZipEntry) : List Bytes := (es.map fileName).filter (· ∉ removed)

theorem keptNamesGone {removed : List Bytes} {e : ZipEntry} (gone : fileName e ∈ removed) (es : List ZipEntry) :
    keptNames removed (e :: es) = keptNames removed es := by
  rw [keptNames, List.map_cons, List.filter_cons_of_neg (by simpa using gone), keptNames]

theorem keptNamesKept {removed : List Bytes} {e : ZipEntry} (kept : fileName e ∉ removed) (es : List ZipEntry) :
    keptNames removed (e :: es) = fileName e :: keptNames removed es := by
  rw [keptNames, List.map_cons, List.filter_cons_of_pos (by simpa using kept), keptNames]

def NewTo (m : Filename2Entry) (names : List Bytes) : Prop := names.Nodup ∧ ∀ n ∈ names, m.lookup n = none

theorem newToEmpty (names : List Bytes) : NewTo [] names ↔ names.Nodup :=
  ⟨And.left, fun once => ⟨once, fun _ _ => List.lookup_nil⟩⟩

theorem newToCons {m : Filename2Entry} {k : Bytes} {r : EntryRef} {names : List Bytes} :
    NewTo ((k, r) :: m) names ↔ k ∉ names ∧ NewTo m names := by
  constructor
  · rintro ⟨once, new⟩
    refine ⟨fun mem => ?_, once, fun n mem => ?_⟩
    · have bad := new _ mem
      rw [lookupCons, if_pos rfl] at bad
      cases bad
    · have absent := new n mem
      rw [lookupCons] at absent
      split at absent
      · cases absent
      · exact absent
  · rintro ⟨fresh, once, new⟩
    refine ⟨once, fun n mem => ?_⟩
    rw [lookupCons, if_neg (fun own : n = k => fresh (own ▸ mem))]
    exact new n mem

def KeysKept (removed : List Bytes) (m : Filename2Entry) : Prop := ∀ n r, m.lookup n = some r → n ∉ removed

theorem KeysKept.cons {removed : List Bytes} {m : Filename2Entry} {k : Bytes} (keys : KeysKept removed m)
    (kept : k ∉ removed) (r : EntryRef) : KeysKept removed ((k, r) :: m) := by
  intro n t found
  rw [lookupCons] at found
  by_cases own : n = k
  · exact own ▸ kept
  · rw [if_neg own] at found
    exact keys n t found

theorem addPatchEntriesOutcome {removed : List Bytes} {i j : Nat} {es : List ZipEntry} {m : Filename2Entry}
    (names : ∀ e ∈ es, e.getFileName = .ok (fileName e)) (keys : KeysKept removed m) :
    OnlyFails (addPatchEntries removed i j es m) ∧
      ((∃ m', addPatchEntries removed i j es m = .ok m') ↔ NewTo m (keptNames removed es)) := by
  induction es generalizing j m with
  | nil => exact ⟨okFails _, fun _ => ⟨List.nodup_nil, by simp [keptNames]⟩, fun _ => ⟨m, rfl⟩⟩
  | cons e es ih =>
    have later : ∀ f ∈ es, f.getFileName = .ok (fileName f) := fun f mem => names f (List.mem_cons_of_mem _ mem)
    rw [addPatchEntries, exceptOk (names e List.mem_cons_self)]
    cases held : m.lookup (fileName e) with
    | some r =>
      -- a name that is to be removed is never a key, so the duplicate test comes first without harm
      rw [if_pos (Option.isSome_some), keptNamesKept (keys _ r held)]
      refine ⟨failedFails, (fun bad => by cases bad.choose_spec), fun new => ?_⟩
      have absent := new.2 _ List.mem_cons_self
      rw [held] at absent
      cases absent
    | none =>
      rw [if_neg (by decide)]
      by_cases gone : fileName e ∈ removed
      · rw [if_pos gone, keptNamesGone gone]
        exact ih later keys
      · rw [if_neg gone, keptNamesKept gone]
        obtain ⟨fails, outcome⟩ := ih (j := j + 1) later (keys.cons gone (i, j))
        refine ⟨fails, outcome.trans (newToCons.trans ?_)⟩
        unfold NewTo
        rw [List.nodup_cons, List.forall_mem_cons]
        exact ⟨fun ⟨fresh, once, new⟩ => ⟨⟨fresh, once⟩, held, new⟩, fun ⟨⟨fresh, once⟩, _, new⟩ => ⟨fresh, once, new⟩⟩

theorem memKeptNames {removed : List Bytes} {i : Nat} {es : List ZipEntry} {n : Bytes} :
    n ∈ keptNames removed es ↔ ∃ r, (n, r) ∈ namedFrom i 0 es ∧ n ∉ removed := by
  rw [keptNames, List.mem_filter, List.mem_map]
  constructor
  · rintro ⟨⟨e, mem, rfl⟩, kept⟩
    obtain ⟨k, here⟩ := List.getElem?_of_mem mem
    exact ⟨(i, 0 + k), memNamed.mpr ⟨k, e, here, rfl, rfl⟩, by simpa using kept⟩
  · rintro ⟨r, mem, kept⟩
    obtain ⟨k, e, here, _, rfl⟩ := memNamed.mp mem
    exact ⟨⟨e, List.mem_of_getElem? here, rfl⟩, by simpa using kept⟩

theorem Holds.absent {removed : List Bytes} {i : Nat} {es : List ZipEntry} {m m' : Filename2Entry}
    (holds : Holds removed m (namedFrom i 0 es) m') (n : Bytes) :
    m'.lookup n = none ↔ m.lookup n = none ∧ n ∉ keptNames removed es := by
  rw [Option.eq_none_iff_forall_ne_some, Option.eq_none_iff_forall_ne_some, memKeptNames (i := i)]
  constructor
  · intro none
    exact ⟨fun r old => none r ((holds n r).mpr (.inl old)), fun ⟨r, new⟩ => none r ((holds n r).mpr (.inr new))⟩
  · rintro ⟨old, new⟩ r found
    rcases (holds n r).mp found with before | after
    · exact old r before
    · exact new ⟨r, after⟩

theorem Holds.keys {removed : List Bytes} {named : List (Bytes × EntryRef)} {m m' : Filename2Entry}
    (holds : Holds removed m named m') (keys : KeysKept removed m) : KeysKept removed m' := by
  intro n r found
  rcases (holds n r).mp found with before | after
  · exact keys n r before
  · exact after.2

theorem newToAppend {removed : List Bytes} {i : Nat} {es : List ZipEntry} {m m' : Filename2Entry}
    (holds : Holds removed m (namedFrom i 0 es) m') (new : NewTo m (keptNames removed es)) (names : List Bytes) :
    NewTo m (keptNames removed es ++ names) ↔ NewTo m' names := by
  unfold NewTo at new ⊢
  simp only [holds.absent]
  rw [List.nodup_append', List.forall_mem_append, List.disjoint_right]
  constructor
  · rintro ⟨⟨_, once, apart⟩, _, absent⟩
    exact ⟨once, fun n mem => ⟨absent n mem, apart mem⟩⟩
  · rintro ⟨once, absent⟩
    exact ⟨⟨new.1, once, fun n mem => (absent n mem).2⟩, new.2, fun n mem => (absent n mem).1⟩

def allKept (removed : List Bytes) (zips : List (Option Bytes)) : List Bytes :=
  zips.flatMap (fun zip => keptNames removed (parsed zip))

theorem parsePatchesOutcome (removed : List Bytes) {i : Nat} {zips : List (Option Bytes)} {m : Filename2Entry}
    (fails : ∀ zip ∈ zips, OnlyFails (parseApk zip)) (keys : KeysKept removed m) :
    OnlyFails (parsePatches removed i zips m) ∧ ((∃ p, parsePatches removed i zips m = .ok p) ↔
      (∀ zip ∈ zips, parseApk zip = .ok (parsed zip)) ∧ NewTo m (allKept removed zips)) := by
  induction zips generalizing i m with
  | nil => exact ⟨okFails _, fun _ => ⟨by simp, List.nodup_nil, by simp [allKept]⟩, fun _ => ⟨_, rfl⟩⟩
  | cons zip zips ih =>
    have all : allKept removed (zip :: zips) = keptNames removed (parsed zip) ++ allKept removed zips := by
      rw [allKept, List.flatMap_cons, allKept]
    rw [parsePatches]
    cases read : parseApk zip with
    | error stop =>
      have failed : stop = .failed := fails zip List.mem_cons_self stop read
      refine ⟨failed ▸ failedFails, ?_, fun good => ?_⟩
      · rintro ⟨p, bad⟩
        cases bad
      · have ok := good.1 zip List.mem_cons_self
        rw [read] at ok
        cases ok
    | ok es =>
      have own : parsed zip = es := parsedOk read
      obtain ⟨onlyFails, added⟩ := addPatchEntriesOutcome (i := i) (j := 0) (own ▸ parsedNamed zip) keys
      rw [exceptOk (rfl : (.ok es : Except Stop (List ZipEntry)) = .ok es), all, own]
      cases step : addPatchEntries removed i 0 es m with
      | error stop =>
        have failed : stop = .failed := onlyFails stop step
        refine ⟨failed ▸ failedFails, ?_, fun good => ?_⟩
        · rintro ⟨p, bad⟩
          cases bad
        · have new : NewTo m (keptNames removed es) :=
            ⟨(List.nodup_append.mp good.2.1).1, fun n mem => good.2.2 n (List.mem_append_left _ mem)⟩
          obtain ⟨m', ok⟩ := added.mpr new
          rw [step] at ok
          cases ok
      | ok m₁ =>
        have new := added.mp ⟨m₁, step⟩
        have holds := addPatchEntriesHolds step
        obtain ⟨later, outcome⟩ := ih (i := i + 1) (fun z mem => fails z (List.mem_cons_of_mem _ mem)) (holds.keys keys)
        rw [exceptOk (rfl : (.ok m₁ : Except Stop Filename2Entry) = .ok m₁)]
        refine ⟨bindFails later fun _ => okFails _, ?_⟩
        have tail : (∃ p, (parsePatches removed (i + 1) zips m₁ >>= fun q => pure (es :: q.1, q.2)) = .ok p) ↔
            ∃ p, parsePatches removed (i + 1) zips m₁ = .ok p := by
          constructor
          · rintro ⟨p, ok⟩
            obtain ⟨q, rest, _⟩ := exceptBind ok
            exact ⟨q, rest⟩
          · rintro ⟨q, rest⟩
            exact ⟨_, exceptOk rest _⟩
        rw [List.forall_mem_cons, newToAppend holds new]
        refine tail.trans (outcome.trans (and_congr_left fun _ => ?_))
        exact ⟨fun parses => ⟨own ▸ read, parses⟩, And.right⟩

theorem addEntryBegun {e e' : ZipEntry} {b b' : Build} (h : addEntryToPartition e b = .ok (e', b')) : Begun b' := by
  intro empty
  have pushed : ∀ {ps qs : List FilePartitionInfo}, qs ≠ [] → b'.patchPartitions ≠ ps ++ qs := fun some table =>
    List.append_ne_nil_of_right_ne_nil _ some (table.symm.trans empty)
  obtain ⟨_, _, way⟩ := addEntryWay h
  cases way with
  | kept _ _ p table => exact table.elim (absurd · (pushed (List.cons_ne_nil _ _))) (absurd · (pushed (List.cons_ne_nil _ _)))
  | padded _ _ _ p q table => exact absurd table (pushed (List.cons_ne_nil _ _))

def HasName (heap : Heap) (r : EntryRef) : Prop := ∃ filename, (heap r).getFileName = .ok filename

theorem emitOk {r : EntryRef} {s marked : Loop} (before : marked = s ∨ marked = mark r s) (begun : Begun s.build)
    (named : HasName s.heap r) : ∃ next, emit r marked = .ok next ∧ Begun next.build ∧
      ∀ t, (next.heap t).getFileName = (s.heap t).getFileName := by
  obtain ⟨filename, name⟩ := named
  obtain ⟨same, _, build, _⟩ := markedSame before
  have own : (marked.heap r).getFileName = .ok filename := by
    rw [← name, ZipEntry.getFileName, (same r).mCDE, ZipEntry.getFileName]
  obtain ⟨e', b', added⟩ := addEntryOk (b := marked.build) (build ▸ begun) own
  have step : emit r marked = .ok ⟨Function.update marked.heap r (e'.setLFHOffset (i64 marked.build.preShadowStop)), b',
      marked.allEntries ++ [r]⟩ := by
    rw [emit, exceptOk added]
    rfl
  exact ⟨_, step, addEntryBegun added, (emitsKeeps (.cons before step (.nil _))).1⟩

theorem emitApkOk (removed : List Bytes) {m : Filename2Entry} {rs : List EntryRef} {s : Loop} (begun : Begun s.build)
    (known : ∀ r ∈ rs, HasName s.heap r) (values : ∀ n r, m.lookup n = some r → HasName s.heap r) :
    ∃ s', emitApk removed m rs s = .ok s' ∧ Begun s'.build ∧ ∀ t, (s'.heap t).getFileName = (s.heap t).getFileName := by
  induction rs generalizing s with
  | nil => exact ⟨s, rfl, begun, fun _ => rfl⟩
  | cons r rs ih =>
    have later : ∀ t ∈ rs, HasName s.heap t := fun t mem => known t (List.mem_cons_of_mem _ mem)
    obtain ⟨filename, name⟩ := known r List.mem_cons_self
    rw [emitApk, exceptOk name]
    by_cases gone : filename ∈ removed
    · rw [if_pos gone]
      exact ih begun later values
    · rw [if_neg gone]
      have own : HasName s.heap ((m.lookup filename).getD r) := by
        cases found : m.lookup filename with
        | none => exact ⟨filename, name⟩
        | some t => exact values filename t found
      obtain ⟨next, step, begunNext, names⟩ := emitOk (.inr rfl) begun own
      have kept : ∀ t, HasName s.heap t → HasName next.heap t := fun t => by
        unfold HasName
        rw [names t]
        exact id
      obtain ⟨last, run, begunLast, namesLast⟩ := ih begunNext (fun t mem => kept t (later t mem))
        (fun n t found => kept t (values n t found))
      dsimp only
      rw [exceptOk step]
      exact ⟨last, run, begunLast, fun t => (namesLast t).trans (names t)⟩

theorem emitPatchesOk {rs : List EntryRef} {s : Loop} (begun : Begun s.build) (known : ∀ r ∈ rs, HasName s.heap r) :
    ∃ s', emitPatches rs s = .ok s' := by
  induction rs generalizing s with
  | nil => exact ⟨s, rfl⟩
  | cons r rs ih =>
    have later : ∀ t ∈ rs, HasName s.heap t := fun t mem => known t (List.mem_cons_of_mem _ mem)
    rw [emitPatches]
    split
    · exact ih begun later
    · obtain ⟨next, step, begunNext, names⟩ := emitOk (.inl rfl) begun (known r List.mem_cons_self)
      obtain ⟨last, run⟩ := ih begunNext fun t mem => by
        unfold HasName
        rw [names t]
        exact later t mem
      rw [exceptOk step]
      exact ⟨last, run⟩

theorem knownNamed {disk : Disk} {r : EntryRef} (mem : r ∈ apkRefs disk ∨ r ∈ patchRefs disk) :
    HasName (entries disk) r := by
  obtain ⟨path, _, e, own, same, _, _⟩ := entryOf mem
  refine ⟨fileName e, ?_⟩
  rw [same]
  exact parsedNamed path e own

def Mergeable (disk : Disk) : Prop := parseApk disk.apk = .ok (apkEntries disk) ∧
  (∀ p ∈ disk.patches, parseApk p.2 = .ok (parsed p.2)) ∧
  (allKept (removedNames disk) (disk.patches.map Prod.snd)).Nodup

instance (disk) : Decidable (Mergeable disk) := by unfold Mergeable; infer_instance

def outcome (disk : Disk) : Except Stop Unit :=
  if !disk.headerOpens then .error .faulted
  else if disk.patches = [] then .error .failed
  else if ¬ Mergeable disk then .error .failed
  else if !disk.endOpens then .error .faulted
  else .ok ()

theorem failedOutcome {α β γ : Type} {x : Except Stop α} {f : α → Except Stop β} {g : β → γ} (fails : OnlyFails x)
    (never : ¬ ∃ a, x = .ok a) : (x >>= f).map g = .error .failed := by
  cases x with
  | ok a => exact absurd ⟨a, rfl⟩ never
  | error stop =>
    rw [fails stop rfl]
    rfl

theorem loopsEnd {disk : Disk} {m : Filename2Entry}
    (holds : Holds (removedNames disk) [] (allNamed 2 (patchEntries disk)) m) :
    ∃ s₁ s₂, emitApk (removedNames disk) m (apkRefs disk) (startLoop disk) = .ok s₁ ∧
      emitPatches (patchRefs disk) s₁ = .ok s₂ := by
  have begun : Begun (startLoop disk).build := fun _ => rfl
  have values : ∀ n r, m.lookup n = some r → HasName (entries disk) r := by
    intro n r found
    obtain ⟨same, meaning⟩ := lookupReplacement holds n
    exact knownNamed (.inr ((meaning r).mp (same ▸ found)).1)
  obtain ⟨s₁, first, begun₁, names⟩ := emitApkOk (removedNames disk) begun
    (fun r mem => knownNamed (.inl mem : r ∈ apkRefs disk ∨ r ∈ patchRefs disk)) values
  have known : ∀ r ∈ patchRefs disk, HasName s₁.heap r := fun r mem => by
    unfold HasName
    rw [names r]
    exact knownNamed (.inr mem)
  obtain ⟨s₂, second⟩ := emitPatchesOk begun₁ known
  exact ⟨s₁, s₂, first, second⟩

/-- What init returns is decided before the first entry is emitted, but for the last file it opens. -/
theorem initOutcome {disk : Disk} (named : Named disk) (patchDir sysApkFile : Bytes) :
    (init patchDir sysApkFile disk).map (fun _ => ()) = outcome disk := by
  have apkFails : OnlyFails (parseApk disk.apk) :=
    parseFails fun raw own => named raw (own ▸ List.mem_cons_self)
  have patchesFail : ∀ zip ∈ disk.patches.map Prod.snd, OnlyFails (parseApk zip) := fun zip mem =>
    parseFails fun raw own => named raw (own ▸ List.mem_cons_of_mem _ mem)
  obtain ⟨fails, parses⟩ := parsePatchesOutcome (removedNames disk) (i := 2) (m := []) patchesFail
    (fun n r found => by cases found)
  rw [newToEmpty, List.forall_mem_map] at parses
  unfold init outcome
  dsimp only
  by_cases header : (!disk.headerOpens) = true
  · rw [if_pos header, if_pos header]
    rfl
  rw [if_neg header, if_neg header]
  by_cases none : disk.patches = []
  · rw [if_pos none, if_pos (List.map_eq_nil_iff.mpr none)]
    rfl
  rw [if_neg none, if_neg (fun empty => none (List.map_eq_nil_iff.mp empty))]
  by_cases patches : ∃ p, parsePatches (removedNames disk) 2 (disk.patches.map Prod.snd) [] = .ok p
  · obtain ⟨⟨ess, m⟩, patches⟩ := patches
    obtain ⟨same, _, holds⟩ := parsePatchesHolds patches
    obtain ⟨each, once⟩ := parses.mp ⟨_, patches⟩
    rw [List.map_map] at same
    have patchesSame : ess = patchEntries disk := same
    subst patchesSame
    rw [removedNames] at patches
    rw [exceptOk patches]
    dsimp only
    by_cases apk : ∃ es, parseApk disk.apk = .ok es
    · obtain ⟨es, apk⟩ := apk
      have own : es = apkEntries disk := (parsedOk apk).symm
      subst own
      rw [exceptOk apk, if_neg (not_not.mpr ⟨apk, each, once⟩)]
      obtain ⟨s₁, s₂, first, second⟩ := loopsEnd holds
      have emitted : emitApk (readRemovedFiles disk.removedFiles) m (refs 0 (apkEntries disk))
          ⟨heapOf (apkEntries disk :: [] :: patchEntries disk), startBuild, []⟩ = .ok s₁ := first
      have added : emitPatches (refsFrom 1 ([] :: patchEntries disk)) s₁ = .ok s₂ := second
      rw [exceptOk emitted, exceptOk added]
      by_cases last : (!disk.endOpens) = true
      · rw [if_pos last, if_pos last]
        rfl
      · rw [if_neg last, if_neg last]
        rfl
    · rw [if_pos (fun merge => apk ⟨_, merge.1⟩)]
      exact failedOutcome apkFails apk
  · rw [if_pos (fun merge => patches (parses.mpr ⟨merge.2.1, merge.2.2⟩))]
    exact failedOutcome fails patches

theorem initAccepted {disk : Disk} (named : Named disk) (ready : outcome disk = .ok ()) (patchDir sysApkFile : Bytes) :
    ∃ res, init patchDir sysApkFile disk = .ok res := by
  have same := initOutcome named patchDir sysApkFile
  rw [ready] at same
  cases accepted : init patchDir sysApkFile disk with
  | ok res => exact ⟨res, rfl⟩
  | error stop =>
    rw [accepted] at same
    cases same

theorem initTaken {disk : Disk} {patchDir sysApkFile : Bytes} :
    (∃ res, init patchDir sysApkFile disk = .ok res) ↔ outcome disk = .ok () := by
  have parses : ∀ {path : Option Bytes} {es : List ZipEntry}, parseApk path = .ok es → (parseApk path).toOption.isSome := by
    intro path es parsed
    rw [parsed]
    rfl
  constructor
  · rintro ⟨res, accepted⟩
    have run := initRun accepted
    have named : Named disk := parsedNames fun path mem => by
      rcases List.mem_cons.mp mem with rfl | mem
      · exact parses run.apk
      · obtain ⟨p, known, rfl⟩ := List.mem_map.mp mem
        exact parses (run.patches p known)
    rw [← initOutcome named patchDir sysApkFile, accepted]
    rfl
  · intro ready
    have merge : Mergeable disk := by
      by_contra other
      unfold outcome at ready
      rw [if_pos other] at ready
      split at ready
      · cases ready
      · split at ready <;> cases ready
    refine initAccepted (parsedNames fun path mem => ?_) ready patchDir sysApkFile
    rcases List.mem_cons.mp mem with rfl | mem
    · exact parses merge.1
    · obtain ⟨p, known, rfl⟩ := List.mem_map.mp mem
      exact parses (merge.2.1 p known)

/-! What does not depend on the order in which the archives are listed. -/

structure Relisted (disk other : Disk) : Prop where
  apk : disk.apk = other.apk
  patches : disk.patches.Perm other.patches
  removedFiles : disk.removedFiles = other.removedFiles
  headerOpens : disk.headerOpens = other.headerOpens
  endOpens : disk.endOpens = other.endOpens

section
variable {disk other : Disk} (relisted : Relisted disk other)
include relisted

theorem Relisted.removed : removedNames disk = removedNames other := by
  rw [removedNames, removedNames, relisted.removedFiles]

theorem Relisted.paths {path : Option Bytes} : path ∈ archivePaths disk ↔ path ∈ archivePaths other := by
  rw [archivePaths, archivePaths, relisted.apk, List.mem_cons, List.mem_cons, (relisted.patches.map Prod.snd).mem_iff]

theorem Relisted.named (named : Named disk) : Named other := fun raw mem => named raw (relisted.paths.mpr mem)

theorem Relisted.mergeable : Mergeable disk ↔ Mergeable other := by
  have names : (allKept (removedNames disk) (disk.patches.map Prod.snd)).Perm
      (allKept (removedNames other) (other.patches.map Prod.snd)) := by
    rw [relisted.removed]
    exact (relisted.patches.map Prod.snd).flatMap_right _
  unfold Mergeable
  rw [apkEntries, apkEntries, relisted.apk, names.nodup_iff]
  refine and_congr_right fun _ => and_congr_left fun _ => forall_congr' fun p => ?_
  rw [relisted.patches.mem_iff]

theorem Relisted.outcome : outcome disk = outcome other := by
  have empty : disk.patches = [] ↔ other.patches = [] := by
    rw [← List.length_eq_zero_iff, ← List.length_eq_zero_iff, relisted.patches.length_eq]
  unfold ShadowZip.outcome
  simp only [relisted.headerOpens, relisted.endOpens, empty, relisted.mergeable]

end

end Bootstrap.ShadowZip
