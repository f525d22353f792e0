import Bootstrap.ActivationFiles
import Bootstrap.LastActivation

/-! What a call of use_data_dir does to the configuration that the next start would use, at
every point at which it can stop. -/
namespace Bootstrap.UseDataDir
open CInt ByteLayout Zip ShadowZip UserDb FileStore

/- A library of the data directory, whose path the buffers hold also while it is staged. -/
def isLibrary (dataDir name : Bytes) : Bool :=
  (text ".so").isSuffixOf name && decide (IsName name) && decide ((join dataDir (name ++ newSoPostfix)).length ≤ 255)

def installed (dataDir : Bytes) (s : Files) (name : Bytes) : Option Bytes :=
  match s (inDataDir dataDir (name ++ newSoPostfix)) with
  | some content => some content
  | none => s (inDataDir dataDir name)

structure Configuration where
  record : Record
  contents : List (Option Bytes)
  libraries : Bytes → Option Bytes

def configured (dataDir : Bytes) (s : Files) (record : Record) : Configuration :=
  ⟨record, record.allFiles.map s, fun name => if isLibrary dataDir name then installed dataDir s name else none⟩

def effective (dataDir : Bytes) (s : Files) : Option Configuration :=
  match s (userDbPath dataDir) with
  | none => none
  | some content =>
    match unserialUserDb content with
    | .error _ => none
    | .ok (record, _) => some (configured dataDir s record)

def InForce (dataDir : Bytes) (s : Files) : Prop := (effective dataDir s).isSome
instance (dataDir s) : Decidable (InForce dataDir s) := by unfold InForce; infer_instance

def asked (dataDir : Bytes) (call : Call) (s : Files) (res : Result) : Configuration where
  record := recordOf call res
  contents := (filesAfter (diskOf call s) res).map some
  libraries := fun name =>
    if isLibrary dataDir name then
      if name ++ newSoPostfix ∈ shipped call then s (shippedPath call (name ++ newSoPostfix)) else installed dataDir s name
    else none

/-- Wherever the call stops, the old configuration is in force or the whole new one; after an error, the old one. -/
def AllOrNothing (dataDir : Bytes) (call : Call) (s : Files) : Prop :=
  ∀ k, effective dataDir (runs s ((useDataDir dataDir call s).1.take k)) = effective dataDir s ∨
    ∃ res, init call.dataPath call.apkPath (diskOf call s) = .ok res ∧
      (useDataDir dataDir call s).2 = .activated (recordOf call res) ∧
      effective dataDir (runs s ((useDataDir dataDir call s).1.take k)) = some (asked dataDir call s res)

instance (dataDir call s path) : Decidable (Touched dataDir call s path) := by unfold Touched; infer_instance

def Relevant (dataDir : Bytes) (s : Files) (path : Bytes) : Prop :=
  path = userDbPath dataDir ∨ (∃ config, effective dataDir s = some config ∧ path ∈ config.record.allFiles) ∨
    ∃ name, isLibrary dataDir name ∧ (path = inDataDir dataDir name ∨ path = inDataDir dataDir (name ++ newSoPostfix))

section
variable {dataDir : Bytes} {call : Call} {s : Files} {res : Result}

theorem effectiveNone {dataDir : Bytes} {s : Files} (absent : s (userDbPath dataDir) = none) :
    effective dataDir s = none := by rw [effective, absent]

theorem effectiveIdle {s' : Files} (idle : ¬ InForce dataDir s) (same : s' (userDbPath dataDir) = s (userDbPath dataDir)) :
    effective dataDir s' = effective dataDir s := by
  unfold InForce effective at *
  rw [same]
  cases content : s (userDbPath dataDir) with
  | none => rfl
  | some raw =>
    simp only [content] at idle
    dsimp only
    cases decoded : unserialUserDb raw with
    | error stop => rfl
    | ok p => simp [decoded] at idle

theorem effectiveSame {s' : Files} (same : ∀ path, Relevant dataDir s path → s' path = s path) :
    effective dataDir s' = effective dataDir s := by
  have userDb := same _ (.inl rfl)
  cases content : s (userDbPath dataDir) with
  | none => rw [effectiveNone content, effectiveNone (userDb.trans content)]
  | some raw =>
    cases decoded : unserialUserDb raw with
    | error stop => simp only [effective, userDb, content, decoded]
    | ok p =>
      have config : effective dataDir s = some (configured dataDir s p.1) := by simp only [effective, content, decoded]
      have files : p.1.allFiles.map s' = p.1.allFiles.map s :=
        List.map_congr_left fun path mem => same path (.inr (.inl ⟨_, config, mem⟩))
      have libraries : (fun name => if isLibrary dataDir name then installed dataDir s' name else none) =
          fun name => if isLibrary dataDir name then installed dataDir s name else none := by
        funext name
        by_cases library : isLibrary dataDir name
        · have kept := same _ (.inr (.inr ⟨name, library, .inl rfl⟩))
          have staged := same _ (.inr (.inr ⟨name, library, .inr rfl⟩))
          simp only [if_pos library, installed, kept, staged]
        · rw [if_neg library, if_neg library]
      rw [config]
      simp only [effective, userDb, content, decoded, configured, files, libraries]

theorem effectiveRead {content : Bytes} {record : Record} (fits : record.Fits) (serial : serialUserDb record = .ok content)
    (there : s (userDbPath dataDir) = some content) : effective dataDir s = some (configured dataDir s record) := by
  rw [serialImage fits] at serial
  cases serial
  have read := imageRead fits []
  rw [List.append_nil] at read
  simp only [effective, there, read]

/-! The merge reads the files as the call finds them, unless the call has written them before. -/

def mergeReads (call : Call) : List Bytes :=
  call.apkPath :: snprintf512 (call.dataPath ++ text "/removed_files.txt") :: call.patchNames.map (patchPath call)

theorem mergeDiskSame (reads : ∀ path ∈ mergeReads call, ¬ Touched dataDir call s path) :
    mergeDisk dataDir call s = diskOf call s := by
  have header : Within (Touched dataDir call s) [(.truncate (headerPath call) : FileOp)] :=
    withinCons (fun path mem => List.mem_singleton.mp mem ▸ .inr (.inl rfl)) (withinNil _)
  have same : ∀ path ∈ mergeReads call, runs (runs s (prepareSoLib dataDir call.dataPath call.schedules call.dirents s))
      [.truncate (headerPath call)] path = s path := fun path mem =>
    (runsOther header (reads path mem)).trans (runsOther libsWithin (reads path mem))
  simp only [mergeDisk, diskOf]
  rw [same _ List.mem_cons_self, same _ (List.mem_cons_of_mem _ List.mem_cons_self)]
  congr 1
  refine List.map_congr_left fun name mem => ?_
  rw [same (snprintf512 (call.dataPath ++ text "/assets_bin_Data") ++ 0x2f :: name)
    (List.mem_cons_of_mem _ (List.mem_cons_of_mem _ (List.mem_map_of_mem mem)))]

theorem mergedInit (reads : ∀ path ∈ mergeReads call, ¬ Touched dataDir call s path) {record : Record} :
    merged dataDir call s = some record ↔
      ∃ res, init call.dataPath call.apkPath (diskOf call s) = .ok res ∧ record = recordOf call res := by
  rw [← mergeDiskSame reads]
  unfold merged mergeDisk initOps
  generalize before : runs (runs s (prepareSoLib dataDir call.dataPath call.schedules call.dirents s))
    [.truncate (headerPath call)] = files
  by_cases opens : call.headerOpens = true
  · rw [if_neg (by simp [opens])]
    dsimp only
    cases result : init call.dataPath call.apkPath (diskOf call files) with
    | ok res => simp [before, result, eq_comm]
    | error stop => cases stop <;> simp [before, result]
  · have closed : ∀ res, init call.dataPath call.apkPath (diskOf call files) ≠ .ok res := by
      intro res accepted
      simp [init, diskOf, opens] at accepted
    simp [opens, closed]

/-- What a complete new configuration needs: every library that is shipped can be read, none is staged already, its
copy is whole, and no two of the names and paths are the same. -/
structure Complete (dataDir : Bytes) (call : Call) (s : Files) : Prop where
  apart : call.dataPath ≠ dataDir
  short : call.dataPath.length ≤ 255
  room : (join dataDir (text "user.db.tmp")).length ≤ 255
  once : (shipped call).Nodup
  staged : ∀ f ∈ shipped call, Installable dataDir f
  source : ∀ f ∈ shipped call, Installable call.dataPath f
  present : ∀ f ∈ shipped call, (s (join call.dataPath f)).isSome
  absent : ∀ f ∈ shipped call, s (join dataDir f) = none
  clear : ∀ f ∈ shipped call, (call.schedules f).Clear
  table : Apart dataDir call
  storable : Storable call (diskOf call s)

theorem libraryName {name : Bytes} (library : isLibrary dataDir name) :
    (text ".so").isSuffixOf name ∧ IsName name ∧ (join dataDir (name ++ newSoPostfix)).length ≤ 255 := by
  simp only [isLibrary, Bool.and_eq_true, decide_eq_true_eq] at library
  exact ⟨library.1.1, library.1.2, library.2⟩

theorem installedPlaced (clean : Clean dataDir s) {boot : Boot} (lists : Lists dataDir boot s) {name : Bytes}
    (library : isLibrary dataDir name) :
    runs s (preProcessAllSoLib dataDir boot.listing) (join dataDir name) = installed dataDir s name := by
  obtain ⟨suffix, plain, fits⟩ := libraryName library
  have installable := fun f mem => (listedInstallable clean lists f mem).1
  have new : hasPostfix (name ++ newSoPostfix) = true := newHasPostfix fun empty => absurd (empty ▸ suffix) (by decide)
  have listed := lists.all _ (newIsName plain) new
  have shorter := Nat.le_trans (joinShorter dataDir name) fits
  rw [preProcessed installable, installed, inDataDirWhole fits, inDataDirWhole shorter]
  cases staged : s (join dataDir (name ++ newSoPostfix)) with
  | some content =>
    have placed := (installsAll lists.once installable (listed.mpr (by rw [staged]; rfl)) staged).1
    rwa [soNameNew] at placed
  | none =>
    refine installsOther fun f mem => ⟨nameApart plain (installable f mem).name fun same => ?_,
      nameApart plain (soNameIsName (installable f mem).name) fun same => ?_⟩
    · exact soNotNew suffix (same ▸ (installable f mem).new)
    · have absent := listed.mp (by rw [same, postfixSplit (installable f mem).new]; exact mem)
      rw [staged] at absent
      cases absent

theorem askedLibrary (complete : Complete dataDir call s) {record : Record}
    (activates : (useDataDir dataDir call s).2 = .activated record) {name : Bytes} (library : isLibrary dataDir name) :
    installed dataDir (runs s (useDataDir dataDir call s).1) name =
      if name ++ newSoPostfix ∈ shipped call then s (shippedPath call (name ++ newSoPostfix)) else installed dataDir s name := by
  obtain ⟨suffix, plain, fits⟩ := libraryName library
  obtain ⟨rest, ops, within⟩ := callSplit activates
  have newPlain := newIsName plain
  have shorter := Nat.le_trans (joinShorter dataDir name) fits
  have after : ∀ other, IsName other → other ≠ text "user.db" → other ≠ text "user.db.tmp" →
      runs s (useDataDir dataDir call s).1 (join dataDir other) =
        runs s (stageAll dataDir call (shipped call) s) (join dataDir other) := by
    intro other isName db tmp
    rw [ops, runsAppend]
    exact runsOther within (afterApart complete.apart complete.short complete.room isName db tmp)
  have ends : ∀ other : Bytes, hasPostfix other = false → other ≠ name ++ newSoPostfix := by
    rintro other old rfl
    rw [newHasPostfix fun empty => absurd (empty ▸ suffix) (by decide)] at old
    cases old
  have staged := after (name ++ newSoPostfix) newPlain (ends _ (by decide)).symm (ends _ (by decide)).symm
  have placed := after name plain (fun same => absurd (same ▸ suffix) (by decide)) (fun same => absurd (same ▸ suffix) (by decide))
  -- an installed library is no name that the call writes
  have still : runs s (stageAll dataDir call (shipped call) s) (join dataDir name) = s (join dataDir name) := by
    refine stageOther complete.staged complete.source fun f mem => ?_
    rintro (same | same | same)
    · exact complete.apart (joinInjective plain (complete.source f mem).name same).1.symm
    · exact complete.apart (joinInjective plain (soNameIsName (complete.source f mem).name) same).1.symm
    · have own := (joinInjective plain (complete.staged f mem).name same).2
      have new := (complete.staged f mem).new
      rw [← own] at new
      exact soNotNew suffix new
  rw [installed, installed, inDataDirWhole fits, inDataDirWhole shorter, staged, placed, still]
  by_cases ships : name ++ newSoPostfix ∈ shipped call
  · have origin : ∀ f ∈ shipped call, s (join call.dataPath f) = some ((s (join call.dataPath f)).getD []) := by
      intro f mem
      obtain ⟨content, there⟩ := Option.isSome_iff_exists.mp (complete.present f mem)
      rw [there, Option.getD_some]
    have landed := stagesAll complete.apart complete.once complete.staged complete.source complete.clear origin
      complete.absent ships
    rw [if_pos ships, landed, shippedPathWhole (complete.source _ ships)]
    exact (origin _ ships).symm
  · have kept : runs s (stageAll dataDir call (shipped call) s) (join dataDir (name ++ newSoPostfix)) =
        s (join dataDir (name ++ newSoPostfix)) := by
      refine stageOther complete.staged complete.source fun f mem => ?_
      rintro (same | same | same)
      · exact complete.apart (joinInjective newPlain (complete.source f mem).name same).1.symm
      · exact complete.apart (joinInjective newPlain (soNameIsName (complete.source f mem).name) same).1.symm
      · exact ships ((joinInjective newPlain (complete.staged f mem).name same).2 ▸ mem)
    rw [if_neg ships, kept]

theorem contentsHeld {files : Files} {allFiles : List Bytes} {disk : Disk} (holds : Holds files allFiles disk res) :
    allFiles.map files = (filesAfter disk res).map some := by
  unfold Holds at holds
  generalize filesAfter disk res = contents at holds ⊢
  induction holds with
  | nil => rfl
  | cons here _ ih => rw [List.map_cons, List.map_cons, here, ih]

theorem activationAsked (complete : Complete dataDir call s) (reads : ∀ path ∈ mergeReads call, ¬ Touched dataDir call s path)
    (accepted : init call.dataPath call.apkPath (diskOf call s) = .ok res)
    (activates : (useDataDir dataDir call s).2 = .activated (recordOf call res)) :
    effective dataDir (runs s (useDataDir dataDir call s).1) = some (asked dataDir call s res) := by
  have fits := recordFits complete.storable accepted
  obtain ⟨res', merge, _, userDb, holds⟩ := activationFiles complete.table activates fits
  rw [mergeDiskSame reads] at merge holds
  obtain rfl := Except.ok.inj (merge.symm.trans accepted)
  have found : init call.dataPath call.apkPath (mergeDisk dataDir call s) = .ok res' := by rw [mergeDiskSame reads, accepted]
  have files : (recordOf call res').allFiles = tablePaths call := tableFiles found
  rw [effectiveRead fits (serialImage fits) userDb, configured, asked, files, contentsHeld holds]
  refine congrArg (fun libraries => some (Configuration.mk (recordOf call res') _ libraries)) ?_
  funext name
  by_cases library : isLibrary dataDir name
  · rw [if_pos library, if_pos library, askedLibrary complete activates library]
  · rw [if_neg library, if_neg library]

theorem apartAtomic (named : call.dataPath ≠ []) (stops : ∀ record, (useDataDir dataDir call s).2 ≠ .activated record)
    (apart : ∀ path, Touched dataDir call s path → ¬ Relevant dataDir s path) : AllOrNothing dataDir call s := by
  intro k
  rcases callCases dataDir s named with ⟨record, early, content, called, _⟩ | ⟨_, within⟩
  · exact absurd (by rw [called]) (stops record)
  · refine .inl (effectiveSame fun path relevant => runsOther (withinTake within k) ?_)
    exact fun touched => apart path touched relevant

theorem activationBreaks (named : call.dataPath ≠ []) (inForce : InForce dataDir s) {record : Record}
    (activates : (useDataDir dataDir call s).2 = .activated record) : ¬ AllOrNothing dataDir call s := by
  intro all
  rcases callCases dataDir s named with ⟨_, early, _, called, _⟩ | ⟨stops, _⟩
  · have state : runs s ((useDataDir dataDir call s).1.take (early.length + 1)) (userDbPath dataDir) = none := by
      rw [called, List.take_length_add_append, runsAppend]
      exact Function.update_self _ _ _
    obtain ⟨config, present⟩ := Option.isSome_iff_exists.mp inForce
    rcases all (early.length + 1) with old | ⟨_, _, _, new⟩
    · rw [effectiveNone state, present] at old
      cases old
    · rw [effectiveNone state] at new
      cases new
  · exact stops record activates

def Takes (call : Call) (s : Files) : Prop := outcome (diskOf call s) = .ok () ∧ call.tmpOpens = true

theorem activatedTakes (reads : ∀ path ∈ mergeReads call, ¬ Touched dataDir call s path) {record : Record}
    (activates : (useDataDir dataDir call s).2 = .activated record) : Takes call s ∧
      ∃ res, init call.dataPath call.apkPath (diskOf call s) = .ok res ∧ record = recordOf call res := by
  obtain ⟨merges, tmpOpens, _⟩ := activatedMerged activates
  obtain ⟨res, accepted, same⟩ := (mergedInit reads).mp merges
  exact ⟨⟨initTaken.mp ⟨res, accepted⟩, tmpOpens⟩, res, accepted, same⟩

theorem takesActivates (named : call.dataPath ≠ []) (opens : call.opens = true)
    (reads : ∀ path ∈ mergeReads call, ¬ Touched dataDir call s path) (storable : Storable call (diskOf call s))
    (takes : Takes call s) : ∃ res, init call.dataPath call.apkPath (diskOf call s) = .ok res ∧
      (useDataDir dataDir call s).2 = .activated (recordOf call res) := by
  obtain ⟨res, accepted⟩ := (initTaken.mpr takes.1 : ∃ res, init call.dataPath call.apkPath (diskOf call s) = .ok res)
  exact ⟨res, accepted, mergedActivates named opens takes.2 ((mergedInit reads).mpr ⟨res, accepted, rfl⟩)
    (recordFits storable accepted)⟩

theorem idleAtomic (named : call.dataPath ≠ []) (idle : ¬ InForce dataDir s)
    (apart : ¬ Touched dataDir call s (userDbPath dataDir))
    (reads : ∀ path ∈ mergeReads call, ¬ Touched dataDir call s path)
    (complete : Takes call s → Complete dataDir call s) : AllOrNothing dataDir call s := by
  intro k
  rcases callCases dataDir s named with ⟨record, early, content, called, within, _, _⟩ | ⟨_, within⟩
  · obtain ⟨takes, res, accepted, rfl⟩ := activatedTakes reads (show (useDataDir dataDir call s).2 = .activated record by rw [called])
    have whole := activationAsked (complete takes) reads accepted (by rw [called])
    rw [called] at whole ⊢
    dsimp only at whole ⊢
    by_cases before : k ≤ early.length
    · rw [List.take_append_of_le_length before]
      exact .inl (effectiveIdle idle (runsOther (withinTake within k) apart))
    by_cases between : k = early.length + 1
    · have state : runs s ((early ++ replace (userDbTmpPath dataDir) (userDbPath dataDir)).take k) (userDbPath dataDir) =
          none := by
        rw [between, List.take_length_add_append, runsAppend]
        exact Function.update_self _ _ _
      refine .inl ((effectiveNone state).trans ?_)
      exact (Option.not_isSome_iff_eq_none.mp idle).symm
    · rw [List.take_of_length_le (by rw [List.length_append]; simp only [replace, List.length_cons, List.length_nil]; omega)]
      exact .inr ⟨res, accepted, rfl, whole⟩
  · exact .inl (effectiveIdle idle (runsOther (withinTake within k) apart))

/-- The directory cannot be opened; or the merge reads nothing that the call has written before, and then no patch is
in force and a call that takes the new one leaves it complete, or nothing is taken and nothing that the configuration
is read from is touched. -/
def Safe (dataDir : Bytes) (call : Call) (s : Files) : Prop :=
  call.opens = false ∨ (∀ path ∈ mergeReads call, ¬ Touched dataDir call s path) ∧
    (¬ InForce dataDir s ∧ ¬ Touched dataDir call s (userDbPath dataDir) ∧ (Takes call s → Complete dataDir call s) ∨
      ¬ Takes call s ∧ ∀ path, Touched dataDir call s path → ¬ Relevant dataDir s path)

end

def oldRecord : Record := ⟨[47, 111], [47, 97], [98], [[47, 111] ++ text "/.entries_header.data"], [⟨0, 1, 0, 0, 1⟩], 1⟩

def activeFiles : Files :=
  filesOf ((userDbPath [47, 100], image oldRecord) :: ([47, 111] ++ text "/.entries_header.data", [7]) :: archives)

/- The directory in force is named again, and holds no patch. -/
def emptiedCall : Call := { sampleCall with dataPath := [47, 111], patchNames := [] }

theorem sampleComplete : Complete [47, 100] (shippingCall [47, 112]) twoPatches := by
  have listed : newFiles [⟨il2cpp, 8⟩] = [il2cpp] := by decide +kernel
  have names : shipped (shippingCall [47, 112]) = [il2cpp] := listed
  refine ⟨by decide, by decide, by decide, by rw [names]; decide, ?_, ?_, ?_, ?_, ?_, ?_, ?_⟩
  case refine_6 => exact ⟨by decide +kernel, by decide +kernel, by decide +kernel, by decide +kernel⟩
  case refine_7 => exact ⟨by decide, by decide, by decide, by decide +kernel, by decide, by decide +kernel⟩
  all_goals
    rw [names]
    intro f mem
    obtain rfl := List.mem_singleton.mp mem
  · exact ⟨by decide, by decide, by decide, by decide⟩
  · exact ⟨by decide, by decide, by decide, by decide⟩
  · decide +kernel
  · decide +kernel
  · exact ⟨rfl, by simp [shippingCall, sampleCall, plainCopy], by simp [shippingCall, sampleCall, plainCopy]⟩

end Bootstrap.UseDataDir
