import Bootstrap.ActivationFiles
import Bootstrap.LastActivation
import Bootstrap.ServableTable
import Bootstrap.ShadowCursor

/-! From use_data_dir over the next start to the stream: what is merged is what is read. -/
namespace Bootstrap.UseDataDir
open CInt ByteLayout Zip ShadowZip SerialUtils UserDb FileStore Tiling
open ShadowStream (Served Serves fileBytes virtualBytes)

section
variable {patchDir sysApkFile : Bytes} {disk : Disk} {res : Result} {files : Files}

theorem holdsBytes {allFiles : List Bytes} (holds : Holds files allFiles disk res) {i : Nat} (inside : i < allFiles.length) :
    files (allFiles.getD i []) = some (contents disk res i) := by
  obtain ⟨same, each⟩ := List.forall₂_iff_get.mp holds
  have here := each i inside (same ▸ inside)
  simp only [contents, List.getD_eq_getElem?_getD, List.getElem?_eq_getElem inside, List.getElem?_eq_getElem (same ▸ inside)]
  exact here

structure Measured (disk : Disk) (res : Result) : Prop where
  files : disk.patches.length + 3 ≤ 2 ^ 31
  lengths : ∀ content ∈ filesAfter disk res, content.length < 2 ^ 62

theorem measuredLength (measured : Measured disk res) (i : Nat) : (contents disk res i).length < 2 ^ 62 := by
  rw [contents, List.getD_eq_getElem?_getD]
  cases there : (filesAfter disk res)[i]? with
  | none => exact Nat.two_pow_pos 62
  | some content => exact measured.lengths content (List.mem_of_getElem? there)

theorem mergedServes (run : InitRun patchDir sysApkFile disk res) (sizes : ∀ e ∈ plannedEntries disk, entrySize e < 2 ^ 31)
    (total : placeAfter 0 (plannedEntries disk) < 2 ^ 31) (backed : Backed disk) (measured : Measured disk res)
    (holds : Holds files res.globalData.allFiles disk res) :
    Serves files res.globalData ∧ virtualBytes files res.globalData = virtualFile disk res := by
  have header := headerAfterLe 0 (plannedEntries disk)
  have sized : Sized disk := ⟨fun c mem => sizes _ (List.mem_map_of_mem mem), by omega, by omega⟩
  obtain ⟨s, _, _, _, joins, _, finished⟩ := initFinished run sized (by omega)
  have tiles := finishedTiles finished (joinsReady joins startReady).tiles
  have front := backedServable run joins finished.header backed
  have indices := joinsIndices (Nat.le_add_left 2 _) joins (fun e mem => by
    obtain ⟨c, known, rfl⟩ := List.mem_map.mp mem
    exact plannedIndex run known) (by simp [startBuild])
  have place : s.build.preShadowStop = placeAfter 0 (plannedEntries disk) := joinsPlace joins
  have last : (contents disk res (disk.patches.length + 2)).length < 2 ^ 62 := measuredLength measured _
  rw [lastFile] at last
  have stop := finished.stop
  have count := finished.files
  have few := measured.files
  -- a partition of the entries, or the one of .patch.data
  have each : ∀ p ∈ res.globalData.patchPartitions, p.fileIndex < disk.patches.length + 3 ∧
      p.stopInFile ≤ (contents disk res p.fileIndex).length := by
    intro p mem
    rw [finished.table] at mem
    rcases List.mem_append.mp mem with mem | mem
    · exact ⟨Nat.lt_succ_of_lt (indices p mem), (front p mem).2⟩
    · rw [List.mem_singleton.mp mem, lastFile]
      exact ⟨Nat.lt_succ_self _, Nat.le_refl _⟩
  have bytes : ∀ p ∈ res.globalData.patchPartitions, fileBytes files res.globalData p.fileIndex = contents disk res p.fileIndex := by
    intro p mem
    rw [fileBytes, holdsBytes holds (count ▸ (each p mem).1), Option.getD_some]
  refine ⟨⟨tiles, by omega, fun empty => (by rw [empty] at count; cases count), fun p mem => ?_⟩, ?_⟩
  · obtain ⟨low, held⟩ := each p mem
    refine ⟨by omega, by omega, ?_, ?_, ?_⟩
    · rw [holdsBytes holds (by omega)]
      rfl
    · rw [← bytes p mem] at held
      exact held
    · rw [bytes p mem]
      exact Nat.lt_trans (measuredLength measured _) (by decide)
  · rw [virtualBytes, virtualFile, gather, gather]
    refine List.flatMap_congr fun q mem => ?_
    obtain ⟨p, known, rfl⟩ := List.mem_map.mp mem
    rw [Piece.bytes, Piece.bytes]
    exact congrArg (fun source => slice source _ _) (bytes p known)

end

section
variable {dataDir : Bytes} {call : Call} {s : Files} {res : Result}

def Installs (dataDir : Bytes) (listing : List Dirent) (path : Bytes) : Prop :=
  ∃ f ∈ newFiles listing, path = inDataDir dataDir f ∨
    path = (inDataDir dataDir f).take ((inDataDir dataDir f).length - newSoPostfix.length)

theorem installsWithin (listing : List Dirent) : Within (Installs dataDir listing) (preProcessAllSoLib dataDir listing) := by
  intro op mem path touched
  obtain ⟨ent, listed, own⟩ := List.mem_flatMap.mp mem
  split at own
  · cases own
  · rename_i new
    rw [not_or, not_not, not_not] at new
    have there : ent.name ∈ newFiles listing :=
      List.mem_map_of_mem (List.mem_filter.mpr ⟨listed, by rw [decide_eq_true new.1, new.2]; rfl⟩)
    have chmods : Within (fun path => path = inDataDir dataDir ent.name ∨
        path = (inDataDir dataDir ent.name).take ((inDataDir dataDir ent.name).length - newSoPostfix.length))
        [(.chmod ((inDataDir dataDir ent.name).take ((inDataDir dataDir ent.name).length - newSoPostfix.length)) : FileOp)] :=
      withinCons (by simp [Op.touches]) (withinNil _)
    have within := withinAppend (replaceWithin (by exact .inl rfl) (by exact .inr rfl)) chmods
    exact ⟨ent.name, there, within op own path touched⟩

/-- No library is named as user.db, or as a file of the table. -/
def Spares (dataDir : Bytes) (call : Call) (boot : Boot) : Prop :=
  ∀ path ∈ userDbPath dataDir :: tablePaths call, ¬ Installs dataDir boot.listing path

def restarts (dataDir : Bytes) (s : Files) (boots : List Boot) : Files :=
  boots.foldl (fun s boot => (extractPatchInfo dataDir boot s).1) s

/-- What an activation leaves: a user.db that is its own while it is there, and the files that its table names. -/
structure Kept (dataDir : Bytes) (call : Call) (record : Record) (disk : Disk) (res : Result) (s : Files) : Prop where
  userDb : ∀ content, s (userDbPath dataDir) = some content → content = image record
  holds : Holds s (tablePaths call) disk res

variable {record : Record} {disk : Disk}

theorem keptSame {s' : Files} (kept : Kept dataDir call record disk res s)
    (userDb : s' (userDbPath dataDir) = s (userDbPath dataDir) ∨ s' (userDbPath dataDir) = none)
    (table : ∀ path ∈ tablePaths call, s' path = s path) : Kept dataDir call record disk res s' := by
  refine ⟨fun content there => ?_, ?_⟩
  · rcases userDb with same | gone
    · exact kept.userDb content (same ▸ there)
    · rw [gone] at there
      cases there
  · refine (List.forall₂_iff_get.mpr ?_)
    obtain ⟨length, each⟩ := List.forall₂_iff_get.mp kept.holds
    exact ⟨length, fun i low high => (table _ (List.get_mem _ _)).trans (each i low high)⟩

theorem restartKeeps {boot : Boot} (apart : Apart dataDir call) (spares : Spares dataDir call boot)
    (kept : Kept dataDir call record disk res s) : Kept dataDir call record disk res (extractPatchInfo dataDir boot s).1 := by
  rcases restartCases dataDir boot s with ⟨files, _⟩ | ⟨files, _⟩ | ⟨files, _⟩
  · rw [files]
    exact kept
  · rw [files]
    refine keptSame kept (.inr (Function.update_self ..)) fun path mem => ?_
    exact Function.update_of_ne (apart.table path mem).1 ..
  · rw [files]
    refine keptSame kept (.inl (runsOther (installsWithin _) (spares _ List.mem_cons_self))) fun path mem => ?_
    exact runsOther (installsWithin _) (spares path (List.mem_cons_of_mem _ mem))

theorem restartsKeep {boots : List Boot} (apart : Apart dataDir call) (spare : ∀ boot ∈ boots, Spares dataDir call boot)
    (kept : Kept dataDir call record disk res s) : Kept dataDir call record disk res (restarts dataDir s boots) := by
  induction boots generalizing s with
  | nil => exact kept
  | cons boot boots ih =>
    exact ih (fun b mem => spare b (List.mem_cons_of_mem _ mem)) (restartKeeps apart (spare boot List.mem_cons_self) kept)

theorem keptTaken {taken : Record} {boot : Boot} {s' : Files} (kept : Kept dataDir call record disk res s) (fits : record.Fits)
    (starts : extractPatchInfo dataDir boot s = (s', some taken)) : taken = record := by
  rcases restartCases dataDir boot s with ⟨_, none_⟩ | ⟨_, none_⟩ | ⟨_, took⟩
  · rw [starts] at none_
    cases none_
  · rw [starts] at none_
    cases none_
  · rw [starts] at took
    obtain ⟨content, rest, there, decoded⟩ := took taken rfl
    have read := imageRead fits []
    rw [List.append_nil] at read
    rw [kept.userDb content there, read] at decoded
    cases decoded
    rfl

/- What g_shadowzip_global_data is filled with. -/
def tableOf (record : Record) : ShadowZipGlobalData := ⟨record.patchPartitions, record.allFiles, record.endOfFile⟩

/-- After an activation and any number of starts, a start that takes the patch serves the merged file: whatever is
asked of a stream of the APK, the answer is that of a cursor on it. -/
theorem patchServed {boots : List Boot} {boot : Boot} {taken : Record} {s' : Files}
    (activates : (useDataDir dataDir call s).2 = .activated record) (fits : record.Fits)
    (accepted : init call.dataPath call.apkPath (mergeDisk dataDir call s) = .ok res)
    (sizes : ∀ e ∈ plannedEntries (mergeDisk dataDir call s), entrySize e < 2 ^ 31)
    (total : placeAfter 0 (plannedEntries (mergeDisk dataDir call s)) < 2 ^ 31) (backed : Backed (mergeDisk dataDir call s))
    (measured : Measured (mergeDisk dataDir call s) res) (apart : Apart dataDir call)
    (spare : ∀ b ∈ boot :: boots, Spares dataDir call b)
    (starts : extractPatchInfo dataDir boot (restarts dataDir (runs s (useDataDir dataDir call s).1) boots) = (s', some taken))
    (garbage : Int) {cs : List PlainFile.Call}
    (allowed : ShadowStream.AllowedRun (virtualFile (mergeDisk dataDir call s) res) 0 cs) :
    taken = recordOf call res ∧ ∃ file opened z,
      ShadowStream.fopen s' (ShadowStream.shadowZip (tableOf taken) garbage) = .ok (file, opened) ∧
      ShadowStream.calls s' opened cs = .ok ((PlainFile.calls (virtualFile (mergeDisk dataDir call s) res) 0 cs).1, z) := by
  obtain ⟨res', accepted', rfl, userDb, holds⟩ := activationFiles apart activates fits
  cases accepted'.symm.trans accepted
  have first : Kept dataDir call (recordOf call res) (mergeDisk dataDir call s) res (runs s (useDataDir dataDir call s).1) :=
    ⟨fun content there => Option.some.inj (there.symm.trans userDb), holds⟩
  have before := restartsKeep apart (fun b mem => spare b (List.mem_cons_of_mem _ mem)) first
  have last := restartKeeps apart (spare boot List.mem_cons_self) before
  rw [starts] at last
  obtain rfl := keptTaken before fits starts
  obtain ⟨serves, same⟩ := mergedServes (initRun accepted) sizes total backed measured
    ((tableFiles accepted).symm ▸ last.holds)
  rw [← same] at allowed ⊢
  obtain ⟨file, opened, ok, there⟩ := ShadowStream.fopenAt serves garbage
  obtain ⟨z, run, _⟩ := ShadowStream.callsRefine serves there allowed
  exact ⟨rfl, file, opened, z, ok, run⟩

end

/- Two starts after the call: the first one installs the library that the call ships. -/
def servedCall : Call := shippingCall [47, 112]
abbrev servedDisk : Disk := mergeDisk [47, 100] servedCall twoPatches
def servedResult : Result := resultOf [47, 112] [47, 97] servedDisk
def secondBoot : Boot := { sampleBoot with listing := [⟨text "libil2cpp.so", 8⟩] }

theorem servedAccepted : init servedCall.dataPath servedCall.apkPath servedDisk = .ok servedResult :=
  acceptedResult (by decide +kernel)

theorem servedActivates : (useDataDir [47, 100] servedCall twoPatches).2 = .activated (recordOf servedCall servedResult) := by
  decide +kernel

def servedStart : Files × Option Record :=
  extractPatchInfo [47, 100] secondBoot (restarts [47, 100] (runs twoPatches (useDataDir [47, 100] servedCall twoPatches).1) [sampleBoot])

theorem servedTaken : servedStart.2 = some (recordOf servedCall servedResult) := by decide +kernel

theorem servedStarts : servedStart = (servedStart.1, some (recordOf servedCall servedResult)) := by rw [← servedTaken]

theorem servedApart : Apart [47, 100] servedCall := by
  constructor <;> decide +kernel

theorem servedSpare : ∀ b ∈ [secondBoot, sampleBoot], Spares [47, 100] servedCall b := by
  unfold Spares Installs
  decide +kernel

def servedCalls : List PlainFile.Call := [.fread 1 9 (fun _ => 0), .fseek (-3) 2, .ftell]

theorem servedAllowed (file : Bytes) : ShadowStream.AllowedRun file 0 servedCalls :=
  ⟨⟨by decide, by decide⟩, ⟨by decide, by decide⟩, trivial, trivial⟩

theorem samplePatchServed : ∃ taken, servedStart.2 = some taken ∧ ∃ file opened z,
    ShadowStream.fopen servedStart.1 (ShadowStream.shadowZip (tableOf taken) 7) = .ok (file, opened) ∧
    ShadowStream.calls servedStart.1 opened servedCalls =
      .ok ((PlainFile.calls (virtualFile servedDisk servedResult) 0 servedCalls).1, z) := by
  have fits : (recordOf servedCall servedResult).Fits := by decide +kernel
  have measured : Measured servedDisk servedResult := ⟨by decide +kernel, by decide +kernel⟩
  have served := patchServed servedActivates fits servedAccepted (by decide +kernel) (by decide +kernel) (by decide +kernel)
    measured servedApart servedSpare servedStarts 7 (servedAllowed _)
  exact ⟨_, servedTaken, served.2⟩

end Bootstrap.UseDataDir
