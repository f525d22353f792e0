import Bootstrap.ActivationSteps
import Bootstrap.InitOutcome

/-! The files that a call leaves when it activates: user.db with its record, and what the table
in it names. -/
namespace Bootstrap.UseDataDir
open CInt ByteLayout Zip ShadowZip SerialUtils UserDb FileStore

def Holds (files : Files) (allFiles : List Bytes) (disk : Disk) (res : Result) : Prop :=
  List.Forall₂ (fun path content => files path = some content) allFiles (filesAfter disk res)

section
variable {dataDir : Bytes} {call : Call} {s : Files} {res : Result}

/- What init finds. -/
def mergeDisk (dataDir : Bytes) (call : Call) (s : Files) : Disk :=
  diskOf call (runs (runs s (prepareSoLib dataDir call.dataPath call.schedules call.dirents s)) [.truncate (headerPath call)])

def patchPath (call : Call) (name : Bytes) : Bytes := snprintf512 (call.dataPath ++ text "/assets_bin_Data") ++ 0x2f :: name

def tablePaths (call : Call) : List Bytes :=
  call.apkPath :: headerPath call :: (call.patchNames.map (patchPath call) ++ [endPatchPath call])

theorem tableFiles (accepted : init call.dataPath call.apkPath (mergeDisk dataDir call s) = .ok res) :
    res.globalData.allFiles = tablePaths call := by
  obtain ⟨_, _, same⟩ := (initRun accepted).run
  rw [same, tablePaths]
  simp only [finish, allFilesOf, mergeDisk, diskOf, List.map_map]
  rfl

theorem initFiles (result : (initOps call s).2 = .ok res) (different : headerPath call ≠ endPatchPath call) :
    init call.dataPath call.apkPath (diskOf call (runs s [.truncate (headerPath call)])) = .ok res ∧
      runs s (initOps call s).1 (headerPath call) = some res.entriesHeader ∧
      runs s (initOps call s).1 (endPatchPath call) = some res.patchData := by
  rw [initOps] at result ⊢
  split at result
  · cases result
  rename_i opens
  rw [if_neg opens]
  dsimp only at result ⊢
  split at result
  · cases result
  · cases result
  · rename_i accepted
    cases result
    rw [accepted]
    dsimp only [written]
    have endWithin : Within (· ≠ headerPath call) (.truncate (endPatchPath call) ::
        (call.flush.pieces res.patchData).map (Op.append (endPatchPath call))) :=
      withinCons (by simpa [Op.touches] using different.symm) (withinAppends (by exact different.symm) _)
    have headerWithin (ops : List FileOp) (mem : ∀ op ∈ ops, op ∈ (call.flush.pieces res.entriesHeader).map (Op.append (headerPath call))) :
        Within (· = headerPath call) ops := fun op own =>
      withinAppends (by exact rfl) _ op (mem op own)
    refine ⟨rfl, ?_, ?_⟩
    · have late := runsLate s endWithin (call.flush.pieces res.entriesHeader)
      rw [call.flush.whole] at late
      exact late
    · rw [runsAppend, runsOther (headerWithin _ fun op mem => ?_) different.symm, runsAppend, runsWritten, call.flush.whole]
      exact List.mem_of_mem_getLast? (Option.mem_toList.mp mem)

theorem callActivates {record : Record} (activates : (useDataDir dataDir call s).2 = .activated record) :
    ∃ res content, (initOps call (runs s (prepareSoLib dataDir call.dataPath call.schedules call.dirents s))).2 = .ok res ∧
      record = recordOf call res ∧ serialUserDb record = .ok content ∧ (useDataDir dataDir call s).1 =
        prepareSoLib dataDir call.dataPath call.schedules call.dirents s ++
          (initOps call (runs s (prepareSoLib dataDir call.dataPath call.schedules call.dirents s))).1 ++
          (.truncate (userDbTmpPath dataDir) :: written call (userDbTmpPath dataDir) content ++
            replace (userDbTmpPath dataDir) (userDbPath dataDir)) := by
  rw [useDataDir] at activates ⊢
  split at activates
  · cases activates
  rename_i named
  split at activates
  · cases activates
  rename_i opens
  rw [if_neg named, if_neg opens]
  dsimp only at activates ⊢
  split at activates
  · cases activates
  · cases activates
  · rename_i res result
    rw [saveOps] at activates ⊢
    split at activates
    · cases activates
    · rename_i tmp
      rw [if_neg tmp]
      split at activates
      · cases activates
      · rename_i content serial
        cases activates
        exact ⟨res, content, result, rfl, serial, rfl⟩

/-- The files that the table names are different ones where it matters, and neither is user.db. -/
structure Apart (dataDir : Bytes) (call : Call) : Prop where
  written : headerPath call ≠ endPatchPath call
  read : ∀ path ∈ call.apkPath :: call.patchNames.map (patchPath call), path ≠ headerPath call ∧ path ≠ endPatchPath call
  userDb : userDbTmpPath dataDir ≠ userDbPath dataDir
  table : ∀ path ∈ tablePaths call, path ≠ userDbPath dataDir ∧ path ≠ userDbTmpPath dataDir

theorem activationFiles {record : Record} (apart : Apart dataDir call)
    (activates : (useDataDir dataDir call s).2 = .activated record) (fits : record.Fits) :
    ∃ res, init call.dataPath call.apkPath (mergeDisk dataDir call s) = .ok res ∧ record = recordOf call res ∧
      runs s (useDataDir dataDir call s).1 (userDbPath dataDir) = some (image record) ∧
      Holds (runs s (useDataDir dataDir call s).1) (tablePaths call) (mergeDisk dataDir call s) res := by
  obtain ⟨res, content, result, rfl, serial, ops⟩ := callActivates activates
  generalize libs : prepareSoLib dataDir call.dataPath call.schedules call.dirents s = libraries at result ops
  obtain ⟨accepted, header, endPatch⟩ := initFiles result apart.written
  rw [serialImage fits] at serial
  cases serial
  have disk : mergeDisk dataDir call s = diskOf call (runs (runs s libraries) [.truncate (headerPath call)]) := by
    rw [mergeDisk, libs]
  rw [← disk] at accepted
  have saved : Within (fun path => path = userDbTmpPath dataDir ∨ path = userDbPath dataDir)
      (.truncate (userDbTmpPath dataDir) :: written call (userDbTmpPath dataDir) (image (recordOf call res)) ++
        replace (userDbTmpPath dataDir) (userDbPath dataDir)) :=
    withinAppend (withinCons (by simp [Op.touches]) (writtenWithin (by exact .inl rfl) _))
      (replaceWithin (by exact .inl rfl) (by exact .inr rfl))
  -- the last steps leave the table's files alone
  have kept : ∀ path ∈ tablePaths call, runs s (useDataDir dataDir call s).1 path =
      runs (runs s libraries) (initOps call (runs s libraries)).1 path := by
    intro path mem
    rw [ops, runsAppend, runsOther saved (by simpa using (apart.table path mem).symm), runsAppend]
  have initWrites : Within (fun path => path = headerPath call ∨ path = endPatchPath call) (initOps call (runs s libraries)).1 :=
    initWithin (by exact .inl rfl) (by exact .inr rfl) _
  have truncates : Within (fun path => path = headerPath call ∨ path = endPatchPath call) [(.truncate (headerPath call) : FileOp)] :=
    withinCons (by simp [Op.touches]) (withinNil _)
  have found : ∀ path ∈ call.apkPath :: call.patchNames.map (patchPath call), runs s (useDataDir dataDir call s).1 path =
      runs (runs s libraries) [.truncate (headerPath call)] path := by
    intro path mem
    have other : ¬(path = headerPath call ∨ path = endPatchPath call) := by simpa using apart.read path mem
    rw [kept path (by
      rcases List.mem_cons.mp mem with rfl | mem
      · exact List.mem_cons_self
      · exact List.mem_cons_of_mem _ (List.mem_cons_of_mem _ (List.mem_append_left _ mem))),
      runsOther initWrites other, runsOther truncates other]
  have run := initRun accepted
  have present : ∀ {path : Option Bytes} {es : List ZipEntry}, ParseApk.parseApk path = .ok es → path = some (path.getD []) := by
    intro path es parsed
    obtain ⟨raw, rfl, _⟩ := ParseApk.parseApkSource parsed
    rfl
  refine ⟨res, accepted, rfl, ?_, ?_⟩
  · have tmpFile : runs (runs s (libraries ++ (initOps call (runs s libraries)).1))
        (.truncate (userDbTmpPath dataDir) :: written call (userDbTmpPath dataDir) (image (recordOf call res)))
        (userDbTmpPath dataDir) = some (image (recordOf call res)) := by
      rw [written, runsWritten, call.flush.whole]
    rw [ops, runsAppend, runsAppend]
    exact (runsReplaced apart.userDb tmpFile).1
  · rw [disk] at accepted run ⊢
    have apk : (diskOf call (runs (runs s libraries) [.truncate (headerPath call)])).apk =
        runs s (useDataDir dataDir call s).1 call.apkPath := (found _ List.mem_cons_self).symm
    refine .cons ?_ (.cons ?_ (List.rel_append ?_ (.cons ?_ .nil)))
    · rw [← apk]
      exact present run.apk
    · rw [kept _ (List.mem_cons_of_mem _ List.mem_cons_self)]
      exact header
    · rw [diskOf, List.map_map, List.forall₂_map_left_iff, List.forall₂_map_right_iff, List.forall₂_same]
      intro name mem
      rw [found _ (List.mem_cons_of_mem _ (List.mem_map_of_mem mem))]
      exact present (run.patches _ (List.mem_map_of_mem mem))
    · rw [kept _ (by simp [tablePaths])]
      exact endPatch

structure Worded (most : Nat) (b : Build) : Prop where
  place : b.preShadowStop < 2 ^ 64
  partitions : ∀ p ∈ b.patchPartitions, p.Fits
  count : b.patchPartitions.length ≤ most

theorem addEntryWorded {most : Nat} {e e' : ZipEntry} {b b' : Build} (worded : Worded most b) (file : e.mUserData1 < 2 ^ 64)
    (h : addEntryToPartition e b = .ok (e', b')) : Worded (most + 2) b' := by
  obtain ⟨place, partitions, count⟩ := worded
  obtain ⟨filename, _, h⟩ := exceptBind h
  dsimp only at h
  split at h
  · split at h
    · cases h
    · rename_i p last
      obtain ⟨_, rfl⟩ := Prod.mk.inj (Except.ok.inj h)
      have own := partitions p (List.mem_of_getLast? last)
      refine ⟨by dsimp only; exact u64Bound _, fun q mem => ?_, ?_⟩
      · rcases List.mem_append.mp mem with old | new
        · exact partitions q ((List.dropLast_sublist _).subset old)
        · rw [List.mem_singleton.mp new]
          refine ⟨own.shadowStart, ?_, own.fileIndex, own.startInFile, ?_⟩ <;> dsimp only <;> exact u64Bound _
      · simp only [List.length_append, List.length_dropLast, List.length_cons, List.length_nil]
        omega
  · split at h
    · split at h
      · cases h
      · cases h
        refine ⟨by dsimp only; exact u64Bound _, fun q mem => ?_, ?_⟩
        · rcases List.mem_append.mp mem with old | new
          · exact partitions q old
          · rcases List.mem_cons.mp new with rfl | new
            · refine ⟨place, ?_, Nat.one_lt_two_pow (by decide), ?_, ?_⟩ <;> dsimp only <;> exact u64Bound _
            · rw [List.mem_singleton.mp new]
              refine ⟨?_, ?_, file, ?_, ?_⟩ <;> dsimp only <;> exact u64Bound _
        · simp only [List.length_append, List.length_cons, List.length_nil]
          omega
    · cases h
      refine ⟨by dsimp only; exact u64Bound _, fun q mem => ?_, ?_⟩
      · rcases List.mem_append.mp mem with old | new
        · exact partitions q old
        · rw [List.mem_singleton.mp new]
          refine ⟨place, ?_, file, ?_, ?_⟩ <;> dsimp only <;> exact u64Bound _
      · simp only [List.length_append, List.length_cons, List.length_nil]
        omega

theorem emitsWorded {rs : List EntryRef} {first last : Loop} (run : Emits rs first last) {most : Nat}
    (worded : Worded most first.build) (files : ∀ t ∈ rs, (first.heap t).mUserData1 < 2 ^ 64) :
    Worded (most + 2 * rs.length) last.build := by
  induction run generalizing most with
  | nil => exact worded
  | @cons r rs s marked next last before step rest ih =>
    obtain ⟨same, _, build, _⟩ := markedSame before
    obtain ⟨e', b', added, rfl⟩ := emitCases step
    obtain ⟨⟨_, user, _⟩, _⟩ := addEntryKeeps added
    rw [build] at added
    have here := addEntryWorded worded ((same r).1 ▸ files r List.mem_cons_self) added
    have later := ih here fun t mem => ?_
    · rw [List.length_cons, Nat.mul_succ, Nat.add_comm (2 * rs.length), ← Nat.add_assoc]
      exact later
    · have kept := files t (List.mem_cons_of_mem _ mem)
      by_cases own : t = r
      · subst t
        simp only [Function.update_self, ZipEntry.setLFHOffset, user, (same r).1]
        exact kept
      · simp only [Function.update_of_ne own, (same t).1]
        exact kept

structure Storable (call : Call) (disk : Disk) : Prop where
  dataPath : call.dataPath.length ≤ SerialUtils.bufferSize
  apkPath : call.apkPath.length ≤ SerialUtils.bufferSize
  bundleId : call.bundleId.length ≤ SerialUtils.bufferSize
  patches : ∀ name ∈ call.patchNames, (patchPath call name).length ≤ SerialUtils.bufferSize
  files : call.patchNames.length + 3 < 2 ^ 31
  entries : 40 * (2 * (order disk).length + 1) < 2 ^ 31

theorem recordFits (storable : Storable call (diskOf call s))
    (accepted : init call.dataPath call.apkPath (diskOf call s) = .ok res) : (recordOf call res).Fits := by
  have run := initRun accepted
  obtain ⟨last, emits, same⟩ := run.run
  have few := storable.files
  have patches : (diskOf call s).patches.length = call.patchNames.length := List.length_map _
  have start : Worded 0 (startLoop (diskOf call s)).build := ⟨Nat.two_pow_pos 64, (fun _ mem => by cases mem), Nat.le_refl _⟩
  obtain ⟨place, partitions, count⟩ := emitsWorded emits start fun t mem => by
    have source := orderKnown run mem
    show t.1 < 2 ^ 64
    rcases source with apk | patch
    · rw [(memRefs.mp apk).1]
      exact Nat.two_pow_pos 64
    · obtain ⟨k, es, here, index, _⟩ := memRefsFrom.mp patch
      have inside := (List.getElem?_eq_some_iff.mp here).1
      rw [patchEntries, List.length_map, patches] at inside
      omega
  have number := storable.entries
  have listed : (recordOf call res).allFiles = tablePaths call := by
    rw [recordOf, same, tablePaths]
    simp only [finish, allFilesOf, diskOf, List.map_map]
    rfl
  have amount : (tablePaths call).length = call.patchNames.length + 3 := by
    simp [tablePaths]
  have table : (recordOf call res).patchPartitions = res.globalData.patchPartitions := rfl
  refine ⟨storable.dataPath, storable.apkPath, storable.bundleId, ?_, ?_, ?_, ?_, ?_⟩
  · rw [listed, amount]
    omega
  · rw [listed]
    intro path mem
    have short : ∀ path : Bytes, (snprintf512 path).length ≤ SerialUtils.bufferSize := fun path =>
      Nat.le_trans (List.length_take_le _ _) (by decide)
    rcases List.mem_cons.mp mem with rfl | mem
    · exact storable.apkPath
    rcases List.mem_cons.mp mem with rfl | mem
    · exact short _
    rcases List.mem_append.mp mem with patch | last
    · obtain ⟨name, known, rfl⟩ := List.mem_map.mp patch
      exact storable.patches name known
    · rw [List.mem_singleton.mp last]
      exact short _
  · rw [table, same]
    simp only [finish, List.length_append, List.length_cons, List.length_nil]
    omega
  · rw [table, same]
    intro p mem
    rcases List.mem_append.mp mem with old | new
    · exact partitions p old
    · rw [List.mem_singleton.mp new]
      have indexed : (allFilesOf call.dataPath call.apkPath (diskOf call s)).length - 1 < 2 ^ 64 := by
        simp only [allFilesOf, List.length_cons, List.length_append, List.length_map, List.length_nil, patches]
        omega
      exact ⟨place, by dsimp only; exact u64Bound _, indexed, Nat.two_pow_pos 64, by dsimp only; exact u64Bound _⟩
  · rw [recordOf, same]
    dsimp only [finish]
    exact u64Bound _

end

end Bootstrap.UseDataDir
