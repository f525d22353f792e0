import Bootstrap.StoredArchive
import Bootstrap.UseDataDir

/-! The file operations of a call of use_data_dir: what they touch before user.db, and what they
leave there. -/
namespace Bootstrap.UseDataDir
open CInt ByteLayout Zip ShadowZip UserDb FileStore

def inDataDir (dataDir name : Bytes) : Bytes := snprintf256 (join dataDir name)

def newFiles (listing : List Dirent) : List Bytes :=
  (listing.filter (fun ent => decide (ent.type &&& DT_DIR = 0) && hasPostfix ent.name)).map Dirent.name

def shipped (call : Call) : List Bytes := newFiles call.dirents

def shippedPath (call : Call) (filename : Bytes) : Bytes := snprintf256 (join call.dataPath filename)
def keptPath (call : Call) (filename : Bytes) : Bytes :=
  (shippedPath call filename).take ((shippedPath call filename).length - newSoPostfix.length)

/-- What the call may write before user.db: a library that is staged already is not copied again. -/
def Touched (dataDir : Bytes) (call : Call) (s : Files) (path : Bytes) : Prop :=
  (∃ filename ∈ shipped call, path = shippedPath call filename ∨ path = keptPath call filename ∨
    path = inDataDir dataDir filename ∧ s path = none) ∨
  path = headerPath call ∨ path = endPatchPath call ∨ path = userDbTmpPath dataDir

theorem copyWithin {paths : Bytes → Prop} {schedule : CopySchedule} {fromPath toPath : Bytes} {s : Files}
    (target : s toPath = none → paths toPath) : Within paths (copyFile schedule fromPath toPath s).1 := by
  rw [copyFile]
  cases s fromPath with
  | none => exact withinNil _
  | some source =>
    dsimp only
    split
    · exact withinNil _
    · rename_i free
      have absent : s toPath = none := by
        cases h : s toPath with
        | none => rfl
        | some content => simp [h] at free
      refine withinCons ?_ (withinAppends (target absent) _)
      simpa [Op.touches] using target absent

theorem replaceWithin {paths : Bytes → Prop} {old new : Bytes} (left : paths old) (right : paths new) :
    Within paths (replace old new : List FileOp) := by
  refine withinCons ?_ (withinCons ?_ (withinNil _))
  · simpa [Op.touches] using right
  · simpa [Op.touches] using ⟨left, right⟩

theorem prepareWithin {dataDir : Bytes} {call : Call} {paths : Bytes → Prop} (s₀ : Files) {ents : List Dirent}
    (own : ∀ ent ∈ ents, ent.type &&& DT_DIR = 0 → hasPostfix ent.name → paths (shippedPath call ent.name) ∧
      paths (keptPath call ent.name) ∧
        (s₀ (inDataDir dataDir ent.name) = none → paths (inDataDir dataDir ent.name)))
    {s : Files} (same : ∀ path, ¬ paths path → s path = s₀ path) :
    Within paths (prepareSoLib dataDir call.dataPath call.schedules ents s) := by
  induction ents generalizing s with
  | nil => exact withinNil _
  | cons ent ents ih =>
    have rest := fun e mem => own e (List.mem_cons_of_mem ent mem)
    rw [prepareSoLib]
    split
    · exact ih rest same
    · rename_i ships
      rw [not_or, not_not, not_not] at ships
      obtain ⟨source, kept, target⟩ := own ent List.mem_cons_self ships.1 ships.2
      have here : Within paths (prepareLib dataDir call.dataPath (call.schedules ent.name) ent.name s) := by
        refine withinAppend (copyWithin fun absent => ?_) (replaceWithin source kept)
        by_contra outside
        exact outside (target ((same _ outside).symm.trans absent))
      refine withinAppend here (ih rest fun path outside => ?_)
      rw [runsOther here outside]
      exact same path outside

section
variable {dataDir : Bytes} {call : Call} {s : Files}

theorem libsWithin : Within (Touched dataDir call s) (prepareSoLib dataDir call.dataPath call.schedules call.dirents s) := by
  refine prepareWithin s (fun ent mem file named => ?_) (fun _ _ => rfl)
  have ships : ent.name ∈ shipped call :=
    List.mem_map_of_mem (List.mem_filter.mpr ⟨mem, by simp [file, named]⟩)
  exact ⟨.inl ⟨_, ships, .inl rfl⟩, .inl ⟨_, ships, .inr (.inl rfl)⟩,
    fun absent => .inl ⟨_, ships, .inr (.inr ⟨rfl, absent⟩)⟩⟩

theorem writtenWithin {paths : Bytes → Prop} {path : Bytes} (own : paths path) (content : Bytes) :
    Within paths (written call path content) := withinAppends own _

theorem initWithin {paths : Bytes → Prop} (header : paths (headerPath call)) (endPatch : paths (endPatchPath call))
    (s : Files) : Within paths (initOps call s).1 := by
  have opens : ∀ path, paths path → ∀ p ∈ (Op.truncate path : FileOp).touches, paths p := by
    intro path own p mem
    simp only [Op.touches, List.mem_singleton] at mem
    exact mem ▸ own
  have head : ∀ content, Within paths (written call (headerPath call) content) := writtenWithin header
  rw [initOps]
  split
  · exact withinNil _
  · dsimp only
    split
    · exact withinCons (opens _ header) (withinNil _)
    · exact withinAppend (withinCons (opens _ header) (withinNil _)) (head _)
    · rename_i res _
      refine withinAppend (withinAppend (withinAppend (withinCons (opens _ header) (withinNil _)) ?_) ?_) ?_
      · exact fun op mem => head res.entriesHeader op ((List.dropLast_sublist _).subset mem)
      · exact withinCons (opens _ endPatch) (writtenWithin endPatch _)
      · exact fun op mem => head res.entriesHeader op (List.mem_of_getLast? (by simpa using mem))

theorem callCases (dataDir : Bytes) (s : Files) (named : call.dataPath ≠ []) :
    (∃ record early content, useDataDir dataDir call s =
        (early ++ replace (userDbTmpPath dataDir) (userDbPath dataDir), .activated record) ∧
      Within (Touched dataDir call s) early ∧ serialUserDb record = .ok content ∧
      runs s early (userDbTmpPath dataDir) = some content) ∨
    (∀ record, (useDataDir dataDir call s).2 ≠ .activated record) ∧
      Within (Touched dataDir call s) (useDataDir dataDir call s).1 := by
  have libs : Within (Touched dataDir call s) _ := libsWithin
  have merge : Within (Touched dataDir call s)
      (initOps call (runs s (prepareSoLib dataDir call.dataPath call.schedules call.dirents s))).1 :=
    initWithin (.inr (.inl rfl)) (.inr (.inr (.inl rfl))) _
  have tmp : Touched dataDir call s (userDbTmpPath dataDir) := .inr (.inr (.inr rfl))
  have opened : Within (Touched dataDir call s) [(.truncate (userDbTmpPath dataDir) : FileOp)] :=
    withinCons (by simpa [Op.touches] using tmp) (withinNil _)
  rw [useDataDir, if_neg named]
  split
  · exact .inr ⟨(fun _ bad => by cases bad), withinNil _⟩
  dsimp only
  split
  · exact .inr ⟨(fun _ bad => by cases bad), withinAppend libs merge⟩
  · exact .inr ⟨(fun _ bad => by cases bad), withinAppend libs merge⟩
  · rename_i res _
    rw [saveOps]
    split
    · exact .inr ⟨(fun _ bad => by cases bad), withinAppend (withinAppend libs merge) (withinNil _)⟩
    · split
      · exact .inr ⟨(fun _ bad => by cases bad), withinAppend (withinAppend libs merge) opened⟩
      · rename_i content serial
        refine .inl ⟨_, _, content, by rw [← List.append_assoc], withinAppend (withinAppend libs merge)
          (withinCons (by simpa [Op.touches] using tmp) (writtenWithin tmp content)), serial, ?_⟩
        rw [runsAppend, written, runsWritten, call.flush.whole]

def merged (dataDir : Bytes) (call : Call) (s : Files) : Option Record :=
  match (initOps call (runs s (prepareSoLib dataDir call.dataPath call.schedules call.dirents s))).2 with
  | .ok res => some (recordOf call res)
  | .error _ => none

theorem activatedMerged {record : Record} (activates : (useDataDir dataDir call s).2 = .activated record) :
    merged dataDir call s = some record ∧ call.tmpOpens = true ∧ call.opens = true := by
  unfold merged
  rw [useDataDir] at activates
  split at activates
  · cases activates
  split at activates
  · cases activates
  rename_i opens
  dsimp only at activates
  split at activates
  · cases activates
  · cases activates
  · rename_i res result
    rw [result]
    rw [saveOps] at activates
    split at activates
    · cases activates
    · rename_i tmp
      split at activates
      · cases activates
      · cases activates
        exact ⟨rfl, by simpa using tmp, by simpa using opens⟩

theorem mergedActivates (named : call.dataPath ≠ []) (opens : call.opens = true) (tmpOpens : call.tmpOpens = true)
    {record : Record} (merges : merged dataDir call s = some record) (fits : record.Fits) :
    (useDataDir dataDir call s).2 = .activated record := by
  unfold merged at merges
  split at merges
  · rename_i res result
    cases merges
    rw [useDataDir, if_neg named]
    simp only [opens, Bool.not_true, Bool.false_eq_true, if_false, result, saveOps, tmpOpens, serialImage fits]
  · cases merges

theorem mergedFits (dataDir : Bytes) (call : Call) (s : Files) (named : call.dataPath ≠ []) (opens : call.opens = true) (tmpOpens : call.tmpOpens = true)
    (some : (merged dataDir call s).isSome)
    (fits : (merged dataDir call s).all (fun record => decide record.Fits) = true) :
    ∃ record, (useDataDir dataDir call s).2 = .activated record ∧ record.Fits := by
  obtain ⟨record, merges⟩ := Option.isSome_iff_exists.mp some
  rw [merges] at fits
  have fit := of_decide_eq_true fits
  exact ⟨record, mergedActivates named opens tmpOpens merges fit, fit⟩

end

def filesOf (entries : List (Bytes × Bytes)) : Files := fun path => entries.lookup path

theorem filesKnown {entries : List (Bytes × Bytes)} (path : Bytes) (present : (filesOf entries path).isSome) :
    path ∈ entries.map Prod.fst := by
  induction entries with
  | nil => simp [filesOf] at present
  | cons entry entries ih =>
    by_cases own : path = entry.1
    · exact own ▸ List.mem_cons_self
    · refine List.mem_cons_of_mem _ (ih ?_)
      rwa [filesOf, List.lookup_cons, beq_false_of_ne own] at present

def wholeFlush : Flush := ⟨fun content => [content], by simp⟩

def plainCopy : CopySchedule := ⟨true, [], []⟩

def sampleCall : Call where
  dataPath := [47, 112]
  bundleId := [98]
  apkPath := [47, 97]
  opens := true
  dirents := []
  schedules := fun _ => plainCopy
  patchNames := [[122]]
  headerOpens := true
  endOpens := true
  tmpOpens := true
  errno := 0
  flush := wholeFlush
  unfinished := []

def archives : List (Bytes × Bytes) :=
  [([47, 97], archiveOf [⟨[97], [1, 2, 3], 0x55bc801d⟩]),
    ([47, 112] ++ text "/assets_bin_Data/z", archiveOf [⟨[98], [9, 9, 9], 0x588ee170⟩])]

end Bootstrap.UseDataDir
