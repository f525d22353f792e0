import Bootstrap.StagedLibraries

/-! Activations and restarts in any order. The table goes by user.db and the libraries by
the data directory; the next start is meant to find both of the last activation. -/
namespace Bootstrap.UseDataDir
open CInt ByteLayout Zip ShadowZip UserDb FileStore

structure Last where
  record : Record
  libraries : List (Bytes × Bytes)
  deriving DecidableEq, Repr

structure State where
  files : Files
  last : Option Last

inductive Event where
  | activate (call : Call)
  | restart (boot : Boot)

def sources (call : Call) (s : Files) : List (Bytes × Bytes) :=
  (shipped call).map (fun filename => (soName filename, (s (join call.dataPath filename)).getD []))

def step (dataDir : Bytes) (st : State) : Event → State
  | .activate call =>
    match useDataDir dataDir call st.files with
    | (ops, .activated record) => ⟨runs st.files ops, some ⟨record, sources call st.files⟩⟩
    | (ops, _) => ⟨runs st.files ops, st.last⟩
  | .restart boot => ⟨(extractPatchInfo dataDir boot st.files).1, st.last⟩

def Current (dataDir : Bytes) (boot : Boot) (st : State) : Prop :=
  ∀ last, st.last = some last → ∀ record, (extractPatchInfo dataDir boot st.files).2 = some record →
    record = last.record ∧ ∀ library ∈ last.libraries,
      (extractPatchInfo dataDir boot st.files).1 (join dataDir library.1) = some library.2

structure Lists (dataDir : Bytes) (boot : Boot) (s : Files) : Prop where
  once : (newFiles boot.listing).Nodup
  names : ∀ filename ∈ newFiles boot.listing, IsName filename
  all : ∀ filename, IsName filename → hasPostfix filename →
    (filename ∈ newFiles boot.listing ↔ (s (join dataDir filename)).isSome)

structure Succeeds (dataDir : Bytes) (call : Call) (s : Files) : Prop where
  activates : ∃ record, (useDataDir dataDir call s).2 = .activated record
  apart : call.dataPath ≠ dataDir
  once : (shipped call).Nodup
  names : ∀ filename ∈ shipped call, IsName filename
  present : ∀ filename ∈ shipped call, (s (join call.dataPath filename)).isSome
  clear : ∀ filename ∈ shipped call, (call.schedules filename).Clear

/-- No library that is shipped is staged already, none is named as another's or as user.db, and buffers hold all. -/
structure Lands (dataDir : Bytes) (call : Call) (s : Files) : Prop where
  absent : ∀ filename ∈ shipped call, s (join dataDir filename) = none
  single : ∀ filename ∈ shipped call, ¬ hasPostfix (soName filename)
  other : ∀ filename ∈ shipped call, soName filename ≠ text "user.db"
  room : call.dataPath.length ≤ 255
  fits : ∀ filename ∈ shipped call,
    (join dataDir filename).length ≤ 255 ∧ (join call.dataPath filename).length ≤ 255
  record : ∀ record, (useDataDir dataDir call s).2 = .activated record → record.Fits

def Clean (dataDir : Bytes) (s : Files) : Prop :=
  ∀ filename, IsName filename → hasPostfix filename → (s (join dataDir filename)).isSome →
    Installable dataDir filename ∧ soName filename ≠ text "user.db"

def Meets (dataDir : Bytes) (st : State) : Event → Prop
  | .activate call => Succeeds dataDir call st.files ∧ Lands dataDir call st.files
  | .restart boot => Lists dataDir boot st.files

def MeetsAll (dataDir : Bytes) (st : State) : List Event → Prop
  | [] => True
  | event :: events => Meets dataDir st event ∧ MeetsAll dataDir (step dataDir st event) events

structure Waiting (dataDir : Bytes) (s : Files) (library : Bytes × Bytes) : Prop where
  name : IsName library.1
  new : hasPostfix (library.1 ++ newSoPostfix)
  single : ¬ hasPostfix library.1
  other : library.1 ≠ text "user.db"
  found : s (join dataDir (library.1 ++ newSoPostfix)) = some library.2 ∨
    s (join dataDir (library.1 ++ newSoPostfix)) = none ∧ s (join dataDir library.1) = some library.2

/-- The invariant of a run: user.db, while it is there, and the libraries are those of the last activation. -/
structure Holding (dataDir : Bytes) (st : State) : Prop where
  room : (join dataDir (text "user.db.tmp")).length ≤ 255
  clean : Clean dataDir st.files
  userDb : ∀ last, st.last = some last → last.record.Fits ∧
    ∀ content, st.files (join dataDir (text "user.db")) = some content → content = image last.record
  libraries : ∀ last, st.last = some last → ∀ library ∈ last.libraries, Waiting dataDir st.files library

section
variable {dataDir : Bytes}

theorem userDbWhole (room : (join dataDir (text "user.db.tmp")).length ≤ 255) :
    userDbPath dataDir = join dataDir (text "user.db") ∧ userDbTmpPath dataDir = join dataDir (text "user.db.tmp") := by
  have shorter : (join dataDir (text "user.db")).length ≤ 255 := by
    rw [joinLength] at room ⊢
    have tmp : (text "user.db.tmp").length = 11 := by decide
    have db : (text "user.db").length = 7 := by decide
    omega
  exact ⟨List.take_of_length_le shorter, List.take_of_length_le room⟩

theorem nameApart {name other : Bytes} (left : IsName name) (right : IsName other) (different : name ≠ other) :
    join dataDir name ≠ join dataDir other := fun same => different (joinInjective left right same).2

/-! A restart. -/

theorem restartCases (dataDir : Bytes) (boot : Boot) (s : Files) :
    ((extractPatchInfo dataDir boot s).1 = s ∧ (extractPatchInfo dataDir boot s).2 = none) ∨
    ((extractPatchInfo dataDir boot s).1 = (Op.unlink (userDbPath dataDir)).run s ∧
      (extractPatchInfo dataDir boot s).2 = none) ∨
    ((extractPatchInfo dataDir boot s).1 = runs s (preProcessAllSoLib dataDir boot.listing) ∧
      ∀ record, (extractPatchInfo dataDir boot s).2 = some record → ∃ content rest,
        s (userDbPath dataDir) = some content ∧ unserialUserDb content = .ok (record, rest)) := by
  rw [extractPatchInfo]
  split
  · exact .inl ⟨rfl, rfl⟩
  rename_i content there
  split
  · exact .inl ⟨rfl, rfl⟩
  rename_i record rest decoded
  split
  · exact .inl ⟨rfl, rfl⟩
  split
  · exact .inr (.inl ⟨rfl, rfl⟩)
  split
  · exact .inl ⟨rfl, rfl⟩
  dsimp only
  refine .inr (.inr ?_)
  split
  · refine ⟨rfl, fun record' same => ⟨content, rest, there, ?_⟩⟩
    cases same
    exact decoded
  · exact ⟨rfl, fun record' none => by cases none⟩

theorem userDbOld : IsName (text "user.db") ∧ ¬ hasPostfix (text "user.db") := by decide

namespace Waiting
variable {s s' : Files} {library : Bytes × Bytes} (waiting : Waiting dataDir s library)

include waiting in
theorem newName : IsName (library.1 ++ newSoPostfix) := newIsName waiting.name

include waiting in
theorem kept (staged : s' (join dataDir (library.1 ++ newSoPostfix)) = s (join dataDir (library.1 ++ newSoPostfix)))
    (placed : s' (join dataDir library.1) = s (join dataDir library.1)) : Waiting dataDir s' library :=
  ⟨waiting.name, waiting.new, waiting.single, waiting.other, by rw [staged, placed]; exact waiting.found⟩

theorem installed (waiting : Waiting dataDir s library) {boot : Boot} (lists : Lists dataDir boot s) (installable : ∀ f ∈ newFiles boot.listing, Installable dataDir f) :
    Waiting dataDir (runs s ((newFiles boot.listing).flatMap (installOps dataDir))) library ∧
      runs s ((newFiles boot.listing).flatMap (installOps dataDir)) (join dataDir library.1) = some library.2 := by
  have newName := waiting.newName
  have listed := lists.all _ newName waiting.new
  rcases waiting.found with staged | ⟨none, placed⟩
  · obtain ⟨there, gone⟩ := installsAll lists.once installable (listed.mpr (by rw [staged]; rfl)) staged
    rw [soNameNew] at there
    exact ⟨⟨waiting.name, waiting.new, waiting.single, waiting.other, .inr ⟨gone, there⟩⟩, there⟩
  · have absent : library.1 ++ newSoPostfix ∉ newFiles boot.listing := fun mem => by
      have present := listed.mp mem
      rw [none] at present
      cases present
    have kept : runs s ((newFiles boot.listing).flatMap (installOps dataDir)) (join dataDir library.1) =
        s (join dataDir library.1) := by
      refine installsOther fun f mem => ⟨nameApart waiting.name (installable f mem).name fun same => ?_,
        nameApart waiting.name (soNameIsName (installable f mem).name) fun same => ?_⟩
      · exact waiting.single (same ▸ (installable f mem).new)
      · exact absent (by rw [same, postfixSplit (installable f mem).new]; exact mem)
    have still : runs s ((newFiles boot.listing).flatMap (installOps dataDir)) (join dataDir (library.1 ++ newSoPostfix)) =
        s (join dataDir (library.1 ++ newSoPostfix)) := by
      refine installsOther fun f mem => ⟨nameApart newName (installable f mem).name fun same => ?_,
        nameApart newName (soNameIsName (installable f mem).name) fun same => ?_⟩
      · exact absent (same ▸ mem)
      · exact (installable f mem).single (same ▸ waiting.new)
    exact ⟨waiting.kept still kept, kept.trans placed⟩

end Waiting

theorem listedInstallable {boot : Boot} {s : Files} (clean : Clean dataDir s) (lists : Lists dataDir boot s) :
    ∀ f ∈ newFiles boot.listing, Installable dataDir f ∧ soName f ≠ text "user.db" := fun f mem =>
  clean f (lists.names f mem) (newFilesNew mem) ((lists.all f (lists.names f mem) (newFilesNew mem)).mp mem)

theorem installsClean {boot : Boot} {s : Files} (clean : Clean dataDir s) (lists : Lists dataDir boot s) :
    Clean dataDir (runs s ((newFiles boot.listing).flatMap (installOps dataDir))) := by
  have installable := fun f mem => (listedInstallable clean lists f mem).1
  intro f name new present
  by_cases listed : f ∈ newFiles boot.listing
  · obtain ⟨content, there⟩ := Option.isSome_iff_exists.mp ((lists.all f name new).mp listed)
    rw [(installsAll lists.once installable listed there).2] at present
    cases present
  · rw [installsOther fun g mem => ⟨nameApart name (installable g mem).name fun same => listed (same ▸ mem),
      nameApart name (soNameIsName (installable g mem).name) fun same =>
        (installable g mem).single (same ▸ new)⟩] at present
    exact clean f name new present

theorem installsUserDb {boot : Boot} {s : Files} (clean : Clean dataDir s) (lists : Lists dataDir boot s) :
    runs s ((newFiles boot.listing).flatMap (installOps dataDir)) (join dataDir (text "user.db")) =
      s (join dataDir (text "user.db")) := by
  refine installsOther fun f mem => ?_
  obtain ⟨installable, other⟩ := listedInstallable clean lists f mem
  exact ⟨nameApart userDbOld.1 installable.name fun same => userDbOld.2 (same ▸ installable.new),
    nameApart userDbOld.1 (soNameIsName installable.name) fun same => other same.symm⟩

theorem restartHolds {boot : Boot} {st : State} (holding : Holding dataDir st) (lists : Lists dataDir boot st.files) :
    Holding dataDir (step dataDir st (.restart boot)) ∧ Current dataDir boot st := by
  obtain ⟨room, clean, userDb, libraries⟩ := holding
  obtain ⟨dbPath, _⟩ := userDbWhole room
  have installable := fun f mem => (listedInstallable clean lists f mem).1
  have installs := preProcessed installable
  rcases restartCases dataDir boot st.files with ⟨same, none⟩ | ⟨gone, none⟩ | ⟨installed, taken⟩
  · refine ⟨?_, fun last own record some => by rw [none] at some; cases some⟩
    rw [step, same]
    exact ⟨room, clean, userDb, libraries⟩
  · have others : ∀ name, IsName name → name ≠ text "user.db" →
        (Op.unlink (userDbPath dataDir)).run st.files (join dataDir name) = st.files (join dataDir name) := by
      intro name plain different
      refine Op.runOther ?_
      rw [dbPath]
      simpa [Op.touches] using nameApart plain userDbOld.1 different
    refine ⟨?_, fun last own record some => by rw [none] at some; cases some⟩
    rw [step, gone]
    refine ⟨room, fun f name new present => ?_, fun last own => ⟨(userDb last own).1, fun content there => ?_⟩,
      fun last own library mem => ?_⟩
    · refine clean f name new ?_
      rw [← others f name fun same => userDbOld.2 (same ▸ new)]
      exact present
    · rw [dbPath] at there
      simp [Op.run] at there
    · have waiting := libraries last own library mem
      exact waiting.kept (others _ waiting.newName fun same => userDbOld.2 (same ▸ waiting.new))
        (others _ waiting.name waiting.other)
  · rw [installs] at installed
    constructor
    · rw [step, installed]
      refine ⟨room, installsClean clean lists, fun last own => ?_, fun last own library mem =>
        ((libraries last own library mem).installed lists installable).1⟩
      dsimp only
      rw [installsUserDb clean lists]
      exact userDb last own
    · intro last own record some
      obtain ⟨content, rest, there, decoded⟩ := taken record some
      obtain ⟨fits, image_⟩ := userDb last own
      rw [dbPath] at there
      have read := imageRead fits []
      rw [List.append_nil, ← image_ content there, decoded] at read
      cases read
      rw [installed]
      exact ⟨rfl, fun library mem => ((libraries last own library mem).installed lists installable).2⟩

/-! An activation. -/

def afterLibraries (dataDir : Bytes) (call : Call) (path : Bytes) : Prop :=
  path = headerPath call ∨ path = endPatchPath call ∨ path = userDbTmpPath dataDir ∨ path = userDbPath dataDir

theorem callSplit {call : Call} {s : Files} {record : Record}
    (activates : (useDataDir dataDir call s).2 = .activated record) :
    ∃ rest, (useDataDir dataDir call s).1 = stageAll dataDir call (shipped call) s ++ rest ∧
      Within (afterLibraries dataDir call) rest := by
  have merge : Within (afterLibraries dataDir call)
      (initOps call (runs s (prepareSoLib dataDir call.dataPath call.schedules call.dirents s))).1 :=
    initWithin (.inl rfl) (.inr (.inl rfl)) _
  have tmp : afterLibraries dataDir call (userDbTmpPath dataDir) := .inr (.inr (.inl rfl))
  rw [useDataDir] at activates ⊢
  split at activates
  · cases activates
  rename_i named
  split at activates
  · cases activates
  rename_i opens
  rw [if_neg named, if_neg opens]
  dsimp only at activates ⊢
  rw [prepareStages] at *
  split at activates
  · cases activates
  · cases activates
  · refine ⟨_, List.append_assoc _ _ _, withinAppend merge ?_⟩
    rw [saveOps]
    split
    · exact withinNil _
    · split
      · exact withinCons (by simpa [Op.touches] using tmp) (withinNil _)
      · exact withinAppend (withinCons (by simpa [Op.touches] using tmp) (writtenWithin tmp _))
          (replaceWithin tmp (.inr (.inr (.inr rfl))))

theorem afterApart {call : Call} (apart : call.dataPath ≠ dataDir) (short : call.dataPath.length ≤ 255)
    (room : (join dataDir (text "user.db.tmp")).length ≤ 255) {name : Bytes} (plain : IsName name)
    (other : name ≠ text "user.db") (another : name ≠ text "user.db.tmp") :
    ¬ afterLibraries dataDir call (join dataDir name) := by
  obtain ⟨db, tmp⟩ := userDbWhole room
  have whole : ∀ file : Bytes, file.length ≤ 255 → snprintf512 (call.dataPath ++ 0x2f :: file) = join call.dataPath file := by
    intro file fits
    refine List.take_of_length_le ?_
    rw [List.length_append, List.length_cons]
    omega
  rintro (same | same | same | same)
  · have path := whole (text ".entries_header.data") (by decide)
    exact apart (joinInjective plain (by decide) (same.trans path)).1.symm
  · have path := whole (text ".patch.data") (by decide)
    exact apart (joinInjective plain (by decide) (same.trans path)).1.symm
  · rw [tmp] at same
    exact another (joinInjective plain (by decide) same).2
  · rw [db] at same
    exact other (joinInjective plain userDbOld.1 same).2

theorem activationHolds {call : Call} {st : State} (holding : Holding dataDir st)
    (succeeds : Succeeds dataDir call st.files) (lands : Lands dataDir call st.files) :
    Holding dataDir (step dataDir st (.activate call)) := by
  obtain ⟨room, clean, _, _⟩ := holding
  obtain ⟨record, activates⟩ := succeeds.activates
  obtain ⟨db, tmp⟩ := userDbWhole room
  obtain ⟨rest, ops, within⟩ := callSplit activates
  have staged : ∀ f ∈ shipped call, Installable dataDir f := fun f mem =>
    ⟨succeeds.names f mem, newFilesNew mem, (lands.fits f mem).1, lands.single f mem⟩
  have source : ∀ f ∈ shipped call, Installable call.dataPath f := fun f mem =>
    ⟨succeeds.names f mem, newFilesNew mem, (lands.fits f mem).2, lands.single f mem⟩
  have after : ∀ name, IsName name → hasPostfix name → runs st.files (useDataDir dataDir call st.files).1 (join dataDir name) =
      runs st.files (stageAll dataDir call (shipped call) st.files) (join dataDir name) := by
    intro name plain new
    rw [ops, runsAppend]
    refine runsOther within (afterApart succeeds.apart lands.room room plain (fun same => ?_) fun same => ?_)
    · exact userDbOld.2 (same ▸ new)
    · exact absurd (same ▸ new) (by decide)
  have called : step dataDir st (.activate call) =
      ⟨runs st.files (useDataDir dataDir call st.files).1, some ⟨record, sources call st.files⟩⟩ := by
    have pair : useDataDir dataDir call st.files = ((useDataDir dataDir call st.files).1, .activated record) :=
      Prod.ext rfl activates
    rw [step, pair]
  have named : call.dataPath ≠ [] := fun empty => by
    rw [useDataDir, if_pos empty] at activates
    cases activates
  rw [called]
  refine ⟨room, fun g name new present => ?_, fun last own => ?_, fun last own library mem => ?_⟩
  · by_cases ships : g ∈ shipped call
    · exact ⟨staged g ships, lands.other g ships⟩
    · refine clean g name new ?_
      dsimp only at present
      rw [after g name new, stageOther staged source fun f mem => ?_] at present
      · exact present
      · rintro (same | same | same)
        · exact succeeds.apart (joinInjective name (source f mem).name same).1.symm
        · exact succeeds.apart (joinInjective name (soNameIsName (source f mem).name) same).1.symm
        · exact ships ((joinInjective name (staged f mem).name same).2 ▸ mem)
  · cases own
    have fits := lands.record record activates
    refine ⟨fits, fun content there => ?_⟩
    rcases callCases _ st.files named with ⟨record', early, raw, whole, _, serial, tmpFile⟩ | ⟨stops, _⟩
    · have same : record' = record := by
        rw [whole] at activates
        cases activates
        rfl
      subst same
      have different : userDbTmpPath dataDir ≠ userDbPath dataDir := by
        rw [tmp, db]
        exact nameApart (by decide) userDbOld.1 (by decide)
      have done := (runsReplaced different tmpFile).1
      rw [← runsAppend, db] at done
      rw [whole] at there
      dsimp only at there
      rw [db, done, ← Except.ok.inj ((serialImage fits).symm.trans serial)] at there
      exact (Option.some.inj there).symm
    · exact absurd activates (stops record)
  · cases own
    obtain ⟨f, ships, rfl⟩ := List.mem_map.mp mem
    obtain ⟨content, present⟩ := Option.isSome_iff_exists.mp (succeeds.present f ships)
    have file := staged f ships
    have origin : ∀ g ∈ shipped call, st.files (join call.dataPath g) =
        some ((st.files (join call.dataPath g)).getD []) := fun g mem => by
      obtain ⟨content, present⟩ := Option.isSome_iff_exists.mp (succeeds.present g mem)
      rw [present, Option.getD_some]
    have landed := stagesAll succeeds.apart succeeds.once staged source succeeds.clear origin lands.absent ships
    rw [← after f file.name file.new] at landed
    refine ⟨soNameIsName file.name, ?_, file.single, lands.other f ships, .inl ?_⟩
    · rw [postfixSplit file.new]
      exact file.new
    · rw [postfixSplit file.new]
      exact landed

theorem stepHolds {st : State} (holding : Holding dataDir st) {event : Event} (meets : Meets dataDir st event) :
    Holding dataDir (step dataDir st event) := by
  cases event with
  | activate call => exact activationHolds holding meets.1 meets.2
  | restart boot => exact (restartHolds holding meets).1

theorem runHolds {events : List Event} {st : State} (holding : Holding dataDir st)
    (meets : MeetsAll dataDir st events) : Holding dataDir (events.foldl (step dataDir) st) := by
  induction events generalizing st with
  | nil => exact holding
  | cons event events ih => exact ih (stepHolds holding meets.1) meets.2

theorem lastActivationWins {s : Files} (room : (join dataDir (text "user.db.tmp")).length ≤ 255) (clean : Clean dataDir s)
    {events : List Event} (meets : MeetsAll dataDir ⟨s, none⟩ events) {boot : Boot}
    (lists : Lists dataDir boot (events.foldl (step dataDir) ⟨s, none⟩).files) :
    Current dataDir boot (events.foldl (step dataDir) ⟨s, none⟩) := by
  have start : Holding dataDir ⟨s, none⟩ := by
    refine ⟨room, clean, fun _ bad => ?_, fun _ bad => ?_⟩ <;> cases bad
  exact (restartHolds (runHolds start meets) lists).2

end

def il2cpp : Bytes := text "libil2cpp.so.new"

def shippingCall (dataPath : Bytes) : Call := { sampleCall with dataPath, dirents := [⟨il2cpp, 8⟩] }

def twoPatches : Files := filesOf [([47, 97], archiveOf [⟨[97], [1, 2, 3], 0x55bc801d⟩]),
  ([47, 112] ++ text "/assets_bin_Data/z", archiveOf [⟨[98], [9, 9, 9], 0x588ee170⟩]), (join [47, 112] il2cpp, [1]),
  ([47, 113] ++ text "/assets_bin_Data/z", archiveOf [⟨[98], [9, 9, 9], 0x588ee170⟩]), (join [47, 113] il2cpp, [2])]

def sampleBoot : Boot := ⟨true, true, false, true, [⟨text "user.db", 8⟩, ⟨il2cpp, 8⟩]⟩

def activated (events : List Event) : State := events.foldl (step [47, 100]) ⟨twoPatches, none⟩

section
variable {dataDir : Bytes} {keys : List Bytes}

def stepKeys (dataDir : Bytes) (st : State) (keys : List Bytes) : Event → List Bytes
  | .activate call => keys ++ (useDataDir dataDir call st.files).1.flatMap Op.touches
  | .restart boot => keys ++ (preProcessAllSoLib dataDir boot.listing).flatMap Op.touches

theorem stepKnown {st : State} (known : ∀ path, (st.files path).isSome → path ∈ keys) (event : Event) (path : Bytes)
    (present : ((step dataDir st event).files path).isSome) : path ∈ stepKeys dataDir st keys event := by
  cases event with
  | activate call =>
    have files : (step dataDir st (.activate call)).files = runs st.files (useDataDir dataDir call st.files).1 := by
      rw [step]
      split <;> rename_i called <;> rw [called]
    rw [files] at present
    exact runsKnown known _ path present
  | restart boot =>
    rw [step] at present
    dsimp only at present
    rcases restartCases dataDir boot st.files with ⟨same, _⟩ | ⟨gone, _⟩ | ⟨installed, _⟩
    · rw [same] at present
      exact List.mem_append_left _ (known path present)
    · rw [gone] at present
      by_cases db : path = userDbPath dataDir
      · simp [db, Op.run] at present
      · rw [Op.runOther (by simpa [Op.touches] using db)] at present
        exact List.mem_append_left _ (known path present)
    · rw [installed] at present
      exact runsKnown known _ path present

def runKeys (dataDir : Bytes) : State → List Bytes → List Event → List Bytes
  | _, keys, [] => keys
  | st, keys, event :: events => runKeys dataDir (step dataDir st event) (stepKeys dataDir st keys event) events

theorem runKnown (st : State) (known : ∀ path, (st.files path).isSome → path ∈ keys) (events : List Event) (path : Bytes)
    (present : ((events.foldl (step dataDir) st).files path).isSome) : path ∈ runKeys dataDir st keys events := by
  induction events generalizing st keys with
  | nil => exact known path present
  | cons event events ih => exact ih _ (stepKnown known event) present

theorem listsFrom {boot : Boot} {s : Files} (known : ∀ path, (s path).isSome → path ∈ keys)
    (once : (newFiles boot.listing).Nodup)
    (present : ∀ f ∈ newFiles boot.listing, IsName f ∧ (s (join dataDir f)).isSome)
    (only : ∀ key ∈ keys, hasPostfix (key.drop (dataDir.length + 1)) →
      join dataDir (key.drop (dataDir.length + 1)) = key → key.drop (dataDir.length + 1) ∈ newFiles boot.listing) :
    Lists dataDir boot s := by
  refine ⟨once, fun f mem => (present f mem).1, fun f _ new => ⟨fun mem => (present f mem).2, fun there => ?_⟩⟩
  have name : (join dataDir f).drop (dataDir.length + 1) = f := by simp [join, List.drop_append]
  have listed := only _ (known _ there)
  rw [name] at listed
  exact listed new rfl

end

def twoPatchesKeys : List Bytes :=
  [[47, 97], [47, 112] ++ text "/assets_bin_Data/z", join [47, 112] il2cpp, [47, 113] ++ text "/assets_bin_Data/z",
    join [47, 113] il2cpp]

theorem twoPatchesKnown (path : Bytes) (present : (twoPatches path).isSome) : path ∈ twoPatchesKeys :=
  filesKnown path present

theorem twoPatchesClean : Clean [47, 100] twoPatches := by
  intro f _ _ present
  have name : (join [47, 100] f).take 3 = [47, 100, 47] := rfl
  have apart : ∀ key ∈ twoPatchesKeys, key.take 3 ≠ [47, 100, 47] := by decide +kernel
  exact absurd name (apart _ (twoPatchesKnown _ present))

theorem activatedKnown (events : List Event) (path : Bytes) (present : ((activated events).files path).isSome) :
    path ∈ runKeys [47, 100] ⟨twoPatches, none⟩ twoPatchesKeys events := by
  rw [activated] at present
  exact runKnown ⟨twoPatches, none⟩ twoPatchesKnown events path present

def shipBoth : List Event := [.activate (shippingCall [47, 112]), .activate (shippingCall [47, 113])]

theorem shippingSucceeds {dataPath : Bytes} (st : State) (named : dataPath ≠ []) (apart : dataPath ≠ [47, 100])
    (some : (merged [47, 100] (shippingCall dataPath) st.files).isSome)
    (fits : (merged [47, 100] (shippingCall dataPath) st.files).all (fun record => decide record.Fits) = true)
    (present : (st.files (join dataPath il2cpp)).isSome) : Succeeds [47, 100] (shippingCall dataPath) st.files := by
  have listed : newFiles [⟨il2cpp, 8⟩] = [il2cpp] := by decide +kernel
  have names : shipped (shippingCall dataPath) = [il2cpp] := listed
  obtain ⟨record, activates, _⟩ := mergedFits [47, 100] (shippingCall dataPath) st.files named rfl rfl some fits
  refine ⟨⟨record, activates⟩, apart, by rw [names]; decide, ?_, ?_, ?_⟩ <;> rw [names] <;> intro f mem <;>
    obtain rfl := List.mem_singleton.mp mem
  · decide
  · exact present
  · exact ⟨rfl, by simp [shippingCall, sampleCall, plainCopy], by simp [shippingCall, sampleCall, plainCopy]⟩

theorem staleLibraryInstalled :
    Succeeds [47, 100] (shippingCall [47, 112]) twoPatches ∧
    Succeeds [47, 100] (shippingCall [47, 113]) (activated [.activate (shippingCall [47, 112])]).files ∧
    Lists [47, 100] sampleBoot (activated shipBoth).files ∧
    (activated shipBoth).last.map Last.libraries = some [(text "libil2cpp.so", [2])] ∧
    (extractPatchInfo [47, 100] sampleBoot (activated shipBoth).files).1 (join [47, 100] (text "libil2cpp.so")) = some [1] ∧
    ¬ Current [47, 100] sampleBoot (activated shipBoth) := by
  have first : Succeeds [47, 100] (shippingCall [47, 112]) twoPatches :=
    shippingSucceeds ⟨twoPatches, none⟩ (by decide) (by decide) (by decide +kernel) (by decide +kernel)
      (by decide +kernel)
  have second : Succeeds [47, 100] (shippingCall [47, 113]) (activated [.activate (shippingCall [47, 112])]).files :=
    shippingSucceeds _ (by decide) (by decide) (by decide +kernel) (by decide +kernel) (by decide +kernel)
  have lists : Lists [47, 100] sampleBoot (activated shipBoth).files :=
    listsFrom (activatedKnown shipBoth) (by decide +kernel) (by decide +kernel) (by decide +kernel)
  have asked : (activated shipBoth).last.map Last.libraries = some [(text "libil2cpp.so", [2])] := by decide +kernel
  have found : (extractPatchInfo [47, 100] sampleBoot (activated shipBoth).files).1
      (join [47, 100] (text "libil2cpp.so")) = some [1] := by decide +kernel
  refine ⟨first, second, lists, asked, found, fun current => ?_⟩
  have takes : (extractPatchInfo [47, 100] sampleBoot (activated shipBoth).files).2.isSome := by decide +kernel
  obtain ⟨record, taken⟩ := Option.isSome_iff_exists.mp takes
  obtain ⟨last, own, libraries⟩ := Option.map_eq_some_iff.mp asked
  have placed := (current last own record taken).2 (text "libil2cpp.so", [2]) (by rw [libraries]; exact List.mem_cons_self)
  dsimp only at placed
  have both : some [1] = some ([2] : Bytes) := found.symm.trans placed
  cases both

def shipRestarted : List Event :=
  [.activate (shippingCall [47, 112]), .restart sampleBoot, .activate (shippingCall [47, 113])]

theorem shippingLands {dataPath : Bytes} (st : State) (short : dataPath.length ≤ 200)
    (fits : (merged [47, 100] (shippingCall dataPath) st.files).all (fun record => decide record.Fits) = true)
    (absent : st.files (join [47, 100] il2cpp) = none) : Lands [47, 100] (shippingCall dataPath) st.files := by
  have listed : newFiles [⟨il2cpp, 8⟩] = [il2cpp] := by decide +kernel
  have names : shipped (shippingCall dataPath) = [il2cpp] := listed
  have length : il2cpp.length = 16 := by decide
  refine ⟨?_, ?_, ?_, Nat.le_trans short (by decide), ?_, fun record activates => ?_⟩
  case refine_5 =>
    have merges := (activatedMerged activates).1
    rw [merges] at fits
    exact of_decide_eq_true fits
  all_goals
    rw [names]
    intro f mem
    obtain rfl := List.mem_singleton.mp mem
  · exact absent
  · decide
  · decide
  · refine ⟨by decide, ?_⟩
    rw [joinLength, length]
    show dataPath.length + 16 + 1 ≤ 255
    omega

theorem restartedCurrent : Current [47, 100] sampleBoot (activated shipRestarted) := by
  have meets : MeetsAll [47, 100] ⟨twoPatches, none⟩ shipRestarted := by
    refine ⟨⟨?_, ?_⟩, ?_, ⟨?_, ?_⟩, trivial⟩
    · exact shippingSucceeds ⟨twoPatches, none⟩ (by decide) (by decide) (by decide +kernel) (by decide +kernel)
        (by decide +kernel)
    · exact shippingLands ⟨twoPatches, none⟩ (by decide) (by decide +kernel) (by decide +kernel)
    · exact listsFrom (activatedKnown [.activate (shippingCall [47, 112])]) (by decide +kernel) (by decide +kernel)
        (by decide +kernel)
    · exact shippingSucceeds _ (by decide) (by decide) (by decide +kernel) (by decide +kernel) (by decide +kernel)
    · exact shippingLands _ (by decide) (by decide +kernel) (by decide +kernel)
  have lists : Lists [47, 100] sampleBoot (activated shipRestarted).files :=
    listsFrom (activatedKnown shipRestarted) (by decide +kernel) (by decide +kernel) (by decide +kernel)
  rw [activated] at lists ⊢
  exact lastActivationWins (by decide) twoPatchesClean meets lists

end Bootstrap.UseDataDir
