import Bootstrap.StagedLibraries
import Mathlib.Logic.Relation

/-! pre_process_all_so_lib in runs that stop anywhere: the content of X.new is at all times under
one of its two names, and a run that comes to its end finds what the earlier ones left. -/
namespace Bootstrap.UseDataDir
open CInt ByteLayout FileStore
open Bootstrap.ShadowZip (text)

section
variable (dataDir : Bytes)

/- A file that is listed is there; a directory is passed by. -/
structure There (s : Files) (ent : Dirent) : Prop where
  name : IsName ent.name
  file : ent.type &&& DT_DIR = 0 → (s (join dataDir ent.name)).isSome

inductive Reads : Files → List Dirent → Prop where
  | done (s) : Reads s []
  | entry {s ent listing} (there : There dataDir s ent)
      (rest : Reads (runs s (preProcessAllSoLib dataDir [ent])) listing) : Reads s (ent :: listing)

/-- A file that is there from the start to the end is listed once. -/
def ListsAll (s : Files) (listing : List Dirent) : Prop :=
  ∀ name, IsName name → (∀ k, (runs s ((preProcessAllSoLib dataDir listing).take k) (join dataDir name)).isSome) →
    ((listing.filter (fun ent => ent.type &&& DT_DIR = 0)).map Dirent.name).count name = 1

def CutRun (s s' : Files) : Prop :=
  ∃ listing k, Reads dataDir s listing ∧ s' = runs s ((preProcessAllSoLib dataDir listing).take k)

def FullRun (s s' : Files) : Prop :=
  ∃ listing, Reads dataDir s listing ∧ ListsAll dataDir s listing ∧ s' = runs s (preProcessAllSoLib dataDir listing)

def Plain (s : Files) : Prop :=
  ∀ name, IsName name → (s (join dataDir name)).isSome →
    ¬ newSoPostfix ++ newSoPostfix <:+ name ∧ (join dataDir name).length ≤ 255

structure Pending (s : Files) (filename content : Bytes) : Prop where
  name : IsName filename
  new : hasPostfix filename
  staged : s (join dataDir filename) = some content

/-- The invariant of interrupted runs. -/
structure Between (s₀ s : Files) : Prop where
  pending : ∀ filename content, Pending dataDir s₀ filename content →
    s (join dataDir filename) = some content ∨
    s (join dataDir filename) = none ∧ s (join dataDir (soName filename)) = some content
  others : ∀ path, (∀ filename content, Pending dataDir s₀ filename content →
    path ≠ join dataDir filename ∧ path ≠ join dataDir (soName filename)) → s path = s₀ path

end

section
variable {dataDir : Bytes} {s₀ s : Files}

theorem plainInstallable (plain : Plain dataDir s₀) {filename content : Bytes}
    (pending : Pending dataDir s₀ filename content) : Installable dataDir filename := by
  obtain ⟨single, fits⟩ := plain filename pending.name (by rw [pending.staged]; rfl)
  refine ⟨pending.name, pending.new, fits, fun twice => single ⟨soName (soName filename), ?_⟩⟩
  rw [← List.append_assoc, postfixSplit twice, postfixSplit pending.new]

theorem betweenPending (plain : Plain dataDir s₀) (between : Between dataDir s₀ s) {filename : Bytes}
    (name : IsName filename) (new : hasPostfix filename) (there : (s (join dataDir filename)).isSome) :
    ∃ content, Pending dataDir s₀ filename content ∧ s (join dataDir filename) = some content := by
  cases staged : s₀ (join dataDir filename) with
  | some content =>
    have pending : Pending dataDir s₀ filename content := ⟨name, new, staged⟩
    rcases between.pending filename content pending with still | ⟨gone, _⟩
    · exact ⟨content, pending, still⟩
    · rw [gone] at there
      cases there
  | none =>
    -- no installation makes a file of this name: it would have to end in .new.new
    rw [between.others _ fun other content pending => ⟨fun same => ?_, fun same => ?_⟩, staged] at there
    · cases there
    · rw [same, pending.staged] at staged
      cases staged
    · have installable := plainInstallable plain pending
      exact installable.single ((joinInjective name (soNameIsName pending.name) same).2 ▸ new)

theorem installCut {filename content : Bytes} (installable : Installable dataDir filename)
    (staged : s (join dataDir filename) = some content) (k : Nat) :
    runs s ((installOps dataDir filename).take k) (join dataDir filename) = some content ∨
    runs s ((installOps dataDir filename).take k) (join dataDir filename) = none ∧
      runs s ((installOps dataDir filename).take k) (join dataDir (soName filename)) = some content := by
  have apart := (installableApart installable installable).1
  obtain ⟨placed, gone⟩ := runsReplaced apart staged
  match k with
  | 0 => exact .inl staged
  | 1 => exact .inl ((Function.update_of_ne apart _ _).trans staged)
  | 2 => exact .inr ⟨gone, placed⟩
  | k + 3 =>
    rw [List.take_of_length_le (by simp [installOps, replace])]
    exact .inr ⟨gone, placed⟩

theorem betweenOps (plain : Plain dataDir s₀) (between : Between dataDir s₀ s) {filename content : Bytes}
    (pending : Pending dataDir s₀ filename content) (staged : s (join dataDir filename) = some content) (k : Nat) :
    Between dataDir s₀ (runs s ((installOps dataDir filename).take k)) := by
  have own := plainInstallable plain pending
  have frame : ∀ path, path ≠ join dataDir filename → path ≠ join dataDir (soName filename) →
      runs s ((installOps dataDir filename).take k) path = s path := fun path new old =>
    runsOther (withinTake (installWithin dataDir filename) k) (not_or.mpr ⟨new, old⟩)
  refine ⟨fun other content' pending' => ?_, fun path outside => ?_⟩
  · by_cases same : other = filename
    · subst same
      cases pending.staged.symm.trans pending'.staged
      exact installCut own staged k
    · have there := plainInstallable plain pending'
      obtain ⟨new, old⟩ := (installableApart there own).2 same
      rw [frame _ new (installableApart there own).1, frame _ (installableApart own there).1.symm old]
      exact between.pending other content' pending'
  · obtain ⟨new, old⟩ := outside filename content pending
    rw [frame path new old]
    exact between.others path outside

theorem entryCases (plain : Plain dataDir s₀) (between : Between dataDir s₀ s) {ent : Dirent} (there : There dataDir s ent) :
    preProcessAllSoLib dataDir [ent] = [] ∧ ¬ (ent.type &&& DT_DIR = 0 ∧ hasPostfix ent.name) ∨
    ∃ content, Pending dataDir s₀ ent.name content ∧ s (join dataDir ent.name) = some content ∧
      preProcessAllSoLib dataDir [ent] = installOps dataDir ent.name := by
  by_cases new : ent.type &&& DT_DIR = 0 ∧ hasPostfix ent.name
  · obtain ⟨content, pending, staged⟩ := betweenPending plain between there.name new.2 (there.file new.1)
    have listed : newFiles [ent] = [ent.name] := by simp [newFiles, new.1, new.2]
    refine .inr ⟨content, pending, staged, ?_⟩
    rw [preProcessed (by simpa [listed] using plainInstallable plain pending), listed]
    simp
  · have listed : newFiles [ent] = [] := by simpa [newFiles] using new
    rw [preProcessed (by simp [listed]), listed]
    exact .inl ⟨rfl, new⟩

theorem entriesOps (ent : Dirent) (listing : List Dirent) : preProcessAllSoLib dataDir (ent :: listing) =
    preProcessAllSoLib dataDir [ent] ++ preProcessAllSoLib dataDir listing := by
  simp [preProcessAllSoLib]

theorem betweenEntry (plain : Plain dataDir s₀) (between : Between dataDir s₀ s) {ent : Dirent} (there : There dataDir s ent)
    (k : Nat) : Between dataDir s₀ (runs s ((preProcessAllSoLib dataDir [ent]).take k)) := by
  rcases entryCases plain between there with ⟨nothing, _⟩ | ⟨content, pending, staged, ops⟩
  · rw [nothing, List.take_nil]
    exact between
  · rw [ops]
    exact betweenOps plain between pending staged k

theorem betweenWhole (plain : Plain dataDir s₀) (between : Between dataDir s₀ s) {ent : Dirent}
    (there : There dataDir s ent) : Between dataDir s₀ (runs s (preProcessAllSoLib dataDir [ent])) := by
  have whole := betweenEntry plain between there (preProcessAllSoLib dataDir [ent]).length
  rwa [List.take_length] at whole

theorem betweenCut (plain : Plain dataDir s₀) (between : Between dataDir s₀ s) {listing : List Dirent}
    (reads : Reads dataDir s listing) (k : Nat) :
    Between dataDir s₀ (runs s ((preProcessAllSoLib dataDir listing).take k)) := by
  induction reads generalizing k with
  | done s =>
    rw [show preProcessAllSoLib dataDir [] = [] from rfl, List.take_nil]
    exact between
  | entry there rest ih =>
    have whole := betweenWhole plain between there
    rw [entriesOps, List.take_append, runsAppend]
    rcases Nat.le_total k (preProcessAllSoLib dataDir [_]).length with early | late
    · rw [Nat.sub_eq_zero_of_le early]
      exact betweenEntry plain between there k
    · rw [List.take_of_length_le late]
      exact ih whole _

theorem betweenFull (plain : Plain dataDir s₀) (between : Between dataDir s₀ s) {listing : List Dirent}
    (reads : Reads dataDir s listing) : Between dataDir s₀ (runs s (preProcessAllSoLib dataDir listing)) := by
  have whole := betweenCut plain between reads (preProcessAllSoLib dataDir listing).length
  rwa [List.take_length] at whole

theorem betweenCuts (plain : Plain dataDir s₀) (cuts : Relation.ReflTransGen (CutRun dataDir) s₀ s) :
    Between dataDir s₀ s := by
  induction cuts with
  | refl => exact ⟨fun _ _ pending => .inl pending.staged, fun _ _ => rfl⟩
  | tail _ cut ih =>
    obtain ⟨listing, k, reads, rfl⟩ := cut
    exact betweenCut plain ih reads k

theorem opsPending (plain : Plain dataDir s₀) (between : Between dataDir s₀ s) {listing : List Dirent}
    (reads : Reads dataDir s listing) : ∀ op ∈ preProcessAllSoLib dataDir listing,
      ∃ filename content, Pending dataDir s₀ filename content ∧ op ∈ installOps dataDir filename := by
  induction reads with
  | done s => exact fun op mem => absurd mem List.not_mem_nil
  | entry there rest ih =>
    intro op mem
    rw [entriesOps] at mem
    rcases List.mem_append.mp mem with own | later
    · rcases entryCases plain between there with ⟨nothing, _⟩ | ⟨content, pending, _, ops⟩
      · rw [nothing] at own
        cases own
      · exact ⟨_, content, pending, ops ▸ own⟩
    · exact ih (betweenWhole plain between there) op later

theorem goneStays (plain : Plain dataDir s₀) {filename : Bytes} (name : IsName filename) (new : hasPostfix filename)
    (gone : s (join dataDir filename) = none) {ops : List FileOp}
    (known : ∀ op ∈ ops, ∃ other content, Pending dataDir s₀ other content ∧ op ∈ installOps dataDir other) :
    runs s ops (join dataDir filename) = none := by
  refine absentStays gone fun op mem makes => ?_
  obtain ⟨other, content, pending, own⟩ := known op mem
  simp only [installOps, replace, List.cons_append, List.nil_append, List.mem_cons, List.not_mem_nil, or_false] at own
  rcases own with rfl | rfl | rfl
  · cases makes
  · have same := (joinInjective (soNameIsName pending.name) name (Option.some.inj makes)).2
    exact (plainInstallable plain pending).single (same ▸ new)
  · cases makes

theorem listedGone (plain : Plain dataDir s₀) (between : Between dataDir s₀ s) {listing : List Dirent}
    (reads : Reads dataDir s listing) {ent : Dirent} (mem : ent ∈ listing) (file : ent.type &&& DT_DIR = 0)
    (new : hasPostfix ent.name) : runs s (preProcessAllSoLib dataDir listing) (join dataDir ent.name) = none := by
  induction reads with
  | done s => cases mem
  | entry there rest ih =>
    have whole := betweenWhole plain between there
    rw [entriesOps, runsAppend]
    rcases List.mem_cons.mp mem with rfl | later
    · refine goneStays plain there.name new ?_ (opsPending plain whole rest)
      rcases entryCases plain between there with ⟨_, other⟩ | ⟨content, pending, staged, ops⟩
      · exact absurd ⟨file, new⟩ other
      · have own := plainInstallable plain pending
        rw [ops]
        exact (runsReplaced (installableApart own own).1 staged).2
    · exact ih whole later

theorem fullSettles (plain : Plain dataDir s₀) (between : Between dataDir s₀ s) {s' : Files}
    (full : FullRun dataDir s s') {filename content : Bytes} (pending : Pending dataDir s₀ filename content) :
    s' (join dataDir filename) = none ∧ s' (join dataDir (soName filename)) = some content := by
  obtain ⟨listing, reads, all, rfl⟩ := full
  have known := opsPending plain between reads
  have settled := (betweenFull plain between reads).pending _ _ pending
  refine settled.resolve_left fun waits => ?_
  -- it would have been there all the time, and so listed; but what is listed is put in place
  have throughout : ∀ k, (runs s ((preProcessAllSoLib dataDir listing).take k) (join dataDir filename)).isSome := by
    intro k
    by_contra absent
    have later : ∀ op ∈ (preProcessAllSoLib dataDir listing).drop k, _ := fun op mem => known op (List.mem_of_mem_drop mem)
    have gone := goneStays plain pending.name pending.new (Option.not_isSome_iff_eq_none.mp absent) later
    rw [← runsAppend, List.take_append_drop, waits] at gone
    cases gone
  have once := all filename pending.name throughout
  obtain ⟨ent, listed, rfl⟩ := List.mem_map.mp (List.count_pos_iff.mp (once ▸ Nat.zero_lt_one))
  obtain ⟨mem, file⟩ := List.mem_filter.mp listed
  have gone := listedGone plain between reads mem (of_decide_eq_true file) pending.new
  rw [waits] at gone
  cases gone

theorem nothingWaits (plain : Plain dataDir s₀) (between : Between dataDir s₀ s)
    (gone : ∀ filename content, Pending dataDir s₀ filename content → s (join dataDir filename) = none)
    {listing : List Dirent} (reads : Reads dataDir s listing) : preProcessAllSoLib dataDir listing = [] := by
  induction reads with
  | done s => rfl
  | entry there rest ih =>
    rcases entryCases plain between there with ⟨nothing, _⟩ | ⟨content, pending, staged, _⟩
    · rw [entriesOps, nothing, List.nil_append]
      rw [nothing] at ih
      exact ih between gone
    · rw [gone _ content pending] at staged
      cases staged

structure Installed (dataDir : Bytes) (s₀ s : Files) : Prop where
  placed : ∀ so content, so ≠ [] → IsName so → s₀ (join dataDir (so ++ newSoPostfix)) = some content →
    s (join dataDir so) = some content ∧ s (join dataDir (so ++ newSoPostfix)) = none
  others : ∀ path, (∀ so, so ≠ [] → IsName so → (s₀ (join dataDir (so ++ newSoPostfix))).isSome →
    path ≠ join dataDir so ∧ path ≠ join dataDir (so ++ newSoPostfix)) → s path = s₀ path
  settled : ∀ s', CutRun dataDir s s' → s' = s

theorem pendingNew {so content : Bytes} (some_ : so ≠ []) (name : IsName so)
    (staged : s₀ (join dataDir (so ++ newSoPostfix)) = some content) : Pending dataDir s₀ (so ++ newSoPostfix) content := by
  refine ⟨fun mem => ?_, ?_, staged⟩
  · rcases List.mem_append.mp mem with mem | mem
    · exact name mem
    · exact absurd mem (by decide)
  · have length := List.length_pos_iff.mpr some_
    simp [hasPostfix, length]

theorem installSurvivesCrashes {s₁ s₂ : Files} (plain : Plain dataDir s₀)
    (cuts : Relation.ReflTransGen (CutRun dataDir) s₀ s₁) (full : FullRun dataDir s₁ s₂) : Installed dataDir s₀ s₂ := by
  have between := betweenCuts plain cuts
  have last : Between dataDir s₀ s₂ := by
    obtain ⟨listing, reads, _, rfl⟩ := full
    exact betweenFull plain between reads
  refine ⟨fun so content some_ name staged => ?_, fun path outside => ?_, ?_⟩
  · obtain ⟨gone, placed⟩ := fullSettles plain between full (pendingNew some_ name staged)
    rw [soNameNew] at placed
    exact ⟨placed, gone⟩
  · refine last.others path fun filename content pending => ?_
    have split := postfixSplit pending.new
    have some_ : soName filename ≠ [] := by
      intro empty
      have short := pending.new
      rw [← split, empty] at short
      exact absurd short (by decide)
    obtain ⟨old, new⟩ := outside (soName filename) some_ (soNameIsName pending.name) (by rw [split, pending.staged]; rfl)
    rw [split] at new
    exact ⟨new, old⟩
  · rintro s' ⟨listing, k, reads, rfl⟩
    rw [nothingWaits plain last (fun _ _ pending => (fullSettles plain between full pending).1) reads, List.take_nil,
      runsNil]

end

/- A library in place, its successor staged, and a file of another kind. -/
def waitingLibrary : Files := filesOf [(join [0x64] (text "lib.so"), [9]), (join [0x64] libraryNew, [1, 2, 3]),
  (join [0x64] (text "user.db"), [7])]

theorem waitingNames {name : Bytes} (isName : IsName name) (there : (waitingLibrary (join [0x64] name)).isSome) :
    name = text "lib.so" ∨ name = libraryNew ∨ name = text "user.db" := by
  have known := filesKnown _ there
  simp only [List.map_cons, List.map_nil, List.mem_cons, List.not_mem_nil, or_false] at known
  rcases known with same | same | same
  · exact .inl (joinInjective isName (by decide) same).2
  · exact .inr (.inl (joinInjective isName (by decide) same).2)
  · exact .inr (.inr (joinInjective isName (by decide) same).2)

theorem waitingPlain : Plain [0x64] waitingLibrary := by
  intro name isName there
  rcases waitingNames isName there with rfl | rfl | rfl <;> exact ⟨by decide +kernel, by decide +kernel⟩

/- The library is unlinked when the first run stops. -/
def unlinkedLibrary : Files := runs waitingLibrary ((preProcessAllSoLib [0x64] [⟨libraryNew, 8⟩]).take 1)

def wholeListing : List Dirent := [⟨text "user.db", 8⟩, ⟨libraryNew, 8⟩]

theorem unlinkedRuns : FullRun [0x64] unlinkedLibrary (runs unlinkedLibrary (preProcessAllSoLib [0x64] wholeListing)) := by
  refine ⟨wholeListing, .entry ⟨by decide, fun _ => by decide +kernel⟩ (.entry ⟨by decide, fun _ => by decide +kernel⟩
    (.done _)), fun name isName throughout => ?_, rfl⟩
  have first : (unlinkedLibrary (join [0x64] name)).isSome := throughout 0
  have op : (preProcessAllSoLib [0x64] [⟨libraryNew, 8⟩]).take 1 = [.unlink (join [0x64] (text "lib.so"))] := by
    decide +kernel
  by_cases unlinked : join [0x64] name = join [0x64] (text "lib.so")
  · rw [unlinked] at first
    exact absurd first (by decide +kernel)
  · rw [unlinkedLibrary, op, runsCons, runsNil, Op.runOther (by simpa [Op.touches] using unlinked)] at first
    rcases waitingNames isName first with rfl | rfl | rfl
    · exact absurd rfl unlinked
    · exact absurd (throughout 2) (by decide +kernel)
    · decide +kernel

theorem sampleSurvives : Installed [0x64] waitingLibrary (runs unlinkedLibrary (preProcessAllSoLib [0x64] wholeListing)) :=
  installSurvivesCrashes waitingPlain
    (.single ⟨[⟨libraryNew, 8⟩], 1, .entry ⟨by decide, fun _ => by decide +kernel⟩ (.done _), rfl⟩) unlinkedRuns

end Bootstrap.UseDataDir
