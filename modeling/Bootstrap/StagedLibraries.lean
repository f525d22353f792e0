import Bootstrap.ActivationSteps
import Bootstrap.CopyFile

/-! The way of a library: a patch directory ships it as X.new, use_data_dir copies that to
the data directory, and the next start puts it in place of X. -/
namespace Bootstrap.UseDataDir
open CInt ByteLayout ShadowZip UserDb FileStore

def IsName (name : Bytes) : Prop := (0x2f : UInt8) ∉ name
instance (name) : Decidable (IsName name) := by unfold IsName; infer_instance

theorem splitAtSlash {a b c d : Bytes} (left : IsName a) (right : IsName c)
    (same : a ++ ([0x2f] ++ b) = c ++ ([0x2f] ++ d)) : a = c ∧ b = d := by
  induction a generalizing c with
  | nil =>
    cases c with
    | nil => simpa using same
    | cons ch c =>
      simp only [List.nil_append, List.cons_append, List.cons.injEq] at same
      exact absurd (same.1 ▸ List.mem_cons_self) right
  | cons ch a ih =>
    cases c with
    | nil =>
      simp only [List.nil_append, List.cons_append, List.cons.injEq] at same
      exact absurd (same.1.symm ▸ List.mem_cons_self) left
    | cons ch' c =>
      simp only [List.cons_append, List.cons.injEq] at same
      obtain ⟨rfl, same⟩ := same
      obtain ⟨rfl, tail⟩ := ih (fun mem => left (List.mem_cons_of_mem _ mem))
        (fun mem => right (List.mem_cons_of_mem _ mem)) same
      exact ⟨rfl, tail⟩

theorem joinInjective {dir dir' name name' : Bytes} (left : IsName name) (right : IsName name')
    (same : join dir name = join dir' name') : dir = dir' ∧ name = name' := by
  have reversed := congrArg List.reverse same
  simp only [join, List.reverse_append, List.reverse_cons, List.append_assoc] at reversed
  obtain ⟨names, dirs⟩ := splitAtSlash (by simpa [IsName] using left) (by simpa [IsName] using right) reversed
  exact ⟨List.reverse_injective dirs, List.reverse_injective names⟩

theorem postfixSplit {filename : Bytes} (named : hasPostfix filename) : soName filename ++ newSoPostfix = filename := by
  simp only [hasPostfix, Bool.and_eq_true, decide_eq_true_eq, beq_iff_eq] at named
  obtain ⟨_, tail⟩ := named
  have split := List.take_append_drop (filename.length - newSoPostfix.length) filename
  rw [tail] at split
  exact split

theorem soNameNew (name : Bytes) : soName (name ++ newSoPostfix) = name := by
  rw [soName, List.length_append, Nat.add_sub_cancel, List.take_left]

theorem newFilesNew {listing : List Dirent} {filename : Bytes} (mem : filename ∈ newFiles listing) :
    hasPostfix filename := by
  obtain ⟨ent, listed, rfl⟩ := List.mem_map.mp mem
  have kept := (List.mem_filter.mp listed).2
  simp only [Bool.and_eq_true] at kept
  exact kept.2

theorem soNamePrefix (filename : Bytes) : soName filename <+: filename := List.take_prefix _ _

theorem soNameIsName {filename : Bytes} (name : IsName filename) : IsName (soName filename) :=
  fun mem => name ((soNamePrefix filename).subset mem)

theorem joinLength (dir name : Bytes) : (join dir name).length = dir.length + name.length + 1 := by
  simp [join]
  omega

theorem newIsName {name : Bytes} (plain : IsName name) : IsName (name ++ newSoPostfix) := by
  have postfixPlain : IsName newSoPostfix := by decide
  unfold IsName at *
  rw [List.mem_append, not_or]
  exact ⟨plain, postfixPlain⟩

theorem joinShorter (dir name : Bytes) : (join dir name).length ≤ (join dir (name ++ newSoPostfix)).length := by
  rw [joinLength, joinLength, List.length_append]
  omega

theorem newHasPostfix {name : Bytes} (some : name ≠ []) : hasPostfix (name ++ newSoPostfix) = true := by
  have length := List.length_pos_of_ne_nil some
  rw [hasPostfix, List.length_append, Nat.add_sub_cancel, List.drop_left, beq_self_eq_true, Bool.and_true,
    decide_eq_true_eq]
  omega

theorem soNotNew {name : Bytes} (suffix : (text ".so").isSuffixOf name) (new : hasPostfix name) : False := by
  obtain ⟨front, rfl⟩ := List.isSuffixOf_iff_suffix.mp suffix
  have last := congrArg List.getLast? (postfixSplit new)
  have so : text ".so" = [0x2e, 0x73, 0x6f] := by decide
  rw [so] at last
  simp [newSoPostfix, List.getLast?_append] at last

theorem inDataDirWhole {dataDir name : Bytes} (fits : (join dataDir name).length ≤ 255) :
    inDataDir dataDir name = join dataDir name := List.take_of_length_le fits

theorem pathDropped {dir filename : Bytes} (named : hasPostfix filename) (fits : (join dir filename).length ≤ 255) :
    (snprintf256 (join dir filename)).take ((snprintf256 (join dir filename)).length - newSoPostfix.length) =
      join dir (soName filename) := by
  have whole : snprintf256 (join dir filename) = join dir filename := List.take_of_length_le fits
  have path : join dir filename = join dir (soName filename) ++ newSoPostfix := by
    rw [join, join, List.append_assoc, List.cons_append, postfixSplit named]
  rw [whole, path, List.length_append, Nat.add_sub_cancel, List.take_left]

structure Installable (dataDir filename : Bytes) : Prop where
  name : IsName filename
  new : hasPostfix filename
  fits : (join dataDir filename).length ≤ 255
  single : ¬ hasPostfix (soName filename)

def installOps (dataDir filename : Bytes) : List FileOp :=
  replace (join dataDir filename) (join dataDir (soName filename)) ++ [.chmod (join dataDir (soName filename))]

theorem preProcessed {dataDir : Bytes} {listing : List Dirent}
    (installable : ∀ filename ∈ newFiles listing, Installable dataDir filename) :
    preProcessAllSoLib dataDir listing = (newFiles listing).flatMap (installOps dataDir) := by
  induction listing with
  | nil => rfl
  | cons ent listing ih =>
    unfold preProcessAllSoLib newFiles at *
    rw [List.flatMap_cons]
    by_cases new : ent.type &&& DT_DIR = 0 ∧ hasPostfix ent.name
    · rw [List.filter_cons_of_pos (by simp [new.1, new.2]), List.map_cons] at installable ⊢
      obtain ⟨_, _, fits, _⟩ := installable _ List.mem_cons_self
      have whole : snprintf256 (join dataDir ent.name) = join dataDir ent.name := List.take_of_length_le fits
      rw [List.flatMap_cons, ← ih (fun f mem => installable f (List.mem_cons_of_mem _ mem)), if_neg (by simp [new.1, new.2])]
      simp only [pathDropped new.2 fits, installOps]
      rw [whole]
    · have skipped : ent.type &&& DT_DIR ≠ 0 ∨ ¬ hasPostfix ent.name := by
        rcases Decidable.not_and_iff_or_not.mp new with a | b
        · exact .inl a
        · exact .inr b
      rw [List.filter_cons_of_neg (by simpa using new)] at installable ⊢
      rw [if_pos skipped, List.nil_append, ← ih installable]

theorem installableApart {dataDir filename other : Bytes} (left : Installable dataDir filename)
    (right : Installable dataDir other) : join dataDir filename ≠ join dataDir (soName other) ∧
      (filename ≠ other → join dataDir filename ≠ join dataDir other ∧
        join dataDir (soName filename) ≠ join dataDir (soName other)) := by
  refine ⟨fun same => ?_, fun different => ⟨fun same => ?_, fun same => ?_⟩⟩
  · obtain ⟨_, same⟩ := joinInjective left.name (soNameIsName right.name) same
    exact right.single (same ▸ left.new)
  · exact different (joinInjective left.name right.name same).2
  · obtain ⟨_, same⟩ := joinInjective (soNameIsName left.name) (soNameIsName right.name) same
    exact different (by rw [← postfixSplit left.new, ← postfixSplit right.new, same])

theorem installWithin (dataDir filename : Bytes) :
    Within (fun path => path = join dataDir filename ∨ path = join dataDir (soName filename))
      (installOps dataDir filename) := by
  refine withinAppend (replaceWithin (.inl rfl) (.inr rfl)) (withinCons (fun _ mem => ?_) (withinNil _))
  simp [Op.touches] at mem

theorem installsOther {dataDir : Bytes} {names : List Bytes} {s : Files} {path : Bytes}
    (apart : ∀ filename ∈ names, path ≠ join dataDir filename ∧ path ≠ join dataDir (soName filename)) :
    runs s (names.flatMap (installOps dataDir)) path = s path := by
  induction names generalizing s with
  | nil => rfl
  | cons filename names ih =>
    obtain ⟨new, old⟩ := apart filename List.mem_cons_self
    rw [List.flatMap_cons, runsAppend, ih (fun f mem => apart f (List.mem_cons_of_mem _ mem))]
    exact runsOther (installWithin dataDir filename) (not_or.mpr ⟨new, old⟩)

theorem installsAll {dataDir : Bytes} {names : List Bytes} (once : names.Nodup)
    (installable : ∀ filename ∈ names, Installable dataDir filename) {s : Files} {filename : Bytes} (mem : filename ∈ names)
    {content : Bytes} (present : s (join dataDir filename) = some content) :
    runs s (names.flatMap (installOps dataDir)) (join dataDir (soName filename)) = some content ∧
      runs s (names.flatMap (installOps dataDir)) (join dataDir filename) = none := by
  induction names generalizing s with
  | nil => cases mem
  | cons first names ih =>
    obtain ⟨fresh, once⟩ := List.nodup_cons.mp once
    have own := installable first List.mem_cons_self
    have others := fun f mem => installable f (List.mem_cons_of_mem first mem)
    rw [List.flatMap_cons, runsAppend]
    rcases List.mem_cons.mp mem with rfl | later
    · have placed := runsReplaced (installableApart own own).1 present
      have kept : ∀ other ∈ names, filename ≠ other := fun other mem same => fresh (same ▸ mem)
      rw [installsOther, installsOther]
      · exact placed
      · exact fun other mem => ⟨((installableApart own (others other mem)).2 (kept other mem)).1,
          (installableApart own (others other mem)).1⟩
      · exact fun other mem => ⟨(installableApart (others other mem) own).1.symm,
          ((installableApart own (others other mem)).2 (kept other mem)).2⟩
    · have different : filename ≠ first := fun same => fresh (same ▸ later)
      have here := installable filename mem
      refine ih once others later ?_
      rw [runsOther (installWithin dataDir first)
        (not_or.mpr ⟨((installableApart here own).2 different).1, (installableApart here own).1⟩), present]

structure CopySchedule.Clear (schedule : CopySchedule) : Prop where
  targetOpens : schedule.targetOpens = true
  reads : ReadOutcome.error ∉ schedule.reads
  writes : WriteOutcome.error ∉ schedule.writes

theorem clearBuffer {writes : List WriteOutcome} (clear : WriteOutcome.error ∉ writes) (n : Nat) :
    ∃ writes', afterBuffer writes n = some writes' ∧ WriteOutcome.error ∉ writes' := by
  induction writes generalizing n with
  | nil => exact ⟨[], rfl, List.not_mem_nil⟩
  | cons outcome writes ih =>
    have rest := fun mem => clear (List.mem_cons_of_mem outcome mem)
    cases outcome with
    | error => exact absurd List.mem_cons_self clear
    | interrupted => exact ih rest n
    | bytes k =>
      rw [afterBuffer]
      split
      · exact ⟨writes, rfl, rest⟩
      · exact ih rest (n - k)

theorem clearUndisturbed {reads : List ReadOutcome} {writes : List WriteOutcome} (clearReads : ReadOutcome.error ∉ reads)
    (clearWrites : WriteOutcome.error ∉ writes) (n : Nat) : Undisturbed reads writes n := by
  induction n using Nat.strongRecOn generalizing reads writes with
  | ind n ih =>
    by_cases done : n = 0
    · rw [done]
      exact .done
    · obtain ⟨k, moved⟩ : ∃ k, moves reads.head? = some k := by
        cases reads with
        | nil => exact ⟨_, rfl⟩
        | cons outcome reads =>
          cases outcome with
          | error => exact absurd List.mem_cons_self clearReads
          | bytes n => exact ⟨_, rfl⟩
      have some_ := movesSome moved
      obtain ⟨writes', written, clear⟩ := clearBuffer clearWrites (min k n)
      exact .round (by omega) moved written
        (ih (n - k) (by omega) (fun mem => clearReads (List.mem_of_mem_tail mem)) clear)

theorem copyFileWhole {schedule : CopySchedule} (clear : schedule.Clear) {fromPath toPath source : Bytes} {s : Files}
    (present : s fromPath = some source) (absent : s toPath = none) :
    runs s (copyFile schedule fromPath toPath s).1 toPath = some source := by
  obtain ⟨_, whole⟩ := (copyLoopExact (Nat.lt_succ_self source.length)).mpr
    (clearUndisturbed clear.reads clear.writes source.length)
  rw [copyBegun present clear.targetOpens absent, runsCreated absent, whole]

section
variable {dataDir : Bytes} {call : Call} (apart : call.dataPath ≠ dataDir)

theorem shippedPathWhole {filename : Bytes} (source : Installable call.dataPath filename) :
    shippedPath call filename = join call.dataPath filename := List.take_of_length_le source.fits

theorem keptPathWhole {filename : Bytes} (source : Installable call.dataPath filename) :
    keptPath call filename = join call.dataPath (soName filename) := pathDropped source.new source.fits

def libraryPaths (dataDir : Bytes) (call : Call) (filename path : Bytes) : Prop :=
  path = join call.dataPath filename ∨ path = join call.dataPath (soName filename) ∨ path = join dataDir filename

theorem prepareLibWithin {filename : Bytes} (staged : Installable dataDir filename)
    (source : Installable call.dataPath filename) (schedule : CopySchedule) (s : Files) :
    Within (libraryPaths dataDir call filename) (prepareLib dataDir call.dataPath schedule filename s) := by
  have target : inDataDir dataDir filename = join dataDir filename := inDataDirWhole staged.fits
  exact withinAppend (copyWithin fun _ => .inr (.inr target))
    (replaceWithin (.inl (shippedPathWhole source)) (.inr (.inl (keptPathWhole source))))

include apart in
theorem libraryPathsApart {filename other : Bytes} (staged : Installable dataDir filename)
    (source : Installable call.dataPath filename) (staged' : Installable dataDir other)
    (source' : Installable call.dataPath other) (different : filename ≠ other) :
    ¬ libraryPaths dataDir call other (join dataDir filename) ∧
      ¬ libraryPaths dataDir call other (join call.dataPath filename) := by
  constructor
  · rintro (same | same | same)
    · exact apart (joinInjective staged.name source'.name same).1.symm
    · exact apart (joinInjective staged.name (soNameIsName source'.name) same).1.symm
    · exact different (joinInjective staged.name staged'.name same).2
  · rintro (same | same | same)
    · exact different (joinInjective source.name source'.name same).2
    · exact (installableApart source source').1 same
    · exact apart (joinInjective source.name staged'.name same).1

def stageAll (dataDir : Bytes) (call : Call) : List Bytes → Files → List FileOp
  | [], _ => []
  | filename :: names, s =>
    let ops := prepareLib dataDir call.dataPath (call.schedules filename) filename s
    ops ++ stageAll dataDir call names (runs s ops)

theorem prepareStages (ents : List Dirent) (s : Files) :
    prepareSoLib dataDir call.dataPath call.schedules ents s = stageAll dataDir call (newFiles ents) s := by
  induction ents generalizing s with
  | nil => rfl
  | cons ent ents ih =>
    unfold newFiles at *
    rw [prepareSoLib]
    by_cases new : ent.type &&& DT_DIR = 0 ∧ hasPostfix ent.name
    · rw [List.filter_cons_of_pos (by simp [new.1, new.2]), List.map_cons, stageAll, if_neg (by simp [new.1, new.2])]
      simp only [ih]
    · rw [List.filter_cons_of_neg (by simpa using new), if_pos (by simpa [imp_iff_not_or] using new), ih]

theorem stageOther {names : List Bytes} (staged : ∀ f ∈ names, Installable dataDir f)
    (source : ∀ f ∈ names, Installable call.dataPath f) {s : Files} {path : Bytes}
    (outside : ∀ f ∈ names, ¬ libraryPaths dataDir call f path) :
    runs s (stageAll dataDir call names s) path = s path := by
  induction names generalizing s with
  | nil => rfl
  | cons first names ih =>
    have here := prepareLibWithin (staged first List.mem_cons_self) (source first List.mem_cons_self)
    rw [stageAll, runsAppend, ih (fun f mem => staged f (List.mem_cons_of_mem _ mem))
      (fun f mem => source f (List.mem_cons_of_mem _ mem)) (fun f mem => outside f (List.mem_cons_of_mem _ mem))]
    exact runsOther (here _ s) (outside first List.mem_cons_self)

include apart in
theorem stagesAll {names : List Bytes} (once : names.Nodup) (staged : ∀ f ∈ names, Installable dataDir f)
    (source : ∀ f ∈ names, Installable call.dataPath f) (clear : ∀ f ∈ names, (call.schedules f).Clear) {s : Files}
    {content : Bytes → Bytes} (present : ∀ f ∈ names, s (join call.dataPath f) = some (content f))
    (absent : ∀ f ∈ names, s (join dataDir f) = none) {filename : Bytes} (mem : filename ∈ names) :
    runs s (stageAll dataDir call names s) (join dataDir filename) = some (content filename) := by
  induction names generalizing s with
  | nil => cases mem
  | cons first names ih =>
    obtain ⟨fresh, once⟩ := List.nodup_cons.mp once
    have target := staged first List.mem_cons_self
    have origin := source first List.mem_cons_self
    have here := prepareLibWithin target origin (call.schedules first) s
    have stagedRest := fun f mem => staged f (List.mem_cons_of_mem first mem)
    have sourceRest := fun f mem => source f (List.mem_cons_of_mem first mem)
    have different : ∀ f ∈ names, f ≠ first := fun f mem same => fresh (same ▸ mem)
    rw [stageAll, runsAppend]
    rcases List.mem_cons.mp mem with rfl | later
    · have outside : ∀ f ∈ names, ¬ libraryPaths dataDir call f (join dataDir filename) := fun f mem =>
        (libraryPathsApart apart target origin (stagedRest f mem) (sourceRest f mem) (different f mem).symm).1
      rw [stageOther stagedRest sourceRest outside, prepareLib]
      have copied := copyFileWhole (clear filename List.mem_cons_self) (present filename List.mem_cons_self)
        (absent filename List.mem_cons_self)
      have kept : Within (fun path => path ≠ join dataDir filename)
          (replace (shippedPath call filename) (keptPath call filename) : List FileOp) := by
        refine replaceWithin (fun same => ?_) (fun same => ?_)
        · rw [shippedPathWhole origin] at same
          exact apart (joinInjective origin.name target.name same).1
        · rw [keptPathWhole origin] at same
          exact apart (joinInjective (soNameIsName origin.name) target.name same).1
      rw [← shippedPathWhole origin, ← inDataDirWhole target.fits] at copied
      rw [runsAppend]
      have place := congrArg (runs s (copyFile (call.schedules filename) (shippedPath call filename)
        (inDataDir dataDir filename) s).1) (inDataDirWhole target.fits)
      exact (runsOther kept (not_not.mpr rfl)).trans (place.symm.trans copied)
    · refine ih once stagedRest sourceRest (fun f mem => clear f (List.mem_cons_of_mem _ mem)) (fun f mem => ?_)
        (fun f mem => ?_) later
      · rw [runsOther here (libraryPathsApart apart (stagedRest f mem) (sourceRest f mem) target origin
          (different f mem)).2]
        exact present f (List.mem_cons_of_mem _ mem)
      · rw [runsOther here (libraryPathsApart apart (stagedRest f mem) (sourceRest f mem) target origin
          (different f mem)).1]
        exact absent f (List.mem_cons_of_mem _ mem)

end

end Bootstrap.UseDataDir
