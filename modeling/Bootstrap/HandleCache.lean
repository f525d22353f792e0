import Bootstrap.ShadowCursor
import Mathlib.Data.List.Perm.Basic
import Mathlib.Logic.Function.Iterate
import Mathlib.Logic.Relation

/-! The cache of FILEs that a ShadowZip holds: the first file stays open, of the others one at
most, and each FILE that was opened is closed once. -/
namespace Bootstrap.ShadowStream
open Bootstrap.ShadowZip CInt ByteLayout SerialUtils
open PlainFile (Memory)

/- ~ShadowZip() -/
def destroy (z : ShadowZip) : ShadowZip := fclose z

/-- The files that ::fopen finds may be others at each call. A read is the calls of prepare_file
that it makes, each followed by a use of the FILE; one that comes to NULL stops there. -/
inductive Step : ShadowZip → ShadowZip → Prop where
  | asked {z files fileIndex fp z'} (prepared : prepareFile files fileIndex z = .ok (fp, z')) : Step z z'
  | used {z i fp} (here : z.fpArray[i]? = some (some fp)) (pos : Int) (position : Nat) :
      Step z { z with pos, fpArray := z.fpArray.set i (some { fp with position }) }
  | read {z files memory size nmemb n memory' z'}
      (done : fread files memory size nmemb z = .ok (n, memory', z')) : Step z z'
  | line {z files memory size s z'} (done : fgets files memory size z = .ok (s, z')) : Step z z'
  | sought (z offset whence) : Step z (fseek offset whence z).2
  | rewound (z) : Step z (rewind z)

def held (fps : List (Option Handle)) : List Handle := fps.filterMap id

structure Open (z : ShadowZip) (fp : Handle) : Prop where
  opened : z.opened[fp.id]? = some fp.path
  notClosed : fp.id ∉ z.closed

structure CacheInvariant (z : ShadowZip) : Prop where
  few : (held z.fpArray).length ≤ 2
  others : (held z.fpArray.tail).length ≤ 1
  own : ∀ (i : Nat) (fp : Handle), z.fpArray[i]? = some (some fp) → z.allFiles[i]? = some fp.path ∧ Open z fp

/-! The invariant behind it: what is opened is closed or held. -/

structure Kept (z : ShadowZip) : Prop where
  others : (held z.fpArray.tail).length ≤ 1
  own : ∀ (i : Nat) (fp : Handle), z.fpArray[i]? = some (some fp) →
    z.allFiles[i]? = some fp.path ∧ z.opened[fp.id]? = some fp.path
  accounted : (z.closed ++ (held z.fpArray).map Handle.id).Perm (List.range z.opened.length)

theorem heldMem {fps : List (Option Handle)} {i : Nat} {fp : Handle} (here : fps[i]? = some (some fp)) :
    fp ∈ held fps := List.mem_filterMap.mpr ⟨some fp, List.mem_of_getElem? here, rfl⟩

theorem heldIds (fps : List (Option Handle)) : fps.filterMap (Option.map Handle.id) = (held fps).map Handle.id := by
  rw [held, List.map_filterMap]
  rfl

theorem heldSet {fps : List (Option Handle)} {i : Nat} (empty : fps[i]? = some none) (fp : Handle) :
    (held (fps.set i (some fp))).Perm (fp :: held fps) := by
  induction fps generalizing i with
  | nil => simp at empty
  | cons head rest ih =>
    cases i with
    | zero =>
      cases Option.some.inj empty
      exact .refl _
    | succ i =>
      have later := ih (i := i) empty
      cases head with
      | none => exact later
      | some other => exact (later.cons other).trans (.swap fp other _)

theorem heldMoved {fps : List (Option Handle)} {i : Nat} {fp : Handle} (here : fps[i]? = some (some fp)) (position : Nat) :
    (held (fps.set i (some { fp with position }))).map Handle.id = (held fps).map Handle.id := by
  induction fps generalizing i with
  | nil => simp at here
  | cons head rest ih =>
    cases i with
    | zero =>
      cases Option.some.inj here
      rfl
    | succ i =>
      have later := ih (i := i) here
      cases head with
      | none => exact later
      | some other => exact congrArg (other.id :: ·) later

theorem closedOthers (fps : List (Option Handle)) : held (closeOthers fps).1.tail = [] := by
  cases fps with
  | nil => rfl
  | cons head rest => simp [closeOthers, held]

theorem closedSlot {fps : List (Option Handle)} {i : Nat} (empty : fps[i]? = some none) :
    (closeOthers fps).1[i]? = some none := by
  cases fps with
  | nil => simp at empty
  | cons head rest =>
    cases i with
    | zero => exact empty
    | succ i =>
      have below := (List.getElem?_eq_some_iff.mp empty).1
      rw [closeOthers, List.getElem?_cons_succ, List.getElem?_map,
        List.getElem?_eq_getElem (Nat.lt_of_succ_lt_succ below), Option.map_some]

theorem closedHeld (fps : List (Option Handle)) :
    ((closeOthers fps).2 ++ (held (closeOthers fps).1).map Handle.id).Perm ((held fps).map Handle.id) := by
  cases fps with
  | nil => exact .refl _
  | cons head rest =>
    have none_ : held (rest.map (fun _ => none)) = [] := by simp [held]
    have gone := heldIds rest
    cases head with
    | none =>
      have front : held (none :: rest.map (fun _ => none)) = [] := none_
      rw [closeOthers, front, gone, List.map_nil, List.append_nil]
      exact .refl _
    | some fp =>
      have front : held (some fp :: rest.map (fun _ => none)) = [fp] := congrArg (fp :: ·) none_
      rw [closeOthers, front, gone]
      exact List.perm_append_singleton _ _

theorem setEntry {fps : List (Option Handle)} {i j : Nat} {fp got : Handle}
    (here : (fps.set i (some fp))[j]? = some (some got)) : i = j ∧ got = fp ∨ fps[j]? = some (some got) := by
  rw [List.getElem?_set] at here
  split at here
  · rename_i same
    split at here
    · cases here
      exact .inl ⟨same, rfl⟩
    · cases here
  · exact .inr here

section
variable {z : ShadowZip}

theorem keptInvariant (kept : Kept z) : CacheInvariant z := by
  refine ⟨?_, kept.others, fun i fp here => ?_⟩
  · have others := kept.others
    cases fps : z.fpArray with
    | nil => simp [held]
    | cons head rest =>
      rw [fps] at others
      cases head with
      | none => exact Nat.le_succ_of_le others
      | some fp => exact Nat.succ_le_succ others
  · obtain ⟨named, opened⟩ := kept.own i fp here
    have once := kept.accounted.nodup_iff.mpr List.nodup_range
    exact ⟨named, opened, fun closed => (List.nodup_append.mp once).2.2 _ closed _
      (List.mem_map_of_mem (heldMem here)) rfl⟩

theorem keptEvicted (kept : Kept z) :
    Kept { z with fpArray := (closeOthers z.fpArray).1, closed := z.closed ++ (closeOthers z.fpArray).2 } := by
  refine ⟨?_, fun i fp here => kept.own i fp (closedOwn here), ?_⟩
  · dsimp only
    rw [closedOthers]
    exact Nat.zero_le _
  · dsimp only
    rw [List.append_assoc]
    exact ((closedHeld z.fpArray).append_left z.closed).trans kept.accounted

theorem keptOpened (kept : Kept z) (alone : held z.fpArray.tail = []) {i : Nat} (empty : z.fpArray[i]? = some none)
    {path : Bytes} (named : z.allFiles[i]? = some path) : Kept { z with
      fpArray := z.fpArray.set i (some ⟨z.opened.length, path, 0⟩), opened := z.opened ++ [path] } := by
  refine ⟨?_, fun j fp here => ?_, ?_⟩
  · dsimp only
    cases fps : z.fpArray with
    | nil => simp [held]
    | cons head rest =>
      rw [fps] at alone empty
      cases i with
      | zero => exact Nat.le_of_eq (congrArg List.length alone) |>.trans (Nat.zero_le 1)
      | succ i =>
        have one := (heldSet (show rest[i]? = some none from empty) ⟨z.opened.length, path, 0⟩).length_eq
        rw [List.set_cons_succ, List.tail_cons, one, List.length_cons, show held rest = [] from alone]
        exact Nat.le_refl 1
  · dsimp only at here ⊢
    rcases setEntry here with ⟨rfl, rfl⟩ | old
    · exact ⟨named, by rw [List.getElem?_append_right (Nat.le_refl _), Nat.sub_self]; rfl⟩
    · obtain ⟨named', opened⟩ := kept.own j fp old
      exact ⟨named', by rw [List.getElem?_append_left (List.getElem?_eq_some_iff.mp opened).1, opened]⟩
  · have added := (heldSet empty ⟨z.opened.length, path, 0⟩).map Handle.id
    dsimp only
    rw [List.length_append, List.length_singleton, List.range_succ]
    refine (added.append_left z.closed).trans ?_
    rw [List.map_cons]
    exact List.perm_middle.trans ((kept.accounted.cons _).trans (List.perm_append_singleton _ _).symm)

theorem keptUsed (kept : Kept z) {i : Nat} {fp : Handle} (here : z.fpArray[i]? = some (some fp)) (pos : Int)
    (position : Nat) : Kept { z with pos, fpArray := z.fpArray.set i (some { fp with position }) } := by
  refine ⟨?_, fun j other there => ?_, ?_⟩
  · have others := kept.others
    dsimp only
    cases fps : z.fpArray with
    | nil => simp [held]
    | cons head rest =>
      rw [fps] at others here
      cases i with
      | zero => exact others
      | succ i =>
        have moved := congrArg List.length (heldMoved (i := i) here position)
        rw [List.length_map, List.length_map] at moved
        rw [List.set_cons_succ, List.tail_cons, moved]
        exact others
  · dsimp only at there ⊢
    rcases setEntry there with ⟨rfl, rfl⟩ | old
    · exact kept.own i fp here
    · exact kept.own j other old
  · dsimp only
    rw [heldMoved here]
    exact kept.accounted

theorem keptAsked (kept : Kept z) {files : Files} {fileIndex : Int} {fp : Option Handle} {z' : ShadowZip}
    (prepared : prepareFile files fileIndex z = .ok (fp, z')) : Kept z' ∧
      ∀ got, fp = some got → z'.fpArray[fileIndex.toNat]? = some (some got) := by
  rw [prepareFile] at prepared
  split at prepared
  · cases prepared
  cases slot : z.fpArray[fileIndex.toNat]? with
  | none =>
    rw [slot] at prepared
    cases prepared
  | some entry =>
    cases entry with
    | some cached =>
      rw [slot] at prepared
      cases prepared
      exact ⟨kept, fun got same => same ▸ slot⟩
    | none =>
      have evicted := keptEvicted kept
      have empty := closedSlot slot
      rw [slot] at prepared
      dsimp only at prepared
      cases named : z.allFiles[fileIndex.toNat]? with
      | none =>
        rw [named] at prepared
        cases prepared
      | some path =>
        rw [named] at prepared
        dsimp only at prepared
        cases found : files path with
        | none =>
          rw [found] at prepared
          cases prepared
          exact ⟨evicted, fun got bad => by cases bad⟩
        | some content =>
          rw [found] at prepared
          cases prepared
          refine ⟨keptOpened evicted (closedOthers _) empty named, fun got same => ?_⟩
          cases same
          rw [List.getElem?_set_self (List.getElem?_eq_some_iff.mp empty).1]

theorem keptPos (kept : Kept z) (pos : Int) : Kept { z with pos } := ⟨kept.others, kept.own, kept.accounted⟩

theorem keptUse (kept : Kept z) {i : Nat} {fp got : Handle} (here : z.fpArray[i]? = some (some fp))
    (same : got.id = fp.id ∧ got.path = fp.path) (pos : Int) :
    Kept { z with pos, fpArray := z.fpArray.set i (some got) } := by
  obtain ⟨id, path, position⟩ := got
  obtain ⟨rfl, rfl⟩ := same
  exact keptUsed kept here pos position

theorem readHandleSame (files : Files) (fp : Handle) (offset size : Nat) :
    (readHandle files fp offset size).2.id = fp.id ∧ (readHandle files fp offset size).2.path = fp.path := ⟨rfl, rfl⟩

theorem getLineSame (files : Files) (fp : Handle) (offset : Nat) (size : Int) :
    (getLine files fp offset size).2.id = fp.id ∧ (getLine files fp offset size).2.path = fp.path := ⟨rfl, rfl⟩

theorem keptPartition {files : Files} {stop : Nat} {info : FilePartitionInfo} {r r' : Reading} (kept : Kept r.zip)
    {done : Bool} (read : readPartition files stop info r = .ok (done, r')) : Kept r'.zip := by
  rw [readPartition] at read
  split at read
  · cases read
    exact kept
  split at read
  · cases read
  dsimp only at read
  cases asked : prepareFile files (i32 info.fileIndex) r.zip with
  | error stop =>
    rw [asked] at read
    cases read
  | ok answer =>
    obtain ⟨file, zip⟩ := answer
    obtain ⟨after, here⟩ := keptAsked kept asked
    rw [exceptOk asked] at read
    cases file with
    | none => cases read
    | some fp =>
      simp only [pure, Except.pure, Except.ok.injEq, Prod.mk.injEq] at read
      obtain ⟨_, rfl⟩ := read
      exact keptUse after (here fp rfl) (readHandleSame files fp _ _) _

theorem keptPartitions {files : Files} {stop : Nat} {infos : List FilePartitionInfo} {r r' : Reading} (kept : Kept r.zip)
    (read : readPartitions files stop infos r = .ok r') : Kept r'.zip := by
  induction infos generalizing r with
  | nil =>
    cases read
    exact kept
  | cons info infos ih =>
    rw [readPartitions] at read
    cases round : readPartition files stop info r with
    | error stop =>
      rw [round] at read
      cases read
    | ok answer =>
      obtain ⟨done, next⟩ := answer
      have after := keptPartition kept round
      rw [round] at read
      cases done with
      | true =>
        cases read
        exact after
      | false => exact ih after read

theorem keptRead {files : Files} {memory memory' : Memory} {size nmemb n : Nat} {z' : ShadowZip} (kept : Kept z)
    (read : fread files memory size nmemb z = .ok (n, memory', z')) : Kept z' := by
  rw [fread] at read
  split at read
  · cases read
    exact kept
  dsimp only at read
  cases ran : readPartitions files (u64 (z.pos + u64 (size * nmemb : Nat))) z.patchPartitions ⟨z, u64 z.pos, 0, 0, memory⟩ with
  | error stop =>
    rw [ran] at read
    cases read
  | ok r =>
    rw [ran] at read
    cases read
    exact keptPartitions kept ran

theorem keptLine {files : Files} {memory : Memory} {size : Int} {infos : List FilePartitionInfo} {s : Option Memory}
    {z' : ShadowZip} (kept : Kept z) (line : fgetsFrom files memory size z infos = .ok (s, z')) : Kept z' := by
  induction infos with
  | nil =>
    cases line
    exact kept
  | cons info infos ih =>
    rw [fgetsFrom] at line
    dsimp only at line
    split at line
    · exact ih line
    split at line
    · cases line
    cases asked : prepareFile files (i32 info.fileIndex) z with
    | error stop =>
      rw [asked] at line
      cases line
    | ok answer =>
      obtain ⟨file, zip⟩ := answer
      obtain ⟨after, here⟩ := keptAsked kept asked
      rw [exceptOk asked] at line
      cases file with
      | none => cases line
      | some fp =>
        simp only [pure, Except.pure, Except.ok.injEq, Prod.mk.injEq] at line
        obtain ⟨_, rfl⟩ := line
        exact keptUse after (here fp rfl) (getLineSame files fp _ _) _

theorem keptStep {z' : ShadowZip} (kept : Kept z) (step : Step z z') : Kept z' := by
  cases step with
  | asked prepared => exact (keptAsked kept prepared).1
  | used here pos position => exact keptUsed kept here pos position
  | read done => exact keptRead kept done
  | line done => exact keptLine kept done
  | sought offset whence =>
    simp only [fseek]
    generalize (if whence = SEEK_SET then offset else if whence = SEEK_CUR then i64 (z.pos + offset)
      else if whence = SEEK_END then i64 (u64 (z.endOfFile + offset)) else z.pos) = pos
    split
    · exact kept
    · exact keptPos kept _
  | rewound => exact keptPos kept 0

theorem keptRun {z' : ShadowZip} (kept : Kept z) (run : Relation.ReflTransGen Step z z') : Kept z' := by
  induction run with
  | refl => exact kept
  | tail _ step ih => exact keptStep ih step

theorem keptFopen {data : ShadowZipGlobalData} {pos : Int} {files : Files} {fp : Option Handle}
    (opened : fopen files (shadowZip data pos) = .ok (fp, z)) : Kept z := by
  have empty : held (List.replicate data.allFiles.length none) = [] := by simp [held]
  have fresh : Kept { shadowZip data pos with pos := 0, fpArray := List.replicate data.allFiles.length none } := by
    refine ⟨?_, fun i fp here => ?_, ?_⟩
    · dsimp only
      rw [List.tail_replicate, held, List.filterMap_replicate_of_none rfl]
      exact Nat.zero_le 1
    · exact absurd (List.eq_of_mem_replicate (List.mem_of_getElem? here)) (by simp)
    · dsimp only
      rw [empty]
      exact .refl _
  exact (keptAsked fresh opened).1

/-- Each FILE that was opened is closed once, and no other. -/
def ClosedOnce (z : ShadowZip) : Prop := ∀ id, z.closed.count id = if id < z.opened.length then 1 else 0

theorem closedOnce (kept : Kept z) (n : Nat) : ClosedOnce (fclose^[n + 1] z) := by
  have again : ∀ n, fclose^[n + 1] z = fclose z := by
    intro n
    induction n with
    | zero => rfl
    | succ n ih =>
      rw [Function.iterate_succ_apply', ih]
      simp [fclose]
  have ids : z.fpArray.filterMap (Option.map Handle.id) = (held z.fpArray).map Handle.id := heldIds z.fpArray
  intro id
  rw [again n, fclose]
  dsimp only
  rw [ids, kept.accounted.count_eq, List.nodup_range.count]
  simp only [List.mem_range]

theorem handleCache {data : ShadowZipGlobalData} {pos : Int} {files : Files} {fp : Option Handle} {z₀ : ShadowZip}
    (opened : fopen files (shadowZip data pos) = .ok (fp, z₀)) (run : Relation.ReflTransGen Step z₀ z) :
    CacheInvariant z ∧
    (∀ files fileIndex fp z', prepareFile files fileIndex z = .ok (fp, z') → ∀ got, fp = some got →
      z'.allFiles[fileIndex.toNat]? = some got.path ∧ Open z' got) ∧
    ∀ n, ClosedOnce (destroy (fclose^[n] z)) ∧ (0 < n → ClosedOnce (fclose^[n] z)) := by
  have kept := keptRun (keptFopen opened) run
  refine ⟨keptInvariant kept, fun files fileIndex fp z' prepared got same => ?_, fun n => ⟨?_, fun some_ => ?_⟩⟩
  · obtain ⟨after, here⟩ := keptAsked kept prepared
    exact (keptInvariant after).own _ got (here got same)
  · rw [destroy, ← Function.iterate_succ_apply' fclose n z]
    exact closedOnce kept n
  · obtain ⟨m, rfl⟩ := Nat.exists_eq_add_of_lt some_
    rw [Nat.zero_add]
    exact closedOnce kept m

end

/- Both files of the sample, the second one opened by a read that came to its partition. -/
def bothHeld : ShadowZip := ⟨sampleTable, 0, [some ⟨0, [97], 0⟩, some ⟨1, [98], 0⟩], [[97], [98]], []⟩

theorem sampleCache : CacheInvariant bothHeld ∧ ClosedOnce (destroy bothHeld) := by
  have opened : fopen sampleFiles (shadowZip sampleTable 7) =
      .ok (some ⟨0, [97], 0⟩, ⟨sampleTable, 0, [some ⟨0, [97], 0⟩, none], [[97]], []⟩) := rfl
  have asked : prepareFile sampleFiles 1 ⟨sampleTable, 0, [some ⟨0, [97], 0⟩, none], [[97]], []⟩ =
      .ok (some ⟨1, [98], 0⟩, bothHeld) := rfl
  obtain ⟨cache, _, closed⟩ := handleCache opened (.single (.asked asked))
  exact ⟨cache, (closed 0).1⟩

end Bootstrap.ShadowStream
