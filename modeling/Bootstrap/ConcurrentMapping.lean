import Bootstrap.RecordLookup
import Bootstrap.Interleaving

/-! get_mapping in file mode, one system call at a time: what threads find that ask about
the same descriptor at once. -/
namespace Bootstrap.FileMapping
open CInt ByteLayout OpenFiles
open ShadowStream (SEEK_SET SEEK_CUR)
open Interleaving (move run moveHere moveOther runCons runKeeps runInvariant)

inductive Getting where
  | query
  | rewind
  | read
  | restore (readCnt : Int) (copy : Bytes)
  | done (fileExtraData : Nat)
  deriving DecidableEq, Repr

def systemCall (fd : Int) (k : Kernel) : Getting → Getting × Kernel
  | .query =>
    let (pos, k) := k.lseek fd 0 SEEK_CUR
    (if pos ≠ 0 then .done NULL else .rewind, k)
  | .rewind => (.read, (k.lseek fd 0 SEEK_SET).2)
  | .read =>
    let (readCnt, copy, k) := k.read fd FileExtraData.sizeOf
    (.restore readCnt copy, k)
  | .restore readCnt copy => (.done (validate fd readCnt copy), (k.lseek fd 0 SEEK_SET).2)
  | .done fileExtraData => (.done fileExtraData, k)

abbrev Threads (τ : Type) := Interleaving.State τ Getting Kernel

variable {τ : Type} [DecidableEq τ]

def calling (k : Kernel) : Threads τ := ⟨fun _ => .query, k⟩

def Finished (s : Threads τ) : Prop := ∀ t, ∃ fileExtraData, s.threads t = .done fileExtraData

theorem aloneGetFileMapping (k : Kernel) (fd : Int) (t : τ) :
    (run (systemCall fd) (calling k) (List.replicate 4 t)).threads t = .done (getFileMapping k fd).1 ∧
    (run (systemCall fd) (calling k) (List.replicate 4 t)).shared = (getFileMapping k fd).2 := by
  obtain ⟨shared, own⟩ : _ ∧ (run (systemCall fd) (calling k) (List.replicate 4 t)).threads t = _ :=
    Interleaving.runAlone (calling k) t 4
  rw [shared, own]
  simp only [Function.iterate_succ, Function.iterate_zero, Function.comp_apply, id_eq, calling]
  by_cases away : (k.lseek fd 0 SEEK_CUR).1 ≠ 0
  · simp only [systemCall, getFileMapping, if_pos away, and_self]
  · simp only [systemCall, getFileMapping, if_neg away, and_self]

/-! The order of the system calls. A thread's calls are counted by its turns: it asks for the
offset (0), rewinds (1), reads (2) and rewinds (3). The file is moved from a read on until
someone rewinds it. -/

def movedAfter : Nat → Bool → Bool
  | 1, _ => false
  | 2, _ => true
  | 3, _ => false
  | _, moved => moved

/-- Nobody asks for the offset and nobody reads while the file is moved. -/
def Quiet (turns : τ → Nat) (moved : Bool) : List τ → Prop
  | [] => True
  | t :: schedule =>
    (turns t = 0 ∨ turns t = 2 → moved = false) ∧
      Quiet (Function.update turns t (turns t + 1)) (movedAfter (turns t) moved) schedule

def decideQuiet : (turns : τ → Nat) → (moved : Bool) → (schedule : List τ) → Decidable (Quiet turns moved schedule)
  | _, _, [] => isTrue trivial
  | turns, moved, t :: schedule =>
    have := decideQuiet (Function.update turns t (turns t + 1)) (movedAfter (turns t) moved) schedule
    inferInstanceAs (Decidable ((turns t = 0 ∨ turns t = 2 → moved = false) ∧ _))
instance (turns : τ → Nat) (moved schedule) : Decidable (Quiet turns moved schedule) := decideQuiet turns moved schedule

def undisturbed (r : FileExtraData) : Nat → Getting
  | 0 => .query
  | 1 => .rewind
  | 2 => .read
  | 3 => .restore FileExtraData.sizeOf r.image
  | _ => .done r.self

def offsetOf (moved : Bool) : Nat := if moved then FileExtraData.sizeOf else 0

def offsetAt (k : Kernel) (fd : Int) (node offset : Nat) : Kernel := k.setFile fd (some ⟨node, offset, true⟩)

theorem offsetAtStart {k : Kernel} {fd : Int} {node : Nat} (here : k.fds fd = some ⟨node, 0, true⟩) :
    offsetAt k fd node 0 = k := Kernel.setFileSame here

section
variable {k : Kernel} {fd : Int} {node offset : Nat}

theorem queryCall (k : Kernel) (fd : Int) (node offset : Nat) : systemCall fd (offsetAt k fd node offset) .query =
    (if offset = 0 then .rewind else .done NULL, offsetAt k fd node offset) := by
  obtain ⟨still, atStart⟩ := Kernel.lseekHere (k := offsetAt k fd node offset) (Kernel.setFileHere k fd _)
  simp only [systemCall, SEEK_CUR, still, ne_eq, atStart, ite_not]

theorem rewound : ((offsetAt k fd node offset).lseek fd 0 0).2 = offsetAt k fd node 0 := by
  rw [Kernel.lseekStart (k := offsetAt k fd node offset) (Kernel.setFileHere k fd _)]
  exact Kernel.setFileTwice _ _ _ _

theorem readCall (fd : Int) {copy : Bytes} (taken : copy = slice (k.contents node) offset FileExtraData.sizeOf) :
    systemCall fd (offsetAt k fd node offset) .read = (.restore copy.length copy, offsetAt k fd node (offset + copy.length)) := by
  have small : FileExtraData.sizeOf ≤ readLimit := by decide
  have found := Kernel.readHere (k := offsetAt k fd node offset) (Kernel.setFileHere k fd _) rfl small taken
  simp only [systemCall, found]
  congr 1
  exact Kernel.setFileTwice _ _ _ _

end

section
variable {p : Process} {k : Kernel} {fd : Int} {node : Nat} {r : FileExtraData}

structure InStep (k : Kernel) (fd : Int) (node : Nat) (r : FileExtraData) (turns : τ → Nat) (moved : Bool)
    (s : Threads τ) : Prop where
  threads : ∀ t, s.threads t = undisturbed r (turns t)
  shared : s.shared = offsetAt k fd node (offsetOf moved)

theorem inStepMove {turns : τ → Nat} {moved : Bool} {s : Threads τ} (inStep : InStep k fd node r turns moved s) (t : τ)
    {after : Bool} (call : systemCall fd (offsetAt k fd node (offsetOf moved)) (undisturbed r (turns t)) =
      (undisturbed r (turns t + 1), offsetAt k fd node (offsetOf after))) :
    InStep k fd node r (Function.update turns t (turns t + 1)) after (move (systemCall fd) s t) := by
  have stepped := call
  rw [← inStep.threads t, ← inStep.shared] at stepped
  refine ⟨fun other => ?_, congrArg Prod.snd stepped⟩
  by_cases here : other = t
  · subst here
    rw [moveHere, stepped, Function.update_self]
  · rw [moveOther s here, Function.update_of_ne here, inStep.threads other]

def Lost (fd : Int) : Getting → Prop
  | .restore readCnt copy => validate fd readCnt copy = NULL
  | .done fileExtraData => fileExtraData = NULL
  | _ => False

theorem lostKept (k : Kernel) (a : Getting) (lost : Lost fd a) : Lost fd (systemCall fd k a).1 := by
  cases a with
  | query => exact lost.elim
  | rewind => exact lost.elim
  | read => exact lost.elim
  | restore readCnt copy => exact lost
  | done fileExtraData => exact lost

theorem undisturbedCall (magicNum : r.magicNum = MY_MAGIC_NUM) (own : r.fd = fd) (fits : r.Fits)
    (content : k.contents node = r.image) {turn : Nat} {moved : Bool} (quiet : turn = 0 ∨ turn = 2 → moved = false) :
    systemCall fd (offsetAt k fd node (offsetOf moved)) (undisturbed r turn) =
      (undisturbed r (turn + 1), offsetAt k fd node (offsetOf (movedAfter turn moved))) := by
  match turn with
  | 0 =>
    cases quiet (.inl rfl)
    exact queryCall _ _ _ _
  | 1 => simp only [undisturbed, systemCall, SEEK_SET, rewound, movedAfter, offsetOf, Bool.false_eq_true, if_false]
  | 2 =>
    cases quiet (.inr rfl)
    have taken : r.image = slice (k.contents node) 0 FileExtraData.sizeOf := by rw [content, sliceImage]
    have call := readCall fd taken
    rw [FileExtraData.imageLength, Nat.zero_add] at call
    exact call
  | 3 =>
    have valid := validateImage magicNum fits
    rw [own] at valid
    simp only [undisturbed, systemCall, SEEK_SET, rewound, valid, movedAfter, offsetOf, Bool.false_eq_true, if_false]
  | turn + 4 => rfl

theorem disturbedCall (content : k.contents node = r.image) {turn : Nat} (asks : turn = 0 ∨ turn = 2) :
    Lost fd (systemCall fd (offsetAt k fd node (offsetOf true)) (undisturbed r turn)).1 := by
  rcases asks with rfl | rfl
  · simp only [undisturbed, queryCall]
    rw [if_neg (by decide)]
    rfl
  · have empty : [] = slice (k.contents node) (offsetOf true) FileExtraData.sizeOf := by
      rw [content, slice, List.drop_eq_nil_of_le (by rw [FileExtraData.imageLength]; exact Nat.le_refl _), List.take_nil]
    simp only [undisturbed, readCall fd empty, Lost]
    exact shortCopy fd (by decide) _

theorem quietRun (magicNum : r.magicNum = MY_MAGIC_NUM) (own : r.fd = fd) (fits : r.Fits)
    (content : k.contents node = r.image) {schedule : List τ} {turns : τ → Nat} {moved : Bool} {s : Threads τ}
    (inStep : InStep k fd node r turns moved s) (quiet : Quiet turns moved schedule) :
    ∃ turns' moved', InStep k fd node r turns' moved' (run (systemCall fd) s schedule) := by
  induction schedule generalizing turns moved s with
  | nil => exact ⟨turns, moved, inStep⟩
  | cons t schedule ih =>
    obtain ⟨here, later⟩ := quiet
    exact ih (inStepMove inStep t (undisturbedCall magicNum own fits content here)) later

theorem loudRun (magicNum : r.magicNum = MY_MAGIC_NUM) (own : r.fd = fd) (fits : r.Fits)
    (content : k.contents node = r.image) {schedule : List τ} {turns : τ → Nat} {moved : Bool} {s : Threads τ}
    (inStep : InStep k fd node r turns moved s) (loud : ¬Quiet turns moved schedule) :
    ∃ t, Lost fd ((run (systemCall fd) s schedule).threads t) := by
  induction schedule generalizing turns moved s with
  | nil => exact absurd trivial loud
  | cons t schedule ih =>
    by_cases here : turns t = 0 ∨ turns t = 2 → moved = false
    · exact ih (inStepMove inStep t (undisturbedCall magicNum own fits content here)) (fun later => loud ⟨here, later⟩)
    · obtain ⟨asks, isMoved⟩ := not_forall.mp here
      rw [Bool.not_eq_false] at isMoved
      subst isMoved
      refine ⟨t, runKeeps lostKept ?_ schedule⟩
      rw [moveHere, inStep.threads t, inStep.shared]
      exact disturbedCall content asks

/-- While the offset is not 0, some thread has read and is about to rewind. -/
def Pending (k : Kernel) (fd : Int) (node : Nat) (s : Threads τ) : Prop :=
  ∃ offset, s.shared = offsetAt k fd node offset ∧
    (offset ≠ 0 → ∃ t readCnt copy, s.threads t = .restore readCnt copy)

theorem pendingMove {s : Threads τ} (pending : Pending k fd node s) (t : τ) :
    Pending k fd node (move (systemCall fd) s t) := by
  obtain ⟨offset, shared, waiting⟩ := pending
  have rewinds : ∀ {a : Getting}, systemCall fd s.shared (s.threads t) = (a, (s.shared.lseek fd 0 SEEK_SET).2) →
      Pending k fd node (move (systemCall fd) s t) := by
    intro a call
    refine ⟨0, ?_, fun bad => absurd rfl bad⟩
    rw [move, call, shared]
    exact rewound
  have stays : ∀ {a : Getting}, (∀ readCnt copy, s.threads t ≠ .restore readCnt copy) →
      systemCall fd s.shared (s.threads t) = (a, s.shared) → Pending k fd node (move (systemCall fd) s t) := by
    intro a other call
    refine ⟨offset, by rw [move, call, shared], fun away => ?_⟩
    obtain ⟨waiter, readCnt, copy, waits⟩ := waiting away
    refine ⟨waiter, readCnt, copy, ?_⟩
    have apart : waiter ≠ t := by
      rintro rfl
      exact other readCnt copy waits
    rw [moveOther s apart, waits]
  cases turn : s.threads t with
  | query =>
    have call := queryCall k fd node offset
    rw [← shared, ← turn] at call
    exact stays (by simp [turn]) call
  | rewind => exact rewinds (by rw [turn]; rfl)
  | read =>
    have call := readCall fd (rfl : _ = slice (k.contents node) offset FileExtraData.sizeOf)
    rw [← shared, ← turn] at call
    exact ⟨_, congrArg Prod.snd call, fun _ => ⟨t, _, _, by rw [moveHere, call]⟩⟩
  | restore readCnt copy => exact rewinds (by rw [turn]; rfl)
  | done fileExtraData => exact stays (by simp [turn]) (by rw [turn]; rfl)

omit [DecidableEq τ] in
theorem offsetRestored {s : Threads τ} (pending : Pending k fd node s) (here : k.fds fd = some ⟨node, 0, true⟩)
    (finished : Finished s) : s.shared = k := by
  obtain ⟨offset, shared, waiting⟩ := pending
  by_cases atStart : offset = 0
  · rw [shared, atStart, offsetAtStart here]
  · obtain ⟨t, readCnt, copy, waits⟩ := waiting atStart
    obtain ⟨fileExtraData, done⟩ := finished t
    rw [waits] at done
    cases done

end

def AllFind (k : Kernel) (r : FileExtraData) (s : Threads τ) : Prop :=
  (∀ t, s.threads t = .done r.self) ∧ s.shared = k

theorem concurrentExactly {p : Process} {k : Kernel} {fd : Int} {r : FileExtraData} (mapped : Mapped p k fd r)
    (schedule : List τ) (finished : Finished (run (systemCall fd) (calling k) schedule)) :
    AllFind k r (run (systemCall fd) (calling k) schedule) ↔ Quiet (fun _ : τ => 0) false schedule := by
  obtain ⟨node, here, content, _⟩ := mapped.behind
  have inStep : InStep k fd node r (fun _ : τ => 0) false (calling k) := ⟨fun _ => rfl, (offsetAtStart here).symm⟩
  constructor
  · intro all
    by_contra loud
    obtain ⟨t, lost⟩ := loudRun mapped.magicNum mapped.own mapped.fits content inStep loud
    rw [all.1 t] at lost
    exact mapped.self lost
  · intro quiet
    obtain ⟨turns, moved, last⟩ := quietRun mapped.magicNum mapped.own mapped.fits content inStep quiet
    have start : Pending k fd node (calling k : Threads τ) :=
      ⟨0, (offsetAtStart here).symm, fun bad => absurd rfl bad⟩
    have ended : Pending k fd node (run (systemCall fd) (calling k) schedule) :=
      runInvariant (Pending k fd node) (fun _ t pending => pendingMove pending t) start schedule
    refine ⟨fun t => ?_, offsetRestored ended here finished⟩
    obtain ⟨fileExtraData, done⟩ := finished t
    have place := last.threads t
    rw [done] at place
    rw [done, place]
    match turns t, place with
    | 0, bad => cases bad
    | 1, bad => cases bad
    | 2, bad => cases bad
    | 3, bad => cases bad
    | _ + 4, _ => rfl

def sampleRecord : FileExtraData := ⟨MY_MAGIC_NUM, 0x7100, 0x7200, 0x7300, NULL, 5⟩

def fileProcess : Process := ⟨false, [0x2f, 0x70], ⟨0, 0⟩, ⟨1, 1⟩, fun node => ⟨2, node⟩, fun _ => none, ⟨[], [], 0⟩⟩

def sampleKernel : Kernel :=
  ⟨fun fd => if fd = 5 then some ⟨9, 0, true⟩ else none, fun _ => sampleRecord.image, fun _ => none⟩

theorem sampleMapped : Mapped fileProcess sampleKernel 5 sampleRecord where
  magicNum := rfl
  own := rfl
  fits := ⟨by decide, by decide, by decide, by decide, by decide, by decide⟩
  self := by decide
  behind := ⟨9, rfl, rfl, fun shared => by cases shared⟩

def finishedBy (fd : Int) (k : Kernel) (schedule : List Bool) (t : Bool) : Option Nat :=
  match (run (systemCall fd) (calling k) schedule).threads t with
  | .done fileExtraData => some fileExtraData
  | _ => none

theorem finishedOf {fd : Int} {k : Kernel} {schedule : List Bool}
    (all : ∀ t, (finishedBy fd k schedule t).isSome) : Finished (run (systemCall fd) (calling k) schedule) := by
  intro t
  have here := all t
  unfold finishedBy at here
  split at here
  · rename_i fileExtraData done
    exact ⟨fileExtraData, done⟩
  · cases here

theorem sampleOneByOne : AllFind sampleKernel sampleRecord
    (run (systemCall 5) (calling sampleKernel) [true, true, true, true, false, false, false, false]) :=
  (concurrentExactly sampleMapped _ (finishedOf (by decide +kernel))).mpr (by decide +kernel)

theorem secondFindsNothing : ¬∀ (p : Process) (k : Kernel) (fd : Int) (r : FileExtraData) (schedule : List Bool),
    Mapped p k fd r → Finished (run (systemCall fd) (calling k) schedule) →
      AllFind k r (run (systemCall fd) (calling k) schedule) := by
  intro claim
  have all := claim _ _ _ _ [true, true, true, false, true] sampleMapped (finishedOf (by decide +kernel))
  have null : finishedBy 5 sampleKernel [true, true, true, false, true] false = some NULL := by decide +kernel
  have second := all.1 false
  rw [finishedBy, second] at null
  exact sampleMapped.self (Option.some.inj null)

end Bootstrap.FileMapping
