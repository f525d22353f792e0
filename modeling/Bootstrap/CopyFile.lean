import Bootstrap.UseDataDir

/-! copy_file call by call, and what a failed call leaves: two loops that share nread, and a
schedule of short and failing transfers. -/
namespace Bootstrap.UseDataDir
open CInt ByteLayout FileStore
open Bootstrap.ShadowZip (text)

/- write moves at most what it is asked for. The loop body runs once at least; nread counts
down, and out_ptr goes up with it. -/
def innerLoop : List WriteOutcome → Bytes → Nat → Int → List Bytes × Bool × Int × List WriteOutcome
  | [], buf, outPtr, nread => ([slice buf outPtr nread.toNat], true, 0, [])
  | .error :: writes, _, _, nread => ([], false, nread, writes)
  | .interrupted :: writes, buf, outPtr, nread =>
    if 0 < nread then innerLoop writes buf outPtr nread else ([], true, nread, writes)
  | .bytes n :: writes, buf, outPtr, nread =>
    let nwritten := min n nread.toNat
    let piece := slice buf outPtr nwritten
    if 0 < nread - nwritten then
      let (pieces, ok, nread, writes) := innerLoop writes buf (outPtr + nwritten) (nread - nwritten)
      (piece :: pieces, ok, nread, writes)
    else ([piece], true, nread - nwritten, writes)

/- read: at the end of the file 0, else as much as the schedule says, and -1 where it fails. -/
def readCall (outcome : Option ReadOutcome) (rest : Bytes) : Int :=
  match outcome with
  | some .error => -1
  | some (.bytes n) => min (min (max 1 n) copyBufferSize) rest.length
  | none => min copyBufferSize rest.length

/- nread is what the read returned when the outer loop tests it, and 0 when the inner one ends. -/
def outerLoop : Nat → List ReadOutcome → List WriteOutcome → Bytes → List Bytes × Bool
  | 0, _, _, _ => ([], true)
  | rounds+1, reads, writes, rest =>
    let nread := readCall reads.head? rest
    if nread ≤ 0 then ([], true)
    else
      let (pieces, ok, _, writes) := innerLoop writes (rest.take nread.toNat) 0 nread
      if !ok then (pieces, false)
      else
        let (more, ok) := outerLoop rounds reads.tail writes (rest.drop nread.toNat)
        (pieces ++ more, ok)

theorem innerBuffer (writes : List WriteOutcome) (buf : Bytes) {outPtr : Nat} {nread : Int} (some_ : 0 < nread)
    (bounds : outPtr + nread.toNat = buf.length) : ∃ left, innerLoop writes buf outPtr nread =
      ((writeBuffer writes (buf.drop outPtr)).1, (writeBuffer writes (buf.drop outPtr)).2.1, left,
        (writeBuffer writes (buf.drop outPtr)).2.2) := by
  have length : (buf.drop outPtr).length = nread.toNat := by
    rw [List.length_drop]
    omega
  induction writes generalizing outPtr nread with
  | nil => exact ⟨0, by rw [innerLoop, slice, List.take_of_length_le (Nat.le_of_eq length)]; rfl⟩
  | cons outcome writes ih =>
    cases outcome with
    | error => exact ⟨nread, rfl⟩
    | interrupted =>
      rw [innerLoop, if_pos some_]
      exact ih some_ bounds length
    | bytes n =>
      simp only [innerLoop, writeBuffer, length, slice]
      by_cases whole : nread.toNat ≤ n
      · rw [if_neg (by omega), if_pos whole, Nat.min_eq_right whole, List.take_of_length_le (Nat.le_of_eq length)]
        exact ⟨_, rfl⟩
      · have short : min n nread.toNat = n := by omega
        have later : 0 < nread - n := by omega
        have bounds' : outPtr + n + (nread - n).toNat = buf.length := by omega
        obtain ⟨left, rest⟩ := ih later bounds' (by rw [List.length_drop]; omega)
        rw [if_pos (by omega), if_neg whole, short, rest, List.drop_drop]
        exact ⟨left, rfl⟩

/- What a read takes before the end of the file. -/
def moves : Option ReadOutcome → Option Nat
  | some .error => none
  | some (.bytes n) => some (min (max 1 n) copyBufferSize)
  | none => some copyBufferSize

theorem movesSome {outcome : Option ReadOutcome} {n : Nat} (moved : moves outcome = some n) : 0 < n := by
  unfold moves copyBufferSize at moved
  split at moved <;> simp only [Option.some.injEq, reduceCtorEq] at moved <;> omega

theorem copyStops {reads : List ReadOutcome} (fails : moves reads.head? = none) (rounds : Nat)
    (writes : List WriteOutcome) (source : Bytes) : copyLoop rounds reads writes source = ([], true) := by
  unfold moves at fails
  split at fails <;> simp only [reduceCtorEq] at fails
  rename_i first
  obtain ⟨rest, rfl⟩ := List.head?_eq_some_iff.mp first
  cases rounds <;> rfl

theorem copyRound {reads : List ReadOutcome} {n : Nat} (moved : moves reads.head? = some n) (rounds : Nat)
    (writes : List WriteOutcome) (source : Bytes) : copyLoop (rounds + 1) reads writes source =
      if source = [] then ([], true)
      else if !(writeBuffer writes (source.take n)).2.1 then ((writeBuffer writes (source.take n)).1, false)
      else ((writeBuffer writes (source.take n)).1 ++
          (copyLoop rounds reads.tail (writeBuffer writes (source.take n)).2.2 (source.drop n)).1,
        (copyLoop rounds reads.tail (writeBuffer writes (source.take n)).2.2 (source.drop n)).2) := by
  unfold moves at moved
  cases reads with
  | nil =>
    cases moved
    rfl
  | cons outcome reads =>
    cases outcome with
    | error => cases moved
    | bytes k =>
      cases moved
      rfl

theorem outerCopies (rounds : Nat) (reads : List ReadOutcome) (writes : List WriteOutcome) (source : Bytes) :
    outerLoop rounds reads writes source = copyLoop rounds reads writes source := by
  induction rounds generalizing reads writes source with
  | zero => rfl
  | succ rounds ih =>
    cases moved : moves reads.head? with
    | none =>
      have failed : readCall reads.head? source = -1 := by
        unfold moves at moved
        split at moved <;> simp_all [readCall]
      rw [copyStops moved, outerLoop, failed]
      rfl
    | some n =>
      have some_ := movesSome moved
      obtain ⟨k, amount⟩ : ∃ k, k = min n source.length := ⟨_, rfl⟩
      have taken : readCall reads.head? source = k := by
        unfold moves at moved
        split at moved <;> simp_all [readCall]
        all_goals omega
      rw [copyRound moved, outerLoop, taken]
      by_cases done : source = []
      · rw [if_pos (by simp [amount, done]), if_pos done]
      · have length := List.length_pos_iff.mpr done
        have buffer : source.take k = source.take n := by
          rw [List.take_eq_take_iff]
          omega
        have rest : source.drop k = source.drop n := by
          rw [List.drop_eq_drop_iff]
          omega
        have amount' : 0 < (k : Int) := by omega
        have whole : 0 + (k : Int).toNat = (source.take n).length := by
          rw [List.length_take]
          omega
        obtain ⟨left, written⟩ := innerBuffer writes (source.take n) amount' whole
        rw [if_neg (by omega), if_neg done]
        simp only [Int.toNat_natCast, buffer, rest, written, ih, List.drop_zero]

/- The schedule that is left when n bytes are written; none if a write fails before that. -/
def afterBuffer : List WriteOutcome → Nat → Option (List WriteOutcome)
  | [], _ => some []
  | .interrupted :: writes, n => afterBuffer writes n
  | .error :: _, _ => none
  | .bytes k :: writes, n => if n ≤ k then some writes else afterBuffer writes (n - k)

/-- No read and no write fails before the last of n bytes is out. -/
inductive Undisturbed : List ReadOutcome → List WriteOutcome → Nat → Prop where
  | done {reads writes} : Undisturbed reads writes 0
  | round {reads writes n k writes'} (ahead : 0 < n) (moved : moves reads.head? = some k)
      (written : afterBuffer writes (min k n) = some writes') (rest : Undisturbed reads.tail writes' (n - k)) :
      Undisturbed reads writes n

theorem undisturbedRound {reads : List ReadOutcome} {writes : List WriteOutcome} {n : Nat} (ahead : 0 < n) :
    Undisturbed reads writes n ↔ ∃ k writes', moves reads.head? = some k ∧ afterBuffer writes (min k n) = some writes' ∧
      Undisturbed reads.tail writes' (n - k) := by
  constructor
  · intro undisturbed
    cases undisturbed with
    | done => omega
    | round _ moved written rest => exact ⟨_, _, moved, written, rest⟩
  · rintro ⟨k, writes', moved, written, rest⟩
    exact .round ahead moved written rest

theorem bufferWritten {writes writes' : List WriteOutcome} {buf : Bytes}
    (written : afterBuffer writes buf.length = some writes') :
    (writeBuffer writes buf).1.flatten = buf ∧ (writeBuffer writes buf).2 = (true, writes') := by
  induction writes generalizing buf with
  | nil =>
    cases written
    simp [writeBuffer]
  | cons outcome writes ih =>
    cases outcome with
    | error => cases written
    | interrupted => exact ih written
    | bytes n =>
      rw [afterBuffer] at written
      rw [writeBuffer]
      split
      · rename_i whole
        rw [if_pos whole] at written
        cases written
        simp
      · rename_i short
        rw [if_neg short, ← List.length_drop] at written
        obtain ⟨pieces, rest⟩ := ih written
        exact ⟨by simp [pieces], rest⟩

theorem bufferFails {writes : List WriteOutcome} {buf : Bytes} (fails : afterBuffer writes buf.length = none) :
    (writeBuffer writes buf).2.1 = false := by
  induction writes generalizing buf with
  | nil => cases fails
  | cons outcome writes ih =>
    cases outcome with
    | error => rfl
    | interrupted => exact ih fails
    | bytes n =>
      rw [afterBuffer] at fails
      rw [writeBuffer]
      split
      · rename_i whole
        rw [if_pos whole] at fails
        cases fails
      · rename_i short
        rw [if_neg short, ← List.length_drop] at fails
        exact ih fails

theorem copyLoopExact {rounds : Nat} {reads : List ReadOutcome} {writes : List WriteOutcome} {source : Bytes}
    (enough : source.length < rounds) :
    (copyLoop rounds reads writes source).2 = true ∧ (copyLoop rounds reads writes source).1.flatten = source ↔
      Undisturbed reads writes source.length := by
  induction rounds generalizing reads writes source with
  | zero => omega
  | succ rounds ih =>
    by_cases done : source = []
    · have nothing : copyLoop (rounds + 1) reads writes source = ([], true) := by
        cases moved : moves reads.head? with
        | none => exact copyStops moved _ writes source
        | some n => rw [copyRound moved, if_pos done]
      rw [nothing, done]
      exact ⟨fun _ => .done, fun _ => ⟨rfl, rfl⟩⟩
    · have length := List.length_pos_iff.mpr done
      rw [undisturbedRound length]
      cases moved : moves reads.head? with
      | none =>
        -- the failing read ends the loop as the end of the file would, with some of the source left
        rw [copyStops moved]
        exact ⟨fun copied => absurd copied.2.symm done, (fun ⟨_, _, known, _⟩ => by cases known)⟩
      | some n =>
        have some_ := movesSome moved
        have buffer : (source.take n).length = min n source.length := List.length_take
        rw [copyRound moved, if_neg done]
        cases written : afterBuffer writes (min n source.length) with
        | none =>
          rw [bufferFails (by rw [buffer, written])]
          refine ⟨fun copied => absurd copied.1 Bool.false_ne_true, ?_⟩
          rintro ⟨k, _, known, out, _⟩
          cases known
          rw [written] at out
          cases out
        | some writes' =>
          have whole : afterBuffer writes (source.take n).length = some writes' := by rw [buffer, written]
          obtain ⟨pieces, rest⟩ := bufferWritten whole
          have shorter : (source.drop n).length < rounds := by
            rw [List.length_drop]
            omega
          have later := @ih reads.tail writes' (source.drop n) shorter
          have joined : source.take n ++ (copyLoop rounds reads.tail writes' (source.drop n)).1.flatten = source ↔
              (copyLoop rounds reads.tail writes' (source.drop n)).1.flatten = source.drop n := by
            conv_lhs => rhs; rw [← List.take_append_drop n source]
            exact List.append_right_inj _
          rw [rest]
          simp only [Bool.not_true, Bool.false_eq_true, if_false, List.flatten_append, pieces, joined, later,
            List.length_drop]
          refine ⟨fun undisturbed => ⟨n, writes', rfl, written, undisturbed⟩, ?_⟩
          rintro ⟨k, _, known, out, rest⟩
          cases known
          cases written.symm.trans out
          exact rest

/-- True only with the whole source in the target; false only without a target that this call made. -/
structure CopyExact (schedule : CopySchedule) (fromPath toPath : Bytes) (s : Files) : Prop where
  whole : (copyFile schedule fromPath toPath s).2 = true → ∃ source, s fromPath = some source ∧
    runs s (copyFile schedule fromPath toPath s).1 toPath = some source
  nothing : (copyFile schedule fromPath toPath s).2 = false →
    runs s (copyFile schedule fromPath toPath s).1 toPath = s toPath

theorem copyBegun {schedule : CopySchedule} {fromPath toPath source : Bytes} {s : Files} (present : s fromPath = some source)
    (opens : schedule.targetOpens = true) (absent : s toPath = none) : copyFile schedule fromPath toPath s =
      (.create toPath :: (copyLoop (source.length + 1) schedule.reads schedule.writes source).1.map (Op.append toPath),
        (copyLoop (source.length + 1) schedule.reads schedule.writes source).2) := by
  rw [copyFile, present]
  simp only [opens, absent, Bool.not_true, Option.isSome_none, Bool.or_self, Bool.false_eq_true, if_false]

theorem copyRefused {schedule : CopySchedule} {fromPath toPath : Bytes} {s : Files}
    (refused : s fromPath = none ∨ schedule.targetOpens = false ∨ s toPath ≠ none) :
    copyFile schedule fromPath toPath s = ([], false) := by
  rw [copyFile]
  cases present : s fromPath with
  | none => rfl
  | some source =>
    rcases refused with bad | closed | there
    · rw [present] at bad
      cases bad
    · simp [closed]
    · simp [Option.ne_none_iff_isSome.mp there]

theorem copyExactly (schedule : CopySchedule) (fromPath toPath : Bytes) (s : Files) :
    CopyExact schedule fromPath toPath s ↔ ∀ source, s fromPath = some source → schedule.targetOpens = true →
      s toPath = none → Undisturbed schedule.reads schedule.writes source.length := by
  constructor
  · intro exact_ source present opens absent
    have begun := copyBegun present opens absent
    have left := runsCreated absent (copyLoop (source.length + 1) schedule.reads schedule.writes source).1
    obtain ⟨whole, nothing⟩ := exact_
    rw [begun] at whole nothing
    rw [left] at whole nothing
    refine (copyLoopExact (Nat.lt_succ_self _)).mp ?_
    cases ok : (copyLoop (source.length + 1) schedule.reads schedule.writes source).2 with
    | true =>
      obtain ⟨source', known, same⟩ := whole ok
      cases present.symm.trans known
      exact ⟨rfl, Option.some.inj same⟩
    | false =>
      have bad := nothing ok
      rw [absent] at bad
      cases bad
  · intro undisturbed
    by_cases begins : s fromPath ≠ none ∧ schedule.targetOpens = true ∧ s toPath = none
    · obtain ⟨present, opens, absent⟩ := begins
      obtain ⟨source, present⟩ := Option.ne_none_iff_exists'.mp present
      obtain ⟨ok, same⟩ := (copyLoopExact (Nat.lt_succ_self _)).mpr (undisturbed source present opens absent)
      have left := runsCreated absent (copyLoop (source.length + 1) schedule.reads schedule.writes source).1
      rw [same] at left
      refine ⟨fun _ => ⟨source, present, ?_⟩, fun bad => ?_⟩
      · rw [copyBegun present opens absent]
        exact left
      · rw [copyBegun present opens absent] at bad
        exact absurd (ok.symm.trans bad) Bool.noConfusion
    · have refused : copyFile schedule fromPath toPath s = ([], false) := copyRefused (by
        by_contra none_
        simp only [not_or, Bool.not_eq_false, not_not] at none_
        exact begins none_)
      refine ⟨fun bad => ?_, fun _ => by rw [refused]; rfl⟩
      rw [refused] at bad
      cases bad

/- A library of three bytes, and a disk that is full after the first. -/
def fullDisk : CopySchedule := ⟨true, [], [.bytes 1, .error]⟩

def libraryNew : Bytes := text "lib.so.new"

def shippedLibrary : Files := fun path => if path = join [0x70] libraryNew then some [1, 2, 3] else none

theorem truncatedLibraryInstalled :
    ¬CopyExact fullDisk (join [0x70] libraryNew) (join [0x64] libraryNew) shippedLibrary ∧
    runs shippedLibrary (prepareLib [0x64] [0x70] fullDisk libraryNew shippedLibrary ++
      preProcessAllSoLib [0x64] [⟨libraryNew, 8⟩]) (join [0x64] (text "lib.so")) = some [1] := by
  refine ⟨fun exact_ => ?_, by decide +kernel⟩
  have left := exact_.nothing (by decide +kernel)
  revert left
  decide +kernel

end Bootstrap.UseDataDir
