import Bootstrap.ShadowCursor

/-! ShadowZip::fread takes its counts from the table: what it reports is there when the files are
as the table says, and no further. -/
namespace Bootstrap.ShadowStream
open Bootstrap.ShadowZip CInt ByteLayout SerialUtils Tiling
open PlainFile (Memory store storeGet storeNil)

section
variable {files : Files} {data : ShadowZipGlobalData} {stop : Nat}

theorem readPast {infos : List FilePartitionInfo} {r : Reading}
    (found : infos.find? (fun info => r.start < info.shadowStop) = none) : readPartitions files stop infos r = .ok r := by
  induction infos with
  | nil => rfl
  | cons info infos ih =>
    rw [List.find?_eq_none] at found ih
    rw [readSkip infos (by simpa using found info List.mem_cons_self)]
    exact ih (fun other mem => found other (List.mem_cons_of_mem _ mem))

theorem readFirst (files : Files) (stop : Nat) {infos : List FilePartitionInfo} (r : Reading) {info : FilePartitionInfo}
    (found : infos.find? (fun info => r.start < info.shadowStop) = some info) :
    (∀ bad, readPartition files stop info r = .error bad → readPartitions files stop infos r = .error bad) ∧
    (∀ r', readPartition files stop info r = .ok (true, r') → readPartitions files stop infos r = .ok r') := by
  induction infos with
  | nil => simp at found
  | cons head infos ih =>
    by_cases here : r.start < head.shadowStop
    · rw [List.find?_cons_of_pos (by simpa using here)] at found
      cases found
      rw [readPartitions]
      exact ⟨fun bad step => by rw [step]; rfl, fun r' step => by rw [step]; rfl⟩
    · rw [List.find?_cons_of_neg (by simpa using here)] at found
      rw [readSkip infos (by omega)]
      exact ih found

theorem readCounts {infos : List FilePartitionInfo} {first last : Nat} (tiles : Tiles first (pieces infos) last)
    (listed : ∀ info ∈ infos, Listed data info) (r : Reading) (cached : Cached data r.zip)
    (pos : r.zip.pos = r.start) (low : first ≤ r.start) (ahead : r.start ≤ stop) (fits : stop < 2 ^ 64)
    (small : last < 2 ^ 63) (room : r.ret + (stop - r.start) < 2 ^ 64) {r' : Reading}
    (ran : readPartitions files stop infos r = .ok r') : r'.ret = r.ret + (min stop last - r.start) := by
  induction infos generalizing first r with
  | nil =>
    cases tiles
    cases ran
    omega
  | cons info infos ih =>
    have split : pieces (info :: infos) = piece info :: pieces infos := rfl
    rw [split] at tiles
    cases tiles with
    | cons starts even tail =>
      have ordered := tilesOrdered tail
      have shown := even.shown
      have rest := ih tail (fun other mem => listed other (List.mem_cons_of_mem _ mem))
      have known := listed info List.mem_cons_self
      simp only [piece] at starts ordered shown rest
      by_cases past : info.shadowStop ≤ r.start
      · rw [readSkip infos past] at ran
        exact rest r cached pos past ahead room ran
      · obtain ⟨file, zip, prepared, kept, still, own, _⟩ := prepareFileCached files cached known.named
        have round := readRound even known (by omega) (by omega) ahead fits (by omega) room prepared
          (still.trans pos) rfl
        cases file with
        | none =>
          rw [readPartitions, round] at ran
          cases ran
        | some fp =>
          rw [readPartitions, exceptOk round] at ran
          by_cases within : stop ≤ info.shadowStop
          · simp only [decide_eq_true within, if_true] at ran
            cases ran
            dsimp only
            omega
          · simp only [decide_eq_false within, if_neg Bool.false_ne_true] at ran
            have total := rest _ (cachedUse kept known.named (readHandle files fp _ _).2 (own fp rfl) _) rfl (by dsimp only; omega) (by dsimp only; omega)
              (by dsimp only; omega) ran
            dsimp only at total
            omega

theorem freadRuns (files : Files) {z : ShadowZip} (cached : Cached data z) {pos : Nat} (cursor : z.pos = pos)
    (below : pos < 2 ^ 63) (size : Nat) {nmemb : Nat} (count : 0 < i32 nmemb) (s : Memory) : fread files s size nmemb z =
      (readPartitions files (u64 (pos + u64 (size * nmemb : Nat) : Nat)) data.patchPartitions ⟨z, pos, 0, 0, s⟩).map
        (fun r => (r.ret, r.memory, r.zip)) := by
  have table : z.patchPartitions = data.patchPartitions := congrArg ShadowZipGlobalData.patchPartitions cached.same
  have start : u64 (pos : Int) = pos := u64Exact (by omega)
  rw [fread, if_neg (by omega), cursor, start, table, Int.natCast_add]
  rfl

section
variable (tabled : Tabled data) {z : ShadowZip} (cached : Cached data z) {pos : Nat} (cursor : z.pos = pos)
  {info : FilePartitionInfo} (found : partitionAt data pos = some info) (s : Memory)
include tabled cached cursor found

theorem readNothing (files : Files) :
    (Openable files data z info.fileIndex → ∃ z', readPartitions files pos data.patchPartitions ⟨z, pos, 0, 0, s⟩ =
      .ok ⟨z', pos, 0, 0, s⟩ ∧ z'.pos = pos) ∧
    (¬ Openable files data z info.fileIndex →
      readPartitions files pos data.patchPartitions ⟨z, pos, 0, 0, s⟩ = .error .faulted) := by
  obtain ⟨mem, low, high⟩ := partitionIn tabled found
  have even := tilesEven tabled.tiles _ (List.mem_map_of_mem (f := piece) mem)
  have inside := partitionInside tabled found
  have small := tabled.small
  have known := tabled.listed info mem
  obtain ⟨file, zip, prepared, kept, still, own, opened⟩ := prepareFileCached files cached known.named
  have none_ : 0 = min pos info.shadowStop - pos := by omega
  have round := readRound even known (r := ⟨z, pos, 0, 0, s⟩) low high (Nat.le_refl _) (show pos < 2 ^ 64 by omega)
    (by omega) (by dsimp only; omega) prepared (still.trans cursor) none_
  obtain ⟨fails, ends⟩ := readFirst files pos ⟨z, pos, 0, 0, s⟩ found
  constructor
  · intro openable
    obtain ⟨fp, rfl⟩ := Option.isSome_iff_exists.mp (opened.mpr openable)
    simp only [decide_eq_true (Nat.le_of_lt high)] at round
    have read := ends _ round
    simp only [readHandle, sliceEmpty, storeNil] at read
    exact ⟨_, read, rfl⟩
  · intro closed
    cases file with
    | none => exact fails _ round
    | some fp => exact absurd (opened.mp rfl) closed

/-- Where the end of a request wraps, the loop goes back to it and reports the whole request. -/
theorem readWrapped (files : Files) {q : Nat} (request : q < 2 ^ 64) (wrapped : 2 ^ 64 ≤ pos + q) :
    (Openable files data z info.fileIndex → ∃ r, readPartitions files (pos + q - 2 ^ 64) data.patchPartitions
      ⟨z, pos, 0, 0, s⟩ = .ok r ∧ r.ret = q) ∧
    (¬ Openable files data z info.fileIndex →
      readPartitions files (pos + q - 2 ^ 64) data.patchPartitions ⟨z, pos, 0, 0, s⟩ = .error .faulted) := by
  obtain ⟨mem, low, high⟩ := partitionIn tabled found
  have even := tilesEven tabled.tiles _ (List.mem_map_of_mem (f := piece) mem)
  have inside := partitionInside tabled found
  have small := tabled.small
  have known := tabled.listed info mem
  have offset := known.offset
  obtain ⟨ordered, shown⟩ := even
  simp only [piece] at ordered shown
  obtain ⟨file, zip, prepared, kept, still, own, opened⟩ := prepareFileCached files cached known.named
  have from_ : u64 (pos - info.shadowStart + info.startInFile : Int) = info.startInFile + (pos - info.shadowStart) := by
    unfold u64; omega
  have count : i64 ((if info.shadowStop ≤ pos + q - 2 ^ 64 then info.stopInFile
      else u64 ((pos + q - 2 ^ 64 : Nat) - info.shadowStart + info.startInFile : Int) : Nat) -
        (info.startInFile + (pos - info.shadowStart) : Nat) : Int) = (q : Int) - 2 ^ 64 := by
    rw [if_neg (by omega)]
    unfold i64 u64
    omega
  have index : i32 (info.fileIndex : Int) = info.fileIndex := i32Exact (by omega) (by have := known.index; omega)
  have start : u64 ((pos : Int) + ((q : Int) - 2 ^ 64)) = pos + q - 2 ^ 64 := by unfold u64; omega
  have ret : u64 (((0 : Nat) : Int) + ((q : Int) - 2 ^ 64)) = q := by unfold u64; omega
  obtain ⟨fails, ends⟩ := readFirst files (pos + q - 2 ^ 64) ⟨z, pos, 0, 0, s⟩ found
  constructor
  · intro openable
    obtain ⟨fp, rfl⟩ := Option.isSome_iff_exists.mp (opened.mpr openable)
    have round : ∃ r, readPartition files (pos + q - 2 ^ 64) info ⟨z, pos, 0, 0, s⟩ = .ok (true, r) ∧ r.ret = q := by
      rw [readPartition, if_neg (by dsimp only; omega), if_neg (by dsimp only; omega)]
      simp only [from_, count, index]
      rw [exceptOk prepared]
      simp only [start, ret, decide_eq_true (Nat.le_refl _)]
      exact ⟨_, rfl, rfl⟩
    obtain ⟨r, ran, total⟩ := round
    exact ⟨r, ends r ran, total⟩
  · intro closed
    have none_ : file = none := by
      rw [← Option.not_isSome_iff_eq_none]
      exact fun bad => closed (opened.mp bad)
    subst none_
    refine fails _ ?_
    rw [readPartition, if_neg (by dsimp only; omega), if_neg (by dsimp only; omega)]
    simp only [index]
    rw [exceptOk prepared]

end

def NoPhantoms (files : Files) (data : ShadowZipGlobalData) (pos ret : Nat) (s : Memory) (z : ShadowZip) : Prop :=
  ∃ copied : Nat, ret ≤ copied ∧ z.pos ≤ pos + copied ∧
    ∀ i : Nat, i < copied → Shows (fileBytes files data) (pieces data.patchPartitions) (pos + i) (s i)

def FreadHonest (files : Files) (data : ShadowZipGlobalData) (z : ShadowZip) (pos size nmemb : Nat) (s : Memory) : Prop :=
  ∃ ret s' z', fread files s size nmemb z = .ok (ret, s', z') ∧ NoPhantoms files data pos ret s' z'

/-- A request for q bytes does not wrap, and the files that it has to do with hold their part of it; an empty
one finds a FILE at the position. -/
def Deliverable (files : Files) (data : ShadowZipGlobalData) (z : ShadowZip) (pos q : Nat) : Prop :=
  pos + q < 2 ^ 64 ∧ ∀ info ∈ data.patchPartitions, Asked pos (pos + q) info →
    if q = 0 then Openable files data z info.fileIndex
    else info.startInFile + (min (pos + q) info.shadowStop - info.shadowStart) ≤
      (fileBytes files data info.fileIndex).length

theorem heldWhenHonest (tabled : Tabled data) {pos : Nat} {s : Memory} {z : ShadowZip} (ahead : pos < stop)
    (honest : NoPhantoms files data pos (min stop data.endOfFile - pos) s z) {info : FilePartitionInfo}
    (mem : info ∈ data.patchPartitions) (asked : Asked pos stop info) :
    info.startInFile + (min stop info.shadowStop - info.shadowStart) ≤ (fileBytes files data info.fileIndex).length := by
  obtain ⟨copied, reported, _, bytes⟩ := honest
  obtain ⟨shown, past, begun⟩ := asked
  have inside := tilesAround tabled.tiles (List.mem_map_of_mem (f := piece) mem)
  simp only [piece] at inside
  -- the last byte that is asked of this partition
  obtain ⟨p, known, within, byte⟩ := bytes (min stop info.shadowStop - 1 - pos) (by omega)
  have same : p = piece info := tilesApart tabled.tiles known (List.mem_map_of_mem mem) within
    (by simp only [piece]; omega)
  subst same
  have last := (List.getElem?_eq_some_iff.mp byte).1
  simp only [piece] at last
  omega

theorem nothingHonest {z : ShadowZip} {pos : Nat} (cursor : z.pos = pos) (s : Memory) :
    NoPhantoms files data pos 0 s z := by
  refine ⟨0, Nat.le_refl _, by omega, ?_⟩
  intro i bad
  omega

theorem honestRuns {z : ShadowZip} (cached : Cached data z) {pos : Nat} (cursor : z.pos = pos) (below : pos < 2 ^ 63)
    (size : Nat) {nmemb : Nat} (count : 0 < i32 nmemb) (s : Memory) : FreadHonest files data z pos size nmemb s ↔
      ∃ r, readPartitions files (u64 (pos + u64 (size * nmemb : Nat) : Nat)) data.patchPartitions ⟨z, pos, 0, 0, s⟩ = .ok r ∧
        NoPhantoms files data pos r.ret r.memory r.zip := by
  rw [FreadHonest, freadRuns files cached cursor below size count s]
  constructor
  · rintro ⟨ret, s', z', ran, honest⟩
    cases read : readPartitions files (u64 (pos + u64 (size * nmemb : Nat) : Nat)) data.patchPartitions ⟨z, pos, 0, 0, s⟩ with
    | error bad =>
      rw [read] at ran
      cases ran
    | ok r =>
      rw [read] at ran
      cases ran
      exact ⟨r, rfl, honest⟩
  · rintro ⟨r, read, honest⟩
    exact ⟨r.ret, r.memory, r.zip, by rw [read]; rfl, honest⟩

section
variable (tabled : Tabled data) {z : ShadowZip} (cached : Cached data z) {pos : Nat} (cursor : z.pos = pos)
  {info : FilePartitionInfo} (found : partitionAt data pos = some info) (s : Memory)
include tabled cached cursor found

theorem wrappedPhantoms {q : Nat} (request : q < 2 ^ 64) (wrapped : 2 ^ 64 ≤ pos + q) {r : Reading}
    (read : readPartitions files (pos + q - 2 ^ 64) data.patchPartitions ⟨z, pos, 0, 0, s⟩ = .ok r) :
    ¬ NoPhantoms files data pos r.ret r.memory r.zip := by
  rintro ⟨copied, reported, _, bytes⟩
  obtain ⟨mem, low, high⟩ := partitionIn tabled found
  have inside := partitionInside tabled found
  have small := tabled.small
  obtain ⟨opened, closed⟩ := readWrapped tabled cached cursor found s files request wrapped
  by_cases openable : Openable files data z info.fileIndex
  · obtain ⟨r', same, total⟩ := opened openable
    rw [read] at same
    cases same
    -- the byte at the virtual end of file is among those that are reported
    obtain ⟨p, known, within, _⟩ := bytes data.endOfFile (by omega)
    have := tilesAround tabled.tiles known
    omega
  · rw [closed openable] at read
    cases read

omit cached cursor in
theorem emptyDeliverable (below : pos < 2 ^ 63) :
    Deliverable files data z pos 0 ↔ Openable files data z info.fileIndex := by
  obtain ⟨mem, low, high⟩ := partitionIn tabled found
  constructor
  · intro fine
    exact fine.2 info mem ⟨by omega, high, .inl low⟩
  · intro openable
    refine ⟨by omega, fun other known asked => ?_⟩
    have begun : other.shadowStart ≤ pos := by
      have := asked.begun
      omega
    have same := tilesApart tabled.tiles (List.mem_map_of_mem (f := piece) known)
      (List.mem_map_of_mem (f := piece) mem) (And.intro begun asked.ahead) ⟨low, high⟩
    rw [if_pos rfl, show other.fileIndex = info.fileIndex from congrArg Piece.source same]
    exact openable

theorem emptyHonest : (∃ r, readPartitions files pos data.patchPartitions ⟨z, pos, 0, 0, s⟩ = .ok r ∧
    NoPhantoms files data pos r.ret r.memory r.zip) ↔ Openable files data z info.fileIndex := by
  obtain ⟨opened, closed⟩ := readNothing tabled cached cursor found s files
  by_cases openable : Openable files data z info.fileIndex
  · obtain ⟨z', read, still⟩ := opened openable
    exact ⟨fun _ => openable, fun _ => ⟨_, read, nothingHonest still s⟩⟩
  · rw [closed openable]
    refine ⟨?_, fun bad => absurd bad openable⟩
    rintro ⟨r, ran, _⟩
    cases ran

omit found in
theorem requestHonest (lengths : ∀ path content, files path = some content → content.length < 2 ^ 63) {q : Nat}
    (some : 0 < q) (fits : pos + q < 2 ^ 64) :
    (∃ r, readPartitions files (pos + q) data.patchPartitions ⟨z, pos, 0, 0, s⟩ = .ok r ∧
      NoPhantoms files data pos r.ret r.memory r.zip) ↔ Deliverable files data z pos q := by
  have small := tabled.small
  constructor
  · rintro ⟨r, read, honest⟩
    have total := readCounts tabled.tiles tabled.listed ⟨z, pos, 0, 0, s⟩ cached cursor (Nat.zero_le _)
      (Nat.le_add_right _ _) fits small (by dsimp only; omega) read
    dsimp only at total
    rw [Nat.zero_add] at total
    rw [total] at honest
    refine ⟨fits, fun other known asked => ?_⟩
    rw [if_neg (by omega)]
    exact heldWhenHonest tabled (by omega) honest known asked
  · rintro ⟨_, holds⟩
    have delivers : ∀ other ∈ data.patchPartitions, Asked pos (pos + q) other →
        Delivers files data (pos + q) other := by
      intro other known asked
      have held := holds other known asked
      rw [if_neg (by omega)] at held
      have shown := asked.shown
      have ahead := asked.ahead
      have begun := asked.begun
      cases content : files (data.allFiles.getD other.fileIndex []) with
      | none =>
        rw [fileBytes, content, Option.getD_none, List.length_nil] at held
        omega
      | some bytes =>
        refine ⟨by rw [content]; rfl, held, ?_⟩
        rw [fileBytes, content]
        exact lengths _ _ content
    obtain ⟨z', bytes, read, ⟨_, still⟩, length, shows⟩ := readLoop tabled.tiles tabled.listed ⟨z, pos, 0, 0, s⟩
      delivers cached cursor (Nat.zero_le _) (Nat.le_add_right _ _) fits small (by dsimp only; omega) rfl
    refine ⟨_, read, bytes.length, ?_, ?_, ?_⟩
    · rw [length]
      exact Nat.le_of_eq (Nat.zero_add _)
    · rw [still, length]
      exact Int.le_of_eq (Int.natCast_add _ _)
    · intro i inside
      exact shows i _ (storeGet s inside)

end

theorem freadHonest (tabled : Tabled data) (lengths : ∀ path content, files path = some content → content.length < 2 ^ 63)
    {z : ShadowZip} (cached : Cached data z) {pos : Nat} (cursor : z.pos = pos) (below : pos < 2 ^ 63)
    (size nmemb : Nat) (s : Memory) : FreadHonest files data z pos size nmemb s ↔
      i32 nmemb ≤ 0 ∨ data.endOfFile ≤ pos ∨ Deliverable files data z pos (u64 (size * nmemb : Nat)) := by
  by_cases count : i32 nmemb ≤ 0
  · exact ⟨fun _ => .inl count, fun _ => ⟨0, s, z, by rw [fread, if_pos count], nothingHonest cursor s⟩⟩
  have request := u64Bound (size * nmemb : Nat)
  rw [honestRuns cached cursor below size (Int.not_le.mp count) s]
  generalize u64 (size * nmemb : Nat) = q at request ⊢
  cases found : partitionAt data pos with
  | none =>
    exact ⟨fun _ => .inr (.inl (partitionNone tabled found)), fun _ => ⟨_, readPast found, nothingHonest cursor s⟩⟩
  | some info =>
    obtain ⟨mem, low, high⟩ := partitionIn tabled found
    have inside := partitionInside tabled found
    have ongoing : ¬ data.endOfFile ≤ pos := by omega
    simp only [count, ongoing, false_or]
    by_cases wrapped : 2 ^ 64 ≤ pos + q
    · have stop : u64 (pos + q : Nat) = pos + q - 2 ^ 64 := by unfold u64; omega
      rw [stop]
      refine ⟨fun delivered => ?_, fun fine => absurd fine.1 (by omega)⟩
      obtain ⟨_, read, honest⟩ := delivered
      exact absurd honest (wrappedPhantoms tabled cached cursor found s request wrapped read)
    have stop : u64 (pos + q : Nat) = pos + q := u64Exact (by omega)
    rw [stop]
    rcases Nat.eq_zero_or_pos q with rfl | some
    · rw [emptyDeliverable tabled found below]
      exact emptyHonest tabled cached cursor found s
    · exact requestHonest tabled cached cursor s lengths some (by omega)

end

theorem sampleHonest : FreadHonest sampleFiles sampleTable (sampleOpened 1) 1 1 3 (fun _ => 0) := by
  refine (freadHonest sampleServes.tabled ?_ (sampleCached 1) rfl (by decide) 1 3 _).mpr (.inr (.inr ⟨by decide, ?_⟩))
  · intro path content here
    unfold sampleFiles at here
    split at here
    · cases here
      decide
    · split at here <;> cases here
      decide
  · intro info mem _
    rw [if_neg (by decide)]
    simp only [sampleTable, List.mem_cons, List.not_mem_nil, or_false] at mem
    rcases mem with rfl | rfl | rfl <;> decide

/- The second file lost all but one byte after the table was made. -/
def truncatedFiles (path : Bytes) : Option Bytes := if path = [98] then some [4] else sampleFiles path

theorem truncatedPhantoms : Tabled sampleTable ∧ Cached sampleTable (sampleOpened 0) ∧
    ¬ FreadHonest truncatedFiles sampleTable (sampleOpened 0) 0 1 5 (fun _ => 0) := by
  refine ⟨sampleServes.tabled, sampleCached 0, ?_⟩
  rintro ⟨ret, s, z, ran, honest⟩
  have count : (fread truncatedFiles (fun _ => 0) 1 5 (sampleOpened 0)).map Prod.fst = .ok 5 := by decide +kernel
  rw [ran] at count
  cases count
  have asked : Asked 0 5 ⟨2, 5, 1, 0, 3⟩ := ⟨by decide, by decide, .inr (by decide)⟩
  have held := heldWhenHonest sampleServes.tabled (by decide) honest (by decide) asked
  exact absurd held (by decide)
end Bootstrap.ShadowStream
