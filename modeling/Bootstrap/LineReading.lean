import Bootstrap.ShadowCursor

/-! ShadowZip::fgets asks one file for the whole line. -/
namespace Bootstrap.ShadowStream
open Bootstrap.ShadowZip CInt ByteLayout SerialUtils Tiling
open PlainFile (Memory store lineOf lineAgrees lineEmpty lineLength storeInjective)

/-- The line ends in its partition, or the file goes on after the partition as the virtual file does. -/
def LineGoesOn (files : Files) (data : ShadowZipGlobalData) (pos : Nat) (size : Int) (info : FilePartitionInfo) : Prop :=
  let file := fileBytes files data info.fileIndex
  let rest := slice file (info.startInFile + (pos - info.shadowStart)) (info.shadowStop - pos)
  let more := (size - 1).toNat - rest.length
  10 ∈ rest ∨ (lineOf (file.drop info.stopInFile)).take more =
    (lineOf ((virtualBytes files data).drop info.shadowStop)).take more

def FgetsAgrees (files : Files) (data : ShadowZipGlobalData) (z : ShadowZip) (pos : Nat) (size : Int) (s : Memory) :
    Prop :=
  ∃ z', fgets files s size z = .ok ((PlainFile.fgets (virtualBytes files data) pos size s).1, z') ∧
    z'.pos = (PlainFile.fgets (virtualBytes files data) pos size s).2 ∧ Cached data z'

theorem fgetsFromFind (files : Files) (s : Memory) (size : Int) (z : ShadowZip) (infos : List FilePartitionInfo) :
    fgetsFrom files s size z infos = match infos.find? (fun info => u64 z.pos < info.shadowStop) with
      | none => .ok (none, z)
      | some info => fgetsFrom files s size z [info] := by
  induction infos with
  | nil => rfl
  | cons info infos ih =>
    by_cases past : info.shadowStop ≤ u64 z.pos
    · rw [fgetsFrom, if_pos past, List.find?_cons_of_neg (by simpa using past), ih]
    · rw [List.find?_cons_of_pos (by simpa using past), fgetsFrom, if_neg past]
      dsimp only
      rw [fgetsFrom, if_neg past]

section
variable {files : Files} {data : ShadowZipGlobalData}

theorem partitionShows (serves : Serves files data) {pos : Nat} {info : FilePartitionInfo}
    (mem : info ∈ data.patchPartitions) (low : info.shadowStart ≤ pos) (high : pos < info.shadowStop) :
    (virtualBytes files data).drop pos =
      slice (fileBytes files data info.fileIndex) (info.startInFile + (pos - info.shadowStart)) (info.shadowStop - pos) ++
        (virtualBytes files data).drop info.shadowStop :=
  gatherFrom serves.tiles serves.pieceHeld (List.mem_map_of_mem (f := piece) mem) ⟨low, high⟩

theorem fgetsAt (serves : Serves files data) {z : ShadowZip} (cached : Cached data z) {pos : Nat} (cursor : z.pos = pos)
    {size : Int} (some_ : 2 ≤ size) {s : Memory} {info : FilePartitionInfo}
    (mem : info ∈ data.patchPartitions) (low : info.shadowStart ≤ pos) (high : pos < info.shadowStop) {line : Bytes}
    (got : line = (lineOf ((fileBytes files data info.fileIndex).drop
      (info.startInFile + (pos - info.shadowStart)))).take (size - 1).toNat) :
    ∃ z', fgetsFrom files s size z [info] = .ok (some (store s 0 (line ++ [0])), z') ∧
      z'.pos = i64 (pos + line.length) ∧ Cached data z' := by
  have served := serves.served info mem
  have held := served.held
  have length := served.length
  have small := serves.small
  have inside := tilesAround serves.tiles (List.mem_map_of_mem (f := piece) mem)
  obtain ⟨ordered, shown⟩ := tilesEven serves.tiles _ (List.mem_map_of_mem (f := piece) mem)
  simp only [Piece.Held, piece] at held ordered shown inside
  have from_ : u64 (pos - info.shadowStart + info.startInFile : Int) =
      info.startInFile + (pos - info.shadowStart) := by unfold u64; omega
  have index : i32 (info.fileIndex : Int) = info.fileIndex := i32Exact (by omega) (by have := served.index; omega)
  have offset : ¬ i64 ((info.startInFile + (pos - info.shadowStart) : Nat) : Int) < 0 := by
    rw [i64Exact (by omega) (by omega)]
    omega
  obtain ⟨file, zip, prepared, kept, still, own, opened⟩ := prepareFileCached files cached served.named
  obtain ⟨fp, rfl⟩ := Option.isSome_iff_exists.mp (opened.mpr (.inr served.opens))
  have path := own fp rfl
  have some' : line ≠ [] := by
    have room : (size - 1).toNat ≠ 0 := by omega
    rw [got, Ne, List.take_eq_nil_iff, lineEmpty, List.drop_eq_nil_iff]
    omega
  have short : line.length ≤ (fileBytes files data info.fileIndex).length := by
    rw [got, List.length_take]
    have := lineLength ((fileBytes files data info.fileIndex).drop (info.startInFile + (pos - info.shadowStart)))
    rw [List.length_drop] at this
    omega
  have begin_ : u64 (pos : Int) = pos := u64Exact (by omega)
  rw [fgetsFrom]
  simp only [cursor, begin_]
  rw [if_neg (by omega), if_neg (by omega)]
  simp only [from_, index]
  rw [exceptOk prepared]
  rw [fileBytes, ← path] at got
  have answer : ¬ (size ≤ 0 ∨ line = [] ∧ size ≠ 1) := by
    rintro (low | ⟨bad, _⟩)
    · omega
    · exact some' bad
  have moved : i64 ((info.startInFile + (pos - info.shadowStart) + line.length : Nat) -
      (info.startInFile + (pos - info.shadowStart) : Nat) : Int) = line.length := by
    rw [i64Exact (by omega) (by omega)]
    omega
  simp only [getLine, if_neg offset, ← got, if_neg answer, moved, still, cursor, Int.toNat_natCast]
  refine ⟨_, rfl, rfl, ?_⟩
  exact cachedUse kept served.named
    ⟨fp.id, fp.path, info.startInFile + (pos - info.shadowStart) + line.length⟩ path _

theorem goesOnExactly (serves : Serves files data) {info : FilePartitionInfo} (mem : info ∈ data.patchPartitions)
    {pos : Nat} (low : info.shadowStart ≤ pos) (high : pos < info.shadowStop) (size : Int) :
    LineGoesOn files data pos size info ↔ (lineOf ((fileBytes files data info.fileIndex).drop
      (info.startInFile + (pos - info.shadowStart)))).take (size - 1).toNat =
        (lineOf ((virtualBytes files data).drop pos)).take (size - 1).toNat := by
  have held := (serves.served info mem).held
  obtain ⟨ordered, shown⟩ := tilesEven serves.tiles _ (List.mem_map_of_mem (f := piece) mem)
  simp only [Piece.Held, piece] at held ordered shown
  have until_ : info.stopInFile = info.startInFile + (pos - info.shadowStart) + (info.shadowStop - pos) := by omega
  have onward : (fileBytes files data info.fileIndex).drop (info.startInFile + (pos - info.shadowStart)) =
      slice (fileBytes files data info.fileIndex) (info.startInFile + (pos - info.shadowStart))
        (info.shadowStop - pos) ++ (fileBytes files data info.fileIndex).drop info.stopInFile := by
    rw [until_]
    exact dropSlice _ _ _
  rw [onward, partitionShows serves mem low high]
  -- both lines start with what the partition shows from the position on
  exact (lineAgrees _ _ _ _).symm

theorem plainLine (serves : Serves files data) {pos : Nat} (inside : pos < data.endOfFile) {n : Nat} (some_ : n ≠ 0) :
    (lineOf ((virtualBytes files data).drop pos)).take n ≠ [] ∧
      ((lineOf ((virtualBytes files data).drop pos)).take n).length ≤ data.endOfFile - pos := by
  have length := virtualLength serves
  constructor
  · rw [Ne, List.take_eq_nil_iff, lineEmpty, List.drop_eq_nil_iff]
    omega
  · have short := lineLength ((virtualBytes files data).drop pos)
    rw [List.length_drop] at short
    rw [List.length_take]
    omega

theorem fgetsAgrees (serves : Serves files data) {z : ShadowZip} (cached : Cached data z) {pos : Nat}
    (cursor : z.pos = pos) (below : pos < 2 ^ 63) {size : Int} (some_ : 2 ≤ size) (int : size < 2 ^ 31) (s : Memory) :
    FgetsAgrees files data z pos size s ↔ ∀ info, partitionAt data pos = some info → LineGoesOn files data pos size info := by
  have table : z.patchPartitions = data.patchPartitions := congrArg ShadowZipGlobalData.patchPartitions cached.same
  have begin_ : u64 (pos : Int) = pos := u64Exact (by omega)
  have length := virtualLength serves
  have small := serves.small
  rw [FgetsAgrees, fgets, fgetsFromFind, table]
  simp only [cursor, begin_]
  rw [← partitionAt]
  cases found : partitionAt data pos with
  | none =>
    have past := partitionNone serves.tabled found
    have nothing : (virtualBytes files data).drop pos = [] := List.drop_eq_nil_iff.mpr (by omega)
    simp only [PlainFile.fgets, nothing, lineOf, List.take_nil, if_true]
    exact ⟨(fun _ _ bad => by cases bad), fun _ => ⟨z, rfl, by simpa using cursor, cached⟩⟩
  | some info =>
    obtain ⟨mem, low, high⟩ := partitionIn serves.tabled found
    have inside := tilesAround serves.tiles (List.mem_map_of_mem (f := piece) mem)
    have goesOn := goesOnExactly serves mem low high size
    have room : (size - 1).toNat ≠ 0 := by omega
    obtain ⟨some', within⟩ := plainLine serves (show pos < data.endOfFile from Nat.lt_of_lt_of_le high inside.2) room
    obtain ⟨z', ok, moved, kept⟩ := fgetsAt serves cached cursor some_ (s := s) mem low high rfl
    generalize got : (lineOf ((fileBytes files data info.fileIndex).drop
      (info.startInFile + (pos - info.shadowStart)))).take (size - 1).toNat = line at goesOn ok moved
    generalize same : (lineOf ((virtualBytes files data).drop pos)).take (size - 1).toNat = plain at goesOn some' within
    have only : (∀ info', some info = some info' → LineGoesOn files data pos size info') ↔ line = plain :=
      ⟨fun all => goesOn.mp (all info rfl), fun same info' here => by cases here; exact goesOn.mpr same⟩
    rw [only]
    simp only [ok, PlainFile.fgets, same, if_neg some']
    constructor
    · rintro ⟨w, answer, there, _⟩
      obtain ⟨stored, rfl⟩ := Prod.mk.inj (Except.ok.inj answer)
      rw [moved] at there
      have size : line.length = plain.length := by
        have short : line.length < 2 ^ 31 := by
          rw [← got, List.length_take]
          omega
        unfold i64 at there
        omega
      have whole := storeInjective (by simp [size]) (Option.some.inj stored)
      exact (List.append_inj_left whole size)
    · rintro rfl
      exact ⟨z', rfl, by rw [moved, i64Exact (by omega) (by omega)]; omega, kept⟩

end

/- The last partition ends two bytes before its file does. -/
theorem sampleShortLine : FgetsAgrees sampleFiles sampleTable (sampleOpened 2) 2 3 (fun _ => 0) := by
  refine (fgetsAgrees sampleServes (sampleCached 2) rfl (by decide) (by decide) (by decide) _).mpr ?_
  intro info found
  cases found
  exact .inr (by decide)

theorem linePastTheEnd : Serves sampleFiles sampleTable ∧ Cached sampleTable (sampleOpened 2) ∧
    ¬ FgetsAgrees sampleFiles sampleTable (sampleOpened 2) 2 10 (fun _ => 0) := by
  refine ⟨sampleServes, sampleCached 2, ?_⟩
  rintro ⟨z', answer, there, _⟩
  have read : (fgets sampleFiles (fun _ => 0) 10 (sampleOpened 2)).map (fun r => r.2.pos) = .ok 7 := by
    decide +kernel
  rw [answer] at read
  have past := Except.ok.inj read
  dsimp only at past
  rw [there] at past
  cases past

end Bootstrap.ShadowStream
