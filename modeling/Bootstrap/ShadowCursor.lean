import Bootstrap.ShadowStream
import Bootstrap.PartitionTable

/-! The stream of a ShadowZip is a cursor on the bytes that its table shows. -/
namespace Bootstrap.ShadowStream
open Bootstrap.ShadowZip CInt ByteLayout SerialUtils Tiling
open PlainFile (Memory store Call Answer storeNil storeAppend)

def fileBytes (files : Files) (data : ShadowZipGlobalData) (i : Nat) : Bytes :=
  (files (data.allFiles.getD i [])).getD []

def virtualBytes (files : Files) (data : ShadowZipGlobalData) : Bytes :=
  gather (fileBytes files data) (pieces data.patchPartitions)

/-- The file of a partition can be opened and holds its range. File indices were ints; file lengths are. -/
structure Served (files : Files) (data : ShadowZipGlobalData) (info : FilePartitionInfo) : Prop where
  index : info.fileIndex < 2 ^ 31
  named : info.fileIndex < data.allFiles.length
  opens : (files (data.allFiles.getD info.fileIndex [])).isSome
  held : (piece info).Held (fileBytes files data)
  length : (fileBytes files data info.fileIndex).length < 2 ^ 63

structure Serves (files : Files) (data : ShadowZipGlobalData) : Prop where
  tiles : Tiles 0 (pieces data.patchPartitions) data.endOfFile
  small : data.endOfFile < 2 ^ 63
  base : data.allFiles ≠ []
  served : ∀ info ∈ data.patchPartitions, Served files data info

def Allowed (pos : Nat) : Call → Prop
  | .fseek offset _ => -(2 ^ 63) ≤ offset ∧ offset < 2 ^ 63
  | .fread size nmemb _ => (0 < nmemb ∧ nmemb < 2 ^ 31) ∧ pos + size * nmemb < 2 ^ 63
  | _ => True

def AllowedRun (file : Bytes) (pos : Nat) : List Call → Prop
  | [] => True
  | c :: cs => Allowed pos c ∧ AllowedRun file (PlainFile.call file pos c).2 cs

structure Cached (data : ShadowZipGlobalData) (z : ShadowZip) : Prop where
  same : z.toShadowZipGlobalData = data
  length : z.fpArray.length = data.allFiles.length
  own : ∀ (i : Nat) (fp : Handle), z.fpArray[i]? = some (some fp) → data.allFiles[i]? = some fp.path

theorem closedOwn {fps : List (Option Handle)} {i : Nat} {fp : Handle}
    (mem : (closeOthers fps).1[i]? = some (some fp)) : fps[i]? = some (some fp) := by
  cases fps with
  | nil => simp [closeOthers] at mem
  | cons head rest =>
    cases i with
    | zero => exact mem
    | succ i =>
      simp only [closeOthers, List.getElem?_cons_succ, List.getElem?_map, Option.map_eq_some_iff] at mem
      obtain ⟨_, _, bad⟩ := mem
      cases bad

theorem closedLength (fps : List (Option Handle)) : (closeOthers fps).1.length = fps.length := by
  cases fps <;> simp [closeOthers]

theorem cachedSet {data : ShadowZipGlobalData} {z : ShadowZip} (cached : Cached data z) {i : Nat} (fp : Handle)
    (own : data.allFiles[i]? = some fp.path) (pos : Int) (opened : List Bytes) :
    Cached data { z with pos, fpArray := z.fpArray.set i (some fp), opened } := by
  refine ⟨cached.same, by simpa using cached.length, ?_⟩
  intro j other mem
  dsimp only at mem
  by_cases here : i = j
  · subst here
    rw [List.getElem?_set_self'] at mem
    cases found : z.fpArray[i]? with
    | none => simp [found] at mem
    | some old =>
      simp only [found, Option.map_eq_map, Option.map_some, Function.const_apply, Option.some.injEq] at mem
      exact mem ▸ own
  · rw [List.getElem?_set_ne here] at mem
    exact cached.own j other mem

theorem namedAt {data : ShadowZipGlobalData} {i : Nat} (inside : i < data.allFiles.length) :
    data.allFiles[i]? = some (data.allFiles.getD i []) := by
  rw [List.getD_eq_getElem?_getD, List.getElem?_eq_getElem inside, Option.getD_some]

def Openable (files : Files) (data : ShadowZipGlobalData) (z : ShadowZip) (i : Nat) : Prop :=
  (∃ fp, z.fpArray[i]? = some (some fp)) ∨ (files (data.allFiles.getD i [])).isSome

theorem prepareFileCached (files : Files) {data : ShadowZipGlobalData} {z : ShadowZip} (cached : Cached data z)
    {i : Nat} (inside : i < data.allFiles.length) :
    ∃ file z', prepareFile files i z = .ok (file, z') ∧ Cached data z' ∧ z'.pos = z.pos ∧
      (∀ fp, file = some fp → fp.path = data.allFiles.getD i []) ∧ (file.isSome ↔ Openable files data z i) := by
  have named := namedAt inside
  have room : i < z.fpArray.length := cached.length ▸ inside
  have slot := List.getElem?_eq_getElem room
  have same : z.allFiles = data.allFiles := congrArg ShadowZipGlobalData.allFiles cached.same
  rw [prepareFile, if_neg (by omega), Openable]
  simp only [Int.toNat_natCast]
  rw [slot]
  cases here : z.fpArray[i] with
  | some fp =>
    rw [here] at slot
    refine ⟨some fp, z, rfl, cached, rfl, ?_, by simp⟩
    rintro _ ⟨⟩
    exact Option.some.inj ((cached.own i fp slot).symm.trans named)
  | none =>
    have closed : Cached data { z with
        fpArray := (closeOthers z.fpArray).1, closed := z.closed ++ (closeOthers z.fpArray).2 } :=
      ⟨cached.same, (closedLength _).trans cached.length, fun j fp mem => cached.own j fp (closedOwn mem)⟩
    dsimp only
    rw [same, named]
    dsimp only
    cases found : files (data.allFiles.getD i []) with
    | none => exact ⟨none, _, rfl, closed, rfl, (fun _ bad => by cases bad), by simp⟩
    | some content =>
      refine ⟨_, _, rfl, cachedSet closed ⟨z.opened.length, data.allFiles.getD i [], 0⟩ named z.pos _, rfl, ?_, by simp⟩
      rintro _ ⟨⟩
      rfl

theorem cachedUse {data : ShadowZipGlobalData} {z : ShadowZip} (cached : Cached data z) {i : Nat}
    (inside : i < data.allFiles.length) (fp : Handle) (own : fp.path = data.allFiles.getD i []) (pos : Int) :
    Cached data { z with pos, fpArray := z.fpArray.set i (some fp) } :=
  cachedSet cached fp (own ▸ namedAt inside) pos z.opened

structure Listed (data : ShadowZipGlobalData) (info : FilePartitionInfo) : Prop where
  index : info.fileIndex < 2 ^ 31
  named : info.fileIndex < data.allFiles.length
  offset : info.stopInFile < 2 ^ 64

theorem Served.listed {files : Files} {data : ShadowZipGlobalData} {info : FilePartitionInfo}
    (served : Served files data info) : Listed data info := by
  have held := served.held
  have length := served.length
  unfold Piece.Held at held
  simp only [piece] at held
  exact ⟨served.index, served.named, by omega⟩

structure Asked (start stop : Nat) (info : FilePartitionInfo) : Prop where
  shown : info.shadowStart < info.shadowStop
  ahead : start < info.shadowStop
  begun : info.shadowStart ≤ start ∨ info.shadowStart < stop

structure Delivers (files : Files) (data : ShadowZipGlobalData) (stop : Nat) (info : FilePartitionInfo) : Prop where
  opens : (files (data.allFiles.getD info.fileIndex [])).isSome
  held : info.startInFile + (min stop info.shadowStop - info.shadowStart) ≤
    (fileBytes files data info.fileIndex).length
  length : (fileBytes files data info.fileIndex).length < 2 ^ 63

theorem Served.delivers {files : Files} {data : ShadowZipGlobalData} {info : FilePartitionInfo}
    (served : Served files data info) (even : (piece info).Even) (stop : Nat) : Delivers files data stop info := by
  have held := served.held
  obtain ⟨ordered, shown⟩ := even
  unfold Piece.Held at held
  simp only [piece] at held ordered shown
  exact ⟨served.opens, by omega, served.length⟩

section
variable {files : Files} {data : ShadowZipGlobalData} {stop : Nat}

section
variable {info : FilePartitionInfo} (even : (piece info).Even) (listed : Listed data info) {r : Reading}
  (low : info.shadowStart ≤ r.start) (high : r.start < info.shadowStop) (ahead : r.start ≤ stop) (fits : stop < 2 ^ 64)
  (small : info.shadowStop < 2 ^ 63) (room : r.ret + (stop - r.start) < 2 ^ 64)
include even listed low high ahead fits small room

theorem readRound {file : Option Handle} {zip : ShadowZip}
    (prepared : prepareFile files info.fileIndex r.zip = .ok (file, zip)) (pos : zip.pos = r.start) {n : Nat}
    (amount : n = min stop info.shadowStop - r.start) : readPartition files stop info r = match file with
      | none => .error .faulted
      | some fp =>
        let got := readHandle files fp (info.startInFile + (r.start - info.shadowStart)) n
        .ok (decide (stop ≤ info.shadowStop),
          ⟨{ zip with pos := (r.start + n : Nat), fpArray := zip.fpArray.set info.fileIndex (some got.2) },
            r.start + n, r.ret + n, r.writePtr + n, store r.memory r.writePtr got.1⟩) := by
  obtain ⟨ordered, shown⟩ := even
  have offset := listed.offset
  simp only [piece] at ordered shown
  have from_ : u64 (r.start - info.shadowStart + info.startInFile : Int) =
      info.startInFile + (r.start - info.shadowStart) := by unfold u64; omega
  have count : i64 ((if info.shadowStop ≤ stop then info.stopInFile
      else u64 (stop - info.shadowStart + info.startInFile : Int) : Nat) -
        (info.startInFile + (r.start - info.shadowStart) : Nat) : Int) = n := by
    by_cases whole : info.shadowStop ≤ stop
    · rw [if_pos whole, i64Exact (by omega) (by omega)]
      omega
    · have until_ : u64 (stop - info.shadowStart + info.startInFile : Int) =
          info.startInFile + (stop - info.shadowStart) := by unfold u64; omega
      rw [if_neg whole, until_, i64Exact (by omega) (by omega)]
      omega
  have index : i32 (info.fileIndex : Int) = info.fileIndex := i32Exact (by omega) (by have := listed.index; omega)
  have start : u64 ((r.start : Int) + (n : Int)) = r.start + n := by unfold u64; omega
  have ret : u64 ((r.ret : Int) + (n : Int)) = r.ret + n := by unfold u64; omega
  have position : i64 (zip.pos + (n : Int)) = (r.start + n : Nat) := by
    rw [pos, i64Exact (by omega) (by omega), Int.natCast_add]
  have done : decide (stop ≤ r.start + n) = decide (stop ≤ info.shadowStop) := decide_eq_decide.mpr (by omega)
  rw [readPartition, if_neg (by omega), if_neg (by omega)]
  simp only [from_, count, index]
  rw [exceptOk prepared]
  cases file with
  | none => rfl
  | some fp =>
    simp only [u64Exact (show n < 2 ^ 64 by omega), start, ret, position, done, Int.toNat_natCast]
    rfl

theorem readStep (delivers : Delivers files data stop info) (cached : Cached data r.zip) (pos : r.zip.pos = r.start)
    {n : Nat} (amount : n = min stop info.shadowStop - r.start) :
    ∃ z' bytes, readPartition files stop info r = .ok (decide (stop ≤ info.shadowStop),
        ⟨z', r.start + n, r.ret + n, r.writePtr + n, store r.memory r.writePtr bytes⟩) ∧
      (Cached data z' ∧ z'.pos = (r.start + n : Nat)) ∧ bytes.length = n ∧
      ∀ i b, bytes[i]? = some b →
        (fileBytes files data info.fileIndex)[info.startInFile + (r.start + i - info.shadowStart)]? = some b := by
  obtain ⟨file, zip, prepared, kept, still, own, opened⟩ := prepareFileCached files cached listed.named
  have held := delivers.held
  have length := delivers.length
  have round := readRound even listed low high ahead fits small room prepared (still.trans pos) amount
  obtain ⟨fp, rfl⟩ := Option.isSome_iff_exists.mp (opened.mpr (.inr delivers.opens))
  have path := own fp rfl
  have offset : ¬ i64 ((info.startInFile + (r.start - info.shadowStart) : Nat) : Int) < 0 := by
    rw [i64Exact (by omega) (by omega)]
    omega
  refine ⟨_, _, round, ⟨?_, rfl⟩, ?_, ?_⟩
  · exact cachedUse kept listed.named (readHandle files fp _ _).2 path _
  · rw [readHandle, if_neg offset, path]
    exact sliceLength (by unfold fileBytes at held; omega)
  · intro i b byte
    rw [readHandle, if_neg offset, path] at byte
    dsimp only at byte
    have below : i < n := by
      have inside := (List.getElem?_eq_some_iff.mp byte).1
      have := sliceLengthLe ((files (data.allFiles.getD info.fileIndex [])).getD [])
        (info.startInFile + (r.start - info.shadowStart)) n
      omega
    rw [sliceGet _ below] at byte
    have there : info.startInFile + (r.start + i - info.shadowStart) =
        info.startInFile + (r.start - info.shadowStart) + i := by omega
    rw [there]
    exact byte

end

theorem readSkip {info : FilePartitionInfo} (infos : List FilePartitionInfo) {r : Reading}
    (past : info.shadowStop ≤ r.start) :
    readPartitions files stop (info :: infos) r = readPartitions files stop infos r := by
  rw [readPartitions, readPartition, if_pos past]
  rfl

theorem readLoop {infos : List FilePartitionInfo} {first last : Nat} (tiles : Tiles first (pieces infos) last)
    (listed : ∀ info ∈ infos, Listed data info) (r : Reading)
    (delivers : ∀ info ∈ infos, Asked r.start stop info → Delivers files data stop info) (cached : Cached data r.zip)
    (pos : r.zip.pos = r.start) (low : first ≤ r.start) (ahead : r.start ≤ stop) (fits : stop < 2 ^ 64)
    (small : last < 2 ^ 63) (room : r.ret + (stop - r.start) < 2 ^ 64) {n : Nat}
    (amount : n = min stop last - r.start) :
    ∃ z' bytes, readPartitions files stop infos r = .ok ⟨z', r.start + n, r.ret + n, r.writePtr + n,
        store r.memory r.writePtr bytes⟩ ∧ (Cached data z' ∧ z'.pos = (r.start + n : Nat)) ∧ bytes.length = n ∧
      ∀ i b, bytes[i]? = some b → Shows (fileBytes files data) (pieces infos) (r.start + i) b := by
  induction infos generalizing first r n with
  | nil =>
    cases tiles
    have none : n = 0 := by omega
    subst none
    exact ⟨r.zip, [], by simp [readPartitions, storeNil], ⟨cached, pos⟩, rfl, by simp⟩
  | cons info infos ih =>
    have split : pieces (info :: infos) = piece info :: pieces infos := rfl
    rw [split] at tiles ⊢
    cases tiles with
    | cons starts even tail =>
      have ordered := tilesOrdered tail
      have shown := even.shown
      have up := even.ordered
      have later : ∀ {place b}, Shows (fileBytes files data) (pieces infos) place b →
          Shows (fileBytes files data) (piece info :: pieces infos) place b := by
        rintro place b ⟨p, mem, byte⟩
        exact ⟨p, List.mem_cons_of_mem _ mem, byte⟩
      have rest := ih tail (fun other mem => listed other (List.mem_cons_of_mem _ mem))
      simp only [piece] at starts ordered shown up rest
      by_cases past : info.shadowStop ≤ r.start
      · rw [readSkip infos past]
        obtain ⟨z', bytes, run, kept, size, shows⟩ := rest r
          (fun other mem => delivers other (List.mem_cons_of_mem _ mem)) cached pos past ahead room amount
        exact ⟨z', bytes, run, kept, size, fun i b byte => later (shows i b byte)⟩
      · obtain ⟨k, part⟩ : ∃ k, k = min stop info.shadowStop - r.start := ⟨_, rfl⟩
        have own := delivers info List.mem_cons_self ⟨by omega, by omega, .inl (by omega)⟩
        obtain ⟨z', front, step, kept, size, shows⟩ := readStep even (listed info List.mem_cons_self) (by omega)
          (by omega) ahead fits (by omega) room own cached pos part
        have here : ∀ i b, front[i]? = some b →
            Shows (fileBytes files data) (piece info :: pieces infos) (r.start + i) b := by
          intro i b byte
          have inside := (List.getElem?_eq_some_iff.mp byte).1
          exact ⟨piece info, List.mem_cons_self, by simp only [piece]; omega, shows i b byte⟩
        rw [readPartitions, exceptOk step]
        by_cases within : stop ≤ info.shadowStop
        · have all : n = k := by omega
          simp only [decide_eq_true within, if_true]
          exact ⟨z', front, by rw [all]; rfl, by rw [all]; exact kept, by rw [all, size], here⟩
        · have whole : r.start + k = info.shadowStop := by omega
          simp only [decide_eq_false within]
          obtain ⟨z'', back, run, last, length, seen⟩ := rest ⟨z', r.start + k, r.ret + k, r.writePtr + k, _⟩
            (fun other mem asked => delivers other (List.mem_cons_of_mem _ mem)
              ⟨asked.shown, by have := asked.ahead; dsimp only at this; omega,
                by have := asked.begun; dsimp only at this; omega⟩)
            kept.1 kept.2 (by dsimp only; omega) (by dsimp only; omega) (by dsimp only; omega)
            (show n - k = _ by dsimp only; omega)
          dsimp only at run last seen
          have total : k + (n - k) = n := by omega
          refine ⟨z'', front ++ back, ?_, ⟨last.1, by rw [last.2, Nat.add_assoc, total]⟩, ?_, ?_⟩
          · rw [if_neg Bool.false_ne_true, run, ← storeAppend, size]
            simp only [Nat.add_assoc, total, Int.add_assoc, ← Int.natCast_add]
          · rw [List.length_append, size, length, total]
          · intro i b byte
            by_cases early : i < k
            · rw [List.getElem?_append_left (by omega)] at byte
              exact here i b byte
            · rw [List.getElem?_append_right (by omega), size] at byte
              have there : r.start + k + (i - k) = r.start + i := by omega
              exact there ▸ later (seen (i - k) b byte)

structure Tabled (data : ShadowZipGlobalData) : Prop where
  tiles : Tiles 0 (pieces data.patchPartitions) data.endOfFile
  small : data.endOfFile < 2 ^ 63
  listed : ∀ info ∈ data.patchPartitions, Listed data info

theorem Serves.tabled (serves : Serves files data) : Tabled data :=
  ⟨serves.tiles, serves.small, fun info mem => (serves.served info mem).listed⟩

theorem Serves.pieceHeld (serves : Serves files data) :
    ∀ p ∈ pieces data.patchPartitions, p.Held (fileBytes files data) := by
  intro p mem
  obtain ⟨info, known, rfl⟩ := List.mem_map.mp mem
  exact (serves.served info known).held

def partitionAt (data : ShadowZipGlobalData) (pos : Nat) : Option FilePartitionInfo :=
  data.patchPartitions.find? (fun info => pos < info.shadowStop)

theorem partitionPiece (data : ShadowZipGlobalData) (pos : Nat) :
    (pieces data.patchPartitions).find? (fun p => pos < p.last) = (partitionAt data pos).map piece := by
  rw [pieces, List.find?_map]
  rfl

theorem partitionIn (tabled : Tabled data) {pos : Nat} {info : FilePartitionInfo}
    (found : partitionAt data pos = some info) :
    info ∈ data.patchPartitions ∧ info.shadowStart ≤ pos ∧ pos < info.shadowStop :=
  ⟨List.mem_of_find?_eq_some found,
    ((tilesFind tabled.tiles (Nat.zero_le pos)).1 (piece info) (by rw [partitionPiece, found]; rfl)).2⟩

theorem partitionInside (tabled : Tabled data) {pos : Nat} {info : FilePartitionInfo}
    (found : partitionAt data pos = some info) : info.shadowStop ≤ data.endOfFile :=
  (tilesAround tabled.tiles (List.mem_map_of_mem (f := piece) (partitionIn tabled found).1)).2

theorem partitionNone (tabled : Tabled data) {pos : Nat} (none_ : partitionAt data pos = none) : data.endOfFile ≤ pos :=
  (tilesFind tabled.tiles (Nat.zero_le pos)).2 (by rw [partitionPiece, none_]; rfl)

structure At (data : ShadowZipGlobalData) (z : ShadowZip) (pos : Nat) : Prop where
  cached : Cached data z
  cursor : z.pos = pos
  inside : pos ≤ data.endOfFile

theorem virtualLength (serves : Serves files data) : (virtualBytes files data).length = data.endOfFile :=
  gatherLength serves.tiles serves.pieceHeld

theorem fopenAt (serves : Serves files data) (pos : Int) :
    ∃ fp z, fopen files (shadowZip data pos) = .ok (fp, z) ∧ At data z 0 := by
  obtain ⟨path, paths, base⟩ := List.exists_cons_of_ne_nil serves.base
  have fresh : Cached data { shadowZip data pos with pos := 0, fpArray := List.replicate data.allFiles.length none } := by
    refine ⟨rfl, List.length_replicate, fun i fp mem => ?_⟩
    have bad := List.eq_of_mem_replicate (List.mem_of_getElem? mem)
    cases bad
  obtain ⟨file, z, ok, cached, still, _⟩ := prepareFileCached files fresh
    (show 0 < data.allFiles.length by rw [base]; exact Nat.succ_pos _)
  exact ⟨file, z, ok, cached, still, Nat.zero_le _⟩

/-- What fseek computes is in range exactly when the target is, even where the addition wraps. -/
theorem soughtPos {pos length : Nat} {offset : Int} (inside : pos ≤ length) (small : length < 2 ^ 63)
    (low : -(2 ^ 63) ≤ offset) (high : offset < 2 ^ 63) (whence : Nat) {p : Int}
    (sought : p = if whence = SEEK_SET then offset else if whence = SEEK_CUR then i64 (pos + offset)
      else if whence = SEEK_END then i64 (u64 (length + offset)) else pos) :
    (0 ≤ PlainFile.target length pos offset whence ∧ PlainFile.target length pos offset whence ≤ length ↔
      ¬ (p < 0 ∨ length < u64 p)) ∧ (0 ≤ p → u64 p ≤ length → p = PlainFile.target length pos offset whence) := by
  unfold u64
  by_cases set : whence = SEEK_SET
  · rw [if_pos set] at sought
    rw [set, SEEK_SET, PlainFile.target]
    omega
  by_cases cur : whence = SEEK_CUR
  · rw [if_neg set, if_pos cur, i64] at sought
    rw [cur, SEEK_CUR, PlainFile.target]
    omega
  by_cases end_ : whence = SEEK_END
  · rw [if_neg set, if_neg cur, if_pos end_, i64, u64] at sought
    rw [end_, SEEK_END, PlainFile.target]
    omega
  · rw [if_neg set, if_neg cur, if_neg end_] at sought
    have stays : PlainFile.target length pos offset whence = pos := by
      unfold SEEK_SET at set
      unfold SEEK_CUR at cur
      unfold SEEK_END at end_
      unfold PlainFile.target
      split <;> first | contradiction | rfl
    rw [stays]
    omega

theorem fseekTarget {z : ShadowZip} {pos : Nat} (cursor : z.pos = pos) (inside : pos ≤ z.endOfFile)
    (small : z.endOfFile < 2 ^ 63) {offset : Int} (low : -(2 ^ 63) ≤ offset) (high : offset < 2 ^ 63) (whence : Nat) :
    fseek offset whence z =
      if 0 ≤ PlainFile.target z.endOfFile pos offset whence ∧ PlainFile.target z.endOfFile pos offset whence ≤ z.endOfFile then
        (0, { z with pos := PlainFile.target z.endOfFile pos offset whence })
      else (-1, z) := by
  rw [fseek, cursor]
  obtain ⟨p, sought⟩ : ∃ p, p = if whence = SEEK_SET then offset else if whence = SEEK_CUR then i64 (pos + offset)
    else if whence = SEEK_END then i64 (u64 (z.endOfFile + offset)) else (pos : Int) := ⟨_, rfl⟩
  obtain ⟨range, exact_⟩ := soughtPos inside small low high whence sought
  rw [← sought]
  by_cases there : p < 0 ∨ z.endOfFile < u64 p
  · rw [if_pos there, if_neg (fun within => range.mp within there)]
  · rw [if_neg there, if_pos (range.mpr there), exact_ (by omega) (by omega)]

theorem callRefines (serves : Serves files data) {z : ShadowZip} {pos : Nat} (there : At data z pos) (c : Call)
    (allowed : Allowed pos c) : ∃ z', call files z c = .ok ((PlainFile.call (virtualBytes files data) pos c).1, z') ∧
      At data z' (PlainFile.call (virtualBytes files data) pos c).2 := by
  obtain ⟨cached, cursor, inside⟩ := there
  have length := virtualLength serves
  have small := serves.small
  have same : z.endOfFile = data.endOfFile := congrArg ShadowZipGlobalData.endOfFile cached.same
  cases c with
  | fseek offset whence =>
    obtain ⟨low, high⟩ := allowed
    rw [call, fseekTarget cursor (same ▸ inside) (same ▸ small) low high, PlainFile.call, length, same]
    split
    · refine ⟨_, rfl, ⟨cached.same, cached.length, cached.own⟩, ?_, ?_⟩
      · dsimp only
        omega
      · dsimp only
        omega
    · exact ⟨z, rfl, cached, cursor, inside⟩
  | rewind => exact ⟨_, rfl, ⟨cached.same, cached.length, cached.own⟩, rfl, Nat.zero_le _⟩
  | ftell => exact ⟨z, by rw [call, ftell, cursor]; rfl, cached, cursor, inside⟩
  | fread size nmemb ptr =>
    obtain ⟨⟨some, int⟩, fits⟩ := allowed
    have table : z.patchPartitions = data.patchPartitions := congrArg ShadowZipGlobalData.patchPartitions cached.same
    have count : ¬ i32 (nmemb : Int) ≤ 0 := by
      rw [i32Exact (by omega) (by omega)]
      omega
    have product : u64 (size * nmemb : Nat) = size * nmemb := u64Exact (by omega)
    have stop : u64 ((pos : Int) + (size * nmemb : Nat)) = pos + size * nmemb := by unfold u64; omega
    have start : u64 (pos : Int) = pos := u64Exact (by omega)
    have total : (slice (virtualBytes files data) pos (size * nmemb)).length =
        min (pos + size * nmemb) data.endOfFile - pos := by
      simp only [slice, List.length_take, List.length_drop, length]
      omega
    obtain ⟨z', bytes, read, kept, count', shows⟩ := readLoop serves.tiles
      serves.tabled.listed ⟨z, pos, 0, 0, ptr⟩
      (fun info mem _ => (serves.served info mem).delivers
        (tilesEven serves.tiles _ (List.mem_map_of_mem mem)) _) cached cursor (Nat.zero_le _)
      (Nat.le_add_right _ _) (show pos + size * nmemb < 2 ^ 64 by omega) small (by dsimp only; omega) rfl
    have taken := showsSlice serves.tiles serves.pieceHeld (Nat.zero_le _) count' shows
    have amount : pos + size * nmemb - pos = size * nmemb := by omega
    dsimp only at read kept taken
    rw [Nat.sub_zero, amount] at taken
    rw [call, fread, if_neg count]
    simp only [cursor, product, stop, start, table]
    rw [exceptOk read]
    refine ⟨z', ?_, kept.1, ?_, ?_⟩
    · simp only [Nat.zero_add, PlainFile.call, total, taken]
      rfl
    · rw [kept.2, PlainFile.call, total]
    · rw [← length]
      exact PlainFile.callInside (length ▸ inside) (.fread size nmemb ptr)

theorem callsRefine (serves : Serves files data) {z : ShadowZip} {pos : Nat} (there : At data z pos) {cs : List Call}
    (allowed : AllowedRun (virtualBytes files data) pos cs) :
    ∃ z', calls files z cs = .ok ((PlainFile.calls (virtualBytes files data) pos cs).1, z') ∧
      At data z' (PlainFile.calls (virtualBytes files data) pos cs).2 := by
  induction cs generalizing z pos with
  | nil => exact ⟨z, rfl, there⟩
  | cons c cs ih =>
    obtain ⟨next, step, here⟩ := callRefines serves there c allowed.1
    obtain ⟨last, rest, arrived⟩ := ih here allowed.2
    refine ⟨last, ?_, arrived⟩
    rw [calls, exceptOk step]
    dsimp only
    rw [exceptOk rest]
    rfl

theorem shadowRefinesCursor (serves : Serves files data) (garbage : Int) {cs : List Call}
    (allowed : AllowedRun (virtualBytes files data) 0 cs) :
    (virtualBytes files data).length = data.endOfFile ∧
    ∃ file opened z, fopen files (shadowZip data garbage) = .ok (file, opened) ∧
      calls files opened cs = .ok ((PlainFile.calls (virtualBytes files data) 0 cs).1, z) ∧
      z.pos = (PlainFile.calls (virtualBytes files data) 0 cs).2 ∧ 0 ≤ z.pos ∧ z.pos ≤ data.endOfFile := by
  obtain ⟨file, opened, ok, start⟩ := fopenAt serves garbage
  obtain ⟨z, run, there⟩ := callsRefine serves start allowed
  have cursor := there.cursor
  have inside := there.inside
  exact ⟨virtualLength serves, file, opened, z, ok, run, cursor, by omega, by omega⟩

end

/- Two files, and an empty partition between the two that show them. -/
def sampleTable : ShadowZipGlobalData where
  patchPartitions := [⟨0, 2, 0, 1, 3⟩, ⟨2, 2, 1, 5, 5⟩, ⟨2, 5, 1, 0, 3⟩]
  allFiles := [[97], [98]]
  endOfFile := 5

def sampleFiles (path : Bytes) : Option Bytes :=
  if path = [97] then some [1, 2, 3] else if path = [98] then some [4, 5, 6, 7, 8] else none

def sampleCalls : List Call :=
  [.fread 1 4 (fun _ => 0), .fseek (-2) 1, .ftell, .fseek 1 2, .fread 4 9 (fun _ => 0), .rewind]

theorem sampleServes : Serves sampleFiles sampleTable := by
  refine ⟨.cons rfl ⟨by decide, rfl⟩ (.cons rfl ⟨by decide, rfl⟩ (.cons rfl ⟨by decide, rfl⟩ (.nil _))), by decide,
    by decide, ?_⟩
  intro info mem
  simp only [sampleTable, List.mem_cons, List.not_mem_nil, or_false] at mem
  rcases mem with rfl | rfl | rfl <;> exact ⟨by decide, by decide, by decide, by unfold Piece.Held; decide, by decide⟩

def sampleOpened (pos : Int) : ShadowZip := ⟨sampleTable, pos, [none, none], [], []⟩

theorem sampleCached (pos : Int) : Cached sampleTable (sampleOpened pos) := by
  refine ⟨rfl, rfl, fun i fp mem => ?_⟩
  have bad := List.mem_of_getElem? mem
  simp [sampleOpened] at bad

theorem sampleStream : (virtualBytes sampleFiles sampleTable).length = 5 ∧ ∃ file opened z,
    fopen sampleFiles (shadowZip sampleTable 7) = .ok (file, opened) ∧
    calls sampleFiles opened sampleCalls = .ok ((PlainFile.calls [2, 3, 4, 5, 6] 0 sampleCalls).1, z) ∧ z.pos = 0 ∧
    0 ≤ z.pos ∧ z.pos ≤ 5 := by
  have allowed : AllowedRun (virtualBytes sampleFiles sampleTable) 0 sampleCalls :=
    ⟨⟨by decide, by decide⟩, ⟨by decide, by decide⟩, trivial, ⟨by decide, by decide⟩, ⟨by decide, by decide⟩, trivial,
      trivial⟩
  exact shadowRefinesCursor sampleServes 7 allowed

end Bootstrap.ShadowStream
