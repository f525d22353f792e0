import Bootstrap.ShadowZipInit
import Bootstrap.Tiling
import Mathlib.Data.List.Infix

/-! What one call of add_entry_to_partition can do to the partition table, and the
agreement of the pre_* variables with the table that its merge test relies on. -/
namespace Bootstrap.ShadowZip
open CInt ByteLayout Zip ParseApk SerialUtils Tiling

def piece (p : FilePartitionInfo) : Piece Nat := ⟨p.shadowStart, p.shadowStop, p.fileIndex, p.startInFile, p.stopInFile⟩

def pieces (ps : List FilePartitionInfo) : List (Piece Nat) := ps.map piece

def dataStart (e : ZipEntry) : Nat :=
  e.mCDE.mLocalHeaderRelOffset + LocalFileHeader.kLFHLen + e.mLFH.mFileNameLength + e.mLFH.mExtraFieldLength
def dataLength (e : ZipEntry) : Nat := e.mCDE.mCompressedSize + if e.hasDD then 16 else 0
def dataStop (e : ZipEntry) : Nat := dataStart e + dataLength e
def entrySize (e : ZipEntry) : Nat := dataStop e - e.mCDE.mLocalHeaderRelOffset

def padding (e : ZipEntry) (place : Nat) : Nat :=
  if e.isCompressed then 0
  else (alignment - (place + LocalFileHeader.kLFHLen + e.mLFH.mFileNameLength + e.mLFH.mExtraFieldLength) % alignment)
    % alignment

def padded (e : ZipEntry) (place : Nat) : ZipEntry :=
  match e.addPadding (padding e place) with
  | .ok e => e
  | .error _ => e

theorem paddingBound (e : ZipEntry) (place : Nat) : padding e place ≤ 3 := by
  unfold padding alignment
  split <;> omega

theorem paddedNone {e : ZipEntry} {place : Nat} (none : padding e place = 0) : padded e place = e := by
  rw [padded, none]
  rfl

theorem addPaddingSome (e : ZipEntry) {n : Nat} (some : n ≠ 0) : ∃ e', e.addPadding n = .ok e' := by
  unfold ZipEntry.addPadding
  rw [if_neg some]
  dsimp only
  split <;> exact ⟨_, rfl⟩

theorem addPaddingOk {e : ZipEntry} {place : Nat} (some : padding e place ≠ 0) :
    e.addPadding (padding e place) = .ok (padded e place) := by
  obtain ⟨e', h⟩ := addPaddingSome e some
  rw [padded, h]

def extraBytes (h : LocalFileHeader) : Bytes := h.mExtraField.getD []

theorem extraCounted {h : LocalFileHeader} (counted : Counted h.mExtraFieldLength h.mExtraField) :
    (extraBytes h).length = h.mExtraFieldLength := by
  unfold extraBytes
  cases field : h.mExtraField with
  | none =>
    rw [field] at counted
    exact counted.symm
  | some raw =>
    rw [field] at counted
    exact counted.2

theorem addPaddingHeader {e e' : ZipEntry} (counted : Counted e.mLFH.mExtraFieldLength e.mLFH.mExtraField) {n : Nat}
    (h : e.addPadding n = .ok e') : e'.mLFH = { e.mLFH with
      mExtraField := some (extraBytes e.mLFH ++ List.replicate n 0)
      mExtraFieldLength := u16 (e.mLFH.mExtraFieldLength + n : Nat) } := by
  have length := extraCounted counted
  unfold ZipEntry.addPadding at h
  dsimp only at h
  split at h
  · cases h
  split at h
  · have same := Except.ok.inj h
    rw [← same, extraBytes, List.take_of_length_le (by rw [← length]; exact Nat.le_refl _)]
  · rename_i short
    have same := Except.ok.inj h
    have zero : e.mLFH.mExtraFieldLength = 0 := by omega
    have empty : extraBytes e.mLFH = [] := List.length_eq_zero_iff.mp (length.trans zero)
    rw [← same, empty, zero, Nat.zero_add, List.nil_append]

theorem addPaddingLength {e e' : ZipEntry} (valid : e.mLFH.Valid) {n : Nat} (h : e.addPadding n = .ok e') :
    e'.mLFH.write.length =
      LocalFileHeader.kLFHLen + e.mLFH.mFileNameLength + u16 (e.mLFH.mExtraFieldLength + n : Nat) := by
  have header := addPaddingHeader valid.mExtraField h
  have length := extraCounted valid.mExtraField
  have narrow := u16Nat (e.mLFH.mExtraFieldLength + n)
  have enough : u16 (e.mLFH.mExtraFieldLength + n : Nat) ≤ (extraBytes e.mLFH ++ List.replicate n 0).length := by
    rw [List.length_append, List.length_replicate, length, narrow]
    exact Nat.mod_le _ _
  rw [LocalFileHeader.writeLength] <;> rw [header]
  · rfl
  · exact valid.mFileName
  · dsimp only
    rw [writeCounted]
    split
    · rename_i zero
      rw [zero]
      rfl
    · rw [Option.getD_some, List.length_take, Nat.min_eq_left enough]

theorem exactOffsets {e : ZipEntry} (small : dataStop e < 2 ^ 63) :
    e.getEntryBegin = e.mCDE.mLocalHeaderRelOffset ∧ e.getFileOffset = dataStart e ∧ e.getEntryEnd = dataStop e := by
  have start : e.getFileOffset = dataStart e := by
    unfold ZipEntry.getFileOffset
    unfold dataStop at small
    exact i64Exact (by omega) (by unfold dataStart at small; omega)
  refine ⟨?_, start, ?_⟩
  · unfold ZipEntry.getEntryBegin
    unfold dataStop dataStart at small
    exact i64Exact (by omega) (by omega)
  · unfold ZipEntry.getEntryEnd
    rw [start]
    unfold dataStop dataLength at small ⊢
    split
    · rename_i dd
      simp only [dd, if_true] at small
      rw [i64Exact (by omega) (by omega)]
      omega
    · rename_i dd
      simp only [if_neg dd] at small
      rw [i64Exact (by omega) (by omega)]
      omega

inductive Way (e : ZipEntry) (b : Build) (amount : Nat) : ZipEntry → Build → Prop where
  | kept {b' : Build} (none : amount = 0) (header : b'.header = b.header) (p : FilePartitionInfo)
      (table : b'.patchPartitions = b.patchPartitions.dropLast ++ [p] ∨ b'.patchPartitions = b.patchPartitions ++ [p]) :
      Way e b amount e b'
  | padded {e' : ZipEntry} {b' : Build} (some : amount ≠ 0) (ok : e.addPadding amount = .ok e')
      (header : b'.header = b.header ++ e'.mLFH.write) (p q : FilePartitionInfo)
      (table : b'.patchPartitions = b.patchPartitions ++ [p, q]) (file : p.fileIndex = 1)
      (start : p.startInFile = u64 (i32 b.header.length)) (stop : p.stopInFile = u64 (i32 b'.header.length)) :
      Way e b amount e' b'

theorem addEntryWay {e e' : ZipEntry} {b b' : Build} (h : addEntryToPartition e b = .ok (e', b')) :
    ∃ filename, e.getFileName = .ok filename ∧ Way e b (entryPadding e filename b.preShadowStop) e' b' := by
  obtain ⟨filename, named, h⟩ := exceptBind h
  refine ⟨filename, named, ?_⟩
  dsimp only at h
  split at h
  · rename_i merge
    split at h
    · cases h
    · obtain ⟨rfl, rfl⟩ := Prod.mk.inj (Except.ok.inj h)
      exact .kept merge.2.2 rfl _ (.inl rfl)
  · split at h
    · rename_i some
      split at h
      · cases h
      · rename_i padded ok
        obtain ⟨rfl, rfl⟩ := Prod.mk.inj (Except.ok.inj h)
        refine .padded some ok rfl _ _ rfl ?_ ?_ ?_ <;> dsimp only
    · rename_i none
      obtain ⟨rfl, rfl⟩ := Prod.mk.inj (Except.ok.inj h)
      exact .kept (Decidable.not_not.mp none) rfl _ (.inr rfl)

/-- The pre_* variables describe the last partition, and the table tiles what is built so far. -/
structure Ready (b : Build) : Prop where
  tiles : Tiles 0 (pieces b.patchPartitions) b.preShadowStop
  back : (b.patchPartitions = [] ∧ b.preFileIndex = -1) ∨
    ∃ ps p, b.patchPartitions = ps ++ [p] ∧ (p.fileIndex : Int) = b.preFileIndex ∧ p.stopInFile = b.preFileStop

theorem startReady : Ready startBuild := ⟨.nil 0, .inl ⟨rfl, rfl⟩⟩

inductive Added (i : Nat) (e : ZipEntry) (b : Build) : Build → Prop where
  | merged (ps : List FilePartitionInfo) (p : FilePartitionInfo) (table : b.patchPartitions = ps ++ [p])
      (file : p.fileIndex = i) (adjacent : p.stopInFile = e.mCDE.mLocalHeaderRelOffset)
      (aligned : padding e b.preShadowStop = 0) :
      Added i e b ⟨i, dataStop e, b.preShadowStop + entrySize e,
        ps ++ [{ p with shadowStop := p.shadowStop + entrySize e, stopInFile := p.stopInFile + entrySize e }], b.header⟩
  | moved (unaligned : padding e b.preShadowStop ≠ 0) (header : Bytes)
      (written : header = (padded e b.preShadowStop).mLFH.write) :
      Added i e b ⟨i, dataStop e, b.preShadowStop + header.length + dataLength e,
        b.patchPartitions ++
          [⟨b.preShadowStop, b.preShadowStop + header.length, 1, b.header.length, b.header.length + header.length⟩,
            ⟨b.preShadowStop + header.length, b.preShadowStop + header.length + dataLength e, i, dataStart e,
              dataStop e⟩], b.header ++ header⟩
  | fresh (aligned : padding e b.preShadowStop = 0) :
      Added i e b ⟨i, dataStop e, b.preShadowStop + entrySize e,
        b.patchPartitions ++ [⟨b.preShadowStop, b.preShadowStop + entrySize e, i, e.mCDE.mLocalHeaderRelOffset,
          dataStop e⟩], b.header⟩

theorem exactPadding {e : ZipEntry} {place : Nat} (small : dataStop e < 2 ^ 63) (low : place < 2 ^ 62)
    {filename : Bytes} (file : isDirectory filename = false) : entryPadding e filename place = padding e place := by
  have fits : place + LocalFileHeader.kLFHLen + e.mLFH.mFileNameLength + e.mLFH.mExtraFieldLength < 2 ^ 64 := by
    unfold dataStop dataStart at small
    omega
  rw [entryPadding, u64Exact fits, padding, file]
  cases e.isCompressed <;> rfl

theorem Ready.backShown {b : Build} (ready : Ready b) {ps : List FilePartitionInfo} {p : FilePartitionInfo}
    (table : b.patchPartitions = ps ++ [p]) : p.shadowStop = b.preShadowStop := by
  have tiles := ready.tiles
  rw [table, pieces, List.map_append] at tiles
  obtain ⟨_, _, one⟩ := tilesSplit tiles
  exact (tilesOne one).2

theorem u64Sum {place n : Nat} (fits : place + n < 2 ^ 64) : u64 ((place : Int) + (n : Int)) = place + n :=
  u64Exact fits

theorem headerOffsets {before after size : Nat} (place : Nat) (grown : after = before + size) (small : after < 2 ^ 31)
    (fits : place + size < 2 ^ 64) :
    u64 (i32 before) = before ∧ u64 (i32 after) = before + size ∧
      u64 ((place : Int) + i32 after - i32 before) = place + size ∧
      u64 ((place : Int) + i32 (i32 after - i32 before)) = place + size := by
  subst grown
  have start : i32 (before : Int) = before := i32Exact (by omega) (by omega)
  have stop : i32 ((before + size : Nat) : Int) = (before + size : Nat) := i32Exact (by omega) (by omega)
  have width : ((before + size : Nat) : Int) - before = (size : Nat) := by omega
  have shown : i32 (size : Int) = size := i32Exact (by omega) (by omega)
  have sum : (place : Int) + ((before + size : Nat) : Int) - before = (place + size : Nat) := by omega
  rw [start, stop, width, shown, sum]
  exact ⟨u64Exact (by omega), u64Exact (by omega), u64Exact fits, u64Sum fits⟩

theorem dataOffsets (e : ZipEntry) {place : Nat} (fits : place + dataLength e < 2 ^ 64) :
    u64 ((place : Int) + dataStop e - dataStart e) = place + dataLength e ∧
      u64 ((place : Int) + (dataStop e - dataStart e)) = place + dataLength e := by
  have sum : (place : Int) + dataStop e - dataStart e = (place + dataLength e : Nat) := by unfold dataStop; omega
  have regrouped : (place : Int) + (dataStop e - dataStart e) = (place + dataLength e : Nat) := by
    unfold dataStop
    omega
  rw [sum, regrouped]
  exact ⟨u64Exact fits, u64Exact fits⟩

theorem addEntryCases {i : Nat} {e e' : ZipEntry} {b b' : Build} (ready : Ready b) (file : e.mUserData1 = i)
    (small : dataStop e < 2 ^ 63) (size : entrySize e < 2 ^ 31) (place : b.preShadowStop < 2 ^ 62)
    (name : ∃ filename, e.getFileName = .ok filename ∧ isDirectory filename = false)
    (h : addEntryToPartition e b = .ok (e', b')) (header : b'.header.length < 2 ^ 31) :
    e' = padded e b.preShadowStop ∧ Added i e b b' := by
  obtain ⟨filename, named, isFile⟩ := name
  have least : e.mCDE.mLocalHeaderRelOffset ≤ dataStart e := by unfold dataStart; omega
  have between : dataStart e ≤ dataStop e := by unfold dataStop; omega
  have beginFits : e.mCDE.mLocalHeaderRelOffset < 2 ^ 64 := by omega
  have startFits : dataStart e < 2 ^ 64 := by omega
  have stopFits : dataStop e < 2 ^ 64 := by omega
  have nextFits : b.preShadowStop + entrySize e < 2 ^ 64 := by omega
  have sum : e.mCDE.mLocalHeaderRelOffset + entrySize e = dataStop e := by unfold entrySize; omega
  have span : i32 ((dataStop e : Int) - (e.mCDE.mLocalHeaderRelOffset : Int)) = (entrySize e : Nat) := by
    have difference : (dataStop e : Int) - (e.mCDE.mLocalHeaderRelOffset : Int) = (entrySize e : Nat) := by omega
    rw [difference]
    exact i32Exact (by omega) (by omega)
  obtain ⟨begins, starts, ends⟩ := exactOffsets small
  have fileStart : u64 e.getEntryBegin = e.mCDE.mLocalHeaderRelOffset := begins ▸ u64Exact beginFits
  have fileStop : u64 e.getEntryEnd = dataStop e := ends ▸ u64Exact stopFits
  have rawStart : u64 e.getFileOffset = dataStart e := starts ▸ u64Exact startFits
  have advance : u64 ((b.preShadowStop : Int) + (entrySize e : Nat)) = b.preShadowStop + entrySize e :=
    u64Exact nextFits
  rw [addEntryToPartition, exceptOk named] at h
  simp only [fileStart, fileStop, rawStart, span, file, advance, exactPadding small place isFile] at h
  -- the rewritten casts must not stay behind as atoms for omega to compare
  clear begins starts ends fileStart fileStop rawStart span advance
  by_cases merge : (i : Int) = b.preFileIndex ∧ e.mCDE.mLocalHeaderRelOffset = b.preFileStop ∧
      padding e b.preShadowStop = 0
  · rw [if_pos merge] at h
    obtain ⟨sameFile, sameStop, aligned⟩ := merge
    rcases ready.back with ⟨_, start⟩ | ⟨ps, p, table, backFile, backStop⟩
    · omega
    · have last : b.patchPartitions.getLast? = some p := by rw [table, List.getLast?_concat]
      have rest : b.patchPartitions.dropLast = ps := by rw [table, List.dropLast_concat]
      have shown : p.shadowStop = b.preShadowStop := ready.backShown table
      have stop : p.stopInFile = e.mCDE.mLocalHeaderRelOffset := by omega
      have stopFits : p.stopInFile + entrySize e < 2 ^ 64 := by omega
      have shownFits : p.shadowStop + entrySize e < 2 ^ 64 := by omega
      simp only [last, rest, u64Sum stopFits, u64Sum shownFits] at h
      cases h
      exact ⟨(paddedNone aligned).symm, .merged ps p table (by omega) stop aligned⟩
  · rw [if_neg merge] at h
    by_cases aligned : padding e b.preShadowStop = 0
    · rw [if_neg (fun other => other aligned)] at h
      cases h
      exact ⟨(paddedNone aligned).symm, .fresh aligned⟩
    · rw [if_pos aligned, addPaddingOk aligned] at h
      dsimp only at h
      have same := Except.ok.inj h
      have built := congrArg (fun q => q.2.header) same
      dsimp only at built
      rw [← built] at header
      have grown : (b.header ++ (padded e b.preShadowStop).mLFH.write).length =
          b.header.length + (padded e b.preShadowStop).mLFH.write.length := List.length_append
      have lengthFits : dataLength e < 2 ^ 63 := by unfold dataStop at small; omega
      have width : (padded e b.preShadowStop).mLFH.write.length < 2 ^ 31 := by omega
      obtain ⟨start, stop, shown, next⟩ := headerOffsets b.preShadowStop grown header (by omega)
      obtain ⟨data, after⟩ := dataOffsets e
        (show b.preShadowStop + (padded e b.preShadowStop).mLFH.write.length + dataLength e < 2 ^ 64 by omega)
      simp only [start, stop, shown, next, data, after] at same
      cases same
      exact ⟨rfl, .moved aligned _ rfl⟩

theorem spanOrdered (e : ZipEntry) : e.mCDE.mLocalHeaderRelOffset ≤ dataStop e := by
  unfold dataStop dataStart
  omega

theorem piecesSnoc (ps : List FilePartitionInfo) (p : FilePartitionInfo) : pieces (ps ++ [p]) = pieces ps ++ [piece p] := by
  simp [pieces]

theorem addedHeader {i : Nat} {e : ZipEntry} {b b' : Build} (added : Added i e b b')
    (before : b.header.length ≤ b.preShadowStop) : b'.header.length ≤ b'.preShadowStop := by
  cases added with
  | merged | fresh => exact Nat.le_trans before (Nat.le_add_right _ _)
  | moved unaligned header written =>
    simp only [List.length_append]
    omega

theorem addedReady {i : Nat} {e : ZipEntry} {b b' : Build} (ready : Ready b) (added : Added i e b b') : Ready b' := by
  have ordered := spanOrdered e
  cases added with
  | merged ps p table file adjacent aligned =>
    have tiles := ready.tiles
    rw [table, piecesSnoc] at tiles
    refine ⟨?_, .inr ⟨ps, _, rfl, by rw [file], ?_⟩⟩
    · have extended := tilesExtend tiles (entrySize e)
      dsimp only
      rw [piecesSnoc]
      exact extended
    · dsimp only
      rw [adjacent, entrySize]
      omega
  | moved unaligned header written =>
    refine ⟨?_, .inr ⟨_, _, List.append_cons _ _ _, rfl, rfl⟩⟩
    have first := tilesSnoc ready.tiles (p := piece ⟨b.preShadowStop, b.preShadowStop + header.length, 1,
      b.header.length, b.header.length + header.length⟩) rfl ⟨Nat.le_add_right _ _, by simp [piece]⟩
    have second := tilesSnoc first (p := piece ⟨b.preShadowStop + header.length,
      b.preShadowStop + header.length + dataLength e, i, dataStart e, dataStop e⟩) rfl
      ⟨Nat.le_add_right _ _, by simp [piece, dataStop]⟩
    simp only [pieces, List.map_append, List.map_cons, List.map_nil]
    rw [List.append_assoc] at second
    exact second
  | fresh aligned =>
    refine ⟨?_, .inr ⟨b.patchPartitions, _, rfl, rfl, rfl⟩⟩
    dsimp only
    rw [piecesSnoc]
    exact tilesSnoc ready.tiles (p := piece ⟨b.preShadowStop, b.preShadowStop + entrySize e, i,
      e.mCDE.mLocalHeaderRelOffset, dataStop e⟩) rfl ⟨ordered, rfl⟩

def withHeader (files : Nat → Bytes) (header : Bytes) : Nat → Bytes := Function.update files 1 header

def shown (files : Nat → Bytes) (b : Build) : Bytes := gather (withHeader files b.header) (pieces b.patchPartitions)

def AllHeld (files : Nat → Bytes) (b : Build) : Prop :=
  ∀ p ∈ pieces b.patchPartitions, p.Held (withHeader files b.header)

def image (raw : Bytes) (e : ZipEntry) (place : Nat) : Bytes :=
  (padded e place).mLFH.write ++ slice raw (dataStart e) (dataLength e)

theorem headerLength {raw : Bytes} {e : ZipEntry} (found : e.FoundIn raw) :
    e.mCDE.mLocalHeaderRelOffset + e.mLFH.write.length = dataStart e := by
  rw [LocalFileHeader.writeLength found.mLFH.mFileName (writeCountedLength found.mLFH.mExtraField)]
  simp only [LocalFileHeader.size, dataStart]
  omega

theorem rangeSplit {raw : Bytes} {e : ZipEntry} (found : e.FoundIn raw) :
    slice raw e.mCDE.mLocalHeaderRelOffset (entrySize e) = e.mLFH.write ++ slice raw (dataStart e) (dataLength e) := by
  have start := headerLength found
  obtain ⟨rest, split⟩ := found.header
  have header : slice raw e.mCDE.mLocalHeaderRelOffset e.mLFH.write.length = e.mLFH.write := by
    rw [slice, split, List.take_left]
  have join := sliceJoin raw e.mCDE.mLocalHeaderRelOffset e.mLFH.write.length (dataLength e)
  have size : e.mLFH.write.length + dataLength e = entrySize e := by unfold entrySize dataStop; omega
  rw [header, start, size] at join
  exact join.symm

theorem withHeaderOther (files : Nat → Bytes) (header : Bytes) {i : Nat} (other : i ≠ 1) :
    withHeader files header i = files i := Function.update_of_ne other _ _

theorem withHeaderOne (files : Nat → Bytes) (header : Bytes) : withHeader files header 1 = header :=
  Function.update_self 1 _ _

theorem withHeaderGrow (files : Nat → Bytes) (old new : Bytes) (i : Nat) :
    withHeader files old i <+: withHeader files (old ++ new) i := by
  by_cases one : i = 1
  · subst i
    rw [withHeaderOne, withHeaderOne]
    exact ⟨new, rfl⟩
  · rw [withHeaderOther files old one, withHeaderOther files _ one]

theorem paddedLength {e : ZipEntry} (valid : e.mLFH.Valid) (place : Nat) : (padded e place).mLFH.write.length =
    LocalFileHeader.kLFHLen + e.mLFH.mFileNameLength + u16 (e.mLFH.mExtraFieldLength + padding e place : Nat) := by
  by_cases none : padding e place = 0
  · rw [paddedNone none, none, Nat.add_zero, u16Exact valid.ranged.mExtraFieldLength,
      LocalFileHeader.writeLength valid.mFileName (writeCountedLength valid.mExtraField), LocalFileHeader.size]
  · exact addPaddingLength valid (addPaddingOk none)

theorem imageLength {raw : Bytes} {e : ZipEntry} (inside : dataStop e ≤ raw.length) (place : Nat) :
    (image raw e place).length = (padded e place).mLFH.write.length + dataLength e := by
  unfold dataStop at inside
  rw [image, List.length_append, sliceLength inside]

theorem imageAligned {raw : Bytes} {e : ZipEntry} (found : e.FoundIn raw) {place : Nat} (aligned : padding e place = 0) :
    image raw e place = slice raw e.mCDE.mLocalHeaderRelOffset (entrySize e) := by
  rw [image, paddedNone aligned, rangeSplit found]

theorem addedHeld {files : Nat → Bytes} {i : Nat} {e : ZipEntry} {b b' : Build} (added : Added i e b b') (other : i ≠ 1)
    (inside : dataStop e ≤ (files i).length) (held : AllHeld files b) : AllHeld files b' := by
  have ordered := spanOrdered e
  have own : ∀ header, withHeader files header i = files i := fun header => withHeaderOther files header other
  intro q mem
  cases added with
  | merged ps p table file adjacent aligned =>
    unfold AllHeld at held
    rw [table, piecesSnoc] at held
    dsimp only at mem ⊢
    rw [piecesSnoc] at mem
    rcases List.mem_append.mp mem with mem | mem
    · exact held q (List.mem_append_left _ mem)
    · obtain rfl := List.mem_singleton.mp mem
      simp only [Piece.Held, piece, file, own, adjacent, entrySize]
      omega
  | moved unaligned header written =>
    simp only [pieces, List.map_append, List.map_cons, List.map_nil, List.mem_append, List.mem_cons,
      List.not_mem_nil, or_false] at mem
    rcases mem with mem | rfl | rfl
    · exact heldGrow (withHeaderGrow files b.header header) (held q mem)
    · simp [Piece.Held, piece, withHeaderOne]
    · simp only [Piece.Held, piece, own]
      exact inside
  | fresh aligned =>
    dsimp only at mem ⊢
    rw [piecesSnoc] at mem
    rcases List.mem_append.mp mem with mem | mem
    · exact held q mem
    · obtain rfl := List.mem_singleton.mp mem
      simp only [Piece.Held, piece, own]
      exact inside

structure Shows (files : Nat → Bytes) (b b' : Build) (part : Bytes) : Prop where
  shown : shown files b' = shown files b ++ part
  place : b'.preShadowStop = b.preShadowStop + part.length
  held : AllHeld files b'

theorem addedShows {files : Nat → Bytes} {i : Nat} {e : ZipEntry} {b b' : Build} (ready : Ready b)
    (added : Added i e b b') (other : i ≠ 1) (found : e.FoundIn (files i)) (inside : dataStop e ≤ (files i).length)
    (held : AllHeld files b) : Shows files b b' (image (files i) e b.preShadowStop) := by
  have ordered := spanOrdered e
  have own : ∀ header, withHeader files header i = files i := fun header => withHeaderOther files header other
  have size : (slice (files i) e.mCDE.mLocalHeaderRelOffset (entrySize e)).length = entrySize e :=
    sliceLength (by unfold entrySize; omega)
  refine ⟨?_, ?_, addedHeld added other inside held⟩
  · cases added with
    | merged ps p table file adjacent aligned =>
      have even := tilesEven ready.tiles
      rw [table, piecesSnoc] at even
      have last := even (piece p) (by simp)
      have extend : gather (withHeader files b.header) (pieces ps ++ [(piece p).extend (entrySize e)]) = _ :=
        gatherExtend last (entrySize e)
      have source : withHeader files b.header (piece p).source = files i := by rw [← own b.header, ← file]; rfl
      have stop : (piece p).stop = e.mCDE.mLocalHeaderRelOffset := adjacent
      rw [source, stop] at extend
      rw [imageAligned found aligned]
      simp only [shown, table, piecesSnoc]
      exact extend
    | moved unaligned header written =>
      have kept := gatherGrow (withHeaderGrow files b.header header) (tilesEven ready.tiles) held
      have data : dataStop e - dataStart e = dataLength e := by unfold dataStop; omega
      have wrote : slice (b.header ++ header) b.header.length (b.header.length + header.length - b.header.length) =
          header := by
        rw [Nat.add_sub_cancel_left]
        simpa using sliceAt b.header header []
      simp only [shown, pieces, List.map_append, gatherAppend, List.map_cons, List.map_nil, gatherCons, gatherNil,
        List.append_nil, Piece.bytes, piece, own, withHeaderOne, wrote, data, image, ← written]
      exact congrArg (· ++ _) kept
    | fresh aligned =>
      rw [imageAligned found aligned]
      simp only [shown, piecesSnoc, gatherAppend, gatherCons, gatherNil, List.append_nil, Piece.bytes, piece, own]
      rfl
  · cases added with
    | merged ps p table file adjacent aligned =>
      rw [imageAligned found aligned, size]
    | moved unaligned header written =>
      rw [imageLength inside, ← written]
      dsimp only
      omega
    | fresh aligned =>
      rw [imageAligned found aligned, size]

end Bootstrap.ShadowZip
