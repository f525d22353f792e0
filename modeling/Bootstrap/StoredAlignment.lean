import Bootstrap.Truncation

/-! Where the data of stored files comes to stand in the virtual file, by the local header that
is found there. -/
namespace Bootstrap.ShadowZip
open CInt ByteLayout Zip ParseApk SerialUtils Tiling

section
variable (byte : Nat → Option UInt8)

def shortAt (i : Nat) : Option Nat := do
  let low ← byte i
  let high ← byte (i + 1)
  return readLE [low, high]

def headerSpan (place : Nat) : Option Nat := do
  let name ← shortAt byte (place + 0x1a)
  let extra ← shortAt byte (place + 0x1c)
  return LocalFileHeader.kLFHLen + name + extra

end

def virtualByte (disk : Disk) (res : Result) : Nat → Option UInt8 :=
  shownByte (contents disk res) (pieces res.globalData.patchPartitions)

def StoredAligned (disk : Disk) (res : Result) : Prop := ∀ e ∈ res.emitted, e.isCompressed = false →
  ∃ span ∈ headerSpan (virtualByte disk res) e.mCDE.mLocalHeaderRelOffset,
    (e.mCDE.mLocalHeaderRelOffset + span) % alignment = 0

def lastCall (disk : Disk) (r : EntryRef) : Option Emission := (planned disk).reverse.find? (fun c => c.ref = r)

/-- At its last call an entry is padded, or what its archive holds where it is said to begin is a local header that
needs no padding. -/
def SpelledAligned (disk : Disk) : Prop := ∀ r ∈ order disk, ∀ c ∈ lastCall disk r, c.entry.isCompressed = false →
  padding c.entry c.place ≠ 0 ∨
    ∃ span ∈ headerSpan (fun i => (archiveFiles disk r.1)[i]?) c.entry.mCDE.mLocalHeaderRelOffset,
      (c.place + span) % alignment = 0

instance (disk res) : Decidable (StoredAligned disk res) := by unfold StoredAligned; infer_instance
instance (disk) : Decidable (SpelledAligned disk) := by unfold SpelledAligned; infer_instance

theorem headerSpanSame {byte byte' : Nat → Option UInt8} {place place' : Nat}
    (same : ∀ i, i < 30 → byte (place + i) = byte' (place' + i)) : headerSpan byte place = headerSpan byte' place' := by
  have short : ∀ i, i + 1 < 30 → shortAt byte (place + i) = shortAt byte' (place' + i) := fun i low => by
    rw [shortAt, shortAt, same i (by omega), Nat.add_assoc, same (i + 1) low, Nat.add_assoc]
  rw [headerSpan, headerSpan, short 0x1a (by decide), short 0x1c (by decide)]

theorem shortInside {raw : Bytes} {i : Nat} (inside : i + 2 ≤ raw.length) :
    shortAt (fun i => raw[i]?) i = some (getShortLE raw i) := by
  have low : i < raw.length := by omega
  have high : i + 1 < raw.length := by omega
  have two : slice raw i 2 = [raw[i], raw[i + 1]] := by
    rw [slice, List.drop_eq_getElem_cons low, List.drop_eq_getElem_cons high]
    rfl
  simp only [shortAt, List.getElem?_eq_getElem low, List.getElem?_eq_getElem high, getShortLE, two]
  rfl

theorem spanWritten {h : LocalFileHeader} (name : h.mFileNameLength < 2 ^ 16) (extra : h.mExtraFieldLength < 2 ^ 16) :
    headerSpan (fun i => h.write[i]?) 0 = some (LocalFileHeader.kLFHLen + h.mFileNameLength + h.mExtraFieldLength) := by
  have least := writeLeast h
  have nameField : getShortLE h.write 0x1a = h.mFileNameLength :=
    shortField 9 rfl (by simp [LocalFileHeader.fields, widths]) name _
  have extraField : getShortLE h.write 0x1c = h.mExtraFieldLength :=
    shortField 10 rfl (by simp [LocalFileHeader.fields, widths]) extra _
  rw [headerSpan, Nat.zero_add, Nat.zero_add, shortInside (by omega), shortInside (by omega), nameField, extraField]
  rfl

theorem spanFound {raw : Bytes} {e : ZipEntry} (found : e.FoundIn raw) :
    headerSpan (fun i => raw[i]?) e.mCDE.mLocalHeaderRelOffset =
      some (LocalFileHeader.kLFHLen + e.mLFH.mFileNameLength + e.mLFH.mExtraFieldLength) := by
  have least := writeLeast e.mLFH
  obtain ⟨rest, split⟩ := found.header
  rw [← spanWritten found.mLFH.ranged.mFileNameLength found.mLFH.ranged.mExtraFieldLength]
  refine headerSpanSame fun i low => ?_
  rw [← List.getElem?_drop, split, List.getElem?_append_left (by omega), Nat.zero_add]

theorem alignedSpan {e : ZipEntry} {place : Nat} (stored : e.isCompressed = false) (aligned : padding e place = 0) :
    (place + (LocalFileHeader.kLFHLen + e.mLFH.mFileNameLength + e.mLFH.mExtraFieldLength)) % alignment = 0 := by
  rw [padding, stored, if_neg (by decide)] at aligned
  unfold alignment at aligned ⊢
  omega

theorem paddedSpan {e : ZipEntry} {place : Nat} (stored : e.isCompressed = false) :
    (place + (LocalFileHeader.kLFHLen + e.mLFH.mFileNameLength +
      u16 (e.mLFH.mExtraFieldLength + padding e place : Nat))) % alignment = 0 := by
  rw [u16Nat, padding, stored, if_neg (by decide)]
  unfold alignment
  omega

theorem paddedFields {e : ZipEntry} {place : Nat} (some : padding e place ≠ 0) :
    (padded e place).mLFH.mFileNameLength = e.mLFH.mFileNameLength ∧
      (padded e place).mLFH.mExtraFieldLength = u16 (e.mLFH.mExtraFieldLength + padding e place : Nat) := by
  obtain ⟨_, fields⟩ := addPaddingFields (addPaddingOk some)
  rw [fields]
  exact ⟨rfl, rfl⟩

theorem noPadding {e e' : ZipEntry} {b b' : Build} (h : addEntryToPartition e b = .ok (e', b'))
    (aligned : (b.preShadowStop + LocalFileHeader.kLFHLen + e.mLFH.mFileNameLength + e.mLFH.mExtraFieldLength) %
      alignment = 0) : e' = e ∧ b'.header = b.header := by
  obtain ⟨filename, _, way⟩ := addEntryWay h
  have none : entryPadding e filename b.preShadowStop = 0 := by
    unfold entryPadding
    split
    · unfold alignment at aligned ⊢
      unfold u64
      dsimp only
      omega
    · rfl
  cases way with
  | kept _ header => exact ⟨rfl, header⟩
  | padded some => exact absurd none some

def Covered (ps : List FilePartitionInfo) (place len file start : Nat) : Prop := ∃ p ∈ ps, p.fileIndex = file ∧
  p.shadowStart ≤ place ∧ place + len ≤ p.shadowStop ∧ p.startInFile + (place - p.shadowStart) = start

theorem addedKeepsCover {i place len file start : Nat} {e : ZipEntry} {b b' : Build} (added : Added i e b b')
    (covered : Covered b.patchPartitions place len file start) : Covered b'.patchPartitions place len file start := by
  obtain ⟨q, mem, own, low, high, begins⟩ := covered
  cases added with
  | merged ps p table same adjacent aligned =>
    rw [table] at mem
    rcases List.mem_append.mp mem with old | last
    · exact ⟨q, List.mem_append_left _ old, own, low, high, begins⟩
    · obtain rfl := List.mem_singleton.mp last
      refine ⟨_, List.mem_append_right _ List.mem_cons_self, own, low, ?_, begins⟩
      dsimp only
      omega
  | moved unaligned header written => exact ⟨q, List.mem_append_left _ mem, own, low, high, begins⟩
  | fresh aligned => exact ⟨q, List.mem_append_left _ mem, own, low, high, begins⟩

theorem joinsKeepCover {place len file start : Nat} {es : List ZipEntry} {b b' : Build} (run : Joins es b b')
    (covered : Covered b.patchPartitions place len file start) : Covered b'.patchPartitions place len file start := by
  induction run with
  | nil => exact covered
  | cons added rest ih => exact ih (addedKeepsCover added covered)

theorem addedCovers {i : Nat} {e : ZipEntry} {b b' : Build} (ready : Ready b) (added : Added i e b b')
    (none : padding e b.preShadowStop = 0) :
    Covered b'.patchPartitions b.preShadowStop (entrySize e) i e.mCDE.mLocalHeaderRelOffset := by
  cases added with
  | merged ps p table file adjacent aligned =>
    have known : piece p ∈ pieces b.patchPartitions := by
      rw [table, piecesSnoc]
      exact List.mem_append_right _ List.mem_cons_self
    obtain ⟨ordered, shown⟩ := tilesEven ready.tiles _ known
    have stop := ready.backShown table
    simp only [piece] at ordered shown
    refine ⟨_, List.mem_append_right _ List.mem_cons_self, file, ?_, ?_, ?_⟩ <;> dsimp only <;> omega
  | moved unaligned header written => exact absurd none unaligned
  | fresh aligned =>
    refine ⟨_, List.mem_append_right _ List.mem_cons_self, rfl, ?_, ?_, ?_⟩ <;> dsimp only <;> omega

theorem addedCoversHeader {i : Nat} {e : ZipEntry} {b b' : Build} (added : Added i e b b')
    (some : padding e b.preShadowStop ≠ 0) : b'.header = b.header ++ (padded e b.preShadowStop).mLFH.write ∧
      Covered b'.patchPartitions b.preShadowStop (padded e b.preShadowStop).mLFH.write.length 1 b.header.length := by
  cases added with
  | merged ps p table file adjacent aligned => exact absurd aligned some
  | moved unaligned header written =>
    subst written
    refine ⟨rfl, _, List.mem_append_right _ List.mem_cons_self, rfl, ?_, ?_, ?_⟩ <;> dsimp only <;> omega
  | fresh aligned => exact absurd aligned some

section
variable {patchDir sysApkFile : Bytes} {disk : Disk} {res : Result}

theorem coveredByte {total place len file start : Nat} (tiles : Tiles 0 (pieces res.globalData.patchPartitions) total)
    (covered : Covered res.globalData.patchPartitions place len file start) {i : Nat} (inside : i < len) :
    virtualByte disk res (place + i) = (contents disk res file)[start + i]? := by
  obtain ⟨p, mem, own, low, high, begins⟩ := covered
  have known : piece p ∈ pieces res.globalData.patchPartitions := List.mem_map_of_mem mem
  have there : p.startInFile + (place + i - p.shadowStart) = start + i := by omega
  rw [virtualByte, shownByteIn _ tiles known (by simp only [piece]; omega)]
  simp only [piece, own, there]

theorem callSpan (run : InitRun patchDir sysApkFile disk res) {b : Build} {total : Nat}
    (joins : Joins (plannedEntries disk) startBuild b) (table : b.patchPartitions <+: res.globalData.patchPartitions)
    (header : res.entriesHeader = b.header) (tiles : Tiles 0 (pieces res.globalData.patchPartitions) total)
    {before after : List Emission} {c : Emission} (split : planned disk = before ++ c :: after) :
    headerSpan (virtualByte disk res) c.place = if padding c.entry c.place = 0 then
        headerSpan (fun i => (archiveFiles disk c.ref.1)[i]?) c.entry.mCDE.mLocalHeaderRelOffset
      else headerSpan (fun i => (padded c.entry c.place).mLFH.write[i]?) 0 := by
  have mem : c ∈ planned disk := split ▸ List.mem_append_right _ List.mem_cons_self
  obtain ⟨known, own, _⟩ := plannedFrom run mem
  have place := planPlace split
  rw [plannedEntries, split, List.map_append, List.map_cons] at joins
  obtain ⟨b₁, first, second⟩ := joinsSplit joins
  have ready := joinsReady first startReady
  have there : b₁.preShadowStop = c.place := (joinsPlace first).trans place.symm
  cases second with
  | @cons _ _ _ b₂ _ added rest =>
    have kept : ∀ {len file start}, Covered b₂.patchPartitions c.place len file start →
        Covered res.globalData.patchPartitions c.place len file start := by
      intro len file start covered
      obtain ⟨p, listed, facts⟩ := joinsKeepCover rest covered
      exact ⟨p, table.subset listed, facts⟩
    by_cases none : padding c.entry c.place = 0
    · rw [if_pos none]
      have covered := addedCovers ready added (there ▸ none)
      rw [there, own] at covered
      have least : 30 ≤ entrySize c.entry := by
        have whole := emittedLeast c.entry c.place
        rwa [emittedLength, if_pos none] at whole
      refine headerSpanSame fun i low => ?_
      rw [coveredByte tiles (kept covered) (by omega), archiveContents res known]
    · rw [if_neg none]
      obtain ⟨written, covered⟩ := addedCoversHeader added (there ▸ none)
      rw [there] at written covered
      have least := writeLeast (padded c.entry c.place).mLFH
      obtain ⟨tail, grown⟩ := (joinsGrows rest).1
      refine headerSpanSame fun i low => ?_
      have one : contents disk res 1 = b₁.header ++ ((padded c.entry c.place).mLFH.write ++ tail) := by
        show res.entriesHeader = _
        rw [header, ← grown, written, List.append_assoc]
      rw [coveredByte tiles (kept covered) (by omega), one, List.getElem?_append_right (by omega),
        Nat.add_sub_cancel_left, List.getElem?_append_left (by omega), Nat.zero_add]

theorem lastCallIs {r : EntryRef} {before after : List Emission} {c : Emission}
    (split : planned disk = before ++ c :: after) (own : c.ref = r) (later : ∀ d ∈ after, d.ref ≠ r) :
    lastCall disk r = some c := by
  have behind : after.reverse.find? (fun d => decide (d.ref = r)) = none :=
    List.find?_eq_none.mpr fun d mem => by simpa using later d (List.mem_reverse.mp mem)
  rw [lastCall, split, List.reverse_append, List.reverse_cons, List.append_assoc, List.find?_append, behind]
  simp [own]

theorem callAligned (run : InitRun patchDir sysApkFile disk res) {c : Emission} (mem : c ∈ planned disk)
    (stored : c.entry.isCompressed = false)
    (shown : headerSpan (virtualByte disk res) c.place = if padding c.entry c.place = 0 then
        headerSpan (fun i => (archiveFiles disk c.ref.1)[i]?) c.entry.mCDE.mLocalHeaderRelOffset
      else headerSpan (fun i => (padded c.entry c.place).mLFH.write[i]?) 0) :
    (∃ span ∈ headerSpan (virtualByte disk res) c.place, (c.place + span) % alignment = 0) ↔
      padding c.entry c.place ≠ 0 ∨
        ∃ span ∈ headerSpan (fun i => (archiveFiles disk c.ref.1)[i]?) c.entry.mCDE.mLocalHeaderRelOffset,
          (c.place + span) % alignment = 0 := by
  by_cases none : padding c.entry c.place = 0
  · rw [shown, if_pos none]
    exact ⟨.inr, fun spelled => spelled.resolve_left (fun some => some none)⟩
  · obtain ⟨_, _, _, fileEntry, _, _, extra, length, header⟩ := plannedFrom run mem
    obtain ⟨nameField, extraField⟩ := paddedFields none
    have name : (padded c.entry c.place).mLFH.mFileNameLength < 2 ^ 16 := by
      rw [nameField, header]
      exact fileEntry.found.mLFH.ranged.mFileNameLength
    have narrow : (padded c.entry c.place).mLFH.mExtraFieldLength < 2 ^ 16 := by
      rw [extraField]
      exact u16Bound _
    rw [shown, if_neg none, spanWritten name narrow, nameField, extraField]
    exact ⟨fun _ => .inl none, fun _ => ⟨_, rfl, paddedSpan stored⟩⟩

theorem planFresh {rs : List EntryRef} (once : rs.Nodup) {heap : Heap} {place : Nat} {c : Emission}
    (mem : c ∈ plan rs heap place) : c.entry = heap c.ref := by
  induction rs generalizing heap place with
  | nil => simp [plan] at mem
  | cons r rs ih =>
    obtain ⟨absent, once⟩ := List.nodup_cons.mp once
    rcases List.mem_cons.mp mem with rfl | mem
    · rfl
    · have known := (planSource mem).1
      rw [ih once mem, Function.update_of_ne (fun same : c.ref = r => absent (same ▸ known))]

theorem onceSpelled (run : InitRun patchDir sysApkFile disk res) (once : (order disk).Nodup) : SpelledAligned disk := by
  intro r _ c last stored
  have mem : c ∈ planned disk := List.mem_reverse.mp (List.mem_of_find?_eq_some last)
  have own : c.ref = r := by simpa using List.find?_some last
  obtain ⟨_, _, _, fileEntry, _⟩ := plannedFrom run mem
  have fresh := planFresh once mem
  have span := spanFound fileEntry.found
  by_cases none : padding c.entry c.place = 0
  · rw [own] at fresh span
    refine .inr ⟨_, ?_, alignedSpan stored none⟩
    rw [fresh]
    exact span
  · exact .inl none

theorem storedAlignedExactly (accepted : init patchDir sysApkFile disk = .ok res)
    (sizes : ∀ e ∈ plannedEntries disk, entrySize e < 2 ^ 31) (total : placeAfter 0 (plannedEntries disk) < 2 ^ 31) :
    (StoredAligned disk res ↔ SpelledAligned disk) ∧ ((order disk).Nodup → StoredAligned disk res) ∧
      ∀ e b e' b', addEntryToPartition e b = .ok (e', b') →
        (b.preShadowStop + LocalFileHeader.kLFHLen + e.mLFH.mFileNameLength + e.mLFH.mExtraFieldLength) %
          alignment = 0 → e' = e ∧ b'.header = b.header := by
  have run := initRun accepted
  have header := headerAfterLe 0 (plannedEntries disk)
  have sized : Sized disk := ⟨fun c mem => sizes _ (List.mem_map_of_mem mem), by omega, by omega⟩
  obtain ⟨s, same, emitted, _, joins, follows, finished⟩ := initFinished run sized (by omega)
  have tiles := finishedTiles finished (joinsReady joins startReady).tiles
  have heap : res.heap = s.heap := by rw [same]; rfl
  have listed : res.allEntries = order disk := by rw [same, ← emitted]; rfl
  have each : ∀ r ∈ order disk, ∃ c, lastCall disk r = some c ∧ c.ref = r ∧
      (res.heap r).mCDE.mLocalHeaderRelOffset = c.place ∧ (res.heap r).isCompressed = c.entry.isCompressed ∧
      (c.entry.isCompressed = false → ((∃ span ∈ headerSpan (virtualByte disk res) c.place,
        (c.place + span) % alignment = 0) ↔ padding c.entry c.place ≠ 0 ∨
          ∃ span ∈ headerSpan (fun i => (archiveFiles disk c.ref.1)[i]?) c.entry.mCDE.mLocalHeaderRelOffset,
            (c.place + span) % alignment = 0)) := by
    intro r mem
    obtain ⟨before, c, after, split, own, later, left⟩ := heapAfterLast mem (entries disk) 0
    have known : c ∈ planned disk := by
      rw [planned, split]
      exact List.mem_append_right _ List.mem_cons_self
    have shown := callSpan run joins (finished.table ▸ List.prefix_append _ _) finished.header tiles split
    have record := (follows.same r).mCDE
    rw [left] at record
    refine ⟨c, lastCallIs split own later, own, ?_, ?_, fun stored => callAligned run known stored shown⟩
    · rw [heap, record]
      rfl
    · rw [heap, ZipEntry.isCompressed, record]
      rfl
  have exactly : StoredAligned disk res ↔ SpelledAligned disk := by
    constructor
    · intro aligned r mem c last stored
      obtain ⟨d, found, own, offset, method, iff⟩ := each r mem
      obtain rfl := Option.some.inj (found.symm.trans last)
      have emit : res.heap r ∈ res.emitted := by
        rw [Result.emitted, listed]
        exact List.mem_map_of_mem mem
      have here := aligned _ emit (method.trans stored)
      rw [offset] at here
      rw [← own]
      exact (iff stored).mp here
    · intro spelled e mem stored
      obtain ⟨r, known, rfl⟩ := List.mem_map.mp mem
      rw [listed] at known
      obtain ⟨c, found, own, offset, method, iff⟩ := each r known
      have there := spelled r known c found (method ▸ stored)
      rw [← own] at there
      rw [offset]
      exact (iff (method ▸ stored)).mpr there
  exact ⟨exactly, fun once => exactly.mpr (onceSpelled run once), fun e b e' b' h aligned => noPadding h aligned⟩

end

theorem sampleAligned : StoredAligned sampleDisk sampleResult ∧
    ∃ e' b', addEntryToPartition sampleEntry ⟨0, 0, 1, [], []⟩ = .ok (e', b') ∧ e' = sampleEntry ∧ b'.header = [] := by
  obtain ⟨_, once, kept⟩ := storedAlignedExactly sampleAccepted (by decide +kernel) (by decide +kernel)
  have called : addEntryToPartition sampleEntry ⟨0, 0, 1, [], []⟩ =
      .ok (sampleEntry, ⟨2, 32, 33, [⟨1, 33, 2, 0, 32⟩], []⟩) := by decide +kernel
  exact ⟨once (by decide +kernel), _, _, called, kept sampleEntry _ _ _ called (by decide)⟩

/- A name that stands twice in the base APK. The patch entry is aligned where its second emission puts it, but is shown
there from the place of the first one, in the middle of the archive. -/
def misalignedDisk : Disk where
  apk := some (archiveOf [⟨[99], List.replicate 40 6, 0⟩, ⟨[97], [1], 0⟩, ⟨[97], [2], 0⟩])
  patches := [([112], some (archiveOf [⟨[97], [9, 9, 9, 9], 0⟩]))]
  removedFiles := none
  headerOpens := true
  endOpens := true

theorem misaligned : ∃ res, init [47, 112] [47, 97] misalignedDisk = .ok res ∧
    (∀ e ∈ plannedEntries misalignedDisk, entrySize e < 2 ^ 31) ∧
    placeAfter 0 (plannedEntries misalignedDisk) < 2 ^ 31 ∧ ¬ StoredAligned misalignedDisk res :=
  ⟨resultOf [47, 112] [47, 97] misalignedDisk, acceptedResult (by decide +kernel), by decide +kernel, by decide +kernel,
    by decide +kernel⟩

end Bootstrap.ShadowZip
