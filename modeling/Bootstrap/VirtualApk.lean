import Bootstrap.VirtualFile
import Bootstrap.StoredArchive

/-! What a reader finds in the virtual APK at the offsets that its central directory names. -/
namespace Bootstrap.ShadowZip
open CInt ByteLayout Zip ParseApk SerialUtils Tiling

def extended (h : LocalFileHeader) (pad : Nat) : LocalFileHeader :=
  { h with mExtraField := some (extraBytes h ++ List.replicate pad 0), mExtraFieldLength := h.mExtraFieldLength + pad }

/-- An entry as found at an offset of the virtual file: its own local header with some padding, and its own data. -/
structure ServedAt (virtual raw : Bytes) (source served : ZipEntry) (offset pad : Nat) : Prop where
  own : source.FoundIn raw
  padding : pad ≤ 3
  record : served.mCDE = { source.mCDE with mLocalHeaderRelOffset := offset }
  header : slice virtual offset (extended source.mLFH pad).write.length = (extended source.mLFH pad).write
  data : slice virtual (offset + (extended source.mLFH pad).write.length) (dataLength source) =
    slice raw (dataStart source) (dataLength source)
  inside : dataStop source ≤ raw.length

theorem extendedWrite {e : ZipEntry} (valid : e.mLFH.Valid) (short : e.mLFH.mExtraFieldLength ≤ 65532) (place : Nat) :
    (extended e.mLFH (padding e place)).write = (padded e place).mLFH.write := by
  have bound := paddingBound e place
  by_cases none : padding e place = 0
  · have length := extraCounted valid.mExtraField
    have fields : (extended e.mLFH 0).fields = e.mLFH.fields := rfl
    have extra : writeCounted e.mLFH.mExtraFieldLength (some (extraBytes e.mLFH)) =
        writeCounted e.mLFH.mExtraFieldLength e.mLFH.mExtraField := by
      rw [writeCounted, writeCounted, Option.getD_some, extraBytes]
    rw [paddedNone none, none, LocalFileHeader.write, LocalFileHeader.write, fields]
    simp only [extended, List.replicate_zero, List.append_nil, Nat.add_zero, extra]
  · have narrow : u16 (e.mLFH.mExtraFieldLength + padding e place : Nat) = e.mLFH.mExtraFieldLength + padding e place :=
      u16Exact (by omega)
    rw [addPaddingHeader valid.mExtraField (addPaddingOk none), narrow, extended]

theorem archiveContents {disk : Disk} (res : Result) {r : EntryRef} (known : r ∈ apkRefs disk ∨ r ∈ patchRefs disk) :
    contents disk res r.1 = archiveFiles disk r.1 := by
  obtain ⟨i, j⟩ := r
  rcases known with mem | mem
  · obtain ⟨rfl, _⟩ := memRefs.mp mem
    rfl
  · obtain ⟨k, es, there, rfl, _⟩ := memRefsFrom.mp mem
    obtain ⟨inside, _⟩ := List.getElem?_eq_some_iff.mp there
    rw [patchEntries, List.length_map] at inside
    simp only [contents, archiveFiles, filesAfter, Nat.add_comm 2 k, List.getD_eq_getElem?_getD,
      List.getElem?_cons_succ]
    rw [List.getElem?_append_left (by rw [List.length_map]; exact inside)]

theorem servedAt {virtual raw before after : Bytes} {e served : ZipEntry} {place : Nat} (found : e.FoundIn raw)
    (inside : dataStop e ≤ raw.length) (short : e.mLFH.mExtraFieldLength ≤ 65532) (placed : Placed e place served)
    (split : virtual = before ++ (image raw e place ++ after)) (there : place = before.length) :
    ServedAt virtual raw e served place (padding e place) := by
  have write := extendedWrite found.mLFH short place
  have length : (slice raw (dataStart e) (dataLength e)).length = dataLength e := sliceLength inside
  refine ⟨found, paddingBound e place, placed.mCDE, ?_, ?_, inside⟩
  · rw [write, split, there, image, List.append_assoc]
    exact sliceAt _ _ _
  · have data := sliceAt (before ++ (padded e place).mLFH.write) (slice raw (dataStart e) (dataLength e)) after
    rw [length, List.length_append, ← there, List.append_assoc] at data
    rw [write, split, image, List.append_assoc, data]

theorem virtualApkContent {patchDir sysApkFile : Bytes} {disk : Disk} {res : Result}
    (accepted : init patchDir sysApkFile disk = .ok res) (bounded : Bounded disk res) (distinct : DistinctNames disk)
    (short : ∀ path ∈ archivePaths disk, ∀ e ∈ parsed path, e.mLFH.mExtraFieldLength ≤ 65532) :
    (centralDir res.emitted <+: res.patchData ∧ res.patchData <:+ virtualFile disk res) ∧
    ∀ r ∈ res.allEntries, ∃ offset pad, offset < 2 ^ 31 ∧
      ServedAt (virtualFile disk res) (contents disk res r.1) (entries disk r) (res.heap r) offset pad := by
  have run := initRun accepted
  have laid := layout run bounded distinct
  refine ⟨⟨⟨_, laid.patchData.symm⟩, ⟨_, laid.virtual.symm⟩⟩, fun r mem => ?_⟩
  rw [laid.allEntries] at mem
  have known := orderKnown run mem
  have sound := soundEntry bounded.toInside known
  have extra := shortExtra short known
  obtain ⟨place, before, after, there, start, below, virtual⟩ := standsAt laid bounded mem
  rw [archiveContents res known]
  exact ⟨place, _, below, servedAt sound.found sound.inside extra (laid.placed _ there) virtual start⟩

/- A base APK of three files; one is removed, one is replaced and one is added by the patch. -/
def sampleDisk : Disk where
  apk := some (archiveOf [⟨[97], [1, 2, 3], 0x55bc801d⟩, ⟨[98], [4, 5], 0x55df2374⟩, ⟨[99], [6], 0x3b614ab8⟩])
  patches := [([112], some (archiveOf [⟨[98], [9, 9, 9], 0x588ee170⟩, ⟨[100], [7, 7], 0x90fc119b⟩]))]
  removedFiles := some [97, 10]
  headerOpens := true
  endOpens := true

def resultOf (patchDir sysApkFile : Bytes) (disk : Disk) : Result :=
  match init patchDir sysApkFile disk with
  | .ok res => res
  | .error _ => finish [] (startLoop disk)

theorem acceptedResult {patchDir sysApkFile : Bytes} {disk : Disk}
    (accepted : (init patchDir sysApkFile disk).toOption.isSome) :
    init patchDir sysApkFile disk = .ok (resultOf patchDir sysApkFile disk) := by
  unfold resultOf
  cases h : init patchDir sysApkFile disk with
  | ok res => rfl
  | error stop => simp [h, Except.toOption] at accepted

def sampleResult : Result := resultOf [47, 112] [47, 97] sampleDisk

theorem sampleAccepted : init [47, 112] [47, 97] sampleDisk = .ok sampleResult := acceptedResult (by decide +kernel)

theorem sampleBounded : Bounded sampleDisk sampleResult :=
  ⟨⟨by decide +kernel, by decide +kernel⟩, by decide +kernel, by decide +kernel⟩

theorem sampleContent : sampleResult.allEntries = [(2, 0), (0, 2), (2, 1)] ∧
    ∀ r ∈ sampleResult.allEntries, ∃ offset pad, offset < 2 ^ 31 ∧ ServedAt (virtualFile sampleDisk sampleResult)
      (contents sampleDisk sampleResult r.1) (entries sampleDisk r) (sampleResult.heap r) offset pad :=
  ⟨by decide +kernel,
    (virtualApkContent sampleAccepted sampleBounded (by decide +kernel) (by decide +kernel)).2⟩

end Bootstrap.ShadowZip
