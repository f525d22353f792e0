import Bootstrap.InitOutcome
import Bootstrap.VirtualApk

/-! The order in which the patch archives are listed: it decides the indices of the files, the merges,
the padding and every offset, but not what a reader of the virtual APK finds. -/
namespace Bootstrap.ShadowZip
open CInt ByteLayout Zip ParseApk SerialUtils Tiling

def reachable (virtual : Bytes) (record : CentralDirEntry) : Except Stop (LocalFileHeader × Bytes) := do
  let header ← ZipEntry.seekSet virtual record.mLocalHeaderRelOffset
  let (mLFH, rest) ← LocalFileHeader.read header
  return (mLFH, rest.take (dataLength ⟨0, 0, mLFH, record⟩))

def withoutExtra (h : LocalFileHeader) : LocalFileHeader := { h with mExtraFieldLength := 0, mExtraField := none }

def withoutOffset (c : CentralDirEntry) : CentralDirEntry := { c with mLocalHeaderRelOffset := 0 }

/-- An emitted entry, but for where it stands and the padding of its extra field. -/
structure EntryView where
  name : Bytes
  record : CentralDirEntry
  header : LocalFileHeader
  extra : Bytes
  data : Bytes
  deriving DecidableEq, Repr

/- What an extra field has beyond the source's own is padding. -/
def viewOf (virtual : Bytes) (source served : ZipEntry) : Except Stop EntryView := do
  let name ← served.getFileName
  let (header, data) ← reachable virtual served.mCDE
  return ⟨name, withoutOffset served.mCDE, withoutExtra header,
    (extraBytes header).take source.mLFH.mExtraFieldLength, data⟩

def views (disk : Disk) (res : Result) : List (Except Stop EntryView) :=
  res.allEntries.map (fun r => viewOf (virtualFile disk res) (entries disk r) (res.heap r))

def sourceView (raw : Bytes) (e : ZipEntry) : EntryView :=
  ⟨fileName e, withoutOffset e.mCDE, withoutExtra e.mLFH, extraBytes e.mLFH, slice raw (dataStart e) (dataLength e)⟩

def sourceViewAt (disk : Disk) (r : EntryRef) : EntryView := sourceView (archiveFiles disk r.1) (entries disk r)

theorem paddedExtra {e : ZipEntry} (valid : e.mLFH.Valid) (short : e.mLFH.mExtraFieldLength ≤ 65532) (place : Nat) :
    (padded e place).mLFH.Valid ∧ withoutExtra (padded e place).mLFH = withoutExtra e.mLFH ∧
      (extraBytes (padded e place).mLFH).take e.mLFH.mExtraFieldLength = extraBytes e.mLFH ∧
      (padded e place).mLFH.mGPBitFlag = e.mLFH.mGPBitFlag := by
  have length := extraCounted valid.mExtraField
  by_cases none : padding e place = 0
  · rw [paddedNone none]
    exact ⟨valid, rfl, List.take_of_length_le (Nat.le_of_eq length), rfl⟩
  · have bound := paddingBound e place
    have narrow : u16 (e.mLFH.mExtraFieldLength + padding e place : Nat) = e.mLFH.mExtraFieldLength + padding e place :=
      u16Exact (by omega)
    rw [addPaddingHeader valid.mExtraField (addPaddingOk none), narrow]
    refine ⟨⟨valid.ranged.withExtra _ (by omega), valid.mFileName, ?_, ?_⟩, rfl, ?_, rfl⟩
    · dsimp only
      omega
    · rw [List.length_append, List.length_replicate, length]
    · rw [extraBytes, Option.getD_some, ← length, List.take_left]

theorem viewed {virtual raw before after : Bytes} {e served : ZipEntry} {place : Nat} (found : e.FoundIn raw)
    (inside : dataStop e ≤ raw.length) (short : e.mLFH.mExtraFieldLength ≤ 65532)
    (named : e.getFileName = .ok (fileName e)) (placed : Placed e place served) (low : place < 2 ^ 31)
    (split : virtual = before ++ (image raw e place ++ after)) (there : place = before.length) :
    viewOf virtual e served = .ok (sourceView raw e) := by
  obtain ⟨valid, fields, extra, flag⟩ := paddedExtra found.mLFH short place
  have name : served.getFileName = .ok (fileName e) := by
    rw [← named, ZipEntry.getFileName, placed.mCDE, ZipEntry.getFileName]
  have offset : served.mCDE.mLocalHeaderRelOffset = place := by rw [placed.mCDE]
  have sought : ZipEntry.seekSet virtual served.mCDE.mLocalHeaderRelOffset =
      .ok ((padded e place).mLFH.write ++ (slice raw (dataStart e) (dataLength e) ++ after)) := by
    have positive : ¬ i64 (place : Int) < 0 := by
      rw [i64Exact (by omega) (by omega)]
      omega
    rw [offset, ZipEntry.seekSet, if_neg positive, split, there, List.drop_left, image, List.append_assoc]
  have descriptor : (⟨0, 0, (padded e place).mLFH, served.mCDE⟩ : ZipEntry).hasDD = e.hasDD := by
    simp only [ZipEntry.hasDD, flag]
  have size : dataLength ⟨0, 0, (padded e place).mLFH, served.mCDE⟩ = dataLength e := by
    rw [dataLength, dataLength, descriptor, placed.mCDE]
  have length : (slice raw (dataStart e) (dataLength e)).length = dataLength e := sliceLength inside
  have data : (slice raw (dataStart e) (dataLength e) ++ after).take (dataLength e) =
      slice raw (dataStart e) (dataLength e) := List.take_left' length
  have read : reachable virtual served.mCDE = .ok ((padded e place).mLFH, slice raw (dataStart e) (dataLength e)) := by
    rw [reachable, exceptOk sought, exceptOk (LocalFileHeader.exact.roundTrip valid _)]
    dsimp only
    rw [size, data]
    rfl
  have record : withoutOffset served.mCDE = withoutOffset e.mCDE := by rw [placed.mCDE, withoutOffset, withoutOffset]
  rw [viewOf, exceptOk name, exceptOk read]
  dsimp only
  rw [record, fields, extra, sourceView]
  rfl

section
variable {disk : Disk} {patchDir sysApkFile : Bytes} {res : Result}

theorem viewsSource (run : InitRun patchDir sysApkFile disk res) (bounded : Bounded disk res)
    (distinct : DistinctNames disk)
    (short : ∀ path ∈ archivePaths disk, ∀ e ∈ parsed path, e.mLFH.mExtraFieldLength ≤ 65532) :
    views disk res = ((order disk).map (sourceViewAt disk)).map .ok := by
  have laid := layout run bounded distinct
  rw [views, laid.allEntries, List.map_map]
  refine List.map_congr_left fun r mem => ?_
  have known := orderKnown run mem
  have sound := soundEntry bounded.toInside known
  obtain ⟨filename, named, _⟩ := sound.name
  have extra := shortExtra short known
  obtain ⟨place, before, after, there, start, below, virtual⟩ := standsAt laid bounded mem
  exact viewed sound.found sound.inside extra (fileNameOk named) (laid.placed _ there) below virtual start

/-! The emitted entries: those of the base APK that are neither removed nor replaced, and all of the patches. -/

def keptApk (disk : Disk) : List EntryRef := (apkRefs disk).filter (fun r =>
  nameOf disk r ∉ removedNames disk ∧ replacement disk (nameOf disk r) = none)

theorem orderPerm (run : InitRun patchDir sysApkFile disk res) (distinct : DistinctNames disk) :
    (order disk).Perm (keptApk disk ++ patchRefs disk) := by
  have apart : ∀ r ∈ keptApk disk, r ∉ patchRefs disk := by
    intro r left right
    obtain ⟨base, _⟩ := memRefs.mp (List.mem_filter.mp left).1
    obtain ⟨k, _, _, patch, _⟩ := memRefsFrom.mp right
    omega
  have once : (keptApk disk ++ patchRefs disk).Nodup := List.nodup_append'.mpr
    ⟨(refsNodup 0 _).filter _, refsFromNodup 2 _, apart⟩
  refine (List.perm_ext_iff_of_nodup (orderOnce run distinct) once).mpr fun t => ?_
  have kept : ∀ r, r ∈ keptApk disk ↔
      r ∈ apkRefs disk ∧ nameOf disk r ∉ removedNames disk ∧ replacement disk (nameOf disk r) = none := fun r => by
    rw [keptApk, List.mem_filter, decide_eq_true_eq]
  have late : t ∈ patchOrder disk ↔ t ∈ patchRefs disk ∧ t ∉ apkOrder disk := by
    rw [patchOrder, List.mem_filter, decide_eq_true_eq]
  rw [order, List.mem_append, List.mem_append, late, kept]
  constructor
  · rintro (early | ⟨mem, _⟩)
    · obtain ⟨r, known, choice⟩ := memApkOrder.mp early
      obtain ⟨here, _, way⟩ := chosen run choice
      rcases way with patch | rfl
      · exact .inr patch
      · cases found : replacement disk (nameOf disk t) with
        | none => exact .inl ⟨known, here, rfl⟩
        | some p =>
          rw [if_neg here, found] at choice
          have own : p = t := Option.some.inj choice
          obtain ⟨mem, _⟩ := (run.replaced _ _).mp found
          exact .inr (own ▸ mem)
    · exact .inr mem
  · rintro (⟨known, here, none⟩ | mem)
    · refine .inl (memApkOrder.mpr ⟨t, known, ?_⟩)
      rw [if_neg here, none]
      rfl
    · by_cases early : t ∈ apkOrder disk
      · exact .inl early
      · exact .inr ⟨mem, early⟩

end

theorem refsMap {β : Type} {i : Nat} {es : List ZipEntry} {f : EntryRef → β} {g : ZipEntry → β}
    (same : ∀ j e, es[j]? = some e → f (i, j) = g e) : (refs i es).map f = es.map g := by
  rw [refs, List.map_map]
  refine List.ext_getElem? fun j => ?_
  rw [List.getElem?_map, List.getElem?_map]
  by_cases inside : j < es.length
  · have here := List.getElem?_eq_getElem inside
    rw [List.getElem?_range inside, here, Option.map_some, Option.map_some]
    exact congrArg some (same j _ here)
  · rw [List.getElem?_eq_none (by rw [List.length_range]; omega), List.getElem?_eq_none (by omega)]
    rfl

theorem refsFromMap {α β : Type} {i : Nat} {ps : List α} {archive : α → List ZipEntry} {f : EntryRef → β}
    {g : α → ZipEntry → β}
    (same : ∀ k p, ps[k]? = some p → ∀ j e, (archive p)[j]? = some e → f (i + k, j) = g p e) :
    (refsFrom i (ps.map archive)).map f = ps.flatMap (fun p => (archive p).map (g p)) := by
  induction ps generalizing i with
  | nil => rfl
  | cons p ps ih =>
    have rest := ih (i := i + 1) fun k q here j e mem => by
      have later := same (k + 1) q (by simpa using here) j e mem
      rwa [Nat.add_assoc, Nat.add_comm 1]
    have head : (refs i (archive p)).map f = (archive p).map (g p) := refsMap (same 0 p rfl)
    rw [List.map_cons, refsFrom, List.map_append, List.flatMap_cons, rest, head]

theorem patchViews (disk : Disk) : (patchRefs disk).map (sourceViewAt disk) =
    disk.patches.flatMap (fun p => (parsed p.2).map (sourceView (p.2.getD []))) := by
  refine refsFromMap fun k p here j e mem => ?_
  have archive : (patchEntries disk)[k]? = some (parsed p.2) := by
    rw [patchEntries, List.getElem?_map, here, Option.map_some]
  have file : archiveFiles disk (2 + k) = p.2.getD [] := by
    simp only [archiveFiles, Nat.add_comm 2 k, List.getD_eq_getElem?_getD, List.getElem?_cons_succ, List.getElem?_map,
      here, Option.map_some, Option.getD_some]
  rw [sourceViewAt, entriesAt (patchArchive archive) mem, file]
  rfl

theorem apkEntry {disk : Disk} {r : EntryRef} (mem : r ∈ apkRefs disk) :
    ∃ e, (apkEntries disk)[r.2]? = some e ∧ entries disk r = { e with mUserData1 := 0 } ∧ r.1 = 0 := by
  obtain ⟨i, j⟩ := r
  obtain ⟨rfl, low⟩ := memRefs.mp mem
  have here := List.getElem?_eq_getElem low
  exact ⟨_, here, entriesAt rfl here, rfl⟩

section
variable {disk other : Disk} (relisted : Relisted disk other)
include relisted

theorem Relisted.patchViews : ((patchRefs disk).map (sourceViewAt disk)).Perm
    ((patchRefs other).map (sourceViewAt other)) := by
  rw [ShadowZip.patchViews, ShadowZip.patchViews]
  exact relisted.patches.flatMap_right _

theorem Relisted.apkRefs : apkRefs disk = apkRefs other := by
  rw [ShadowZip.apkRefs, ShadowZip.apkRefs, apkEntries, apkEntries, relisted.apk]

theorem Relisted.apkEntry {r : EntryRef} (mem : r ∈ ShadowZip.apkRefs disk) : entries disk r = entries other r := by
  obtain ⟨e, here, own, _⟩ := ShadowZip.apkEntry mem
  obtain ⟨f, there, same, _⟩ := ShadowZip.apkEntry (relisted.apkRefs ▸ mem)
  rw [apkEntries, relisted.apk] at here
  rw [apkEntries, here] at there
  cases there
  rw [own, same]

theorem Relisted.patchNames (n : Bytes) : (∃ r ∈ patchRefs disk, nameOf disk r = n) ↔
    ∃ r ∈ patchRefs other, nameOf other r = n := by
  have names : ((patchRefs disk).map (nameOf disk)).Perm ((patchRefs other).map (nameOf other)) := by
    have alike := relisted.patchViews.map EntryView.name
    rw [List.map_map, List.map_map] at alike
    exact alike
  rw [← List.mem_map, ← List.mem_map, names.mem_iff]

end

theorem replacementNone {patchDir sysApkFile : Bytes} {disk : Disk} {res : Result}
    (run : InitRun patchDir sysApkFile disk res) {n : Bytes} (here : n ∉ removedNames disk) :
    replacement disk n = none ↔ ¬ ∃ r ∈ patchRefs disk, nameOf disk r = n := by
  rw [Option.eq_none_iff_forall_ne_some, not_exists]
  refine forall_congr' fun r => not_congr ?_
  rw [run.replaced n r]
  exact ⟨fun ⟨mem, named, _⟩ => ⟨mem, named⟩, fun ⟨mem, named⟩ => ⟨mem, named, here⟩⟩

section
variable {disk other : Disk} {patchDir sysApkFile : Bytes} {res res' : Result}

theorem Relisted.keptApk (relisted : Relisted disk other) (run : InitRun patchDir sysApkFile disk res)
    (run' : InitRun patchDir sysApkFile other res') : keptApk disk = keptApk other := by
  rw [ShadowZip.keptApk, ShadowZip.keptApk, ← relisted.apkRefs]
  refine List.filter_congr fun r mem => ?_
  rw [decide_eq_decide, nameOf, nameOf, ← relisted.apkEntry mem, ← relisted.removed]
  refine and_congr_right fun here => ?_
  rw [replacementNone run here, replacementNone run' (relisted.removed ▸ here), relisted.patchNames]

theorem Relisted.distinct (relisted : Relisted disk other) (distinct : DistinctNames disk) : DistinctNames other := by
  have names : (ShadowZip.apkRefs disk).map (nameOf disk) = (ShadowZip.apkRefs disk).map (nameOf other) := by
    refine List.map_congr_left fun r mem => ?_
    rw [nameOf, nameOf, relisted.apkEntry mem]
  rw [DistinctNames, names, relisted.apkRefs] at distinct
  exact distinct

theorem Relisted.orderViews (relisted : Relisted disk other) (run : InitRun patchDir sysApkFile disk res)
    (run' : InitRun patchDir sysApkFile other res') (distinct : DistinctNames disk) :
    ((order disk).map (sourceViewAt disk)).Perm ((order other).map (sourceViewAt other)) := by
  have base : (ShadowZip.keptApk disk).map (sourceViewAt disk) = (ShadowZip.keptApk disk).map (sourceViewAt other) := by
    refine List.map_congr_left fun r mem => ?_
    have known := (List.mem_filter.mp mem).1
    obtain ⟨_, _, _, zero⟩ := ShadowZip.apkEntry known
    have file : archiveFiles disk r.1 = archiveFiles other r.1 := by
      rw [zero]
      exact congrArg (fun path => Option.getD path []) relisted.apk
    rw [sourceViewAt, sourceViewAt, relisted.apkEntry known, file]
  have left := (orderPerm run distinct).map (sourceViewAt disk)
  have right := (orderPerm run' (relisted.distinct distinct)).map (sourceViewAt other)
  rw [List.map_append, base, relisted.keptApk run run'] at left
  rw [List.map_append] at right
  exact left.trans ((relisted.patchViews.append_left _).trans right.symm)

theorem listingOrder (relisted : Relisted disk other) (named : Named disk) (distinct : DistinctNames disk)
    (short : ∀ path ∈ archivePaths disk, ∀ e ∈ parsed path, e.mLFH.mExtraFieldLength ≤ 65532) :
    (∀ stop, init patchDir sysApkFile disk = .error stop ↔ init patchDir sysApkFile other = .error stop) ∧
    ∀ res res', init patchDir sysApkFile disk = .ok res → init patchDir sysApkFile other = .ok res' →
      Bounded disk res → Bounded other res' →
      ∃ found found' : List EntryView, views disk res = found.map .ok ∧ views other res' = found'.map .ok ∧ found.Perm found' := by
  constructor
  · have alike := (initOutcome named patchDir sysApkFile).trans
      (relisted.outcome.trans (initOutcome (relisted.named named) patchDir sysApkFile).symm)
    intro stop
    cases left : init patchDir sysApkFile disk with
    | ok res =>
      cases right : init patchDir sysApkFile other with
      | ok res' => simp
      | error _ =>
        rw [left, right] at alike
        cases alike
    | error _ =>
      cases right : init patchDir sysApkFile other with
      | ok res' =>
        rw [left, right] at alike
        cases alike
      | error _ =>
        rw [left, right] at alike
        cases alike
        rfl
  · intro res res' accepted accepted' bounded bounded'
    have run := initRun accepted
    have run' := initRun accepted'
    have short' : ∀ path ∈ archivePaths other, ∀ e ∈ parsed path, e.mLFH.mExtraFieldLength ≤ 65532 :=
      fun path mem => short path (relisted.paths.mpr mem)
    exact ⟨_, _, viewsSource run bounded distinct short,
      viewsSource run' bounded' (relisted.distinct distinct) short', relisted.orderViews run run' distinct⟩

end

/- One entry of the base APK is removed and one is replaced by the first patch; the second patch adds an entry. -/
def twoPatches : Disk where
  apk := some (archiveOf [⟨[97], [1, 2, 3], 0x55bc801d⟩, ⟨[98], [4, 5], 0x55df2374⟩])
  patches := [([112], some (archiveOf [⟨[98], [9, 9, 9], 0x588ee170⟩])),
    ([113], some (archiveOf [⟨[100], [7, 7], 0x90fc119b⟩]))]
  removedFiles := some [97, 10]
  headerOpens := true
  endOpens := true

def listedBackwards : Disk := { twoPatches with patches := twoPatches.patches.reverse }

def forwardsResult : Result := resultOf [47, 112] [47, 97] twoPatches

def backwardsResult : Result := resultOf [47, 112] [47, 97] listedBackwards

theorem forwardsAccepted : init [47, 112] [47, 97] twoPatches = .ok forwardsResult := acceptedResult (by decide +kernel)

theorem backwardsAccepted : init [47, 112] [47, 97] listedBackwards = .ok backwardsResult :=
  acceptedResult (by decide +kernel)

theorem forwardsBounded : Bounded twoPatches forwardsResult :=
  ⟨⟨by decide +kernel, by decide +kernel⟩, by decide +kernel, by decide +kernel⟩

theorem backwardsBounded : Bounded listedBackwards backwardsResult :=
  ⟨⟨by decide +kernel, by decide +kernel⟩, by decide +kernel, by decide +kernel⟩

theorem sampleListings :
    forwardsResult.globalData.patchPartitions ≠ backwardsResult.globalData.patchPartitions ∧
    ∃ found found' : List EntryView, views twoPatches forwardsResult = found.map .ok ∧
      views listedBackwards backwardsResult = found'.map .ok ∧ found.Perm found' := by
  have relisted : Relisted twoPatches listedBackwards := ⟨rfl, (List.reverse_perm _).symm, rfl, rfl, rfl⟩
  have named : Named twoPatches := parsedNames (by decide +kernel)
  have distinct : DistinctNames twoPatches := by decide +kernel
  have short : ∀ path ∈ archivePaths twoPatches, ∀ e ∈ parsed path, e.mLFH.mExtraFieldLength ≤ 65532 := by
    decide +kernel
  refine ⟨by decide +kernel, ?_⟩
  exact (listingOrder relisted named distinct short).2 _ _ forwardsAccepted backwardsAccepted forwardsBounded
    backwardsBounded

end Bootstrap.ShadowZip
