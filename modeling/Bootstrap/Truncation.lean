import Bootstrap.ServableTable

/-! Which runs of init lose nothing in the fields that they write: nothing is checked against
the width of a field, so it is exactly the runs whose archive fits. -/
namespace Bootstrap.ShadowZip
open CInt ByteLayout Zip ParseApk SerialUtils Tiling

def endBytes (res : Result) : Bytes := res.patchData.drop (centralDir res.emitted).length

def Exceeds (disk : Disk) : Prop :=
  65535 < (order disk).length ∨ 2 ^ 32 ≤ placeAfter 0 (plannedEntries disk) ∨
    ∃ e ∈ plannedEntries disk, 2 ^ 31 ≤ entrySize e

instance (disk) : Decidable (Exceeds disk) := by unfold Exceeds; infer_instance

def ReplacedOnce (disk : Disk) : Prop := (apkRefs disk).Pairwise (fun r t => nameOf disk r = nameOf disk t →
  nameOf disk r ∈ removedNames disk ∨ ∀ p ∈ patchRefs disk, nameOf disk p ≠ nameOf disk r)

instance (disk) : Decidable (ReplacedOnce disk) := by unfold ReplacedOnce; infer_instance

/-- What pre_shadow_stop is before each emission, where the table makes room for the entry. -/
def shadowStarts : List EntryRef → Loop → List Nat
  | [], _ => []
  | r :: rs, s => s.build.preShadowStop ::
      match emit r s with
      | .ok s => shadowStarts rs s
      | .error _ => []

structure WrittenExactly (disk : Disk) (res : Result) : Prop where
  records : centralDir res.emitted <+: res.patchData
  count : getShortLE (endBytes res) 0x08 = res.emitted.length ∧ getShortLE (endBytes res) 0x0a = res.emitted.length
  directory : ∃ p, res.globalData.patchPartitions.getLast? = some p ∧
    readLE (slice (endBytes res) 0x10 4) = p.shadowStart
  offsets : res.emitted.map (fun e => readLE (slice e.mCDE.write 0x2a 4)) = shadowStarts res.allEntries (startLoop disk)
  covered : ∀ p ∈ res.globalData.patchPartitions,
    (p.shadowStop : Int) - p.shadowStart = (p.stopInFile : Int) - p.startInFile

structure Untruncated (patchDir sysApkFile : Bytes) (disk : Disk) : Prop where
  written : ∀ res, init patchDir sysApkFile disk = .ok res → WrittenExactly disk res
  refused : Exceeds disk → ∀ res, init patchDir sysApkFile disk ≠ .ok res

theorem wordField {fields : List Field} (i : Nat) {value off : Nat} (found : fields[i]? = some (4, value))
    (place : widths (fields.take i) = off) (small : value < 2 ^ 32) (tail : Bytes) :
    readLE (slice (pack fields ++ tail) off 4) = value := by
  subst off
  have h := packedWord (fields.take i) (show value < 256 ^ 4 from small) (fields.drop (i + 1)) tail
  rwa [← splitAtField found] at h

theorem offsetField {c : CentralDirEntry} (small : c.mLocalHeaderRelOffset < 2 ^ 32) :
    readLE (slice c.write 0x2a 4) = c.mLocalHeaderRelOffset :=
  wordField 16 rfl (by simp [CentralDirEntry.fields, widths]) small _

theorem endFields {entries offset : Nat} (count : entries < 2 ^ 16) (low : offset < 2 ^ 32) (size : Nat) :
    getShortLE (endOfCentralDir entries size offset).write 0x08 = entries ∧
      getShortLE (endOfCentralDir entries size offset).write 0x0a = entries ∧
      readLE (slice (endOfCentralDir entries size offset).write 0x10 4) = offset := by
  have number : u16 (entries : Int) = entries := u16Exact count
  refine ⟨shortField 3 ?_ (by simp [EndOfCentralDir.fields, widths]) count _,
    shortField 4 ?_ (by simp [EndOfCentralDir.fields, widths]) count _,
    wordField 6 rfl (by simp [EndOfCentralDir.fields, widths]) low _⟩
  · simp [EndOfCentralDir.fields, endOfCentralDir, number]
  · simp [EndOfCentralDir.fields, endOfCentralDir, number]

theorem evenCovered {a b : Nat} {ps : List FilePartitionInfo} (tiles : Tiles a (pieces ps) b) :
    ∀ p ∈ ps, (p.shadowStop : Int) - p.shadowStart = (p.stopInFile : Int) - p.startInFile := by
  intro p mem
  obtain ⟨ordered, shown⟩ := tilesEven tiles (piece p) (List.mem_map_of_mem mem)
  simp only [piece] at ordered shown
  omega

/-! An entry that is emitted twice has one record field for two places. -/

theorem planIncreases (rs : List EntryRef) (heap : Heap) (place : Nat) :
    ((plan rs heap place).map Emission.place).Pairwise (· < ·) := by
  induction rs generalizing heap place with
  | nil => exact List.Pairwise.nil
  | cons r rs ih =>
    refine List.pairwise_cons.mpr ⟨fun later mem => ?_, ih _ _⟩
    obtain ⟨c, known, rfl⟩ := List.mem_map.mp mem
    have after := planAfter known
    have least := emittedLeast (heap r) place
    show place < c.place
    omega

theorem startsPlanned {rs : List EntryRef} {s : Loop} {heap : Heap} {place : Nat} (follows : Follows heap place s)
    (ready : Ready s.build) (fit : ∀ c ∈ plan rs heap place, Fit c.entry)
    (low : placeAfter place ((plan rs heap place).map Emission.entry) < 2 ^ 62)
    (header : s.build.header.length + headerAfter place ((plan rs heap place).map Emission.entry) < 2 ^ 31) :
    shadowStarts rs s = (plan rs heap place).map Emission.place := by
  induction rs generalizing s heap place with
  | nil => rfl
  | cons r rs ih =>
    simp only [plan, List.map_cons, placeAfter, headerAfter] at low header
    have later := placeAfterLe (place + emittedLength (heap r) place)
      ((plan rs (Function.update heap r (settled (heap r) place)) (place + emittedLength (heap r) place)).map
        Emission.entry)
    have own := follows.same r
    have here := fit _ List.mem_cons_self
    have part : headerPart (s.heap r) place = headerPart (heap r) place := by
      rw [headerPart, headerPart, paddingSame own, paddedSame own]
    obtain ⟨b', added, _⟩ := addEntryAdded ready (fitSame own here) (by rw [follows.place]; omega)
      (by rw [follows.place, part]; omega)
    obtain ⟨next, step⟩ : ∃ next, emit r s = .ok next := ⟨_, by rw [emit, exceptOk added]; rfl⟩
    obtain ⟨_, joined, further⟩ := emitFollows follows ready here (by omega) (by omega) (.inl rfl) step
    have grown := (addedGrows joined).2
    rw [follows.place] at grown
    have rest := ih further (addedReady ready joined) (fun c mem => fit c (List.mem_cons_of_mem _ mem)) low
      (by rw [grown]; omega)
    rw [shadowStarts, step, plan, List.map_cons, follows.place]
    dsimp only
    rw [rest]

section
variable {patchDir sysApkFile : Bytes} {disk : Disk} {res : Result}

theorem initStarts (run : InitRun patchDir sysApkFile disk res) (sized : Sized disk) :
    shadowStarts res.allEntries (startLoop disk) = (planned disk).map Emission.place := by
  have start : Follows (entries disk) 0 (startLoop disk) := ⟨rfl, fun _ => ⟨rfl, rfl, rfl⟩⟩
  have header := sized.header
  rw [allEntriesOrder run]
  exact startsPlanned start startReady (fun c mem => plannedFit run sized mem) sized.place
    (by simpa [startLoop, startBuild, plannedEntries, planned] using header)

theorem replacedOnceChoice (run : InitRun patchDir sysApkFile disk res) {r t : EntryRef} (base : r ∈ apkRefs disk)
    (other : t ∈ apkRefs disk) (apart : r ≠ t) :
    (∀ p, (if nameOf disk r ∈ removedNames disk then none else some ((replacement disk (nameOf disk r)).getD r)) = some p →
      ∀ q, (if nameOf disk t ∈ removedNames disk then none else some ((replacement disk (nameOf disk t)).getD t)) = some q →
        p ≠ q) ↔
      (nameOf disk r = nameOf disk t →
        nameOf disk r ∈ removedNames disk ∨ ∀ p ∈ patchRefs disk, nameOf disk p ≠ nameOf disk r) := by
  constructor
  · intro different same
    by_contra both
    rw [not_or] at both
    obtain ⟨kept, some⟩ := both
    push Not at some
    obtain ⟨p, patch, named⟩ := some
    have found := (run.replaced (nameOf disk r) p).mpr ⟨patch, named, kept⟩
    refine different p ?_ p ?_ rfl
    · rw [if_neg kept, found]
      rfl
    · rw [if_neg (same ▸ kept), ← same, found]
      rfl
  · rintro once p left q right rfl
    obtain ⟨kept, name, patch⟩ := chosen run left
    obtain ⟨_, name', patch'⟩ := chosen run right
    have absent := (once (name.symm.trans name')).resolve_left kept
    have own : ∀ {u : EntryRef}, u ∈ apkRefs disk → p ∈ patchRefs disk ∨ p = u → p = u := by
      intro u _ source
      exact source.resolve_left (fun mem => absent p mem name)
    exact apart ((own base patch).symm.trans (own other patch'))

theorem onceEmitted (run : InitRun patchDir sysApkFile disk res) : (order disk).Nodup ↔ ReplacedOnce disk := by
  have first : (order disk).Nodup ↔ (apkOrder disk).Nodup := by
    refine ⟨fun whole => (List.nodup_append'.mp whole).1, fun front => List.nodup_append'.mpr ⟨front,
      (refsFromNodup 2 _).filter _, ?_⟩⟩
    intro t left right
    exact absurd left (of_decide_eq_true (List.mem_filter.mp right).2)
  have apart := refsNodup 0 (apkEntries disk)
  rw [first, apkOrder, List.Nodup, List.pairwise_filterMap, ReplacedOnce]
  constructor
  · intro pairs
    exact (pairs.and apart).imp_of_mem fun base other both => (replacedOnceChoice run base other both.2).mp both.1
  · intro pairs
    exact (pairs.and apart).imp_of_mem fun base other both => (replacedOnceChoice run base other both.2).mpr both.1

theorem writtenOnce (run : InitRun patchDir sysApkFile disk res) (sized : Sized disk) (exact : WrittenExactly disk res) :
    ReplacedOnce disk := by
  have increases := planIncreases (order disk) (entries disk) 0
  have offsets := exact.offsets
  rw [initStarts run sized, Result.emitted, List.map_map, allEntriesOrder run] at offsets
  have places : ((planned disk).map Emission.place).Nodup := increases.imp Nat.ne_of_lt
  rw [← offsets] at places
  exact (onceEmitted run).mp places.of_map

theorem onceSettled (once : (order disk).Nodup) {c : Emission} (mem : c ∈ planned disk) :
    heapAfter (order disk) (entries disk) 0 c.ref = settled c.entry c.place := by
  have refs := planRefs (order disk) (entries disk) 0
  have known : c.ref ∈ order disk := by
    rw [← refs]
    exact List.mem_map_of_mem mem
  obtain ⟨before, d, after, split, own, _, left⟩ := heapAfterLast known (entries disk) 0
  have last : d ∈ planned disk := by
    rw [planned, split]
    exact List.mem_append_right _ List.mem_cons_self
  obtain rfl := List.inj_on_of_nodup_map (refs ▸ once) last mem own
  exact left

theorem leftOffset {s : Loop} {place : Nat} (follows : Follows (heapAfter (order disk) (entries disk) 0) place s)
    {r : EntryRef} (mem : r ∈ order disk) :
    (s.heap r).mCDE.mLocalHeaderRelOffset ≤ placeAfter 0 (plannedEntries disk) := by
  obtain ⟨before, c, after, split, _, _, left⟩ := heapAfterLast mem (entries disk) 0
  have later := placeAfterLe (placeAfter 0 (before.map Emission.entry)) ((c :: after).map Emission.entry)
  rw [← placeAfterAppend, ← List.map_append, ← split, ← planPlace split] at later
  rw [(follows.same r).mCDE, left]
  exact later

theorem fitsSized (fits : ¬ Exceeds disk) (header : headerAfter 0 (plannedEntries disk) < 2 ^ 31) : Sized disk := by
  unfold Exceeds at fits
  rw [not_or, not_or, Nat.not_lt, Nat.not_le] at fits
  obtain ⟨_, low, sizes⟩ := fits
  refine ⟨fun c mem => ?_, by omega, header⟩
  exact Nat.not_le.mp (fun large => sizes ⟨c.entry, List.mem_map_of_mem mem, large⟩)

theorem fitsWritten (accepted : init patchDir sysApkFile disk = .ok res)
    (header : headerAfter 0 (plannedEntries disk) < 2 ^ 31) (fits : ¬ Exceeds disk)
    (once : ReplacedOnce disk) : WrittenExactly disk res := by
  have run := initRun accepted
  have sized := fitsSized fits header
  unfold Exceeds at fits
  rw [not_or, not_or, Nat.not_lt, Nat.not_le] at fits
  obtain ⟨count, low, _⟩ := fits
  obtain ⟨s, same, emitted, _, joins, follows, finished⟩ := initFinished run sized (by omega)
  have written := writtenData (allFilesOf patchDir sysApkFile disk) s
  rw [← same] at written
  have number : res.emitted.length = s.allEntries.length := by rw [same, Result.emitted, List.length_map]; rfl
  have place := follows.place
  have behind : endBytes res = (endOfCentralDir s.allEntries.length (centralDir res.emitted).length
      s.build.preShadowStop).write := by
    rw [endBytes, written, List.drop_left]
  have total : s.allEntries.length < 2 ^ 16 := by rw [emitted]; omega
  obtain ⟨some, all, offset⟩ := endFields total (place ▸ low) (centralDir res.emitted).length
  refine ⟨⟨_, written.symm⟩, ?_, ?_, ?_, ?_⟩
  · rw [behind, number]
    exact ⟨some, all⟩
  · rw [behind, finished.table, List.getLast?_concat]
    exact ⟨_, rfl, offset⟩
  · have heap : res.heap = s.heap := by rw [same]; rfl
    rw [initStarts run sized, Result.emitted, List.map_map, allEntriesOrder run]
    conv_lhs => rw [← planRefs (order disk) (entries disk) 0, List.map_map]
    refine List.map_congr_left fun c mem => ?_
    have place : (res.heap c.ref).mCDE.mLocalHeaderRelOffset = c.place := by
      rw [heap, (follows.same c.ref).mCDE, onceSettled ((onceEmitted run).mpr once) mem]
      rfl
    have known : c.ref ∈ order disk := (planSource mem).1
    have bound := leftOffset follows known
    rw [← heap] at bound
    show readLE (slice (res.heap c.ref).mCDE.write 0x2a 4) = c.place
    rw [offsetField (by omega), place]
  · exact evenCovered (finishedTiles finished (joinsReady joins startReady).tiles)

theorem exceedsTruncated (accepted : init patchDir sysApkFile disk = .ok res) (sized : Sized disk)
    (exceeds : Exceeds disk) : ¬ WrittenExactly disk res := by
  have run := initRun accepted
  obtain ⟨s, same, emitted, _, _, follows⟩ := initFollows run sized
  intro exact
  rcases exceeds with many | far | ⟨e, mem, large⟩
  · have number : res.emitted.length = (order disk).length := by rw [Result.emitted, List.length_map, same, ← emitted]; rfl
    have field := exact.count.1
    have narrow := getShortBound (endBytes res) 0x08
    omega
  · obtain ⟨p, last, field⟩ := exact.directory
    have start : p.shadowStart = s.build.preShadowStop := by
      rw [same] at last
      simp only [finish, List.getLast?_concat, Option.some.injEq] at last
      rw [← last]
    have narrow := readLeBound (slice (endBytes res) 0x10 4)
    have short := sliceLengthLe (endBytes res) 0x10 4
    have mono : 256 ^ (slice (endBytes res) 0x10 4).length ≤ 256 ^ 4 := Nat.pow_le_pow_right (by decide) short
    have four : (256 : Nat) ^ 4 = 2 ^ 32 := rfl
    have place := follows.place
    omega
  · obtain ⟨c, known, rfl⟩ := List.mem_map.mp mem
    exact absurd (sized.entries c known) (Nat.not_lt.mpr large)

end

/- The only record of the base APK says that its file has 2147483647 bytes. -/
def claimedDisk : Disk :=
  have archive := archiveOf [⟨[97, 97], [1, 2, 3], 0x55bc801d⟩]
  { sampleDisk with
    apk := some ((((archive.set 55 0xff).set 56 0xff).set 57 0xff).set 58 0x7f)
    removedFiles := none }

end Bootstrap.ShadowZip
