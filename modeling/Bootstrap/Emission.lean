import Bootstrap.PartitionTable

/-! The two emission loops of init as one run: which entries are emitted, in which order,
and what every one of them leaves in the heap, the table and the virtual file. -/
namespace Bootstrap.ShadowZip
open CInt ByteLayout Zip ParseApk SerialUtils Tiling

structure Same (e f : ZipEntry) : Prop where
  mUserData1 : e.mUserData1 = f.mUserData1
  mLFH : e.mLFH = f.mLFH
  mCDE : e.mCDE = f.mCDE

theorem Same.trans {e f g : ZipEntry} (left : Same e f) (right : Same f g) : Same e g :=
  ⟨left.1.trans right.1, left.2.trans right.2, left.3.trans right.3⟩

theorem addPaddingSame {e f : ZipEntry} (same : Same e f) {n : Nat} {e' f' : ZipEntry}
    (left : e.addPadding n = .ok e') (right : f.addPadding n = .ok f') : e'.mLFH = f'.mLFH := by
  unfold ZipEntry.addPadding at left right
  simp only [same.mLFH] at left right
  split at left
  · cases left
  · split at left
    · cases left
      rename_i some long
      simp only [if_neg some, if_pos long] at right
      cases right
      rfl
    · cases left
      rename_i some short
      simp only [if_neg some, if_neg short] at right
      cases right
      rfl

theorem compressedSame {e f : ZipEntry} (same : Same e f) : e.isCompressed = f.isCompressed := by
  simp only [ZipEntry.isCompressed, same.mCDE]

theorem paddingSame {e f : ZipEntry} (same : Same e f) (place : Nat) : padding e place = padding f place := by
  simp only [padding, compressedSame same, same.mLFH]

theorem paddedSame {e f : ZipEntry} (same : Same e f) (place : Nat) : (padded e place).mLFH = (padded f place).mLFH := by
  have amount := paddingSame same place
  by_cases none : padding f place = 0
  · rw [paddedNone none, paddedNone (amount.trans none), same.mLFH]
  · have left : e.addPadding (padding e place) = .ok (padded e place) := addPaddingOk (amount ▸ none)
    rw [amount] at left
    exact addPaddingSame same left (addPaddingOk none)

theorem offsetsSame {e f : ZipEntry} (same : Same e f) : dataStart e = dataStart f ∧ dataLength e = dataLength f ∧
    dataStop e = dataStop f := by
  have start : dataStart e = dataStart f := by simp only [dataStart, same.mLFH, same.mCDE]
  have descriptor : e.hasDD = f.hasDD := by simp only [ZipEntry.hasDD, same.mLFH]
  have length : dataLength e = dataLength f := by simp only [dataLength, descriptor, same.mCDE]
  exact ⟨start, length, by simp only [dataStop, start, length]⟩

theorem sizeSame {e f : ZipEntry} (same : Same e f) : entrySize e = entrySize f := by
  rw [entrySize, entrySize, (offsetsSame same).2.2, same.mCDE]

theorem imageSame {e f : ZipEntry} (same : Same e f) (raw : Bytes) : image raw e = image raw f := by
  obtain ⟨start, length, _⟩ := offsetsSame same
  funext place
  rw [image, image, paddedSame same, start, length]

theorem foundSame {e f : ZipEntry} (same : Same e f) {raw : Bytes} (found : f.FoundIn raw) : e.FoundIn raw := by
  obtain ⟨c, l, offset, header⟩ := found
  constructor <;> simp only [same.mCDE, same.mLFH] <;> assumption

/-- What the emission of an entry relies on: it comes from archive r.1, lies inside it, and is a file. -/
structure Sound (files : Nat → Bytes) (entries : Heap) (r : EntryRef) : Prop where
  file : (entries r).mUserData1 = r.1
  other : r.1 ≠ 1
  found : (entries r).FoundIn (files r.1)
  inside : dataStop (entries r) ≤ (files r.1).length
  small : (files r.1).length < 2 ^ 31
  name : ∃ filename, (entries r).getFileName = .ok filename ∧ isDirectory filename = false

theorem addPaddingKeeps {e e' : ZipEntry} {n : Nat} (h : e.addPadding n = .ok e') :
    e'.mCDE = e.mCDE ∧ e'.mUserData1 = e.mUserData1 ∧ e'.mUserData2 = e.mUserData2 := by
  unfold ZipEntry.addPadding at h
  dsimp only at h
  split at h
  · cases h
  · split at h <;> cases h <;> exact ⟨rfl, rfl, rfl⟩

theorem addEntryKeeps {e e' : ZipEntry} {b b' : Build} (h : addEntryToPartition e b = .ok (e', b')) :
    (e'.mCDE = e.mCDE ∧ e'.mUserData1 = e.mUserData1 ∧ e'.mUserData2 = e.mUserData2) ∧ b.header <+: b'.header := by
  obtain ⟨filename, _, way⟩ := addEntryWay h
  cases way with
  | kept _ header => exact ⟨⟨rfl, rfl, rfl⟩, header ▸ List.prefix_rfl⟩
  | padded _ ok header => exact ⟨addPaddingKeeps ok, header ▸ List.prefix_append _ _⟩

def imageOf (files : Nat → Bytes) (entries : Heap) (r : EntryRef) (place : Nat) : Bytes :=
  image (files r.1) (entries r) place

theorem imageBound {files : Nat → Bytes} {entries : Heap} {r : EntryRef} (sound : Sound files entries r) (place : Nat) :
    (imageOf files entries r place).length < 2 ^ 32 := by
  have inside := sound.inside
  have small := sound.small
  have name := sound.found.mLFH.ranged.mFileNameLength
  have extra := u16Bound ((entries r).mLFH.mExtraFieldLength + padding (entries r) place : Nat)
  have length := paddedLength sound.found.mLFH place
  rw [imageOf, imageLength inside, length]
  unfold dataStop at inside
  unfold LocalFileHeader.kLFHLen
  omega

theorem emitCases {r : EntryRef} {s s' : Loop} (h : emit r s = .ok s') : ∃ e' b',
    addEntryToPartition (s.heap r) s.build = .ok (e', b') ∧
      s' = ⟨Function.update s.heap r (e'.setLFHOffset (i64 s.build.preShadowStop)), b', s.allEntries ++ [r]⟩ := by
  obtain ⟨⟨e', b'⟩, ok, h⟩ := exceptBind h
  cases h
  exact ⟨e', b', ok, rfl⟩

inductive Emits : List EntryRef → Loop → Loop → Prop where
  | nil (s : Loop) : Emits [] s s
  | cons {r : EntryRef} {rs : List EntryRef} {s marked next last : Loop} (before : marked = s ∨ marked = mark r s)
      (step : emit r marked = .ok next) (rest : Emits rs next last) : Emits (r :: rs) s last

theorem emitsAppend {rs ts : List EntryRef} {s m l : Loop} (left : Emits rs s m) (right : Emits ts m l) :
    Emits (rs ++ ts) s l := by
  induction left with
  | nil => exact right
  | cons before step rest ih => exact .cons before step (ih right)

theorem markSame (r t : EntryRef) (s : Loop) : Same ((mark r s).heap t) (s.heap t) := by
  by_cases own : t = r
  · subst t
    simp only [mark, Function.update_self]
    exact ⟨rfl, rfl, rfl⟩
  · simp only [mark, Function.update_of_ne own]
    exact ⟨rfl, rfl, rfl⟩

theorem markedSame {r : EntryRef} {s marked : Loop} (before : marked = s ∨ marked = mark r s) :
    (∀ t, Same (marked.heap t) (s.heap t)) ∧ (∀ t, t ≠ r → marked.heap t = s.heap t) ∧ marked.build = s.build ∧
      marked.allEntries = s.allEntries := by
  rcases before with rfl | rfl
  · exact ⟨fun _ => ⟨rfl, rfl, rfl⟩, fun _ _ => rfl, rfl, rfl⟩
  · exact ⟨fun t => markSame r t s, fun t other => Function.update_of_ne other _ _, rfl, rfl⟩

theorem emitsKeeps {rs : List EntryRef} {s s' : Loop} (run : Emits rs s s') :
    (∀ t, (s'.heap t).getFileName = (s.heap t).getFileName) ∧ s.build.header <+: s'.build.header ∧
      s'.allEntries = s.allEntries ++ rs := by
  induction run with
  | nil s => exact ⟨fun _ => rfl, List.prefix_rfl, (List.append_nil _).symm⟩
  | @cons r rs s marked next last before step rest ih =>
    obtain ⟨names, grown, emitted⟩ := ih
    obtain ⟨same, _, build, entries⟩ := markedSame before
    obtain ⟨e', b', added, rfl⟩ := emitCases step
    obtain ⟨⟨cde, _, _⟩, header⟩ := addEntryKeeps added
    refine ⟨fun t => ?_, (build ▸ header).trans grown, ?_⟩
    · rw [names t]
      by_cases own : t = r
      · subst t
        simp only [Function.update_self, ZipEntry.setLFHOffset, ZipEntry.getFileName, cde, (same r).mCDE]
      · simp only [Function.update_of_ne own, ZipEntry.getFileName, (same t).mCDE]
    · rw [emitted, entries, List.append_assoc]
      rfl

structure Placed (e : ZipEntry) (place : Nat) (e' : ZipEntry) : Prop where
  mUserData1 : e'.mUserData1 = e.mUserData1
  mLFH : e'.mLFH = (padded e place).mLFH
  mCDE : e'.mCDE = { e.mCDE with mLocalHeaderRelOffset := place }

theorem paddedKeeps (e : ZipEntry) (place : Nat) : (padded e place).mCDE = e.mCDE ∧
    (padded e place).mUserData1 = e.mUserData1 ∧ (padded e place).mUserData2 = e.mUserData2 := by
  by_cases none : padding e place = 0
  · rw [paddedNone none]
    exact ⟨rfl, rfl, rfl⟩
  · exact addPaddingKeeps (addPaddingOk none)

structure Going (files : Nat → Bytes) (s : Loop) : Prop where
  ready : Ready s.build
  held : AllHeld files s.build
  header : s.build.header.length ≤ s.build.preShadowStop

structure Ran (files : Nat → Bytes) (entries : Heap) (rs : List EntryRef) (s s' : Loop) : Prop where
  going : Going files s'
  shown : shown files s'.build = shown files s.build ++ assemble (imageOf files entries) s.build.preShadowStop rs
  place : s'.build.preShadowStop = s.build.preShadowStop + (assemble (imageOf files entries) s.build.preShadowStop rs).length
  placed : ∀ p ∈ placesFrom (imageOf files entries) s.build.preShadowStop rs, Placed (entries p.1) p.2 (s'.heap p.1)
  others : ∀ t, t ∉ rs → s'.heap t = s.heap t

theorem emitStep {files : Nat → Bytes} {entries : Heap} {r : EntryRef} {s marked next : Loop} (going : Going files s)
    (sound : Sound files entries r) (same : Same (s.heap r) (entries r)) (low : s.build.preShadowStop < 2 ^ 62)
    (before : marked = s ∨ marked = mark r s) (step : emit r marked = .ok next)
    (header : next.build.header.length < 2 ^ 31) :
    Going files next ∧ Shows files s.build next.build (imageOf files entries r s.build.preShadowStop) ∧
      Placed (entries r) s.build.preShadowStop (next.heap r) ∧ ∀ t, t ≠ r → next.heap t = s.heap t := by
  have fits : s.build.preShadowStop < 2 ^ 64 := by omega
  obtain ⟨marking, untouched, build, _⟩ := markedSame before
  obtain ⟨e', b', added, rfl⟩ := emitCases step
  have alike : Same (marked.heap r) (entries r) := (marking r).trans same
  obtain ⟨_, _, stop⟩ := offsetsSame alike
  have inside := sound.inside
  have small := sound.small
  have short : dataStop (entries r) < 2 ^ 31 := by omega
  have size : entrySize (marked.heap r) < 2 ^ 31 := by
    unfold entrySize
    rw [stop]
    omega
  have name : ∃ filename, (marked.heap r).getFileName = .ok filename ∧ isDirectory filename = false := by
    rw [ZipEntry.getFileName, alike.mCDE]
    exact sound.name
  rw [build] at added
  obtain ⟨rfl, way⟩ := addEntryCases going.ready (alike.1.trans sound.file) (by omega) size low name added
    header
  have found := foundSame alike sound.found
  have shows := addedShows going.ready way sound.other found (stop ▸ inside) going.held
  rw [imageSame alike] at shows
  obtain ⟨cde, user, _⟩ := paddedKeeps (marked.heap r) s.build.preShadowStop
  refine ⟨⟨addedReady going.ready way, shows.held, addedHeader way going.header⟩, shows, ?_, ?_⟩
  · simp only [Function.update_self, ZipEntry.setLFHOffset, build]
    constructor <;> dsimp only
    · exact user.trans alike.1
    · exact paddedSame alike s.build.preShadowStop
    · rw [cde, alike.mCDE, u64OfI64 fits]
  · intro t different
    simp only [Function.update_of_ne different, untouched t different]

theorem emitsRan {files : Nat → Bytes} {entries : Heap} {rs : List EntryRef} {s s' : Loop} (run : Emits rs s s')
    (going : Going files s) (sound : ∀ r ∈ rs, Sound files entries r) (same : ∀ r ∈ rs, Same (s.heap r) (entries r))
    (once : rs.Nodup) (low : s.build.preShadowStop + rs.length * 2 ^ 32 < 2 ^ 62)
    (header : s'.build.header.length < 2 ^ 31) : Ran files entries rs s s' := by
  induction run with
  | nil s => exact ⟨going, by simp, by simp, by simp [placesFrom], fun _ _ => rfl⟩
  | @cons r rs s marked next last before step rest ih =>
    obtain ⟨fresh, once⟩ := List.nodup_cons.mp once
    have own := sound r List.mem_cons_self
    have prefixed := (emitsKeeps rest).2.1.length_le
    rw [List.length_cons] at low
    obtain ⟨goingNext, shows, placed, untouched⟩ := emitStep going own (same r List.mem_cons_self) (by omega) before step
      (by omega)
    have bound := imageBound own s.build.preShadowStop
    have place := shows.place
    have ran := ih goingNext (fun t mem => sound t (List.mem_cons_of_mem _ mem))
      (fun t mem => by
        rw [untouched t (fun own => fresh (own ▸ mem))]
        exact same t (List.mem_cons_of_mem _ mem))
      once (by omega) header
    refine ⟨ran.going, ?_, ?_, ?_, ?_⟩
    · rw [ran.shown, shows.shown, place, assembleCons, List.append_assoc]
    · rw [ran.place, place, assembleCons, List.length_append, Nat.add_assoc]
    · intro p mem
      rw [placesFrom, ← place] at mem
      rcases List.mem_cons.mp mem with rfl | mem
      · rw [ran.others r fresh]
        exact placed
      · exact ran.placed p mem
    · intro t absent
      rw [List.mem_cons, not_or] at absent
      rw [ran.others t absent.2, untouched t absent.1]

end Bootstrap.ShadowZip
