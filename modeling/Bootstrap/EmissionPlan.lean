import Bootstrap.VirtualFile

/-! The emission loops in numbers: the entry that each call of add_entry_to_partition is given,
the place it comes to stand at, and what the virtual file and the header file grow by. -/
namespace Bootstrap.ShadowZip
open CInt ByteLayout Zip ParseApk SerialUtils Tiling

def headerPart (e : ZipEntry) (place : Nat) : Nat :=
  if padding e place = 0 then 0 else (padded e place).mLFH.write.length

def emittedLength (e : ZipEntry) (place : Nat) : Nat :=
  if padding e place = 0 then entrySize e else (padded e place).mLFH.write.length + dataLength e

def placeAfter : Nat → List ZipEntry → Nat
  | place, [] => place
  | place, e :: es => placeAfter (place + emittedLength e place) es

def headerAfter : Nat → List ZipEntry → Nat
  | _, [] => 0
  | place, e :: es => headerPart e place + headerAfter (place + emittedLength e place) es

def addEntries : List ZipEntry → Build → Except Stop Build
  | [], b => .ok b
  | e :: es, b => do
    let (_, b) ← addEntryToPartition e b
    addEntries es b

theorem placeAfterAppend (place : Nat) (es fs : List ZipEntry) :
    placeAfter place (es ++ fs) = placeAfter (placeAfter place es) fs := by
  induction es generalizing place with
  | nil => rfl
  | cons e es ih => exact ih _

theorem placeAfterLe (place : Nat) (es : List ZipEntry) : place ≤ placeAfter place es := by
  induction es generalizing place with
  | nil => exact Nat.le_refl _
  | cons e es ih => exact Nat.le_trans (Nat.le_add_right _ _) (ih _)

theorem headerPartLe (e : ZipEntry) (place : Nat) : headerPart e place ≤ emittedLength e place := by
  unfold headerPart emittedLength
  split <;> omega

theorem headerAfterLe (place : Nat) (es : List ZipEntry) : place + headerAfter place es ≤ placeAfter place es := by
  induction es generalizing place with
  | nil => exact Nat.le_refl _
  | cons e es ih =>
    have part := headerPartLe e place
    have rest := ih (place + emittedLength e place)
    simp only [headerAfter, placeAfter]
    omega

structure Fit (e : ZipEntry) : Prop where
  name : ∃ filename, e.getFileName = .ok filename ∧ isDirectory filename = false
  offset : e.mCDE.mLocalHeaderRelOffset < 2 ^ 62
  size : entrySize e < 2 ^ 31

theorem Fit.small {e : ZipEntry} (fit : Fit e) : dataStop e < 2 ^ 63 := by
  have offset := fit.offset
  have size := fit.size
  unfold entrySize at size
  omega

def Begun (b : Build) : Prop := b.patchPartitions = [] → b.preFileIndex = -1

theorem Ready.begun {b : Build} (ready : Ready b) : Begun b := by
  intro empty
  rcases ready.back with ⟨_, start⟩ | ⟨ps, p, table, _⟩
  · exact start
  · rw [empty] at table
    exact absurd table.symm (List.append_ne_nil_of_right_ne_nil _ (List.cons_ne_nil _ _))

theorem addEntryOk {e : ZipEntry} {b : Build} (begun : Begun b) {filename : Bytes} (named : e.getFileName = .ok filename) :
    ∃ e' b', addEntryToPartition e b = .ok (e', b') := by
  rw [addEntryToPartition, exceptOk named]
  dsimp only
  split
  · rename_i merge
    cases last : b.patchPartitions.getLast? with
    | none =>
      have start := begun (List.getLast?_eq_none_iff.mp last)
      have file := merge.1
      omega
    | some p => exact ⟨_, _, rfl⟩
  · split
    · rename_i some
      obtain ⟨e', padded⟩ := addPaddingSome e some
      rw [padded]
      exact ⟨_, _, rfl⟩
    · exact ⟨_, _, rfl⟩

theorem addEntryHeader {e e' : ZipEntry} {b b' : Build} (fit : Fit e) (place : b.preShadowStop < 2 ^ 62)
    (h : addEntryToPartition e b = .ok (e', b')) :
    b'.header.length = b.header.length + headerPart e b.preShadowStop := by
  obtain ⟨filename, named, isFile⟩ := fit.name
  obtain ⟨read, known, way⟩ := addEntryWay h
  rw [named] at known
  cases known
  rw [exactPadding fit.small place isFile] at way
  unfold headerPart
  cases way with
  | kept none header =>
    rw [if_pos none, header]
    rfl
  | padded some ok header =>
    rw [addPaddingOk some] at ok
    cases ok
    rw [if_neg some, header, List.length_append]

theorem addEntryAdded {e : ZipEntry} {b : Build} (ready : Ready b) (fit : Fit e) (place : b.preShadowStop < 2 ^ 62)
    (header : b.header.length + headerPart e b.preShadowStop < 2 ^ 31) :
    ∃ b', addEntryToPartition e b = .ok (padded e b.preShadowStop, b') ∧ Added e.mUserData1 e b b' := by
  obtain ⟨filename, named, _⟩ := fit.name
  obtain ⟨e', b', added⟩ := addEntryOk ready.begun named
  have grown := addEntryHeader fit place added
  obtain ⟨rfl, way⟩ := addEntryCases ready rfl fit.small fit.size place fit.name added (by omega)
  exact ⟨b', added, way⟩

theorem addedPlace {i : Nat} {e : ZipEntry} {b b' : Build} (added : Added i e b b') :
    b'.preShadowStop = b.preShadowStop + emittedLength e b.preShadowStop := by
  unfold emittedLength
  cases added with
  | merged ps p table file adjacent aligned => rw [if_pos aligned]
  | moved unaligned header written => rw [if_neg unaligned, written, Nat.add_assoc]
  | fresh aligned => rw [if_pos aligned]

theorem addedGrows {i : Nat} {e : ZipEntry} {b b' : Build} (added : Added i e b b') :
    b.header <+: b'.header ∧ b'.header.length = b.header.length + headerPart e b.preShadowStop := by
  unfold headerPart
  cases added with
  | merged ps p table file adjacent aligned => exact ⟨List.prefix_rfl, by rw [if_pos aligned]; rfl⟩
  | moved unaligned header written =>
    exact ⟨List.prefix_append _ _, by rw [if_neg unaligned, List.length_append, written]⟩
  | fresh aligned => exact ⟨List.prefix_rfl, by rw [if_pos aligned]; rfl⟩

inductive Joins : List ZipEntry → Build → Build → Prop where
  | nil (b : Build) : Joins [] b b
  | cons {e : ZipEntry} {es : List ZipEntry} {b next last : Build} (added : Added e.mUserData1 e b next)
      (rest : Joins es next last) : Joins (e :: es) b last

theorem joinsReady {es : List ZipEntry} {b b' : Build} (run : Joins es b b') (ready : Ready b) : Ready b' := by
  induction run with
  | nil => exact ready
  | cons added rest ih => exact ih (addedReady ready added)

theorem joinsPlace {es : List ZipEntry} {b b' : Build} (run : Joins es b b') :
    b'.preShadowStop = placeAfter b.preShadowStop es := by
  induction run with
  | nil => rfl
  | cons added rest ih => rw [ih, addedPlace added, placeAfter]

theorem joinsGrows {es : List ZipEntry} {b b' : Build} (run : Joins es b b') :
    b.header <+: b'.header ∧ b'.header.length = b.header.length + headerAfter b.preShadowStop es := by
  induction run with
  | nil => exact ⟨List.prefix_rfl, rfl⟩
  | cons added rest ih =>
    obtain ⟨grown, length⟩ := addedGrows added
    refine ⟨grown.trans ih.1, ?_⟩
    rw [ih.2, length, addedPlace added, headerAfter, Nat.add_assoc]

theorem joinsSplit {es fs : List ZipEntry} {b b' : Build} (run : Joins (es ++ fs) b b') :
    ∃ m, Joins es b m ∧ Joins fs m b' := by
  induction es generalizing b with
  | nil => exact ⟨b, .nil b, run⟩
  | cons e es ih =>
    cases run with
    | cons added rest =>
      obtain ⟨m, left, right⟩ := ih rest
      exact ⟨m, .cons added left, right⟩

theorem addEntriesJoin {es : List ZipEntry} {b : Build} (ready : Ready b) (fit : ∀ e ∈ es, Fit e)
    (place : placeAfter b.preShadowStop es < 2 ^ 62) (header : b.header.length + headerAfter b.preShadowStop es < 2 ^ 31) :
    ∃ b', addEntries es b = .ok b' ∧ Joins es b b' := by
  induction es generalizing b with
  | nil => exact ⟨b, rfl, .nil b⟩
  | cons e es ih =>
    rw [placeAfter] at place
    rw [headerAfter] at header
    have later := placeAfterLe (b.preShadowStop + emittedLength e b.preShadowStop) es
    obtain ⟨next, step, added⟩ := addEntryAdded ready (fit e List.mem_cons_self) (by omega) (by omega)
    have there := addedPlace added
    have grown := (addedGrows added).2
    obtain ⟨last, run, joins⟩ := ih (addedReady ready added) (fun f mem => fit f (List.mem_cons_of_mem _ mem))
      (by rw [there]; exact place) (by rw [there, grown]; omega)
    exact ⟨last, by rw [addEntries, exceptOk step]; exact run, .cons added joins⟩

def settled (e : ZipEntry) (place : Nat) : ZipEntry :=
  { padded e place with mCDE := { e.mCDE with mLocalHeaderRelOffset := place } }

structure Emission where
  ref : EntryRef
  entry : ZipEntry
  place : Nat
  deriving DecidableEq, Repr

/- An entry that is emitted again comes as its last emission left it. -/
def plan : List EntryRef → Heap → Nat → List Emission
  | [], _, _ => []
  | r :: rs, heap, place => ⟨r, heap r, place⟩ ::
      plan rs (Function.update heap r (settled (heap r) place)) (place + emittedLength (heap r) place)

def heapAfter : List EntryRef → Heap → Nat → Heap
  | [], heap, _ => heap
  | r :: rs, heap, place =>
      heapAfter rs (Function.update heap r (settled (heap r) place)) (place + emittedLength (heap r) place)

section
variable (disk : Disk)

def planned : List Emission := plan (order disk) (entries disk) 0
def plannedEntries : List ZipEntry := (planned disk).map Emission.entry

end

theorem planRefs (rs : List EntryRef) (heap : Heap) (place : Nat) : (plan rs heap place).map Emission.ref = rs := by
  induction rs generalizing heap place with
  | nil => rfl
  | cons r rs ih => rw [plan, List.map_cons, ih]

theorem planPlace {rs : List EntryRef} {heap : Heap} {place : Nat} {c : Emission} {before after : List Emission}
    (split : plan rs heap place = before ++ c :: after) : c.place = placeAfter place (before.map Emission.entry) := by
  induction rs generalizing heap place before with
  | nil => simp [plan] at split
  | cons r rs ih =>
    cases before with
    | nil =>
      obtain ⟨rfl, _⟩ := List.cons.inj split
      rfl
    | cons d before =>
      obtain ⟨rfl, rest⟩ := List.cons.inj split
      show c.place = placeAfter (place + emittedLength (heap r) place) (before.map Emission.entry)
      exact ih rest

/-- An entry at some point of the run: its offset and its extra field may have been rewritten. -/
structure Descends (source e : ZipEntry) : Prop where
  file : e.mUserData1 = source.mUserData1
  record : ∃ mLocalHeaderRelOffset, e.mCDE = { source.mCDE with mLocalHeaderRelOffset }
  header : ∃ mExtraField mExtraFieldLength,
    e.mLFH = { source.mLFH with mExtraField, mExtraFieldLength }

theorem Descends.refl (e : ZipEntry) : Descends e e := ⟨rfl, ⟨_, rfl⟩, _, _, rfl⟩

theorem Descends.trans {e f g : ZipEntry} (left : Descends e f) (right : Descends f g) : Descends e g := by
  obtain ⟨file, ⟨offset, record⟩, extra, length, header⟩ := left
  obtain ⟨file', ⟨offset', record'⟩, extra', length', header'⟩ := right
  exact ⟨file'.trans file, ⟨offset', by rw [record', record]⟩, extra', length', by rw [header', header]⟩

theorem addPaddingFields {e e' : ZipEntry} {n : Nat} (h : e.addPadding n = .ok e') : ∃ mExtraField,
    e'.mLFH = { e.mLFH with mExtraField, mExtraFieldLength := u16 (e.mLFH.mExtraFieldLength + n : Nat) } := by
  unfold ZipEntry.addPadding at h
  dsimp only at h
  split at h
  · cases h
  · split at h
    · cases h
      exact ⟨_, rfl⟩
    · rename_i short
      have zero : e.mLFH.mExtraFieldLength = 0 := by omega
      cases h
      exact ⟨_, by rw [zero, Nat.zero_add]⟩

theorem settledDescends (e : ZipEntry) (place : Nat) : Descends e (settled e place) := by
  refine ⟨(paddedKeeps e place).2.1, ⟨place, rfl⟩, ?_⟩
  simp only [settled]
  by_cases none : padding e place = 0
  · rw [paddedNone none]
    exact ⟨_, _, rfl⟩
  · obtain ⟨extra, fields⟩ := addPaddingFields (addPaddingOk none)
    exact ⟨extra, _, fields⟩

theorem planAfter {rs : List EntryRef} {heap : Heap} {place : Nat} {c : Emission} (mem : c ∈ plan rs heap place) :
    place ≤ c.place := by
  obtain ⟨before, after, split⟩ := List.append_of_mem mem
  rw [planPlace split]
  exact placeAfterLe _ _

theorem planSource {rs : List EntryRef} {heap : Heap} {place : Nat} {c : Emission} (mem : c ∈ plan rs heap place) :
    c.ref ∈ rs ∧ Descends (heap c.ref) c.entry ∧
      (c.entry = heap c.ref ∨ c.entry.mCDE.mLocalHeaderRelOffset ≤ c.place) := by
  induction rs generalizing heap place with
  | nil => simp [plan] at mem
  | cons r rs ih =>
    rcases List.mem_cons.mp mem with rfl | mem
    · exact ⟨List.mem_cons_self, .refl _, .inl rfl⟩
    · obtain ⟨known, descends, offset⟩ := ih mem
      have later := planAfter mem
      refine ⟨List.mem_cons_of_mem _ known, ?_⟩
      by_cases own : c.ref = r
      · rw [own, Function.update_self] at descends offset
        rw [own]
        refine ⟨(settledDescends _ _).trans descends, .inr ?_⟩
        rcases offset with same | low
        · rw [same]
          simp only [settled]
          omega
        · exact low
      · rw [Function.update_of_ne own] at descends offset
        exact ⟨descends, offset⟩

theorem heapAfterOther {rs : List EntryRef} {t : EntryRef} (absent : t ∉ rs) (heap : Heap) (place : Nat) :
    heapAfter rs heap place t = heap t := by
  induction rs generalizing heap place with
  | nil => rfl
  | cons r rs ih =>
    rw [List.mem_cons, not_or] at absent
    rw [heapAfter, ih absent.2, Function.update_of_ne absent.1]

theorem heapAfterLast {rs : List EntryRef} {r : EntryRef} (mem : r ∈ rs) (heap : Heap) (place : Nat) :
    ∃ before c after, plan rs heap place = before ++ c :: after ∧ c.ref = r ∧ (∀ d ∈ after, d.ref ≠ r) ∧
      heapAfter rs heap place r = settled c.entry c.place := by
  induction rs generalizing heap place with
  | nil => simp at mem
  | cons t rs ih =>
    by_cases later : r ∈ rs
    · obtain ⟨before, c, after, split, rest⟩ := ih later (Function.update heap t (settled (heap t) place))
        (place + emittedLength (heap t) place)
      exact ⟨⟨t, heap t, place⟩ :: before, c, after, by rw [plan, split, List.cons_append], rest⟩
    · have own : t = r := (List.mem_cons.mp mem).resolve_right later |>.symm
      subst t
      refine ⟨[], ⟨r, heap r, place⟩, _, rfl, rfl, fun d known same => ?_, ?_⟩
      · have listed := List.mem_map_of_mem (f := Emission.ref) known
        rw [planRefs, same] at listed
        exact later listed
      · rw [heapAfter, heapAfterOther later, Function.update_self]

theorem addedSame {i : Nat} {e f : ZipEntry} (same : Same e f) {b b' : Build} (added : Added i e b b') :
    Added i f b b' := by
  obtain ⟨start, length, stop⟩ := offsetsSame same
  have begins : e.mCDE.mLocalHeaderRelOffset = f.mCDE.mLocalHeaderRelOffset := by rw [same.mCDE]
  have size := sizeSame same
  have amount := paddingSame same b.preShadowStop
  cases added with
  | merged ps p table file adjacent aligned =>
    rw [size, stop]
    exact .merged ps p table file (adjacent.trans begins) (amount ▸ aligned)
  | moved unaligned header written =>
    rw [length, start, stop]
    exact .moved (amount ▸ unaligned) header (by rw [written, paddedSame same])
  | fresh aligned =>
    rw [size, stop, begins]
    exact .fresh (amount ▸ aligned)

theorem addEntrySame {e f e' : ZipEntry} (same : Same e f) {b b' : Build}
    (h : addEntryToPartition e b = .ok (e', b')) : ∃ f', addEntryToPartition f b = .ok (f', b') := by
  obtain ⟨filename, named, h⟩ := exceptBind h
  have begins : e.getEntryBegin = f.getEntryBegin := by simp only [ZipEntry.getEntryBegin, same.mCDE]
  have starts : e.getFileOffset = f.getFileOffset := by simp only [ZipEntry.getFileOffset, same.mCDE, same.mLFH]
  have descriptor : e.hasDD = f.hasDD := by simp only [ZipEntry.hasDD, same.mLFH]
  have ends : e.getEntryEnd = f.getEntryEnd := by simp only [ZipEntry.getEntryEnd, starts, descriptor, same.mCDE]
  have amount : entryPadding e filename b.preShadowStop = entryPadding f filename b.preShadowStop := by
    simp only [entryPadding, compressedSame same, same.mLFH]
  have named' : f.getFileName = .ok filename := by
    rw [ZipEntry.getFileName, ← same.mCDE]
    exact named
  rw [addEntryToPartition, exceptOk named']
  dsimp only at h ⊢
  rw [begins, starts, ends, amount, same.mUserData1] at h
  split at h
  · rename_i merge
    rw [if_pos merge]
    split at h
    · cases h
    · obtain ⟨_, rfl⟩ := Prod.mk.inj (Except.ok.inj h)
      exact ⟨_, rfl⟩
  · rename_i apart
    rw [if_neg apart]
    split at h
    · rename_i some
      rw [if_pos some]
      split at h
      · cases h
      · rename_i left
        obtain ⟨f', right⟩ := addPaddingSome f some
        have header := addPaddingSame same left right
        rw [header] at h
        rw [right]
        cases h
        exact ⟨_, rfl⟩
    · rename_i none
      rw [if_neg none]
      cases h
      exact ⟨_, rfl⟩

theorem fitSame {e f : ZipEntry} (same : Same e f) (fit : Fit f) : Fit e := by
  obtain ⟨name, offset, size⟩ := fit
  refine ⟨?_, ?_, ?_⟩
  · rwa [ZipEntry.getFileName, same.mCDE]
  · rwa [same.mCDE]
  · rwa [sizeSame same]

structure Follows (heap : Heap) (place : Nat) (s : Loop) : Prop where
  place : s.build.preShadowStop = place
  same : ∀ t, Same (s.heap t) (heap t)

theorem emitFollows {r : EntryRef} {s marked next : Loop} {heap : Heap} {place : Nat} (follows : Follows heap place s)
    (ready : Ready s.build) (fit : Fit (heap r)) (low : place < 2 ^ 62)
    (header : s.build.header.length + headerPart (heap r) place < 2 ^ 31)
    (before : marked = s ∨ marked = mark r s) (step : emit r marked = .ok next) :
    (∃ e', addEntryToPartition (heap r) s.build = .ok (e', next.build)) ∧
      Added (heap r).mUserData1 (heap r) s.build next.build ∧
      Follows (Function.update heap r (settled (heap r) place)) (place + emittedLength (heap r) place) next := by
  obtain ⟨there, same⟩ := follows
  obtain ⟨marking, _, build, _⟩ := markedSame before
  obtain ⟨e', b', added, rfl⟩ := emitCases step
  have alike : ∀ t, Same (marked.heap t) (heap t) := fun t => (marking t).trans (same t)
  have own := alike r
  have part : headerPart (marked.heap r) place = headerPart (heap r) place := by
    rw [headerPart, headerPart, paddingSame own, paddedSame own]
  rw [build] at added
  obtain ⟨b'', again, way⟩ := addEntryAdded ready (fitSame own fit) (there ▸ low) (by rw [there, part]; exact header)
  obtain ⟨rfl, rfl⟩ := Prod.mk.inj (Except.ok.inj (again.symm.trans added))
  have joined := addedSame own way
  rw [own.1] at joined
  refine ⟨addEntrySame own added, joined, ?_, fun t => ?_⟩
  · rw [addedPlace joined, there]
  · obtain ⟨cde, user, _⟩ := paddedKeeps (marked.heap r) place
    by_cases here : t = r
    · subst t
      simp only [Function.update_self, settled, ZipEntry.setLFHOffset, build, there]
      refine ⟨?_, ?_, ?_⟩ <;> dsimp only
      · rw [user, (paddedKeeps (heap r) place).2.1, own.1]
      · exact paddedSame own place
      · rw [cde, own.mCDE, u64OfI64 (by omega)]
    · simp only [Function.update_of_ne here]
      exact alike t

theorem emitsFollow {rs : List EntryRef} {s s' : Loop} (run : Emits rs s s') {heap : Heap} {place : Nat}
    (follows : Follows heap place s) (ready : Ready s.build) (fit : ∀ c ∈ plan rs heap place, Fit c.entry)
    (low : placeAfter place ((plan rs heap place).map Emission.entry) < 2 ^ 62)
    (header : s.build.header.length + headerAfter place ((plan rs heap place).map Emission.entry) < 2 ^ 31) :
    addEntries ((plan rs heap place).map Emission.entry) s.build = .ok s'.build ∧
      Joins ((plan rs heap place).map Emission.entry) s.build s'.build ∧
      Follows (heapAfter rs heap place) (placeAfter place ((plan rs heap place).map Emission.entry)) s' := by
  induction run generalizing heap place with
  | nil => exact ⟨rfl, .nil _, follows⟩
  | @cons r rs s marked next last before step rest ih =>
    simp only [plan, List.map_cons, placeAfter, headerAfter] at low header
    have later := placeAfterLe (place + emittedLength (heap r) place)
      ((plan rs (Function.update heap r (settled (heap r) place)) (place + emittedLength (heap r) place)).map
        Emission.entry)
    obtain ⟨⟨_, called⟩, added, further⟩ := emitFollows follows ready (fit _ List.mem_cons_self) (by omega) (by omega) before step
    have grown := (addedGrows added).2
    rw [follows.place] at grown
    obtain ⟨calls, joins, last⟩ := ih further (addedReady ready added) (fun c mem => fit c (List.mem_cons_of_mem _ mem)) low
      (by rw [grown]; omega)
    exact ⟨by rw [plan, List.map_cons, addEntries, exceptOk called]; exact calls, .cons added joins, last⟩

theorem foundOffset {raw : Bytes} {e : ZipEntry} (found : e.FoundIn raw) : e.mCDE.mLocalHeaderRelOffset < 2 ^ 31 := by
  have long := found.mCDE.ranged.mLocalHeaderRelOffset
  have positive := found.offset
  unfold IsLong longOfWord u64 i32 at long
  unfold i64 at positive
  omega

/-- The sizes stay within the integers that the code keeps them in. -/
structure Sized (disk : Disk) : Prop where
  entries : ∀ c ∈ planned disk, entrySize c.entry < 2 ^ 31
  place : placeAfter 0 (plannedEntries disk) < 2 ^ 62
  header : headerAfter 0 (plannedEntries disk) < 2 ^ 31

section
variable {patchDir sysApkFile : Bytes} {disk : Disk} {res : Result}

theorem plannedFrom (run : InitRun patchDir sysApkFile disk res) {c : Emission} (mem : c ∈ planned disk) :
    (c.ref ∈ apkRefs disk ∨ c.ref ∈ patchRefs disk) ∧ c.entry.mUserData1 = c.ref.1 ∧ c.ref.1 ≠ 1 ∧
      FileEntry (archiveFiles disk c.ref.1) { entries disk c.ref with mUserData1 := 0 } ∧
      Descends (entries disk c.ref) c.entry := by
  obtain ⟨known, descends, _⟩ := planSource mem
  have source := orderKnown run known
  obtain ⟨path, _, e, own, same, file, other⟩ := entryOf source
  have fileEntry := parsedFiles own
  have alike : ({ entries disk c.ref with mUserData1 := 0 } : ZipEntry) = e := by
    rw [same, ← fileEntry.fresh.1]
  refine ⟨source, ?_, other, ?_, descends⟩
  · rw [descends.file, same]
  · rw [alike, file]
    exact fileEntry

theorem plannedFit (run : InitRun patchDir sysApkFile disk res) (sized : Sized disk) {c : Emission}
    (mem : c ∈ planned disk) : Fit c.entry := by
  obtain ⟨_, _, _, fileEntry, _, ⟨_, record⟩, _⟩ := plannedFrom run mem
  obtain ⟨filename, named, isFile⟩ := fileEntry.name
  have low := foundOffset fileEntry.found
  refine ⟨⟨filename, ?_, isFile⟩, ?_, sized.entries c mem⟩
  · rw [ZipEntry.getFileName, record]
    exact named
  · obtain ⟨before, after, split⟩ := List.append_of_mem mem
    have total := sized.place
    have place := planPlace split
    have later := placeAfterLe (placeAfter 0 (before.map Emission.entry)) ((c :: after).map Emission.entry)
    rw [← placeAfterAppend, ← List.map_append, ← split, ← place] at later
    rcases (planSource mem).2.2 with same | rewritten
    · rw [same]
      exact Nat.lt_of_lt_of_le low (by decide)
    · unfold plannedEntries at total
      omega

theorem initFollows (run : InitRun patchDir sysApkFile disk res) (sized : Sized disk) :
    ∃ s, res = finish (allFilesOf patchDir sysApkFile disk) s ∧ s.allEntries = order disk ∧
      addEntries (plannedEntries disk) startBuild = .ok s.build ∧ Joins (plannedEntries disk) startBuild s.build ∧
      Follows (heapAfter (order disk) (entries disk) 0) (placeAfter 0 (plannedEntries disk)) s := by
  obtain ⟨s, emits, same⟩ := run.run
  have start : Follows (entries disk) 0 (startLoop disk) := ⟨rfl, fun _ => ⟨rfl, rfl, rfl⟩⟩
  have header := sized.header
  obtain ⟨calls, joins, follows⟩ := emitsFollow emits start startReady (fun c mem => plannedFit run sized mem)
    sized.place (by simpa [startLoop, startBuild, plannedEntries, planned] using header)
  exact ⟨s, same, (emitsKeeps emits).2.2, calls, joins, follows⟩

end

end Bootstrap.ShadowZip
