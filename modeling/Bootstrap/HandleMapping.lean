import Bootstrap.RecordLookup

/-! Runs of hooked calls: the records that can be found through the descriptors are a table
from descriptors to the records that their opens made. -/
namespace Bootstrap.FileMapping
open CInt ByteLayout OpenFiles
open Bootstrap.ShadowZip (text)
open ShadowStream (ShadowZip SEEK_SET)
open PlainFile (Memory)

inductive Event where
  | myOpen (path : Bytes) (flags : Flags) (given : Given)
  | myFopen (path : Bytes) (mode : Flags) (given : Given)
  | myRead (fd : Int) (buf : Memory) (nbyte : Nat)
  | myLseek (fd offset : Int) (whence : Nat)
  | myClose (fd : Int)
  | myFseek (stream : Nat) (offset : Int) (whence : Nat) (libc : Stdio Int)
  | myFtell (stream : Nat) (libc : Stdio Int)
  | myFread (ptr : Memory) (size nmemb stream : Nat) (libc : Stdio (Nat × Memory))
  | myFgets (s : Memory) (size : Int) (stream : Nat) (libc : Stdio (Option Memory))
  | myFclose (stream : Nat)

def step (p : Process) (w : World) : Event → Except Fault World
  | .myOpen path flags given => Prod.snd <$> myOpen p w path flags given
  | .myFopen path mode given => Prod.snd <$> myFopen p w path mode given
  | .myRead fd buf nbyte => Prod.snd <$> myRead p w fd buf nbyte
  | .myLseek fd offset whence => Prod.snd <$> myLseek p w fd offset whence
  | .myClose fd => Prod.snd <$> myClose p w fd
  | .myFseek stream offset whence libc => Prod.snd <$> myFseek p w stream offset whence libc
  | .myFtell stream libc => Prod.snd <$> myFtell p w stream libc
  | .myFread ptr size nmemb stream libc => Prod.snd <$> myFread p w ptr size nmemb stream libc
  | .myFgets s size stream libc => Prod.snd <$> myFgets p w s size stream libc
  | .myFclose stream => Prod.snd <$> myFclose p w stream

/-- The record of each shadow descriptor that is not closed. -/
abbrev Table := Int → Option FileExtraData

def recordOf (t : Table) (fd : Int) : Nat :=
  match t fd with
  | none => NULL
  | some r => r.self

inductive Effect where
  | none
  | opened (r : FileExtraData)
  | failed (zip : Nat)
  | closed (r : FileExtraData)

def Effect.table (t : Table) : Effect → Table
  | .none => t
  | .opened r => Function.update t r.fd (some r)
  | .failed _ => t
  | .closed r => Function.update t r.fd Option.none

def Effect.notes : Effect → List Note
  | .none => []
  | .opened r => [.newZip r.shadowZip, .newRecord r.self]
  | .failed zip => [.newZip zip, .deletedZip zip]
  | .closed r => [.deletedZip r.shadowZip, .deletedRecord r.self]

def newRecord (p : Process) (given : Given) : FileExtraData where
  magicNum := MY_MAGIC_NUM
  self := given.record
  shadowZip := given.zip
  file := given.stream
  mmapBuffer := if p.useSharedMem then given.buffer else NULL
  fd := given.fd

def zipOpens (p : Process) (given : Given) : Bool :=
  match ShadowStream.fopen p.files (ShadowStream.shadowZip p.data given.pos) with
  | .ok (some _, _) => true
  | _ => false

def opening (p : Process) (w : World) (path : Bytes) (given : Given) : Effect :=
  if isApk p w path then if zipOpens p given then .opened (newRecord p given) else .failed given.zip else .none

def closing (t : Table) (fd : Int) : Effect :=
  match t fd with
  | none => .none
  | some r => .closed r

def effect (p : Process) (t : Table) (w : World) : Event → Effect
  | .myOpen path _ given => opening p w path given
  | .myFopen path _ given => opening p w path given
  | .myClose fd => closing t fd
  | .myFclose stream =>
    match w.streams stream with
    | none => .none
    | some fd => closing t fd
  | _ => .none

structure Free (w : World) (given : Given) : Prop where
  fd : 0 ≤ given.fd ∧ given.fd < 2 ^ 31
  fdFree : w.fds given.fd = none
  node : w.Unused given.node
  stream : given.stream ≠ NULL ∧ given.stream < 2 ^ 64
  streamFree : w.streams given.stream = none
  record : given.record ≠ NULL ∧ given.record < 2 ^ 64
  recordFree : w.records given.record = none
  zip : given.zip ≠ NULL ∧ given.zip < 2 ^ 64
  zipFree : w.zips given.zip = none
  buffer : given.buffer < 2 ^ 64

/-- An ordinary file: no region of the device; in file mode not one in the mapping directory, and
not beginning with a record of the descriptor that it is opened on. -/
structure Ordinary (p : Process) (w : World) (path : Bytes) (given : Given) : Prop where
  regular : p.fileId (w.nodeOf path given.node) ≠ p.shmId
  elsewhere : p.useSharedMem = false → ∀ record, path ≠ savePath p record
  notOwn : p.useSharedMem = false → ∀ node, w.names path = some node → ¬OwnImage (w.contents node) given.fd

def OpenAllowed (p : Process) (w : World) (path : Bytes) (given : Given) : Prop :=
  Free w given ∧ if isApk p w path ∧ zipOpens p given then p.useSharedMem = true → p.fileId given.node = p.shmId
    else Ordinary p w path given

def Allowed (p : Process) (w : World) : Event → Prop
  | .myOpen path _ given => OpenAllowed p w path given
  | .myFopen path _ given => OpenAllowed p w path given
  | .myFseek stream _ _ _ => (w.streams stream).isSome
  | .myFtell stream _ => (w.streams stream).isSome
  | .myFread _ _ _ stream _ => (w.streams stream).isSome
  | .myFgets _ _ stream _ => (w.streams stream).isSome
  | .myFclose stream => (w.streams stream).isSome
  | _ => True

def Saved (p : Process) (t : Table) (given : Given) : Prop :=
  p.useSharedMem = false → FileExtraData.sizeOf ≤ given.written ∧
    ∀ fd r, t fd = some r → savePath p r.self ≠ savePath p given.record

def SavedEvent (p : Process) (t : Table) (w : World) : Event → Prop
  | .myOpen path _ given => isApk p w path = true → Saved p t given
  | .myFopen path _ given => isApk p w path = true → Saved p t given
  | _ => True

structure Fresh (p : Process) (w : World) : Prop where
  records : ∀ a, w.records a = none
  zips : ∀ a, w.zips a = none
  notes : w.notes = []
  foreign : ∀ fd f, w.fds fd = some f → Foreign p w.contents fd f.node
  sole : p.useSharedMem = false → ∀ record node path, w.names (savePath p record) = some node →
    w.names path = some node → path = savePath p record

inductive Reached (p : Process) (condition : Table → World → Event → Prop) : Table → World → Prop where
  | start {w} (fresh : Fresh p w) : Reached p condition (fun _ => none) w
  | call {t w e w'} (before : Reached p condition t w) (allowed : Allowed p w e) (met : condition t w e)
      (done : step p w e = .ok w') : Reached p condition ((effect p t w e).table t) w'

/-- The property: the table is exact, its records and ShadowZips are the ones that live, each
goes with the close of its descriptor, no call reaches one that is gone, and descriptors outside
the table get the calls of libc. -/
structure Exact (p : Process) (t : Table) (w : World) : Prop where
  mapping : ∀ fd, getMapping p w fd = (recordOf t fd, w)
  own : ∀ fd r, t fd = some r → r.fd = fd ∧ r.self ≠ NULL ∧ w.records r.self = some r
  records : ∀ a, (w.records a).isSome ↔ ∃ fd r, t fd = some r ∧ r.self = a
  zips : ∀ a, (w.zips a).isSome ↔ ∃ fd r, t fd = some r ∧ r.shadowZip = a
  recordsOnce : ∀ a, w.notes.count (.newRecord a) =
    w.notes.count (.deletedRecord a) + if (w.records a).isSome then 1 else 0
  zipsOnce : ∀ a, w.notes.count (.newZip a) = w.notes.count (.deletedZip a) + if (w.zips a).isSome then 1 else 0
  deletes : ∀ e w', Allowed p w e → step p w e = .ok w' → w'.notes = w.notes ++ (effect p t w e).notes
  reaches : ∀ e, Allowed p w e → step p w e ≠ .error .dangling
  readsRaw : ∀ fd, t fd = none → ∀ buf nbyte, myRead p w fd buf nbyte = .ok (rawRead fd buf nbyte w)
  seeksRaw : ∀ fd, t fd = none → ∀ offset whence, myLseek p w fd offset whence = .ok (rawLseek fd offset whence w)
  closesRaw : ∀ fd, t fd = none → myClose p w fd = .ok (rawClose fd w)

structure Linked (p : Process) (t : Table) (k : Kernel) : Prop where
  mapped : ∀ fd r, t fd = some r → Mapped p k fd r
  named : p.useSharedMem = false → ∀ fd r f path, t fd = some r → k.fds fd = some f → k.names path = some f.node →
    path = savePath p r.self
  foreign : ∀ fd f, t fd = none → k.fds fd = some f → Foreign p k.contents fd f.node
  sole : p.useSharedMem = false → ∀ record node path, k.names (savePath p record) = some node →
    k.names path = some node → path = savePath p record

section
variable {p : Process} {t : Table} {k : Kernel}

theorem linkedFound (linked : Linked p t k) (fd : Int) : found p k fd = recordOf t fd := by
  unfold recordOf
  cases entry : t fd with
  | some r => exact mappedFound (linked.mapped fd r entry)
  | none =>
    cases here : k.fds fd with
    | none => exact closedFound here
    | some f => exact foreignFound here (linked.foreign fd f entry here)

theorem freeAbsent (linked : Linked p t k) {fd : Int} (free : k.fds fd = none) : t fd = none := by
  cases entry : t fd with
  | none => rfl
  | some r =>
    obtain ⟨node, here, _⟩ := (linked.mapped fd r entry).behind
    rw [free] at here
    cases here

theorem mappedFrame {k' : Kernel} {fd : Int} {r : FileExtraData} (mapped : Mapped p k fd r) (same : k'.fds fd = k.fds fd)
    (content : ∀ f, k.fds fd = some f → k'.contents f.node = k.contents f.node) : Mapped p k' fd r := by
  obtain ⟨node, here, holds, region⟩ := mapped.behind
  exact ⟨mapped.magicNum, mapped.own, mapped.fits, mapped.self, node, same.trans here,
    (content _ here).trans holds, region⟩

theorem linkedMove (linked : Linked p t k) {fd : Int} (absent : t fd = none) {k' : Kernel} (moves : k.Moves fd k') :
    Linked p t k' := by
  obtain ⟨f, rfl, onOld⟩ := moves
  have apart : ∀ other r, t other = some r → other ≠ fd := fun other r entry => entryApart absent entry
  refine ⟨fun other r entry => ?_, fun filed other r g path entry here name => ?_, fun other g entry here => ?_,
    linked.sole⟩
  · exact mappedFrame (linked.mapped other r entry) (Kernel.setFileOther k (apart other r entry) f) (fun _ _ => rfl)
  · rw [Kernel.setFileOther k (apart other r entry)] at here
    exact linked.named filed other r g path entry here name
  · by_cases same : other = fd
    · subst same
      rw [Kernel.setFileHere] at here
      obtain ⟨old, was, node⟩ := onOld g here
      rw [node]
      exact linked.foreign other old absent was
    · rw [Kernel.setFileOther k same] at here
      exact linked.foreign other g entry here

theorem emptyNotOwn {fd : Int} : ¬OwnImage [] fd := fun own => absurd own.1 (by decide)

theorem linkedOpen (linked : Linked p t k) {k' : Kernel} {path : Bytes} {fd : Int} {n : Nat} {readable : Bool}
    (free : k.fds fd = none) (fds : k'.fds = Function.update k.fds fd (some ⟨n, 0, readable⟩))
    (names : k'.names = Function.update k.names path (some n)) (contents : ∀ m, m ≠ n → k'.contents m = k.contents m)
    (apart : ∀ other r f, t other = some r → k.fds other = some f → f.node ≠ n)
    (own : Foreign p k'.contents fd n) (others : ∀ other, Foreign p k.contents other n → Foreign p k'.contents other n)
    (ordinary : p.useSharedMem = false → (∀ record, path ≠ savePath p record) ∧
      (k.names path = some n ∨ ∀ path, k.names path ≠ some n)) : Linked p t k' := by
  have absent := freeAbsent linked free
  have same : ∀ other r, t other = some r → k'.fds other = k.fds other := by
    intro other r entry
    rw [fds, Function.update_of_ne (entryApart absent entry)]
  refine ⟨fun other r entry => ?_, fun filed other r f q entry here name => ?_, fun other f entry here => ?_,
    fun filed record m q saved name => ?_⟩
  · exact mappedFrame (linked.mapped other r entry) (same other r entry)
      (fun f here => contents _ (apart other r f entry here))
  · rw [same other r entry] at here
    rw [names] at name
    rcases putEntry.mp name with ⟨rfl, hit⟩ | ⟨_, name⟩
    · exact absurd hit.symm (apart other r f entry here)
    · exact linked.named filed other r f q entry here name
  · rw [fds] at here
    rcases putEntry.mp here with ⟨rfl, rfl⟩ | ⟨_, here⟩
    · exact own
    · have was := linked.foreign other f entry here
      by_cases hit : f.node = n
      · rw [hit] at was ⊢
        exact others other was
      · refine ⟨was.regular, fun filed => ?_⟩
        rw [contents _ hit]
        exact was.other filed
  · obtain ⟨elsewhere, known⟩ := ordinary filed
    rw [names] at saved name
    rw [Function.update_of_ne (elsewhere record).symm] at saved
    rcases putEntry.mp name with ⟨rfl, rfl⟩ | ⟨_, name⟩
    · rcases known with known | unnamed
      · exact linked.sole filed record n path saved known
      · exact absurd saved (unnamed _)
    · exact linked.sole filed record m q saved name

theorem linkedRawOpen {w : World} (linked : Linked p t w.toKernel) {path : Bytes} {flags : Flags} {given : Given}
    {k' : Kernel} (free : Free w given) (ordinary : Ordinary p w path given)
    (opened : w.openFile path flags given.fd given.node = some k') : Linked p t k' := by
  obtain ⟨fds, names, contents, content⟩ := Kernel.openFileCases opened
  have nodes := Kernel.nodeOfCases w.toKernel path given.node
  have regular := ordinary.regular
  generalize w.nodeOf path given.node = n at fds names contents content nodes regular
  have known : w.names path = some n ∨ ∀ path, w.names path ≠ some n := by
    rcases nodes with known | ⟨_, fresh⟩
    · exact .inl known
    · exact .inr (fresh ▸ free.node.unnamed)
  have others : ∀ other, Foreign p w.contents other n → Foreign p k'.contents other n := by
    intro other was
    refine ⟨was.regular, fun filed => ?_⟩
    rcases content with empty | ⟨_, same⟩
    · rw [empty]
      exact emptyNotOwn
    · rw [same]
      exact was.other filed
  have own : Foreign p k'.contents given.fd n := by
    refine ⟨regular, fun filed => ?_⟩
    rcases content with empty | ⟨known, same⟩
    · rw [empty]
      exact emptyNotOwn
    · rw [same]
      exact ordinary.notOwn filed n known
  refine linkedOpen linked free.fdFree fds names contents ?_ own others (fun filed => ⟨ordinary.elsewhere filed, known⟩)
  rintro other r f entry here rfl
  cases shared : p.useSharedMem with
  | true =>
    obtain ⟨node, behind, _, region⟩ := (linked.mapped other r entry).behind
    rw [behind] at here
    cases here
    exact regular (region shared)
  | false =>
    rcases nodes with known | ⟨_, fresh⟩
    · exact ordinary.elsewhere shared _ (linked.named shared other r f path entry here known)
    · exact free.node.unopened other f here fresh

theorem linkedNew (linked : Linked p t k) {k' : Kernel} {r : FileExtraData} {n : Nat}
    (magicNum : r.magicNum = MY_MAGIC_NUM) (fits : r.Fits) (self : r.self ≠ NULL)
    (fds : k'.fds = Function.update k.fds r.fd (some ⟨n, 0, true⟩))
    (contents : k'.contents = Function.update k.contents n r.image)
    (region : p.useSharedMem = true → p.fileId n = p.shmId)
    (apart : ∀ other s f, t other = some s → k.fds other = some f → f.node ≠ n)
    (filed : p.useSharedMem = false → k'.names = Function.update k.names (savePath p r.self) (some n) ∧
      (k.names (savePath p r.self) = some n ∨ ∀ path, k.names path ≠ some n)) :
    Linked p (Function.update t r.fd (some r)) k' := by
  have sole : p.useSharedMem = false → ∀ q, k'.names q = some n → q = savePath p r.self := by
    intro inFiles q name
    obtain ⟨names, known⟩ := filed inFiles
    by_contra away
    rw [names, Function.update_of_ne away] at name
    rcases known with known | unnamed
    · exact away (linked.sole inFiles r.self n q known name)
    · exact unnamed q name
  have same : ∀ other, other ≠ r.fd → k'.fds other = k.fds other := fun other away => by
    rw [fds, Function.update_of_ne away]
  refine ⟨fun other s entry => ?_, fun inFiles other s f q entry here name => ?_, fun other f entry here => ?_,
    fun inFiles record m q saved name => ?_⟩
  · rcases putEntry.mp entry with ⟨rfl, rfl⟩ | ⟨new, entry⟩
    · exact ⟨magicNum, rfl, fits, self, n, by rw [fds, Function.update_self], by rw [contents, Function.update_self], region⟩
    · refine mappedFrame (linked.mapped other s entry) (same other new) (fun f here => ?_)
      rw [contents, Function.update_of_ne (apart other s f entry here)]
  · rcases putEntry.mp entry with ⟨rfl, rfl⟩ | ⟨new, entry⟩
    · rw [fds, Function.update_self] at here
      cases here
      exact sole inFiles q name
    · rw [same other new] at here
      obtain ⟨names, _⟩ := filed inFiles
      rw [names] at name
      rcases putEntry.mp name with ⟨_, hit⟩ | ⟨_, name⟩
      · exact absurd hit.symm (apart other s f entry here)
      · exact linked.named inFiles other s f q entry here name
  · by_cases new : other = r.fd
    · subst new
      rw [Function.update_self] at entry
      cases entry
    · rw [Function.update_of_ne new] at entry
      rw [same other new] at here
      have was := linked.foreign other f entry here
      refine ⟨was.regular, fun inFiles => ?_⟩
      by_cases hit : f.node = n
      · rw [hit, contents, Function.update_self]
        exact fun own => new (imageOwner fits own).symm
      · rw [contents, Function.update_of_ne hit]
        exact was.other inFiles
  · by_cases hit : m = n
    · subst hit
      rw [sole inFiles q name, sole inFiles _ saved]
    · obtain ⟨names, _⟩ := filed inFiles
      have away : ∀ q, k'.names q = some m → k.names q = some m := by
        intro q name
        rw [names] at name
        rcases putEntry.mp name with ⟨_, own⟩ | ⟨_, name⟩
        · exact absurd own.symm hit
        · exact name
      exact linked.sole inFiles record m q (away _ saved) (away q name)

theorem newRecordFits {w : World} {given : Given} (free : Free w given) : (newRecord p given).Fits := by
  refine ⟨show MY_MAGIC_NUM < 2 ^ 64 by decide, free.record.2, free.zip.2, free.stream.2, ?_, ?_⟩
  · unfold newRecord
    dsimp only
    split
    · exact free.buffer
    · decide
  · have := free.fd
    dsimp only [newRecord]
    omega

def saved (k : Kernel) (path : Bytes) (fd : Int) (node : Nat) (bytes : Bytes) : Kernel where
  fds := Function.update k.fds fd (some ⟨k.nodeOf path node, 0, true⟩)
  contents := Function.update k.contents (k.nodeOf path node) bytes
  names := Function.update k.names path (some (k.nodeOf path node))

theorem openSaved (k : Kernel) (path : Bytes) (fd : Int) (node : Nat) :
    k.openFile path wbPlus fd node = some (saved k path fd node []) := by
  unfold Kernel.openFile saved Kernel.nodeOf
  cases name : k.names path with
  | none => rfl
  | some n =>
    have same : Function.update k.names path (some n) = k.names := by rw [← name, Function.update_eq_self]
    simp only [Option.getD_some, same]
    rfl

theorem writeSaved (k : Kernel) (path : Bytes) (fd : Int) (node : Nat) (bytes : Bytes) :
    (((saved k path fd node []).write fd bytes).lseek fd 0 SEEK_SET).2 = saved k path fd node bytes := by
  have here : (saved k path fd node []).fds fd = some ⟨k.nodeOf path node, 0, true⟩ := Function.update_self _ _ _
  have empty : (saved k path fd node []).contents (k.nodeOf path node) = [] := Function.update_self _ _ _
  have written : (saved k path fd node []).write fd bytes =
      { saved k path fd node bytes with
        fds := Function.update k.fds fd (some ⟨k.nodeOf path node, bytes.length, true⟩) } := by
    simp only [Kernel.write, here, empty]
    simp [saved, Kernel.setFile]
  rw [written, SEEK_SET, Kernel.lseekStart (f := ⟨k.nodeOf path node, bytes.length, true⟩) (Function.update_self _ _ _)]
  simp [saved, Kernel.setFile]

def savedKernel (p : Process) (k : Kernel) (given : Given) : Kernel :=
  if p.useSharedMem then
    { k.setFile given.fd (some ⟨given.node, 0, true⟩) with
      contents := Function.update k.contents given.node (newRecord p given).image }
  else saved k (savePath p given.record) given.fd given.node ((newRecord p given).image.take given.written)

theorem linkedSaved {w : World} (linked : Linked p t w.toKernel) {given : Given} (free : Free w given)
    (region : p.useSharedMem = true → p.fileId given.node = p.shmId) (whole : Saved p t given) :
    Linked p (Function.update t given.fd (some (newRecord p given))) (savedKernel p w.toKernel given) := by
  have fits := newRecordFits (p := p) free
  have self : (newRecord p given).self ≠ NULL := free.record.1
  by_cases shared : p.useSharedMem = true
  · rw [savedKernel, if_pos shared]
    exact linkedNew linked rfl fits self rfl rfl region (fun other r f _ here => free.node.unopened other f here)
      (fun filed => absurd shared (Bool.eq_false_iff.mp filed))
  · have filed := Bool.eq_false_iff.mpr shared
    obtain ⟨written, ownPath⟩ := whole filed
    have all : (newRecord p given).image.take given.written = (newRecord p given).image :=
      List.take_of_length_le (by rw [FileExtraData.imageLength]; exact written)
    rw [savedKernel, if_neg shared, all]
    have nodes := Kernel.nodeOfCases w.toKernel (savePath p given.record) given.node
    refine linkedNew linked rfl fits self rfl rfl (fun bad => absurd bad shared) ?_ (fun _ => ⟨rfl, ?_⟩)
    · rintro other r f entry here hit
      rcases nodes with known | ⟨_, fresh⟩
      · rw [← hit] at known
        exact ownPath other r entry (linked.named filed other r f _ entry here known).symm
      · exact free.node.unopened other f here (hit.trans fresh)
    · rcases nodes with known | ⟨_, fresh⟩
      · exact .inl known
      · exact .inr fun path => by
          rw [fresh]
          exact free.node.unnamed path

theorem linkedClosed (linked : Linked p t k) {k' : Kernel} {fd : Int}
    (fds : k'.fds = Function.update k.fds fd none) (contents : k'.contents = k.contents)
    (names : ∀ path n, k'.names path = some n → k.names path = some n) :
    Linked p (Function.update t fd none) k' := by
  refine ⟨fun other r entry => ?_, fun filed other r f path entry here name => ?_, fun other f entry here => ?_,
    fun filed record m path left right => linked.sole filed record m path (names _ _ left) (names _ _ right)⟩
  · obtain ⟨away, entry⟩ := clearedEntry.mp entry
    exact mappedFrame (linked.mapped other r entry) (by rw [fds, Function.update_of_ne away]) (fun f _ => by rw [contents])
  · obtain ⟨away, entry⟩ := clearedEntry.mp entry
    rw [fds, Function.update_of_ne away] at here
    exact linked.named filed other r f path entry here (names _ _ name)
  · rw [fds] at here
    obtain ⟨away, here⟩ := clearedEntry.mp here
    rw [Function.update_of_ne away] at entry
    rw [contents]
    exact linked.foreign other f entry here

end

structure Owned (t : Table) (w : World) : Prop where
  record : ∀ fd r, t fd = some r → w.records r.self = some r
  zip : ∀ fd r, t fd = some r → r.shadowZip ≠ NULL ∧ (w.zips r.shadowZip).isSome
  stream : ∀ fd r, t fd = some r → w.streams r.file = some fd
  zipApart : ∀ fd r other s, t fd = some r → t other = some s → r.shadowZip = s.shadowZip → fd = other
  recordsLive : ∀ a, (w.records a).isSome → ∃ fd r, t fd = some r ∧ r.self = a
  zipsLive : ∀ a, (w.zips a).isSome → ∃ fd r, t fd = some r ∧ r.shadowZip = a
  recordsOnce : ∀ a, w.notes.count (.newRecord a) =
    w.notes.count (.deletedRecord a) + if (w.records a).isSome then 1 else 0
  zipsOnce : ∀ a, w.notes.count (.newZip a) = w.notes.count (.deletedZip a) + if (w.zips a).isSome then 1 else 0

section
variable {p : Process} {t : Table} {w : World}

def created (p : Process) (w : World) (given : Given) (z : ShadowZip) : World where
  toKernel := savedKernel p w.toKernel given
  streams := Function.update w.streams given.stream (some given.fd)
  records := Function.update w.records given.record (some (newRecord p given))
  zips := Function.update w.zips given.zip (some z)
  notes := w.notes ++ [.newZip given.zip, .newRecord given.record]

theorem saveFileExact {given : Given} (granted : given.refused = false) (r : FileExtraData) :
    saveFileMapping p w r given = .ok ({ r with file := given.stream, fd := given.fd }, { w with
      toKernel := saved w.toKernel (savePath p r.self) given.fd given.node
        (({ r with file := given.stream, fd := given.fd } : FileExtraData).image.take given.written)
      streams := Function.update w.streams given.stream (some given.fd) }) := by
  have opened := openSaved w.toKernel (savePath p r.self) given.fd given.node
  unfold saveFileMapping
  rw [granted, if_neg Bool.false_ne_true, opened]
  simp only [writeSaved]

theorem saveMappingExact (p : Process) (w : World) (given : Given) :
    saveMapping p w given.zip given =
      if given.refused then .error (.stopped .exited)
      else .ok (newRecord p given, { w with
        toKernel := savedKernel p w.toKernel given
        streams := Function.update w.streams given.stream (some given.fd)
        records := Function.update w.records given.record (some (newRecord p given))
        notes := w.notes ++ [.newRecord given.record] }) := by
  unfold saveMapping
  cases granted : given.refused with
  | true =>
    by_cases shared : p.useSharedMem = true <;>
      simp only [saveMemMapping, saveFileMapping, granted, shared, if_true, if_false, Bool.false_eq_true] <;> rfl
  | false =>
    by_cases shared : p.useSharedMem = true
    · simp only [saveMemMapping, granted, shared, if_true, if_false, Bool.false_eq_true, newRecord, savedKernel]
      rfl
    · simp only [saveFileExact granted, shared, if_false, Bool.false_eq_true, newRecord, savedKernel]
      rfl

theorem openShadowCases {given : Given} (zip : given.zip ≠ NULL) (zipFree : w.zips given.zip = none) :
    (∃ stop, openShadow p w given = .error (.stopped stop)) ∨
    (zipOpens p given = false ∧ openShadow p w given =
      .ok (none, { w with notes := w.notes ++ [.newZip given.zip, .deletedZip given.zip] })) ∨
    (zipOpens p given = true ∧ ∃ z, openShadow p w given = .ok (some (newRecord p given), created p w given z)) := by
  unfold openShadow zipOpens
  cases opens : ShadowStream.fopen p.files (ShadowStream.shadowZip p.data given.pos) with
  | error stop => exact .inl ⟨stop, by simp only [opens, inZip]; rfl⟩
  | ok found =>
    obtain ⟨fp, z⟩ := found
    cases fp with
    | none =>
      refine .inr (.inl ⟨rfl, ?_⟩)
      have gone : Function.update (Function.update w.zips given.zip (some z)) given.zip none = w.zips := by
        rw [Function.update_idem, ← zipFree, Function.update_eq_self]
      simp only [opens, bind, Except.bind, inZip, deleteZip, if_neg zip, deref, Function.update_self, List.append_assoc,
        List.cons_append, List.nil_append]
      rw [gone]
      rfl
    | some fp =>
      cases refused : given.refused with
      | true =>
        refine .inl ⟨.exited, ?_⟩
        simp only [opens, bind, Except.bind, inZip, saveMappingExact, refused, if_true]
      | false =>
        refine .inr (.inr ⟨rfl, z, ?_⟩)
        simp only [opens, bind, Except.bind, inZip, saveMappingExact, refused, if_false, Bool.false_eq_true,
          List.append_assoc, List.cons_append, List.nil_append]
        rfl

theorem ownedFrame (owned : Owned t w) {w' : World} (records : w'.records = w.records) (zips : w'.zips = w.zips)
    (notes : w'.notes = w.notes) (streams : ∀ fd r, t fd = some r → w'.streams r.file = some fd) : Owned t w' where
  record := records ▸ owned.record
  zip := zips ▸ owned.zip
  stream := streams
  zipApart := owned.zipApart
  recordsLive := records ▸ owned.recordsLive
  zipsLive := zips ▸ owned.zipsLive
  recordsOnce := by rw [records, notes]; exact owned.recordsOnce
  zipsOnce := by rw [zips, notes]; exact owned.zipsOnce

theorem ownedFailed (owned : Owned t w) (zip : Nat) :
    Owned t { w with notes := w.notes ++ [.newZip zip, .deletedZip zip] } where
  record := owned.record
  zip := owned.zip
  stream := owned.stream
  zipApart := owned.zipApart
  recordsLive := owned.recordsLive
  zipsLive := owned.zipsLive
  recordsOnce a := by
    have before := owned.recordsOnce a
    simp only [List.count_append, List.count_cons, List.count_nil, beq_iff_eq, reduceCtorEq, if_false, Nat.add_zero]
    exact before
  zipsOnce a := by
    have before := owned.zipsOnce a
    simp only [List.count_append, List.count_cons, List.count_nil, Note.newZip.injEq, Note.deletedZip.injEq,
      beq_iff_eq, reduceCtorEq, if_false, Nat.add_zero, Nat.zero_add]
    omega

theorem updateSome {α : Type} {f : Nat → Option α} {here a : Nat} {x : α} (free : f here = none) :
    (if (Function.update f here (some x) a).isSome then 1 else 0) =
      (if (f a).isSome then 1 else 0) + if here = a then 1 else 0 := by
  by_cases same : a = here
  · subst same
    simp [free]
  · simp [Function.update_of_ne same, Ne.symm same]

theorem updateNone {α : Type} {f : Nat → Option α} {here a : Nat} (live : (f here).isSome) :
    (if (f a).isSome then 1 else 0) =
      (if (Function.update f here none a).isSome then 1 else 0) + if here = a then 1 else 0 := by
  by_cases same : a = here
  · subst same
    simp [live]
  · simp [Function.update_of_ne same, Ne.symm same]

theorem liveCreated {α : Type} {heap : Nat → Option α} {address : FileExtraData → Nat}
    (live : ∀ a, (heap a).isSome → ∃ fd r, t fd = some r ∧ address r = a) {fd : Int} (absent : t fd = none)
    (r : FileExtraData) (x : α) (a : Nat) (here : (Function.update heap (address r) (some x) a).isSome) :
    ∃ other s, Function.update t fd (some r) other = some s ∧ address s = a := by
  by_cases same : a = address r
  · exact ⟨fd, r, Function.update_self _ _ _, same.symm⟩
  · rw [Function.update_of_ne same] at here
    obtain ⟨other, s, entry, at_⟩ := live a here
    exact ⟨other, s, entryKept absent entry, at_⟩

theorem liveCleaned {α : Type} {heap : Nat → Option α} {address : FileExtraData → Nat}
    (live : ∀ a, (heap a).isSome → ∃ fd r, t fd = some r ∧ address r = a) {fd : Int} {r : FileExtraData}
    (entry : t fd = some r) (a : Nat) (here : (Function.update heap (address r) none a).isSome) :
    ∃ other s, Function.update t fd none other = some s ∧ address s = a := by
  obtain ⟨x, held⟩ := Option.isSome_iff_exists.mp here
  obtain ⟨away, held⟩ := clearedEntry.mp held
  obtain ⟨other, s, kept, at_⟩ := live a (Option.isSome_iff_exists.mpr ⟨x, held⟩)
  refine ⟨other, s, clearedEntry.mpr ⟨?_, kept⟩, at_⟩
  rintro rfl
  rw [entry] at kept
  cases kept
  exact away at_.symm

theorem ownedCreated (owned : Owned t w) {given : Given} (free : Free w given) (absent : t given.fd = none) (z : ShadowZip) :
    Owned (Function.update t given.fd (some (newRecord p given))) (created p w given z) := by
  have cases_ : ∀ {motive : Int → FileExtraData → Prop}, motive given.fd (newRecord p given) →
      (∀ fd r, fd ≠ given.fd → t fd = some r → motive fd r) →
      ∀ fd r, Function.update t given.fd (some (newRecord p given)) fd = some r → motive fd r := by
    intro motive new old fd r entry
    rcases putEntry.mp entry with ⟨rfl, rfl⟩ | ⟨away, entry⟩
    · exact new
    · exact old fd r away entry
  have zipNew : ∀ {fd r}, t fd = some r → r.shadowZip ≠ given.zip := by
    intro fd r entry same
    have live := (owned.zip fd r entry).2
    rw [same, free.zipFree] at live
    cases live
  refine ⟨cases_ ?_ fun fd r _ entry => ?_, cases_ ⟨free.zip.1, ?_⟩ fun fd r _ entry => ⟨(owned.zip fd r entry).1, ?_⟩,
    cases_ ?_ fun fd r _ entry => ?_, ?_, liveCreated owned.recordsLive absent (newRecord p given) _,
    liveCreated owned.zipsLive absent (newRecord p given) _, fun a => ?_, fun a => ?_⟩
  · exact Function.update_self _ _ _
  · exact entryKept free.recordFree (owned.record fd r entry)
  · simp [created, newRecord]
  · simp only [created]
    rw [Function.update_of_ne (zipNew entry)]
    exact (owned.zip fd r entry).2
  · exact Function.update_self _ _ _
  · exact entryKept free.streamFree (owned.stream fd r entry)
  · intro fd r other s left right
    revert fd r
    refine cases_ ?_ ?_
    · revert other s
      refine cases_ (fun _ => rfl) (fun other s _ entry same => absurd same.symm (zipNew entry))
    · intro fd r _ entry
      revert other s
      exact cases_ (fun same => absurd same (zipNew entry))
        (fun other s _ entry' same => owned.zipApart fd r other s entry entry' same)
  · have before := owned.recordsOnce a
    have grown : (if ((created p w given z).records a).isSome then 1 else 0) = _ := updateSome free.recordFree
    rw [grown]
    simp only [created, List.count_append, List.count_cons, List.count_nil, Note.newRecord.injEq, beq_iff_eq,
      reduceCtorEq, if_false, Nat.add_zero, Nat.zero_add]
    omega
  · have before := owned.zipsOnce a
    have grown : (if ((created p w given z).zips a).isSome then 1 else 0) = _ := updateSome free.zipFree
    rw [grown]
    simp only [created, List.count_append, List.count_cons, List.count_nil, Note.newZip.injEq, beq_iff_eq,
      reduceCtorEq, if_false, Nat.add_zero, Nat.zero_add]
    omega

def cleaned (p : Process) (w : World) (fd : Int) (r : FileExtraData) : World where
  toKernel := (if p.useSharedMem then w.toKernel else w.unlink (savePath p r.self)).setFile fd none
  streams := Function.update w.streams r.file none
  records := Function.update w.records r.self none
  zips := Function.update w.zips r.shadowZip none
  notes := w.notes ++ [.deletedZip r.shadowZip, .deletedRecord r.self]

theorem derefSome {α : Type} {heap : Nat → Option α} {a : Nat} {x : α} (here : heap a = some x) :
    deref heap a = .ok x := by
  simp only [deref, here]

theorem cleanExact (linked : Linked p t w.toKernel) (owned : Owned t w) {fd : Int} {r : FileExtraData}
    (entry : t fd = some r) : cleanMappingData p w r.self = .ok (cleaned p w fd r) := by
  have mapped := linked.mapped fd r entry
  obtain ⟨node, here, _⟩ := mapped.behind
  have record := derefSome (owned.record fd r entry)
  have stream := derefSome (owned.stream fd r entry)
  obtain ⟨z, zip⟩ := Option.isSome_iff_exists.mp (owned.zip fd r entry).2
  have zipHere := derefSome zip
  have zipSome := (owned.zip fd r entry).1
  have recordSome := mapped.self
  unfold cleanMappingData
  by_cases shared : p.useSharedMem = true
  · have closed := Kernel.closeOpen here
    simp only [shared, if_true, record, bind, Except.bind, fclose, stream, closed, deleteZip, if_neg zipSome, zipHere,
      deleteRecord, if_neg recordSome, pure, Except.pure, cleaned, List.append_assoc, List.cons_append, List.nil_append]
  · have closed := Kernel.closeOpen (k := w.unlink (savePath p r.self)) here
    simp only [shared, if_false, Bool.false_eq_true, record, bind, Except.bind, fclose, stream, closed, deleteZip,
      if_neg zipSome, zipHere, deleteRecord, if_neg recordSome, pure, Except.pure, cleaned, List.append_assoc,
      List.cons_append, List.nil_append]

theorem linkedCleaned (linked : Linked p t w.toKernel) (fd : Int) (r : FileExtraData) :
    Linked p (Function.update t fd none) (cleaned p w fd r).toKernel := by
  by_cases shared : p.useSharedMem = true
  · refine linkedClosed linked ?_ ?_ ?_ <;> simp only [cleaned, shared, if_true]
    · rfl
    · rfl
    · exact fun path n name => name
  · refine linkedClosed linked ?_ ?_ ?_ <;> simp only [cleaned, shared, if_false, Bool.false_eq_true]
    · rfl
    · rfl
    · intro path n name
      simp only [Kernel.setFileNames, Kernel.unlink] at name
      exact (clearedEntry.mp name).2

theorem ownedCleaned (linked : Linked p t w.toKernel) (owned : Owned t w) {fd : Int} {r : FileExtraData}
    (entry : t fd = some r) : Owned (Function.update t fd none) (cleaned p w fd r) := by
  have later : ∀ {other s}, Function.update t fd none other = some s → other ≠ fd ∧ t other = some s :=
    clearedEntry.mp
  have recordApart : ∀ {other s}, other ≠ fd → t other = some s → s.self ≠ r.self := by
    intro other s away kept same
    have left := owned.record other s kept
    rw [same, owned.record fd r entry] at left
    cases left
    exact away ((linked.mapped other r kept).own.symm.trans (linked.mapped fd r entry).own)
  refine ⟨fun other s kept => ?_, fun other s kept => ?_, fun other s kept => ?_, fun other s another u left right same => ?_,
    liveCleaned owned.recordsLive entry, liveCleaned owned.zipsLive entry, fun a => ?_, fun a => ?_⟩
  · obtain ⟨away, kept⟩ := later kept
    exact (Function.update_of_ne (recordApart away kept) _ _).trans (owned.record other s kept)
  · obtain ⟨away, kept⟩ := later kept
    refine ⟨(owned.zip other s kept).1, ?_⟩
    have apart : s.shadowZip ≠ r.shadowZip := fun same => away (owned.zipApart other s fd r kept entry same)
    simp only [cleaned]
    rw [Function.update_of_ne apart]
    exact (owned.zip other s kept).2
  · obtain ⟨away, kept⟩ := later kept
    refine (Function.update_of_ne ?_ _ _).trans (owned.stream other s kept)
    intro same
    have left := owned.stream other s kept
    rw [same, owned.stream fd r entry] at left
    exact away (Option.some.inj left).symm
  · exact owned.zipApart other s another u (later left).2 (later right).2 same
  · have before := owned.recordsOnce a
    have live : (w.records r.self).isSome := by rw [owned.record fd r entry]; rfl
    have shrunk : _ = (if ((cleaned p w fd r).records a).isSome then 1 else 0) + _ := updateNone live
    simp only [cleaned, List.count_append, List.count_cons, List.count_nil, Note.deletedRecord.injEq, beq_iff_eq,
      reduceCtorEq, if_false, Nat.add_zero, Nat.zero_add] at shrunk ⊢
    omega
  · have before := owned.zipsOnce a
    have live := (owned.zip fd r entry).2
    have shrunk : _ = (if ((cleaned p w fd r).zips a).isSome then 1 else 0) + _ := updateNone live
    simp only [cleaned, List.count_append, List.count_cons, List.count_nil, Note.deletedZip.injEq, beq_iff_eq,
      reduceCtorEq, if_false, Nat.add_zero, Nat.zero_add] at shrunk ⊢
    omega

end

structure Inv (p : Process) (t : Table) (w : World) : Prop where
  linked : Linked p t w.toKernel
  owned : Owned t w

def Sound {α : Type} (p : Process) (t : Table) (w : World) (eff : Effect) (condition : Prop)
    (result : Except Fault (α × World)) : Prop :=
  result ≠ .error .dangling ∧ ∀ a w', result = .ok (a, w') →
    w'.notes = w.notes ++ eff.notes ∧ (condition → Inv p (eff.table t) w')

section
variable {p : Process} {t : Table} {w : World} {α : Type}

theorem soundOk {eff : Effect} {condition : Prop} {a : α} {w' : World} (notes : w'.notes = w.notes ++ eff.notes)
    (inv : condition → Inv p (eff.table t) w') : Sound p t w eff condition (.ok (a, w')) := by
  refine ⟨(fun bad => by cases bad), fun b w'' same => ?_⟩
  cases same
  exact ⟨notes, inv⟩

theorem soundStopped {eff : Effect} {condition : Prop} (stop : Stop) :
    Sound p t w eff condition (.error (.stopped stop) : Except Fault (α × World)) :=
  ⟨(fun bad => by cases bad), (fun _ _ bad => by cases bad)⟩

theorem invMapping (inv : Inv p t w) (fd : Int) : getMapping p w fd = (recordOf t fd, w) := by
  rw [getMappingFound, linkedFound inv.linked]

theorem invMove (inv : Inv p t w) {fd : Int} (absent : t fd = none) {k' : Kernel} (moves : w.Moves fd k') :
    Inv p t { w with toKernel := k' } :=
  ⟨linkedMove inv.linked absent moves, ownedFrame inv.owned rfl rfl rfl inv.owned.stream⟩

theorem cachedAbsent (inv : Inv p t w) {fd : Int} (absent : t fd = none) : getCachedShadowzip p w fd = .ok (NULL, w) := by
  have null : recordOf t fd = NULL := by rw [recordOf, absent]
  simp only [getCachedShadowzip, invMapping inv, null, if_true]
  rfl

theorem cachedPresent (inv : Inv p t w) {fd : Int} {r : FileExtraData} (entry : t fd = some r) :
    getCachedShadowzip p w fd = .ok (r.shadowZip, w) := by
  have self : recordOf t fd = r.self := by rw [recordOf, entry]
  have live := (inv.linked.mapped fd r entry).self
  simp only [getCachedShadowzip, invMapping inv, self, if_neg live, derefSome (inv.owned.record fd r entry)]
  rfl

theorem hookedRaw (inv : Inv p t w) {fd : Int} (absent : t fd = none) (member : ShadowZip → Except Stop (α × ShadowZip))
    (libc : World → α × World) : hooked p w fd member libc = .ok (libc w) := by
  simp only [hooked, cachedAbsent inv absent, bind, Except.bind, if_true]
  rfl

theorem invZip (inv : Inv p t w) {zip : Nat} (live : (w.zips zip).isSome) (z : ShadowZip) :
    Inv p t { w with zips := Function.update w.zips zip (some z) } := by
  have same : ∀ a, (Function.update w.zips zip (some z) a).isSome = (w.zips a).isSome := by
    intro a
    by_cases here : a = zip
    · subst here
      rw [Function.update_self, live]
      rfl
    · rw [Function.update_of_ne here]
  have owned := inv.owned
  refine ⟨inv.linked, owned.record, fun fd r entry => ?_, owned.stream, owned.zipApart, owned.recordsLive,
    fun a is => ?_, owned.recordsOnce, fun a => ?_⟩
  · dsimp only
    rw [same]
    exact owned.zip fd r entry
  · exact owned.zipsLive a ((same a).symm.trans is)
  · dsimp only
    rw [same]
    exact owned.zipsOnce a

theorem hookedSound (inv : Inv p t w) (fd : Int) (member : ShadowZip → Except Stop (α × ShadowZip))
    (libc : World → α × World) (raw : t fd = none → Inv p t (libc w).2 ∧ (libc w).2.notes = w.notes) :
    Sound p t w .none True (hooked p w fd member libc) := by
  cases entry : t fd with
  | none =>
    rw [hookedRaw inv entry]
    exact soundOk ((raw entry).2.trans (List.append_nil _).symm) (fun _ => (raw entry).1)
  | some r =>
    obtain ⟨some_, live⟩ := inv.owned.zip fd r entry
    obtain ⟨z, zip⟩ := Option.isSome_iff_exists.mp live
    simp only [hooked, cachedPresent inv entry, bind, Except.bind, if_neg some_, derefSome zip]
    cases member z with
    | error stop => exact soundStopped stop
    | ok answer => exact soundOk (List.append_nil _).symm (fun _ => invZip inv live answer.2)

theorem stdioSound (inv : Inv p t w) {stream : Nat} (live : (w.streams stream).isSome)
    (member : ShadowZip → Except Stop (α × ShadowZip)) (libc : Stdio α) :
    Sound p t w .none True (hookedStream p w stream member libc) := by
  obtain ⟨fd, here⟩ := Option.isSome_iff_exists.mp live
  have known := derefSome here
  simp only [hookedStream, known, bind, Except.bind]
  refine hookedSound inv fd member (stdio fd libc) (fun absent => ⟨invMove inv absent ?_, rfl⟩)
  refine ⟨_, rfl, fun g moved => ?_⟩
  obtain ⟨old, was, rfl⟩ := Option.map_eq_some_iff.mp moved
  exact ⟨old, was, rfl⟩

theorem closeSound (inv : Inv p t w) {fd : Int} {r : FileExtraData} (entry : t fd = some r) (a : α) :
    Sound p t w (.closed r) True (do let w ← cleanMappingData p w r.self; return (a, w)) := by
  rw [cleanExact inv.linked inv.owned entry]
  refine soundOk rfl (fun _ => ?_)
  have own := (inv.linked.mapped fd r entry).own
  simp only [Effect.table, own]
  exact ⟨linkedCleaned inv.linked fd r, ownedCleaned inv.linked inv.owned entry⟩

theorem myCloseRaw (inv : Inv p t w) {fd : Int} (absent : t fd = none) : myClose p w fd = .ok (rawClose fd w) := by
  have null : recordOf t fd = NULL := by rw [recordOf, absent]
  simp only [myClose, invMapping inv, null, ne_eq, not_true_eq_false, if_false]
  rfl

theorem myCloseSound (inv : Inv p t w) (fd : Int) : Sound p t w (closing t fd) True (myClose p w fd) := by
  cases entry : t fd with
  | none =>
    rw [myCloseRaw inv entry, closing, entry]
    exact soundOk (List.append_nil _).symm (fun _ => invMove inv entry (Kernel.closeMoves _ _))
  | some r =>
    have self : recordOf t fd = r.self := by rw [recordOf, entry]
    have live := (inv.linked.mapped fd r entry).self
    simp only [myClose, invMapping inv, self, ne_eq, live, not_false_eq_true, if_true, closing, entry]
    exact closeSound inv entry 0

theorem myFcloseSound (inv : Inv p t w) {stream : Nat} {fd : Int} (here : w.streams stream = some fd) :
    Sound p t w (closing t fd) True (myFclose p w stream) := by
  have known := derefSome here
  cases entry : t fd with
  | none =>
    have null : recordOf t fd = NULL := by rw [recordOf, entry]
    simp only [myFclose, known, bind, Except.bind, invMapping inv, null, ne_eq, not_true_eq_false, if_false, fclose,
      closing, entry]
    refine soundOk (List.append_nil _).symm (fun _ => ?_)
    have moved := invMove inv entry (Kernel.closeMoves w.toKernel fd)
    refine ⟨moved.linked, ownedFrame inv.owned rfl rfl rfl (fun other r there => ?_)⟩
    refine (Function.update_of_ne ?_ _ _).trans (inv.owned.stream other r there)
    rintro rfl
    rw [inv.owned.stream other r there] at here
    cases here
    rw [there] at entry
    cases entry
  | some r =>
    have self : recordOf t fd = r.self := by rw [recordOf, entry]
    have live := (inv.linked.mapped fd r entry).self
    simp only [myFclose, known, bind, Except.bind, invMapping inv, self, ne_eq, live, not_false_eq_true, if_true,
      closing, entry]
    exact closeSound inv entry 0

theorem rawOpenKeeps (inv : Inv p t w) {path : Bytes} (flags : Flags) {given : Given} (free : Free w given)
    (ordinary : Ordinary p w path given) :
    Inv p t (rawOpen w path flags given).2 ∧ (rawOpen w path flags given).2.notes = w.notes := by
  unfold rawOpen
  split
  · exact ⟨inv, rfl⟩
  · rename_i k opened
    split at opened
    · cases opened
    · exact ⟨⟨linkedRawOpen inv.linked free ordinary opened, ownedFrame inv.owned rfl rfl rfl inv.owned.stream⟩, rfl⟩

theorem rawFopenKeeps (inv : Inv p t w) {path : Bytes} (mode : Flags) {given : Given} (free : Free w given)
    (ordinary : Ordinary p w path given) :
    Inv p t (rawFopen w path mode given).2 ∧ (rawFopen w path mode given).2.notes = w.notes := by
  unfold rawFopen
  split
  · exact ⟨inv, rfl⟩
  · rename_i k opened
    split at opened
    · cases opened
    · refine ⟨⟨linkedRawOpen inv.linked free ordinary opened, ownedFrame inv.owned rfl rfl rfl fun fd r entry => ?_⟩, rfl⟩
      exact entryKept free.streamFree (inv.owned.stream fd r entry)

theorem openSound (inv : Inv p t w) {path : Bytes} {given : Given} (allowed : OpenAllowed p w path given)
    (answer : FileExtraData → α) (raw : World → α × World)
    (rawKeeps : ∀ {w}, Inv p t w → Free w given → Ordinary p w path given →
      Inv p t (raw w).2 ∧ (raw w).2.notes = w.notes) :
    Sound p t w (opening p w path given) (isApk p w path = true → Saved p t given)
      (if isApk p w path then do
        let (fileExtraData, w) ← openShadow p w given
        match fileExtraData with
        | none => return raw w
        | some r => return (answer r, w)
      else return raw w) := by
  obtain ⟨free, ordinary⟩ := allowed
  unfold opening
  cases apk : isApk p w path with
  | false =>
    simp only [apk, Bool.false_eq_true, false_and, if_false] at ordinary ⊢
    obtain ⟨kept, notes⟩ := rawKeeps inv free ordinary
    exact soundOk (notes.trans (List.append_nil _).symm) (fun _ => kept)
  | true =>
    simp only [apk, true_and, if_true] at ordinary ⊢
    rcases openShadowCases (p := p) free.zip.1 free.zipFree with ⟨stop, stopped⟩ | ⟨fails, failed⟩ | ⟨opens, z, opened⟩
    · simp only [stopped, bind, Except.bind]
      exact soundStopped stop
    · simp only [failed, fails, bind, Except.bind, Bool.false_eq_true, if_false] at ordinary ⊢
      have inv' : Inv p t { w with notes := w.notes ++ [.newZip given.zip, .deletedZip given.zip] } :=
        ⟨inv.linked, ownedFailed inv.owned given.zip⟩
      have free' : Free { w with notes := w.notes ++ [.newZip given.zip, .deletedZip given.zip] } given :=
        ⟨free.fd, free.fdFree, free.node, free.stream, free.streamFree, free.record, free.recordFree, free.zip,
          free.zipFree, free.buffer⟩
      obtain ⟨kept, notes⟩ := rawKeeps inv' free' ⟨ordinary.regular, ordinary.elsewhere, ordinary.notOwn⟩
      exact soundOk notes (fun _ => kept)
    · simp only [opened, opens, bind, Except.bind, if_true] at ordinary ⊢
      refine soundOk rfl (fun whole => ?_)
      exact ⟨linkedSaved inv.linked free ordinary (whole trivial),
        ownedCreated inv.owned free (freeAbsent inv.linked free.fdFree) z⟩

theorem soundMap {β : Type} (f : α → β) {eff : Effect} {condition : Prop} {result : Except Fault (α × World)}
    (sound : Sound p t w eff condition result) :
    Sound p t w eff condition (do let (a, w) ← result; return (f a, w)) := by
  cases result with
  | error fault => exact ⟨(fun bad => sound.1 (by cases bad; rfl)), fun _ _ bad => by cases bad⟩
  | ok answer => exact soundOk (sound.2 _ _ rfl).1 (sound.2 _ _ rfl).2

theorem soundStep {eff : Effect} {condition : Prop} {result : Except Fault (α × World)}
    (sound : Sound p t w eff condition result) : (Prod.snd <$> result : Except Fault World) ≠ .error .dangling ∧
    ∀ w', Prod.snd <$> result = .ok w' → w'.notes = w.notes ++ eff.notes ∧ (condition → Inv p (eff.table t) w') := by
  cases result with
  | error fault => exact ⟨fun bad => sound.1 (by cases bad; rfl), fun w' bad => by cases bad⟩
  | ok answer =>
    refine ⟨(fun bad => by cases bad), fun w' same => ?_⟩
    cases same
    exact sound.2 answer.1 answer.2 rfl

theorem stepSound (inv : Inv p t w) {e : Event} (allowed : Allowed p w e) : step p w e ≠ .error .dangling ∧
    ∀ w', step p w e = .ok w' → w'.notes = w.notes ++ (effect p t w e).notes ∧
      (SavedEvent p t w e → Inv p ((effect p t w e).table t) w') := by
  cases e with
  | myOpen path flags given =>
    exact soundStep (openSound inv allowed FileExtraData.fd (fun w => rawOpen w path flags given)
      (fun inv free ordinary => rawOpenKeeps inv flags free ordinary))
  | myFopen path mode given =>
    exact soundStep (openSound inv allowed FileExtraData.file (fun w => rawFopen w path mode given)
      (fun inv free ordinary => rawFopenKeeps inv mode free ordinary))
  | myRead fd buf nbyte =>
    exact soundStep (hookedSound inv fd _ _ (fun absent => ⟨invMove inv absent (Kernel.readMoves _ _ _), rfl⟩))
  | myLseek fd offset whence =>
    exact soundStep (hookedSound inv fd _ _ (fun absent => ⟨invMove inv absent (Kernel.lseekMoves _ _ _ _), rfl⟩))
  | myClose fd => exact soundStep (myCloseSound inv fd)
  | myFseek stream offset whence libc => exact soundStep (stdioSound inv allowed _ libc)
  | myFtell stream libc =>
    exact soundStep (soundMap i32 (stdioSound inv allowed (fun z => .ok (ShadowStream.ftell z, z)) libc))
  | myFread ptr size nmemb stream libc => exact soundStep (stdioSound inv allowed _ libc)
  | myFgets s size stream libc => exact soundStep (stdioSound inv allowed _ libc)
  | myFclose stream =>
    obtain ⟨fd, here⟩ := Option.isSome_iff_exists.mp allowed
    simp only [effect, here]
    exact soundStep (myFcloseSound inv here)

theorem freshInv (fresh : Fresh p w) : Inv p (fun _ => none) w where
  linked := by
    refine ⟨?_, ?_, fun fd f _ here => fresh.foreign fd f here, fresh.sole⟩
    · intro fd r bad
      cases bad
    · intro _ fd r f path bad
      cases bad
  owned := by
    refine ⟨?_, ?_, ?_, ?_, ?_, ?_, ?_, ?_⟩
    · intro fd r bad
      cases bad
    · intro fd r bad
      cases bad
    · intro fd r bad
      cases bad
    · intro fd r other s bad
      cases bad
    · intro a live
      rw [fresh.records] at live
      cases live
    · intro a live
      rw [fresh.zips] at live
      cases live
    · intro a
      rw [fresh.notes, fresh.records]
      rfl
    · intro a
      rw [fresh.notes, fresh.zips]
      rfl

theorem reachedInv (reached : Reached p (SavedEvent p) t w) : Inv p t w := by
  induction reached with
  | start fresh => exact freshInv fresh
  | call before allowed met done ih => exact ((stepSound ih allowed).2 _ done).2 met

theorem invExact (inv : Inv p t w) : Exact p t w where
  mapping := invMapping inv
  own fd r entry := ⟨(inv.linked.mapped fd r entry).own, (inv.linked.mapped fd r entry).self, inv.owned.record fd r entry⟩
  records a := by
    refine ⟨inv.owned.recordsLive a, ?_⟩
    rintro ⟨fd, r, entry, rfl⟩
    rw [inv.owned.record fd r entry]
    rfl
  zips a := by
    refine ⟨inv.owned.zipsLive a, ?_⟩
    rintro ⟨fd, r, entry, rfl⟩
    exact (inv.owned.zip fd r entry).2
  recordsOnce := inv.owned.recordsOnce
  zipsOnce := inv.owned.zipsOnce
  deletes e w' allowed done := ((stepSound inv allowed).2 w' done).1
  reaches e allowed := (stepSound inv allowed).1
  readsRaw fd absent buf nbyte := hookedRaw inv absent _ _
  seeksRaw fd absent offset whence := hookedRaw inv absent _ _
  closesRaw fd absent := myCloseRaw inv absent

theorem handleMappingExact (reached : Reached p (SavedEvent p) t w) : Exact p t w := invExact (reachedInv reached)

theorem savedApart (reached : Reached p (SavedEvent p) t w) (room : p.useDataPath.length ≤ 479) {given : Given}
    (free : Free w given) (whole : FileExtraData.sizeOf ≤ given.written) : Saved p t given := by
  have inv := reachedInv reached
  refine fun _ => ⟨whole, fun fd r entry same => ?_⟩
  have live := inv.owned.record fd r entry
  rw [savePathInjective room (inv.linked.mapped fd r entry).fits.self free.record.2 same, free.recordFree] at live
  cases live

end

def apkProcess (useDataPath : Bytes) : Process :=
  ⟨false, useDataPath, ⟨0, 0⟩, ⟨1, 1⟩, fun node => if node = 1 then ⟨1, 1⟩ else ⟨2, node⟩,
    fun path => if path = [0x2f] then some [] else none, ⟨[], [[0x2f]], 0⟩⟩

def apkOnly : World where
  fds := fun _ => none
  contents := fun _ => []
  names := fun path => if path = [0x2f] then some 1 else none
  streams := fun _ => none
  records := fun _ => none
  zips := fun _ => none
  notes := []

def firstGiven : Given := ⟨false, 3, 10, 0x1000, 0x7f12345678, 0x2000, 0, 0, 48⟩
def secondGiven : Given := ⟨false, 4, 11, 0x1001, 0x7f12345a00, 0x2001, 0, 0, 48⟩
def readOnly : Flags := ⟨true, false, false, false⟩
def openApk (given : Given) : Event := .myOpen [0x2f] readOnly given

def nextWorld (p : Process) (w : World) (e : Event) : World :=
  match step p w e with
  | .ok w' => w'
  | .error _ => w

def steps (p : Process) (w : World) (e : Event) : Bool :=
  match step p w e with
  | .ok _ => true
  | .error _ => false

theorem stepNext {p : Process} {w : World} {e : Event} (does : steps p w e = true) : step p w e = .ok (nextWorld p w e) := by
  unfold steps at does
  unfold nextWorld
  cases taken : step p w e with
  | ok w' => rfl
  | error fault =>
    rw [taken] at does
    cases does

theorem apkNamed {path : Bytes} {node : Nat} (named : apkOnly.names path = some node) : path = [0x2f] ∧ node = 1 := by
  simp only [apkOnly] at named
  split at named
  · rename_i same
    exact ⟨same, (Option.some.inj named).symm⟩
  · cases named

theorem apkFresh {useDataPath : Bytes} (apart : ∀ record, savePath (apkProcess useDataPath) record ≠ [0x2f]) :
    Fresh (apkProcess useDataPath) apkOnly where
  records _ := rfl
  zips _ := rfl
  notes := rfl
  foreign fd f bad := by cases bad
  sole _ record node path named _ := absurd (apkNamed named).1 (apart record)

theorem apkUnused {node : Nat} (other : node ≠ 1) : apkOnly.Unused node :=
  ⟨fun _ named => other (apkNamed named).2, (fun _ _ bad => by cases bad)⟩

theorem firstAllowed (useDataPath : Bytes) : Allowed (apkProcess useDataPath) apkOnly (openApk firstGiven) :=
  ⟨⟨by decide, rfl, apkUnused (by decide), by decide, rfl, by decide, rfl, by decide, rfl, by decide⟩,
    fun shared => by cases shared⟩

theorem savePathApart (useDataPath : Bytes) (room : useDataPath ≠ []) (start : useDataPath.head? ≠ some 0x2f) (record : Nat) :
    savePath (apkProcess useDataPath) record ≠ [0x2f] := by
  cases useDataPath with
  | nil => exact absurd rfl room
  | cons b rest =>
    intro same
    simp only [savePath, apkProcess, ShadowZip.snprintf512, List.cons_append, List.take_succ_cons, List.cons.injEq] at same
    exact start (congrArg some same.1)

def shortPath : Bytes := text "data"

theorem sampleMapping : Exact (apkProcess shortPath)
    ((effect (apkProcess shortPath) (fun _ => none) apkOnly (openApk firstGiven)).table (fun _ => none))
    (nextWorld (apkProcess shortPath) apkOnly (openApk firstGiven)) :=
  handleMappingExact (.call (.start (apkFresh (savePathApart shortPath (by decide) (by decide)))) (firstAllowed _)
    (fun _ _ => ⟨by decide, (fun fd r bad => by cases bad)⟩) (stepNext (by decide +kernel)))

def longPath : Bytes := List.replicate 490 0x61

theorem openedWorld (p : Process) (w : World) (path : Bytes) (flags : Flags) (given : Given) (zip : given.zip ≠ NULL)
    (zipFree : w.zips given.zip = none) (apk : isApk p w path = true) (opens : zipOpens p given = true)
    (does : steps p w (.myOpen path flags given) = true) :
    ∃ z, nextWorld p w (.myOpen path flags given) = created p w given z := by
  rcases openShadowCases (p := p) zip zipFree with ⟨stop, stopped⟩ | ⟨fails, _⟩ | ⟨_, z, opened⟩
  · simp only [steps, step, myOpen, apk, if_true, stopped] at does
    cases does
  · rw [opens] at fails
    cases fails
  · refine ⟨z, ?_⟩
    simp only [nextWorld, step, myOpen, apk, if_true, opened]
    rfl

theorem createdUnused {useDataPath : Bytes} (apart : ∀ record, savePath (apkProcess useDataPath) record ≠ [0x2f])
    (z : ShadowZip) : (created (apkProcess useDataPath) apkOnly firstGiven z).Unused 11 := by
  have unnamed : apkOnly.names (savePath (apkProcess useDataPath) firstGiven.record) = none := if_neg (apart _)
  have node : apkOnly.nodeOf (savePath (apkProcess useDataPath) firstGiven.record) firstGiven.node = 10 := by
    rw [Kernel.nodeOf, unnamed]
    rfl
  have kernel : (created (apkProcess useDataPath) apkOnly firstGiven z).toKernel =
      saved apkOnly.toKernel (savePath (apkProcess useDataPath) firstGiven.record) firstGiven.fd firstGiven.node
        ((newRecord (apkProcess useDataPath) firstGiven).image.take firstGiven.written) := rfl
  refine ⟨fun path named => ?_, fun fd f here => ?_⟩
  · rw [kernel, saved, node] at named
    dsimp only at named
    by_cases same : path = savePath (apkProcess useDataPath) firstGiven.record
    · rw [same, Function.update_self] at named
      cases named
    · rw [Function.update_of_ne same] at named
      exact absurd (apkNamed named).2 (by decide)
  · rw [kernel, saved, node] at here
    dsimp only at here
    by_cases same : fd = firstGiven.fd
    · rw [same, Function.update_self] at here
      cases here
      decide
    · rw [Function.update_of_ne same] at here
      cases here

/-- The save path keeps five digits of the address: both records are saved in one file. -/
theorem sharedSavePath : ¬∀ (p : Process) (t : Table) (w : World), Reached p (fun _ _ _ => True) t w → Exact p t w := by
  intro claim
  have apart := savePathApart longPath (by decide) (by decide)
  have start : Reached (apkProcess longPath) (fun _ _ _ => True) _ apkOnly := .start (apkFresh apart)
  have first := start.call (firstAllowed longPath) trivial (stepNext (by decide +kernel))
  obtain ⟨z, opened⟩ := openedWorld (apkProcess longPath) apkOnly [0x2f] readOnly firstGiven
    (by decide) rfl (by decide) (by decide) (by decide +kernel)
  have allowed : Allowed (apkProcess longPath) (nextWorld (apkProcess longPath) apkOnly (openApk firstGiven))
      (openApk secondGiven) := by
    rw [openApk, opened]
    exact ⟨⟨by decide, rfl, createdUnused apart z, by decide, rfl, by decide, rfl, by decide, rfl, by decide⟩,
      fun shared => by cases shared⟩
  have second := first.call allowed trivial (stepNext (by decide +kernel))
  have found := congrArg Prod.fst ((claim _ _ _ second).mapping 3)
  exact absurd found (by decide +kernel)

end Bootstrap.FileMapping
