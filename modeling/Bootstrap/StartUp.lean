import Bootstrap.ConcurrentMapping
import Bootstrap.HandleMapping

/-! The start: init_hook has asked for the hooks, which may be there at any moment, and
init_mapping_data still has to choose the mapping mode. Its system calls and the hooked calls
of other threads come in any order, and these are as many steps as they have tests of
use_shared_mem and system calls in get_file_mapping. -/
namespace Bootstrap.FileMapping
open CInt ByteLayout OpenFiles
open Bootstrap.ShadowZip (snprintf512 text)
open ShadowStream (ShadowZip SEEK_SET SEEK_CUR)

/-! A hooked call behind its get_mapping. -/

def hookedFound {α : Type} (w : World) (fileExtraData : Nat) (member : ShadowZip → Except Stop (α × ShadowZip))
    (libc : World → α × World) : Except Fault (α × World) := do
  let shadowZip ← if fileExtraData = NULL then pure NULL else FileExtraData.shadowZip <$> deref w.records fileExtraData
  if shadowZip = NULL then return libc w
  else do
    let z ← deref w.zips shadowZip
    let (answer, z) ← inZip (member z)
    return (answer, { w with zips := Function.update w.zips shadowZip (some z) })

def streamFound {α : Type} (w : World) (fileExtraData stream : Nat) (member : ShadowZip → Except Stop (α × ShadowZip))
    (libc : Stdio α) : Except Fault (α × World) := do
  let fd ← deref w.streams stream
  hookedFound w fileExtraData member (stdio fd libc)

def opens : Event → Bool
  | .myOpen .. => true
  | .myFopen .. => true
  | _ => false

def closes : Event → Bool
  | .myClose _ => true
  | .myFclose _ => true
  | _ => false

/- An open asks for no mapping. -/
def resume (p : Process) (w : World) (fileExtraData : Nat) : Event → Except Fault World
  | .myOpen path flags given => step p w (.myOpen path flags given)
  | .myFopen path mode given => step p w (.myFopen path mode given)
  | .myRead fd buf nbyte => Prod.snd <$> hookedFound w fileExtraData
      (fun z => do
        let (ret, buf, z) ← ShadowStream.fread p.files buf 1 nbyte z
        return ((i64 ret, buf), z))
      (rawRead fd buf nbyte)
  | .myLseek fd offset whence => Prod.snd <$> hookedFound w fileExtraData
      (fun z =>
        let (ret, z) := ShadowStream.fseek offset whence z
        .ok (if ret = 0 then ShadowStream.ftell z else ret, z))
      (rawLseek fd offset whence)
  | .myFseek stream offset whence libc => Prod.snd <$> streamFound w fileExtraData stream
      (fun z => .ok (i32 (ShadowStream.fseek offset whence z).1, (ShadowStream.fseek offset whence z).2)) libc
  | .myFtell stream libc => Prod.snd <$> streamFound w fileExtraData stream (fun z => .ok (ShadowStream.ftell z, z)) libc
  | .myFread ptr size nmemb stream libc => Prod.snd <$> streamFound w fileExtraData stream
      (fun z => do
        let (ret, ptr, z) ← ShadowStream.fread p.files ptr size nmemb z
        return ((ret, ptr), z)) libc
  | .myFgets s size stream libc => Prod.snd <$> streamFound w fileExtraData stream (ShadowStream.fgets p.files s size) libc
  | .myClose fd => if fileExtraData ≠ NULL then cleanMappingData p w fileExtraData else return (rawClose fd w).2
  | .myFclose stream => if fileExtraData ≠ NULL then cleanMappingData p w fileExtraData else Prod.snd <$> fclose w stream

def asked (w : World) : Event → Option Int
  | .myRead fd _ _ => some fd
  | .myLseek fd _ _ => some fd
  | .myClose fd => some fd
  | .myFseek stream _ _ _ => w.streams stream
  | .myFtell stream _ => w.streams stream
  | .myFread _ _ _ stream _ => w.streams stream
  | .myFgets _ _ stream _ => w.streams stream
  | .myFclose stream => w.streams stream
  | _ => none

theorem hookedResume {α : Type} {p : Process} {w : World} {fd : Int} {fileExtraData : Nat}
    (mapping : getMapping p w fd = (fileExtraData, w)) (member : ShadowZip → Except Stop (α × ShadowZip))
    (libc : World → α × World) : hooked p w fd member libc = hookedFound w fileExtraData member libc := by
  simp only [hooked, getCachedShadowzip, mapping, hookedFound]
  by_cases null : fileExtraData = NULL
  · simp [null]
  · simp only [if_neg null]
    cases deref w.records fileExtraData <;> rfl

theorem stepResume {p : Process} {w : World} {e : Event} {fd : Int} {fileExtraData : Nat} (asks : asked w e = some fd)
    (mapping : getMapping p w fd = (fileExtraData, w)) : resume p w fileExtraData e = step p w e := by
  cases e with
  | myOpen => cases asks
  | myFopen => cases asks
  | myRead | myLseek =>
    cases asks
    simp only [step, resume, myRead, myLseek, hookedResume mapping]
  | myFseek stream offset whence libc =>
    have here : deref w.streams stream = .ok fd := derefSome asks
    simp only [step, resume, myFseek, hookedStream, streamFound, exceptOk here, hookedResume mapping]
  | myFtell stream libc =>
    have here : deref w.streams stream = .ok fd := derefSome asks
    simp only [step, resume, myFtell, hookedStream, streamFound, exceptOk here, hookedResume mapping]
    cases hookedFound w fileExtraData (fun z => .ok (ShadowStream.ftell z, z)) (stdio fd libc) <;> rfl
  | myFread ptr size nmemb stream libc =>
    have here : deref w.streams stream = .ok fd := derefSome asks
    simp only [step, resume, myFread, hookedStream, streamFound, exceptOk here, hookedResume mapping]
  | myFgets s size stream libc =>
    have here : deref w.streams stream = .ok fd := derefSome asks
    simp only [step, resume, myFgets, hookedStream, streamFound, exceptOk here, hookedResume mapping]
  | myClose fd' =>
    cases asks
    simp only [step, resume, myClose, mapping]
    split
    · cases cleanMappingData p w fileExtraData <;> rfl
    · rfl
  | myFclose stream =>
    have here : deref w.streams stream = .ok fd := derefSome asks
    simp only [step, resume, myFclose, exceptOk here, mapping]
    split
    · cases cleanMappingData p w fileExtraData <;> rfl
    · rfl

/-! init_mapping_data. -/

/-- Which call init_mapping_data is about to make; reopenDir follows mkdir. -/
inductive Boot where
  | openShm
  | openDir
  | reopenDir
  | readDir
  | unlink (fdFiles : List Bytes)
  | returned (ret : Int)
  deriving DecidableEq, Repr

structure Choice where
  ok : Bool
  listing : List Bytes
  deriving DecidableEq, Repr

/-- Where a thread is in a hooked call: outside, behind the test of save_mapping, behind that of get_mapping, or
behind that of clean_mapping_data, each with what the test has read. -/
inductive Phase where
  | outside
  | saving (e : Event) (shared : Bool)
  | asking (e : Event) (fd : Int) (shared : Bool) (getting : Getting)
  | cleaning (e : Event) (fd : Int) (shared : Bool) (fileExtraData : Nat)

structure Start (τ : Type) where
  world : World
  boot : Boot
  useSharedMem : Bool
  dirThere : Bool
  threads : τ → Phase

def fdsDir (p : Process) : Bytes := snprintf512 (p.useDataPath ++ text "/rt_fd_mappings")

def mode (p : Process) (shared : Bool) : Process := { p with useSharedMem := shared }

section
variable {τ : Type} [DecidableEq τ]

/- opendir fails with ENOENT exactly when the directory is not there. -/
def initMappingData (p : Process) (c : Choice) (s : Start τ) : Start τ :=
  match s.boot with
  | .openShm =>
    if c.ok then { s with useSharedMem := true, boot := .returned 0 } else { s with boot := .openDir }
  | .openDir =>
    if s.dirThere then { s with boot := if c.ok then .readDir else .returned (-1) }
    else { s with dirThere := c.ok, boot := .reopenDir }
  | .reopenDir => { s with boot := if s.dirThere && c.ok then .readDir else .returned (-1) }
  | .readDir => { s with boot := .unlink (c.listing.map (fun name => fdsDir p ++ 0x2f :: name)) }
  | .unlink [] => { s with boot := .returned 0 }
  | .unlink (fdFile :: fdFiles) =>
    if c.ok then { s with world := { s.world with toKernel := s.world.unlink fdFile }, boot := .unlink fdFiles }
    else { s with boot := .returned (-1) }
  | .returned _ => s

def lacking (p : Process) (shared : Bool) (s : Start τ) (path : Bytes) (given : Given) : Given :=
  { given with
    refused := given.refused || (isApk p s.world path && zipOpens p given && !shared && !s.dirThere) }

def lackingEvent (p : Process) (shared : Bool) (s : Start τ) : Event → Event
  | .myOpen path flags given => .myOpen path flags (lacking p shared s path given)
  | .myFopen path flags given => .myFopen path flags (lacking p shared s path given)
  | e => e

/-! The steps of a hooked call. -/

/- What an open does before the test is its own affair, and comes behind it here. -/
def enter (s : Start τ) (e : Event) : Option Phase :=
  if opens e then some (.saving e s.useSharedMem)
  else (asked s.world e).map (fun fd => .asking e fd s.useSharedMem .query)

/- In get_mem_mapping nothing is moved. -/
def ask (p : Process) (fd : Int) (k : Kernel) (shared : Bool) (getting : Getting) : Getting × Kernel :=
  if shared then (.done (getMemMapping p k fd), k) else systemCall fd k getting

structure Last where
  e : Event
  shared : Bool
  fileExtraData : Nat

/- A close that has found a record goes on to clean_mapping_data. -/
def last : Phase → Option Last
  | .outside => none
  | .saving e shared => some ⟨e, shared, NULL⟩
  | .asking e _ shared (.done fileExtraData) =>
    if closes e ∧ fileExtraData ≠ NULL then none else some ⟨e, shared, fileExtraData⟩
  | .asking .. => none
  | .cleaning e _ shared fileExtraData => some ⟨e, shared, fileExtraData⟩

def Held (w : World) : Phase → Prop
  | .asking e fd _ _ => asked w e = some fd
  | .cleaning e fd _ _ => asked w e = some fd
  | _ => True

def Start.put (s : Start τ) (thread : τ) (phase : Phase) (w : World) : Start τ :=
  { s with world := w, threads := Function.update s.threads thread phase }

inductive StartEvent (τ : Type) where
  | boot (c : Choice)
  | call (thread : τ) (e : Event)
  | move (thread : τ)

inductive Started (p : Process) (condition : Table → Start τ → StartEvent τ → Prop) : Table → Start τ → Prop where
  | hooked {w dirThere} (fresh : Fresh (mode p false) w) :
      Started p condition (fun _ => none) ⟨w, .openShm, false, dirThere, fun _ => .outside⟩
  | boot {t s c} (before : Started p condition t s) (met : condition t s (.boot c)) :
      Started p condition t (initMappingData p c s)
  | call {t s thread e phase} (before : Started p condition t s) (free : s.threads thread = .outside)
      (enters : enter s e = some phase) (met : condition t s (.call thread e)) :
      Started p condition t (s.put thread phase s.world)
  | ask {t s thread e fd shared getting} (before : Started p condition t s)
      (there : s.threads thread = .asking e fd shared getting) (going : ∀ found, getting ≠ .done found)
      (met : condition t s (.move thread)) :
      Started p condition t (s.put thread (.asking e fd shared (ask p fd s.world.toKernel shared getting).1)
        { s.world with toKernel := (ask p fd s.world.toKernel shared getting).2 })
  | test {t s thread e fd shared found} (before : Started p condition t s)
      (there : s.threads thread = .asking e fd shared (.done found)) (closing : closes e) (some : found ≠ NULL)
      (met : condition t s (.move thread)) :
      Started p condition t (s.put thread (.cleaning e fd s.useSharedMem found) s.world)
  | finish {t s thread l w'} (before : Started p condition t s) (there : last (s.threads thread) = some l)
      (held : Held s.world (s.threads thread)) (allowed : Allowed (mode p l.shared) s.world l.e)
      (met : condition t s (.move thread))
      (done : resume (mode p l.shared) s.world l.fileExtraData (lackingEvent p l.shared s l.e) = .ok w') :
      Started p condition ((effect (mode p l.shared) t s.world (lackingEvent p l.shared s l.e)).table t)
        (s.put thread .outside w')

/-- Every handle of the APK is recognised, by the calls that are under way and by those that come when none is, and
no call ends the process that would not do so with the directory there. -/
structure Steady (p : Process) (condition : Table → Start τ → StartEvent τ → Prop) (t : Table) (s : Start τ) : Prop where
  answered : ∀ thread e fd shared found, s.threads thread = .asking e fd shared (.done found) → found = recordOf t fd
  recognised : (∀ thread, s.threads thread = .outside) → ∀ fd r, t fd = some r →
    getMapping (mode p s.useSharedMem) s.world fd = (r.self, s.world)
  survives : ∀ thread l, last (s.threads thread) = some l → Allowed (mode p l.shared) s.world l.e →
    condition t s (.move thread) →
    resume (mode p l.shared) s.world l.fileExtraData (lackingEvent p l.shared s l.e) = .error (.stopped .exited) →
    resume (mode p l.shared) s.world l.fileExtraData l.e = .error (.stopped .exited)

def OpensReady (p : Process) (shared : Bool) (s : Start τ) : Event → Prop
  | .myOpen path _ _ => isApk p s.world path = true → shared = true ∨ s.dirThere = true
  | .myFopen path _ _ => isApk p s.world path = true → shared = true ∨ s.dirThere = true
  | _ => True

def Changes (w : World) (fd : Int) : Event → Prop
  | .myOpen _ _ given => given.fd = fd
  | .myFopen _ _ given => given.fd = fd
  | .myClose other => other = fd
  | .myFclose stream => w.streams stream = some fd
  | _ => False

def Phase.on (fd : Int) : Phase → Prop
  | .asking _ other _ _ => other = fd
  | .cleaning _ other _ _ => other = fd
  | _ => False

def Phase.midway : Phase → Prop
  | .asking _ _ _ .query => False
  | .asking _ _ _ (.done _) => False
  | .asking .. => True
  | _ => False

/-- When the mode changes no handle of the APK is open and no call is under way; no call goes on while another one
has an offset to restore; and no descriptor is opened or closed under another call on it. Records are saved as in any
run. -/
def InOrder (p : Process) (t : Table) (s : Start τ) : StartEvent τ → Prop
  | .boot c => s.boot = .openShm → c.ok = true → (∀ fd, t fd = none) ∧ ∀ thread, s.threads thread = .outside
  | .call _ _ => True
  | .move thread => (∀ other, other ≠ thread → ¬(s.threads other).midway) ∧
      ∀ l, last (s.threads thread) = some l → OpensReady p l.shared s l.e ∧
        SavedEvent (mode p l.shared) t s.world l.e ∧
        ∀ other, other ≠ thread → ∀ fd, (s.threads other).on fd → ¬Changes s.world fd l.e

variable {p : Process} {t : Table} {s : Start τ}

omit [DecidableEq τ] in
theorem lackingReady {shared : Bool} {e : Event} (ready : OpensReady p shared s e) : lackingEvent p shared s e = e := by
  have same : ∀ path given, (isApk p s.world path = true → shared = true ∨ s.dirThere = true) →
      lacking p shared s path given = given := by
    intro path given ready
    unfold lacking
    cases apk : isApk p s.world path with
    | false => simp
    | true => rcases ready apk with shared | there <;> simp [*]
  cases e with
  | myOpen path flags given => simp only [lackingEvent, same path given ready]
  | myFopen path flags given => simp only [lackingEvent, same path given ready]
  | _ => rfl

theorem invUnlink {w : World} (inv : Inv p t w) (path : Bytes) : Inv p t { w with toKernel := w.unlink path } := by
  have fewer : ∀ {q n}, (w.unlink path).names q = some n → w.names q = some n := by
    intro q n name
    simp only [Kernel.unlink] at name
    by_cases same : q = path
    · rw [same, Function.update_self] at name
      cases name
    · rwa [Function.update_of_ne same] at name
  have linked := inv.linked
  refine ⟨⟨fun fd r entry => ?_, fun filed fd r f q entry here name => linked.named filed fd r f q entry here (fewer name),
    linked.foreign, fun filed record n q left right => linked.sole filed record n q (fewer left) (fewer right)⟩,
    ownedFrame inv.owned rfl rfl rfl inv.owned.stream⟩
  exact mappedFrame (linked.mapped fd r entry) rfl (fun _ _ => rfl)

theorem invSwitch {w : World} {q : Process} (inv : Inv p t w) (none : ∀ fd, t fd = none) (ids : q.fileId = p.fileId)
    (shm : q.shmId = p.shmId) (shared : q.useSharedMem = true) : Inv q t w := by
  refine ⟨⟨fun fd r entry => ?_, fun filed => ?_, fun fd f entry here => ⟨?_, fun filed => ?_⟩, fun filed => ?_⟩, inv.owned⟩
  · rw [none fd] at entry
    cases entry
  · rw [shared] at filed
    cases filed
  · rw [ids, shm]
    exact (inv.linked.foreign fd f entry here).regular
  · rw [shared] at filed
    cases filed
  · rw [shared] at filed
    cases filed

theorem effectKeeps {w : World} (inv : Inv p t w) {fd : Int} {e : Event} (kept : ¬Changes w fd e) :
    (effect p t w e).table t fd = t fd := by
  have closed : ∀ other, other ≠ fd → (closing t other).table t fd = t fd := by
    intro other apart
    unfold closing
    cases entry : t other with
    | none => rfl
    | some r =>
      have own := (inv.linked.mapped other r entry).own
      exact Function.update_of_ne (fun same => apart (own ▸ same.symm)) _ _
  have opened : ∀ path given, given.fd ≠ fd → (opening p w path given).table t fd = t fd := by
    intro path given apart
    unfold opening
    split
    · split
      · exact Function.update_of_ne apart.symm _ _
      · rfl
    · rfl
  cases e with
  | myOpen path flags given => exact opened path given kept
  | myFopen path flags given => exact opened path given kept
  | myClose other => exact closed other kept
  | myFclose stream =>
    simp only [effect]
    cases here : w.streams stream with
    | none => rfl
    | some other => exact closed other fun same => kept (here.trans (congrArg some same))
  | _ => rfl

def completes (fd : Int) : Getting → Kernel → Nat × Kernel
  | .query, k => getFileMapping k fd
  | .rewind, k =>
    let (_, k) := k.lseek fd 0 SEEK_SET
    let (readCnt, copy, k) := k.read fd FileExtraData.sizeOf
    (validate fd readCnt copy, (k.lseek fd 0 SEEK_SET).2)
  | .read, k =>
    let (readCnt, copy, k) := k.read fd FileExtraData.sizeOf
    (validate fd readCnt copy, (k.lseek fd 0 SEEK_SET).2)
  | .restore readCnt copy, k => (validate fd readCnt copy, (k.lseek fd 0 SEEK_SET).2)
  | .done found, k => (found, k)

theorem completesCall (fd : Int) (k : Kernel) (getting : Getting) :
    completes fd (systemCall fd k getting).1 (systemCall fd k getting).2 = completes fd getting k := by
  cases getting with
  | query =>
    by_cases away : (k.lseek fd 0 SEEK_CUR).1 ≠ 0
    · simp only [systemCall, completes, getFileMapping, if_pos away]
    · simp only [systemCall, completes, getFileMapping, if_neg away]
  | _ => rfl

theorem completesUnlink (fd : Int) (k : Kernel) (path : Bytes) (getting : Getting) :
    completes fd getting (k.unlink path) = ((completes fd getting k).1, (completes fd getting k).2.unlink path) := by
  have seeks : ∀ (k : Kernel) whence, (k.unlink path).lseek fd 0 whence =
      ((k.lseek fd 0 whence).1, (k.lseek fd 0 whence).2.unlink path) := by
    intro k whence
    have same : (k.unlink path).fds fd = k.fds fd := rfl
    unfold Kernel.lseek
    rw [same]
    cases k.fds fd with
    | none => rfl
    | some f =>
      let there := PlainFile.target (k.contents f.node).length f.offset 0 whence
      exact (apply_ite (fun x : Int × Kernel => (x.1, x.2.unlink path)) (whence ≤ 2 ∧ 0 ≤ there ∧ there < offsetLimit)
        (there, k.setFile fd (some { f with offset := there.toNat })) (-1, k)).symm
  have reads : ∀ k : Kernel, (k.unlink path).read fd FileExtraData.sizeOf = ((k.read fd FileExtraData.sizeOf).1,
      (k.read fd FileExtraData.sizeOf).2.1, (k.read fd FileExtraData.sizeOf).2.2.unlink path) := by
    intro k
    simp only [Kernel.read, Kernel.unlink]
    split <;> (try split) <;> rfl
  cases getting with
  | query =>
    simp only [completes, getFileMapping, seeks, reads]
    split <;> rfl
  | rewind => simp only [completes, seeks, reads]
  | read => simp only [completes, seeks, reads]
  | restore readCnt copy => simp only [completes, seeks]
  | done found => rfl

/-! The invariant: every call that has its answer has the right one, and at most one has an offset
to restore, which it will. -/

def Settled (t : Table) (useSharedMem : Bool) : Phase → Prop
  | .outside => True
  | .saving e shared => shared = useSharedMem ∧ opens e = true
  | .asking _ fd shared getting => shared = useSharedMem ∧ (getting = .query ∨ getting = .done (recordOf t fd))
  | .cleaning _ fd shared found => shared = useSharedMem ∧ found = recordOf t fd

structure Calm (p : Process) (t : Table) (s : Start τ) : Prop where
  inv : Inv (mode p s.useSharedMem) t s.world
  phases : ∀ thread, Settled t s.useSharedMem (s.threads thread)

structure Lookup (p : Process) (t : Table) (s : Start τ) (thread : τ) (e : Event) (fd : Int) (getting : Getting)
    (w : World) : Prop where
  filed : s.useSharedMem = false
  inv : Inv (mode p false) t w
  frame : s.world = { w with toKernel := s.world.toKernel }
  there : s.threads thread = .asking e fd false getting
  others : ∀ other, other ≠ thread → Settled t false (s.threads other)
  towards : completes fd getting s.world.toKernel = (recordOf t fd, w.toKernel)

def Orderly (p : Process) (t : Table) (s : Start τ) : Prop :=
  Calm p t s ∨ ∃ thread e fd getting w, Lookup p t s thread e fd getting w ∧ (s.threads thread).midway

theorem putSettled {t' : Table} {shared : Bool} {thread : τ} {phase : Phase} {w : World} (own : Settled t' shared phase)
    (others : ∀ other, other ≠ thread → Settled t' shared (s.threads other)) (other : τ) :
    Settled t' shared ((s.put thread phase w).threads other) := by
  by_cases same : other = thread
  · rw [same]
    simpa only [Start.put, Function.update_self] using own
  · simpa only [Start.put, Function.update_of_ne same] using others other same

theorem lookupOrderly {thread : τ} {e : Event} {fd : Int} {getting : Getting} {w : World}
    (lookup : Lookup p t s thread e fd getting w) (asked : getting ≠ .query) : Orderly p t s := by
  have there := lookup.there
  cases getting with
  | query => exact absurd rfl asked
  | done found =>
    obtain ⟨filed, inv, frame, _, others, towards⟩ := lookup
    obtain ⟨rfl, kernel⟩ := Prod.mk.inj towards
    have world : s.world = w := by rw [frame, kernel]
    refine .inl ⟨by rw [filed, world]; exact inv, fun other => ?_⟩
    rw [filed]
    by_cases same : other = thread
    · rw [same, there]
      exact ⟨rfl, .inr rfl⟩
    · exact others other same
  | rewind | read | restore =>
    refine .inr ⟨thread, e, fd, _, w, lookup, ?_⟩
    rw [there]
    trivial

omit [DecidableEq τ] in
theorem moveCalm {thread : τ} (orderly : Orderly p t s) (order : InOrder p t s (.move thread))
    (still : ¬(s.threads thread).midway) : Calm p t s := by
  rcases orderly with calm | ⟨looker, e, fd, getting, w, lookup, midway⟩
  · exact calm
  · by_cases same : looker = thread
    · rw [same] at midway
      exact absurd midway still
    · exact absurd midway (order.1 looker same)

omit [DecidableEq τ] in
theorem lastStill {phase : Phase} {l : Last} (there : last phase = some l) : ¬phase.midway := by
  cases phase with
  | asking e fd shared getting =>
    cases getting with
    | query | done => exact id
    | rewind | read | restore => cases there
  | outside | saving | cleaning => exact id

omit [DecidableEq τ] in
theorem bootOrderly {c : Choice} (orderly : Orderly p t s) (order : InOrder p t s (.boot c)) :
    Orderly p t (initMappingData p c s) := by
  rcases orderly with ⟨inv, phases⟩ | ⟨thread, e, fd, getting, w, lookup, midway⟩
  · left
    unfold initMappingData
    split
    · rename_i boot
      split
      · rename_i ok
        obtain ⟨none, outside⟩ := order boot ok
        refine ⟨invSwitch inv none rfl rfl rfl, fun thread => ?_⟩
        rw [outside thread]
        trivial
      · exact ⟨inv, phases⟩
    · split <;> exact ⟨inv, phases⟩
    · exact ⟨inv, phases⟩
    · exact ⟨inv, phases⟩
    · exact ⟨inv, phases⟩
    · split
      · exact ⟨invUnlink inv _, phases⟩
      · exact ⟨inv, phases⟩
    · exact ⟨inv, phases⟩
  · right
    obtain ⟨filed, inv, frame, there, others, towards⟩ := lookup
    have same : ∀ boot dirThere, Lookup p t { s with boot := boot, dirThere := dirThere } thread e fd getting w :=
      fun _ _ => ⟨filed, inv, frame, there, others, towards⟩
    unfold initMappingData
    split
    · rename_i boot
      split
      · rename_i ok
        rw [(order boot ok).2 thread] at there
        cases there
      · exact ⟨thread, e, fd, getting, w, same _ _, midway⟩
    · split <;> exact ⟨thread, e, fd, getting, w, same _ _, midway⟩
    · exact ⟨thread, e, fd, getting, w, same _ _, midway⟩
    · exact ⟨thread, e, fd, getting, w, same _ _, midway⟩
    · exact ⟨thread, e, fd, getting, w, same _ _, midway⟩
    · rename_i fdFile fdFiles _
      split
      · refine ⟨thread, e, fd, getting, { w with toKernel := w.unlink fdFile },
          ⟨filed, invUnlink inv _, ?_, there, others, ?_⟩, midway⟩
        · show ({ s.world with toKernel := s.world.unlink fdFile } : World) = _
          rw [frame]
        · show completes fd getting (s.world.unlink fdFile) = _
          rw [completesUnlink, towards]
      · exact ⟨thread, e, fd, getting, w, same _ _, midway⟩
    · exact ⟨thread, e, fd, getting, w, same _ _, midway⟩

omit [DecidableEq τ] in
theorem enterSettled {e : Event} {phase : Phase} (enters : enter s e = some phase) : Settled t s.useSharedMem phase := by
  unfold enter at enters
  split at enters
  · rename_i opening
    cases enters
    exact ⟨rfl, opening⟩
  · obtain ⟨fd, _, rfl⟩ := Option.map_eq_some_iff.mp enters
    exact ⟨rfl, .inl rfl⟩

theorem callOrderly {thread : τ} {e : Event} {phase : Phase} (orderly : Orderly p t s)
    (free : s.threads thread = .outside) (enters : enter s e = some phase) :
    Orderly p t (s.put thread phase s.world) := by
  rcases orderly with ⟨inv, phases⟩ | ⟨looker, e', fd, getting, w, ⟨filed, inv, frame, there, others, towards⟩, midway⟩
  · exact .inl ⟨inv, putSettled (enterSettled enters) (fun other _ => phases other)⟩
  · have apart : looker ≠ thread := fun same => by
      rw [same, free] at there
      cases there
    refine .inr ⟨looker, e', fd, getting, w, ⟨filed, inv, frame, ?_, fun other away => ?_, towards⟩, ?_⟩
    · simpa only [Start.put, Function.update_of_ne apart] using there
    · by_cases same : other = thread
      · rw [same]
        simpa only [Start.put, Function.update_self] using filed ▸ enterSettled enters
      · simpa only [Start.put, Function.update_of_ne same] using others other away
    · simpa only [Start.put, Function.update_of_ne apart] using midway

theorem systemCallAsks (fd : Int) (k : Kernel) (getting : Getting) : (systemCall fd k getting).1 ≠ .query := by
  cases getting with
  | query =>
    simp only [systemCall]
    split <;> exact fun bad => by cases bad
  | rewind | read | restore | done => exact fun bad => by cases bad

theorem askOrderly {thread : τ} {e : Event} {fd : Int} {shared : Bool} {getting : Getting} (orderly : Orderly p t s)
    (there : s.threads thread = .asking e fd shared getting) (going : ∀ found, getting ≠ .done found)
    (order : InOrder p t s (.move thread)) :
    Orderly p t (s.put thread (.asking e fd shared (ask p fd s.world.toKernel shared getting).1)
      { s.world with toKernel := (ask p fd s.world.toKernel shared getting).2 }) := by
  rcases orderly with ⟨inv, phases⟩ | ⟨looker, e', fd', getting', w, lookup, midway⟩
  · obtain ⟨own, place⟩ : shared = s.useSharedMem ∧ (getting = .query ∨ getting = .done (recordOf t fd)) := by
      have here := phases thread
      rwa [there] at here
    obtain rfl := place.resolve_right (going _)
    have mapping := invMapping inv fd
    cases shared with
    | true =>
      have shared : (mode p s.useSharedMem).useSharedMem = true := own.symm
      rw [getMapping, if_pos shared] at mapping
      have found : getMemMapping p s.world.toKernel fd = recordOf t fd := congrArg Prod.fst mapping
      exact .inl ⟨inv, putSettled ⟨own, .inr (congrArg Getting.done found)⟩ (fun other _ => phases other)⟩
    | false =>
      have filed : (mode p s.useSharedMem).useSharedMem = false := own.symm
      rw [getMapping, if_neg (by rw [filed]; decide)] at mapping
      have found := congrArg Prod.fst mapping
      have still := congrArg (fun x => x.2.toKernel) mapping
      have lookup : Lookup p t (s.put thread (.asking e fd false (ask p fd s.world.toKernel false .query).1)
          { s.world with toKernel := (ask p fd s.world.toKernel false .query).2 }) thread e fd
          (systemCall fd s.world.toKernel .query).1 s.world := by
        refine ⟨own.symm, own ▸ inv, rfl, ?_, fun other apart => ?_, ?_⟩
        · simp only [Start.put, Function.update_self]
          rfl
        · simp only [Start.put, Function.update_of_ne apart]
          exact own ▸ phases other
        · exact (completesCall fd s.world.toKernel .query).trans (Prod.ext found still)
      exact lookupOrderly lookup (systemCallAsks fd _ _)
  · obtain rfl : looker = thread := by
      by_contra apart
      exact order.1 looker apart midway
    have same := lookup.there.symm.trans there
    cases same
    obtain ⟨filed, inv, frame, _, others, towards⟩ := lookup
    have lookup : Lookup p t (s.put looker (.asking e fd false (ask p fd s.world.toKernel false getting).1)
        { s.world with toKernel := (ask p fd s.world.toKernel false getting).2 }) looker e fd
        (systemCall fd s.world.toKernel getting).1 w := by
      refine ⟨filed, inv, ?_, ?_, fun other apart => ?_, ?_⟩
      · simp only [Start.put]
        rw [frame]
      · simp only [Start.put, Function.update_self]
        rfl
      · simp only [Start.put, Function.update_of_ne apart]
        exact others other apart
      · exact (completesCall fd s.world.toKernel getting).trans towards
    exact lookupOrderly lookup (systemCallAsks fd _ _)

theorem testCalm {thread : τ} {e : Event} {fd : Int} {shared : Bool} {found : Nat} (calm : Calm p t s)
    (there : s.threads thread = .asking e fd shared (.done found)) :
    Calm p t (s.put thread (.cleaning e fd s.useSharedMem found) s.world) := by
  obtain ⟨inv, phases⟩ := calm
  have here := phases thread
  rw [there] at here
  exact ⟨inv, putSettled ⟨rfl, by simpa using here.2⟩ (fun other _ => phases other)⟩

omit [DecidableEq τ] in
theorem lastStep {thread : τ} {l : Last} (calm : Calm p t s) (there : last (s.threads thread) = some l)
    (held : Held s.world (s.threads thread)) : l.shared = s.useSharedMem ∧
      resume (mode p l.shared) s.world l.fileExtraData l.e = step (mode p s.useSharedMem) s.world l.e := by
  have settled := calm.phases thread
  have asks : ∀ {e : Event} {fd : Int}, asked s.world e = some fd →
      resume (mode p s.useSharedMem) s.world (recordOf t fd) e = step (mode p s.useSharedMem) s.world e :=
    fun asks => stepResume asks (invMapping calm.inv _)
  cases phase : s.threads thread with
  | outside =>
    rw [phase] at there
    cases there
  | saving e shared =>
    rw [phase] at there settled
    obtain ⟨rfl, opening⟩ := settled
    cases there
    refine ⟨rfl, ?_⟩
    cases e with
    | myOpen => rfl
    | myFopen => rfl
    | _ => cases opening
  | asking e fd shared getting =>
    rw [phase] at there settled held
    obtain ⟨rfl, rfl | rfl⟩ := settled
    · cases there
    · simp only [last] at there
      split at there
      · cases there
      · cases there
        exact ⟨rfl, asks held⟩
  | cleaning e fd shared found =>
    rw [phase] at there settled held
    obtain ⟨rfl, rfl⟩ := settled
    cases there
    exact ⟨rfl, asks held⟩

theorem finishCalm {thread : τ} {l : Last} {w' : World} (calm : Calm p t s) (there : last (s.threads thread) = some l)
    (held : Held s.world (s.threads thread)) (allowed : Allowed (mode p l.shared) s.world l.e)
    (order : InOrder p t s (.move thread)) (done : resume (mode p l.shared) s.world l.fileExtraData l.e = .ok w') :
    Calm p ((effect (mode p l.shared) t s.world l.e).table t) (s.put thread .outside w') := by
  obtain ⟨_, saved, apart⟩ := order.2 l there
  obtain ⟨shared, whole⟩ := lastStep calm there held
  rw [whole] at done
  rw [shared] at allowed saved ⊢
  have later := ((stepSound calm.inv allowed).2 w' done).2 saved
  refine ⟨later, putSettled trivial (fun other same => ?_)⟩
  have before := calm.phases other
  have kept : ∀ fd, (s.threads other).on fd →
      recordOf ((effect (mode p s.useSharedMem) t s.world l.e).table t) fd = recordOf t fd := fun fd on => by
    rw [recordOf, recordOf, effectKeeps calm.inv (apart other same fd on)]
  cases phase : s.threads other with
  | outside => trivial
  | saving e shared =>
    rw [phase] at before
    exact before
  | asking e fd shared getting =>
    rw [phase] at before kept
    exact ⟨before.1, by rw [kept fd rfl]; exact before.2⟩
  | cleaning e fd shared found =>
    rw [phase] at before kept
    exact ⟨before.1, by rw [kept fd rfl]; exact before.2⟩

theorem startedOrderly (started : Started p (InOrder p) t s) : Orderly p t s := by
  induction started with
  | hooked fresh => exact .inl ⟨freshInv fresh, fun _ => trivial⟩
  | boot before met ih => exact bootOrderly ih met
  | call before free enters met ih => exact callOrderly ih free enters
  | ask before there going met ih => exact askOrderly ih there going met
  | test before there closing some met ih => exact .inl (testCalm (moveCalm ih met (by rw [there]; exact id)) there)
  | finish before there held allowed met done ih =>
    rw [lackingReady (met.2 _ there).1] at done ⊢
    exact .inl (finishCalm (moveCalm ih met (lastStill there)) there held allowed met done)

theorem startUpSteady (started : Started p (InOrder p) t s) : Steady p (InOrder p) t s where
  answered thread e fd shared found there := by
    have here : Settled t s.useSharedMem (s.threads thread) := by
      rcases startedOrderly started with calm | ⟨looker, e', fd', getting, w, lookup, midway⟩
      · exact calm.phases thread
      · rw [lookup.filed]
        refine lookup.others thread fun same => ?_
        rw [← same, there] at midway
        exact midway
    rw [there] at here
    simpa using here.2
  recognised outside fd r entry := by
    rcases startedOrderly started with calm | ⟨looker, e, fd', getting, w, lookup, midway⟩
    · rw [invMapping calm.inv, recordOf, entry]
    · rw [outside looker] at midway
      exact midway.elim
  survives thread l there allowed met exits := by
    rwa [lackingReady (met.2 l there).1] at exits

end

theorem lackingExits {p : Process} {w : World} {path : Bytes} {flags : Flags} {given : Given}
    (apk : isApk p w path = true) (opens : zipOpens p given = true)
    (refused : given.refused = true) : step p w (.myOpen path flags given) = .error (.stopped .exited) := by
  unfold zipOpens at opens
  split at opens
  · rename_i fp z opened
    simp only [step, myOpen, apk, if_true, openShadow, opened, inZip, bind, Except.bind, saveMappingExact, refused]
    rfl
  · cases opens

theorem switchForgets {p : Process} {k : Kernel} {fd : Int} {f : OpenFile} (shared : p.useSharedMem = true)
    (here : k.fds fd = some f) (regular : p.fileId f.node ≠ p.shmId) : found p k fd = NULL :=
  foreignFound here ⟨regular, fun filed => by rw [shared] at filed; cases filed⟩

def justHooked : Start Unit := ⟨apkOnly, .openShm, false, true, fun _ => .outside⟩

theorem hookedShort (condition : Table → Start Unit → StartEvent Unit → Prop) :
    Started (apkProcess shortPath) condition (fun _ => none) justHooked :=
  .hooked (apkFresh (savePathApart shortPath (by decide) (by decide)))

def openingFirst : Start Unit := justHooked.put () (.saving (openApk firstGiven) false) apkOnly

def openedBefore : Table × Start Unit :=
  ((effect (apkProcess shortPath) (fun _ => none) apkOnly (openApk firstGiven)).table (fun _ => none),
    openingFirst.put () .outside (nextWorld (apkProcess shortPath) apkOnly (openApk firstGiven)))

theorem openedStarted (condition : Table → Start Unit → StartEvent Unit → Prop)
    (called : condition (fun _ => none) justHooked (.call () (openApk firstGiven)))
    (moved : condition (fun _ => none) openingFirst (.move ())) :
    Started (apkProcess shortPath) condition openedBefore.1 openedBefore.2 := by
  have saving : Started (apkProcess shortPath) condition (fun _ => none) openingFirst :=
    .call (hookedShort condition) rfl rfl called
  have ready : lackingEvent (apkProcess shortPath) false openingFirst (openApk firstGiven) = openApk firstGiven :=
    lackingReady fun _ => .inr rfl
  have done : resume (mode (apkProcess shortPath) false) apkOnly NULL
      (lackingEvent (apkProcess shortPath) false openingFirst (openApk firstGiven)) =
      .ok (nextWorld (apkProcess shortPath) apkOnly (openApk firstGiven)) := by
    rw [ready]
    show step (apkProcess shortPath) apkOnly (openApk firstGiven) = _
    exact stepNext (by decide +kernel)
  have there : last (openingFirst.threads ()) = some ⟨openApk firstGiven, false, NULL⟩ := rfl
  have opened := saving.finish there trivial (firstAllowed shortPath) moved done
  rw [ready] at opened
  exact opened

theorem sampleStartUp : Steady (apkProcess shortPath) (InOrder (apkProcess shortPath)) openedBefore.1 openedBefore.2 := by
  refine startUpSteady (openedStarted _ trivial ⟨fun other apart => absurd rfl apart, fun l there => ?_⟩)
  cases there
  exact ⟨fun _ => .inr rfl, fun _ _ => ⟨by decide, (fun fd r bad => by cases bad)⟩, fun other apart => absurd rfl apart⟩

theorem openedTooEarly : ¬∀ (p : Process) (t : Table) (s : Start Unit), Started p (fun _ _ _ => True) t s →
    Steady p (fun _ _ _ => True) t s := by
  intro claim
  have early := openedStarted (fun _ _ _ => True) trivial trivial
  have switched := @Started.boot _ _ _ _ _ _ ⟨true, []⟩ early trivial
  have recognised := (claim _ _ _ switched).recognised (fun _ => rfl) 3 (newRecord (apkProcess shortPath) firstGiven) rfl
  exact absurd (congrArg Prod.fst recognised) (by decide +kernel)

end Bootstrap.FileMapping
