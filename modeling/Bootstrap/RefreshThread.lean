import Bootstrap.ElfImage
import Bootstrap.Locks
import Mathlib.Logic.Function.Iterate

/-! xh_core_refresh in any number of threads, and the thread that refreshes for them. xh_core_clear
is called by none. -/
namespace Bootstrap.Xhook.RefreshThread
open Locks

inductive Cond where
  | none | asleep | signalled
  deriving DecidableEq, Repr

def Cond.signal : Cond → Cond
  | .none => .none
  | _ => .signalled

/-- A thread is `none`, which xh_core_init_async_once creates, or one of the program. -/
structure Shared (τ : Type) where
  inited : Bool := false
  initOk : Bool := false
  asyncInited : Bool := false
  asyncInitOk : Bool := false
  threadRunning : Bool := false
  threadDo : Bool := false
  created : Bool := false
  cond : Cond := .none
  mutex : Option (Option τ) := none
  refreshMutex : Option (Option τ) := none

inductive Pc where
  | idle
  | initOnce (async : Bool)
  | initLock (async : Bool)
  | initAgain (async : Bool)
  | initOk (async : Bool)
  | initUnlock (async : Bool)
  | refresh (async : Bool)
  | asyncOnce
  | asyncLock
  | asyncAgain
  | asyncRunning
  | asyncCreate
  | asyncFailed
  | asyncOk
  | asyncUnlock
  | asyncReady
  | doLock
  | doSet
  | doSignal
  | doUnlock
  | syncLock
  | syncImpl
  | syncUnlock
  | returned (r : Nat)
  | unborn
  | loop
  | taskLock
  | taskTest
  | waiting
  | woken
  | exitUnlock
  | taskUnlock
  | implLock
  | impl
  | implUnlock
  | ended
  deriving DecidableEq, Repr

section
variable {τ : Type}

def lockMutex (me : Option τ) (sh : Shared τ) (here there : Pc) : Pc × Shared τ :=
  if sh.mutex = none then (there, { sh with mutex := some me }) else (here, sh)

def lockRefresh (me : Option τ) (sh : Shared τ) (here there : Pc) : Pc × Shared τ :=
  if sh.refreshMutex = none then (there, { sh with refreshMutex := some me }) else (here, sh)

/- The choice is whether a call is async, whether pthread_create succeeds, and whether
pthread_cond_wait returns without a signal. -/
def step (me : Option τ) (choice : Bool) (sh : Shared τ) : Pc → Pc × Shared τ
  | .idle => (.initOnce choice, sh)
  | .initOnce async => (if sh.inited then .refresh async else .initLock async, sh)
  | .initLock async => lockMutex me sh (.initLock async) (.initAgain async)
  | .initAgain async => if sh.inited then (.initUnlock async, sh) else (.initOk async, { sh with inited := true })
  | .initOk async => (.initUnlock async, { sh with initOk := true })
  | .initUnlock async => (.refresh async, { sh with mutex := none })
  | .refresh async =>
    (if !sh.initOk then .returned XH_ERRNO_UNKNOWN else if async then .asyncOnce else .syncLock, sh)
  | .asyncOnce => (if sh.asyncInited then .asyncReady else .asyncLock, sh)
  | .asyncLock => lockMutex me sh .asyncLock .asyncAgain
  | .asyncAgain => if sh.asyncInited then (.asyncUnlock, sh) else (.asyncRunning, { sh with asyncInited := true })
  | .asyncRunning => (.asyncCreate, { sh with threadRunning := true })
  | .asyncCreate => if choice then (.asyncOk, { sh with created := true }) else (.asyncFailed, sh)
  | .asyncFailed => (.asyncUnlock, { sh with threadRunning := false })
  | .asyncOk => (.asyncUnlock, { sh with asyncInitOk := true })
  | .asyncUnlock => (.asyncReady, { sh with mutex := none })
  | .asyncReady => (if !sh.asyncInitOk then .returned XH_ERRNO_UNKNOWN else .doLock, sh)
  | .doLock => lockMutex me sh .doLock .doSet
  | .doSet => (.doSignal, { sh with threadDo := true })
  | .doSignal => (.doUnlock, { sh with cond := sh.cond.signal })
  | .doUnlock => (.returned 0, { sh with mutex := none })
  | .syncLock => lockRefresh me sh .syncLock .syncImpl
  | .syncImpl => (.syncUnlock, sh)
  | .syncUnlock => (.returned 0, { sh with refreshMutex := none })
  | .returned _ => (.idle, sh)
  | .unborn => (if sh.created then .loop else .unborn, sh)
  | .loop => (if sh.threadRunning then .taskLock else .ended, sh)
  | .taskLock => lockMutex me sh .taskLock .taskTest
  | .taskTest =>
    if !sh.threadDo && sh.threadRunning then (.waiting, { sh with mutex := none, cond := .asleep })
    else if !sh.threadRunning then (.exitUnlock, sh)
    else (.taskUnlock, { sh with threadDo := false })
  | .waiting => if sh.cond = .signalled ∨ choice then (.woken, { sh with cond := .none }) else (.waiting, sh)
  | .woken => lockMutex me sh .woken .taskTest
  | .exitUnlock => (.ended, { sh with mutex := none })
  | .taskUnlock => (.implLock, { sh with mutex := none })
  | .implLock => lockRefresh me sh .implLock .impl
  | .impl => (.implUnlock, sh)
  | .implUnlock => (.loop, { sh with refreshMutex := none })
  | .ended => (.ended, sh)

structure System (τ : Type) where
  shared : Shared τ
  pcs : Option τ → Pc

def start : System τ := ⟨{}, fun w => if w.isNone then .unborn else .idle⟩

def move [DecidableEq τ] (s : System τ) (turn : Option τ × Bool) : System τ :=
  let next := step turn.1 turn.2 s.shared (s.pcs turn.1)
  ⟨next.2, Function.update s.pcs turn.1 next.1⟩

def run [DecidableEq τ] (s : System τ) (schedule : List (Option τ × Bool)) : System τ := schedule.foldl move s

def Pc.locks : Pc → Bool
  | .initAgain _ | .initOk _ | .initUnlock _ | .asyncAgain | .asyncRunning | .asyncCreate | .asyncFailed | .asyncOk
  | .asyncUnlock | .doSet | .doSignal | .doUnlock | .taskTest | .exitUnlock | .taskUnlock => true
  | _ => false

def Pc.refreshes : Pc → Bool
  | .syncImpl | .syncUnlock | .impl | .implUnlock => true
  | _ => false

def Pc.worker : Pc → Bool
  | .unborn | .loop | .taskLock | .taskTest | .waiting | .woken | .exitUnlock | .taskUnlock | .implLock | .impl | .implUnlock
  | .ended => true
  | _ => false

theorem lockMutexMoves (me : Option τ) (sh : Shared τ) {here there : Pc} (free : here.locks = false) (held : there.locks = true) :
    Move me here.locks (lockMutex me sh here there).1.locks sh.mutex (lockMutex me sh here there).2.mutex := by
  unfold lockMutex
  split
  · rename_i none_
    rw [free, none_, held]
    exact .takes
  · exact .keeps _ _

theorem lockRefreshMoves (me : Option τ) (sh : Shared τ) {here there : Pc} (free : here.refreshes = false)
    (held : there.refreshes = true) :
    Move me here.refreshes (lockRefresh me sh here there).1.refreshes sh.refreshMutex (lockRefresh me sh here there).2.refreshMutex := by
  unfold lockRefresh
  split
  · rename_i none_
    rw [free, none_, held]
    exact .takes
  · exact .keeps _ _

theorem lockMutexOther (me : Option τ) (sh : Shared τ) {here there : Pc} (same : there.refreshes = here.refreshes) :
    Move me here.refreshes (lockMutex me sh here there).1.refreshes sh.refreshMutex (lockMutex me sh here there).2.refreshMutex := by
  unfold lockMutex
  split
  · rw [same]
    exact .keeps _ _
  · exact .keeps _ _

theorem lockRefreshOther (me : Option τ) (sh : Shared τ) {here there : Pc} (same : there.locks = here.locks) :
    Move me here.locks (lockRefresh me sh here there).1.locks sh.mutex (lockRefresh me sh here there).2.mutex := by
  unfold lockRefresh
  split
  · rw [same]
    exact .keeps _ _
  · exact .keeps _ _

theorem stepLocks (me : Option τ) (choice : Bool) (sh : Shared τ) (pc : Pc) :
    Move me pc.locks (step me choice sh pc).1.locks sh.mutex (step me choice sh pc).2.mutex := by
  cases pc <;> simp only [step] <;> (repeat' split) <;>
    first | exact .keeps _ _ | exact .gives _ | exact lockMutexMoves me sh rfl rfl | exact lockRefreshOther me sh rfl

theorem stepRefreshes (me : Option τ) (choice : Bool) (sh : Shared τ) (pc : Pc) :
    Move me pc.refreshes (step me choice sh pc).1.refreshes sh.refreshMutex (step me choice sh pc).2.refreshMutex := by
  cases pc <;> simp only [step] <;> (repeat' split) <;>
    first | exact .keeps _ _ | exact .gives _ | exact lockRefreshMoves me sh rfl rfl | exact lockMutexOther me sh rfl

/-! What the flags are while nobody holds the mutex, and while a thread holds it at a statement. -/

@[mk_iff] structure Calm (sh : Shared τ) : Prop where
  initOk : sh.initOk = sh.inited
  asyncOk : sh.asyncInitOk = sh.created
  running : sh.threadRunning = sh.created
  created : sh.created = true → sh.asyncInited = true
  asyncInited : sh.asyncInited = true → sh.inited = true
  asked : sh.threadDo = true → sh.created = true
  awake : sh.cond = .asleep → sh.threadDo = false

def Guarded (sh : Shared τ) : Pc → Prop
  | .initOk _ => Calm { sh with initOk := true } ∧ sh.inited = true ∧ sh.initOk = false
  | .initUnlock _ => Calm sh ∧ sh.inited = true
  | .asyncAgain => Calm sh ∧ sh.inited = true
  | .asyncRunning => Calm sh ∧ sh.asyncInited = true ∧ sh.created = false
  | .asyncCreate => Calm { sh with threadRunning := false } ∧ sh.asyncInited = true ∧ sh.created = false ∧ sh.threadRunning = true
  | .asyncFailed => Calm { sh with threadRunning := false } ∧ sh.asyncInited = true ∧ sh.created = false
  | .asyncOk => Calm { sh with asyncInitOk := true } ∧ sh.created = true ∧ sh.asyncInitOk = false
  | .asyncUnlock => Calm sh ∧ sh.asyncInited = true
  | .doSet => Calm sh ∧ sh.created = true
  | .doSignal => Calm { sh with cond := .none } ∧ sh.created = true
  | .taskTest => Calm sh ∧ sh.created = true
  | .taskUnlock => Calm sh ∧ sh.created = true
  | .exitUnlock => False
  | _ => Calm sh

/-- What a thread without the mutex knows, and nothing takes back. -/
def Fits (sh : Shared τ) : Pc → Prop
  | .refresh _ => sh.inited = true
  | .asyncOnce => sh.inited = true
  | .asyncLock => sh.inited = true
  | .asyncReady => sh.asyncInited = true
  | .doLock => sh.created = true
  | .loop => sh.created = true
  | .taskLock => sh.created = true
  | .waiting => sh.created = true
  | .woken => sh.created = true
  | .implLock => sh.created = true
  | .impl => sh.created = true
  | .implUnlock => sh.created = true
  | .ended => False
  | _ => True

structure Grows (sh sh' : Shared τ) : Prop where
  inited : sh.inited = true → sh'.inited = true
  asyncInited : sh.asyncInited = true → sh'.asyncInited = true
  created : sh.created = true → sh'.created = true

theorem fitsGrows {sh sh' : Shared τ} (grows : Grows sh sh') {pc : Pc} (fits : Fits sh pc) : Fits sh' pc := by
  cases pc <;> first | exact trivial | exact grows.inited fits | exact grows.asyncInited fits | exact grows.created fits | exact fits

theorem stepGrows (me : Option τ) (choice : Bool) (sh : Shared τ) (pc : Pc) : Grows sh (step me choice sh pc).2 := by
  cases pc <;> simp only [step, lockMutex, lockRefresh] <;> (repeat' split) <;> constructor <;> simp

theorem stepHeld (me : Option τ) (choice : Bool) {sh : Shared τ} {pc : Pc} (locks : pc.locks = true) (guarded : Guarded sh pc) :
    if (step me choice sh pc).1.locks = true then Guarded (step me choice sh pc).2 (step me choice sh pc).1
    else Calm (step me choice sh pc).2 ∧ Fits (step me choice sh pc).2 (step me choice sh pc).1 := by
  cases pc <;> simp only [Pc.locks, Bool.false_eq_true] at locks <;> simp only [Guarded, calm_iff] at guarded <;>
    simp only [step] <;> (repeat' split) <;> simp_all [Guarded, Fits, Pc.locks, calm_iff, Cond.signal] <;> grind

structure Same (sh sh' : Shared τ) : Prop where
  flags : sh'.inited = sh.inited ∧ sh'.initOk = sh.initOk ∧ sh'.asyncInited = sh.asyncInited ∧ sh'.asyncInitOk = sh.asyncInitOk ∧
    sh'.threadRunning = sh.threadRunning ∧ sh'.threadDo = sh.threadDo ∧ sh'.created = sh.created
  cond : sh'.cond = sh.cond ∨ sh'.cond = .none

theorem calmSame {sh sh' : Shared τ} (same : Same sh sh') (calm : Calm sh) : Calm sh' := by
  obtain ⟨⟨one, two, three, four, five, six, seven⟩, cond⟩ := same
  rw [calm_iff] at calm ⊢
  rw [one, two, three, four, five, six, seven]
  rcases cond with cond | cond <;> simp_all

theorem guardedSame {sh sh' : Shared τ} (same : Same sh sh') {pc : Pc} (guarded : Guarded sh pc) : Guarded sh' pc := by
  obtain ⟨one, two, three, four, five, six, seven⟩ := same.flags
  have calm : Calm sh → Calm sh' := calmSame same
  have initOk : Calm { sh with initOk := true } → Calm { sh' with initOk := true } :=
    calmSame ⟨⟨one, rfl, three, four, five, six, seven⟩, same.cond⟩
  have running : Calm { sh with threadRunning := false } → Calm { sh' with threadRunning := false } :=
    calmSame ⟨⟨one, two, three, four, rfl, six, seven⟩, same.cond⟩
  have asyncOk : Calm { sh with asyncInitOk := true } → Calm { sh' with asyncInitOk := true } :=
    calmSame ⟨⟨one, two, three, rfl, five, six, seven⟩, same.cond⟩
  have cond : Calm { sh with cond := .none } → Calm { sh' with cond := .none } := calmSame ⟨same.flags, .inl rfl⟩
  cases pc with
  | initOk => exact ⟨initOk guarded.1, one.trans guarded.2.1, two.trans guarded.2.2⟩
  | initUnlock | asyncAgain => exact ⟨calm guarded.1, one.trans guarded.2⟩
  | asyncRunning => exact ⟨calm guarded.1, three.trans guarded.2.1, seven.trans guarded.2.2⟩
  | asyncCreate =>
    exact ⟨running guarded.1, three.trans guarded.2.1, seven.trans guarded.2.2.1, five.trans guarded.2.2.2⟩
  | asyncFailed => exact ⟨running guarded.1, three.trans guarded.2.1, seven.trans guarded.2.2⟩
  | asyncOk => exact ⟨asyncOk guarded.1, seven.trans guarded.2.1, four.trans guarded.2.2⟩
  | asyncUnlock => exact ⟨calm guarded.1, three.trans guarded.2⟩
  | doSignal => exact ⟨cond guarded.1, seven.trans guarded.2⟩
  | doSet | taskTest | taskUnlock => exact ⟨calm guarded.1, seven.trans guarded.2⟩
  | exitUnlock => exact guarded
  | _ => exact calm guarded

structure Known (sh : Shared τ) : Prop where
  running : sh.created = true → sh.threadRunning = true
  asyncOk : sh.asyncInitOk = true → sh.created = true

theorem calmKnown {sh : Shared τ} (calm : Calm sh) : Known sh :=
  ⟨fun created => calm.running.trans created, fun ok => calm.asyncOk.symm.trans ok⟩

theorem locksFits {sh : Shared τ} {pc : Pc} (locks : pc.locks = true) (guarded : Guarded sh pc) : Fits sh pc := by
  cases pc <;> first | exact trivial | cases locks

theorem guardedKnown {sh : Shared τ} {pc : Pc} (guarded : Guarded sh pc) : Known sh := by
  cases pc <;> simp only [Guarded, calm_iff] at guarded <;> constructor <;> simp_all

def Leaves (sh : Shared τ) (next : Pc × Shared τ) : Prop :=
  if next.1.locks = true then Calm sh → Guarded next.2 next.1 else Same sh next.2 ∧ Fits next.2 next.1

theorem plainLeaves {sh sh' : Shared τ} {pc : Pc} (free : pc.locks = false) (same : Same sh sh') (fits : Fits sh' pc) :
    Leaves sh (pc, sh') := by
  unfold Leaves
  rw [free, if_neg Bool.false_ne_true]
  exact ⟨same, fits⟩

theorem lockMutexLeaves (me : Option τ) {sh : Shared τ} {here there : Pc} (free : here.locks = false) (held : there.locks = true)
    (fits : Fits sh here) (guarded : Calm sh → Guarded sh there) : Leaves sh (lockMutex me sh here there) := by
  by_cases unlocked : sh.mutex = none
  · have same : Same sh { sh with mutex := some me } := ⟨⟨rfl, rfl, rfl, rfl, rfl, rfl, rfl⟩, .inl rfl⟩
    rw [lockMutex, if_pos unlocked, Leaves, if_pos held]
    exact fun calm => guardedSame same (guarded calm)
  · rw [lockMutex, if_neg unlocked]
    exact plainLeaves free ⟨⟨rfl, rfl, rfl, rfl, rfl, rfl, rfl⟩, .inl rfl⟩ fits

theorem lockRefreshLeaves (me : Option τ) {sh : Shared τ} {here there : Pc} (free : here.locks = false) (free' : there.locks = false)
    (fits : Fits sh here) (fits' : Fits sh there) : Leaves sh (lockRefresh me sh here there) := by
  unfold lockRefresh
  split
  · exact plainLeaves free' ⟨⟨rfl, rfl, rfl, rfl, rfl, rfl, rfl⟩, .inl rfl⟩ (fitsGrows ⟨id, id, id⟩ fits')
  · exact plainLeaves free ⟨⟨rfl, rfl, rfl, rfl, rfl, rfl, rfl⟩, .inl rfl⟩ fits

theorem stepFree (me : Option τ) (choice : Bool) {sh : Shared τ} {pc : Pc} (free : pc.locks = false) (fits : Fits sh pc)
    (known : Known sh) : Leaves sh (step me choice sh pc) := by
  have same : Same sh sh := ⟨⟨rfl, rfl, rfl, rfl, rfl, rfl, rfl⟩, .inl rfl⟩
  cases pc with
  | initLock => exact lockMutexLeaves me free rfl fits id
  | asyncLock | doLock | woken | taskLock => exact lockMutexLeaves me free rfl fits fun calm => ⟨calm, fits⟩
  | syncLock => exact lockRefreshLeaves me free rfl fits trivial
  | implLock => exact lockRefreshLeaves me free rfl fits fits
  | initOnce async =>
    simp only [step]
    split
    · rename_i inited
      exact plainLeaves rfl same inited
    · exact plainLeaves rfl same trivial
  | refresh async =>
    simp only [step]
    split
    · exact plainLeaves rfl same trivial
    · split
      · exact plainLeaves rfl same fits
      · exact plainLeaves rfl same trivial
  | asyncOnce =>
    simp only [step]
    split
    · rename_i inited
      exact plainLeaves rfl same inited
    · exact plainLeaves rfl same fits
  | asyncReady =>
    simp only [step]
    split
    · exact plainLeaves rfl same trivial
    · rename_i ok
      exact plainLeaves rfl same (known.asyncOk (by simpa using ok))
  | unborn =>
    simp only [step]
    split
    · rename_i created
      exact plainLeaves rfl same created
    · exact plainLeaves rfl same trivial
  | loop =>
    simp only [step, known.running fits, if_true]
    exact plainLeaves rfl same fits
  | waiting =>
    simp only [step]
    split
    · exact plainLeaves rfl ⟨⟨rfl, rfl, rfl, rfl, rfl, rfl, rfl⟩, .inr rfl⟩ fits
    · exact plainLeaves rfl same fits
  | syncUnlock | implUnlock => exact plainLeaves rfl ⟨⟨rfl, rfl, rfl, rfl, rfl, rfl, rfl⟩, .inl rfl⟩ fits
  | _ => first | exact plainLeaves rfl same trivial | exact plainLeaves rfl same fits | cases free

theorem guardedInit {sh : Shared τ} {pc : Pc} (guarded : Guarded sh pc) (failed : sh.initOk = false) (inited : sh.inited = true) :
    ∃ async, pc = .initOk async := by
  cases pc with
  | initOk async => exact ⟨async, rfl⟩
  | _ => simp_all [Guarded, calm_iff]

theorem guardedAsync {sh : Shared τ} {pc : Pc} (guarded : Guarded sh pc) (failed : sh.asyncInitOk = false)
    (created : sh.created = true) : pc = .asyncOk := by
  cases pc with
  | asyncOk => rfl
  | _ => simp_all [Guarded, calm_iff]

theorem stepWorker (me : Option τ) (choice : Bool) (sh : Shared τ) (pc : Pc) : (step me choice sh pc).1.worker = pc.worker := by
  cases pc <;> simp only [step, lockMutex, lockRefresh] <;> (repeat' split) <;> rfl

theorem stepSleeps (me : Option τ) (choice : Bool) {sh : Shared τ} {pc : Pc} (sleeps : sh.cond ≠ .none ↔ pc = .waiting) :
    (step me choice sh pc).2.cond ≠ .none ↔ (step me choice sh pc).1 = .waiting := by
  cases pc <;> simp only [step, lockMutex, lockRefresh] <;> (repeat' split) <;> simp_all [Cond.signal]

theorem stepAwake (me : Option τ) (choice : Bool) (sh : Shared τ) {pc : Pc} (program : pc.worker = false) :
    (step me choice sh pc).2.cond ≠ .none ↔ sh.cond ≠ .none := by
  cases pc <;> cases program <;> simp only [step, lockMutex, lockRefresh] <;> (repeat' split) <;> try exact Iff.rfl
  cases sh.cond <;> simp [Cond.signal]

/-- How far the thread is from its test of the request. -/
def Pc.left : Pc → Nat
  | .taskLock | .woken => 1
  | .loop | .waiting => 2
  | .unborn | .implUnlock => 3
  | .impl => 4
  | .implLock => 5
  | .taskUnlock => 6
  | _ => 0

theorem leftBound (pc : Pc) : pc.left ≤ 6 := by cases pc <;> simp only [Pc.left] <;> decide

theorem stepCreated (me : Option τ) (choice : Bool) (sh : Shared τ) {pc : Pc} (other : ¬(pc = .asyncCreate ∧ choice = true)) :
    (step me choice sh pc).2.created = sh.created := by
  cases pc <;> simp only [step, lockMutex, lockRefresh] <;> (repeat' split) <;> simp_all

theorem stepAsked (me : Option τ) (choice : Bool) {sh : Shared τ} {pc : Pc} (other : pc ≠ .taskTest) (asked : sh.threadDo = true) :
    (step me choice sh pc).2.threadDo = true := by
  cases pc <;> simp only [step, lockMutex, lockRefresh] <;> (repeat' split) <;> first | exact asked | rfl | exact (other rfl).elim

structure Inv (s : System τ) : Prop where
  mutex : Held (Pc.locks ∘ s.pcs) s.shared.mutex
  refreshMutex : Held (Pc.refreshes ∘ s.pcs) s.shared.refreshMutex
  fits : ∀ w, Fits s.shared (s.pcs w)
  calm : s.shared.mutex = none → Calm s.shared
  guarded : ∀ w, (s.pcs w).locks = true → Guarded s.shared (s.pcs w)
  role : ∀ w, (s.pcs w).worker = w.isNone
  sleeps : s.shared.cond ≠ .none ↔ s.pcs none = .waiting

theorem invKnown {s : System τ} (inv : Inv s) : Known s.shared := by
  cases owner : s.shared.mutex with
  | none => exact calmKnown (inv.calm owner)
  | some w => exact guardedKnown (inv.guarded w ((inv.mutex w).mpr owner))

theorem initFails {s : System τ} (inv : Inv s) (inited : s.shared.inited = true) :
    s.shared.initOk = false ↔ ∃ w async, s.pcs w = .initOk async := by
  constructor
  · intro failed
    cases owner : s.shared.mutex with
    | none => cases (failed.symm.trans (inv.calm owner).initOk).trans inited
    | some w => exact ⟨w, guardedInit (inv.guarded w ((inv.mutex w).mpr owner)) failed inited⟩
  · rintro ⟨w, async, at_⟩
    have guarded := inv.guarded w (by rw [at_]; rfl)
    rw [at_] at guarded
    exact guarded.2.2

theorem asyncFails {s : System τ} (inv : Inv s) :
    s.shared.asyncInitOk = false ↔ s.shared.created = false ∨ ∃ w, s.pcs w = .asyncOk := by
  constructor
  · intro failed
    cases created : s.shared.created with
    | false => exact .inl rfl
    | true =>
      cases owner : s.shared.mutex with
      | none => cases (failed.symm.trans (inv.calm owner).asyncOk).trans created
      | some w => exact .inr ⟨w, guardedAsync (inv.guarded w ((inv.mutex w).mpr owner)) failed created⟩
  · rintro (absent | ⟨w, at_⟩)
    · exact Bool.eq_false_iff.mpr fun ok => absurd ((invKnown inv).asyncOk ok) (by simp [absent])
    · have guarded := inv.guarded w (by rw [at_]; rfl)
      rw [at_] at guarded
      exact guarded.2.2

theorem startInv : Inv (start (τ := τ)) where
  mutex w := by cases w <;> simp [start, Pc.locks]
  refreshMutex w := by cases w <;> simp [start, Pc.refreshes]
  fits w := by cases w <;> exact trivial
  calm _ := by simp [calm_iff, start]
  guarded w locks := by cases w <;> cases locks
  role w := by cases w <;> rfl
  sleeps := by simp [start]

structure Pending (s : System τ) : Prop where
  inv : Inv s
  asked : s.shared.threadDo = true
  locks : ∀ t, (s.pcs (some t)).locks = false
  refreshes : ∀ t, (s.pcs (some t)).refreshes = false

theorem pendingFree {s : System τ} (pending : Pending s) (locks : (s.pcs none).locks = false) : s.shared.mutex = none := by
  cases owner : s.shared.mutex with
  | none => rfl
  | some w =>
    have held := (pending.inv.mutex w).mpr owner
    cases w with
    | none => cases locks.symm.trans held
    | some t => cases (pending.locks t).symm.trans held

theorem pendingRefreshFree {s : System τ} (pending : Pending s) (refreshes : (s.pcs none).refreshes = false) :
    s.shared.refreshMutex = none := by
  cases owner : s.shared.refreshMutex with
  | none => rfl
  | some w =>
    have held := (pending.inv.refreshMutex w).mpr owner
    cases w with
    | none => cases refreshes.symm.trans held
    | some t => cases (pending.refreshes t).symm.trans held

theorem pendingTest {s : System τ} (pending : Pending s) (left : (s.pcs none).left = 0) : s.pcs none = .taskTest := by
  have fits := pending.inv.fits none
  have guarded := pending.inv.guarded none
  have role : (s.pcs none).worker = true := pending.inv.role none
  cases at_ : s.pcs none <;> rw [at_] at left fits guarded role <;>
    first | rfl | exact fits.elim | exact (guarded rfl).elim | exact absurd role Bool.false_ne_true | exact absurd left (by decide)

section
variable [DecidableEq τ]

theorem moveMe (s : System τ) (me : Option τ) (choice : Bool) :
    (move s (me, choice)).pcs me = (step me choice s.shared (s.pcs me)).1 := Function.update_self ..

theorem moveOther (s : System τ) (choice : Bool) {me w : Option τ} (other : w ≠ me) : (move s (me, choice)).pcs w = s.pcs w :=
  Function.update_of_ne other ..

theorem moveFits {s : System τ} (inv : Inv s) (me : Option τ) (choice : Bool)
    (mine : Fits (move s (me, choice)).shared (step me choice s.shared (s.pcs me)).1) (w : Option τ) :
    Fits (move s (me, choice)).shared ((move s (me, choice)).pcs w) := by
  by_cases own : w = me
  · rw [own, moveMe]
    exact mine
  · rw [moveOther s choice own]
    exact fitsGrows (stepGrows me choice s.shared (s.pcs me)) (inv.fits w)

section
variable {s : System τ} (inv : Inv s) (me : Option τ) (choice : Bool)
include inv

theorem moveMutex : Held (Pc.locks ∘ (move s (me, choice)).pcs) (move s (me, choice)).shared.mutex := by
  simp only [move, Function.comp_update]
  exact heldMove inv.mutex (stepLocks me choice s.shared (s.pcs me))

theorem moveRefreshMutex : Held (Pc.refreshes ∘ (move s (me, choice)).pcs) (move s (me, choice)).shared.refreshMutex := by
  simp only [move, Function.comp_update]
  exact heldMove inv.refreshMutex (stepRefreshes me choice s.shared (s.pcs me))

theorem moveRole (w : Option τ) : ((move s (me, choice)).pcs w).worker = w.isNone := by
  by_cases own : w = me
  · rw [own, moveMe, stepWorker]
    exact inv.role me
  · rw [moveOther s choice own]
    exact inv.role w

theorem moveSleeps : (move s (me, choice)).shared.cond ≠ .none ↔ (move s (me, choice)).pcs none = .waiting := by
  cases me with
  | none =>
    simp only [move, Function.update_self]
    exact stepSleeps none choice inv.sleeps
  | some t =>
    simp only [move, Function.update_of_ne (Option.some_ne_none t).symm]
    exact (stepAwake (some t) choice s.shared (inv.role (some t))).trans inv.sleeps

/- A step of the thread that holds the mutex: no other one can be in a critical section. -/
theorem moveHeld (locks : (s.pcs me).locks = true) : Inv (move s (me, choice)) := by
  have mutex := moveMutex inv me choice
  have next := stepHeld me choice locks (inv.guarded me locks)
  have alone : ∀ w, ((move s (me, choice)).pcs w).locks = true → w = me := by
    intro w other
    by_contra own
    rw [moveOther s choice own] at other
    exact own (heldOne inv.mutex other locks)
  split at next
  · rename_i after
    refine ⟨mutex, moveRefreshMutex inv me choice, moveFits inv me choice (locksFits after next), fun free => ?_,
      fun w other => ?_, moveRole inv me choice, moveSleeps inv me choice⟩
    · have held := (mutex me).mp (by rw [Function.comp_apply, moveMe]; exact after)
      cases free.symm.trans held
    · rw [alone w other, moveMe]
      exact next
  · rename_i after
    refine ⟨mutex, moveRefreshMutex inv me choice, moveFits inv me choice next.2, fun _ => next.1, fun w other => ?_,
      moveRole inv me choice, moveSleeps inv me choice⟩
    rw [alone w other, moveMe] at other
    exact (after other).elim

/- A step of another thread takes the mutex while it is free, or leaves what it guards alone. -/
theorem moveFree (locks : (s.pcs me).locks = false) : Inv (move s (me, choice)) := by
  have mutex := moveMutex inv me choice
  have next := stepFree me choice locks (inv.fits me) (invKnown inv)
  have lock := stepLocks me choice s.shared (s.pcs me)
  rw [locks] at lock
  unfold Leaves at next
  split at next
  · rename_i after
    rw [after] at lock
    generalize before : s.shared.mutex = owner at lock
    generalize (step me choice s.shared (s.pcs me)).2.mutex = owner' at lock
    cases lock
    have guarded := next (inv.calm before)
    refine ⟨mutex, moveRefreshMutex inv me choice, moveFits inv me choice (locksFits after guarded), fun free => ?_,
      fun w other => ?_, moveRole inv me choice, moveSleeps inv me choice⟩
    · have held := (mutex me).mp (by rw [Function.comp_apply, moveMe]; exact after)
      cases free.symm.trans held
    · by_cases own : w = me
      · rw [own, moveMe]
        exact guarded
      · rw [moveOther s choice own] at other
        cases before.symm.trans ((inv.mutex w).mp other)
  · rename_i after
    rw [Bool.eq_false_iff.mpr after] at lock
    have same : (move s (me, choice)).shared.mutex = s.shared.mutex := by
      simp only [move]
      generalize s.shared.mutex = owner at lock
      generalize (step me choice s.shared (s.pcs me)).2.mutex = owner' at lock
      cases lock
      rfl
    refine ⟨mutex, moveRefreshMutex inv me choice, moveFits inv me choice next.2, fun free => ?_, fun w other => ?_,
      moveRole inv me choice, moveSleeps inv me choice⟩
    · exact calmSame next.1 (inv.calm (same.symm.trans free))
    · by_cases own : w = me
      · rw [own, moveMe] at other
        exact (after other).elim
      · rw [moveOther s choice own] at other ⊢
        exact guardedSame next.1 (inv.guarded w other)

end

theorem moveInv {s : System τ} (inv : Inv s) (turn : Option τ × Bool) : Inv (move s turn) := by
  cases locks : (s.pcs turn.1).locks with
  | true => exact moveHeld inv turn.1 turn.2 locks
  | false => exact moveFree inv turn.1 turn.2 locks

theorem runInv {s : System τ} (inv : Inv s) (schedule : List (Option τ × Bool)) : Inv (run s schedule) := by
  induction schedule generalizing s with
  | nil => exact inv
  | cons turn rest ih => exact ih (moveInv inv turn)

def creations (s : System τ) : List (Option τ × Bool) → Nat
  | [] => 0
  | turn :: rest => (if s.pcs turn.1 = .asyncCreate ∧ turn.2 = true then 1 else 0) + creations (move s turn) rest

theorem creationsLeft {s : System τ} (inv : Inv s) (schedule : List (Option τ × Bool)) :
    creations s schedule ≤ if s.shared.created then 0 else 1 := by
  induction schedule generalizing s with
  | nil => exact Nat.zero_le _
  | cons turn rest ih =>
    have later := ih (moveInv inv turn)
    unfold creations
    split
    · rename_i creating
      have guarded := inv.guarded turn.1 (by rw [creating.1]; rfl)
      rw [creating.1] at guarded
      have created : (move s turn).shared.created = true := by
        simp only [move, creating.1, creating.2, step, if_true]
      rw [created] at later
      rw [guarded.2.2.1]
      simpa using later
    · rename_i other
      have same : (move s turn).shared.created = s.shared.created := stepCreated turn.1 turn.2 s.shared other
      rw [← same]
      omega

theorem refreshAlone (schedule : List (Option τ × Bool)) :
    (∀ a b, ((run start schedule).pcs a).refreshes = true → ((run start schedule).pcs b).refreshes = true → a = b) ∧
      creations (start : System τ) schedule ≤ 1 :=
  ⟨fun _ _ => heldOne (runInv startInv schedule).refreshMutex, creationsLeft startInv schedule⟩

theorem pendingMove {s : System τ} (pending : Pending s) (other : s.pcs none ≠ .taskTest) : Pending (move s (none, false)) where
  inv := moveInv pending.inv (none, false)
  asked := stepAsked none false other pending.asked
  locks t := by rw [moveOther s false (Option.some_ne_none t)]; exact pending.locks t
  refreshes t := by rw [moveOther s false (Option.some_ne_none t)]; exact pending.refreshes t

theorem pendingLeft {s : System τ} (pending : Pending s) {k : Nat} (left : (s.pcs none).left = k + 1) :
    ((move s (none, false)).pcs none).left = k := by
  have fits := pending.inv.fits none
  have known := invKnown pending.inv
  rw [moveMe]
  cases at_ : s.pcs none <;> rw [at_] at left fits <;> simp only [Pc.left] at left <;> cases left
  case taskLock | woken => rw [step, lockMutex, if_pos (pendingFree pending (by rw [at_]; rfl))]; rfl
  case loop => rw [step, if_pos (known.running fits)]; rfl
  case waiting =>
    have free := pendingFree pending (by rw [at_]; rfl)
    have signalled : s.shared.cond = .signalled := by
      cases cond : s.shared.cond with
      | none => exact (pending.inv.sleeps.mpr at_ cond).elim
      | asleep => cases pending.asked.symm.trans ((pending.inv.calm free).awake cond)
      | signalled => rfl
    rw [step, if_pos (.inl signalled)]
    rfl
  case unborn =>
    have free := pendingFree pending (by rw [at_]; rfl)
    rw [step, (pending.inv.calm free).asked pending.asked]
    rfl
  case implLock => rw [step, lockRefresh, if_pos (pendingRefreshFree pending (by rw [at_]; rfl))]; rfl
  all_goals rfl

theorem pendingServed {k : Nat} {s : System τ} (pending : Pending s) (left : (s.pcs none).left = k) :
    (run s (List.replicate (k + 3) (none, false))).pcs none = .impl ∧
      (run s (List.replicate (k + 3) (none, false))).shared.threadDo = false := by
  induction k generalizing s with
  | zero =>
    have test := pendingTest pending left
    have running : s.shared.threadRunning = true := (invKnown pending.inv).running (by
      have guarded := pending.inv.guarded none (by rw [test]; rfl)
      rw [test] at guarded
      exact guarded.2)
    have free := pendingRefreshFree pending (by rw [test]; rfl)
    simp [run, List.replicate, move, test, step, pending.asked, running, lockRefresh, free]
  | succ k ih =>
    have other : s.pcs none ≠ .taskTest := fun test => by rw [test] at left; cases left
    exact ih (pendingMove pending other) (pendingLeft pending left)

/-- No request is lost: from any state that a run reaches, with the threads of the program outside
their critical sections, the thread alone comes to a refresh that has taken the request. -/
theorem requestServed (schedule : List (Option τ × Bool)) (asked : (run (start : System τ) schedule).shared.threadDo = true)
    (locks : ∀ t, ((run (start : System τ) schedule).pcs (some t)).locks = false)
    (refreshes : ∀ t, ((run (start : System τ) schedule).pcs (some t)).refreshes = false) :
    ∃ n ≤ 9, (run start (schedule ++ List.replicate n (none, false))).pcs none = .impl ∧
      (run (start : System τ) (schedule ++ List.replicate n (none, false))).shared.threadDo = false := by
  have pending : Pending (run (start : System τ) schedule) := ⟨runInv startInv schedule, asked, locks, refreshes⟩
  have served := pendingServed pending rfl
  refine ⟨((run (start : System τ) schedule).pcs none).left + 3, ?_, ?_⟩
  · exact Nat.add_le_add_right (leftBound _) 3
  · rw [run, List.foldl_append]
    exact served

theorem sampleServed :
    let schedule := List.replicate 19 (some (), true) ++ List.replicate 6 (none, false) ++ List.replicate 10 (some (), true)
    ∃ n ≤ 9, (run start (schedule ++ List.replicate n (none, false))).pcs none = .impl ∧
      (run (start : System Unit) (schedule ++ List.replicate n (none, false))).shared.threadDo = false :=
  requestServed _ (by decide) (fun t => by cases t; decide) fun t => by cases t; decide

/-- A call fails exactly if another one is between setting inited and init_ok, or there is no thread,
or the call that creates it has not set async_init_ok. -/
theorem unknownExact (schedule : List (Option τ × Bool)) (t : τ) (choice : Bool) :
    (step (some t) choice (run start schedule).shared ((run start schedule).pcs (some t))).1 = .returned XH_ERRNO_UNKNOWN ↔
      ((∃ async, (run start schedule).pcs (some t) = .refresh async) ∧ ∃ w async, (run start schedule).pcs w = .initOk async) ∨
        ((run start schedule).pcs (some t) = .asyncReady ∧
          ((run start schedule).shared.created = false ∨ ∃ w, (run start schedule).pcs w = .asyncOk)) := by
  have inv := runInv (startInv (τ := τ)) schedule
  rw [← asyncFails inv]
  have fits := inv.fits (some t)
  generalize same : (run start schedule).pcs (some t) = pc at fits
  cases pc with
  | refresh async =>
    rw [← initFails inv fits]
    cases ok : (run (start : System τ) schedule).shared.initOk <;> cases async <;> simp [step, ok]
  | asyncReady => cases ok : (run (start : System τ) schedule).shared.asyncInitOk <;> simp [step, ok]
  | _ =>
    simp only [step, lockMutex, lockRefresh]
    repeat' split
    all_goals simp [XH_ERRNO_UNKNOWN]

end

end

example : (run (start : System Bool)
    (List.replicate 4 (some true, false) ++ List.replicate 3 (some false, false))).pcs (some false) = .returned XH_ERRNO_UNKNOWN := by
  decide

end Bootstrap.Xhook.RefreshThread
