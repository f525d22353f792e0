import Bootstrap.HookRefresh

/-! xh_core: what is registered, and over whole runs which libraries are hooked, and with what. -/
namespace Bootstrap.Xhook
open CInt ByteLayout ByteMemory

section
variable {σ : Type} (kernel : Kernel σ) (target : Target) (rounds : Nat) (regexec : Bytes → Bytes → Bool)

def makeHook (elf : Elf) (hi : HookInfo) (p : Process σ) : Except Ending (Process σ) :=
  match elf.hook kernel target rounds hi.symbol hi.newFunc hi.oldFunc p with
  | (.returned _, p) => .ok p
  | (ending, _) => .error ending

def coreHook (hooks : List HookInfo) (ignores : List IgnoreInfo) (mi : MapInfo) (p : Process σ) : Except Ending (Process σ) :=
  match Elf.init p.memory mi.baseAddr mi.pathname with
  | .error _ => .ok p
  | .ok elf => hookLoop regexec (makeHook kernel target rounds elf) ignores mi.pathname hooks p

def elfHeader (p : Process σ) (baseAddr : Nat) : Bool := (checkElfheader target p.memory baseAddr).isOk

end

structure Core where
  inited : Bool := false
  initOk : Bool := false
  hookInfo : List HookInfo := []
  ignoreInfo : List IgnoreInfo := []
  mapInfo : List MapInfo := []
  deriving DecidableEq, Repr

namespace Core

def register (regcomp : Bytes → Bool) (core : Core) (hi : HookInfo) : Nat × Core :=
  if hi.newFunc = 0 then (XH_ERRNO_INVAL, core)
  else if core.inited then (XH_ERRNO_INVAL, core)
  else if ¬ regcomp hi.pathnameRegex then (XH_ERRNO_INVAL, core)
  else (0, { core with hookInfo := core.hookInfo ++ [hi] })

def ignore (regcomp : Bytes → Bool) (core : Core) (ii : IgnoreInfo) : Nat × Core :=
  if core.inited then (XH_ERRNO_INVAL, core)
  else if ¬ regcomp ii.pathnameRegex then (XH_ERRNO_INVAL, core)
  else (0, { core with ignoreInfo := core.ignoreInfo ++ [ii] })

def initOnce (core : Core) : Core := if core.inited then core else { core with inited := true, initOk := true }

def clear (_ : Core) : Core := {}

section
variable {α ε : Type} (hook : List HookInfo → List IgnoreInfo → MapInfo → α → Except ε α) (header : α → Nat → Bool)
  (regexec : Bytes → Bytes → Bool)

def refresh (garbage : LineScan) (maps : Option Bytes) (core : Core) (world : α) : Except ε (Nat × Core × α) :=
  let core := core.initOnce
  if ¬ core.initOk then .ok (XH_ERRNO_UNKNOWN, core, world)
  else do
    let (mapInfo, world) ← refreshImpl (hook core.hookInfo core.ignoreInfo) header
      (fun pathname => checkPathname regexec core.ignoreInfo pathname core.hookInfo) garbage maps core.mapInfo world
    .ok (0, { core with mapInfo }, world)

end

end Core

structure Call where
  info : MapInfo
  hookInfo : List HookInfo
  ignoreInfo : List IgnoreInfo
  deriving DecidableEq, Repr

section
variable {α ε : Type} (hook : List HookInfo → List IgnoreInfo → MapInfo → α → Except ε α) (header : α → Nat → Bool)

def recorded (hookInfo : List HookInfo) (ignoreInfo : List IgnoreInfo) (mi : MapInfo) (w : α × List Call) : Except ε (α × List Call) :=
  (hook hookInfo ignoreInfo mi w.1).map (fun world => (world, w.2 ++ [⟨mi, hookInfo, ignoreInfo⟩]))

def lastCall (calls : List Call) (pathname : Bytes) : Option Call := calls.reverse.find? (fun call => call.info.pathname == pathname)

theorem lastCallSame (calls : List Call) (call : Call) : lastCall (calls ++ [call]) call.info.pathname = some call := by
  simp [lastCall]

theorem lastCallOther {calls : List Call} {call : Call} {pathname : Bytes} (other : call.info.pathname ≠ pathname) :
    lastCall (calls ++ [call]) pathname = lastCall calls pathname := by
  simp [lastCall, other]

variable {hook header}

structure Recorded (hookInfo : List HookInfo) (ignoreInfo : List IgnoreInfo) (s : Refresh (α × List Call)) : Prop where
  unique : Unique s.tree ∧ Unique s.refreshed
  apart : ∀ mi ∈ s.tree, mi.pathname ∉ s.refreshed.map MapInfo.pathname
  called : ∀ mi, mi ∈ s.tree ∨ mi ∈ s.refreshed → lastCall s.world.2 mi.pathname = some ⟨mi, hookInfo, ignoreInfo⟩

theorem uniqueAppend {tree : List MapInfo} {mi : MapInfo} (unique : Unique tree) (absent : mi.pathname ∉ tree.map MapInfo.pathname) :
    Unique (tree ++ [mi]) := by
  rw [Unique, List.map_append]
  refine List.nodup_append.mpr ⟨unique, List.nodup_singleton _, fun a left b right => ?_⟩
  rintro rfl
  exact absent (List.mem_singleton.mp right ▸ left)

theorem visitRecorded {hookInfo : List HookInfo} {ignoreInfo : List IgnoreInfo} {s s' : Refresh (α × List Call)} {mi : MapInfo}
    (recorded_ : Recorded hookInfo ignoreInfo s) (done : visit (recorded hook hookInfo ignoreInfo) s mi = .ok s') :
    Recorded hookInfo ignoreInfo s' := by
  obtain ⟨⟨unique, fresh⟩, apart, called⟩ := recorded_
  rw [visitExact unique apart] at done
  split at done
  · cases done
    exact ⟨⟨unique, fresh⟩, apart, called⟩
  · rename_i unseen
    have fresh' := uniqueAppend fresh unseen
    have tree' : Unique (rbRemove s.tree mi.pathname) := unique.sublist (List.filter_sublist.map _)
    have apart' : ∀ other ∈ rbRemove s.tree mi.pathname, other.pathname ∉ (s.refreshed ++ [mi]).map MapInfo.pathname := by
      intro other mem again
      obtain ⟨in_, differ⟩ := List.mem_filter.mp mem
      rw [List.map_append, List.mem_append] at again
      rcases again with before | this
      · exact apart other in_ before
      · simp_all
    have split_ (other : MapInfo) (mem : other ∈ rbRemove s.tree mi.pathname ∨ other ∈ s.refreshed ++ [mi]) :
        other = mi ∨ (other ∈ s.tree ∨ other ∈ s.refreshed) ∧ mi.pathname ≠ other.pathname := by
      rcases mem with mem | mem
      · obtain ⟨in_, differ⟩ := List.mem_filter.mp mem
        exact .inr ⟨.inl in_, fun same => of_decide_eq_true differ same.symm⟩
      · rcases List.mem_append.mp mem with mem | mem
        · exact .inr ⟨.inr mem, fun same => unseen (same ▸ List.mem_map_of_mem mem)⟩
        · exact .inl (List.mem_singleton.mp mem)
    split at done
    · rename_i known
      cases done
      refine ⟨⟨tree', fresh'⟩, apart', fun other mem => ?_⟩
      rcases split_ other mem with rfl | ⟨old, _⟩
      · exact called other (.inl known)
      · exact called other old
    · rw [recorded] at done
      cases run : hook hookInfo ignoreInfo mi s.world.1 with
      | error e =>
        rw [run] at done
        cases done
      | ok world =>
        rw [run] at done
        cases done
        refine ⟨⟨tree', fresh'⟩, apart', fun other mem => ?_⟩
        rcases split_ other mem with rfl | ⟨old, differ⟩
        · exact lastCallSame _ _
        · exact (lastCallOther differ).trans (called other old)

theorem linesRecorded {hookInfo : List HookInfo} {ignoreInfo : List IgnoreInfo} {taken : Bytes → Bool} {lines : List Bytes}
    {scan : LineScan} {s s' : Refresh (α × List Call)} (recorded_ : Recorded hookInfo ignoreInfo s)
    (done : refreshLines (recorded hook hookInfo ignoreInfo) (fun w => header w.1) taken scan s lines = .ok s') :
    Recorded hookInfo ignoreInfo s' := by
  rw [refreshLinesFold] at done
  generalize mappings scan lines = found at done
  induction found generalizing s with
  | nil =>
    cases done
    exact recorded_
  | cons mi found ih =>
    rw [List.foldlM_cons] at done
    split at done
    · cases run : visit (recorded hook hookInfo ignoreInfo) s mi with
      | error e =>
        rw [run] at done
        cases done
      | ok next =>
        rw [run] at done
        exact ih (visitRecorded recorded_ run) done
    · exact ih recorded_ done

def Refresh.forget (s : Refresh (α × List Call)) : Refresh α := ⟨s.tree, s.refreshed, s.world.1⟩

theorem visitForgets (hookInfo : List HookInfo) (ignoreInfo : List IgnoreInfo) (s : Refresh (α × List Call)) (mi : MapInfo) :
    visit (hook hookInfo ignoreInfo) s.forget mi = (visit (recorded hook hookInfo ignoreInfo) s mi).map Refresh.forget := by
  obtain ⟨tree, refreshed, world, calls⟩ := s
  simp only [visit, recorded, Refresh.forget]
  cases rbFind tree mi.pathname with
  | none =>
    cases rbFind refreshed mi.pathname with
    | none => cases hook hookInfo ignoreInfo mi world <;> rfl
    | some _ => rfl
  | some known =>
    dsimp only
    cases rbFind refreshed mi.pathname with
    | none =>
      dsimp only
      by_cases moved : known.baseAddr ≠ mi.baseAddr
      · simp only [if_pos moved]
        cases hook hookInfo ignoreInfo mi world <;> rfl
      · simp only [if_neg moved]
        rfl
    | some _ => rfl

theorem linesForget (hookInfo : List HookInfo) (ignoreInfo : List IgnoreInfo) (taken : Bytes → Bool) (scan : LineScan)
    (s : Refresh (α × List Call)) (lines : List Bytes) :
    refreshLines (hook hookInfo ignoreInfo) header taken scan s.forget lines =
      (refreshLines (recorded hook hookInfo ignoreInfo) (fun w => header w.1) taken scan s lines).map Refresh.forget := by
  rw [refreshLinesFold, refreshLinesFold]
  generalize mappings scan lines = found
  induction found generalizing s with
  | nil => rfl
  | cons mi found ih =>
    rw [List.foldlM_cons, List.foldlM_cons]
    by_cases good : (taken mi.pathname && header s.world.1 mi.baseAddr) = true
    · rw [if_pos good, if_pos (show (taken mi.pathname && header s.forget.world mi.baseAddr) = true from good), visitForgets]
      cases visit (recorded hook hookInfo ignoreInfo) s mi with
      | error e => rfl
      | ok s' => exact ih s'
    · rw [if_neg good, if_neg (show ¬ (taken mi.pathname && header s.forget.world mi.baseAddr) = true from good)]
      exact ih s

theorem refreshForgets (regexec : Bytes → Bytes → Bool) (garbage : LineScan) (maps : Option Bytes) (core : Core) (world : α)
    (calls : List Call) : core.refresh hook header regexec garbage maps world =
      (core.refresh (recorded hook) (fun w => header w.1) regexec garbage maps (world, calls)).map
        (fun done => (done.1, done.2.1, done.2.2.1)) := by
  unfold Core.refresh
  dsimp only
  split
  · rfl
  · cases maps with
    | none => rfl
    | some text =>
      have start : (⟨core.initOnce.mapInfo, [], world⟩ : Refresh α) =
          Refresh.forget (⟨core.initOnce.mapInfo, [], world, calls⟩ : Refresh (α × List Call)) := rfl
      simp only [refreshImpl, start, linesForget]
      generalize refreshLines (recorded hook core.initOnce.hookInfo core.initOnce.ignoreInfo) _ _ _ _ _ = result
      cases result <;> rfl

structure Tracked (core : Core) (calls : List Call) : Prop where
  unique : Unique core.mapInfo
  ready : core.inited = core.initOk
  frozen : core.mapInfo ≠ [] → core.inited = true
  called : ∀ mi ∈ core.mapInfo, lastCall calls mi.pathname = some ⟨mi, core.hookInfo, core.ignoreInfo⟩

theorem refreshTracked {regexec : Bytes → Bytes → Bool} {garbage : LineScan} {maps : Option Bytes} {core core' : Core}
    {w w' : α × List Call} {r : Nat} (tracked : Tracked core w.2)
    (done : core.refresh (recorded hook) (fun w => header w.1) regexec garbage maps w = .ok (r, core', w')) : Tracked core' w'.2 := by
  have once : Tracked core.initOnce w.2 ∧ core.initOnce.inited = true := by
    unfold Core.initOnce
    split
    · rename_i inited
      exact ⟨tracked, inited⟩
    · exact ⟨⟨tracked.unique, rfl, fun _ => rfl, tracked.called⟩, rfl⟩
  obtain ⟨⟨unique, ready, frozen, called⟩, inited⟩ := once
  unfold Core.refresh at done
  dsimp only at done
  rw [if_neg (by rw [← ready, inited]; decide)] at done
  cases maps with
  | none =>
    cases done
    exact ⟨unique, ready, frozen, called⟩
  | some text =>
    simp only [refreshImpl, bind, Except.bind] at done
    split at done
    · cases done
    · rename_i result impl
      split at impl
      · cases impl
      · rename_i s lines
        cases impl
        cases done
        have start : Recorded core.initOnce.hookInfo core.initOnce.ignoreInfo (⟨core.initOnce.mapInfo, [], w⟩ : Refresh (α × List Call)) :=
          ⟨⟨unique, List.nodup_nil⟩, fun _ _ again => (by cases again), fun mi mem => by
            rcases mem with mem | mem
            · exact called mi mem
            · cases mem⟩
        have after := linesRecorded start lines
        exact ⟨after.unique.2, ready, fun _ => inited, fun mi mem => after.called mi (.inr mem)⟩

end

section
variable {σ : Type}

inductive Reached (kernel : Kernel σ) (target : Target) (rounds : Nat) (regcomp : Bytes → Bool) (regexec : Bytes → Bytes → Bool) :
    Core → Process σ → List Call → Prop
  | start (p : Process σ) : Reached kernel target rounds regcomp regexec {} p []
  | register {core p calls} (before : Reached kernel target rounds regcomp regexec core p calls) (hi : HookInfo) :
    Reached kernel target rounds regcomp regexec (core.register regcomp hi).2 p calls
  | ignore {core p calls} (before : Reached kernel target rounds regcomp regexec core p calls) (ii : IgnoreInfo) :
    Reached kernel target rounds regcomp regexec (core.ignore regcomp ii).2 p calls
  | refresh {core p calls core' p' calls' garbage maps r} (before : Reached kernel target rounds regcomp regexec core p calls)
    (done : core.refresh (recorded (coreHook kernel target rounds regexec)) (fun w => elfHeader target w.1) regexec garbage maps
      (p, calls) = .ok (r, core', p', calls')) : Reached kernel target rounds regcomp regexec core' p' calls'
  | clear {core p calls} (before : Reached kernel target rounds regcomp regexec core p calls) :
    Reached kernel target rounds regcomp regexec core.clear p calls
  | runs {core p calls} (before : Reached kernel target rounds regcomp regexec core p calls) (p' : Process σ) :
    Reached kernel target rounds regcomp regexec core p' calls

/-- In every run each library in the tree was last hooked at the address it has there, with all that is
registered: nothing is registered while libraries are tracked. -/
theorem trackedHooked {kernel : Kernel σ} {target : Target} {rounds : Nat} {regcomp : Bytes → Bool} {regexec : Bytes → Bytes → Bool}
    {core : Core} {p : Process σ} {calls : List Call} (reached : Reached kernel target rounds regcomp regexec core p calls) :
    Tracked core calls := by
  induction reached with
  | start p => exact ⟨List.nodup_nil, rfl, fun bad => absurd rfl bad, fun _ mem => (by cases mem)⟩
  | register before hi ih =>
    unfold Core.register
    split
    · exact ih
    · split
      · exact ih
      · rename_i fresh
        split
        · exact ih
        · exact ⟨ih.unique, ih.ready, ih.frozen, fun mi mem => absurd (ih.frozen (List.ne_nil_of_mem mem)) fresh⟩
  | ignore before ii ih =>
    unfold Core.ignore
    split
    · exact ih
    · rename_i fresh
      split
      · exact ih
      · exact ⟨ih.unique, ih.ready, ih.frozen, fun mi mem => absurd (ih.frozen (List.ne_nil_of_mem mem)) fresh⟩
  | refresh before done ih => exact refreshTracked ih done
  | clear before ih => exact ⟨List.nodup_nil, rfl, fun bad => absurd rfl bad, fun _ mem => (by cases mem)⟩
  | runs before p' ih => exact ih

end

/- At 0x1000 there is the header of a file, and nothing behind it. -/
def sampleLoaded : Process Unit :=
  ⟨save (fun _ => 0) 0x1000 ([0x7f, 0x45, 0x4c, 0x46, 2, 1, 1] ++ le 9 0 ++ le 2 3 ++ le 2 62 ++ le 4 1), ()⟩

def sampleCore : Core := { inited := true, initOk := true, hookInfo := [⟨[0x2f, 0x61], [0x62], 0x999, none⟩], mapInfo := [⟨[0x2f, 0x61], 0x1000⟩] }

def sampleRegexec (regex pathname : Bytes) : Bool := regex == pathname

theorem sampleRefresh : Core.refresh (recorded (coreHook Elf.sampleKernel x86_64 4 sampleRegexec)) (fun w => elfHeader x86_64 w.1)
    sampleRegexec ⟨[], [], 0⟩ (some sampleMapping.line) { hookInfo := sampleCore.hookInfo } (sampleLoaded, []) =
      .ok (0, sampleCore, sampleLoaded, [⟨⟨[0x2f, 0x61], 0x1000⟩, sampleCore.hookInfo, []⟩]) := by rfl

theorem sampleTracked : Tracked sampleCore [⟨⟨[0x2f, 0x61], 0x1000⟩, sampleCore.hookInfo, []⟩] := by
  have registered : Reached Elf.sampleKernel x86_64 4 (fun _ => true) sampleRegexec { hookInfo := sampleCore.hookInfo } sampleLoaded [] :=
    .register (.start sampleLoaded) ⟨[0x2f, 0x61], [0x62], 0x999, none⟩
  exact trackedHooked (.refresh registered sampleRefresh)

end Bootstrap.Xhook
