import Bootstrap.SlotHook

/-! xh_core_refresh_impl: the libraries of the process that the registered hooks are made in. -/
namespace Bootstrap.Xhook
open CInt ByteLayout ByteMemory TextScan

structure HookInfo where
  pathnameRegex : Bytes
  symbol : Bytes
  newFunc : Nat
  oldFunc : Option Nat
  deriving DecidableEq, Repr

structure IgnoreInfo where
  pathnameRegex : Bytes
  symbol : Option Bytes
  deriving DecidableEq, Repr

structure MapInfo where
  pathname : Bytes
  baseAddr : Nat
  deriving DecidableEq, Repr

inductive Ignored where
  | no | symbol | all
  deriving DecidableEq, Repr

section
variable (regexec : Bytes → Bytes → Bool)

def ignored (pathname symbol : Bytes) : List IgnoreInfo → Ignored
  | [] => .no
  | ii :: ignores =>
    if regexec ii.pathnameRegex pathname then
      match ii.symbol with
      | none => .all
      | some s => if s = symbol then .symbol else ignored pathname symbol ignores
    else ignored pathname symbol ignores

/-- Whether the loop of xh_core_refresh_impl finds a match: it stops at the first hook of the path. -/
def checkPathname (ignores : List IgnoreInfo) (pathname : Bytes) : List HookInfo → Bool
  | [] => false
  | hi :: hooks =>
    if regexec hi.pathnameRegex pathname then ignored regexec pathname hi.symbol ignores == .no
    else checkPathname ignores pathname hooks

def hookLoop {α ε : Type} (make : HookInfo → α → Except ε α) (ignores : List IgnoreInfo) (pathname : Bytes) :
    List HookInfo → α → Except ε α
  | [], world => .ok world
  | hi :: hooks, world =>
    if regexec hi.pathnameRegex pathname then
      match ignored regexec pathname hi.symbol ignores with
      | .all => .ok world
      | .symbol => hookLoop make ignores pathname hooks world
      | .no => do hookLoop make ignores pathname hooks (← make hi world)
    else hookLoop make ignores pathname hooks world

def Applies (ignores : List IgnoreInfo) (pathname : Bytes) (hi : HookInfo) : Prop :=
  regexec hi.pathnameRegex pathname = true ∧
    ∀ ii ∈ ignores, regexec ii.pathnameRegex pathname = true → ∀ s ∈ ii.symbol, s ≠ hi.symbol

def AllIgnored (ignores : List IgnoreInfo) (pathname : Bytes) : Prop :=
  ∃ ii ∈ ignores, regexec ii.pathnameRegex pathname = true ∧ ii.symbol = none

instance (ignores pathname hi) : Decidable (Applies regexec ignores pathname hi) := by unfold Applies; infer_instance
instance (ignores pathname) : Decidable (AllIgnored regexec ignores pathname) := by unfold AllIgnored; infer_instance

def hooksOf (ignores : List IgnoreInfo) (pathname : Bytes) (hooks : List HookInfo) : List HookInfo :=
  if AllIgnored regexec ignores pathname then [] else hooks.filter (Applies regexec ignores pathname)

variable {regexec}

theorem ignoredNo {pathname symbol : Bytes} {ignores : List IgnoreInfo} : ignored regexec pathname symbol ignores = .no ↔
    ¬ AllIgnored regexec ignores pathname ∧
      ∀ ii ∈ ignores, regexec ii.pathnameRegex pathname = true → ∀ s ∈ ii.symbol, s ≠ symbol := by
  induction ignores with
  | nil => simp [ignored, AllIgnored]
  | cons ii ignores ih =>
    rw [ignored]
    by_cases here : regexec ii.pathnameRegex pathname = true
    · rw [if_pos here]
      cases all : ii.symbol with
      | none =>
        refine ⟨fun bad => (by cases bad), fun free => absurd ⟨ii, List.mem_cons_self, here, all⟩ free.1⟩
      | some s =>
        by_cases same : s = symbol
        · simp [same, here, all]
        · simp only [if_neg same, ih, AllIgnored, List.exists_mem_cons_iff, List.forall_mem_cons, here, all]
          simp [same]
    · rw [if_neg here, ih]
      simp only [AllIgnored, List.exists_mem_cons_iff, List.forall_mem_cons, here]
      simp

theorem ignoredAll {pathname symbol : Bytes} {ignores : List IgnoreInfo} (all : ignored regexec pathname symbol ignores = .all) :
    AllIgnored regexec ignores pathname := by
  induction ignores with
  | nil => cases all
  | cons ii ignores ih =>
    rw [ignored] at all
    have later (tail : ignored regexec pathname symbol ignores = .all) : AllIgnored regexec (ii :: ignores) pathname := by
      obtain ⟨jj, mem, rest⟩ := ih tail
      exact ⟨jj, List.mem_cons_of_mem _ mem, rest⟩
    split at all
    · rename_i here
      split at all
      · rename_i none_
        exact ⟨ii, List.mem_cons_self, here, none_⟩
      · split at all
        · cases all
        · exact later all
    · exact later all

theorem hookLoopMade {α ε : Type} (make : HookInfo → α → Except ε α) (ignores : List IgnoreInfo) (pathname : Bytes)
    (hooks : List HookInfo) (world : α) : hookLoop regexec make ignores pathname hooks world =
      (hooksOf regexec ignores pathname hooks).foldlM (fun world hi => make hi world) world := by
  unfold hooksOf
  induction hooks generalizing world with
  | nil => simp [hookLoop, pure, Except.pure]
  | cons hi hooks ih =>
    rw [hookLoop]
    by_cases here : regexec hi.pathnameRegex pathname = true
    · rw [if_pos here]
      cases verdict : ignored regexec pathname hi.symbol ignores with
      | no =>
        obtain ⟨some_, free⟩ := ignoredNo.mp verdict
        have applies : decide (Applies regexec ignores pathname hi) = true := decide_eq_true ⟨here, free⟩
        rw [if_neg some_, List.filter_cons_of_pos (p := fun b => decide (Applies regexec ignores pathname b)) applies, List.foldlM_cons]
        simp only [ih, if_neg some_]
      | symbol =>
        dsimp only
        rw [ih]
        by_cases all : AllIgnored regexec ignores pathname
        · rw [if_pos all, if_pos all]
        · have not_ : ¬ decide (Applies regexec ignores pathname hi) = true := fun applies => by
            have no := ignoredNo.mpr ⟨all, (of_decide_eq_true applies).2⟩
            rw [verdict] at no
            cases no
          rw [if_neg all, if_neg all, List.filter_cons_of_neg (p := fun b => decide (Applies regexec ignores pathname b)) not_]
      | all =>
        rw [if_pos (ignoredAll verdict)]
        rfl
    · have not_ : ¬ decide (Applies regexec ignores pathname hi) = true := fun applies => here (of_decide_eq_true applies).1
      rw [if_neg here, List.filter_cons_of_neg (p := fun b => decide (Applies regexec ignores pathname b)) not_, ih]

theorem pathnameTaken (ignores : List IgnoreInfo) (pathname : Bytes) (hooks : List HookInfo) :
    checkPathname regexec ignores pathname hooks = true ↔ ¬ AllIgnored regexec ignores pathname ∧
      ∃ hi, hooks.find? (fun hi => regexec hi.pathnameRegex pathname) = some hi ∧ Applies regexec ignores pathname hi := by
  induction hooks with
  | nil => simp [checkPathname]
  | cons hi hooks ih =>
    rw [checkPathname]
    by_cases here : regexec hi.pathnameRegex pathname = true
    · rw [if_pos here, beq_iff_eq, ignoredNo, List.find?_cons_of_pos (p := fun hi : HookInfo => regexec hi.pathnameRegex pathname) here]
      simp [Applies, here]
    · rw [if_neg here, ih, List.find?_cons_of_neg (p := fun hi : HookInfo => regexec hi.pathnameRegex pathname) here]

/-- The two loops do not agree on what is ignored: the hooks that would be made in a path are all that
apply, but a first hook that is ignored keeps the path from being looked at. -/
theorem ignoresDecide {α ε : Type} (make : HookInfo → α → Except ε α) (ignores : List IgnoreInfo) (pathname : Bytes)
    (hooks : List HookInfo) (world : α) :
    (checkPathname regexec ignores pathname hooks = true ↔ ¬ AllIgnored regexec ignores pathname ∧
      ∃ hi, hooks.find? (fun hi => regexec hi.pathnameRegex pathname) = some hi ∧ Applies regexec ignores pathname hi) ∧
    hookLoop regexec make ignores pathname hooks world =
      (hooksOf regexec ignores pathname hooks).foldlM (fun world hi => make hi world) world :=
  ⟨pathnameTaken ignores pathname hooks, hookLoopMade make ignores pathname hooks world⟩

end

/-! A line of /proc/self/maps. -/

/-- The locals that outlive a line: the buffer, the permissions, and where the pathname starts. -/
structure LineScan where
  line : Bytes
  perm : Bytes
  pathnamePos : Nat
  deriving DecidableEq, Repr

/-- "%*x:%*x %*d" -/
def skipDevice (s : Bytes) : Option Bytes := do
  let s ← skipNumber 16 s
  let s ← scanChar 0x3a s
  let s ← skipNumber 16 s
  skipNumber 10 s

/-- "%lx-%*lx %4s %lx %*x:%*x %*d%n": three results come before the rest, which may be missing. -/
def scanMapping (scan : LineScan) (line : Bytes) : LineScan × Option (Nat × Nat) :=
  let addresses : Option (Nat × Bytes) := do
    let (baseAddr, s) ← scanHex line
    let s ← scanChar 0x2d s
    some (baseAddr, ← skipNumber 16 s)
  match addresses with
  | none => (scan, none)
  | some (baseAddr, s) =>
    match scanPerm scan.perm s with
    | none => (scan, none)
    | some (perm, s) =>
      let scan := { scan with perm }
      match scanHex s with
      | none => (scan, none)
      | some (offset, s) =>
        let pathnamePos := match skipDevice s with
          | none => scan.pathnamePos
          | some rest => line.length - rest.length
        ({ scan with pathnamePos }, some (baseAddr, offset))

def scanPathname (scan : LineScan) : LineScan × Option Bytes :=
  let pos := scan.pathnamePos + (((scan.line.drop scan.pathnamePos).takeWhile isSpace).take (511 - scan.pathnamePos)).length
  let scan := { scan with pathnamePos := pos }
  if 511 ≤ pos then (scan, none)
  else
    let pathname := cString (scan.line.drop pos)
    let (scan, pathname) := if pathname.getLast? = some 10 then
      ({ scan with line := scan.line.set (pos + pathname.length - 1) 0 }, pathname.dropLast) else (scan, pathname)
    (scan, if pathname = [] ∨ pathname.head? = some 0x5b then none else some pathname)

def readMapping (scan : LineScan) (buffer : Bytes) : LineScan × Option MapInfo :=
  let scan := { scan with line := buffer ++ 0 :: scan.line.drop (buffer.length + 1) }
  match scanMapping scan (cString buffer) with
  | (scan, none) => (scan, none)
  | (scan, some (baseAddr, offset)) =>
    if scan.perm.getD 0 0 ≠ 0x72 ∨ scan.perm.getD 3 0 ≠ 0x70 ∨ offset ≠ 0 then (scan, none)
    else
      match scanPathname scan with
      | (scan, none) => (scan, none)
      | (scan, some pathname) => (scan, some ⟨pathname, baseAddr⟩)

/-! The refresh, over what a hook does to the world and what ELF headers are in it. A tree is the list
of its map infos as they were put in. -/

section
variable {α ε : Type} (hook : MapInfo → α → Except ε α) (header : α → Nat → Bool)

structure Refresh (α : Type) where
  tree : List MapInfo
  refreshed : List MapInfo
  world : α

def rbFind (tree : List MapInfo) (pathname : Bytes) : Option MapInfo := tree.find? (fun mi => mi.pathname == pathname)

def rbRemove (tree : List MapInfo) (pathname : Bytes) : List MapInfo := tree.filter (fun mi => mi.pathname ≠ pathname)

def visit (s : Refresh α) (mi : MapInfo) : Except ε (Refresh α) :=
  match rbFind s.tree mi.pathname with
  | some known =>
    let tree := rbRemove s.tree mi.pathname
    match rbFind s.refreshed mi.pathname with
    | some _ => .ok { s with tree }
    | none =>
      if known.baseAddr ≠ mi.baseAddr then do
        .ok { tree, refreshed := s.refreshed ++ [mi], world := ← hook mi s.world }
      else .ok { s with tree, refreshed := s.refreshed ++ [mi] }
  | none =>
    match rbFind s.refreshed mi.pathname with
    | some _ => .ok s
    | none => do .ok { s with refreshed := s.refreshed ++ [mi], world := ← hook mi s.world }

def refreshLines (taken : Bytes → Bool) : LineScan → Refresh α → List Bytes → Except ε (Refresh α)
  | _, s, [] => .ok s
  | scan, s, buffer :: lines =>
    match readMapping scan buffer with
    | (scan, none) => refreshLines taken scan s lines
    | (scan, some mi) =>
      if taken mi.pathname && header s.world mi.baseAddr then do refreshLines taken scan (← visit hook s mi) lines
      else refreshLines taken scan s lines

def refreshImpl (taken : Bytes → Bool) (garbage : LineScan) (maps : Option Bytes) (tree : List MapInfo) (world : α) :
    Except ε (List MapInfo × α) :=
  match maps with
  | none => .ok (tree, world)
  | some text => do
    let s ← refreshLines hook header taken garbage ⟨tree, [], world⟩ (fgetsAll 512 [] text)
    .ok (s.refreshed, s.world)

end

def firsts : List MapInfo → List MapInfo
  | [] => []
  | mi :: rest => mi :: (firsts rest).filter (fun other => other.pathname ≠ mi.pathname)

def newOnes (refreshed found : List MapInfo) : List MapInfo :=
  (firsts found).filter (fun mi => mi.pathname ∉ refreshed.map MapInfo.pathname)

def mappings : LineScan → List Bytes → List MapInfo
  | _, [] => []
  | scan, buffer :: lines => (readMapping scan buffer).2.toList ++ mappings (readMapping scan buffer).1 lines

def Unique (tree : List MapInfo) : Prop := (tree.map MapInfo.pathname).Nodup

section
variable {α ε : Type} {hook : MapInfo → α → Except ε α} {header : α → Nat → Bool}

theorem findNone {tree : List MapInfo} {pathname : Bytes} (absent : pathname ∉ tree.map MapInfo.pathname) : rbFind tree pathname = none := by
  refine List.find?_eq_none.mpr (fun mi mem same => absent ?_)
  rw [← beq_iff_eq.mp same]
  exact List.mem_map_of_mem mem

theorem findSome {tree : List MapInfo} {pathname : Bytes} (there : pathname ∈ tree.map MapInfo.pathname) :
    ∃ known ∈ tree, rbFind tree pathname = some known ∧ known.pathname = pathname := by
  obtain ⟨mi, mem, same⟩ := List.mem_map.mp there
  cases found : rbFind tree pathname with
  | none => exact absurd (beq_iff_eq.mpr same) (List.find?_eq_none.mp found mi mem)
  | some known => exact ⟨known, List.mem_of_find?_eq_some found, rfl, beq_iff_eq.mp (List.find?_some (p := fun mi : MapInfo => mi.pathname == pathname) found)⟩

theorem visitExact {s : Refresh α} (unique : Unique s.tree) (apart : ∀ mi ∈ s.tree, mi.pathname ∉ s.refreshed.map MapInfo.pathname)
    (mi : MapInfo) : visit hook s mi =
      if mi.pathname ∈ s.refreshed.map MapInfo.pathname then .ok s
      else (if mi ∈ s.tree then .ok s.world else hook mi s.world).map
        (fun world => ⟨rbRemove s.tree mi.pathname, s.refreshed ++ [mi], world⟩) := by
  unfold visit
  by_cases seen : mi.pathname ∈ s.refreshed.map MapInfo.pathname
  · have gone : mi.pathname ∉ s.tree.map MapInfo.pathname := fun there => by
      obtain ⟨known, mem, _, same⟩ := findSome there
      exact apart known mem (same ▸ seen)
    obtain ⟨old, _, found, _⟩ := findSome seen
    rw [findNone gone, found, if_pos seen]
  · rw [if_neg seen, findNone seen]
    by_cases there : mi.pathname ∈ s.tree.map MapInfo.pathname
    · obtain ⟨known, mem, found, same⟩ := findSome there
      have only : mi ∈ s.tree ↔ known.baseAddr = mi.baseAddr := by
        constructor
        · intro in_
          rw [List.inj_on_of_nodup_map unique mem in_ same]
        · intro base
          have : known = mi := by
            cases known
            cases mi
            simp_all
          exact this ▸ mem
      rw [found]
      dsimp only
      by_cases base : known.baseAddr = mi.baseAddr
      · rw [if_neg (not_not_intro base), if_pos (only.mpr base)]
        rfl
      · rw [if_pos base, if_neg (fun in_ => base (only.mp in_))]
        cases hook mi s.world <;> rfl
    · have absent : mi ∉ s.tree := fun in_ => there (List.mem_map_of_mem in_)
      have whole : rbRemove s.tree mi.pathname = s.tree :=
        List.filter_eq_self.mpr (fun other in_ => decide_eq_true (fun same => there (same ▸ List.mem_map_of_mem in_)))
      rw [findNone there, if_neg absent, whole]
      cases hook mi s.world <;> rfl

theorem newOnesSeen {refreshed : List MapInfo} {mi : MapInfo} (seen : mi.pathname ∈ refreshed.map MapInfo.pathname) (found : List MapInfo) :
    newOnes refreshed (mi :: found) = newOnes refreshed found := by
  rw [newOnes, firsts, List.filter_cons_of_neg (by simpa using seen), List.filter_filter]
  refine List.filter_congr (fun other _ => ?_)
  by_cases same : other.pathname = mi.pathname
  · simp only [same, seen, not_true, decide_false, Bool.false_and]
  · simp only [same, ne_eq, not_false_eq_true, decide_true, Bool.and_true]

theorem newOnesUnseen {refreshed : List MapInfo} {mi : MapInfo} (unseen : mi.pathname ∉ refreshed.map MapInfo.pathname) (found : List MapInfo) :
    newOnes refreshed (mi :: found) = mi :: newOnes (refreshed ++ [mi]) found := by
  rw [newOnes, firsts, List.filter_cons_of_pos (by simpa using unseen), List.filter_filter, newOnes]
  congr 1
  refine List.filter_congr (fun other _ => ?_)
  simp only [List.map_append, List.map_cons, List.map_nil, List.mem_append, List.mem_singleton, not_or, ne_eq, Bool.decide_and]

theorem newOnesRemoved (refreshed found tree : List MapInfo) (mi : MapInfo) :
    (newOnes (refreshed ++ [mi]) found).filter (fun other => other ∉ rbRemove tree mi.pathname) =
      (newOnes (refreshed ++ [mi]) found).filter (fun other => other ∉ tree) := by
  refine List.filter_congr (fun other mem => ?_)
  have out := (List.mem_filter.mp mem).2
  have differ : other.pathname ≠ mi.pathname := fun same => by simp [same] at out
  simp [rbRemove, List.mem_filter, differ]

theorem visitedApart {s : Refresh α} {mi : MapInfo} (apart : ∀ known ∈ s.tree, known.pathname ∉ s.refreshed.map MapInfo.pathname) :
    ∀ known ∈ rbRemove s.tree mi.pathname, known.pathname ∉ (s.refreshed ++ [mi]).map MapInfo.pathname := by
  intro known mem again
  obtain ⟨in_, differ⟩ := List.mem_filter.mp mem
  rw [List.map_append, List.mem_append] at again
  rcases again with before | this
  · exact apart known in_ before
  · simp_all

theorem visitsExact {found : List MapInfo} {s : Refresh α} (unique : Unique s.tree)
    (apart : ∀ mi ∈ s.tree, mi.pathname ∉ s.refreshed.map MapInfo.pathname) :
    (found.foldlM (visit hook) s).map (fun r => (r.refreshed, r.world)) =
      (((newOnes s.refreshed found).filter (fun mi => mi ∉ s.tree)).foldlM (fun world mi => hook mi world) s.world).map
        (fun world => (s.refreshed ++ newOnes s.refreshed found, world)) := by
  induction found generalizing s with
  | nil => simp [newOnes, firsts, pure, Except.pure, Except.map]
  | cons mi found ih =>
    rw [List.foldlM_cons, visitExact unique apart]
    by_cases seen : mi.pathname ∈ s.refreshed.map MapInfo.pathname
    · rw [if_pos seen, newOnesSeen seen]
      exact ih unique apart
    · have next (world : α) := ih (s := ⟨rbRemove s.tree mi.pathname, s.refreshed ++ [mi], world⟩)
        (unique.sublist (List.filter_sublist.map _)) (visitedApart apart)
      rw [if_neg seen, newOnesUnseen seen]
      simp only [newOnesRemoved] at next
      by_cases there : mi ∈ s.tree
      · rw [if_pos there, List.filter_cons_of_neg (by simpa using there)]
        refine (next s.world).trans ?_
        simp only [List.append_assoc, List.singleton_append]
      · rw [if_neg there, List.filter_cons_of_pos (by simpa using there), List.foldlM_cons]
        cases hook mi s.world with
        | error e => rfl
        | ok world =>
          refine (next world).trans ?_
          simp only [List.append_assoc, List.singleton_append]
          rfl

theorem refreshLinesFold (taken : Bytes → Bool) (scan : LineScan) (s : Refresh α) (lines : List Bytes) :
    refreshLines hook header taken scan s lines = (mappings scan lines).foldlM
      (fun s mi => if taken mi.pathname && header s.world mi.baseAddr then visit hook s mi else .ok s) s := by
  induction lines generalizing scan s with
  | nil => rfl
  | cons buffer lines ih =>
    rw [refreshLines, mappings]
    obtain ⟨scan', candidate⟩ := readMapping scan buffer
    cases candidate with
    | none => exact ih scan' s
    | some mi =>
      dsimp only [Option.toList_some, List.singleton_append]
      rw [List.foldlM_cons]
      by_cases good : (taken mi.pathname && header s.world mi.baseAddr) = true
      · rw [if_pos good, if_pos good]
        cases visit hook s mi with
        | error e => rfl
        | ok s' => exact ih scan' s'
      · rw [if_neg good, if_neg good]
        exact ih scan' s

theorem visitsAlong {taken : Bytes → Bool} {found : List MapInfo} {first : Nat → Bool} {s : Refresh α} (unique : Unique s.tree)
    (apart : ∀ mi ∈ s.tree, mi.pathname ∉ s.refreshed.map MapInfo.pathname)
    (stays : ∀ done world, done <+: (newOnes s.refreshed (found.filter (fun mi => taken mi.pathname && first mi.baseAddr))).filter
        (fun mi => mi ∉ s.tree) → done.foldlM (fun world mi => hook mi world) s.world = .ok world →
      ∀ mi ∈ found, header world mi.baseAddr = first mi.baseAddr) :
    found.foldlM (fun s mi => if taken mi.pathname && header s.world mi.baseAddr then visit hook s mi else .ok s) s =
      (found.filter (fun mi => taken mi.pathname && first mi.baseAddr)).foldlM (visit hook) s := by
  induction found generalizing s with
  | nil => rfl
  | cons mi found ih =>
    have here : header s.world mi.baseAddr = first mi.baseAddr := stays [] s.world List.nil_prefix rfl mi List.mem_cons_self
    rw [List.foldlM_cons, here]
    by_cases good : (taken mi.pathname && first mi.baseAddr) = true
    · rw [List.filter_cons_of_pos (p := fun mi : MapInfo => taken mi.pathname && first mi.baseAddr) good] at stays ⊢
      rw [if_pos good, List.foldlM_cons, visitExact unique apart]
      by_cases seen : mi.pathname ∈ s.refreshed.map MapInfo.pathname
      · rw [newOnesSeen seen] at stays
        rw [if_pos seen]
        exact ih unique apart (fun done world part run other mem => stays done world part run other (List.mem_cons_of_mem _ mem))
      · have next (world : α) := ih (s := ⟨rbRemove s.tree mi.pathname, s.refreshed ++ [mi], world⟩)
          (unique.sublist (List.filter_sublist.map _)) (visitedApart apart)
        simp only [newOnesRemoved] at next
        rw [newOnesUnseen seen] at stays
        rw [if_neg seen]
        by_cases there : mi ∈ s.tree
        · rw [List.filter_cons_of_neg (by simpa using there)] at stays
          rw [if_pos there]
          exact next s.world (fun done world part run other mem => stays done world part run other (List.mem_cons_of_mem _ mem))
        · rw [List.filter_cons_of_pos (by simpa using there)] at stays
          rw [if_neg there]
          cases run : hook mi s.world with
          | error e => rfl
          | ok world =>
            refine next world (fun done later part rest other mem => ?_)
            refine stays (mi :: done) later ((List.prefix_cons_inj mi).mpr part) ?_ other (List.mem_cons_of_mem _ mem)
            rw [List.foldlM_cons, run]
            exact rest
    · rw [List.filter_cons_of_neg (p := fun mi : MapInfo => taken mi.pathname && first mi.baseAddr) good] at stays ⊢
      rw [if_neg good]
      exact ih unique apart (fun done world part run other mem => stays done world part run other (List.mem_cons_of_mem _ mem))

end

structure Mapping where
  low : Bytes
  high : Bytes
  perms : Bytes
  offset : Bytes
  major : Bytes
  minor : Bytes
  inode : Bytes
  spaces : Bytes
  pathname : Bytes
  deriving DecidableEq, Repr

namespace Mapping

def back (m : Mapping) : Bytes := m.spaces ++ (m.pathname ++ [10])

def front (m : Mapping) : Bytes :=
  m.low ++ 0x2d :: (m.high ++ 0x20 :: (m.perms ++ 0x20 :: (m.offset ++ 0x20 :: (m.major ++ 0x3a :: (m.minor ++ 0x20 :: m.inode)))))

def line (m : Mapping) : Bytes := m.front ++ m.back

def info (m : Mapping) : MapInfo := ⟨m.pathname, value 16 m.low⟩

structure Formed (m : Mapping) : Prop where
  hex : ∀ digits ∈ [m.low, m.high, m.offset, m.major, m.minor], digits ≠ [] ∧ ∀ c ∈ digits, isDigit 16 c = true
  dec : m.inode ≠ [] ∧ ∀ c ∈ m.inode, isDigit 10 c = true
  small : value 16 m.low < 2 ^ 64 ∧ value 16 m.offset < 2 ^ 64
  perms : m.perms.length = 4 ∧ ∀ c ∈ m.perms, isSpace c = false
  spaces : m.spaces ≠ [] ∧ ∀ c ∈ m.spaces, c = 0x20
  pathname : 10 ∉ m.pathname ∧ 0 ∉ m.pathname ∧ ∀ c ∈ m.pathname.head?, isSpace c = false
  text : 10 ∉ m.front ∧ 0 ∉ m.front
  short : m.line.length ≤ 511

def Eligible (m : Mapping) : Prop :=
  m.perms.getD 0 0 = 0x72 ∧ m.perms.getD 3 0 = 0x70 ∧ value 16 m.offset = 0 ∧ m.pathname ≠ [] ∧ m.pathname.head? ≠ some 0x5b

instance (m) : Decidable (Eligible m) := by unfold Eligible; infer_instance

theorem mappingScanned {m : Mapping} (formed : m.Formed) (scan : LineScan) : scanMapping scan m.line =
    (⟨scan.line, m.perms ++ 0 :: scan.perm.drop 5, m.front.length⟩, some (value 16 m.low, value 16 m.offset)) := by
  obtain ⟨four, plain⟩ := formed.perms
  have hex (digits) (mem : digits ∈ [m.low, m.high, m.offset, m.major, m.minor]) := formed.hex digits mem
  have low := hex m.low (by simp)
  have high := hex m.high (by simp)
  have offset := hex m.offset (by simp)
  have major := hex m.major (by simp)
  have minor := hex m.minor (by simp)
  have some_ : m.perms ≠ [] := by
    intro none_
    rw [none_] at four
    cases four
  have ends : Ends 10 m.back := by
    intro c mem
    obtain ⟨d, spaces, same⟩ := List.exists_cons_of_ne_nil formed.spaces.1
    have blank := formed.spaces.2 d (by rw [same]; exact List.mem_cons_self)
    rw [back, same] at mem
    cases mem
    rw [blank]
    decide
  have s1 := scanHexExact (0x2d :: (m.high ++ 0x20 :: (m.perms ++ 0x20 :: (m.offset ++ 0x20 :: (m.major ++ 0x3a ::
    (m.minor ++ 0x20 :: (m.inode ++ m.back))))))) low.1 low.2 (Region.hexEnds (by decide)) formed.small.1
  have s2 := scanDigitsExact (Nat.le_refl 16) (0x20 :: (m.perms ++ 0x20 :: (m.offset ++ 0x20 :: (m.major ++ 0x3a ::
    (m.minor ++ 0x20 :: (m.inode ++ m.back)))))) high.1 high.2 (Region.hexEnds (by decide))
  have s3 := scanWordExact (0x20 :: (m.offset ++ 0x20 :: (m.major ++ 0x3a :: (m.minor ++ 0x20 :: (m.inode ++ m.back)))))
    some_ plain (by intro c mem; cases mem; rfl)
  have s4 := scanHexExact (0x20 :: (m.major ++ 0x3a :: (m.minor ++ 0x20 :: (m.inode ++ m.back)))) offset.1 offset.2
    (Region.hexEnds (by decide)) formed.small.2
  have s5 := scanDigitsExact (Nat.le_refl 16) (0x3a :: (m.minor ++ 0x20 :: (m.inode ++ m.back))) major.1 major.2
    (Region.hexEnds (by decide))
  have s6 := scanDigitsExact (Nat.le_refl 16) (0x20 :: (m.inode ++ m.back)) minor.1 minor.2 (Region.hexEnds (by decide))
  have s7 := scanDigitsExact (by decide) m.back formed.dec.1 formed.dec.2 ends
  rw [four] at s3
  have whole : m.line = m.low ++ 0x2d :: (m.high ++ 0x20 :: (m.perms ++ 0x20 :: (m.offset ++ 0x20 :: (m.major ++ 0x3a ::
      (m.minor ++ 0x20 :: (m.inode ++ m.back)))))) := by
    simp only [line, front, List.append_assoc, List.cons_append]
  have size : m.line.length - m.back.length = m.front.length := by rw [line, List.length_append, Nat.add_sub_cancel]
  have device : skipDevice (0x20 :: (m.major ++ 0x3a :: (m.minor ++ 0x20 :: (m.inode ++ m.back)))) = some m.back := by
    simp only [skipDevice, skipNumber, scanDigitsSpace, s5, s6, s7, scanChar, bind, Option.bind, Option.map_some, if_true]
  unfold scanMapping
  rw [whole]
  simp only [s1, scanChar, skipNumber, s2, scanPerm, s3, four, bind, Option.bind, Option.map_some, if_true]
  rw [show scanHex (0x20 :: (m.offset ++ 0x20 :: (m.major ++ 0x3a :: (m.minor ++ 0x20 :: (m.inode ++ m.back))))) = _ from s4]
  simp only [device]
  rw [← whole, size]

theorem mappingString {m : Mapping} (formed : m.Formed) : cString m.line = m.line := by
  refine cStringWhole (fun zero => ?_)
  rcases List.mem_append.mp zero with mem | mem
  · exact formed.text.2 mem
  · rcases List.mem_append.mp mem with mem | mem
    · cases formed.spaces.2 0 mem
    · rcases List.mem_append.mp mem with mem | mem
      · exact formed.pathname.2.1 mem
      · cases List.mem_singleton.mp mem

theorem pathnameScanned {m : Mapping} (formed : m.Formed) (perm tail : Bytes) :
    (scanPathname ⟨m.line ++ 0 :: tail, perm, m.front.length⟩).2 =
      if m.pathname = [] ∨ m.pathname.head? = some 0x5b then none else some m.pathname := by
  obtain ⟨noLine, noZero, front⟩ := formed.pathname
  have short := formed.short
  have size : m.line.length = m.front.length + (m.spaces.length + (m.pathname.length + 1)) := by
    simp only [line, back, List.length_append, List.length_singleton]
  have behind : (m.line ++ 0 :: tail).drop m.front.length = m.spaces ++ (m.pathname ++ (10 :: 0 :: tail)) := by
    simp only [line, back, List.append_assoc, List.drop_left, List.singleton_append]
  have blank : ∀ c ∈ m.spaces, isSpace c = true := fun c mem => by
    rw [formed.spaces.2 c mem]
    decide
  unfold scanPathname
  dsimp only
  rw [behind]
  cases empty : m.pathname with
  | nil =>
    have all : (m.spaces ++ ([] ++ (10 :: 0 :: tail))).takeWhile isSpace = m.spaces ++ [10] := by
      have taken := (takeDigits (p := isSpace) (m.spaces ++ [10]) (0 :: tail) (by
        intro c mem
        rcases List.mem_append.mp mem with mem | mem
        · exact blank c mem
        · cases List.mem_singleton.mp mem
          decide) (by intro c mem; cases mem; decide)).1
      simpa using taken
    rw [all]
    rw [empty, List.length_nil] at size
    rw [List.take_of_length_le (by rw [List.length_append, List.length_singleton]; omega)]
    have past : (m.line ++ 0 :: tail).drop (m.front.length + (m.spaces ++ [10]).length) = 0 :: tail := by
      rw [show m.front.length + (m.spaces ++ [(10 : UInt8)]).length = m.line.length by
        rw [List.length_append, List.length_singleton]; omega, List.drop_left]
    split
    · simp
    · rw [past]
      rfl
  | cons c pathname =>
    have stop : isSpace c = false := front c (by rw [empty]; rfl)
    have all : (m.spaces ++ (c :: pathname ++ (10 :: 0 :: tail))).takeWhile isSpace = m.spaces :=
      (takeDigits (p := isSpace) _ _ blank (by intro d mem; cases mem; exact stop)).1
    rw [all]
    rw [empty, List.length_cons] at size
    rw [List.take_of_length_le (by omega)]
    have there : (m.line ++ 0 :: tail).drop (m.front.length + m.spaces.length) = c :: pathname ++ (10 :: 0 :: tail) := by
      rw [← List.drop_drop, behind, List.drop_left, empty]
    have string : cString (c :: pathname ++ (10 :: 0 :: tail)) = c :: pathname ++ [10] := by
      have taken := (takeDigits (p := fun b => decide (b ≠ 0)) (c :: pathname ++ [10]) (0 :: tail) (by
        intro d mem
        refine decide_eq_true (fun zero => ?_)
        rcases List.mem_append.mp mem with mem | mem
        · exact noZero (by rw [empty]; exact zero ▸ mem)
        · rw [zero] at mem
          cases List.mem_singleton.mp mem) (by intro d mem; cases mem; decide)).1
      simpa [cString] using taken
    rw [if_neg (by omega), there, string, List.getLast?_concat, if_pos rfl]
    dsimp only
    rw [List.dropLast_concat]

theorem mappingRead {m : Mapping} (formed : m.Formed) (scan : LineScan) :
    (readMapping scan m.line).2 = if m.Eligible then some m.info else none := by
  have column (i : Nat) (low : i < 4) : (m.perms ++ 0 :: scan.perm.drop 5).getD i 0 = m.perms.getD i 0 := by
    rw [List.getD_eq_getElem?_getD, List.getD_eq_getElem?_getD, List.getElem?_append_left (by rw [formed.perms.1]; exact low)]
  have path := pathnameScanned formed (m.perms ++ 0 :: scan.perm.drop 5) (scan.line.drop (m.line.length + 1))
  unfold readMapping
  simp only [mappingString formed, mappingScanned formed, column 0 (by decide), column 3 (by decide)]
  by_cases taken : m.perms.getD 0 0 ≠ 0x72 ∨ m.perms.getD 3 0 ≠ 0x70 ∨ value 16 m.offset ≠ 0
  · rw [if_pos taken, if_neg]
    rintro ⟨read, private_, start, _⟩
    rcases taken with bad | bad | bad
    · exact bad read
    · exact bad private_
    · exact bad start
  · rw [if_neg taken]
    generalize scanPathname _ = result at path ⊢
    obtain ⟨scan', pathname⟩ := result
    dsimp only at path
    rw [path]
    simp only [not_or, not_not] at taken
    by_cases named : m.pathname = [] ∨ m.pathname.head? = some 0x5b
    · rw [if_pos named, if_neg]
      rintro ⟨_, _, _, some_, plain⟩
      rcases named with bad | bad
      · exact some_ bad
      · exact plain bad
    · rw [if_neg named, if_pos]
      · rfl
      · rw [not_or] at named
        exact ⟨taken.1, taken.2.1, taken.2.2, named.1, named.2⟩

theorem mappingsRead {ms : List Mapping} (formed : ∀ m ∈ ms, m.Formed) (scan : LineScan) :
    mappings scan (ms.map line) = (ms.filter Eligible).map info := by
  induction ms generalizing scan with
  | nil => rfl
  | cons m ms ih =>
    rw [List.map_cons, mappings, mappingRead (formed m List.mem_cons_self), ih (fun q mem => formed q (List.mem_cons_of_mem _ mem))]
    by_cases eligible : m.Eligible
    · rw [if_pos eligible, List.filter_cons_of_pos (by simpa using eligible)]
      rfl
    · rw [if_neg eligible, List.filter_cons_of_neg (by simpa using eligible)]
      rfl

theorem mappingLines {ms : List Mapping} (formed : ∀ m ∈ ms, m.Formed) : fgetsAll 512 [] (ms.flatMap line) = ms.map line := by
  induction ms with
  | nil => rfl
  | cons m ms ih =>
    have here := formed m List.mem_cons_self
    have whole : m.line = (m.front ++ (m.spaces ++ m.pathname)) ++ [10] := by simp only [line, back, List.append_assoc]
    have plain : 10 ∉ m.front ++ (m.spaces ++ m.pathname) := by
      simp only [List.mem_append, not_or]
      exact ⟨here.text.1, fun mem => absurd (here.spaces.2 10 mem) (by decide), here.pathname.1⟩
    have short := here.short
    rw [whole, List.length_append, List.length_singleton] at short
    rw [List.flatMap_cons, List.map_cons, ← ih (fun q mem => formed q (List.mem_cons_of_mem _ mem)), whole, List.append_assoc,
      List.singleton_append, fgetsLine plain (by rw [List.length_nil]; omega)]
    rfl

end Mapping

def foundIn (taken : Bytes → Bool) (header : Nat → Bool) (ms : List Mapping) : List MapInfo :=
  firsts (((ms.filter Mapping.Eligible).map Mapping.info).filter (fun mi => taken mi.pathname && header mi.baseAddr))

theorem refreshAlong {α ε : Type} {hook : MapInfo → α → Except ε α} {header : α → Nat → Bool} (taken : Bytes → Bool)
    (garbage : LineScan) {ms : List Mapping} (formed : ∀ m ∈ ms, m.Formed) {tree : List MapInfo} (unique : Unique tree) (world : α)
    (stays : ∀ done world', done <+: (foundIn taken (header world) ms).filter (· ∉ tree) →
      done.foldlM (fun world mi => hook mi world) world = .ok world' →
      ∀ m ∈ ms, m.Eligible → header world' m.info.baseAddr = header world m.info.baseAddr) :
    refreshImpl hook header taken garbage (some (ms.flatMap Mapping.line)) tree world =
      (((foundIn taken (header world) ms).filter (· ∉ tree)).foldlM (fun world mi => hook mi world) world).map
        (fun world' => (foundIn taken (header world) ms, world')) := by
  have whole (found : List MapInfo) : newOnes [] found = firsts found := List.filter_eq_self.mpr (fun _ _ => rfl)
  have apart : ∀ mi ∈ tree, mi.pathname ∉ ([] : List MapInfo).map MapInfo.pathname := fun _ _ again => by cases again
  have along : ((ms.filter Mapping.Eligible).map Mapping.info).foldlM
      (fun (s : Refresh α) mi => if taken mi.pathname && header s.world mi.baseAddr then visit hook s mi else .ok s) ⟨tree, [], world⟩ =
      (((ms.filter Mapping.Eligible).map Mapping.info).filter (fun mi => taken mi.pathname && header world mi.baseAddr)).foldlM
        (visit hook) ⟨tree, [], world⟩ := by
    refine visitsAlong unique apart (fun done world' part run mi mem => ?_)
    obtain ⟨m, listed, rfl⟩ := List.mem_map.mp mem
    obtain ⟨mem, eligible⟩ := List.mem_filter.mp listed
    rw [whole] at part
    exact stays done world' part run m mem (of_decide_eq_true eligible)
  unfold refreshImpl foundIn
  simp only [Mapping.mappingLines formed, refreshLinesFold, Mapping.mappingsRead formed]
  rw [along]
  generalize ((ms.filter Mapping.Eligible).map Mapping.info).filter (fun mi => taken mi.pathname && header world mi.baseAddr) = found
  have visits : (found.foldlM (visit hook) ⟨tree, [], world⟩).map (fun r => (r.refreshed, r.world)) = _ :=
    visitsExact unique apart
  simp only [whole, List.nil_append] at visits
  rw [← visits]
  cases found.foldlM (visit hook) ⟨tree, [], world⟩ <;> rfl

def sampleMapping : Mapping :=
  ⟨[0x31, 0x30, 0x30, 0x30], [0x32, 0x30, 0x30, 0x30], [0x72, 0x2d, 0x78, 0x70], [0x30], [0x30], [0x30], [0x30], [0x20], [0x2f, 0x61]⟩

end Bootstrap.Xhook
