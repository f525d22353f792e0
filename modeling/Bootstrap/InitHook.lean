import Bootstrap.LibraryHooks
import Bootstrap.ShadowZipInit

/-! init_hook: which functions of libunity.so are replaced. -/
namespace Bootstrap.Xhook
open CInt ByteLayout ByteMemory TextScan ShadowZip

def Core.refreshAsync (created : Bool) (core : Core) : Nat × Core :=
  let core := core.initOnce
  if ¬ core.initOk then (XH_ERRNO_UNKNOWN, core)
  else if ¬ created then (XH_ERRNO_UNKNOWN, core)
  else (0, core)

def libunity : Bytes := text "libunity.so"

def hookedSymbols : List Bytes :=
  ["fopen", "fseek", "ftell", "fread", "fgets", "fclose", "stat", "dlopen", "open", "read", "lseek", "lseek64", "close"].map text

section
variable (regcomp : Bytes → Bool) (my : Bytes → Nat)

def hookOf (symbol : Bytes) : HookInfo := ⟨libunity, symbol, my symbol, none⟩

def registerAll : List Bytes → Core → Int × Core
  | [], core => (0, core)
  | symbol :: symbols, core =>
    match core.register regcomp (hookOf my symbol) with
    | (0, core) => registerAll symbols core
    | (_, core) => (-1, core)

def initHook (created : Bool) (core : Core) : Int × Core :=
  match registerAll regcomp my hookedSymbols core with
  | (0, core) =>
    match core.refreshAsync created with
    | (0, core) => (0, core)
    | (_, core) => (-1, core)
  | failed => failed

variable {regcomp my}

theorem registerAllExact (accepts : regcomp libunity = true) {symbols : List Bytes} (functions : ∀ symbol ∈ symbols, my symbol ≠ 0)
    {core : Core} (fresh : core.inited = false) : registerAll regcomp my symbols core =
      (0, { core with hookInfo := core.hookInfo ++ symbols.map (hookOf my) }) := by
  induction symbols generalizing core with
  | nil => simp [registerAll]
  | cons symbol symbols ih =>
    have some_ : ¬ (hookOf my symbol).newFunc = 0 := functions symbol List.mem_cons_self
    have named : ¬ ¬ regcomp (hookOf my symbol).pathnameRegex = true := not_not_intro accepts
    have once : core.register regcomp (hookOf my symbol) = (0, { core with hookInfo := core.hookInfo ++ [hookOf my symbol] }) := by
      rw [Core.register, if_neg some_, if_neg (by rw [fresh]; decide), if_neg named]
    have rest : registerAll regcomp my symbols { core with hookInfo := core.hookInfo ++ [hookOf my symbol] } = _ :=
      ih (fun other mem => functions other (List.mem_cons_of_mem _ mem)) fresh
    rw [registerAll, once]
    refine rest.trans ?_
    simp

theorem unityHooks {regexec : Bytes → Bytes → Bool} (pathname : Bytes) (symbols : List Bytes) :
    hooksOf regexec [] pathname (symbols.map (hookOf my)) = if regexec libunity pathname then symbols.map (hookOf my) else [] := by
  have none_ : ¬ AllIgnored regexec [] pathname := fun all => by
    obtain ⟨_, mem, _⟩ := all
    cases mem
  have applies (symbol : Bytes) : Applies regexec [] pathname (hookOf my symbol) ↔ regexec libunity pathname = true :=
    ⟨fun all => all.1, fun here => ⟨here, fun _ mem => (by cases mem)⟩⟩
  rw [hooksOf, if_neg none_, List.filter_map]
  split <;> rename_i here
  · exact congrArg (List.map (hookOf my)) (List.filter_eq_self.mpr (fun symbol _ => decide_eq_true ((applies symbol).mpr here)))
  · exact congrArg (List.map (hookOf my))
      (List.filter_eq_nil_iff.mpr (fun symbol _ all => here ((applies symbol).mp (of_decide_eq_true all))))

theorem unityTaken {regexec : Bytes → Bytes → Bool} (pathname : Bytes) :
    checkPathname regexec [] pathname (hookedSymbols.map (hookOf my)) = regexec libunity pathname := by
  simp [hookedSymbols, checkPathname, hookOf, ignored]

end

section
variable {α ε : Type} {hook : MapInfo → α → Except ε α} {header : α → Nat → Bool} {taken : Bytes → Bool} {mi : MapInfo}

theorem visitEmpty (refreshed : List MapInfo) (world : α) (c : MapInfo) : visit hook ⟨[], refreshed, world⟩ c =
    if c.pathname ∈ refreshed.map MapInfo.pathname then .ok ⟨[], refreshed, world⟩
    else (hook c world).map (fun world => ⟨[], refreshed ++ [c], world⟩) :=
  @visitExact α ε hook ⟨[], refreshed, world⟩ List.nodup_nil (by simp) c

theorem onlyAgain {found : List MapInfo} (only : ∀ c ∈ found, taken c.pathname = true → c.pathname = mi.pathname) (world : α) :
    found.foldlM (fun (s : Refresh α) c => if taken c.pathname && header s.world c.baseAddr then visit hook s c else .ok s)
      ⟨[], [mi], world⟩ = .ok ⟨[], [mi], world⟩ := by
  induction found with
  | nil => rfl
  | cons c found ih =>
    have same : (if taken c.pathname && header world c.baseAddr then visit hook ⟨[], [mi], world⟩ c else .ok ⟨[], [mi], world⟩) =
        .ok ⟨[], [mi], world⟩ := by
      split <;> rename_i good
      · have seen : c.pathname ∈ [mi].map MapInfo.pathname :=
          List.mem_singleton.mpr (only c List.mem_cons_self (Bool.and_eq_true_iff.mp good).1)
        rw [visitEmpty, if_pos seen]
      · rfl
    rw [List.foldlM_cons, same]
    exact ih (fun other mem => only other (List.mem_cons_of_mem _ mem))

theorem onlyHooked {found : List MapInfo} {world world' : α}
    (first : found.find? (fun c => taken c.pathname && header world c.baseAddr) = some mi)
    (only : ∀ c ∈ found, taken c.pathname = true → c.pathname = mi.pathname) (made : hook mi world = .ok world') :
    found.foldlM (fun (s : Refresh α) c => if taken c.pathname && header s.world c.baseAddr then visit hook s c else .ok s)
      ⟨[], [], world⟩ = .ok ⟨[], [mi], world'⟩ := by
  induction found with
  | nil => cases first
  | cons c found ih =>
    have rest (other : MapInfo) (mem : other ∈ found) := only other (List.mem_cons_of_mem _ mem)
    rw [List.foldlM_cons]
    by_cases good : (taken c.pathname && header world c.baseAddr) = true
    · rw [List.find?_cons_of_pos (p := fun c : MapInfo => taken c.pathname && header world c.baseAddr) good] at first
      cases first
      have visited : visit hook ⟨[], [], world⟩ mi = .ok ⟨[], [mi], world'⟩ := by
        rw [visitEmpty, List.map_nil, if_neg List.not_mem_nil, made]
        rfl
      dsimp only
      rw [if_pos good, visited]
      exact onlyAgain rest world'
    · rw [List.find?_cons_of_neg (p := fun c : MapInfo => taken c.pathname && header world c.baseAddr) good] at first
      dsimp only
      rw [if_neg good]
      exact ih first rest

end

section
variable {σ : Type} {kernel : Kernel σ} {target : Target} {rounds : Nat} {regcomp : Bytes → Bool} {regexec : Bytes → Bytes → Bool}
  {my : Bytes → Nat} {elf : Elf} {layout : Layout} {tables : List (Nat × Nat)} {good : σ → Prop} {p : Process σ}

/-- What the start registers the next refresh makes: in the one libunity.so of the maps every slot of
the functions goes to its replacement, and nothing else is written. -/
theorem unityHooked (accepts : regcomp libunity = true) (garbage : LineScan) {maps : Bytes} {mi : MapInfo}
    (first : (mappings garbage (fgetsAll 512 [] maps)).find?
      (fun c => regexec libunity c.pathname && elfHeader target p c.baseAddr) = some mi)
    (only : ∀ c ∈ mappings garbage (fgetsAll 512 [] maps), regexec libunity c.pathname = true → c.pathname = mi.pathname)
    (made : Elf.init p.memory mi.baseAddr mi.pathname = .ok elf)
    (hookable : Hookable target elf rounds layout tables (hookedSymbols.map (hookOf my)) p.memory)
    (grants : Grants kernel elf.pathname ((hookedSymbols.map (hookOf my)).flatMap (layout.slots target elf)) good)
    (start : good p.kernel) : ∃ core p', initHook regcomp my true {} = (0, core) ∧
      core.refresh (coreHook kernel target rounds regexec) (elfHeader target) regexec garbage (some maps) p =
        .ok (0, { core with mapInfo := [mi] }, p') ∧
      AllReplaced (layout.slots target elf) (hookedSymbols.map (hookOf my)) p.memory p'.memory := by
  have functions : ∀ symbol ∈ hookedSymbols, my symbol ≠ 0 := fun symbol mem =>
    (hookable.functions (hookOf my symbol) (List.mem_map_of_mem mem)).1
  have registered : initHook regcomp my true {} =
      (0, { inited := true, initOk := true, hookInfo := hookedSymbols.map (hookOf my) }) := by
    rw [initHook, registerAllExact accepts functions rfl]
    rfl
  have own : hooksOf regexec [] mi.pathname (hookedSymbols.map (hookOf my)) = hookedSymbols.map (hookOf my) := by
    have here : (regexec libunity mi.pathname && elfHeader target p mi.baseAddr) = true :=
      List.find?_some (p := fun c : MapInfo => regexec libunity c.pathname && elfHeader target p c.baseAddr) first
    rw [unityHooks, if_pos (Bool.and_eq_true_iff.mp here).1]
  rw [← own] at hookable grants
  obtain ⟨p', run, replaced⟩ := coreHookRun made hookable grants start
  rw [own] at replaced
  refine ⟨_, p', registered, ?_, replaced⟩
  have lines := onlyHooked first only run
  have taken : (fun pathname => checkPathname regexec [] pathname (hookedSymbols.map (hookOf my))) = regexec libunity :=
    funext (fun pathname => unityTaken pathname)
  simp only [Core.refresh, Core.initOnce, if_true, not_true, if_false, refreshImpl, taken, refreshLinesFold, lines]
  rfl

end

/- A libunity.so at 0x1000 that calls open and has no other function to be replaced: headers, dynamic
section, symbols, names, hash table, and the relocation behind one that is passed over. -/
def unityImage : Bytes :=
  [0x7f, 0x45, 0x4c, 0x46, 2, 1, 1] ++ le 9 0 ++ le 2 3 ++ le 2 62 ++ le 4 1 ++ le 8 0 ++ le 8 64 ++ le 16 0 ++ le 8 2 ++
    (le 40 1 ++ le 16 0) ++ (le 16 2 ++ le 24 176 ++ le 16 96) ++
    (le 8 5 ++ le 8 0x140 ++ le 8 6 ++ le 8 0x110 ++ le 8 4 ++ le 8 0x148 ++ le 8 20 ++ le 8 7 ++ le 8 23 ++ le 8 0x160 ++
      le 8 2 ++ le 8 24) ++
    (le 24 0 ++ le 24 1) ++ 0 :: text "open" ++ le 3 0 ++ (le 4 1 ++ le 4 2 ++ le 4 1 ++ le 8 0 ++ le 4 0) ++
    (le 24 0 ++ le 8 0x300 ++ le 8 (2 ^ 32 + 7) ++ le 8 0)

def unityProcess : Process Unit := ⟨save (fun _ => 0) 0x1000 unityImage, ()⟩

def unityElf : Elf :=
  { pathname := text "/libunity.so", baseAddr := 0x1000, biasAddr := 0x1000, phdr := 0x1040, dyn := 0x10b0, dynSz := 96, strtab := 0x1140,
    symtab := 0x1110, relplt := 0x1160, relpltSz := 24, bucket := 0x1150, bucketCnt := 1, chain := 0x1154, chainCnt := 2, isUseRela := true }

def unityLayout : Layout where
  name i := [[], text "open"].getD i []
  count := 2
  lookup symbol := if symbol = text "open" then some 1 else none
  plt := plainRelocs unityProcess.memory 0x1160 24 true
  dyn := []
  android := []

def unityTables : List (Nat × Nat) :=
  unityElf.lookupTables unityProcess.memory unityLayout.name 2 ++ [plainTable 0x1160 24 true]

def unityMaps : Bytes := text "1000-2000 rw-p 0 0:0 0 /libunity.so\n"

def unityKernel : Kernel Unit := ⟨fun _ => some unityMaps, fun _ => [], fun s _ _ _ => (none, s)⟩

theorem unityIndexed : Elf.SysvTable unityProcess.memory unityElf unityLayout.name 2 where
  small := by decide
  spelled := by decide +kernel
  ends := by decide +kernel
  plain := rfl
  buckets := by decide
  chains := by
    intro b low
    have zero : b = 0 := Nat.lt_one_iff.mp low
    subst zero
    have start : unityElf.bucketAt unityProcess.memory 0 = 1 := by decide +kernel
    have stop : unityElf.chainAt unityProcess.memory 1 = 0 := by decide +kernel
    refine ⟨[1], ?_, fun i => ?_⟩
    · rw [start]
      exact .cons (by decide) (stop ▸ .nil)
    · have one : elfHash (unityLayout.name i) % unityElf.bucketCnt = 0 := Nat.mod_one _
      simp only [one, List.mem_singleton, and_true]
      omega

example : unityElf.WellFormed unityProcess.memory 3 unityLayout.name 2 unityLayout.plt [] [] unityTables :=
  ⟨.inl unityIndexed, fun _ mem => List.mem_append_left _ mem, by decide, ⟨rfl, List.mem_append_right _ List.mem_cons_self⟩, rfl, rfl⟩

theorem unityHookable :
    Hookable x86_64 unityElf 3 unityLayout unityTables (hookedSymbols.map (hookOf (fun _ => 0x999))) unityProcess.memory where
  indexed := .inl unityIndexed
  within := fun t mem => List.mem_append_left _ mem
  sections := ⟨⟨rfl, List.mem_append_right _ List.mem_cons_self⟩, rfl, rfl⟩
  found := by decide +kernel
  symbols := by decide +kernel
  functions := by decide +kernel
  each := by decide +kernel
  tabled := by decide +kernel
  above := by decide +kernel

theorem sampleUnity : ∃ core p', initHook (fun _ => true) (fun _ => 0x999) true {} = (0, core) ∧
    core.refresh (coreHook unityKernel x86_64 3 (fun regex pathname => pathname == 0x2f :: regex)) (elfHeader x86_64)
      (fun regex pathname => pathname == 0x2f :: regex) ⟨[], [], 0⟩ (some unityMaps) unityProcess =
        .ok (0, { core with mapInfo := [⟨text "/libunity.so", 0x1000⟩] }, p') ∧
    AllReplaced (unityLayout.slots x86_64 unityElf) (hookedSymbols.map (hookOf (fun _ => 0x999))) unityProcess.memory p'.memory := by
  have grants : Grants unityKernel unityElf.pathname
      ((hookedSymbols.map (hookOf (fun _ => 0x999))).flatMap (unityLayout.slots x86_64 unityElf)) (fun _ => True) := by
    refine ⟨fun s _ slot mem => ⟨⟨true, true, false⟩, ?_⟩, fun s _ slot mem prot => ⟨s, rfl, trivial⟩⟩
    have all : ∀ slot ∈ (hookedSymbols.map (hookOf (fun _ => 0x999))).flatMap (unityLayout.slots x86_64 unityElf),
        getAddrProtect (some unityMaps) [] slot (some unityElf.pathname) = .ok ⟨true, true, false⟩ := by decide +kernel
    exact all slot mem
  exact unityHooked rfl ⟨[], [], 0⟩ (by decide +kernel) (by decide +kernel) (by decide +kernel) unityHookable grants trivial

end Bootstrap.Xhook
