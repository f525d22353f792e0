import Bootstrap.InitHook

/-! A refresh over all libraries. What a hook writes is followed through its loops, whatever the
library holds; headers that lie apart from it are what they were when a line comes to be looked at. -/
namespace Bootstrap.Xhook
open CInt ByteLayout ByteMemory TextScan ShadowZip

section
variable {σ : Type} (kernel : Kernel σ) (target : Target)

def Ending.slotsThen {σ : Type} (first : Ending × Process σ) (second : Process σ → List Nat) : List Nat :=
  match first with
  | (.returned 0, p) => second p
  | _ => []

section
variable (self : Elf) (newFunc : Nat) (oldFunc : Option Nat) (symidx : Nat)

def sectionReaches {ι : Type} (next : Memory → ι → Except Stop (Reloc × ι)) (isPlt : Bool) : Nat → ι → Process σ → List Nat
  | 0, _, _ => []
  | rounds+1, it, p =>
    match next p.memory it with
    | .error _ => []
    | .ok (rel, it) =>
      let slots := if Wanted target isPlt symidx rel then [slotOf self rel] else []
      match findAndReplaceFunc kernel target self isPlt newFunc oldFunc symidx rel p with
      | (found, 0, p) => slots ++ if isPlt && found then [] else sectionReaches next isPlt rounds it p
      | _ => slots

def plainReaches (isPlt : Bool) (rel relSz : Nat) (p : Process σ) : List Nat :=
  if rel = 0 then []
  else sectionReaches kernel target self newFunc oldFunc symidx PlainRelocIterator.next isPlt (relSz + 1)
    ⟨rel, rel + relSz, self.isUseRela⟩ p

def packedReaches (rounds : Nat) (p : Process σ) : List Nat :=
  if self.relandroid = 0 then []
  else
    match PackedRelocIterator.init (load p.memory self.relandroid self.relandroidSz) self.isUseRela with
    | .error _ => []
    | .ok it => sectionReaches kernel target self newFunc oldFunc symidx
      (packedNext (self.relandroid + self.relandroidSz)) false rounds it p

end

def hookReaches (rounds : Nat) (self : Elf) (hi : HookInfo) (p : Process σ) : List Nat :=
  if hi.newFunc = 0 then []
  else
    match self.findSymidxByName p.memory rounds hi.symbol with
    | some (some symidx) =>
      let plt := hookPlain kernel target self hi.newFunc hi.oldFunc symidx true self.relplt self.relpltSz
      let dyn := hookPlain kernel target self hi.newFunc hi.oldFunc symidx false self.reldyn self.reldynSz
      plainReaches kernel target self hi.newFunc hi.oldFunc symidx true self.relplt self.relpltSz p ++
        Ending.slotsThen (plt p) (fun p =>
          plainReaches kernel target self hi.newFunc hi.oldFunc symidx false self.reldyn self.reldynSz p ++
            Ending.slotsThen (dyn p) (packedReaches kernel target self hi.newFunc hi.oldFunc symidx rounds))
    | _ => []

/-! With the cells of the old functions: all that is written to, eight bytes at each place. -/

def hooksWrite (rounds : Nat) (elf : Elf) : List HookInfo → Process σ → List Nat
  | [], _ => []
  | hi :: hooks, p => hi.oldFunc.toList ++ hookReaches kernel target rounds elf hi p ++
    match makeHook kernel target rounds elf hi p with
    | .ok p => hooksWrite rounds elf hooks p
    | .error _ => []

variable (rounds : Nat) (regexec : Bytes → Bytes → Bool) (hooks : List HookInfo) (ignores : List IgnoreInfo)

def libraryWrites (mi : MapInfo) (p : Process σ) : List Nat :=
  match Elf.init p.memory mi.baseAddr mi.pathname with
  | .error _ => []
  | .ok elf => hooksWrite kernel target rounds elf (hooksOf regexec ignores mi.pathname hooks) p

def librariesWrite : List MapInfo → Process σ → List Nat
  | [], _ => []
  | mi :: rest, p => libraryWrites kernel target rounds regexec hooks ignores mi p ++
    match coreHook kernel target rounds regexec hooks ignores mi p with
    | .ok p => librariesWrite rest p
    | .error _ => []

end

def Outside (places : List Nat) (x : Nat) : Prop := ∀ a ∈ places, x < a ∨ a + 8 ≤ x

theorem outsideAppend {places more : List Nat} {x : Nat} : Outside (places ++ more) x ↔ Outside places x ∧ Outside more x := by
  simp only [Outside, List.mem_append, or_imp, forall_and]

section
variable {σ : Type} {kernel : Kernel σ} {target : Target} {self : Elf} {newFunc : Nat} {oldFunc : Option Nat} {symidx x : Nat}

theorem replaceKeeps {slot : Nat} {p : Process σ} (out : x < slot ∨ slot + 8 ≤ x) (cell : Outside oldFunc.toList x) :
    (replaceSlot kernel self slot newFunc oldFunc p).2.memory x = p.memory x := by
  rcases replaceSlotCases kernel self newFunc oldFunc slot p with ⟨_, put⟩ | ⟨_, same⟩
  · rw [put, putOther out (fun c mem => cell c (Option.mem_toList.mpr mem))]
  · rw [same]

theorem sectionKeeps {ι : Type} {next : Memory → ι → Except Stop (Reloc × ι)} {isPlt : Bool} {rounds : Nat} {it : ι} {p : Process σ}
    (cell : Outside oldFunc.toList x)
    (away : Outside (sectionReaches kernel target self newFunc oldFunc symidx next isPlt rounds it p) x) :
    (hookSection kernel target self newFunc oldFunc symidx next isPlt rounds it p).2.memory x = p.memory x := by
  induction rounds generalizing it p with
  | zero => rfl
  | succ rounds ih =>
    rw [sectionReaches] at away
    rw [hookSection]
    cases read : next p.memory it with
    | error stop => cases stop <;> rfl
    | ok answer =>
      obtain ⟨rel, it'⟩ := answer
      rw [read] at away
      dsimp only at away ⊢
      have kept : Outside (if Wanted target isPlt symidx rel then [slotOf self rel] else []) x →
          (findAndReplaceFunc kernel target self isPlt newFunc oldFunc symidx rel p).2.2.memory x = p.memory x := fun out => by
        unfold findAndReplaceFunc
        split
        · rename_i wanted
          rw [if_pos wanted] at out
          exact replaceKeeps (out _ List.mem_cons_self) cell
        · rfl
      generalize findAndReplaceFunc kernel target self isPlt newFunc oldFunc symidx rel p = result at away kept ⊢
      obtain ⟨found, r, p'⟩ := result
      cases r with
      | zero =>
        obtain ⟨own, later⟩ := outsideAppend.mp away
        by_cases last : (isPlt && found) = true
        · simp only [if_pos last]
          exact kept own
        · rw [if_neg last] at later
          simp only [if_neg last]
          exact (ih later).trans (kept own)
      | succ r => exact kept away

theorem plainKeeps {isPlt : Bool} {rel relSz : Nat} {p : Process σ} (cell : Outside oldFunc.toList x)
    (away : Outside (plainReaches kernel target self newFunc oldFunc symidx isPlt rel relSz p) x) :
    (hookPlain kernel target self newFunc oldFunc symidx isPlt rel relSz p).2.memory x = p.memory x := by
  unfold plainReaches at away
  unfold hookPlain
  split
  · rfl
  · rename_i there
    rw [if_neg there] at away
    exact sectionKeeps cell away

theorem packedKeeps {rounds : Nat} {p : Process σ} (cell : Outside oldFunc.toList x)
    (away : Outside (packedReaches kernel target self newFunc oldFunc symidx rounds p) x) :
    (hookPacked kernel target self newFunc oldFunc symidx rounds p).2.memory x = p.memory x := by
  unfold packedReaches at away
  unfold hookPacked
  split
  · rfl
  · rename_i there
    rw [if_neg there] at away
    cases start : PackedRelocIterator.init (load p.memory self.relandroid self.relandroidSz) self.isUseRela with
    | error stop => rfl
    | ok it =>
      rw [start] at away
      exact sectionKeeps cell away

theorem andThenKeeps {first : Ending × Process σ} {second : Process σ → Ending × Process σ} {reaches : Process σ → List Nat}
    {p : Process σ} (kept : first.2.memory x = p.memory x)
    (later : ∀ p', Outside (reaches p') x → (second p').2.memory x = p'.memory x)
    (away : Outside (Ending.slotsThen first reaches) x) : (Ending.andThen first second).2.memory x = p.memory x := by
  obtain ⟨ending, p'⟩ := first
  cases ending with
  | returned r =>
    cases r with
    | zero => exact (later p' away).trans kept
    | succ r => exact kept
  | stopped stop => exact kept
  | endless => exact kept

variable {rounds : Nat} {p p' : Process σ}

theorem hookKeeps {hi : HookInfo} (cell : Outside hi.oldFunc.toList x)
    (away : Outside (hookReaches kernel target rounds self hi p) x) :
    (self.hook kernel target rounds hi.symbol hi.newFunc hi.oldFunc p).2.memory x = p.memory x := by
  unfold hookReaches at away
  unfold Elf.hook
  split
  · rfl
  · rename_i some_
    rw [if_neg some_] at away
    split
    · rfl
    · rfl
    · rename_i symidx found
      simp only [found] at away
      obtain ⟨plt, rest⟩ := outsideAppend.mp away
      refine andThenKeeps (plainKeeps cell plt) (fun p' away => ?_) rest
      obtain ⟨dyn, rest⟩ := outsideAppend.mp away
      exact andThenKeeps (plainKeeps cell dyn) (fun p'' away => packedKeeps cell away) rest

theorem hooksKeep {hooks : List HookInfo} (away : Outside (hooksWrite kernel target rounds self hooks p) x)
    (done : hooks.foldlM (fun p hi => makeHook kernel target rounds self hi p) p = .ok p') : p'.memory x = p.memory x := by
  induction hooks generalizing p with
  | nil =>
    cases done
    rfl
  | cons hi hooks ih =>
    obtain ⟨own, rest⟩ := outsideAppend.mp away
    obtain ⟨cell, slots⟩ := outsideAppend.mp own
    have kept := hookKeeps cell slots
    rw [List.foldlM_cons] at done
    cases made : makeHook kernel target rounds self hi p with
    | error ending =>
      rw [made] at done
      cases done
    | ok q =>
      rw [made] at done rest
      have same : q.memory x = p.memory x := by
        unfold makeHook at made
        split at made
        · rename_i run
          cases made
          rwa [run] at kept
        · cases made
      exact (ih rest done).trans same

variable {regexec : Bytes → Bytes → Bool} {hooks : List HookInfo} {ignores : List IgnoreInfo}

theorem libraryKeeps {mi : MapInfo} (away : Outside (libraryWrites kernel target rounds regexec hooks ignores mi p) x)
    (done : coreHook kernel target rounds regexec hooks ignores mi p = .ok p') : p'.memory x = p.memory x := by
  unfold libraryWrites at away
  unfold coreHook at done
  cases made : Elf.init p.memory mi.baseAddr mi.pathname with
  | error r =>
    rw [made] at done
    cases done
    rfl
  | ok elf =>
    rw [made] at done away
    dsimp only at done
    rw [hookLoopMade] at done
    exact hooksKeep away done

theorem librariesKeep {mis done : List MapInfo} (away : Outside (librariesWrite kernel target rounds regexec hooks ignores mis p) x)
    (part : done <+: mis) (run : done.foldlM (fun p mi => coreHook kernel target rounds regexec hooks ignores mi p) p = .ok p') :
    p'.memory x = p.memory x := by
  induction done generalizing mis p with
  | nil =>
    cases run
    rfl
  | cons mi done ih =>
    obtain ⟨rest, rfl⟩ := part
    obtain ⟨own, later⟩ := outsideAppend.mp away
    rw [List.foldlM_cons] at run
    cases made : coreHook kernel target rounds regexec hooks ignores mi p with
    | error ending =>
      rw [made] at run
      cases run
    | ok q =>
      rw [made] at run later
      exact (ih later (List.prefix_append done rest) run).trans (libraryKeeps own made)

def HEADER_SIZE : Nat := 24

theorem headerKept {baseAddr : Nat} (same : ∀ i < HEADER_SIZE, p'.memory (baseAddr + i) = p.memory (baseAddr + i)) :
    elfHeader target p' baseAddr = elfHeader target p baseAddr := by
  have read (offset size : Nat) (inside : offset + size ≤ HEADER_SIZE) :
      load p'.memory (baseAddr + offset) size = load p.memory (baseAddr + offset) size :=
    loadCongr (fun i below => by
      rw [Nat.add_assoc]
      exact same (offset + i) (by omega))
  have magic := read 0 4 (by decide)
  have word_ (offset size : Nat) (inside : offset + size ≤ HEADER_SIZE) :
      word p'.memory (baseAddr + offset) size = word p.memory (baseAddr + offset) size := congrArg readLE (read offset size inside)
  simp only [elfHeader, checkElfheader, word_ 4 1 (by decide), word_ 5 1 (by decide), word_ 6 1 (by decide), word_ 16 2 (by decide),
    word_ 18 2 (by decide), word_ 20 4 (by decide), show load p'.memory baseAddr 4 = load p.memory baseAddr 4 from magic]

/-- The tree becomes what is found, and the hooks are made, in the order of the maps, in those that the
tree did not have at their address. -/
theorem refreshExact (garbage : LineScan) {ms : List Mapping} (formed : ∀ m ∈ ms, m.Formed) {tree : List MapInfo} (unique : Unique tree)
    (apart : ∀ a ∈ librariesWrite kernel target rounds regexec hooks ignores ((foundIn
        (fun pathname => checkPathname regexec ignores pathname hooks) (elfHeader target p) ms).filter (· ∉ tree)) p,
      ∀ m ∈ ms, m.Eligible → Apart m.info.baseAddr HEADER_SIZE a 8) :
    refreshImpl (coreHook kernel target rounds regexec hooks ignores) (elfHeader target)
        (fun pathname => checkPathname regexec ignores pathname hooks) garbage (some (ms.flatMap Mapping.line)) tree p =
      (((foundIn (fun pathname => checkPathname regexec ignores pathname hooks) (elfHeader target p) ms).filter (· ∉ tree)).foldlM
        (fun p mi => coreHook kernel target rounds regexec hooks ignores mi p) p).map
        (fun p' => (foundIn (fun pathname => checkPathname regexec ignores pathname hooks) (elfHeader target p) ms, p')) := by
  refine refreshAlong _ garbage formed unique p (fun done p' part run m mem eligible => ?_)
  refine headerKept (fun i below => librariesKeep (fun a written => ?_) part run)
  have := apart a written m mem eligible
  unfold Apart at this
  omega

end

def unityMapping : Mapping :=
  ⟨text "1000", text "2000", text "rw-p", text "0", text "0", text "0", text "0", text " ", text "/libunity.so"⟩

def unityRegexec (regex pathname : Bytes) : Bool := pathname == 0x2f :: regex

theorem sampleRefreshed :
    refreshImpl (coreHook unityKernel x86_64 3 unityRegexec (hookedSymbols.map (hookOf (fun _ => 0x999))) []) (elfHeader x86_64)
        (fun pathname => checkPathname unityRegexec [] pathname (hookedSymbols.map (hookOf (fun _ => 0x999)))) ⟨[], [], 0⟩
        (some ([unityMapping, unityMapping].flatMap Mapping.line)) [] unityProcess =
      (((foundIn (fun pathname => checkPathname unityRegexec [] pathname (hookedSymbols.map (hookOf (fun _ => 0x999))))
          (elfHeader x86_64 unityProcess) [unityMapping, unityMapping]).filter (· ∉ [])).foldlM
        (fun p mi => coreHook unityKernel x86_64 3 unityRegexec (hookedSymbols.map (hookOf (fun _ => 0x999))) [] mi p) unityProcess).map
        (fun p' => (foundIn (fun pathname => checkPathname unityRegexec [] pathname (hookedSymbols.map (hookOf (fun _ => 0x999))))
          (elfHeader x86_64 unityProcess) [unityMapping, unityMapping], p')) := by
  have formed : unityMapping.Formed := by
    constructor <;> decide +kernel
  have all : ∀ m ∈ [unityMapping, unityMapping], m.Formed := by
    intro m mem
    rcases List.mem_cons.mp mem with rfl | mem
    · exact formed
    · cases List.mem_singleton.mp mem
      exact formed
  exact refreshExact ⟨[], [], 0⟩ all (show Unique [] from List.nodup_nil) (by decide +kernel)

/- The slot at 0x1300 is reached once. -/
example : librariesWrite unityKernel x86_64 3 unityRegexec (hookedSymbols.map (hookOf (fun _ => 0x999))) []
    [unityMapping.info] unityProcess = [0x1300] := by decide +kernel

end Bootstrap.Xhook
