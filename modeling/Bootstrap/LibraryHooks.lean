import Bootstrap.HookCore
import Mathlib.Data.List.Find

/-! All hooks of one library. Each has slots of its own, and the tables that the next one is looked up
in stay as they are. -/
namespace Bootstrap.Xhook
open CInt ByteLayout ByteMemory

namespace Elf

def lookupTables (memory : Memory) (elf : Elf) (name : Nat → Bytes) (count : Nat) : List (Nat × Nat) :=
  (List.range count).flatMap (fun i : Nat =>
    [(u64 (elf.symtab + 24 * i), 4), (elf.nameAt memory i, (name i).length + 1), (u64 (elf.chain + 4 * i), 4)]) ++
  ((List.range elf.bucketCnt).map (fun i : Nat => (u64 (elf.bucket + 4 * i), 4)) ++
    (List.range elf.bloomSz).map (fun i : Nat => (u64 (elf.bloom + 8 * i), 8)))

def Indexed (memory : Memory) (elf : Elf) (name : Nat → Bytes) (count : Nat) : Prop :=
  SysvTable memory elf name count ∨ GnuTable memory elf name count

structure SameLookups (memory other : Memory) (elf : Elf) (name : Nat → Bytes) (count : Nat) : Prop where
  names : ∀ i < count, load other (elf.nameAt other i) ((name i).length + 1) =
    load memory (elf.nameAt memory i) ((name i).length + 1)
  chain : ∀ i < count, elf.chainAt other i = elf.chainAt memory i
  bucket : ∀ i < elf.bucketCnt, elf.bucketAt other i = elf.bucketAt memory i
  bloom : ∀ i < elf.bloomSz, elf.bloomAt other i = elf.bloomAt memory i

section
variable {memory other : Memory} {elf : Elf} {name : Nat → Bytes} {count : Nat} {tables : List (Nat × Nat)}

theorem sameLookups (within : ∀ t ∈ elf.lookupTables memory name count, t ∈ tables) (same : SameOn tables memory other) :
    SameLookups memory other elf name count := by
  have read (t : Nat × Nat) (mem : t ∈ elf.lookupTables memory name count) : load other t.1 t.2 = load memory t.1 t.2 :=
    sameLoad same (within t mem) (Nat.le_refl _) (Nat.le_refl _)
  have symbol (i : Nat) (inside : i < count) (t : Nat × Nat)
      (mem : t ∈ [(u64 (elf.symtab + 24 * i), 4), (elf.nameAt memory i, (name i).length + 1), (u64 (elf.chain + 4 * i), 4)]) :
      load other t.1 t.2 = load memory t.1 t.2 :=
    read t (List.mem_append_left _ (List.mem_flatMap.mpr ⟨i, List.mem_range.mpr inside, mem⟩))
  refine ⟨fun i inside => ?_, fun i inside => ?_, fun i inside => ?_, fun i inside => ?_⟩
  · have entry := symbol i inside (u64 (elf.symtab + 24 * i), 4) (by simp)
    have place : elf.nameAt other i = elf.nameAt memory i := by
      simp only [nameAt, word]
      rw [entry]
    rw [place]
    exact symbol i inside (elf.nameAt memory i, (name i).length + 1) (by simp)
  · exact congrArg readLE (symbol i inside (u64 (elf.chain + 4 * i), 4) (by simp))
  · refine congrArg readLE (read (u64 (elf.bucket + 4 * i), 4) (List.mem_append_right _ (List.mem_append_left _ ?_)))
    exact List.mem_map.mpr ⟨i, List.mem_range.mpr inside, rfl⟩
  · refine congrArg readLE (read (u64 (elf.bloom + 8 * i), 8) (List.mem_append_right _ (List.mem_append_right _ ?_)))
    exact List.mem_map.mpr ⟨i, List.mem_range.mpr inside, rfl⟩

theorem namedSame (table : SymbolTable memory elf name count) (same : SameLookups memory other elf name count) {i : Nat}
    (inside : i < count) {symbol : Bytes} (free : 0 ∉ symbol) : elf.named other i symbol = elf.named memory i symbol := by
  have moved : SymbolTable other elf name count :=
    ⟨table.small, fun i inside => (same.names i inside).trans (table.spelled i inside), table.ends⟩
  rw [Bool.eq_iff_iff, namedIff moved inside free, namedIff table inside free]

theorem hashChainSame (table : SymbolTable memory elf name count) (same : SameLookups memory other elf name count)
    {symbol : Bytes} (free : 0 ∉ symbol) {i : Nat} {members : List Nat} (chain : ChainOf memory elf i members)
    (inside : ∀ x ∈ members, x < count) (rounds : Nat) :
    elf.hashChain other symbol rounds i = elf.hashChain memory symbol rounds i := by
  induction chain generalizing rounds with
  | nil => cases rounds <;> rfl
  | @cons i rest some next ih =>
    cases rounds with
    | zero => rfl
    | succ rounds =>
      have here := inside i List.mem_cons_self
      rw [hashChain, hashChain, namedSame table same here free, same.chain i here,
        ih (fun x mem => inside x (List.mem_cons_of_mem _ mem))]

theorem gnuChainSame (table : GnuTable memory elf name count) (same : SameLookups memory other elf name count)
    {symbol : Bytes} (free : 0 ∉ symbol) (hash : Nat) {i : Nat} (defined_ : Defined elf count i) (rounds : Nat) :
    elf.gnuChain other symbol hash rounds i = elf.gnuChain memory symbol hash rounds i := by
  induction rounds generalizing i with
  | zero => rfl
  | succ rounds ih =>
    have small := table.small
    have inside := defined_.2
    have low := defined_.1
    have place : u32 (i - elf.symoffset : Int) = i - elf.symoffset := by
      unfold u32
      omega
    rw [gnuChain, gnuChain, place, namedSame table.toSymbolTable same inside free, same.chain _ (by omega), table.chain i defined_]
    by_cases closes : Closes elf name count i
    · have odd : (2 * (gnuHash (name i) / 2) + 1) &&& 1 ≠ 0 := by
        rw [Nat.and_one_is_mod]
        omega
      simp only [if_pos closes, if_pos odd]
    · have more : i + 1 < count := by
        by_contra last
        exact closes (.inl (by omega))
      have step : u32 (i + 1 : Int) = i + 1 := by unfold u32; omega
      rw [step, ih ⟨by omega, more⟩]

theorem lookupSame (indexed : elf.Indexed memory name count) (same : SameLookups memory other elf name count)
    {symbol : Bytes} (free : 0 ∉ symbol) (rounds : Nat) :
    elf.findSymidxByName other rounds symbol = elf.findSymidxByName memory rounds symbol := by
  unfold findSymidxByName
  rcases indexed with table | table
  · have low := Nat.mod_lt (elfHash symbol) table.buckets
    obtain ⟨members, chain, complete⟩ := table.chains _ low
    rw [table.plain, if_neg Bool.false_ne_true, if_neg Bool.false_ne_true, hashLookup, hashLookup, same.bucket _ low]
    exact hashChainSame table.toSymbolTable same free chain (fun x mem => ((complete x).mp mem).2.1) rounds
  · have low := Nat.mod_lt (gnuHash symbol) table.buckets
    have defs : elf.gnuHashLookupDef other rounds symbol = elf.gnuHashLookupDef memory rounds symbol := by
      unfold gnuHashLookupDef
      dsimp only
      rw [same.bloom _ (Nat.mod_lt _ table.words), same.bucket _ low]
      by_cases before : elf.bucketAt memory (gnuHash symbol % elf.bucketCnt) < elf.symoffset
      · simp only [if_pos before]
      · have defined_ : Defined elf count (elf.bucketAt memory (gnuHash symbol % elf.bucketCnt)) := by
          by_cases populated : ∃ i, Defined elf count i ∧ elf.gnuBucket name i = gnuHash symbol % elf.bucketCnt
          · obtain ⟨i, defined_, bucket⟩ := populated
            obtain ⟨head, _, start, in_, _⟩ := bucketFirst table defined_
            rw [← bucket, start]
            exact in_
          · exact absurd (table.empty _ low (fun i defined_ here => populated ⟨i, defined_, here⟩)) before
        simp only [if_neg before, gnuChainSame table same free (gnuHash symbol) defined_]
    have undefs : elf.gnuHashLookupUndef other symbol = elf.gnuHashLookupUndef memory symbol := by
      refine List.find?_congr (fun i mem => ?_)
      exact namedSame table.toSymbolTable same ((List.mem_range.mp mem).trans_le table.offset) free
    rw [table.gnu, if_pos rfl, if_pos rfl, gnuHashLookup, gnuHashLookup, defs, undefs]

theorem lookupEnds (indexed : elf.Indexed memory name count) {symbol : Bytes} (free : 0 ∉ symbol) {rounds : Nat}
    (enough : count < rounds) : ∃ lookup, elf.findSymidxByName memory rounds symbol = some lookup := by
  rcases indexed with table | table
  · obtain ⟨members, chain, complete⟩ := table.chains _ (Nat.mod_lt (elfHash symbol) table.buckets)
    have inside : ∀ x ∈ members, x < count := fun x mem => ((complete x).mp mem).2.1
    have short := chainShort chain inside
    rw [findSymidxByName, table.plain, if_neg Bool.false_ne_true, hashLookup,
      chainWalk table.toSymbolTable free chain inside (by omega)]
    exact ⟨_, rfl⟩
  · obtain ⟨found, walk, _⟩ := gnuDef table free (Nat.le_of_lt enough)
    rw [findSymidxByName, table.gnu, if_pos rfl, gnuHashLookup, walk]
    cases found with
    | some i => exact ⟨some i, rfl⟩
    | none => exact ⟨_, rfl⟩

end

/-- A library with well-formed tables, and the relocations of its sections. -/
structure WellFormed (elf : Elf) (memory : Memory) (rounds : Nat) (name : Nat → Bytes) (count : Nat) (plt dyn android : List Reloc)
    (tables : List (Nat × Nat)) : Prop where
  indexed : elf.Indexed memory name count
  within : ∀ t ∈ elf.lookupTables memory name count, t ∈ tables
  enough : count < rounds
  plt : if elf.relplt = 0 then plt = [] else
    plt = plainRelocs memory elf.relplt elf.relpltSz elf.isUseRela ∧ plainTable elf.relplt elf.relpltSz elf.isUseRela ∈ tables
  dyn : if elf.reldyn = 0 then dyn = [] else
    dyn = plainRelocs memory elf.reldyn elf.reldynSz elf.isUseRela ∧ plainTable elf.reldyn elf.reldynSz elf.isUseRela ∈ tables
  android : if elf.relandroid = 0 then android = [] else
    (∃ base groups tail, load memory elf.relandroid elf.relandroidSz = packedSection base groups ++ tail ∧
      RelocGroup.AllWellFormed elf.isUseRela base groups ∧ android = groups.flatMap RelocGroup.relocs ∧
      android.length < 2 ^ 64 ∧ android.length < rounds) ∧ (elf.relandroid, elf.relandroidSz) ∈ tables

section
variable {σ : Type} {kernel : Kernel σ} {target : Target} {elf : Elf} {newFunc : Nat} {oldFunc : Option Nat} {rounds : Nat}
  {name : Nat → Bytes} {count : Nat} {plt dyn android : List Reloc} {tables : List (Nat × Nat)}

theorem wellFormedSections {memory : Memory} (formed : elf.WellFormed memory rounds name count plt dyn android tables) :
    elf.Sections memory rounds plt dyn android tables := by
  refine ⟨formed.plt, formed.dyn, ?_⟩
  have packed := formed.android
  split
  · rename_i none_
    rwa [if_pos none_] at packed
  · rename_i there
    rw [if_neg there] at packed
    obtain ⟨⟨base, groups, tail, spelled, groups_, rfl, small, enough⟩, mem⟩ := packed
    obtain ⟨it, start, between, offset, addend, rela⟩ :=
      PackedRelocIterator.initExact small base (RelocGroup.images base 0 groups ++ tail) elf.isUseRela
    refine ⟨⟨it, ?_, ?_, enough⟩, mem⟩
    · rw [spelled, packedSection, List.append_assoc, List.append_assoc]
      exact start
    · rw [← addend, ← offset] at between
      refine PackedRelocIterator.groupsRun ?_ small (Nat.zero_add _) between enough
      rw [rela, offset]
      exact groups_

/-- On well-formed tables nothing is left to chance: the lookup and the iterators come to their ends, and a
hook that has succeeded finds its symbol and its slots again. -/
theorem wellFormedHook {symbol : Bytes} {p : Process σ} (formed : elf.WellFormed p.memory rounds name count plt dyn android tables)
    (free : 0 ∉ symbol) (some_ : newFunc ≠ 0) (small : newFunc < 2 ^ 64)
    (placed : ∀ lookup, elf.findSymidxByName p.memory rounds symbol = some lookup →
      Placed tables oldFunc (elf.hookSlotsOf target plt dyn android lookup)) :
    ∃ lookup r k p', elf.findSymidxByName p.memory rounds symbol = some lookup ∧
      elf.hook kernel target rounds symbol newFunc oldFunc p = (.returned r, p') ∧
      k ≤ (elf.hookSlotsOf target plt dyn android lookup).length ∧
      (r = 0 ↔ k = (elf.hookSlotsOf target plt dyn android lookup).length) ∧
      Replaced newFunc oldFunc ((elf.hookSlotsOf target plt dyn android lookup).take k) p.memory p'.memory ∧
      (r = 0 → elf.hook kernel target rounds symbol newFunc oldFunc p' = (.returned 0, p')) := by
  obtain ⟨lookup, found⟩ := lookupEnds formed.indexed free formed.enough
  have own := placed lookup found
  have sections := wellFormedSections formed
  obtain ⟨r, k, p', run, short, all, replaced⟩ :
      ∃ r k p', elf.hook kernel target rounds symbol newFunc oldFunc p = (.returned r, p') ∧ _ :=
    hookReplaces some_ small found sections own
  refine ⟨lookup, r, k, p', found, run, short, all, replaced, fun zero => ?_⟩
  have same : SameOn tables p.memory p'.memory := by
    refine fun t mem x low high => replaced.others x (fun slot in_ => ?_) (fun c in_ => ?_)
    · have out := own.tabled t mem slot (List.mem_of_mem_take in_)
      unfold Apart at out
      omega
    · have out := (own.cell c in_).1 t mem
      unfold Apart at out
      omega
  rw [zero] at run
  exact hookAgain small found sections own run
    ((lookupSame formed.indexed (sameLookups formed.within same) free rounds).trans found)

end

end Elf

section
variable (slots : HookInfo → List Nat)

def places (hooks : List HookInfo) : List Nat := hooks.flatMap (fun hi => slots hi ++ hi.oldFunc.toList)

def putAll (hooks : List HookInfo) (memory : Memory) : Memory :=
  hooks.foldl (fun memory hi => (slots hi).foldl (putSlot hi.newFunc hi.oldFunc) memory) memory

structure AllReplaced (hooks : List HookInfo) (before after : Memory) : Prop where
  hold : ∀ hi ∈ hooks, ∀ slot ∈ slots hi, word after slot 8 = hi.newFunc
  old : ∀ hi ∈ hooks, ∀ c ∈ hi.oldFunc, word after c 8 =
    ((((slots hi).map (word before · 8)).filter (· ≠ hi.newFunc)).getLast?).getD (word before c 8)
  others : ∀ x, (∀ a ∈ places slots hooks, x < a ∨ a + 8 ≤ x) → after x = before x

theorem apartSymm {address len other size : Nat} (apart : Apart address len other size) : Apart other size address len :=
  Or.symm apart

variable {slots}

theorem putAllReplaced {hooks : List HookInfo} (small : ∀ hi ∈ hooks, hi.newFunc < 2 ^ 64)
    (each : (places slots hooks).Pairwise (fun a b => Apart a 8 b 8)) (memory : Memory) :
    AllReplaced slots hooks memory (putAll slots hooks memory) := by
  induction hooks generalizing memory with
  | nil => exact ⟨fun _ mem => (by cases mem), fun _ mem => (by cases mem), fun _ _ => rfl⟩
  | cons hi hooks ih =>
    obtain ⟨own, rest, across⟩ := List.pairwise_append.mp (show ((slots hi ++ hi.oldFunc.toList) ++ places slots hooks).Pairwise _ from each)
    obtain ⟨apart, _, cell⟩ := List.pairwise_append.mp own
    have placed : Placed [] hi.oldFunc (slots hi) := ⟨apart, fun t mem => (by cases mem),
      fun c mem => ⟨fun t in_ => (by cases in_), fun slot in_ => apartSymm (cell slot in_ c (Option.mem_toList.mpr mem))⟩⟩
    have first := putsReplaced (small hi List.mem_cons_self) placed memory
    obtain ⟨hold, old, others⟩ := ih (fun hi mem => small hi (List.mem_cons_of_mem _ mem)) rest
      ((slots hi).foldl (putSlot hi.newFunc hi.oldFunc) memory)
    have slot_ (slot : Nat) (mem : slot ∈ slots hi) := across slot (List.mem_append_left _ mem)
    have cell_ (c : Nat) (mem : c ∈ hi.oldFunc) := across c (List.mem_append_right _ (Option.mem_toList.mpr mem))
    have later (a : Nat) (away : ∀ b ∈ places slots hooks, Apart a 8 b 8) :
        word (putAll slots (hi :: hooks) memory) a 8 = word ((slots hi).foldl (putSlot hi.newFunc hi.oldFunc) memory) a 8 := by
      refine congrArg readLE (loadCongr (fun i below => others _ (fun b mem => ?_)))
      have := away b mem
      unfold Apart at this
      omega
    have before (a : Nat) (mem : a ∈ places slots hooks) :
        word ((slots hi).foldl (putSlot hi.newFunc hi.oldFunc) memory) a 8 = word memory a 8 := by
      refine congrArg readLE (loadCongr (fun i below => first.others _ (fun slot in_ => ?_) (fun c in_ => ?_)))
      · have := slot_ slot in_ a mem
        unfold Apart at this
        omega
      · have := cell_ c in_ a mem
        unfold Apart at this
        omega
    have among (other : HookInfo) (mem : other ∈ hooks) (a : Nat) (in_ : a ∈ slots other ++ other.oldFunc.toList) : a ∈ places slots hooks :=
      List.mem_flatMap.mpr ⟨other, mem, in_⟩
    refine ⟨fun other mem slot in_ => ?_, fun other mem c in_ => ?_, fun x away => ?_⟩
    · rcases List.mem_cons.mp mem with rfl | mem
      · rw [later slot (slot_ slot in_)]
        exact first.hold slot in_
      · exact hold other mem slot in_
    · rcases List.mem_cons.mp mem with rfl | mem
      · rw [later c (cell_ c in_)]
        exact first.old c in_
      · have words : (slots other).map (word ((slots hi).foldl (putSlot hi.newFunc hi.oldFunc) memory) · 8) =
            (slots other).map (word memory · 8) :=
          List.map_congr_left (fun slot at_ => before slot (among other mem slot (List.mem_append_left _ at_)))
        refine (old other mem c in_).trans ?_
        rw [words, before c (among other mem c (List.mem_append_right _ (Option.mem_toList.mpr in_)))]
    · have far (a : Nat) (mem : a ∈ slots hi ++ hi.oldFunc.toList) : x < a ∨ a + 8 ≤ x := away a (List.mem_append_left _ mem)
      refine (others x (fun a mem => away a (List.mem_append_right _ mem))).trans (first.others x (fun slot mem => ?_) (fun c mem => ?_))
      · exact far slot (List.mem_append_left _ mem)
      · exact far c (List.mem_append_right _ (Option.mem_toList.mpr mem))

end

section
variable {σ : Type} {kernel : Kernel σ} {target : Target} {elf : Elf} {good : σ → Prop}

structure Grants (kernel : Kernel σ) (pathname : Bytes) (slots : List Nat) (good : σ → Prop) : Prop where
  tells : ∀ s, good s → ∀ slot ∈ slots, ∃ prot, getAddrProtect (kernel.maps s) (kernel.stack s) slot (some pathname) = .ok prot
  lets : ∀ s, good s → ∀ slot ∈ slots, ∀ prot, ∃ s', setAddrProtect kernel s slot prot = (0, s') ∧ good s'

theorem replaceGranted {slots : List Nat} (grants : Grants kernel elf.pathname slots good) {slot : Nat} (mem : slot ∈ slots)
    (above : elf.baseAddr ≤ slot) (newFunc : Nat) (oldFunc : Option Nat) {p : Process σ} (start : good p.kernel) :
    ∃ s, replaceSlot kernel elf slot newFunc oldFunc p = (0, ⟨putSlot newFunc oldFunc p.memory slot, s⟩) ∧ good s := by
  rw [replaceSlot, if_neg (Nat.not_lt.mpr above), replaceFunction, putSlot]
  by_cases already : word p.memory slot 8 = newFunc
  · rw [if_pos already, if_pos already]
    exact ⟨p.kernel, rfl, start⟩
  · obtain ⟨prot, tells⟩ := grants.tells _ start slot mem
    rw [if_neg already, if_neg already, tells]
    dsimp only
    by_cases need : prot ≠ needProt
    · obtain ⟨s, opened, open_⟩ := grants.lets _ start slot mem needProt
      obtain ⟨s', closed, last⟩ := grants.lets _ open_ slot mem prot
      simp only [if_pos need, opened, closed]
      exact ⟨s', rfl, last⟩
    · simp only [if_neg need]
      exact ⟨p.kernel, rfl, start⟩

theorem replaceAllGranted {slots : List Nat} (grants : Grants kernel elf.pathname slots good) {own : List Nat}
    (part : ∀ slot ∈ own, slot ∈ slots ∧ elf.baseAddr ≤ slot) (newFunc : Nat) (oldFunc : Option Nat) {p : Process σ}
    (start : good p.kernel) : ∃ s, replaceAll kernel elf newFunc oldFunc own p =
      (.returned 0, ⟨own.foldl (putSlot newFunc oldFunc) p.memory, s⟩) ∧ good s := by
  induction own generalizing p with
  | nil => exact ⟨p.kernel, rfl, start⟩
  | cons slot own ih =>
    obtain ⟨mem, above⟩ := part slot List.mem_cons_self
    obtain ⟨s, run, next⟩ := replaceGranted grants mem above newFunc oldFunc start
    obtain ⟨last, rest, done⟩ := ih (p := ⟨putSlot newFunc oldFunc p.memory slot, s⟩)
      (fun a in_ => part a (List.mem_cons_of_mem _ in_)) next
    refine ⟨last, ?_, done⟩
    have step : replaceAll kernel elf newFunc oldFunc (slot :: own) p =
        replaceAll kernel elf newFunc oldFunc own ⟨putSlot newFunc oldFunc p.memory slot, s⟩ := by
      rw [replaceAll, run]
      rfl
    rw [step, rest, List.foldl_cons]

/-- What there is to know of a library: the names of its symbols and where they are found, and the
relocations of each section. -/
structure Layout where
  name : Nat → Bytes
  count : Nat
  lookup : Bytes → Option Nat
  plt : List Reloc
  dyn : List Reloc
  android : List Reloc

def Layout.slots (layout : Layout) (target : Target) (elf : Elf) (hi : HookInfo) : List Nat :=
  elf.hookSlotsOf target layout.plt layout.dyn layout.android (layout.lookup hi.symbol)

/-- The layout is that of the library in memory, and all that is read lies apart from all that is
written. -/
structure Hookable (target : Target) (elf : Elf) (rounds : Nat) (layout : Layout) (tables : List (Nat × Nat))
    (hooks : List HookInfo) (memory : Memory) : Prop where
  indexed : elf.Indexed memory layout.name layout.count
  within : ∀ t ∈ elf.lookupTables memory layout.name layout.count, t ∈ tables
  sections : elf.Sections memory rounds layout.plt layout.dyn layout.android tables
  found : ∀ hi ∈ hooks, elf.findSymidxByName memory rounds hi.symbol = some (layout.lookup hi.symbol)
  symbols : ∀ hi ∈ hooks, 0 ∉ hi.symbol
  functions : ∀ hi ∈ hooks, hi.newFunc ≠ 0 ∧ hi.newFunc < 2 ^ 64
  each : (places (layout.slots target elf) hooks).Pairwise (fun a b => Apart a 8 b 8)
  tabled : ∀ t ∈ tables, ∀ a ∈ places (layout.slots target elf) hooks, Apart t.1 t.2 a 8
  above : ∀ hi ∈ hooks, ∀ slot ∈ layout.slots target elf hi, elf.baseAddr ≤ slot

variable {rounds : Nat} {layout : Layout} {tables : List (Nat × Nat)} {hooks : List HookInfo} {memory : Memory}

theorem hookRun (hookable : Hookable target elf rounds layout tables hooks memory)
    (grants : Grants kernel elf.pathname (hooks.flatMap (layout.slots target elf)) good) {hi : HookInfo} (mem : hi ∈ hooks)
    {p : Process σ} (same : SameOn tables memory p.memory) (start : good p.kernel) :
    ∃ s, elf.hook kernel target rounds hi.symbol hi.newFunc hi.oldFunc p =
        (.returned 0, ⟨(layout.slots target elf hi).foldl (putSlot hi.newFunc hi.oldFunc) p.memory, s⟩) ∧ good s ∧
      SameOn tables memory ((layout.slots target elf hi).foldl (putSlot hi.newFunc hi.oldFunc) p.memory) := by
  obtain ⟨some_, _⟩ := hookable.functions hi mem
  have among (a : Nat) (in_ : a ∈ layout.slots target elf hi ++ hi.oldFunc.toList) : a ∈ places (layout.slots target elf) hooks :=
    List.mem_flatMap.mpr ⟨hi, mem, in_⟩
  have out (t : Nat × Nat) (listed : t ∈ tables) (slot : Nat) (in_ : slot ∈ layout.slots target elf hi) : Apart t.1 t.2 slot 8 :=
    hookable.tabled t listed slot (among slot (List.mem_append_left _ in_))
  have cell (c : Nat) (in_ : c ∈ hi.oldFunc) (t : Nat × Nat) (listed : t ∈ tables) : Apart t.1 t.2 c 8 :=
    hookable.tabled t listed c (among c (List.mem_append_right _ (Option.mem_toList.mpr in_)))
  have part : (layout.slots target elf hi ++ hi.oldFunc.toList).Sublist (places (layout.slots target elf) hooks) :=
    List.sublist_flatten_of_mem (List.mem_map_of_mem mem)
  obtain ⟨own, _, across⟩ := List.pairwise_append.mp (hookable.each.sublist part)
  have found : elf.findSymidxByName p.memory rounds hi.symbol = some (layout.lookup hi.symbol) :=
    (Elf.lookupSame hookable.indexed (Elf.sameLookups hookable.within same) (hookable.symbols hi mem) rounds).trans
      (hookable.found hi mem)
  have run : elf.hook kernel target rounds hi.symbol hi.newFunc hi.oldFunc p =
      replaceAll kernel elf hi.newFunc hi.oldFunc (layout.slots target elf hi) p := by
    cases lookup : layout.lookup hi.symbol with
    | none =>
      rw [Layout.slots, lookup, Elf.hook, if_neg some_, found, lookup]
      rfl
    | some symidx =>
      rw [lookup] at found
      rw [Layout.slots, lookup] at own across out
      rw [Layout.slots, lookup]
      exact Elf.hookSlots some_ found (Elf.sectionsSame same hookable.sections) ⟨own, out,
        fun c in_ => ⟨fun t listed => cell c in_ t listed, fun slot at_ => apartSymm (across slot at_ c (Option.mem_toList.mpr in_))⟩⟩
  obtain ⟨s, granted, next⟩ := replaceAllGranted grants
    (fun slot in_ => ⟨List.mem_flatMap.mpr ⟨hi, mem, in_⟩, hookable.above hi mem slot in_⟩) hi.newFunc hi.oldFunc start
  refine ⟨s, run.trans granted, next, ?_⟩
  have after : SameOn tables memory (replaceAll kernel elf hi.newFunc hi.oldFunc (layout.slots target elf hi) p).2.memory :=
    replaceAllSame kernel out cell p same
  rw [granted] at after
  exact after

theorem hooksRun (hookable : Hookable target elf rounds layout tables hooks memory)
    (grants : Grants kernel elf.pathname (hooks.flatMap (layout.slots target elf)) good) {own : List HookInfo}
    (part : ∀ hi ∈ own, hi ∈ hooks) {p : Process σ} (same : SameOn tables memory p.memory) (start : good p.kernel) :
    ∃ s, own.foldlM (fun p hi => makeHook kernel target rounds elf hi p) p =
      .ok ⟨putAll (layout.slots target elf) own p.memory, s⟩ ∧ good s := by
  induction own generalizing p with
  | nil => exact ⟨p.kernel, rfl, start⟩
  | cons hi own ih =>
    obtain ⟨s, run, next, same'⟩ := hookRun hookable grants (part hi List.mem_cons_self) same start
    obtain ⟨last, rest, done⟩ := ih (p := ⟨(layout.slots target elf hi).foldl (putSlot hi.newFunc hi.oldFunc) p.memory, s⟩)
      (fun other mem => part other (List.mem_cons_of_mem _ mem)) same' next
    refine ⟨last, ?_, done⟩
    have step : makeHook kernel target rounds elf hi p =
        .ok ⟨(layout.slots target elf hi).foldl (putSlot hi.newFunc hi.oldFunc) p.memory, s⟩ := by rw [makeHook, run]
    rw [List.foldlM_cons, step]
    exact rest

theorem coreHookRun {regexec : Bytes → Bytes → Bool} {ignores : List IgnoreInfo} {registered : List HookInfo} {mi : MapInfo}
    {p : Process σ} (made : Elf.init p.memory mi.baseAddr mi.pathname = .ok elf)
    (hookable : Hookable target elf rounds layout tables (hooksOf regexec ignores mi.pathname registered) p.memory)
    (grants : Grants kernel elf.pathname ((hooksOf regexec ignores mi.pathname registered).flatMap (layout.slots target elf)) good)
    (start : good p.kernel) : ∃ p', coreHook kernel target rounds regexec registered ignores mi p = .ok p' ∧
      AllReplaced (layout.slots target elf) (hooksOf regexec ignores mi.pathname registered) p.memory p'.memory := by
  obtain ⟨s, run, _⟩ := hooksRun hookable grants (fun _ mem => mem) (fun _ _ _ _ _ => rfl) start
  refine ⟨⟨_, s⟩, ?_, putAllReplaced (fun hi mem => (hookable.functions hi mem).2) hookable.each p.memory⟩
  rw [coreHook, made]
  dsimp only
  rw [hookLoopMade]
  exact run

end

end Bootstrap.Xhook
