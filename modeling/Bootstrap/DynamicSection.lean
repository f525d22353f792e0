import Bootstrap.SymbolLookup

/-! What the entries of a dynamic section come to: in which order they stand matters only between
two of them that fill the same members, as the two kinds of hash table do. -/
namespace Bootstrap.Xhook
open CInt ByteLayout ByteMemory

def DynCase.member : DynCase → DynCase
  | .gnuHash => .hash
  | c => c

def Clash (d e : Dyn) : Prop := ∃ c ∈ dynCase d.dTag, ∃ c' ∈ dynCase e.dTag, c.member = c'.member

instance (d e) : Decidable (Clash d e) := by unfold Clash; infer_instance

namespace Elf

def Admits (self : Elf) (d : Dyn) : Prop :=
  ∀ c ∈ dynCase d.dTag, c.takesPointer = true → self.baseAddr ≤ self.pointer d.dVal

instance (self d) : Decidable (Admits self d) := by unfold Admits; infer_instance

def take (memory : Memory) (self : Elf) (d : Dyn) : Elf :=
  match dynCase d.dTag with
  | none => self
  | some c => self.put memory d.dVal c

section
variable (memory : Memory)

@[simp] theorem putBase (self : Elf) (dVal : Nat) (c : DynCase) : (self.put memory dVal c).baseAddr = self.baseAddr := by
  cases c <;> rfl

@[simp] theorem putBias (self : Elf) (dVal : Nat) (c : DynCase) : (self.put memory dVal c).biasAddr = self.biasAddr := by
  cases c <;> rfl

@[simp] theorem takeBase (self : Elf) (d : Dyn) : (self.take memory d).baseAddr = self.baseAddr := by
  unfold take
  split <;> simp

@[simp] theorem takeBias (self : Elf) (d : Dyn) : (self.take memory d).biasAddr = self.biasAddr := by
  unfold take
  split <;> simp

theorem takePointer (self : Elf) (d : Dyn) (dVal : Nat) : (self.take memory d).pointer dVal = self.pointer dVal := by
  rw [pointer, takeBias, pointer]

theorem takeAdmits (self : Elf) (d e : Dyn) : (self.take memory d).Admits e ↔ self.Admits e := by
  simp only [Admits, takeBase, takePointer]

theorem dynStepAdmits {self : Elf} {d : Dyn} (admits : self.Admits d) : dynStep memory self d = .ok (self.take memory d) := by
  rw [dynStep, take]
  cases case_ : dynCase d.dTag with
  | none => rfl
  | some c => exact if_neg (fun below => absurd (admits c case_ below.1) (Nat.not_le.mpr below.2))

theorem dynStepRejects {self : Elf} {d : Dyn} (rejects : ¬ self.Admits d) : dynStep memory self d = .error XH_ERRNO_FORMAT := by
  rw [dynStep]
  unfold Admits at rejects
  cases case_ : dynCase d.dTag with
  | none => simp [case_] at rejects
  | some c =>
    rw [case_] at rejects
    refine if_pos ?_
    by_contra fine
    refine rejects (fun c' same takes => ?_)
    cases same
    exact Nat.le_of_not_lt (fun low => fine ⟨takes, low⟩)

theorem dynLoop (self : Elf) (entries : List Dyn) :
    entries.foldlM (dynStep memory) self =
      if ∀ d ∈ entries, self.Admits d then .ok (entries.foldl (take memory) self) else .error XH_ERRNO_FORMAT := by
  induction entries generalizing self with
  | nil => simp [pure, Except.pure]
  | cons d entries ih =>
    rw [List.foldlM_cons]
    by_cases admits : self.Admits d
    · have all : (∀ e ∈ d :: entries, self.Admits e) ↔ ∀ e ∈ entries, self.Admits e := by
        rw [List.forall_mem_cons, and_iff_right admits]
      rw [dynStepAdmits memory admits]
      simp only [bind, Except.bind, ih, takeAdmits, List.foldl_cons, all]
    · rw [dynStepRejects memory admits, if_neg (fun all => admits (all d List.mem_cons_self))]
      rfl

theorem takeComm (self : Elf) {d e : Dyn} (free : ¬ Clash d e) : (self.take memory d).take memory e = (self.take memory e).take memory d := by
  unfold take
  cases one : dynCase d.dTag with
  | none => rfl
  | some c =>
    cases other : dynCase e.dTag with
    | none => rfl
    | some c' =>
      have differ : c.member ≠ c'.member := fun same => free ⟨c, one, c', other, same⟩
      cases c <;> cases c' <;> first | exact absurd rfl differ | rfl

theorem takeOrder (self : Elf) {entries other : List Dyn} (perm : entries.Perm other)
    (free : entries.Pairwise (fun d e => ¬ Clash d e)) : entries.foldl (take memory) self = other.foldl (take memory) self := by
  have comm : entries.Pairwise (fun d e => ∀ z : Elf, (z.take memory d).take memory e = (z.take memory e).take memory d) :=
    free.imp (fun free z => takeComm memory z free)
  have each := comm.forall_of_forall_of_flip (fun _ _ _ => rfl) (comm.imp (fun same z => (same z).symm))
  exact perm.foldl_eq' (fun d inside e among z => each inside among z) self

end

def live (entries : List Dyn) : List Dyn := entries.takeWhile (fun d => d.dTag ≠ DT_NULL)

theorem parseOrder {memory : Memory} {self : Elf} {entries other : List Dyn} (perm : (live entries).Perm (live other))
    (free : (live entries).Pairwise (fun d e => ¬ Clash d e)) : self.parse memory entries = self.parse memory other := by
  have same : (live entries).foldlM (dynStep memory) self = (live other).foldlM (dynStep memory) self := by
    rw [dynLoop, dynLoop, takeOrder memory self perm free]
    simp only [perm.mem_iff]
  unfold live at same
  rw [parse, parse, same]

def sampleEntries : List Dyn := [⟨5, 0x200⟩, ⟨6, 0x210⟩, ⟨0x6ffffef5, 0x220⟩, ⟨0, 0⟩, ⟨4, 0x240⟩]

theorem sampleOrder : Elf.parse (fun _ => 1) { pathname := [0x61], baseAddr := 1 } sampleEntries =
    Elf.parse (fun _ => 1) { pathname := [0x61], baseAddr := 1 } [⟨0x6ffffef5, 0x220⟩, ⟨5, 0x200⟩, ⟨6, 0x210⟩] :=
  parseOrder (by decide) (by decide)

/-! Which hash table rules. -/

section
variable {memory : Memory}

@[simp] theorem takeDynamic (self : Elf) (d : Dyn) : (self.take memory d).dynamic memory = self.dynamic memory := by
  unfold take
  split
  · rfl
  · rename_i c _
    cases c <;> rfl

theorem takenKept {β : Type} (view : Elf → β) {entries : List Dyn} (keeps : ∀ d ∈ entries, ∀ z : Elf, view (z.take memory d) = view z)
    (self : Elf) : view (entries.foldl (take memory) self) = view self := by
  induction entries generalizing self with
  | nil => rfl
  | cons d entries ih =>
    rw [List.foldl_cons, ih (fun e mem => keeps e (List.mem_cons_of_mem _ mem)), keeps d List.mem_cons_self]

def tables (self : Elf) : Nat × Nat × Nat := (self.bucketCnt, self.bucket, self.chain)

def tablesAt (memory : Memory) (raw : Nat) : DynCase → Nat × Nat × Nat
  | .gnuHash =>
    let bucket := raw + 16 + 8 * word memory (u64 (raw + 8)) 4
    (word memory raw 4, u64 bucket, u64 (bucket + 4 * word memory raw 4))
  | _ => (word memory raw 4, u64 (raw + 8), u64 (raw + 8 + 4 * word memory raw 4))

theorem takeTables {self : Elf} {d : Dyn} {c : DynCase} (one : dynCase d.dTag = some c) (hash : c.member = .hash) :
    (self.take memory d).tables = tablesAt memory (self.pointer d.dVal) c := by
  unfold take
  rw [one]
  cases c <;> first | rfl | cases hash

theorem takeOther {self : Elf} {d : Dyn} (other : ∀ c ∈ dynCase d.dTag, c.member ≠ .hash) :
    (self.take memory d).tables = self.tables := by
  unfold take
  split
  · rfl
  · rename_i c case_
    have differ := other c case_
    cases c <;> first | exact absurd rfl differ | rfl

theorem takeGnu (self : Elf) (d : Dyn) :
    (self.take memory d).isUseGnuHash = (self.isUseGnuHash || dynCase d.dTag == some .gnuHash) := by
  unfold take
  split
  case h_1 case_ => simp [case_]
  case h_2 c case_ => cases c <;> simp [case_, put]

theorem takenGnu (self : Elf) (entries : List Dyn) : (entries.foldl (take memory) self).isUseGnuHash = true ↔
    self.isUseGnuHash = true ∨ ∃ d ∈ entries, dynCase d.dTag = some .gnuHash := by
  induction entries generalizing self with
  | nil => simp
  | cons d entries ih => simp [ih, takeGnu, or_assoc]

structure Parsed (memory : Memory) (first elf : Elf) (entries : List Dyn) : Prop where
  admits : ∀ d ∈ live entries, first.Admits d
  bias : elf.biasAddr = first.biasAddr
  section_ : elf.dynamic memory = first.dynamic memory
  tables : elf.tables = ((live entries).foldl (take memory) first).tables
  gnu : elf.isUseGnuHash = ((live entries).foldl (take memory) first).isUseGnuHash

theorem parsed {self elf : Elf} {entries : List Dyn} (parse : self.parse memory entries = .ok elf) : Parsed memory self elf entries := by
  have loop := dynLoop memory self (live entries)
  unfold live at loop
  rw [Elf.parse, loop] at parse
  split at parse
  case isFalse => cases parse
  case isTrue admits =>
    have bias : ((live entries).foldl (take memory) self).biasAddr = self.biasAddr :=
      takenKept Elf.biasAddr (fun d _ z => takeBias memory z d) self
    have section_ : ((live entries).foldl (take memory) self).dynamic memory = self.dynamic memory :=
      takenKept (Elf.dynamic memory) (fun d _ z => takeDynamic z d) self
    have same : elf.biasAddr = ((live entries).foldl (take memory) self).biasAddr ∧
        elf.dynamic memory = ((live entries).foldl (take memory) self).dynamic memory ∧
        elf.tables = ((live entries).foldl (take memory) self).tables ∧
        elf.isUseGnuHash = ((live entries).foldl (take memory) self).isUseGnuHash := by
      simp only [bind, Except.bind] at parse
      split at parse
      · split at parse
        · cases parse
          exact ⟨rfl, rfl, rfl, rfl⟩
        · cases parse
      · split at parse
        · cases parse
        · split at parse
          · cases parse
            exact ⟨rfl, rfl, rfl, rfl⟩
          · cases parse
    obtain ⟨sameBias, sameSection, sameTables, sameGnu⟩ := same
    exact ⟨admits, sameBias.trans bias, sameSection.trans section_, sameTables, sameGnu⟩

theorem startParsed {first elf : Elf} (parse : first.parse memory (first.dynamic memory) = .ok elf) (plain : first.isUseGnuHash = false) :
    ∃ self : Elf, Parsed memory self elf (elf.dynamic memory) ∧ self.isUseGnuHash = false := by
  have result := parsed parse
  refine ⟨first, ?_, plain⟩
  rw [result.section_]
  exact result

theorem initParsed {baseAddr : Nat} {pathname : Bytes} {elf : Elf} (made : Elf.init memory baseAddr pathname = .ok elf) :
    ∃ self : Elf, Parsed memory self elf (elf.dynamic memory) ∧ self.isUseGnuHash = false := by
  unfold Elf.init at made
  split at made
  · cases made
  · dsimp only at made
    split at made
    · cases made
    · split at made
      · cases made
      · split at made
        · cases made
        · exact startParsed made rfl

/-- The hash table that stands last is the one walked, and as a GNU one as soon as there is any. -/
theorem lastHashRules {baseAddr : Nat} {pathname : Bytes} {elf : Elf} (made : Elf.init memory baseAddr pathname = .ok elf)
    {before after : List Dyn} {e : Dyn} {c : DynCase} (section_ : live (elf.dynamic memory) = before ++ e :: after)
    (one : dynCase e.dTag = some c) (hash : c.member = .hash) (last : ∀ d ∈ after, ∀ c ∈ dynCase d.dTag, c.member ≠ .hash) :
    elf.tables = tablesAt memory (elf.pointer e.dVal) c ∧
      ∀ rounds symbol, elf.findSymidxByName memory rounds symbol =
        if ∃ d ∈ live (elf.dynamic memory), dynCase d.dTag = some .gnuHash then elf.gnuHashLookup memory rounds symbol
        else elf.hashLookup memory rounds symbol := by
  obtain ⟨self, result, plain⟩ := initParsed made
  constructor
  · have pointer : (before.foldl (take memory) self).pointer e.dVal = elf.pointer e.dVal :=
      (takenKept (fun z => Elf.pointer z e.dVal) (fun d _ z => takePointer memory z d e.dVal) self).trans
        (by rw [Elf.pointer, Elf.pointer, result.bias])
    rw [result.tables, section_, List.foldl_append, List.foldl_cons,
      takenKept Elf.tables (fun d mem z => takeOther (last d mem)), takeTables one hash, pointer]
  · have gnu : elf.isUseGnuHash = true ↔ ∃ d ∈ live (elf.dynamic memory), dynCase d.dTag = some .gnuHash := by
      rw [result.gnu, takenGnu, plain]
      simp
    intro rounds symbol
    exact if_congr gnu rfl rfl

/- A file at 0x1000 with a load segment, a dynamic segment, and a DT_HASH behind a DT_GNU_HASH. -/
def sampleFile : Memory :=
  save (fun _ => 0) 0x1000 (le 32 0 ++ le 24 64 ++ le 8 2 ++ (le 40 1 ++ le 16 0) ++ (le 16 2 ++ le 24 176 ++ le 16 80) ++
    le 8 5 ++ le 8 0x200 ++ le 8 6 ++ le 8 0x210 ++ le 8 0x6ffffef5 ++ le 8 0x220 ++ le 8 4 ++ le 8 0x240)

def sampleElf : Elf :=
  { pathname := [0x61], baseAddr := 0x1000, biasAddr := 0x1000, phdr := 0x1040, dyn := 0x10b0, dynSz := 80, strtab := 0x1200,
    symtab := 0x1210, bucket := 0x1248, chain := 0x1248, bloom := 0x1230, isUseGnuHash := true }

theorem sampleInit : Elf.init sampleFile 0x1000 [0x61] = .ok sampleElf := by decide +kernel

theorem sampleLive : live (sampleElf.dynamic sampleFile) =
    [⟨5, 0x200⟩, ⟨6, 0x210⟩, ⟨0x6ffffef5, 0x220⟩] ++ ⟨4, 0x240⟩ :: [] := by decide +kernel

theorem sampleHashRules : sampleElf.tables = tablesAt sampleFile (sampleElf.pointer 0x240) .hash ∧
    ∀ rounds symbol, sampleElf.findSymidxByName sampleFile rounds symbol =
      if ∃ d ∈ live (sampleElf.dynamic sampleFile), dynCase d.dTag = some .gnuHash then
        sampleElf.gnuHashLookup sampleFile rounds symbol
      else sampleElf.hashLookup sampleFile rounds symbol :=
  lastHashRules (e := ⟨4, 0x240⟩) sampleInit sampleLive rfl rfl (by simp)

end

end Elf

end Bootstrap.Xhook
