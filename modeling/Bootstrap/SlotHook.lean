import Bootstrap.MapsFile
import Bootstrap.PackedRelocs
import Bootstrap.SymbolLookup

/-! xh_elf_hook: every slot that the relocations of a symbol name is made to hold a new function. -/
namespace Bootstrap.Xhook
open CInt ByteLayout ByteMemory TextScan

/-- What the kernel answers: /proc/self/maps, and mprotect with its errno. A buffer that nothing has
written yet holds what is on the stack. -/
structure Kernel (σ : Type) where
  maps : σ → Option Bytes
  stack : σ → Bytes
  mprotect : σ → Nat → Nat → Prot → Option Nat × σ

structure Process (σ : Type) where
  memory : Memory
  kernel : σ

def PAGE_SIZE : Nat := 4096

def pageStart (addr : Nat) : Nat := addr - addr % PAGE_SIZE
def pageEnd (addr : Nat) : Nat := pageStart (addr + 7) + PAGE_SIZE
def pageCover (addr : Nat) : Nat := pageEnd addr - pageStart addr

section
variable {σ : Type} (kernel : Kernel σ)

def setAddrProtect (s : σ) (addr : Nat) (prot : Prot) : Nat × σ :=
  match kernel.mprotect s (pageStart addr) (pageCover addr) prot with
  | (none, s) => (0, s)
  | (some errno, s) => (if errno = 0 then XH_ERRNO_UNKNOWN else errno, s)

def needProt : Prot := ⟨true, true, false⟩

def saveOld (memory : Memory) (oldFunc : Option Nat) (oldAddr : Nat) : Memory :=
  match oldFunc with
  | none => memory
  | some cell => save memory cell (le 8 oldAddr)

/- Memory is taken as readable everywhere: a fault here would end the process. -/
def replaceFunction (self : Elf) (addr newFunc : Nat) (oldFunc : Option Nat) (p : Process σ) : Nat × Process σ :=
  if word p.memory addr 8 = newFunc then (0, p)
  else
    match getAddrProtect (kernel.maps p.kernel) (kernel.stack p.kernel) addr (some self.pathname) with
    | .error r => (r, p)
    | .ok oldProt =>
      match if oldProt ≠ needProt then setAddrProtect kernel p.kernel addr needProt else (0, p.kernel) with
      | (0, s) =>
        let memory := saveOld p.memory oldFunc (word p.memory addr 8)
        let memory := save memory addr (le 8 newFunc)
        -- that the old protection does not come back is only logged
        (0, ⟨memory, if oldProt ≠ needProt then (setAddrProtect kernel s addr oldProt).2 else s⟩)
      | (r, s) => (r, { p with kernel := s })

def rSym (rel : Reloc) : Nat := rel.rInfo.toNat / 2 ^ 32
def rType (rel : Reloc) : Nat := rel.rInfo.toNat % 2 ^ 32

def Wanted (target : Target) (isPlt : Bool) (symidx : Nat) (rel : Reloc) : Prop :=
  rSym rel = symidx ∧ if isPlt then rType rel = target.jumpSlot else rType rel = target.globDat ∨ rType rel = target.abs

instance (target isPlt symidx rel) : Decidable (Wanted target isPlt symidx rel) := by unfold Wanted; infer_instance

def slotOf (self : Elf) (rel : Reloc) : Nat := u64 (self.biasAddr + rel.rOffset.toNat)

def replaceSlot (self : Elf) (slot newFunc : Nat) (oldFunc : Option Nat) (p : Process σ) : Nat × Process σ :=
  if slot < self.baseAddr then (XH_ERRNO_FORMAT, p) else replaceFunction kernel self slot newFunc oldFunc p

/- With whether it is found. -/
def findAndReplaceFunc (target : Target) (self : Elf) (isPlt : Bool) (newFunc : Nat) (oldFunc : Option Nat) (symidx : Nat)
    (rel : Reloc) (p : Process σ) : Bool × Nat × Process σ :=
  if Wanted target isPlt symidx rel then
    (true, replaceSlot kernel self (slotOf self rel) newFunc oldFunc p)
  else (false, 0, p)

structure PlainRelocIterator where
  cur : Nat
  stop : Nat
  isUseRela : Bool
  deriving DecidableEq, Repr

def relocSize (isUseRela : Bool) : Nat := if isUseRela then 24 else 16

def relocAt (memory : Memory) (isUseRela : Bool) (address : Nat) : Reloc where
  rOffset := BitVec.ofNat 64 (word memory address 8)
  rInfo := BitVec.ofNat 64 (word memory (address + 8) 8)
  rAddend := if isUseRela then BitVec.ofNat 64 (word memory (address + 16) 8) else 0

def PlainRelocIterator.next (memory : Memory) (it : PlainRelocIterator) : Except Stop (Reloc × PlainRelocIterator) :=
  if it.stop ≤ it.cur then .error .failed
  else
    let cur := it.cur + relocSize it.isUseRela
    .ok (relocAt memory it.isUseRela cur, { it with cur })

def packedNext (stop : Nat) (memory : Memory) (it : PackedRelocIterator) : Except Stop (Reloc × PackedRelocIterator) :=
  PackedRelocIterator.next { it with decoder := load memory (stop - it.decoder.length) it.decoder.length }

/-- How a call ends: with its result, in a stop, or not within so many rounds. -/
inductive Ending where
  | returned (r : Nat)
  | stopped (stop : Stop)
  | endless
  deriving DecidableEq, Repr

section
variable (target : Target) (self : Elf) (newFunc : Nat) (oldFunc : Option Nat) (symidx : Nat)

/- The loop over one section; in .rel(a).plt it ends with the first relocation it finds. -/
def hookSection {ι : Type} (next : Memory → ι → Except Stop (Reloc × ι)) (isPlt : Bool) :
    Nat → ι → Process σ → Ending × Process σ
  | 0, _, p => (.endless, p)
  | rounds+1, it, p =>
    match next p.memory it with
    | .error .failed => (.returned 0, p)
    | .error stop => (.stopped stop, p)
    | .ok (rel, it) =>
      match findAndReplaceFunc kernel target self isPlt newFunc oldFunc symidx rel p with
      | (found, 0, p) => if isPlt && found then (.returned 0, p) else hookSection next isPlt rounds it p
      | (_, r, p) => (.returned r, p)

def hookPlain (isPlt : Bool) (rel relSz : Nat) (p : Process σ) : Ending × Process σ :=
  if rel = 0 then (.returned 0, p)
  else hookSection kernel target self newFunc oldFunc symidx PlainRelocIterator.next isPlt (relSz + 1)
    ⟨rel, rel + relSz, self.isUseRela⟩ p

def hookPacked (rounds : Nat) (p : Process σ) : Ending × Process σ :=
  if self.relandroid = 0 then (.returned 0, p)
  else
    match PackedRelocIterator.init (load p.memory self.relandroid self.relandroidSz) self.isUseRela with
    | .error stop => (.stopped stop, p)
    | .ok it => hookSection kernel target self newFunc oldFunc symidx
      (packedNext (self.relandroid + self.relandroidSz)) false rounds it p

end

def Ending.andThen (first : Ending × Process σ) (second : Process σ → Ending × Process σ) : Ending × Process σ :=
  match first with
  | (.returned 0, p) => second p
  | other => other

def Elf.hook (target : Target) (rounds : Nat) (self : Elf) (symbol : Bytes) (newFunc : Nat) (oldFunc : Option Nat)
    (p : Process σ) : Ending × Process σ :=
  if newFunc = 0 then (.returned XH_ERRNO_INVAL, p)
  else
    match self.findSymidxByName p.memory rounds symbol with
    | none => (.endless, p)
    | some none => (.returned 0, p)
    | some (some symidx) =>
      Ending.andThen (hookPlain kernel target self newFunc oldFunc symidx true self.relplt self.relpltSz p) (fun p =>
        Ending.andThen (hookPlain kernel target self newFunc oldFunc symidx false self.reldyn self.reldynSz p)
          (hookPacked kernel target self newFunc oldFunc symidx rounds))

def replaceAll (self : Elf) (newFunc : Nat) (oldFunc : Option Nat) : List Nat → Process σ → Ending × Process σ
  | [], p => (.returned 0, p)
  | slot :: slots, p =>
    match replaceSlot kernel self slot newFunc oldFunc p with
    | (0, p) => replaceAll self newFunc oldFunc slots p
    | (r, p) => (.returned r, p)

def wantedSlots (target : Target) (self : Elf) (isPlt : Bool) (symidx : Nat) (rels : List Reloc) : List Nat :=
  let slots := (rels.filter (Wanted target isPlt symidx)).map (slotOf self)
  if isPlt then slots.take 1 else slots

inductive Lists {ι : Type} (next : Memory → ι → Except Stop (Reloc × ι)) (same : Memory → Prop) : ι → List Reloc → Prop
  | done {it : ι} (ends : ∀ m, same m → next m it = .error .failed) : Lists next same it []
  | cons {it it' : ι} {rel : Reloc} {rels : List Reloc} (reads : ∀ m, same m → next m it = .ok (rel, it'))
    (rest : Lists next same it' rels) : Lists next same it (rel :: rels)

section
variable {target : Target} {self : Elf} {newFunc : Nat} {oldFunc : Option Nat} {symidx : Nat} {kernel}

theorem replaceAllAppend (slots more : List Nat) (p : Process σ) :
    replaceAll kernel self newFunc oldFunc (slots ++ more) p =
      Ending.andThen (replaceAll kernel self newFunc oldFunc slots p) (replaceAll kernel self newFunc oldFunc more) := by
  induction slots generalizing p with
  | nil => rfl
  | cons slot slots ih =>
    rw [List.cons_append, replaceAll, replaceAll]
    obtain ⟨r, p'⟩ := replaceSlot kernel self slot newFunc oldFunc p
    cases r with
    | zero => exact ih p'
    | succ r => rfl

theorem sectionSlots {ι : Type} {next : Memory → ι → Except Stop (Reloc × ι)} {same : Memory → Prop} {isPlt : Bool} {it : ι}
    {rels : List Reloc} (lists : Lists next same it rels) {rounds : Nat} (enough : rels.length < rounds)
    (keeps : ∀ slot ∈ wantedSlots target self isPlt symidx rels, ∀ p : Process σ, same p.memory →
      same (replaceSlot kernel self slot newFunc oldFunc p).2.memory) {p : Process σ} (start : same p.memory) :
    hookSection kernel target self newFunc oldFunc symidx next isPlt rounds it p =
      replaceAll kernel self newFunc oldFunc (wantedSlots target self isPlt symidx rels) p := by
  induction lists generalizing rounds p with
  | @done it ends =>
    obtain ⟨rounds, rfl⟩ : ∃ n, rounds = n + 1 := ⟨rounds - 1, by simp only [List.length_nil] at enough; omega⟩
    simp only [hookSection, ends p.memory start]
    cases isPlt <;> rfl
  | @cons it it' rel rels reads rest ih =>
    rw [List.length_cons] at enough
    obtain ⟨rounds, rfl⟩ : ∃ n, rounds = n + 1 := ⟨rounds - 1, by omega⟩
    rw [hookSection, reads p.memory start]
    dsimp only
    by_cases wanted : Wanted target isPlt symidx rel
    · have first : slotOf self rel ∈ wantedSlots target self isPlt symidx (rel :: rels) := by
        cases isPlt <;> simp [wantedSlots, wanted]
      have kept := keeps _ first p start
      rw [findAndReplaceFunc, if_pos wanted]
      cases isPlt with
      | true =>
        have only : wantedSlots target self true symidx (rel :: rels) = [slotOf self rel] := by simp [wantedSlots, wanted]
        rw [only, replaceAll]
        obtain ⟨r, p'⟩ := replaceSlot kernel self (slotOf self rel) newFunc oldFunc p
        cases r <;> rfl
      | false =>
        have more : wantedSlots target self false symidx (rel :: rels) =
            slotOf self rel :: wantedSlots target self false symidx rels := by simp [wantedSlots, wanted]
        rw [more] at keeps ⊢
        rw [replaceAll]
        generalize replaceSlot kernel self (slotOf self rel) newFunc oldFunc p = result at kept ⊢
        obtain ⟨r, p'⟩ := result
        cases r with
        | zero => exact ih (by omega) (fun slot mem => keeps slot (List.mem_cons_of_mem _ mem)) kept
        | succ r => rfl
    · have skip : wantedSlots target self isPlt symidx (rel :: rels) = wantedSlots target self isPlt symidx rels := by
        simp [wantedSlots, wanted]
      rw [findAndReplaceFunc, if_neg wanted, skip]
      rw [skip] at keeps
      simpa using ih (by omega) keeps start

end

/-! What the iterators hand out while their tables are left alone. -/

def plainRelocs (memory : Memory) (rel relSz : Nat) (isUseRela : Bool) : List Reloc :=
  (List.range ((relSz + (relocSize isUseRela - 1)) / relocSize isUseRela)).map
    (fun i => relocAt memory isUseRela (rel + relocSize isUseRela * (i + 1)))

def plainEntries (memory : Memory) (rel n : Nat) (isUseRela : Bool) : List Reloc :=
  (List.range n).map (fun i => relocAt memory isUseRela (rel + relocSize isUseRela * i))

def shiftedEntries (memory : Memory) (rel n : Nat) (isUseRela : Bool) : List Reloc :=
  (plainEntries memory rel n isUseRela).tail ++ [relocAt memory isUseRela (rel + relocSize isUseRela * n)]

/- The iterator moves on before it hands out. -/
theorem plainShifted (memory : Memory) (rel n : Nat) (isUseRela : Bool) :
    plainRelocs memory rel (relocSize isUseRela * (n + 1)) isUseRela = shiftedEntries memory rel (n + 1) isUseRela := by
  have size : 0 < relocSize isUseRela := by cases isUseRela <;> decide
  have whole : (relocSize isUseRela * (n + 1) + (relocSize isUseRela - 1)) / relocSize isUseRela = n + 1 := by
    rw [Nat.mul_add_div size, Nat.div_eq_of_lt (by omega), Nat.add_zero]
  have tail : (plainEntries memory rel (n + 1) isUseRela).tail =
      (List.range n).map (fun i => relocAt memory isUseRela (rel + relocSize isUseRela * (i + 1))) := by
    rw [plainEntries, List.range_succ_eq_map, List.map_cons, List.tail_cons, List.map_map]
    rfl
  rw [plainRelocs, whole, shiftedEntries, tail, List.range_succ, List.map_append]
  rfl

def plainTable (rel relSz : Nat) (isUseRela : Bool) : Nat × Nat :=
  (rel + relocSize isUseRela, relocSize isUseRela * ((relSz + (relocSize isUseRela - 1)) / relocSize isUseRela))

def SameOn (tables : List (Nat × Nat)) (m other : Memory) : Prop :=
  ∀ t ∈ tables, ∀ x, t.1 ≤ x → x < t.1 + t.2 → other x = m x

theorem sameLoad {tables : List (Nat × Nat)} {m other : Memory} (same : SameOn tables m other) {t : Nat × Nat} (mem : t ∈ tables)
    {address len : Nat} (low : t.1 ≤ address) (high : address + len ≤ t.1 + t.2) : load other address len = load m address len :=
  loadCongr (fun i below => same t mem _ (by omega) (by omega))

theorem relocSame {tables : List (Nat × Nat)} {m other : Memory} (same : SameOn tables m other) {t : Nat × Nat} (mem : t ∈ tables)
    {address : Nat} {isUseRela : Bool} (low : t.1 ≤ address) (high : address + relocSize isUseRela ≤ t.1 + t.2) :
    relocAt other isUseRela address = relocAt m isUseRela address := by
  have field (i : Nat) (inside : i + 8 ≤ relocSize isUseRela) : word other (address + i) 8 = word m (address + i) 8 := by
    rw [word, word, sameLoad same mem (by omega) (by omega)]
  have offset := field 0
  have info := field 8
  have addend := field 16
  cases isUseRela
  · simp only [relocAt, Bool.false_eq_true, if_false]
    rw [info (by decide), ← Nat.add_zero address, offset (by decide)]
  · simp only [relocAt, if_true]
    rw [info (by decide), addend (by decide), ← Nat.add_zero address, offset (by decide)]

theorem plainLists {tables : List (Nat × Nat)} {m : Memory} {rel relSz : Nat} {isUseRela : Bool}
    (mem : plainTable rel relSz isUseRela ∈ tables) :
    Lists PlainRelocIterator.next (SameOn tables m) ⟨rel, rel + relSz, isUseRela⟩ (plainRelocs m rel relSz isUseRela) := by
  have size : 0 < relocSize isUseRela := by cases isUseRela <;> decide
  have whole := Nat.mul_div_le (relSz + (relocSize isUseRela - 1)) (relocSize isUseRela)
  have past := Nat.lt_mul_div_succ (relSz + (relocSize isUseRela - 1)) size
  rw [Nat.mul_succ] at past
  have from_ (n k : Nat) (left : n + k = (relSz + (relocSize isUseRela - 1)) / relocSize isUseRela) :
      Lists PlainRelocIterator.next (SameOn tables m) ⟨rel + relocSize isUseRela * k, rel + relSz, isUseRela⟩
        ((List.range' k n).map (fun i => relocAt m isUseRela (rel + relocSize isUseRela * (i + 1)))) := by
    induction n generalizing k with
    | zero =>
      refine .done (fun m _ => if_pos ?_)
      rw [Nat.zero_add] at left
      rw [left]
      dsimp only
      omega
    | succ n ih =>
      refine .cons (fun m' same => ?_) (ih (k + 1) (by omega))
      have below := Nat.mul_le_mul_left (relocSize isUseRela) (show k + 1 ≤ (relSz + (relocSize isUseRela - 1)) / relocSize isUseRela by omega)
      rw [Nat.mul_succ] at below
      rw [PlainRelocIterator.next, if_neg (by dsimp only; omega)]
      dsimp only
      rw [relocSame same mem (by dsimp only [plainTable]; omega) (by dsimp only [plainTable]; omega), Nat.mul_succ, Nat.add_assoc]
  have all := from_ _ 0 (Nat.add_zero _)
  rw [Nat.mul_zero, Nat.add_zero, ← List.range_eq_range'] at all
  exact all

theorem suffixLoad {tables : List (Nat × Nat)} {m other : Memory} (same : SameOn tables m other) {rel relSz : Nat}
    (mem : (rel, relSz) ∈ tables) {decoder : Bytes} (suffix : decoder <:+ load m rel relSz) :
    load other (rel + relSz - decoder.length) decoder.length = decoder := by
  have short := suffix.length_le
  have whole := loadLength m rel relSz
  rw [whole] at short
  rw [sameLoad same mem (by dsimp only; omega) (by dsimp only; omega)]
  have part : slice (load m rel relSz) (relSz - decoder.length) decoder.length =
      load m (rel + (relSz - decoder.length)) decoder.length := loadSlice m (by omega)
  rw [show rel + relSz - decoder.length = rel + (relSz - decoder.length) by omega, ← part, slice]
  have tail := List.suffix_iff_eq_drop.mp suffix
  rw [whole] at tail
  rw [← tail, List.take_length]

theorem packedLists {tables : List (Nat × Nat)} {m : Memory} {rel relSz : Nat} (mem : (rel, relSz) ∈ tables) {rounds : Nat}
    {it : PackedRelocIterator} {rels : List Reloc} (suffix : it.decoder <:+ load m rel relSz)
    (run : it.relocs rounds = .ok rels) (enough : rels.length < rounds) :
    Lists (packedNext (rel + relSz)) (SameOn tables m) it rels := by
  induction rounds generalizing it rels with
  | zero => cases enough
  | succ rounds ih =>
    have plain (m' : Memory) (same : SameOn tables m m') : packedNext (rel + relSz) m' it = it.next := by
      rw [packedNext, suffixLoad same mem suffix]
    rw [PackedRelocIterator.relocs] at run
    split at run
    case h_1 stop =>
      cases run
      exact .done (fun m' same => (plain m' same).trans stop)
    case h_2 => cases run
    case h_3 rel' it' read =>
      obtain ⟨rest, run', rfl⟩ : ∃ rest, it'.relocs rounds = .ok rest ∧ rels = rel' :: rest := by
        cases later : it'.relocs rounds with
        | error stop =>
          rw [later] at run
          cases run
        | ok rest =>
          rw [later] at run
          cases run
          exact ⟨rest, rfl, rfl⟩
      refine .cons (fun m' same => (plain m' same).trans read) (ih ?_ run' ?_)
      · exact (PackedRelocIterator.nextSuffix read).trans suffix
      · rw [List.length_cons] at enough
        omega

def putSlot (newFunc : Nat) (oldFunc : Option Nat) (memory : Memory) (slot : Nat) : Memory :=
  if word memory slot 8 = newFunc then memory
  else save (saveOld memory oldFunc (word memory slot 8)) slot (le 8 newFunc)

theorem replaceSlotCases (self : Elf) (newFunc : Nat) (oldFunc : Option Nat) (slot : Nat) (p : Process σ) :
    (replaceSlot kernel self slot newFunc oldFunc p).1 = 0 ∧
        (replaceSlot kernel self slot newFunc oldFunc p).2.memory = putSlot newFunc oldFunc p.memory slot ∨
      (replaceSlot kernel self slot newFunc oldFunc p).1 ≠ 0 ∧
        (replaceSlot kernel self slot newFunc oldFunc p).2.memory = p.memory := by
  unfold replaceSlot
  split
  · exact .inr ⟨show XH_ERRNO_FORMAT ≠ 0 by decide, rfl⟩
  · unfold replaceFunction putSlot
    by_cases already : word p.memory slot 8 = newFunc
    · rw [if_pos already, if_pos already]
      exact .inl ⟨rfl, rfl⟩
    · rw [if_neg already, if_neg already]
      cases prot : getAddrProtect (kernel.maps p.kernel) (kernel.stack p.kernel) slot (some self.pathname) with
      | error r => exact .inr ⟨protectError prot, rfl⟩
      | ok oldProt =>
        dsimp only
        obtain ⟨r, s⟩ := if oldProt ≠ needProt then setAddrProtect kernel p.kernel slot needProt else (0, p.kernel)
        cases r with
        | zero => exact .inl ⟨rfl, rfl⟩
        | succ r => exact .inr ⟨Nat.succ_ne_zero r, rfl⟩

structure Placed (tables : List (Nat × Nat)) (oldFunc : Option Nat) (slots : List Nat) : Prop where
  each : slots.Pairwise (fun a b => Apart a 8 b 8)
  tabled : ∀ t ∈ tables, ∀ slot ∈ slots, Apart t.1 t.2 slot 8
  cell : ∀ c ∈ oldFunc, (∀ t ∈ tables, Apart t.1 t.2 c 8) ∧ ∀ slot ∈ slots, Apart c 8 slot 8

instance (tables oldFunc slots) : Decidable (Placed tables oldFunc slots) :=
  decidable_of_iff (slots.Pairwise (fun a b => Apart a 8 b 8) ∧ (∀ t ∈ tables, ∀ slot ∈ slots, Apart t.1 t.2 slot 8) ∧
    ∀ c ∈ oldFunc, (∀ t ∈ tables, Apart t.1 t.2 c 8) ∧ ∀ slot ∈ slots, Apart c 8 slot 8)
    ⟨fun all => ⟨all.1, all.2.1, all.2.2⟩, fun placed => ⟨placed.each, placed.tabled, placed.cell⟩⟩

/-- Every slot holds the new function, nothing else has changed, and the cell has what the last slot
held that held another function. -/
structure Replaced (newFunc : Nat) (oldFunc : Option Nat) (slots : List Nat) (before after : Memory) : Prop where
  hold : ∀ slot ∈ slots, word after slot 8 = newFunc
  others : ∀ x, (∀ slot ∈ slots, x < slot ∨ slot + 8 ≤ x) → (∀ c ∈ oldFunc, x < c ∨ c + 8 ≤ x) → after x = before x
  old : ∀ c ∈ oldFunc, word after c 8 =
    (((slots.map (word before · 8)).filter (· ≠ newFunc)).getLast?).getD (word before c 8)

theorem saveOldOther {memory : Memory} {oldFunc : Option Nat} {value x : Nat} (other : ∀ c ∈ oldFunc, x < c ∨ c + 8 ≤ x) :
    saveOld memory oldFunc value x = memory x := by
  cases oldFunc with
  | none => rfl
  | some c => exact saveOutside (by have := other c rfl; rw [leLength]; omega)

theorem putOther {newFunc slot x : Nat} {oldFunc : Option Nat} {memory : Memory} (out : x < slot ∨ slot + 8 ≤ x)
    (other : ∀ c ∈ oldFunc, x < c ∨ c + 8 ≤ x) : putSlot newFunc oldFunc memory slot x = memory x := by
  unfold putSlot
  split
  · rfl
  · rw [saveOutside (by rw [leLength]; exact out), saveOldOther other]

theorem putWordOther {newFunc slot address : Nat} {oldFunc : Option Nat} {memory : Memory} (out : Apart address 8 slot 8)
    (other : ∀ c ∈ oldFunc, Apart c 8 address 8) : word (putSlot newFunc oldFunc memory slot) address 8 = word memory address 8 := by
  rw [word, word, loadCongr (fun i below => putOther (by unfold Apart at out; omega)
    (fun c mem => by have := other c mem; unfold Apart at this; omega))]

theorem putHolds {newFunc slot : Nat} (small : newFunc < 2 ^ 64) (oldFunc : Option Nat) (memory : Memory) :
    word (putSlot newFunc oldFunc memory slot) slot 8 = newFunc := by
  unfold putSlot
  split
  · assumption
  · rw [wordSaved, Nat.mod_eq_of_lt (by omega)]

theorem putOld {newFunc slot c : Nat} {memory : Memory} (out : Apart c 8 slot 8) :
    word (putSlot newFunc (some c) memory slot) c 8 = if word memory slot 8 = newFunc then word memory c 8 else word memory slot 8 := by
  unfold putSlot
  split
  · rfl
  · rw [wordApart (by rw [leLength]; exact out), saveOld, wordSaved, Nat.mod_eq_of_lt (wordBound memory slot 8)]

theorem putsReplaced {newFunc : Nat} (small : newFunc < 2 ^ 64) {oldFunc : Option Nat} {slots : List Nat}
    (placed : Placed [] oldFunc slots) (memory : Memory) :
    Replaced newFunc oldFunc slots memory (slots.foldl (putSlot newFunc oldFunc) memory) := by
  induction slots generalizing memory with
  | nil => exact ⟨fun _ mem => (by cases mem), fun _ _ _ => rfl, fun _ _ => rfl⟩
  | cons slot slots ih =>
    obtain ⟨away, pairwise⟩ := List.pairwise_cons.mp placed.each
    have rest : Placed [] oldFunc slots :=
      ⟨pairwise, fun t mem => (by cases mem), fun c mem => ⟨fun t mem => (by cases mem), fun a in_ => (placed.cell c mem).2 a (List.mem_cons_of_mem _ in_)⟩⟩
    obtain ⟨hold, others, old⟩ := ih rest (putSlot newFunc oldFunc memory slot)
    have cell (c : Nat) (mem : c ∈ oldFunc) : Apart c 8 slot 8 := (placed.cell c mem).2 slot List.mem_cons_self
    rw [List.foldl_cons]
    refine ⟨fun a mem => ?_, fun x out other => ?_, fun c mem => ?_⟩
    · rcases List.mem_cons.mp mem with rfl | mem
      · have kept : word (slots.foldl (putSlot newFunc oldFunc) (putSlot newFunc oldFunc memory a)) a 8 =
            word (putSlot newFunc oldFunc memory a) a 8 := by
          rw [word, word, loadCongr (fun i below => others _ (fun b in_ => by have := away b in_; unfold Apart at this; omega)
            (fun c in_ => by have := cell c in_; unfold Apart at this; omega))]
        exact kept.trans (putHolds small oldFunc memory)
      · exact hold a mem
    · rw [others x (fun a mem => out a (List.mem_cons_of_mem _ mem)) other, putOther (out slot List.mem_cons_self) other]
    · have words : slots.map (word (putSlot newFunc oldFunc memory slot) · 8) = slots.map (word memory · 8) := by
        refine List.map_congr_left (fun a in_ => putWordOther ?_ (fun c mem => (placed.cell c mem).2 a (List.mem_cons_of_mem _ in_)))
        have := away a in_
        unfold Apart at this ⊢
        omega
      rw [old c mem, words, List.map_cons]
      have here : word (putSlot newFunc oldFunc memory slot) c 8 =
          if word memory slot 8 = newFunc then word memory c 8 else word memory slot 8 := by
        cases mem
        exact putOld (cell c rfl)
      rw [here]
      by_cases already : word memory slot 8 = newFunc
      · rw [if_pos already, List.filter_cons_of_neg (by simpa using already)]
      · rw [if_neg already, List.filter_cons_of_pos (by simpa using already), List.getLast?_cons]
        rfl

theorem replaceAllPrefix (self : Elf) (newFunc : Nat) (oldFunc : Option Nat) (slots : List Nat) (p : Process σ) :
    ∃ r k p', replaceAll kernel self newFunc oldFunc slots p = (.returned r, p') ∧ k ≤ slots.length ∧ (r = 0 ↔ k = slots.length) ∧
      p'.memory = (slots.take k).foldl (putSlot newFunc oldFunc) p.memory := by
  induction slots generalizing p with
  | nil => exact ⟨0, 0, p, rfl, Nat.le_refl _, by simp, rfl⟩
  | cons slot slots ih =>
    rw [replaceAll]
    have cases_ := replaceSlotCases kernel self newFunc oldFunc slot p
    generalize replaceSlot kernel self slot newFunc oldFunc p = result at cases_
    obtain ⟨r, p'⟩ := result
    rcases cases_ with ⟨done, put⟩ | ⟨failed, kept⟩
    · dsimp only at done put
      subst done
      obtain ⟨r, k, last, run, short, all, memory⟩ := ih p'
      refine ⟨r, k + 1, last, run, Nat.succ_le_succ short, by rw [all, List.length_cons]; omega, ?_⟩
      rw [memory, put, List.take_succ_cons, List.foldl_cons]
    · obtain ⟨n, rfl⟩ := Nat.exists_eq_succ_of_ne_zero failed
      exact ⟨n + 1, 0, p', rfl, Nat.zero_le _, by simp, kept⟩

theorem replaceAllReplaced (self : Elf) {newFunc : Nat} (small : newFunc < 2 ^ 64) {tables : List (Nat × Nat)} {oldFunc : Option Nat}
    {slots : List Nat} (placed : Placed tables oldFunc slots) (p : Process σ) :
    ∃ r k p', replaceAll kernel self newFunc oldFunc slots p = (.returned r, p') ∧ k ≤ slots.length ∧ (r = 0 ↔ k = slots.length) ∧
      Replaced newFunc oldFunc (slots.take k) p.memory p'.memory := by
  obtain ⟨r, k, p', run, short, all, memory⟩ := replaceAllPrefix kernel self newFunc oldFunc slots p
  refine ⟨r, k, p', run, short, all, ?_⟩
  rw [memory]
  refine putsReplaced small ⟨placed.each.sublist (List.take_sublist k _), fun t mem => (by cases mem),
    fun c mem => ⟨fun t in_ => (by cases in_), fun slot in_ => ?_⟩⟩ p.memory
  exact (placed.cell c mem).2 slot (List.mem_of_mem_take in_)

theorem replaceSlotSame {tables : List (Nat × Nat)} {m : Memory} {self : Elf} {newFunc slot : Nat} {oldFunc : Option Nat}
    (out : ∀ t ∈ tables, Apart t.1 t.2 slot 8) (cell : ∀ c ∈ oldFunc, ∀ t ∈ tables, Apart t.1 t.2 c 8) (p : Process σ)
    (same : SameOn tables m p.memory) : SameOn tables m (replaceSlot kernel self slot newFunc oldFunc p).2.memory := by
  intro t mem x low high
  have before := same t mem x low high
  rcases replaceSlotCases kernel self newFunc oldFunc slot p with ⟨_, put⟩ | ⟨_, kept⟩
  · have away := out t mem
    rw [put, putOther (by unfold Apart at away; omega) (fun c in_ => by
      have := cell c in_ t mem
      unfold Apart at this
      omega), before]
  · rw [kept, before]

theorem replaceAllSame {tables : List (Nat × Nat)} {m : Memory} {self : Elf} {newFunc : Nat} {oldFunc : Option Nat} {slots : List Nat}
    (out : ∀ t ∈ tables, ∀ slot ∈ slots, Apart t.1 t.2 slot 8) (cell : ∀ c ∈ oldFunc, ∀ t ∈ tables, Apart t.1 t.2 c 8) (p : Process σ)
    (same : SameOn tables m p.memory) : SameOn tables m (replaceAll kernel self newFunc oldFunc slots p).2.memory := by
  induction slots generalizing p with
  | nil => exact same
  | cons slot slots ih =>
    have next : SameOn tables m (replaceSlot kernel self slot newFunc oldFunc p).2.memory :=
      replaceSlotSame kernel (fun t mem => out t mem slot List.mem_cons_self) cell p same
    rw [replaceAll]
    generalize replaceSlot kernel self slot newFunc oldFunc p = result at next
    obtain ⟨r, p'⟩ := result
    cases r with
    | zero => exact ih (fun t mem a in_ => out t mem a (List.mem_cons_of_mem _ in_)) p' next
    | succ r => exact next

namespace Elf

/-- The relocations of each section, as its iterator hands them out, and the memory it reads. -/
structure Sections (elf : Elf) (memory : Memory) (rounds : Nat) (plt dyn android : List Reloc) (tables : List (Nat × Nat)) : Prop where
  plt : if elf.relplt = 0 then plt = [] else
    plt = plainRelocs memory elf.relplt elf.relpltSz elf.isUseRela ∧ plainTable elf.relplt elf.relpltSz elf.isUseRela ∈ tables
  dyn : if elf.reldyn = 0 then dyn = [] else
    dyn = plainRelocs memory elf.reldyn elf.reldynSz elf.isUseRela ∧ plainTable elf.reldyn elf.reldynSz elf.isUseRela ∈ tables
  android : if elf.relandroid = 0 then android = [] else
    (∃ it, PackedRelocIterator.init (load memory elf.relandroid elf.relandroidSz) elf.isUseRela = .ok it ∧
      it.relocs rounds = .ok android ∧ android.length < rounds) ∧ (elf.relandroid, elf.relandroidSz) ∈ tables

def slotsOf (self : Elf) (target : Target) (plt dyn android : List Reloc) (symidx : Nat) : List Nat :=
  wantedSlots target self true symidx plt ++ (wantedSlots target self false symidx dyn ++ wantedSlots target self false symidx android)

section
variable {kernel : Kernel σ} {target : Target} {self : Elf} {newFunc : Nat} {oldFunc : Option Nat} {tables : List (Nat × Nat)} {symidx : Nat}

theorem andThenCongr {P : Memory → Prop} {first : Ending × Process σ} {second other : Process σ → Ending × Process σ}
    (agree : ∀ p, P p.memory → second p = other p) (holds : P first.2.memory) :
    Ending.andThen first second = Ending.andThen first other := by
  obtain ⟨ending, p⟩ := first
  cases ending with
  | returned r =>
    cases r with
    | zero => exact agree p holds
    | succ r => rfl
  | stopped stop => rfl
  | endless => rfl

theorem plainHook {m : Memory} {rel relSz : Nat} {isPlt : Bool} {rels : List Reloc}
    (section_ : if rel = 0 then rels = [] else
      rels = plainRelocs m rel relSz self.isUseRela ∧ plainTable rel relSz self.isUseRela ∈ tables)
    (out : ∀ t ∈ tables, ∀ slot ∈ wantedSlots target self isPlt symidx rels, Apart t.1 t.2 slot 8)
    (cell : ∀ c ∈ oldFunc, ∀ t ∈ tables, Apart t.1 t.2 c 8) {p : Process σ} (same : SameOn tables m p.memory) :
    hookPlain kernel target self newFunc oldFunc symidx isPlt rel relSz p =
      replaceAll kernel self newFunc oldFunc (wantedSlots target self isPlt symidx rels) p := by
  unfold hookPlain
  by_cases none_ : rel = 0
  · rw [if_pos none_] at section_ ⊢
    rw [section_]
    cases isPlt <;> rfl
  · rw [if_neg none_] at section_ ⊢
    obtain ⟨rfl, mem⟩ := section_
    have size : 0 < relocSize self.isUseRela := by cases self.isUseRela <;> decide
    refine sectionSlots (plainLists mem) ?_ (fun slot in_ p same => replaceSlotSame kernel (fun t mem => out t mem slot in_) cell p same) same
    rw [plainRelocs, List.length_map, List.length_range, Nat.div_lt_iff_lt_mul size, Nat.succ_mul]
    have := Nat.le_mul_of_pos_right relSz size
    omega

theorem plainSearched {p : Process σ} {rel n : Nat} {isPlt : Bool} (there : rel ≠ 0) (small : newFunc < 2 ^ 64)
    (placed : Placed [plainTable rel (relocSize self.isUseRela * (n + 1)) self.isUseRela] oldFunc
      (wantedSlots target self isPlt symidx (shiftedEntries p.memory rel (n + 1) self.isUseRela))) :
    ∃ r k p', hookPlain kernel target self newFunc oldFunc symidx isPlt rel (relocSize self.isUseRela * (n + 1)) p = (.returned r, p') ∧
      k ≤ (wantedSlots target self isPlt symidx (shiftedEntries p.memory rel (n + 1) self.isUseRela)).length ∧
      (r = 0 ↔ k = (wantedSlots target self isPlt symidx (shiftedEntries p.memory rel (n + 1) self.isUseRela)).length) ∧
      Replaced newFunc oldFunc ((wantedSlots target self isPlt symidx (shiftedEntries p.memory rel (n + 1) self.isUseRela)).take k)
        p.memory p'.memory := by
  rw [← plainShifted] at placed ⊢
  obtain ⟨r, k, p', run, rest⟩ := replaceAllReplaced kernel self small placed p
  refine ⟨r, k, p', Eq.trans ?_ run, rest⟩
  refine plainHook ?_ placed.tabled (fun c mem => (placed.cell c mem).1) (fun _ _ _ _ _ => rfl)
  rw [if_neg there]
  exact ⟨rfl, List.mem_cons_self⟩

theorem packedHook {m : Memory} {rounds : Nat} {rels : List Reloc}
    (section_ : if self.relandroid = 0 then rels = [] else
      (∃ it, PackedRelocIterator.init (load m self.relandroid self.relandroidSz) self.isUseRela = .ok it ∧
        it.relocs rounds = .ok rels ∧ rels.length < rounds) ∧ (self.relandroid, self.relandroidSz) ∈ tables)
    (out : ∀ t ∈ tables, ∀ slot ∈ wantedSlots target self false symidx rels, Apart t.1 t.2 slot 8)
    (cell : ∀ c ∈ oldFunc, ∀ t ∈ tables, Apart t.1 t.2 c 8) {p : Process σ} (same : SameOn tables m p.memory) :
    hookPacked kernel target self newFunc oldFunc symidx rounds p =
      replaceAll kernel self newFunc oldFunc (wantedSlots target self false symidx rels) p := by
  unfold hookPacked
  by_cases none_ : self.relandroid = 0
  · rw [if_pos none_] at section_ ⊢
    rw [section_]
    rfl
  · rw [if_neg none_] at section_ ⊢
    obtain ⟨⟨it, start, run, enough⟩, mem⟩ := section_
    have whole : load p.memory self.relandroid self.relandroidSz = load m self.relandroid self.relandroidSz :=
      sameLoad same mem (Nat.le_refl _) (Nat.le_refl _)
    rw [whole, start]
    exact sectionSlots (packedLists mem (PackedRelocIterator.initSuffix start) run enough) enough
      (fun slot in_ p same => replaceSlotSame kernel (fun t mem => out t mem slot in_) cell p same) same

theorem hookSlots {p : Process σ} {rounds : Nat} {symbol : Bytes} {plt dyn android : List Reloc} (some_ : newFunc ≠ 0)
    (found : self.findSymidxByName p.memory rounds symbol = some (some symidx))
    (sections : self.Sections p.memory rounds plt dyn android tables)
    (placed : Placed tables oldFunc (self.slotsOf target plt dyn android symidx)) :
    self.hook kernel target rounds symbol newFunc oldFunc p =
      replaceAll kernel self newFunc oldFunc (self.slotsOf target plt dyn android symidx) p := by
  have cell : ∀ c ∈ oldFunc, ∀ t ∈ tables, Apart t.1 t.2 c 8 := fun c mem => (placed.cell c mem).1
  have tabled := placed.tabled
  unfold slotsOf at tabled ⊢
  have first (t) (mem : t ∈ tables) := fun slot in_ => tabled t mem slot (List.mem_append_left _ in_)
  have second (t) (mem : t ∈ tables) := fun slot in_ => tabled t mem slot (List.mem_append_right _ (List.mem_append_left _ in_))
  have third (t) (mem : t ∈ tables) := fun slot in_ => tabled t mem slot (List.mem_append_right _ (List.mem_append_right _ in_))
  have start : SameOn tables p.memory p.memory := fun _ _ _ _ _ => rfl
  rw [Elf.hook, if_neg some_, found]
  dsimp only
  rw [plainHook sections.plt first cell start, replaceAllAppend]
  have after : SameOn tables p.memory (replaceAll kernel self newFunc oldFunc (wantedSlots target self true symidx plt) p).2.memory :=
    replaceAllSame kernel first cell p start
  generalize replaceAll kernel self newFunc oldFunc (wantedSlots target self true symidx plt) p = result at after ⊢
  refine andThenCongr (fun p' same => ?_) after
  rw [plainHook sections.dyn second cell same, replaceAllAppend]
  have after' : SameOn tables p.memory
      (replaceAll kernel self newFunc oldFunc (wantedSlots target self false symidx dyn) p').2.memory :=
    replaceAllSame kernel second cell p' same
  generalize replaceAll kernel self newFunc oldFunc (wantedSlots target self false symidx dyn) p' = result' at after' ⊢
  exact andThenCongr (fun p'' same' => packedHook sections.android third cell same') after'

def hookSlotsOf (self : Elf) (target : Target) (plt dyn android : List Reloc) : Option Nat → List Nat
  | none => []
  | some symidx => self.slotsOf target plt dyn android symidx

theorem hookReplaces {p : Process σ} {rounds : Nat} {symbol : Bytes} {lookup : Option Nat} {plt dyn android : List Reloc}
    (some_ : newFunc ≠ 0) (small : newFunc < 2 ^ 64) (found : self.findSymidxByName p.memory rounds symbol = some lookup)
    (sections : self.Sections p.memory rounds plt dyn android tables)
    (placed : Placed tables oldFunc (self.hookSlotsOf target plt dyn android lookup)) :
    ∃ r k p', self.hook kernel target rounds symbol newFunc oldFunc p = (.returned r, p') ∧
      k ≤ (self.hookSlotsOf target plt dyn android lookup).length ∧
      (r = 0 ↔ k = (self.hookSlotsOf target plt dyn android lookup).length) ∧
      Replaced newFunc oldFunc ((self.hookSlotsOf target plt dyn android lookup).take k) p.memory p'.memory := by
  cases lookup with
  | none =>
    refine ⟨0, 0, p, ?_, Nat.le_refl _, by simp [hookSlotsOf], ⟨fun _ mem => (by cases mem), fun _ _ _ => rfl, fun _ _ => rfl⟩⟩
    rw [Elf.hook, if_neg some_, found]
  | some symidx =>
    obtain ⟨r, k, p', run, rest⟩ := replaceAllReplaced kernel self small placed p
    exact ⟨r, k, p', (hookSlots some_ found sections placed).trans run, rest⟩

theorem hookExact {p : Process σ} {rounds : Nat} {symbol : Bytes} {lookup : Option Nat} {plt dyn android : List Reloc}
    (some_ : newFunc ≠ 0) (small : newFunc < 2 ^ 64) (found : self.findSymidxByName p.memory rounds symbol = some lookup)
    (sections : self.Sections p.memory rounds plt dyn android tables)
    (placed : Placed tables oldFunc (self.hookSlotsOf target plt dyn android lookup)) :
    ∃ r k p', self.hook kernel target rounds symbol newFunc oldFunc p = (.returned r, p') ∧
      k ≤ (self.hookSlotsOf target plt dyn android lookup).length ∧
      (r = 0 ↔ k = (self.hookSlotsOf target plt dyn android lookup).length) ∧
      Replaced newFunc oldFunc ((self.hookSlotsOf target plt dyn android lookup).take k) p.memory p'.memory :=
  hookReplaces some_ small found sections placed

theorem sectionsSame {m other : Memory} {rounds : Nat} {plt dyn android : List Reloc} (same : SameOn tables m other)
    (sections : self.Sections m rounds plt dyn android tables) : self.Sections other rounds plt dyn android tables := by
  have plain {rel relSz : Nat} (mem : plainTable rel relSz self.isUseRela ∈ tables) :
      plainRelocs other rel relSz self.isUseRela = plainRelocs m rel relSz self.isUseRela := by
    refine List.map_congr_left (fun i below => relocSame same mem ?_ ?_)
    · exact Nat.add_le_add_left (Nat.le_mul_of_pos_right _ (Nat.succ_pos i)) rel
    · have inside := Nat.mul_le_mul_left (relocSize self.isUseRela) (Nat.succ_le_of_lt (List.mem_range.mp below))
      simp only [plainTable, Nat.mul_succ] at inside ⊢
      omega
  obtain ⟨plt_, dyn_, android_⟩ := sections
  refine ⟨?_, ?_, ?_⟩
  · by_cases none_ : self.relplt = 0
    · rwa [if_pos none_] at plt_ ⊢
    · rw [if_neg none_] at plt_ ⊢
      exact ⟨plt_.1.trans (plain plt_.2).symm, plt_.2⟩
  · by_cases none_ : self.reldyn = 0
    · rwa [if_pos none_] at dyn_ ⊢
    · rw [if_neg none_] at dyn_ ⊢
      exact ⟨dyn_.1.trans (plain dyn_.2).symm, dyn_.2⟩
  · by_cases none_ : self.relandroid = 0
    · rwa [if_pos none_] at android_ ⊢
    · rw [if_neg none_] at android_ ⊢
      have whole := sameLoad same android_.2 (Nat.le_refl _) (Nat.le_refl _)
      dsimp only at whole
      rwa [whole]

theorem replaceAllDone {slots : List Nat} {p p' : Process σ} (done : replaceAll kernel self newFunc oldFunc slots p = (.returned 0, p')) :
    ∀ slot ∈ slots, self.baseAddr ≤ slot := by
  induction slots generalizing p with
  | nil => exact fun _ mem => (by cases mem)
  | cons slot slots ih =>
    rw [replaceAll] at done
    have above : (replaceSlot kernel self slot newFunc oldFunc p).1 = 0 → self.baseAddr ≤ slot := fun zero => by
      unfold replaceSlot at zero
      split at zero
      · exact absurd zero (show XH_ERRNO_FORMAT ≠ 0 by decide)
      · omega
    generalize replaceSlot kernel self slot newFunc oldFunc p = result at above done
    obtain ⟨r, p''⟩ := result
    cases r with
    | zero =>
      intro a mem
      rcases List.mem_cons.mp mem with rfl | mem
      · exact above rfl
      · exact ih done a mem
    | succ r => cases done

theorem replaceAllAgain {slots : List Nat} {p : Process σ} (above : ∀ slot ∈ slots, self.baseAddr ≤ slot)
    (hold : ∀ slot ∈ slots, word p.memory slot 8 = newFunc) : replaceAll kernel self newFunc oldFunc slots p = (.returned 0, p) := by
  induction slots with
  | nil => rfl
  | cons slot slots ih =>
    rw [replaceAll, replaceSlot, if_neg (Nat.not_lt.mpr (above slot List.mem_cons_self)), replaceFunction,
      if_pos (hold slot List.mem_cons_self)]
    exact ih (fun a mem => above a (List.mem_cons_of_mem _ mem)) (fun a mem => hold a (List.mem_cons_of_mem _ mem))

theorem hookAgain {p p' : Process σ} {rounds : Nat} {symbol : Bytes} {lookup : Option Nat} {plt dyn android : List Reloc}
    (small : newFunc < 2 ^ 64) (found : self.findSymidxByName p.memory rounds symbol = some lookup)
    (sections : self.Sections p.memory rounds plt dyn android tables)
    (placed : Placed tables oldFunc (self.hookSlotsOf target plt dyn android lookup))
    (done : self.hook kernel target rounds symbol newFunc oldFunc p = (.returned 0, p'))
    (again : self.findSymidxByName p'.memory rounds symbol = some lookup) :
    self.hook kernel target rounds symbol newFunc oldFunc p' = (.returned 0, p') := by
  have some_ : newFunc ≠ 0 := by
    rintro rfl
    rw [Elf.hook, if_pos rfl] at done
    cases done
  cases lookup with
  | none => rw [Elf.hook, if_neg some_, again]
  | some symidx =>
    have run := done.symm.trans (hookSlots some_ found sections placed)
    have same : SameOn tables p.memory (replaceAll kernel self newFunc oldFunc (self.slotsOf target plt dyn android symidx) p).2.memory :=
      replaceAllSame kernel placed.tabled (fun c mem => (placed.cell c mem).1) p (fun _ _ _ _ _ => rfl)
    rw [← run] at same
    obtain ⟨r, k, p'', run', short, all, memory⟩ :=
      replaceAllPrefix kernel self newFunc oldFunc (self.slotsOf target plt dyn android symidx) p
    rw [← run] at run'
    cases run'
    rw [all.mp rfl, List.take_length] at memory
    have hold := (putsReplaced small ⟨placed.each, fun t mem => (by cases mem),
      fun c mem => ⟨fun t in_ => (by cases in_), (placed.cell c mem).2⟩⟩ p.memory).hold
    dsimp only [hookSlotsOf] at hold
    rw [← memory] at hold
    rw [hookSlots some_ again (sectionsSame same sections) placed]
    exact replaceAllAgain (replaceAllDone run.symm) hold

theorem hookTwice {p p' : Process σ} {rounds : Nat} {symbol : Bytes} {lookup : Option Nat} {plt dyn android : List Reloc}
    (small : newFunc < 2 ^ 64) (found : self.findSymidxByName p.memory rounds symbol = some lookup)
    (sections : self.Sections p.memory rounds plt dyn android tables)
    (placed : Placed tables oldFunc (self.hookSlotsOf target plt dyn android lookup))
    (done : self.hook kernel target rounds symbol newFunc oldFunc p = (.returned 0, p'))
    (again : self.findSymidxByName p'.memory rounds symbol = some lookup) :
    self.hook kernel target rounds symbol newFunc oldFunc p' = (.returned 0, p') :=
  hookAgain small found sections placed done again

end

/- A file of two relocations, of which the second is of the symbol. -/
def sampleHooked : Elf := { sampleSysv with biasAddr := 0x1000, relplt := 0x200, relpltSz := 48, isUseRela := true }

def sampleProcess : Process Unit := ⟨save sampleMemory 0x218 (le 8 0x100 ++ le 8 (2 * 2 ^ 32 + 7) ++ le 8 0), ()⟩

def sampleKernel : Kernel Unit := ⟨fun _ => some (sampleRegions.flatMap Region.line), fun _ => [], fun s _ _ _ => (none, s)⟩

def samplePlt : List Reloc := plainRelocs sampleProcess.memory 0x200 48 true

theorem sampleSearched : ∃ r k p',
    hookPlain sampleKernel x86_64 sampleHooked 0x999 none 2 true 0x200 (relocSize true * (1 + 1)) sampleProcess = (.returned r, p') ∧
    k ≤ (wantedSlots x86_64 sampleHooked true 2 (shiftedEntries sampleProcess.memory 0x200 2 true)).length ∧
    (r = 0 ↔ k = (wantedSlots x86_64 sampleHooked true 2 (shiftedEntries sampleProcess.memory 0x200 2 true)).length) ∧
    Replaced 0x999 none ((wantedSlots x86_64 sampleHooked true 2 (shiftedEntries sampleProcess.memory 0x200 2 true)).take k)
      sampleProcess.memory p'.memory :=
  plainSearched (by decide) (by decide) (by decide +kernel)

theorem sampleHook : ∃ r k p', sampleHooked.hook sampleKernel x86_64 4 [0x62] 0x999 (some 0x3000) sampleProcess = (.returned r, p') ∧
    k ≤ (sampleHooked.hookSlotsOf x86_64 samplePlt [] [] (some 2)).length ∧
    (r = 0 ↔ k = (sampleHooked.hookSlotsOf x86_64 samplePlt [] [] (some 2)).length) ∧
    Replaced 0x999 (some 0x3000) ((sampleHooked.hookSlotsOf x86_64 samplePlt [] [] (some 2)).take k) sampleProcess.memory p'.memory := by
  have sections : sampleHooked.Sections sampleProcess.memory 4 samplePlt [] [] [plainTable 0x200 48 true] :=
    ⟨⟨rfl, List.mem_cons_self⟩, rfl, rfl⟩
  exact hookExact (by decide) (by decide) (by decide +kernel) sections (by decide +kernel)

theorem sampleHookTwice :
    sampleHooked.hook sampleKernel x86_64 4 [0x62] 0x999 (some 0x3000)
      (sampleHooked.hook sampleKernel x86_64 4 [0x62] 0x999 (some 0x3000) sampleProcess).2 =
    (.returned 0, (sampleHooked.hook sampleKernel x86_64 4 [0x62] 0x999 (some 0x3000) sampleProcess).2) := by
  have sections : sampleHooked.Sections sampleProcess.memory 4 samplePlt [] [] [plainTable 0x200 48 true] :=
    ⟨⟨rfl, List.mem_cons_self⟩, rfl, rfl⟩
  have first : (sampleHooked.hook sampleKernel x86_64 4 [0x62] 0x999 (some 0x3000) sampleProcess).1 = .returned 0 := by
    decide +kernel
  have found : sampleHooked.findSymidxByName sampleProcess.memory 4 [0x62] = some (some 2) := by decide +kernel
  exact hookTwice (by decide) found sections (by decide +kernel) (Prod.ext first rfl) (by decide +kernel)

/- The slot holds the new function afterwards. -/
example : word (sampleHooked.hook sampleKernel x86_64 4 [0x62] 0x999 none sampleProcess).2.memory 0x1100 8 = 0x999 := by
  decide +kernel

end Elf

end

end Bootstrap.Xhook
