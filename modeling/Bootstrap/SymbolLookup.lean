import Bootstrap.ElfImage
import Mathlib.Data.BitVec
import Mathlib.Data.Finset.Card
import Mathlib.Data.Nat.Bitwise

/-! The index of a symbol by its name, through either hash table of an ELF file. -/
namespace Bootstrap.Xhook
open CInt ByteLayout ByteMemory

def elfHashStep (h : BitVec 32) (c : UInt8) : BitVec 32 :=
  let h := (h <<< 4) + BitVec.ofNat 32 c.toNat
  let g := h &&& 0xf0000000
  let h := h ^^^ g
  h ^^^ (g >>> 24)

def elfHash (name : Bytes) : Nat := (name.foldl elfHashStep 0).toNat

def gnuHash (name : Bytes) : Nat :=
  (name.foldl (fun (h : BitVec 32) c => h + ((h <<< 5) + BitVec.ofNat 32 c.toNat)) 5381).toNat

namespace Elf

section
variable (memory : Memory) (self : Elf)

def nameAt (i : Nat) : Nat := u64 (self.strtab + word memory (u64 (self.symtab + 24 * i)) 4)

/-- strcmp with a name that has no NUL in it. -/
def named (i : Nat) (symbol : Bytes) : Bool :=
  load memory (self.nameAt memory i) (symbol.length + 1) == symbol ++ [0]

def bucketAt (i : Nat) : Nat := word memory (u64 (self.bucket + 4 * i)) 4

def chainAt (i : Nat) : Nat := word memory (u64 (self.chain + 4 * i)) 4

def bloomAt (i : Nat) : Nat := word memory (u64 (self.bloom + 8 * i)) 8

/- The walks may have no end where the tables are not well formed: within so many rounds they
come to none. -/
def hashChain (symbol : Bytes) : Nat → Nat → Option (Option Nat)
  | 0, _ => none
  | rounds+1, i =>
    if i = 0 then some none
    else if self.named memory i symbol then some (some i)
    else hashChain symbol rounds (self.chainAt memory i)

def hashLookup (rounds : Nat) (symbol : Bytes) : Option (Option Nat) :=
  self.hashChain memory symbol rounds (self.bucketAt memory (elfHash symbol % self.bucketCnt))

def gnuChain (symbol : Bytes) (hash : Nat) : Nat → Nat → Option (Option Nat)
  | 0, _ => none
  | rounds+1, i =>
    let symhash := self.chainAt memory (u32 (i - self.symoffset : Int))
    if hash ||| 1 = symhash ||| 1 ∧ self.named memory i symbol then some (some i)
    else if symhash &&& 1 ≠ 0 then some none
    else gnuChain symbol hash rounds (u32 (i + 1))

def gnuHashLookupDef (rounds : Nat) (symbol : Bytes) : Option (Option Nat) :=
  let hash := gnuHash symbol
  let word := self.bloomAt memory (hash / 64 % self.bloomSz)
  let mask := 1 <<< (hash % 64) ||| 1 <<< ((hash >>> self.bloomShift) % 64)
  if word &&& mask ≠ mask then some none
  else
    let i := self.bucketAt memory (hash % self.bucketCnt)
    if i < self.symoffset then some none else self.gnuChain memory symbol hash rounds i

def gnuHashLookupUndef (symbol : Bytes) : Option Nat :=
  (List.range self.symoffset).find? (fun i => self.named memory i symbol)

def gnuHashLookup (rounds : Nat) (symbol : Bytes) : Option (Option Nat) :=
  match self.gnuHashLookupDef memory rounds symbol with
  | none => none
  | some (some symidx) => some (some symidx)
  | some none => some (self.gnuHashLookupUndef memory symbol)

def findSymidxByName (rounds : Nat) (symbol : Bytes) : Option (Option Nat) :=
  if self.isUseGnuHash then self.gnuHashLookup memory rounds symbol else self.hashLookup memory rounds symbol

end

structure SymbolTable (memory : Memory) (elf : Elf) (name : Nat → Bytes) (count : Nat) : Prop where
  small : count < 2 ^ 32
  spelled : ∀ i < count, load memory (elf.nameAt memory i) ((name i).length + 1) = name i ++ [0]
  ends : ∀ i < count, 0 ∉ name i

theorem cStringUnique {memory : Memory} {address : Nat} {a b : Bytes} (left : load memory address (a.length + 1) = a ++ [0])
    (right : load memory address (b.length + 1) = b ++ [0]) (free : 0 ∉ b) : a.length ≥ b.length := by
  by_contra short
  have byte := congrArg (·[a.length]?) left
  have other := congrArg (·[a.length]?) right
  simp only [load, List.getElem?_map, List.getElem?_range (Nat.lt_succ_self a.length), Option.map_some,
    List.getElem?_append_right (Nat.le_refl a.length), Nat.sub_self] at byte
  simp only [load, List.getElem?_map, List.getElem?_range (show a.length < b.length + 1 by omega), Option.map_some,
    List.getElem?_append_left (show a.length < b.length by omega)] at other
  rw [byte] at other
  exact free (List.mem_of_getElem? other.symm)

theorem namedIff {memory : Memory} {self : Elf} {name : Nat → Bytes} {count i : Nat}
    (table : SymbolTable memory self name count) (inside : i < count) {symbol : Bytes} (free : 0 ∉ symbol) :
    self.named memory i symbol = true ↔ name i = symbol := by
  have spelled := table.spelled i inside
  rw [named, beq_iff_eq]
  constructor
  · intro same
    have long := cStringUnique spelled same free
    have short := cStringUnique same spelled (table.ends i inside)
    have length : (name i).length = symbol.length := by omega
    rw [length, same] at spelled
    exact (List.append_cancel_right spelled).symm
  · rintro rfl
    exact spelled

/-! The hash table of System V: each bucket is a chain of all symbols of its hash. -/

inductive ChainOf (memory : Memory) (elf : Elf) : Nat → List Nat → Prop
  | nil : ChainOf memory elf 0 []
  | cons {i : Nat} {rest : List Nat} (some : i ≠ 0) (next : ChainOf memory elf (elf.chainAt memory i) rest) :
    ChainOf memory elf i (i :: rest)

structure SysvTable (memory : Memory) (elf : Elf) (name : Nat → Bytes) (count : Nat) : Prop
    extends SymbolTable memory elf name count where
  plain : elf.isUseGnuHash = false
  buckets : 0 < elf.bucketCnt
  chains : ∀ b < elf.bucketCnt, ∃ members, ChainOf memory elf (elf.bucketAt memory b) members ∧
    ∀ i, i ∈ members ↔ 0 < i ∧ i < count ∧ elfHash (name i) % elf.bucketCnt = b

section
variable {memory : Memory} {elf : Elf} {name : Nat → Bytes} {count : Nat}

theorem chainUnique {i : Nat} {xs ys : List Nat} (left : ChainOf memory elf i xs) (right : ChainOf memory elf i ys) : xs = ys := by
  induction left generalizing ys with
  | nil =>
    cases right with
    | nil => rfl
    | cons some next => exact absurd rfl some
  | cons some next ih =>
    cases right with
    | nil => exact absurd rfl some
    | cons _ next' => rw [ih next']

theorem chainSuffix {i x : Nat} {xs : List Nat} (chain : ChainOf memory elf i xs) (mem : x ∈ xs) :
    ∃ rest, ChainOf memory elf x (x :: rest) ∧ rest.length < xs.length := by
  induction chain with
  | nil => cases mem
  | @cons i rest some next ih =>
    rcases List.mem_cons.mp mem with rfl | mem
    · exact ⟨rest, .cons some next, Nat.lt_succ_self _⟩
    · obtain ⟨tail, chain, shorter⟩ := ih mem
      exact ⟨tail, chain, Nat.lt_succ_of_lt shorter⟩

theorem chainNodup {i : Nat} {xs : List Nat} (chain : ChainOf memory elf i xs) : xs.Nodup := by
  induction chain with
  | nil => exact List.nodup_nil
  | @cons i rest some next ih =>
    refine List.nodup_cons.mpr ⟨fun again => ?_, ih⟩
    obtain ⟨tail, chain, shorter⟩ := chainSuffix next again
    have same := chainUnique chain (.cons some next)
    rw [(List.cons.inj same).2] at shorter
    exact absurd shorter (Nat.lt_irrefl _)

theorem chainShort {i : Nat} {members : List Nat} (chain : ChainOf memory elf i members) (inside : ∀ x ∈ members, x < count) :
    members.length ≤ count := by
  have short := (List.subperm_of_subset (chainNodup chain) (fun x mem => List.mem_range.mpr (inside x mem))).length_le
  rwa [List.length_range] at short

theorem chainWalk (table : SymbolTable memory elf name count) {symbol : Bytes} (free : 0 ∉ symbol) {i rounds : Nat}
    {members : List Nat} (chain : ChainOf memory elf i members) (inside : ∀ x ∈ members, x < count)
    (enough : members.length < rounds) :
    elf.hashChain memory symbol rounds i = some (members.find? (fun x => name x == symbol)) := by
  induction chain generalizing rounds with
  | nil =>
    obtain ⟨rounds, rfl⟩ : ∃ n, rounds = n + 1 := ⟨rounds - 1, by simp only [List.length_nil] at enough; omega⟩
    rw [hashChain, if_pos rfl, List.find?_nil]
  | @cons i rest some next ih =>
    rw [List.length_cons] at enough
    obtain ⟨rounds, rfl⟩ : ∃ n, rounds = n + 1 := ⟨rounds - 1, by omega⟩
    have here := namedIff table (inside i List.mem_cons_self) free
    rw [hashChain, if_neg some, List.find?_cons]
    by_cases hit : name i = symbol
    · rw [if_pos (here.mpr hit), beq_iff_eq.mpr hit]
    · rw [if_neg (fun named => hit (here.mp named)), beq_eq_false_iff_ne.mpr hit]
      exact ih (fun x mem => inside x (List.mem_cons_of_mem _ mem)) (by omega)

/-- What a lookup promises among some of the symbols. -/
structure Finds (name : Nat → Bytes) (among : Nat → Prop) (symbol : Bytes) (found : Option Nat) : Prop where
  right : ∀ i, found = some i → among i ∧ name i = symbol
  all : found = none → ∀ i, among i → name i ≠ symbol

theorem sysvLookup (table : SysvTable memory elf name count) {symbol : Bytes} (free : 0 ∉ symbol) {rounds : Nat}
    (enough : count < rounds) :
    ∃ found, elf.findSymidxByName memory rounds symbol = some found ∧
      Finds name (fun i => 0 < i ∧ i < count) symbol found := by
  obtain ⟨members, chain, complete⟩ := table.chains _ (Nat.mod_lt (elfHash symbol) table.buckets)
  have inside : ∀ x ∈ members, x < count := fun x mem => ((complete x).mp mem).2.1
  have short := chainShort chain inside
  refine ⟨members.find? (fun x => name x == symbol), ?_, fun i hit => ?_, fun missing i among same => ?_⟩
  · rw [findSymidxByName, table.plain, if_neg Bool.false_ne_true, hashLookup,
      chainWalk table.toSymbolTable free chain inside (by omega)]
  · obtain ⟨low, high, _⟩ := (complete i).mp (List.mem_of_find?_eq_some hit)
    exact ⟨⟨low, high⟩, by simpa using List.find?_some hit⟩
  · have mem := (complete i).mpr ⟨among.1, among.2, by rw [same]⟩
    have other := List.find?_eq_none.mp missing i mem
    exact other (by simpa using same)

def sampleName (i : Nat) : Bytes := ([[], [0x61], [0x62]] : List Bytes).getD i []

/- Three symbols, their names, a GNU table of the last two, and a System V table. -/
def sampleImage : Bytes :=
  le 24 0 ++ le 24 1 ++ le 24 3 ++ [0, 0x61, 0, 0x62, 0, 0, 0, 0] ++ le 8 (2 ^ 64 - 1) ++ le 4 1 ++ le 4 177670 ++ le 4 177671 ++
    le 4 2 ++ le 4 0 ++ le 4 0 ++ le 4 1

def sampleMemory : Memory := fun a => sampleImage.getD a 0

def sampleSysv : Elf := { pathname := [], baseAddr := 1, strtab := 72, bucket := 100, bucketCnt := 1, chain := 104 }

theorem sampleSysvTable : SysvTable sampleMemory sampleSysv sampleName 3 where
  small := by decide
  spelled := by decide
  ends := by decide
  plain := rfl
  buckets := by decide
  chains := by
    intro b low
    have zero : b = 0 := Nat.lt_one_iff.mp low
    subst zero
    refine ⟨[2, 1], .cons (by decide) (.cons (by decide) .nil), fun i => ?_⟩
    have one : elfHash (sampleName i) % sampleSysv.bucketCnt = 0 := Nat.mod_one _
    simp only [one, List.mem_cons, List.not_mem_nil, or_false, and_true]
    omega

theorem sampleSysvLookup : ∃ found, sampleSysv.findSymidxByName sampleMemory 4 [0x62] = some found ∧
    Finds sampleName (fun i => 0 < i ∧ i < 3) [0x62] found :=
  sysvLookup sampleSysvTable (by decide) (by decide)

end

/-! The GNU hash table: the symbols from symoffset on are sorted by their buckets. -/

def gnuBucket (elf : Elf) (name : Nat → Bytes) (i : Nat) : Nat := gnuHash (name i) % elf.bucketCnt

def Defined (elf : Elf) (count i : Nat) : Prop := elf.symoffset ≤ i ∧ i < count

def Closes (elf : Elf) (name : Nat → Bytes) (count i : Nat) : Prop :=
  i + 1 = count ∨ elf.gnuBucket name (i + 1) ≠ elf.gnuBucket name i

instance (elf name count i) : Decidable (Closes elf name count i) := by unfold Closes; infer_instance

structure GnuTable (memory : Memory) (elf : Elf) (name : Nat → Bytes) (count : Nat) : Prop
    extends SymbolTable memory elf name count where
  gnu : elf.isUseGnuHash = true
  buckets : 0 < elf.bucketCnt
  words : 0 < elf.bloomSz
  shift : elf.bloomShift < 32
  offset : elf.symoffset ≤ count
  filter : ∀ i, Defined elf count i →
    (elf.bloomAt memory (gnuHash (name i) / 64 % elf.bloomSz)).testBit (gnuHash (name i) % 64) = true ∧
    (elf.bloomAt memory (gnuHash (name i) / 64 % elf.bloomSz)).testBit ((gnuHash (name i) >>> elf.bloomShift) % 64) = true
  sorted : ∀ i j, elf.symoffset ≤ i → i ≤ j → j < count → elf.gnuBucket name i ≤ elf.gnuBucket name j
  first : ∀ i, Defined elf count i → (∀ j, Defined elf count j → j < i → elf.gnuBucket name j ≠ elf.gnuBucket name i) →
    elf.bucketAt memory (elf.gnuBucket name i) = i
  empty : ∀ b < elf.bucketCnt, (∀ i, Defined elf count i → elf.gnuBucket name i ≠ b) → elf.bucketAt memory b < elf.symoffset
  chain : ∀ i, Defined elf count i → elf.chainAt memory (i - elf.symoffset) =
    2 * (gnuHash (name i) / 2) + if Closes elf name count i then 1 else 0

section
variable {memory : Memory} {elf : Elf} {name : Nat → Bytes} {count : Nat}

theorem orOne (n : Nat) : n ||| 1 = 2 * (n / 2) + 1 := by
  have half : (n ||| 1) / 2 = n / 2 := by rw [Nat.or_div_two, show 1 / 2 = 0 from rfl, Nat.or_zero]
  have low : (n ||| 1) % 2 = 1 := by rw [Nat.or_mod_two_eq_one]; exact .inr rfl
  omega

theorem gnuHit (table : GnuTable memory elf name count) {symbol : Bytes} (free : 0 ∉ symbol) {i : Nat}
    (defined_ : Defined elf count i) :
    (gnuHash symbol ||| 1 = elf.chainAt memory (i - elf.symoffset) ||| 1 ∧ elf.named memory i symbol) ↔ name i = symbol := by
  have here := namedIff table.toSymbolTable defined_.2 free
  refine ⟨fun both => here.mp both.2, fun same => ⟨?_, here.mpr same⟩⟩
  rw [table.chain i defined_, same, orOne, orOne]
  split <;> omega

theorem gnuWalk (table : GnuTable memory elf name count) {symbol : Bytes} (free : 0 ∉ symbol) {i rounds : Nat}
    (defined_ : Defined elf count i) (enough : count ≤ i + rounds) :
    ∃ found, elf.gnuChain memory symbol (gnuHash symbol) rounds i = some found ∧
      Finds name (fun j => i ≤ j ∧ j < count ∧ elf.gnuBucket name j = elf.gnuBucket name i) symbol found := by
  have inside := defined_.2
  have small := table.small
  induction rounds generalizing i with
  | zero => omega
  | succ rounds ih =>
    have place : u32 (i - elf.symoffset : Int) = i - elf.symoffset := by
      have low := defined_.1
      unfold u32
      omega
    have odd : elf.chainAt memory (i - elf.symoffset) &&& 1 ≠ 0 ↔ Closes elf name count i := by
      rw [table.chain i defined_, Nat.and_one_is_mod]
      split <;> rename_i closes <;> simp only [closes, iff_true, iff_false] <;> omega
    rw [gnuChain, place]
    by_cases hit : name i = symbol
    · rw [if_pos ((gnuHit table free defined_).mpr hit)]
      refine ⟨_, rfl, fun j same => ?_, fun missing => by cases missing⟩
      cases same
      exact ⟨⟨Nat.le_refl _, inside, rfl⟩, hit⟩
    · rw [if_neg (fun both => hit ((gnuHit table free defined_).mp both))]
      by_cases closes : Closes elf name count i
      · rw [if_pos (odd.mpr closes)]
        refine ⟨_, rfl, fun j same => (by cases same), fun _ j among same => ?_⟩
        obtain ⟨low, high, bucket⟩ := among
        by_cases at_ : j = i
        · exact hit (at_ ▸ same)
        · rcases closes with last | next
          · omega
          · have up := table.sorted i (i + 1) defined_.1 (by omega) (by omega)
            have more := table.sorted (i + 1) j (by have := defined_.1; omega) (by omega) high
            omega
      · rw [if_neg (fun bit => closes (odd.mp bit))]
        have more : i + 1 < count := by
          by_contra last
          exact closes (.inl (by omega))
        have bucket : elf.gnuBucket name (i + 1) = elf.gnuBucket name i := by
          by_contra next
          exact closes (.inr next)
        have step : u32 (i + 1 : Int) = i + 1 := by unfold u32; omega
        rw [step]
        obtain ⟨found, walk, right, all⟩ := ih ⟨by have := defined_.1; omega, more⟩ (by omega) more
        refine ⟨found, walk, fun j same => ?_, fun missing j among => ?_⟩
        · obtain ⟨⟨low, high, in_⟩, named⟩ := right j same
          exact ⟨⟨by omega, high, in_.trans bucket⟩, named⟩
        · obtain ⟨low, high, in_⟩ := among
          by_cases at_ : j = i
          · rw [at_]
            exact hit
          · exact all missing j ⟨by omega, high, in_.trans bucket.symm⟩

theorem maskWithin {word a b : Nat} (left : word.testBit a = true) (right : word.testBit b = true) :
    word &&& (1 <<< a ||| 1 <<< b) = 1 <<< a ||| 1 <<< b := by
  apply Nat.eq_of_testBit_eq
  intro i
  simp only [Nat.testBit_and, Nat.testBit_or, Nat.one_shiftLeft, Nat.testBit_two_pow]
  by_cases here : a = i
  · simp [← here, left]
  · by_cases there : b = i
    · simp [← there, right]
    · simp [here, there]

theorem bucketFirst (table : GnuTable memory elf name count) {i : Nat} (defined_ : Defined elf count i) :
    ∃ head ≤ i, elf.bucketAt memory (elf.gnuBucket name i) = head ∧ Defined elf count head ∧
      elf.gnuBucket name head = elf.gnuBucket name i := by
  have some_ : ∃ j, Defined elf count j ∧ elf.gnuBucket name j = elf.gnuBucket name i := ⟨i, defined_, rfl⟩
  classical
  obtain ⟨in_, bucket⟩ := Nat.find_spec some_
  refine ⟨Nat.find some_, Nat.find_min' some_ ⟨defined_, rfl⟩, ?_, in_, bucket⟩
  have start := table.first _ in_ (fun j other less same => Nat.find_min some_ less ⟨other, same.trans bucket⟩)
  exact (congrArg (elf.bucketAt memory) bucket.symm).trans start

theorem gnuDef (table : GnuTable memory elf name count) {symbol : Bytes} (free : 0 ∉ symbol) {rounds : Nat}
    (enough : count ≤ rounds) :
    ∃ found, elf.gnuHashLookupDef memory rounds symbol = some found ∧ Finds name (Defined elf count) symbol found := by
  have nothing (absent : ∀ i, Defined elf count i → name i ≠ symbol) : Finds name (Defined elf count) symbol none :=
    ⟨fun i same => (by cases same), fun _ => absent⟩
  unfold gnuHashLookupDef
  dsimp only
  split
  case isTrue filtered =>
    refine ⟨none, rfl, nothing (fun i defined_ same => filtered ?_)⟩
    have bits := table.filter i defined_
    rw [same] at bits
    exact maskWithin bits.1 bits.2
  case isFalse =>
    by_cases populated : ∃ i, Defined elf count i ∧ elf.gnuBucket name i = gnuHash symbol % elf.bucketCnt
    · obtain ⟨i, defined_, bucket⟩ := populated
      obtain ⟨head, _, start, in_, same⟩ := bucketFirst table defined_
      rw [← bucket, start, if_neg (Nat.not_lt.mpr in_.1)]
      have walkable : count ≤ head + rounds := by omega
      obtain ⟨found, walk, right, all⟩ := gnuWalk table free in_ walkable
      refine ⟨found, walk, fun j hit => ⟨⟨?_, (right j hit).1.2.1⟩, (right j hit).2⟩, fun missing j other named => ?_⟩
      · exact in_.1.trans (right j hit).1.1
      · have here : elf.gnuBucket name j = elf.gnuBucket name head := by
          rw [same, bucket, gnuBucket, named]
        obtain ⟨least, below, start', _, _⟩ := bucketFirst table other
        rw [here, same, start] at start'
        exact all missing j ⟨start' ▸ below, other.2, here⟩ named
    · have vacant := table.empty _ (Nat.mod_lt (gnuHash symbol) table.buckets) (fun i defined_ same => populated ⟨i, defined_, same⟩)
      rw [if_pos vacant]
      refine ⟨none, rfl, nothing (fun i defined_ same => populated ⟨i, defined_, ?_⟩)⟩
      rw [gnuBucket, same]

theorem gnuLookup (table : GnuTable memory elf name count) {symbol : Bytes} (free : 0 ∉ symbol) {rounds : Nat}
    (enough : count ≤ rounds) :
    ∃ found, elf.findSymidxByName memory rounds symbol = some found ∧ Finds name (· < count) symbol found ∧
      ∀ i, found = some i → i < elf.symoffset → ∀ j, Defined elf count j → name j ≠ symbol := by
  obtain ⟨found, walk, right, all⟩ := gnuDef table free enough
  rw [findSymidxByName, table.gnu, if_pos rfl, gnuHashLookup, walk]
  cases found with
  | some i =>
    obtain ⟨⟨low, high⟩, same⟩ := right i rfl
    refine ⟨some i, rfl, ⟨fun j hit => ?_, fun missing => by cases missing⟩, fun j hit under => ?_⟩
    · cases hit
      exact ⟨high, same⟩
    · cases hit
      omega
  | none =>
    have plain (i : Nat) (low : i < elf.symoffset) : elf.named memory i symbol = true ↔ name i = symbol :=
      namedIff table.toSymbolTable (low.trans_le table.offset) free
    refine ⟨_, rfl, ⟨fun i hit => ?_, fun missing i high same => ?_⟩, fun _ _ _ => all rfl⟩
    · have low := List.mem_range.mp (List.mem_of_find?_eq_some hit)
      exact ⟨low.trans_le table.offset, (plain i low).mp (by simpa using List.find?_some hit)⟩
    · by_cases low : i < elf.symoffset
      · exact List.find?_eq_none.mp missing i (List.mem_range.mpr low) ((plain i low).mpr same)
      · exact all rfl i ⟨Nat.le_of_not_lt low, high⟩ same

def sampleGnu : Elf :=
  { pathname := [], baseAddr := 1, strtab := 72, bloom := 80, bloomSz := 1, bloomShift := 6, bucket := 88, bucketCnt := 1,
    symoffset := 1, chain := 92, isUseGnuHash := true }

theorem sampleGnuTable : GnuTable sampleMemory sampleGnu sampleName 3 where
  small := by decide
  spelled := by decide
  ends := by decide
  gnu := rfl
  buckets := by decide
  words := by decide
  shift := by decide
  offset := by decide
  filter := by
    have all : ∀ i < 3, (sampleGnu.bloomAt sampleMemory (gnuHash (sampleName i) / 64 % sampleGnu.bloomSz)).testBit
        (gnuHash (sampleName i) % 64) = true ∧
        (sampleGnu.bloomAt sampleMemory (gnuHash (sampleName i) / 64 % sampleGnu.bloomSz)).testBit
          ((gnuHash (sampleName i) >>> sampleGnu.bloomShift) % 64) = true := by decide
    exact fun i defined_ => all i defined_.2
  sorted := fun i j _ _ _ => by simp only [gnuBucket, show sampleGnu.bucketCnt = 1 from rfl, Nat.mod_one, Nat.le_refl]
  first := by
    intro i defined_ least
    have one (j : Nat) : sampleGnu.gnuBucket sampleName j = 0 := Nat.mod_one _
    have low : i = 1 := by
      by_contra more
      have above := defined_.1
      have high := defined_.2
      have start : sampleGnu.symoffset = 1 := rfl
      exact least 1 ⟨by decide, by decide⟩ (by omega) (by rw [one, one])
    rw [one, low]
    decide
  empty := by
    intro b low vacant
    have zero : b = 0 := Nat.lt_one_iff.mp low
    exact absurd (zero ▸ Nat.mod_one _) (vacant 1 ⟨by decide, by decide⟩)
  chain := by
    have all : ∀ i < 3, sampleGnu.symoffset ≤ i → sampleGnu.chainAt sampleMemory (i - sampleGnu.symoffset) =
        2 * (gnuHash (sampleName i) / 2) + if Closes sampleGnu sampleName 3 i then 1 else 0 := by decide
    exact fun i defined_ => all i defined_.2 defined_.1

theorem sampleGnuLookup : ∃ found, sampleGnu.findSymidxByName sampleMemory 3 [0x62] = some found ∧
    Finds sampleName (· < 3) [0x62] found ∧
    ∀ i, found = some i → i < sampleGnu.symoffset → ∀ j, Defined sampleGnu 3 j → sampleName j ≠ [0x62] :=
  gnuLookup sampleGnuTable (by decide) (by decide)

end

end Elf

end Bootstrap.Xhook
