import Bootstrap.ElfImage
import Bootstrap.TextScan
import Mathlib.Data.List.Infix

/-! The protection of a range of memory, read from /proc/self/maps. -/
namespace Bootstrap.Xhook
open CInt ByteLayout TextScan

structure Prot where
  read : Bool
  write : Bool
  exec : Bool
  deriving DecidableEq, Repr

namespace Prot

def meet (a b : Prot) : Prot := ⟨a.read && b.read, a.write && b.write, a.exec && b.exec⟩

def all : Prot := ⟨true, true, true⟩

def meets (prots : List Prot) : Prot := prots.foldr meet all

def ofPerm (perm : Bytes) : Prot := ⟨perm.getD 0 0 == 0x72, perm.getD 1 0 == 0x77, perm.getD 2 0 == 0x78⟩

theorem meetAssoc (a b c : Prot) : (a.meet b).meet c = a.meet (b.meet c) := by simp [meet, Bool.and_assoc]

theorem meetAll (a : Prot) : a.meet all = a := by simp [meet, all]

end Prot

/- "%4s" into a buffer of five, which keeps what a shorter word does not reach. -/
def scanPerm (perm : Bytes) (s : Bytes) : Option (Bytes × Bytes) :=
  (scanWord 4 s).map (fun r => (r.1 ++ 0 :: perm.drop (r.1.length + 1), r.2))

/-- "%lx-%lx %4s " -/
def scanRange (perm line : Bytes) : Option (Nat × Nat × Bytes) := do
  let (start, s) ← scanHex line
  let s ← scanChar 0x2d s
  let (stop, s) ← scanHex s
  let (perm, _) ← scanPerm perm s
  some (start, stop, perm)

structure ProtectScan where
  startAddr : Nat
  prot : Prot
  load0 : Bool
  perm : Bytes

def ProtectScan.see (s : ProtectScan) : Prot :=
  if s.load0 then ⟨s.prot.read || (Prot.ofPerm s.perm).read, s.prot.write || (Prot.ofPerm s.perm).write,
    s.prot.exec || (Prot.ofPerm s.perm).exec⟩
  else s.prot.meet (Prot.ofPerm s.perm)

def ProtectScan.add (s : ProtectScan) (prot : Prot) : Prot := if s.load0 then prot else s.prot.meet prot

def memProtectLoop (pathname : Option Bytes) (endAddr : Nat) : ProtectScan → List Bytes → Option Prot
  | _, [] => none
  | s, buffer :: lines =>
    let line := cString buffer
    if ¬ ∀ path ∈ pathname, path <:+: line then memProtectLoop pathname endAddr s lines
    else
      match scanRange s.perm line with
      | none => memProtectLoop pathname endAddr s lines
      | some (start, stop, perm) =>
        let s := { s with perm }
        if perm.getD 3 0 ≠ 0x70 then memProtectLoop pathname endAddr s lines
        else if start ≤ s.startAddr ∧ s.startAddr < stop then
          if endAddr ≤ stop then some s.see
          else memProtectLoop pathname endAddr { s with startAddr := stop, prot := s.see, load0 := false } lines
        else memProtectLoop pathname endAddr s lines

/- The text of /proc/self/maps, if it can be opened. What *prot is left at on failure is not
looked at. -/
def getMemProtect (maps : Option Bytes) (garbage : Bytes) (addr len : Nat) (pathname : Option Bytes) : Except Nat Prot :=
  match maps with
  | none => .error XH_ERRNO_BADMAPS
  | some text =>
    match memProtectLoop pathname (u64 (addr + len)) ⟨addr, ⟨false, false, false⟩, true, garbage⟩ (fgetsAll 512 [] text) with
    | none => .error XH_ERRNO_SEGVERR
    | some prot => .ok prot

def getAddrProtect (maps : Option Bytes) (garbage : Bytes) (addr : Nat) (pathname : Option Bytes) : Except Nat Prot :=
  getMemProtect maps garbage addr 8 pathname

theorem protectError {maps : Option Bytes} {garbage : Bytes} {addr r : Nat} {pathname : Option Bytes}
    (error : getAddrProtect maps garbage addr pathname = .error r) : r ≠ 0 := by
  unfold getAddrProtect getMemProtect at error
  split at error
  · cases error
    decide
  · split at error <;> cases error
    decide

structure Region where
  low : Bytes
  high : Bytes
  perms : Bytes
  rest : Bytes
  deriving DecidableEq, Repr

namespace Region

def start (r : Region) : Nat := value 16 r.low
def stop (r : Region) : Nat := value 16 r.high
def prot (r : Region) : Prot := Prot.ofPerm r.perms

def body (r : Region) : Bytes := r.low ++ 0x2d :: (r.high ++ 0x20 :: (r.perms ++ 0x20 :: r.rest))

def line (r : Region) : Bytes := r.body ++ [10]

structure Formed (r : Region) : Prop where
  low : r.low ≠ [] ∧ ∀ c ∈ r.low, isDigit 16 c = true
  high : r.high ≠ [] ∧ ∀ c ∈ r.high, isDigit 16 c = true
  perms : r.perms.length = 4 ∧ ∀ c ∈ r.perms, isSpace c = false
  order : r.start < r.stop
  small : r.stop < 2 ^ 64
  text : 10 ∉ r.body ∧ 0 ∉ r.body
  short : r.body.length ≤ 510

def Usable (pathname : Option Bytes) (r : Region) : Prop :=
  (∀ path ∈ pathname, path <:+: r.line) ∧ r.perms.getD 3 0 = 0x70

instance (pathname r) : Decidable (Usable pathname r) := by unfold Usable; infer_instance

def Meets (low high : Nat) (r : Region) : Prop := r.start < high ∧ low < r.stop

instance (low high r) : Decidable (Meets low high r) := by unfold Meets; infer_instance

def Covers (regions : List Region) (low high : Nat) : Prop := ∀ a, low ≤ a → a < high → ∃ r ∈ regions, r.start ≤ a ∧ a < r.stop

theorem coversBehind {r : Region} {regions : List Region} {low middle high : Nat} (order : low ≤ middle)
    (front : ∀ a, low ≤ a → a < middle → r.start ≤ a ∧ a < r.stop) (past : ∀ a, middle ≤ a → ¬ (r.start ≤ a ∧ a < r.stop)) :
    Covers (r :: regions) low high ↔ Covers regions middle high := by
  refine ⟨fun covers a above below => ?_, fun covers a above below => ?_⟩
  · obtain ⟨q, mem, inside⟩ := covers a (Nat.le_trans order above) below
    rcases List.mem_cons.mp mem with rfl | mem
    · exact absurd inside (past a above)
    · exact ⟨q, mem, inside⟩
  · by_cases more : a < middle
    · exact ⟨r, List.mem_cons_self, front a above more⟩
    · obtain ⟨q, mem, inside⟩ := covers a (Nat.le_of_not_lt more) below
      exact ⟨q, List.mem_cons_of_mem _ mem, inside⟩

theorem linesRead {regions : List Region} (formed : ∀ r ∈ regions, r.Formed) :
    fgetsAll 512 [] (regions.flatMap line) = regions.map line := by
  induction regions with
  | nil => rfl
  | cons r regions ih =>
    have here := formed r List.mem_cons_self
    have short := here.short
    rw [List.flatMap_cons, line, List.append_assoc, List.singleton_append,
      fgetsLine here.text.1 (by rw [List.length_nil]; omega), ih (fun q mem => formed q (List.mem_cons_of_mem _ mem))]
    rfl

theorem hexEnds {c : UInt8} {rest : Bytes} (stop : isDigit 16 c = false ∧ c ≠ 0x78 ∧ c ≠ 0x58) : Ends 16 (c :: rest) := by
  intro d mem
  cases mem
  exact stop

theorem scanned {r : Region} (formed : r.Formed) (perm : Bytes) :
    scanRange perm r.line = some (r.start, r.stop, r.perms ++ 0 :: perm.drop 5) := by
  obtain ⟨four, plain⟩ := formed.perms
  have order := formed.order
  have small := formed.small
  have first := scanHexExact (0x2d :: (r.high ++ 0x20 :: (r.perms ++ 0x20 :: r.rest) ++ [10])) formed.low.1 formed.low.2
    (hexEnds (by decide)) (Nat.lt_trans order small)
  have second := scanHexExact (0x20 :: (r.perms ++ 0x20 :: r.rest) ++ [10]) formed.high.1 formed.high.2
    (hexEnds (by decide)) small
  have some_ : r.perms ≠ [] := by
    intro none_
    rw [none_] at four
    cases four
  have third := scanWordExact (0x20 :: r.rest ++ [10]) some_ plain (by intro c mem; cases mem; rfl)
  rw [four] at third
  simp only [line, body, List.append_assoc, List.cons_append] at first second third ⊢
  simp only [scanRange, first, second, third, scanChar, scanPerm, four, start, stop, bind, Option.bind, if_true, Option.map_some]

theorem permFront {perms : Bytes} (rest : Bytes) (four : perms.length = 4) :
    Prot.ofPerm (perms ++ rest) = Prot.ofPerm perms ∧ (perms ++ rest).getD 3 0 = perms.getD 3 0 := by
  have same (i : Nat) (low : i < 4) : (perms ++ rest).getD i 0 = perms.getD i 0 := by
    rw [List.getD_eq_getElem?_getD, List.getD_eq_getElem?_getD, List.getElem?_append_left (by omega)]
  simp only [Prot.ofPerm, same 0 (by decide), same 1 (by decide), same 2 (by decide), same 3 (by decide), and_self]

theorem lineString {r : Region} (formed : r.Formed) : cString r.line = r.line := by
  refine cStringWhole (fun zero => ?_)
  rcases List.mem_append.mp zero with mem | mem
  · exact formed.text.2 mem
  · cases List.mem_singleton.mp mem

section
variable {pathname : Option Bytes} {endAddr : Nat} {s : ProtectScan} {r : Region} {lines : List Bytes}

theorem loopSkips (formed : r.Formed) (off : ¬ (Usable pathname r ∧ r.start ≤ s.startAddr ∧ s.startAddr < r.stop)) :
    ∃ perm, memProtectLoop pathname endAddr s (r.line :: lines) = memProtectLoop pathname endAddr { s with perm } lines := by
  rw [memProtectLoop]
  simp only [lineString formed, scanned formed]
  by_cases named : ∀ path ∈ pathname, path <:+: r.line
  · rw [if_neg (not_not_intro named)]
    refine ⟨r.perms ++ 0 :: s.perm.drop 5, ?_⟩
    by_cases shared : (r.perms ++ 0 :: s.perm.drop 5).getD 3 0 ≠ 0x70
    · rw [if_pos shared]
    · rw [if_neg shared]
      have private_ : r.perms.getD 3 0 = 0x70 := (permFront _ formed.perms.1).2 ▸ not_not.mp shared
      exact if_neg (fun inside => off ⟨⟨named, private_⟩, inside⟩)
  · rw [if_pos named]
    exact ⟨s.perm, rfl⟩

theorem loopSees (formed : r.Formed) (fresh : s.load0 = true → s.prot = ⟨false, false, false⟩) (usable : Usable pathname r)
    (low : r.start ≤ s.startAddr) (high : s.startAddr < r.stop) :
    memProtectLoop pathname endAddr s (r.line :: lines) =
      if endAddr ≤ r.stop then some (s.add r.prot)
      else memProtectLoop pathname endAddr ⟨r.stop, s.add r.prot, false, r.perms ++ 0 :: s.perm.drop 5⟩ lines := by
  have private_ : ¬ (r.perms ++ 0 :: s.perm.drop 5).getD 3 0 ≠ 0x70 :=
    not_not_intro ((permFront _ formed.perms.1).2.trans usable.2)
  have seen : ProtectScan.see { s with perm := r.perms ++ 0 :: s.perm.drop 5 } = s.add r.prot := by
    simp only [ProtectScan.see, ProtectScan.add, (permFront _ formed.perms.1).1, prot]
    by_cases first : s.load0 = true
    · simp only [first, if_true, fresh first, Bool.false_or]
    · simp only [if_neg first]
  rw [memProtectLoop]
  simp only [lineString formed, scanned formed]
  rw [if_neg (not_not_intro usable.1), if_neg private_, if_pos ⟨low, high⟩]
  simp only [seen]

end

theorem uncovered {regions : List Region} {low high : Nat} (less : low < high)
    (gap : ∀ q ∈ regions, ¬ (q.start ≤ low ∧ low < q.stop)) : ¬ Covers regions low high := fun covers => by
  obtain ⟨q, mem, inside⟩ := covers low (Nat.le_refl _) less
  exact gap q mem inside

section
variable {pathname : Option Bytes} {endAddr : Nat} {s : ProtectScan} {r : Region} {regions : List Region}

/- What the walk is to come to over some regions. -/
open Classical in
def Walks (pathname : Option Bytes) (endAddr : Nat) (s : ProtectScan) (regions : List Region) : Prop :=
  memProtectLoop pathname endAddr s (regions.map line) =
    if Covers (regions.filter (Usable pathname)) s.startAddr endAddr then
      some (s.add (Prot.meets (((regions.filter (Usable pathname)).filter (Meets s.startAddr endAddr)).map prot)))
    else none

/- The region holds the point that the walk has come to. -/
theorem walkedOn (formed : r.Formed) (rest : ∀ q ∈ regions, q.Formed) (behind : ∀ q ∈ regions, r.stop ≤ q.start)
    (fresh : s.load0 = true → s.prot = ⟨false, false, false⟩) (less : s.startAddr < endAddr) (usable : Usable pathname r)
    (low : r.start ≤ s.startAddr) (high : s.startAddr < r.stop)
    (later : ∀ s : ProtectScan, s.startAddr = r.stop → s.load0 = false → r.stop < endAddr → Walks pathname endAddr s regions) :
    Walks pathname endAddr s (r :: regions) := by
  classical
  have touched : decide (Meets s.startAddr endAddr r) = true := decide_eq_true ⟨by omega, high⟩
  rw [Walks, List.map_cons, loopSees formed fresh usable low high, List.filter_cons_of_pos (by simpa using usable),
    List.filter_cons_of_pos (p := fun b => decide (Meets s.startAddr endAddr b)) touched]
  by_cases last : endAddr ≤ r.stop
  · have covers : Covers (r :: regions.filter (Usable pathname)) s.startAddr endAddr :=
      fun a above below => ⟨r, List.mem_cons_self, by omega, by omega⟩
    have none_ : (regions.filter (Usable pathname)).filter (Meets s.startAddr endAddr) = [] := by
      refine List.filter_eq_nil_iff.mpr (fun q mem touch => ?_)
      have above := behind q (List.mem_of_mem_filter mem)
      obtain ⟨front, back⟩ := of_decide_eq_true touch
      omega
    rw [if_pos last, if_pos covers, none_]
    simp [Prot.meets, Prot.meetAll]
  · have same : Covers (r :: regions.filter (Usable pathname)) s.startAddr endAddr ↔
        Covers (regions.filter (Usable pathname)) r.stop endAddr :=
      coversBehind (Nat.le_of_lt high) (fun a above below => by omega) (fun a above => by omega)
    have touching : (regions.filter (Usable pathname)).filter (Meets s.startAddr endAddr) =
        (regions.filter (Usable pathname)).filter (Meets r.stop endAddr) := by
      refine List.filter_congr (fun q mem => ?_)
      have above := behind q (List.mem_of_mem_filter mem)
      have wide := (rest q (List.mem_of_mem_filter mem)).order
      refine decide_eq_decide.mpr ?_
      unfold Meets
      omega
    have next := later ⟨r.stop, s.add r.prot, false, r.perms ++ 0 :: s.perm.drop 5⟩ rfl rfl (by omega)
    rw [Walks] at next
    rw [if_neg last, next, touching, if_congr same rfl rfl]
    simp only [ProtectScan.add, Bool.false_eq_true, if_false, List.map_cons, Prot.meets, List.foldr_cons]
    cases s.load0
    · rw [if_neg Bool.false_ne_true, if_neg Bool.false_ne_true, Prot.meetAssoc]
    · rfl

/- It does not, and the walk goes on as if the region were not there. -/
theorem walkedOff (formed : r.Formed) (behind : ∀ q ∈ regions, r.stop ≤ q.start) (less : s.startAddr < endAddr)
    (off : ¬ (Usable pathname r ∧ r.start ≤ s.startAddr ∧ s.startAddr < r.stop))
    (later : ∀ perm, Walks pathname endAddr { s with perm } regions) : Walks pathname endAddr s (r :: regions) := by
  classical
  obtain ⟨perm, skip⟩ := loopSkips formed off
  have next := later perm
  rw [Walks] at next
  rw [Walks, List.map_cons, skip, next]
  by_cases usable : Usable pathname r
  · rw [List.filter_cons_of_pos (by simpa using usable)]
    by_cases past : r.stop ≤ s.startAddr
    · have same : Covers (r :: regions.filter (Usable pathname)) s.startAddr endAddr ↔
          Covers (regions.filter (Usable pathname)) s.startAddr endAddr :=
        coversBehind (Nat.le_refl _) (fun a above below => by omega) (fun a above => by omega)
      have untouched : ¬ decide (Meets s.startAddr endAddr r) = true := fun touch => by
        obtain ⟨front, back⟩ := of_decide_eq_true touch
        omega
      rw [List.filter_cons_of_neg (p := fun b => decide (Meets s.startAddr endAddr b)) untouched, if_congr same rfl rfl]
      rfl
    · -- the range starts in a gap
      have gap (q : Region) (mem : q ∈ r :: regions.filter (Usable pathname)) : ¬ (q.start ≤ s.startAddr ∧ s.startAddr < q.stop) := by
        rcases List.mem_cons.mp mem with rfl | mem
        · exact fun inside => off ⟨usable, inside⟩
        · have above := behind q (List.mem_of_mem_filter mem)
          have before : ¬ r.start ≤ s.startAddr := fun low => off ⟨usable, low, Nat.lt_of_not_le past⟩
          omega
      rw [if_neg (uncovered less gap), if_neg (uncovered less (fun q mem => gap q (List.mem_cons_of_mem _ mem)))]
  · rw [List.filter_cons_of_neg (by simpa using usable)]
    rfl

end

theorem walked (pathname : Option Bytes) {endAddr : Nat} {s : ProtectScan} {regions : List Region}
    (formed : ∀ r ∈ regions, r.Formed) (ascending : regions.Pairwise (fun a b => a.stop ≤ b.start))
    (fresh : s.load0 = true → s.prot = ⟨false, false, false⟩) (less : s.startAddr < endAddr) :
    Walks pathname endAddr s regions := by
  induction regions generalizing s with
  | nil =>
    rw [Walks, List.filter_nil, if_neg (uncovered less (fun q mem => by cases mem))]
    rfl
  | cons r regions ih =>
    obtain ⟨behind, later⟩ := List.pairwise_cons.mp ascending
    have here := formed r List.mem_cons_self
    have rest (q : Region) (mem : q ∈ regions) := formed q (List.mem_cons_of_mem _ mem)
    by_cases on : Usable pathname r ∧ r.start ≤ s.startAddr ∧ s.startAddr < r.stop
    · obtain ⟨usable, low, high⟩ := on
      refine walkedOn here rest behind fresh less usable low high (fun s start loaded room => ?_)
      exact ih rest later (fun first => by rw [loaded] at first; cases first) (start ▸ room)
    · exact walkedOff here behind less on (fun perm => ih rest later fresh less)

end Region

/-- Of memory that private regions cover from end to end the result is what all of them grant, and of
other memory there is none. -/
theorem memProtectExact {pathname : Option Bytes} {regions : List Region} (formed : ∀ r ∈ regions, r.Formed)
    (ascending : regions.Pairwise (fun a b => a.stop ≤ b.start)) (garbage : Bytes) {addr len : Nat} (some_ : 0 < len)
    (small : addr + len < 2 ^ 64) :
    getMemProtect (some (regions.flatMap Region.line)) garbage addr len pathname = (open Classical in
      if Region.Covers (regions.filter (Region.Usable pathname)) addr (addr + len) then
        .ok (Prot.meets (((regions.filter (Region.Usable pathname)).filter (Region.Meets addr (addr + len))).map Region.prot))
      else .error XH_ERRNO_SEGVERR) := by
  have stop : u64 (addr + len : Int) = addr + len := by unfold u64; omega
  rw [getMemProtect]
  simp only [Region.linesRead formed, stop]
  have walk := Region.walked (s := ⟨addr, ⟨false, false, false⟩, true, garbage⟩) pathname formed ascending (fun _ => rfl)
    (Nat.lt_add_of_pos_right some_)
  rw [walk]
  by_cases covers : Region.Covers (regions.filter (Region.Usable pathname)) addr (addr + len)
  · simp only [if_pos covers]
    rfl
  · simp only [if_neg covers]

def sampleRegions : List Region :=
  [⟨[0x31, 0x30, 0x30, 0x30], [0x32, 0x30, 0x30, 0x30], [0x72, 0x77, 0x78, 0x70], [0x61]⟩,
    ⟨[0x32, 0x30, 0x30, 0x30], [0x33, 0x30, 0x30, 0x30], [0x72, 0x2d, 0x78, 0x70], [0x61]⟩]

/- A slot over the edge of two segments. -/
theorem sampleMemProtect : getMemProtect (some (sampleRegions.flatMap Region.line)) [] 0x1ffc 8 (some [0x61]) = (open Classical in
    if Region.Covers (sampleRegions.filter (Region.Usable (some [0x61]))) 0x1ffc (0x1ffc + 8) then
      .ok (Prot.meets (((sampleRegions.filter (Region.Usable (some [0x61]))).filter
        (Region.Meets 0x1ffc (0x1ffc + 8))).map Region.prot))
    else .error XH_ERRNO_SEGVERR) := by
  have formed : ∀ r ∈ sampleRegions, r.Formed := by
    intro r mem
    rcases List.mem_cons.mp mem with rfl | mem
    · constructor <;> decide +kernel
    · cases List.mem_singleton.mp mem
      constructor <;> decide +kernel
  exact memProtectExact formed (by decide) [] (by decide) (by decide)

end Bootstrap.Xhook
