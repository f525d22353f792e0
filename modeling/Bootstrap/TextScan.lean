import Bootstrap.ByteLayout
import Mathlib.Data.List.TakeWhile

/-! Text that C reads: what the directives of scanf take off a string, and the lines of a text
through a buffer. -/
namespace Bootstrap.TextScan
open CInt ByteLayout

def isSpace (c : UInt8) : Bool := c == 0x20 || (9 ≤ c && c ≤ 13)

def skipSpace (s : Bytes) : Bytes := s.dropWhile isSpace

def digitValue (c : UInt8) : Nat :=
  if 0x30 ≤ c ∧ c ≤ 0x39 then c.toNat - 0x30
  else if 0x61 ≤ c ∧ c ≤ 0x66 then c.toNat - 0x57
  else if 0x41 ≤ c ∧ c ≤ 0x46 then c.toNat - 0x37
  else 16

def isDigit (base : Nat) (c : UInt8) : Bool := digitValue c < base

def value (base : Nat) (digits : Bytes) : Nat := digits.foldl (fun n c => n * base + digitValue c) 0

def scanSign : Bytes → Bool × Bytes
  | 0x2d :: s => (true, s)
  | 0x2b :: s => (false, s)
  | s => (false, s)

/- "0x" counts only before a digit. -/
def skipPrefix (base : Nat) : Bytes → Bytes
  | 0x30 :: x :: c :: s =>
    if base = 16 ∧ (x = 0x78 ∨ x = 0x58) ∧ isDigit 16 c then c :: s else 0x30 :: x :: c :: s
  | s => s

/- The sign, the digits, and what is behind them. -/
def scanDigits (base : Nat) (s : Bytes) : Option (Bool × Bytes × Bytes) :=
  let (negative, s) := scanSign (skipSpace s)
  let s := skipPrefix base s
  let digits := s.takeWhile (isDigit base)
  if digits = [] then none else some (negative, digits, s.dropWhile (isDigit base))

/-- "%lx": a number that does not fit is the greatest one, and a negative one wraps. -/
def scanHex (s : Bytes) : Option (Nat × Bytes) :=
  (scanDigits 16 s).map (fun r =>
    let n := value 16 r.2.1
    (if 2 ^ 64 ≤ n then 2 ^ 64 - 1 else if r.1 then u64 (-n) else n, r.2.2))

/- "%*x", "%*d" -/
def skipNumber (base : Nat) (s : Bytes) : Option Bytes := (scanDigits base s).map (fun r => r.2.2)

def scanChar (c : UInt8) : Bytes → Option Bytes
  | [] => none
  | d :: s => if d = c then some s else none

/-- "%4s", for any width. -/
def scanWord (width : Nat) (s : Bytes) : Option (Bytes × Bytes) :=
  let s := skipSpace s
  let word := (s.takeWhile (fun c => !isSpace c)).take width
  if word = [] then none else some (word, s.drop word.length)

def cString (buffer : Bytes) : Bytes := buffer.takeWhile (· ≠ 0)

/-- while(fgets(line, size, fp)): the buffers, from what is in the first one. -/
def fgetsAll (size : Nat) : Bytes → Bytes → List Bytes
  | line, [] => if line = [] then [] else [line]
  | line, c :: text =>
    if c = 10 ∨ line.length + 2 = size then (line ++ [c]) :: fgetsAll size [] text
    else fgetsAll size (line ++ [c]) text

theorem skipSpaceNone {s : Bytes} (front : ∀ c ∈ s.head?, isSpace c = false) : skipSpace s = s := by
  cases s with
  | nil => rfl
  | cons c s => rw [skipSpace, List.dropWhile_cons_of_neg (by simp [front c rfl])]

theorem skipSpaces {spaces : Bytes} (s : Bytes) (all : ∀ c ∈ spaces, isSpace c = true) : skipSpace (spaces ++ s) = skipSpace s := by
  induction spaces with
  | nil => rfl
  | cons c spaces ih =>
    rw [List.cons_append, skipSpace, List.dropWhile_cons_of_pos (all c List.mem_cons_self)]
    exact ih (fun d mem => all d (List.mem_cons_of_mem _ mem))

theorem takeDigits {p : UInt8 → Bool} (digits rest : Bytes) (all : ∀ c ∈ digits, p c = true) (stop : ∀ c ∈ rest.head?, p c = false) :
    (digits ++ rest).takeWhile p = digits ∧ (digits ++ rest).dropWhile p = rest := by
  induction digits with
  | nil =>
    cases rest with
    | nil => exact ⟨rfl, rfl⟩
    | cons c rest =>
      have no : ¬ p c = true := by simp [stop c rfl]
      exact ⟨List.takeWhile_cons_of_neg no, List.dropWhile_cons_of_neg no⟩
  | cons c digits ih =>
    have yes := all c List.mem_cons_self
    obtain ⟨front, back⟩ := ih (fun d mem => all d (List.mem_cons_of_mem _ mem))
    rw [List.cons_append, List.takeWhile_cons_of_pos yes, List.dropWhile_cons_of_pos yes, front, back]
    exact ⟨rfl, rfl⟩

def Ends (base : Nat) (rest : Bytes) : Prop := ∀ c ∈ rest.head?, isDigit base c = false ∧ c ≠ 0x78 ∧ c ≠ 0x58

theorem digitPlain {base : Nat} {c : UInt8} (small : base ≤ 16) (digit : isDigit base c = true) :
    isSpace c = false ∧ c ≠ 0x2d ∧ c ≠ 0x2b ∧ c ≠ 0x78 ∧ c ≠ 0x58 := by
  have all : ∀ n < 256, digitValue (UInt8.ofNat n) < 16 → isSpace (UInt8.ofNat n) = false ∧ UInt8.ofNat n ≠ 0x2d ∧
      UInt8.ofNat n ≠ 0x2b ∧ UInt8.ofNat n ≠ 0x78 ∧ UInt8.ofNat n ≠ 0x58 := by decide +kernel
  have here := all c.toNat c.toNat_lt
  rw [UInt8.ofNat_toNat] at here
  exact here (Nat.lt_of_lt_of_le (by simpa [isDigit] using digit) small)

theorem scanDigitsExact {base : Nat} (small : base ≤ 16) {digits : Bytes} (rest : Bytes) (some_ : digits ≠ [])
    (all : ∀ c ∈ digits, isDigit base c = true) (ends : Ends base rest) :
    scanDigits base (digits ++ rest) = some (false, digits, rest) := by
  obtain ⟨c, digits, rfl⟩ := List.exists_cons_of_ne_nil some_
  obtain ⟨plain, minus, plus, _, _⟩ := digitPlain small (all c List.mem_cons_self)
  have front : skipSpace (c :: digits ++ rest) = c :: digits ++ rest := skipSpaceNone (by simpa using plain)
  have sign : scanSign (c :: digits ++ rest) = (false, c :: digits ++ rest) := by
    simp only [List.cons_append]
    unfold scanSign
    split <;> simp_all
  have prefix_ : skipPrefix base (c :: digits ++ rest) = c :: digits ++ rest := by
    unfold skipPrefix
    split
    case h_1 x d s same =>
      rw [if_neg]
      · exact same.symm
      · rintro ⟨_, mark, _⟩
        have second : x ≠ 0x78 ∧ x ≠ 0x58 := by
          cases digits with
          | nil =>
            have back : rest = x :: d :: s := (List.cons.inj same).2
            exact (ends x (by rw [back]; rfl)).2
          | cons e digits =>
            have same' := (List.cons.inj (List.cons.inj same).2).1
            have := digitPlain small (all e (List.mem_cons_of_mem _ List.mem_cons_self))
            rw [same'] at this
            exact this.2.2.2
        rcases mark with mark | mark
        · exact second.1 mark
        · exact second.2 mark
    case h_2 => rfl
  obtain ⟨taken, left⟩ := takeDigits (c :: digits) rest all (fun c mem => (ends c mem).1)
  rw [scanDigits, front]
  simp only [sign, prefix_, taken, left]
  rw [if_neg some_]

theorem scanDigitsSpace (base : Nat) (s : Bytes) : scanDigits base (0x20 :: s) = scanDigits base s := rfl

theorem scanHexExact {digits : Bytes} (rest : Bytes) (some_ : digits ≠ []) (all : ∀ c ∈ digits, isDigit 16 c = true) (ends : Ends 16 rest)
    (fits : value 16 digits < 2 ^ 64) : scanHex (digits ++ rest) = some (value 16 digits, rest) := by
  rw [scanHex, scanDigitsExact (Nat.le_refl 16) rest some_ all ends]
  simp only [Option.map_some, if_neg (Nat.not_le.mpr fits), Bool.false_eq_true, if_false]

theorem scanWordExact {word : Bytes} (rest : Bytes) (some_ : word ≠ []) (plain : ∀ c ∈ word, isSpace c = false)
    (ends : ∀ c ∈ rest.head?, isSpace c = true) : scanWord word.length (0x20 :: (word ++ rest)) = some (word, rest) := by
  have front : skipSpace (0x20 :: (word ++ rest)) = word ++ rest := by
    have blank : ∀ c ∈ [(0x20 : UInt8)], isSpace c = true := by decide +kernel
    refine (skipSpaces (word ++ rest) blank).trans (skipSpaceNone (fun c mem => ?_))
    obtain ⟨d, word, rfl⟩ := List.exists_cons_of_ne_nil some_
    exact plain c (by simp_all)
  have taken := (takeDigits (p := fun c => !isSpace c) word rest (by simpa using plain) (by simpa using ends)).1
  rw [scanWord, front]
  simp only [taken, List.take_length, if_neg some_, List.drop_left]

theorem fgetsLine {size : Nat} {body text line : Bytes} (plain : 10 ∉ body) (room : line.length + body.length + 2 ≤ size) :
    fgetsAll size line (body ++ 10 :: text) = (line ++ body ++ [10]) :: fgetsAll size [] text := by
  induction body generalizing line with
  | nil => simp [fgetsAll]
  | cons c body ih =>
    have other : c ≠ 10 := fun same => plain (same ▸ List.mem_cons_self)
    rw [List.length_cons] at room
    rw [List.cons_append, fgetsAll, if_neg (by rintro (same | full); exacts [other same, by omega]),
      ih (fun mem => plain (List.mem_cons_of_mem _ mem)) (by rw [List.length_append, List.length_singleton]; omega),
      List.append_assoc line [c] body]
    rfl

theorem cStringWhole {buffer : Bytes} (free : 0 ∉ buffer) : cString buffer = buffer :=
  List.takeWhile_eq_self_iff.mpr (fun c mem => decide_eq_true (fun same : c = 0 => free (same ▸ mem)))

end Bootstrap.TextScan
