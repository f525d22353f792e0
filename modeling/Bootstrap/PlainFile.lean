import Bootstrap.ByteLayout

/-! A read-only file under a cursor: what fseek, rewind, ftell, fread and fgets do to plain bytes. -/
namespace Bootstrap.PlainFile
open ByteLayout

/-- Memory, by the distance from the pointer that a call was given. -/
abbrev Memory := Int → UInt8

def store (memory : Memory) (place : Int) (bytes : Bytes) : Memory := fun address =>
  if place ≤ address ∧ address < place + bytes.length then bytes.getD (address - place).toNat 0 else memory address

theorem storeNil (memory : Memory) (place : Int) : store memory place [] = memory := by
  funext address
  exact if_neg (fun inside => by simp only [List.length_nil] at inside; omega)

theorem storeAppend (memory : Memory) (place : Int) (front back : Bytes) :
    store (store memory place front) (place + front.length) back = store memory place (front ++ back) := by
  funext address
  simp only [store, List.length_append, List.getD_eq_getElem?_getD]
  by_cases low : place ≤ address ∧ address < place + front.length
  · rw [if_neg (by omega), if_pos low, if_pos (by omega), List.getElem?_append_left (by omega)]
  · by_cases high : place + front.length ≤ address ∧ address < place + front.length + back.length
    · rw [if_pos high, if_pos (by omega), List.getElem?_append_right (by omega)]
      have same : (address - (place + front.length)).toNat = (address - place).toNat - front.length := by omega
      rw [same]
    · rw [if_neg high, if_neg low, if_neg (by omega)]

theorem storeGet (memory : Memory) {bytes : Bytes} {i : Nat} (inside : i < bytes.length) :
    bytes[i]? = some (store memory 0 bytes i) := by
  rw [store, if_pos (by omega), List.getD_eq_getElem?_getD, Int.sub_zero, Int.toNat_natCast,
    List.getElem?_eq_getElem inside]
  rfl

theorem storeInjective {memory : Memory} {place : Int} {a b : Bytes} (size : a.length = b.length)
    (same : store memory place a = store memory place b) : a = b := by
  refine List.ext_getElem? (fun i => ?_)
  by_cases inside : i < a.length
  · have there := congrFun same (place + i)
    have back : (place + i - place).toNat = i := by omega
    rw [store, store, if_pos (by omega), if_pos (by omega), back, List.getD_eq_getElem?_getD,
      List.getD_eq_getElem?_getD, List.getElem?_eq_getElem inside, List.getElem?_eq_getElem (size ▸ inside)] at there
    rw [List.getElem?_eq_getElem inside, List.getElem?_eq_getElem (size ▸ inside)]
    exact congrArg some there
  · rw [List.getElem?_eq_none (by omega), List.getElem?_eq_none (by omega)]

inductive Call where
  | fseek (offset : Int) (whence : Nat)
  | rewind
  | ftell
  | fread (size nmemb : Nat) (ptr : Memory)

inductive Answer where
  | moved (result : Int)
  | rewound
  | told (pos : Int)
  | read (count : Nat) (ptr : Memory)

def target (length pos : Nat) (offset : Int) : Nat → Int
  | 0 => offset
  | 1 => pos + offset
  | 2 => length + offset
  | _ => pos

def call (file : Bytes) (pos : Nat) : Call → Answer × Nat
  | .fseek offset whence =>
    let there := target file.length pos offset whence
    if 0 ≤ there ∧ there ≤ file.length then (.moved 0, there.toNat) else (.moved (-1), pos)
  | .rewind => (.rewound, 0)
  | .ftell => (.told pos, pos)
  | .fread size nmemb ptr =>
    let bytes := slice file pos (size * nmemb)
    (.read bytes.length (store ptr 0 bytes), pos + bytes.length)

def calls (file : Bytes) (pos : Nat) : List Call → List Answer × Nat
  | [] => ([], pos)
  | c :: cs => ((call file pos c).1 :: (calls file (call file pos c).2 cs).1, (calls file (call file pos c).2 cs).2)

theorem callInside {file : Bytes} {pos : Nat} (inside : pos ≤ file.length) (c : Call) :
    (call file pos c).2 ≤ file.length := by
  cases c with
  | fseek offset whence =>
    simp only [call]
    split
    · dsimp only
      omega
    · exact inside
  | rewind => exact Nat.zero_le _
  | ftell => exact inside
  | fread size nmemb ptr =>
    simp only [call, slice, List.length_take, List.length_drop]
    omega

def lineOf : Bytes → Bytes
  | [] => []
  | b :: rest => if b = 10 then [b] else b :: lineOf rest

def fgets (file : Bytes) (pos : Nat) (size : Int) (s : Memory) : Option Memory × Nat :=
  let line := (lineOf (file.drop pos)).take (size - 1).toNat
  (if line = [] then none else some (store s 0 (line ++ [0])), pos + line.length)

theorem lineAppend (front back : Bytes) :
    lineOf (front ++ back) = if 10 ∈ front then lineOf front else front ++ lineOf back := by
  induction front with
  | nil => rfl
  | cons b rest ih =>
    by_cases newline : b = 10
    · simp [lineOf, newline]
    · have other : ¬ 10 = b := fun same => newline same.symm
      rw [List.cons_append, lineOf, if_neg newline, ih, lineOf, if_neg newline]
      simp only [List.mem_cons, other, false_or]
      split <;> rfl

theorem lineEmpty {bytes : Bytes} : lineOf bytes = [] ↔ bytes = [] := by
  cases bytes with
  | nil => simp [lineOf]
  | cons b rest =>
    rw [lineOf]
    split <;> simp

theorem lineLength (bytes : Bytes) : (lineOf bytes).length ≤ bytes.length := by
  induction bytes with
  | nil => exact Nat.le_refl _
  | cons b rest ih =>
    rw [lineOf]
    split <;> simp only [List.length_cons, List.length_nil] <;> omega

theorem lineAgrees (front a b : Bytes) (k : Nat) :
    (lineOf (front ++ a)).take k = (lineOf (front ++ b)).take k ↔
      10 ∈ front ∨ (lineOf a).take (k - front.length) = (lineOf b).take (k - front.length) := by
  rw [lineAppend, lineAppend]
  by_cases newline : 10 ∈ front
  · simp [newline]
  · rw [if_neg newline, if_neg newline, List.take_append, List.take_append]
    simp [newline]

end Bootstrap.PlainFile
