import Bootstrap.MapInvariant

/-! The calls of the two classes as one kind of step, and the states that any sequence of them
reaches after init. -/
namespace Bootstrap.HashMaps
open CInt ByteLayout IntrusiveList

inductive Call (κ : Type) where
  | set (key : κ) (val : Intptr) (fresh : Int)
  | del (key : κ)
  | find (key : κ)
  | clean

inductive Answer where
  | told (answer : Bool)
  | value (found : Option Intptr)
  | nothing
  deriving DecidableEq

structure Calls (κ σ : Type) where
  find : Nat → MyMap σ → κ → Option (Option Intptr)
  set : Nat → MyMap σ → κ → Intptr → Int → Option (Bool × MyMap σ)
  del : (Int → Int) → Nat → MyMap σ → κ → Option (Bool × MyMap σ)

def MyMap32.calls : Calls Intptr Intptr := ⟨MyMap32.find, MyMap32.set, MyMap32.del⟩

def MyMapStr.calls (signed : Bool) : Calls CString MyMapStr.StrEntry :=
  ⟨MyMapStr.find signed, MyMapStr.set signed, MyMapStr.del signed⟩

section
variable {κ σ : Type}

def callsOf (keys : Keys κ σ) : Calls κ σ := ⟨find keys, set keys, del keys⟩

def perform (calls : Calls κ σ) (difference : Int → Int) (fuel : Nat) (m : MyMap σ) : Call κ → Option (Answer × MyMap σ)
  | .set key val fresh => (calls.set fuel m key val fresh).map fun (answer, m) => (.told answer, m)
  | .del key => (calls.del difference fuel m key).map fun (answer, m) => (.told answer, m)
  | .find key => (calls.find fuel m key).map fun found => (.value found, m)
  | .clean => (clean difference fuel m).map fun m => (.nothing, m)

/-- The past is written with its last call first. A call that returns does so within some number of
rounds; `meets` is what is asked of each. -/
inductive Reached (calls : Calls κ σ) (difference : Int → Int) (meets : MyMap σ → Call κ → Prop) (start : MyMap σ) :
    List (Call κ) → MyMap σ → Prop where
  | start : Reached calls difference meets start [] start
  | step {past m fuel call answer m'} (before : Reached calls difference meets start past m) (met : meets m call)
      (done : perform calls difference fuel m call = some (answer, m')) :
      Reached calls difference meets start (call :: past) m'

def Promised (m : MyMap σ) : Call κ → Prop
  | .set _ _ fresh => Fresh m fresh
  | _ => True

variable {keys : Keys κ σ} {difference : Int → Int} {fuel more : Nat} {m : MyMap σ}

theorem walkMore {key : κ} {found : Option Cell} (enough : fuel ≤ more) (done : walkSafe keys m key fuel = some found) :
    walkSafe keys m key more = some found := by
  rw [walkSafe, forEachSafe] at done ⊢
  exact seekMore enough done

/- The form that a set and a del have. -/
theorem walkedMore {α : Type} {key : κ} {refusal : Option α} {body : Option Cell → Option α} {out : α}
    (enough : fuel ≤ more)
    (done : (if keys.refused key then refusal else (walkSafe keys m key fuel).bind body) = some out) :
    (if keys.refused key then refusal else (walkSafe keys m key more).bind body) = some out := by
  split
  · rwa [if_pos ‹_›] at done
  · rw [if_neg ‹_›] at done
    obtain ⟨found, walked, after⟩ := Option.bind_eq_some_iff.mp done
    exact Option.bind_eq_some_iff.mpr ⟨found, walkMore enough walked, after⟩

theorem cleanLoopMore {m' : MyMap σ} (enough : fuel ≤ more) (done : cleanLoop difference fuel m = some m') :
    cleanLoop difference more m = some m' := by
  induction fuel generalizing more m with
  | zero => cases done
  | succ fuel ih =>
    obtain ⟨more, rfl⟩ := Nat.exists_eq_add_of_le' (Nat.le_trans (Nat.succ_pos fuel) enough)
    rw [cleanLoop] at done ⊢
    split
    · rwa [if_pos ‹_›] at done
    · rw [if_neg ‹_›] at done
      obtain ⟨next, out, rest⟩ := Option.bind_eq_some_iff.mp done
      exact Option.bind_eq_some_iff.mpr ⟨next, out, ih (Nat.le_of_succ_le_succ enough) rest⟩

theorem findMore {key : κ} {val : Option Intptr} (enough : fuel ≤ more) (done : find keys fuel m key = some val) :
    find keys more m key = some val := by
  rw [find] at done ⊢
  split
  · rwa [if_pos ‹_›] at done
  · rw [if_neg ‹_›] at done
    obtain ⟨found, walked, after⟩ := Option.map_eq_some_iff.mp done
    exact Option.map_eq_some_iff.mpr ⟨found, walkMore enough walked, after⟩

theorem performMore {call : Call κ} {result : Answer × MyMap σ} (enough : fuel ≤ more)
    (done : perform (callsOf keys) difference fuel m call = some result) :
    perform (callsOf keys) difference more m call = some result := by
  cases call with
  | set key val fresh =>
    obtain ⟨out, made, rest⟩ := Option.map_eq_some_iff.mp done
    exact Option.map_eq_some_iff.mpr ⟨out, walkedMore enough made, rest⟩
  | del key =>
    obtain ⟨out, made, rest⟩ := Option.map_eq_some_iff.mp done
    exact Option.map_eq_some_iff.mpr ⟨out, walkedMore enough made, rest⟩
  | find key =>
    obtain ⟨out, made, rest⟩ := Option.map_eq_some_iff.mp done
    exact Option.map_eq_some_iff.mpr ⟨out, findMore enough made, rest⟩
  | clean =>
    obtain ⟨out, made, rest⟩ := Option.map_eq_some_iff.mp done
    refine Option.map_eq_some_iff.mpr ⟨out, ?_, rest⟩
    obtain ⟨last, looped, after⟩ := Option.map_eq_some_iff.mp made
    exact Option.map_eq_some_iff.mpr ⟨last, cleanLoopMore enough looped, after⟩

end

namespace MyMap32

theorem callsSame : calls = callsOf keys := by
  have sets : MyMap32.set = HashMaps.set keys := funext fun fuel => funext fun m => funext fun key => funext fun val =>
    funext fun fresh => setSafe fuel m key val fresh
  rw [calls, sets]
  rfl

theorem indexBelow (key : Intptr) {hashSize : Nat} (positive : 0 < hashSize) : index key hashSize < hashSize := by
  have small : (BitVec.ofNat 64 (hashSize - 1)).toNat ≤ hashSize - 1 := by
    rw [BitVec.toNat_ofNat]
    exact Nat.mod_le ..
  have masked : index key hashSize ≤ (BitVec.ofNat 64 (hashSize - 1)).toNat := by
    rw [index, BitVec.toNat_and]
    exact Nat.and_le_right
  omega

def laws : Laws keys where
  home := index
  homeStored _ _ := rfl
  indexBelow key _ := indexBelow key
  hitStored _ _ := beq_iff_eq

end MyMap32

namespace MyMapStr

theorem callsSame (signed : Bool) : calls signed = callsOf (keys signed) := rfl

theorem str2idLoopTake (signed : Bool) (str : Bytes) (len : Nat) (hash : BitVec 32) :
    str2idLoop signed (str.take len) len hash = str2idLoop signed str len hash := by
  induction str generalizing len hash with
  | nil => rw [List.take_nil]
  | cons c str ih =>
    cases len with
    | zero => rfl
    | succ len => exact ih len _

theorem str2idBelow (signed : Bool) (str : Bytes) (len : Int) {hashSize : Nat} (positive : 0 < hashSize) :
    str2id signed str len hashSize < hashSize := by
  rw [str2id]
  split
  · exact positive
  · have small : (BitVec.ofNat 32 (hashSize - 1)).toNat ≤ hashSize - 1 := by
      rw [BitVec.toNat_ofNat]
      exact Nat.mod_le ..
    rw [BitVec.toNat_and]
    exact (Nat.and_le_right.trans small).trans_lt (by omega)

def laws (signed : Bool) : Laws (keys signed) where
  home stored := str2id signed stored.key stored.len
  homeStored key hashSize := by
    dsimp only [keys]
    rw [str2id, str2id, str2idLoopTake]
  indexBelow key hashSize positive := by
    dsimp only [keys]
    exact str2idBelow signed key.bytes (len key) positive
  hitStored key other := by
    dsimp only [keys]
    rw [Bool.and_eq_true, beq_iff_eq, strncmpEqual, beq_iff_eq, StrEntry.mk.injEq]
    constructor
    · rintro ⟨lens, bytes⟩
      rw [← lens, List.take_take, Nat.min_self] at bytes
      rw [← lens]
      exact ⟨bytes, rfl⟩
    · rintro ⟨bytes, lens⟩
      rw [← lens] at bytes ⊢
      rw [List.take_take, Nat.min_self]
      exact ⟨rfl, bytes⟩

end MyMapStr

end Bootstrap.HashMaps
