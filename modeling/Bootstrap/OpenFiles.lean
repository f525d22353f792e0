import Bootstrap.PlainFile
import Mathlib.Logic.Function.Basic

/-! Descriptors on regular files. Each open has an offset of its own; a file has names, and
it stays behind the descriptors open on it when they are unlinked. -/
namespace Bootstrap.OpenFiles
open ByteLayout

section
variable {α β : Type} [DecidableEq α] {f : α → Option β} {here a : α} {x y : β}

theorem putEntry : Function.update f here (some x) a = some y ↔ here = a ∧ x = y ∨ a ≠ here ∧ f a = some y := by
  by_cases same : a = here
  · subst same
    simp
  · simp [same, Ne.symm same]

theorem clearedEntry : Function.update f here none a = some y ↔ a ≠ here ∧ f a = some y := by
  by_cases same : a = here
  · subst same
    simp
  · simp [same]

omit [DecidableEq α] in
theorem entryApart (absent : f here = none) (entry : f a = some y) : a ≠ here := by
  rintro rfl
  rw [absent] at entry
  cases entry

theorem entryKept (absent : f here = none) (entry : f a = some y) : Function.update f here (some x) a = some y :=
  putEntry.mpr (.inr ⟨entryApart absent entry, entry⟩)

end

structure OpenFile where
  node : Nat
  offset : Nat
  readable : Bool
  deriving DecidableEq, Repr

structure Kernel where
  fds : Int → Option OpenFile
  contents : Nat → Bytes
  names : Bytes → Option Nat

structure Flags where
  readable : Bool
  creat : Bool
  excl : Bool
  trunc : Bool
  deriving DecidableEq, Repr

/-- The offset of a 64-bit lseek is below this. -/
def offsetLimit : Nat := 2 ^ 63

/-- What one read delivers at most. -/
def readLimit : Nat := 0x7ffff000

namespace Kernel

def setFile (k : Kernel) (fd : Int) (f : Option OpenFile) : Kernel := { k with fds := Function.update k.fds fd f }

def lseek (k : Kernel) (fd offset : Int) (whence : Nat) : Int × Kernel :=
  match k.fds fd with
  | none => (-1, k)
  | some f =>
    let there := PlainFile.target (k.contents f.node).length f.offset offset whence
    if whence ≤ 2 ∧ 0 ≤ there ∧ there < offsetLimit then
      (there, k.setFile fd (some { f with offset := there.toNat }))
    else (-1, k)

def read (k : Kernel) (fd : Int) (nbyte : Nat) : Int × Bytes × Kernel :=
  match k.fds fd with
  | none => (-1, [], k)
  | some f =>
    if f.readable then
      let bytes := slice (k.contents f.node) f.offset (min nbyte readLimit)
      (bytes.length, bytes, k.setFile fd (some { f with offset := f.offset + bytes.length }))
    else (-1, [], k)

def write (k : Kernel) (fd : Int) (bytes : Bytes) : Kernel :=
  match k.fds fd with
  | none => k
  | some f =>
    let old := k.contents f.node
    let before := old.take f.offset ++ List.replicate (f.offset - old.length) 0
    { k.setFile fd (some { f with offset := f.offset + bytes.length }) with
      contents := Function.update k.contents f.node (before ++ bytes ++ old.drop (f.offset + bytes.length)) }

def close (k : Kernel) (fd : Int) : Int × Kernel :=
  match k.fds fd with
  | none => (-1, k)
  | some _ => (0, k.setFile fd none)

def unlink (k : Kernel) (path : Bytes) : Kernel := { k with names := Function.update k.names path none }

/- The descriptor, and the node of a file that has to be made, are the system's choice. -/
def openFile (k : Kernel) (path : Bytes) (flags : Flags) (fd : Int) (node : Nat) : Option Kernel :=
  match k.names path with
  | some n =>
    if flags.creat && flags.excl then none
    else
      let contents := if flags.trunc then Function.update k.contents n [] else k.contents
      some { k.setFile fd (some ⟨n, 0, flags.readable⟩) with contents }
  | none =>
    if flags.creat then
      some { k.setFile fd (some ⟨node, 0, flags.readable⟩) with
        contents := Function.update k.contents node [], names := Function.update k.names path (some node) }
    else none

structure Unused (k : Kernel) (node : Nat) : Prop where
  unnamed : ∀ path, k.names path ≠ some node
  unopened : ∀ (fd : Int) (f : OpenFile), k.fds fd = some f → f.node ≠ node

@[simp] theorem setFileContents (k : Kernel) (fd : Int) (f : Option OpenFile) :
    (k.setFile fd f).contents = k.contents := rfl
@[simp] theorem setFileNames (k : Kernel) (fd : Int) (f : Option OpenFile) : (k.setFile fd f).names = k.names := rfl
@[simp] theorem setFileHere (k : Kernel) (fd : Int) (f : Option OpenFile) : (k.setFile fd f).fds fd = f :=
  Function.update_self _ _ _
theorem setFileOther (k : Kernel) {fd other : Int} (apart : other ≠ fd) (f : Option OpenFile) :
    (k.setFile fd f).fds other = k.fds other := Function.update_of_ne apart _ _
@[simp] theorem setFileTwice (k : Kernel) (fd : Int) (f g : Option OpenFile) :
    (k.setFile fd f).setFile fd g = k.setFile fd g := by
  simp only [setFile, Function.update_idem]
theorem setFileSame {k : Kernel} {fd : Int} {f : Option OpenFile} (here : k.fds fd = f) : k.setFile fd f = k := by
  simp only [setFile, ← here, Function.update_eq_self]

theorem lseekHere {k : Kernel} {fd : Int} {f : OpenFile} (here : k.fds fd = some f) :
    (k.lseek fd 0 1).2 = k ∧ ((k.lseek fd 0 1).1 = 0 ↔ f.offset = 0) := by
  have there : PlainFile.target (k.contents f.node).length f.offset 0 1 = f.offset := by simp [PlainFile.target]
  simp only [lseek, here, there]
  split
  · exact ⟨by rw [Int.toNat_natCast, setFileSame here], by simp⟩
  · rename_i far
    refine ⟨rfl, fun none => by simp at none, fun start => absurd ⟨by decide, Int.natCast_nonneg _, ?_⟩ far⟩
    rw [start]
    decide

theorem lseekStart {k : Kernel} {fd : Int} {f : OpenFile} (here : k.fds fd = some f) :
    k.lseek fd 0 0 = (0, k.setFile fd (some { f with offset := 0 })) := by
  simp only [lseek, here]
  have there : PlainFile.target (k.contents f.node).length f.offset 0 0 = 0 := rfl
  rw [there, if_pos ⟨by decide, Int.le_refl 0, by decide⟩]
  rfl

theorem readHere {k : Kernel} {fd : Int} {f : OpenFile} (here : k.fds fd = some f) (readable : f.readable = true)
    {nbyte : Nat} (small : nbyte ≤ readLimit) {bytes : Bytes} (taken : bytes = slice (k.contents f.node) f.offset nbyte) :
    k.read fd nbyte = ((bytes.length : Int), bytes, k.setFile fd (some { f with offset := f.offset + bytes.length })) := by
  simp only [read, here, readable, if_true, Nat.min_eq_left small, taken]

theorem readRefused {k : Kernel} {fd : Int} {f : OpenFile} (here : k.fds fd = some f) (closed : f.readable = false)
    (nbyte : Nat) : k.read fd nbyte = (-1, [], k) := by
  simp only [read, here, closed, Bool.false_eq_true, if_false]

def Moves (k : Kernel) (fd : Int) (k' : Kernel) : Prop :=
  ∃ f, k' = k.setFile fd f ∧ ∀ g, f = some g → ∃ old, k.fds fd = some old ∧ g.node = old.node

theorem movesNot (k : Kernel) (fd : Int) : k.Moves fd k :=
  ⟨k.fds fd, (setFileSame rfl).symm, fun g here => ⟨g, here, rfl⟩⟩

theorem movesTo {k : Kernel} {fd : Int} {old g : OpenFile} (here : k.fds fd = some old) (same : g.node = old.node) :
    k.Moves fd (k.setFile fd (some g)) := ⟨some g, rfl, fun _ is => Option.some.inj is ▸ ⟨old, here, same⟩⟩

theorem lseekMoves (k : Kernel) (fd offset : Int) (whence : Nat) : k.Moves fd (k.lseek fd offset whence).2 := by
  unfold lseek
  cases here : k.fds fd with
  | none => exact movesNot k fd
  | some f =>
    dsimp only
    split
    · exact movesTo here rfl
    · exact movesNot k fd

theorem readMoves (k : Kernel) (fd : Int) (nbyte : Nat) : k.Moves fd (k.read fd nbyte).2.2 := by
  unfold read
  cases here : k.fds fd with
  | none => exact movesNot k fd
  | some f =>
    dsimp only
    split
    · exact movesTo here rfl
    · exact movesNot k fd

theorem closeMoves (k : Kernel) (fd : Int) : k.Moves fd (k.close fd).2 := by
  unfold close
  cases here : k.fds fd with
  | none => exact movesNot k fd
  | some f => exact ⟨none, rfl, fun g bad => by cases bad⟩

theorem closeOpen {k : Kernel} {fd : Int} {f : OpenFile} (here : k.fds fd = some f) :
    k.close fd = (0, k.setFile fd none) := by
  simp only [close, here]

def nodeOf (k : Kernel) (path : Bytes) (node : Nat) : Nat := (k.names path).getD node

theorem nodeOfCases (k : Kernel) (path : Bytes) (node : Nat) :
    k.names path = some (k.nodeOf path node) ∨ (k.names path = none ∧ k.nodeOf path node = node) := by
  unfold nodeOf
  cases k.names path with
  | none => exact .inr ⟨rfl, rfl⟩
  | some n => exact .inl rfl

theorem openFileCases {k k' : Kernel} {path : Bytes} {flags : Flags} {fd : Int} {node : Nat}
    (opened : k.openFile path flags fd node = some k') :
    k'.fds = Function.update k.fds fd (some ⟨k.nodeOf path node, 0, flags.readable⟩) ∧
    k'.names = Function.update k.names path (some (k.nodeOf path node)) ∧
    (∀ n, n ≠ k.nodeOf path node → k'.contents n = k.contents n) ∧
    (k'.contents (k.nodeOf path node) = [] ∨
      k.names path = some (k.nodeOf path node) ∧ k'.contents (k.nodeOf path node) = k.contents (k.nodeOf path node)) := by
  unfold openFile nodeOf at *
  cases name : k.names path with
  | some n =>
    have same : Function.update k.names path (some n) = k.names := by rw [← name, Function.update_eq_self]
    simp only [name, Option.getD_some] at opened ⊢
    split at opened
    · cases opened
    · cases opened
      refine ⟨rfl, same.symm, ?_, ?_⟩
      · intro m apart
        dsimp only
        split
        · exact Function.update_of_ne apart _ _
        · rfl
      · dsimp only
        split
        · exact .inl (Function.update_self _ _ _)
        · exact .inr ⟨trivial, rfl⟩
  | none =>
    simp only [name, Option.getD_none] at opened ⊢
    split at opened
    · cases opened
      exact ⟨rfl, rfl, fun m apart => Function.update_of_ne apart _ _, .inl (Function.update_self _ _ _)⟩
    · cases opened

end Kernel
end Bootstrap.OpenFiles
