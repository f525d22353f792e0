import Mathlib.Data.List.Basic
import Mathlib.Logic.Function.Basic

/-! Named files, and the single operations on them that a crash can fall between. -/
namespace Bootstrap.FileStore

variable {π β : Type}

abbrev Store (π β : Type) := π → Option (List β)

inductive Op (π β : Type) where
  | create (path : π)
  | truncate (path : π)
  | append (path : π) (bytes : List β)
  | unlink (path : π)
  | rename (old new : π)
  | chmod (path : π)
  deriving DecidableEq, Repr

def Op.touches : Op π β → List π
  | .create path => [path]
  | .truncate path => [path]
  | .append path _ => [path]
  | .unlink path => [path]
  | .rename old new => [old, new]
  | .chmod _ => []

def Within (paths : π → Prop) (ops : List (Op π β)) : Prop := ∀ op ∈ ops, ∀ path ∈ op.touches, paths path

theorem withinNil (paths : π → Prop) : Within paths ([] : List (Op π β)) := by simp [Within]

theorem withinAppend {paths : π → Prop} {ops more : List (Op π β)} (left : Within paths ops)
    (right : Within paths more) : Within paths (ops ++ more) := by
  intro op mem
  rcases List.mem_append.mp mem with mem | mem
  · exact left op mem
  · exact right op mem

theorem withinCons {paths : π → Prop} {op : Op π β} {ops : List (Op π β)} (own : ∀ path ∈ op.touches, paths path)
    (rest : Within paths ops) : Within paths (op :: ops) := by
  intro other mem
  rcases List.mem_cons.mp mem with rfl | mem
  · exact own
  · exact rest other mem

theorem withinTake {paths : π → Prop} {ops : List (Op π β)} (within : Within paths ops) (k : Nat) :
    Within paths (ops.take k) := fun op mem => within op (List.mem_of_mem_take mem)

theorem withinAppends {paths : π → Prop} {path : π} (own : paths path) (pieces : List (List β)) :
    Within paths (pieces.map (Op.append path)) := by
  intro op mem
  obtain ⟨bytes, _, rfl⟩ := List.mem_map.mp mem
  simpa [Op.touches] using own

variable [DecidableEq π]

namespace Op

/- A rename of an absent file fails; one onto itself does nothing. -/
def run (s : Store π β) : Op π β → Store π β
  | .create path => if (s path).isSome then s else Function.update s path (some [])
  | .truncate path => Function.update s path (some [])
  | .append path bytes => Function.update s path ((s path).map (· ++ bytes))
  | .unlink path => Function.update s path none
  | .rename old new =>
    if old = new ∨ (s old).isNone then s else Function.update (Function.update s new (s old)) old none
  | .chmod _ => s

theorem runOther {s : Store π β} {op : Op π β} {path : π} (apart : path ∉ op.touches) : op.run s path = s path := by
  cases op with
  | create p =>
    rw [run]
    split
    · rfl
    · exact Function.update_of_ne (fun same => apart (by simp [touches, same])) _ _
  | truncate p => exact Function.update_of_ne (fun same => apart (by simp [touches, same])) _ _
  | append p bytes => exact Function.update_of_ne (fun same => apart (by simp [touches, same])) _ _
  | unlink p => exact Function.update_of_ne (fun same => apart (by simp [touches, same])) _ _
  | rename old new =>
    rw [run]
    split
    · rfl
    · rw [Function.update_of_ne (fun same => apart (by simp [touches, same])),
        Function.update_of_ne (fun same => apart (by simp [touches, same]))]
  | chmod p => rfl

end Op

def runs (s : Store π β) (ops : List (Op π β)) : Store π β := ops.foldl Op.run s

@[simp] theorem runsNil (s : Store π β) : runs s [] = s := rfl

theorem runsCons (s : Store π β) (op : Op π β) (ops : List (Op π β)) : runs s (op :: ops) = runs (op.run s) ops := rfl

theorem runsAppend (s : Store π β) (ops more : List (Op π β)) : runs s (ops ++ more) = runs (runs s ops) more :=
  List.foldl_append

theorem runsOther {paths : π → Prop} {s : Store π β} {ops : List (Op π β)} (within : Within paths ops) {path : π}
    (apart : ¬ paths path) : runs s ops path = s path := by
  induction ops generalizing s with
  | nil => rfl
  | cons op ops ih =>
    rw [runsCons, ih (fun o mem => within o (List.mem_cons_of_mem _ mem))]
    exact Op.runOther (fun mem => apart (within op List.mem_cons_self path mem))

def Op.makes : Op π β → Option π
  | .create path => some path
  | .truncate path => some path
  | .rename _ new => some new
  | _ => none

theorem absentStays {s : Store π β} {path : π} (absent : s path = none) {ops : List (Op π β)}
    (unmade : ∀ op ∈ ops, op.makes ≠ some path) : runs s ops path = none := by
  induction ops generalizing s with
  | nil => exact absent
  | cons op ops ih =>
    refine ih ?_ (fun o mem => unmade o (List.mem_cons_of_mem _ mem))
    have own := unmade op List.mem_cons_self
    by_cases touched : path ∈ op.touches
    · cases op with
      | create p => exact absurd (congrArg some (List.mem_singleton.mp touched).symm) own
      | truncate p => exact absurd (congrArg some (List.mem_singleton.mp touched).symm) own
      | append p bytes =>
        obtain rfl := List.mem_singleton.mp touched
        simp [Op.run, absent]
      | unlink p =>
        obtain rfl := List.mem_singleton.mp touched
        simp [Op.run]
      | rename old new =>
        have apart : path ≠ new := fun same => own (congrArg some same.symm)
        rcases List.mem_cons.mp touched with rfl | there
        · simp [Op.run, absent]
        · exact absurd (List.mem_singleton.mp there) apart
      | chmod p => cases touched
    · rw [Op.runOther touched, absent]

theorem runsKnown {s : Store π β} {keys : List π} (known : ∀ path, (s path).isSome → path ∈ keys)
    (ops : List (Op π β)) (path : π) (present : (runs s ops path).isSome) : path ∈ keys ++ ops.flatMap Op.touches := by
  by_cases touched : path ∈ ops.flatMap Op.touches
  · exact List.mem_append_right _ touched
  · have within : Within (· ∈ ops.flatMap Op.touches) ops := fun op mem p own => List.mem_flatMap.mpr ⟨op, mem, own⟩
    rw [runsOther within touched] at present
    exact List.mem_append_left _ (known path present)

theorem runsAppends (s : Store π β) (path : π) (pieces : List (List β)) :
    runs s (pieces.map (Op.append path)) path = (s path).map (· ++ pieces.flatten) := by
  induction pieces generalizing s with
  | nil => cases h : s path <;> simp [h]
  | cons bytes pieces ih =>
    rw [List.map_cons, runsCons, ih]
    cases h : s path <;> simp [Op.run, h]

theorem runsWritten (s : Store π β) (path : π) (pieces : List (List β)) :
    runs s (.truncate path :: pieces.map (Op.append path)) path = some pieces.flatten := by
  rw [runsCons, runsAppends]
  simp [Op.run]

/-- What is still buffered when other files are written comes behind it. -/
theorem runsLate (s : Store π β) {path : π} {ops : List (Op π β)} (apart : Within (· ≠ path) ops)
    (pieces : List (List β)) : runs s (.truncate path :: (pieces.map (Op.append path)).dropLast ++ ops ++
      (pieces.map (Op.append path)).getLast?.toList) path = some pieces.flatten := by
  have split : pieces.dropLast ++ pieces.getLast?.toList = pieces := by
    obtain rfl | ⟨init, last, rfl⟩ := List.eq_nil_or_concat pieces <;> simp
  have last : (pieces.map (Op.append path)).getLast?.toList = pieces.getLast?.toList.map (Op.append path) := by
    rw [List.getLast?_map]
    cases pieces.getLast? <;> rfl
  rw [List.map_dropLast.symm, last, runsAppend, runsAppends, runsAppend, runsOther apart (fun bad => bad rfl), runsWritten]
  rw [Option.map_some, ← List.flatten_append, split]

theorem runsCreated {s : Store π β} {path : π} (absent : s path = none) (pieces : List (List β)) :
    runs s (.create path :: pieces.map (Op.append path)) path = some pieces.flatten := by
  rw [runsCons, runsAppends]
  simp [Op.run, absent]

def replace (old new : π) : List (Op π β) := [.unlink new, .rename old new]

theorem runsReplaced {s : Store π β} {old new : π} (apart : old ≠ new) {bytes : List β} (present : s old = some bytes) :
    runs s (replace old new) new = some bytes ∧ runs s (replace old new) old = none := by
  have still : Function.update s new none old = some bytes := by rw [Function.update_of_ne apart, present]
  simp only [replace, runsCons, runsNil, Op.run, still, Option.isNone_some, Bool.false_eq_true, or_false, if_neg apart]
  exact ⟨by rw [Function.update_of_ne apart.symm, Function.update_self], Function.update_self _ _ _⟩

end Bootstrap.FileStore
