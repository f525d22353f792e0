import Bootstrap.ByteLayout

/-! Memory by addresses: little-endian words in it, and what a write leaves alone. -/
namespace Bootstrap.ByteMemory
open ByteLayout

abbrev Memory := Nat → UInt8

def load (memory : Memory) (address len : Nat) : Bytes := (List.range len).map (fun i => memory (address + i))

def word (memory : Memory) (address width : Nat) : Nat := readLE (load memory address width)

def save (memory : Memory) (address : Nat) (bytes : Bytes) : Memory := fun a =>
  if address ≤ a then (bytes[a - address]?).getD (memory a) else memory a

def Apart (address len other size : Nat) : Prop := address + len ≤ other ∨ other + size ≤ address

instance (address len other size) : Decidable (Apart address len other size) := by unfold Apart; infer_instance

@[simp] theorem loadLength (memory : Memory) (address len : Nat) : (load memory address len).length = len := by
  simp [load]

theorem wordBound (memory : Memory) (address width : Nat) : word memory address width < 256 ^ width := by
  have bound := readLeBound (load memory address width)
  rwa [loadLength] at bound

theorem loadCongr {memory other : Memory} {address len : Nat} (same : ∀ i < len, memory (address + i) = other (address + i)) :
    load memory address len = load other address len :=
  List.map_congr_left (fun i mem => same i (List.mem_range.mp mem))

theorem saveOutside {memory : Memory} {address a : Nat} {bytes : Bytes} (outside : a < address ∨ address + bytes.length ≤ a) :
    save memory address bytes a = memory a := by
  unfold save
  split
  · rw [List.getElem?_eq_none (by omega)]
    rfl
  · rfl

theorem loadApart {memory : Memory} {address len other : Nat} {bytes : Bytes} (apart : Apart address len other bytes.length) :
    load (save memory other bytes) address len = load memory address len :=
  loadCongr (fun i below => saveOutside (by unfold Apart at apart; omega))

theorem wordApart {memory : Memory} {address width other : Nat} {bytes : Bytes}
    (apart : Apart address width other bytes.length) :
    word (save memory other bytes) address width = word memory address width := by
  rw [word, word, loadApart apart]

theorem loadSaved (memory : Memory) (address : Nat) (bytes : Bytes) :
    load (save memory address bytes) address bytes.length = bytes := by
  refine List.ext_getElem? (fun i => ?_)
  by_cases inside : i < bytes.length
  · simp [load, save, inside]
  · rw [List.getElem?_eq_none (by simp; omega), List.getElem?_eq_none (by omega)]

theorem wordSaved (memory : Memory) (address width value : Nat) :
    word (save memory address (le width value)) address width = value % 256 ^ width := by
  have saved := loadSaved memory address (le width value)
  rw [leLength] at saved
  rw [word, saved, readLeEncoded]

theorem loadSlice (memory : Memory) {address len start n : Nat} (inside : start + n ≤ len) :
    slice (load memory address len) start n = load memory (address + start) n := by
  refine List.ext_getElem? (fun i => ?_)
  by_cases below : i < n
  · rw [sliceGet _ below]
    simp [load, below, show start + i < len by omega, Nat.add_assoc]
  · rw [List.getElem?_eq_none (by have := sliceLengthLe (load memory address len) start n; omega),
      List.getElem?_eq_none (by simp; omega)]

end Bootstrap.ByteMemory
