import Bootstrap.ByteLayout

/-! Byte strings put together from parts: pieces cut out of several sources, laid end to
end, and items whose image depends on the place they come to stand at. -/
namespace Bootstrap.Tiling
open ByteLayout

variable {σ α : Type}

/-- The bytes [start, stop) of a source, shown at [first, last). -/
structure Piece (σ : Type) where
  first : Nat
  last : Nat
  source : σ
  start : Nat
  stop : Nat
  deriving DecidableEq, Repr

namespace Piece

def bytes (content : σ → Bytes) (p : Piece σ) : Bytes := slice (content p.source) p.start (p.stop - p.start)

structure Even (p : Piece σ) : Prop where
  ordered : p.start ≤ p.stop
  shown : p.last = p.first + (p.stop - p.start)

def Held (content : σ → Bytes) (p : Piece σ) : Prop := p.stop ≤ (content p.source).length

def extend (n : Nat) (p : Piece σ) : Piece σ := { p with last := p.last + n, stop := p.stop + n }

theorem bytesLength {content : σ → Bytes} {p : Piece σ} (even : p.Even) (held : p.Held content) :
    (p.bytes content).length = p.last - p.first := by
  obtain ⟨ordered, shown⟩ := even
  unfold Held at held
  rw [bytes, sliceLength (by omega)]
  omega

theorem Even.extend {p : Piece σ} (even : p.Even) (n : Nat) : (p.extend n).Even := by
  obtain ⟨ordered, shown⟩ := even
  constructor <;> simp only [Piece.extend] <;> omega

theorem bytesExtend {content : σ → Bytes} {p : Piece σ} (even : p.Even) (n : Nat) :
    (p.extend n).bytes content = p.bytes content ++ slice (content p.source) p.stop n := by
  have ordered := even.ordered
  have join := sliceJoin (content p.source) p.start (p.stop - p.start) n
  have stop : p.start + (p.stop - p.start) = p.stop := by omega
  have size : p.stop + n - p.start = p.stop - p.start + n := by omega
  rw [stop] at join
  simp only [bytes, Piece.extend, size, join]

end Piece

def gather (content : σ → Bytes) (ps : List (Piece σ)) : Bytes := ps.flatMap (Piece.bytes content)

inductive Tiles : Nat → List (Piece σ) → Nat → Prop where
  | nil (place : Nat) : Tiles place [] place
  | cons {first last : Nat} {p : Piece σ} {ps : List (Piece σ)} (starts : p.first = first) (even : p.Even)
      (tail : Tiles p.last ps last) : Tiles first (p :: ps) last

theorem tilesOrdered {first last : Nat} {ps : List (Piece σ)} (tiles : Tiles first ps last) : first ≤ last := by
  induction tiles with
  | nil => exact Nat.le_refl _
  | cons starts even tail ih =>
    have shown := even.shown
    omega

theorem tilesAppend {a b c : Nat} {ps qs : List (Piece σ)} (left : Tiles a ps b) (right : Tiles b qs c) :
    Tiles a (ps ++ qs) c := by
  induction left with
  | nil => exact right
  | cons starts even tail ih => exact .cons starts even (ih right)

theorem tilesSplit {a c : Nat} {ps qs : List (Piece σ)} (tiles : Tiles a (ps ++ qs) c) :
    ∃ b, Tiles a ps b ∧ Tiles b qs c := by
  induction ps generalizing a with
  | nil => exact ⟨a, .nil a, tiles⟩
  | cons p ps ih =>
    cases tiles with
    | cons starts even tail =>
      obtain ⟨b, left, right⟩ := ih tail
      exact ⟨b, .cons starts even left, right⟩

theorem tilesSnoc {a b : Nat} {ps : List (Piece σ)} {p : Piece σ} (tiles : Tiles a ps b) (starts : p.first = b)
    (even : p.Even) : Tiles a (ps ++ [p]) p.last :=
  tilesAppend tiles (.cons starts even (.nil _))

theorem tilesOne {a b : Nat} {p : Piece σ} (tiles : Tiles a [p] b) : p.first = a ∧ p.last = b := by
  cases tiles with
  | cons starts even tail =>
    cases tail
    exact ⟨starts, rfl⟩

theorem tilesExtend {a b : Nat} {ps : List (Piece σ)} {p : Piece σ} (tiles : Tiles a (ps ++ [p]) b) (n : Nat) :
    Tiles a (ps ++ [p.extend n]) (b + n) := by
  obtain ⟨c, left, right⟩ := tilesSplit tiles
  cases right with
  | cons starts even tail =>
    cases tail
    exact tilesSnoc left (p := p.extend n) starts (even.extend n)

theorem tilesEven {a b : Nat} {ps : List (Piece σ)} (tiles : Tiles a ps b) : ∀ p ∈ ps, p.Even := by
  induction tiles with
  | nil => simp
  | cons starts even tail ih =>
    intro q mem
    rcases List.mem_cons.mp mem with rfl | mem
    · exact even
    · exact ih q mem

theorem tilesAround {a b : Nat} {ps : List (Piece σ)} (tiles : Tiles a ps b) {p : Piece σ} (mem : p ∈ ps) :
    a ≤ p.first ∧ p.last ≤ b := by
  induction tiles with
  | nil => simp at mem
  | @cons a b q ps starts even tail ih =>
    have ordered := tilesOrdered tail
    have shown := even.shown
    rcases List.mem_cons.mp mem with rfl | later
    · omega
    · have := ih later
      omega

theorem tilesFind {a b place : Nat} {ps : List (Piece σ)} (tiles : Tiles a ps b) (low : a ≤ place) :
    (∀ p, ps.find? (fun q => place < q.last) = some p → p ∈ ps ∧ p.first ≤ place ∧ place < p.last) ∧
    (ps.find? (fun q => place < q.last) = none → b ≤ place) := by
  induction tiles with
  | nil => simpa using low
  | @cons a b q ps starts even tail ih =>
    by_cases here : place < q.last
    · rw [List.find?_cons_of_pos (by simpa using here)]
      refine ⟨?_, (fun bad => by cases bad)⟩
      rintro p ⟨⟩
      exact ⟨List.mem_cons_self, by omega, here⟩
    · rw [List.find?_cons_of_neg (by simpa using here)]
      obtain ⟨later, past⟩ := ih (by omega)
      exact ⟨fun p found => ⟨List.mem_cons_of_mem _ (later p found).1, (later p found).2⟩, past⟩

theorem tilesApart {a b place : Nat} {ps : List (Piece σ)} (tiles : Tiles a ps b) {p q : Piece σ} (mem : p ∈ ps)
    (other : q ∈ ps) (here : p.first ≤ place ∧ place < p.last) (there : q.first ≤ place ∧ place < q.last) : p = q := by
  induction tiles with
  | nil => simp at mem
  | cons starts even tail ih =>
    rcases List.mem_cons.mp mem with rfl | later
    · rcases List.mem_cons.mp other with rfl | beyond
      · rfl
      · have := tilesAround tail beyond
        omega
    · rcases List.mem_cons.mp other with rfl | beyond
      · have := tilesAround tail later
        omega
      · exact ih later beyond

@[simp] theorem gatherAppend (content : σ → Bytes) (ps qs : List (Piece σ)) :
    gather content (ps ++ qs) = gather content ps ++ gather content qs := by simp [gather]

@[simp] theorem gatherCons (content : σ → Bytes) (p : Piece σ) (ps : List (Piece σ)) :
    gather content (p :: ps) = p.bytes content ++ gather content ps := by simp [gather]

@[simp] theorem gatherNil (content : σ → Bytes) : gather content [] = [] := rfl

theorem gatherExtend {content : σ → Bytes} {ps : List (Piece σ)} {p : Piece σ} (even : p.Even) (n : Nat) :
    gather content (ps ++ [p.extend n]) = gather content (ps ++ [p]) ++ slice (content p.source) p.stop n := by
  simp [p.bytesExtend even]

theorem gatherLength {content : σ → Bytes} {a b : Nat} {ps : List (Piece σ)} (tiles : Tiles a ps b)
    (held : ∀ p ∈ ps, p.Held content) : (gather content ps).length = b - a := by
  induction tiles with
  | nil => simp
  | @cons a b p ps starts even tail ih =>
    have head := p.bytesLength even (held p List.mem_cons_self)
    have rest := ih (fun q mem => held q (List.mem_cons_of_mem _ mem))
    have ordered := tilesOrdered tail
    have shown := even.shown
    rw [gatherCons, List.length_append, head, rest]
    omega

/-- A source holds the byte that is shown at a place. -/
def Shows (content : σ → Bytes) (ps : List (Piece σ)) (place : Nat) (b : UInt8) : Prop :=
  ∃ p ∈ ps, (p.first ≤ place ∧ place < p.last) ∧ (content p.source)[p.start + (place - p.first)]? = some b

theorem gatherFrom {content : σ → Bytes} {a c place : Nat} {ps : List (Piece σ)} (tiles : Tiles a ps c)
    (held : ∀ p ∈ ps, p.Held content) {p : Piece σ} (mem : p ∈ ps) (inside : p.first ≤ place ∧ place < p.last) :
    (gather content ps).drop (place - a) = slice (content p.source) (p.start + (place - p.first)) (p.last - place) ++
      (gather content ps).drop (p.last - a) := by
  induction tiles with
  | nil => simp at mem
  | @cons a c q ps starts even tail ih =>
    have size := q.bytesLength even (held q List.mem_cons_self)
    have shown := even.shown
    rw [gatherCons]
    rcases List.mem_cons.mp mem with rfl | later
    · have part : slice (content p.source) (p.start + (place - p.first)) (p.last - place) =
          (p.bytes content).drop (place - a) := by
        rw [Piece.bytes, slice, slice, List.drop_take, List.drop_drop, starts]
        congr 1
        omega
      have whole : p.last - a = (p.bytes content).length := by omega
      rw [part, List.drop_append_of_le_length (by omega), whole, List.drop_left]
    · have around := tilesAround tail later
      have back : ∀ there, q.last ≤ there → (q.bytes content ++ gather content ps).drop (there - a) =
          (gather content ps).drop (there - q.last) := by
        intro there after
        have split : there - a = (q.bytes content).length + (there - q.last) := by omega
        rw [split, ← List.drop_drop, List.drop_left]
      rw [back place (by omega), back p.last (by omega)]
      exact ih (fun r known => held r (List.mem_cons_of_mem _ known)) later

theorem gatherShows {content : σ → Bytes} {a c place : Nat} {ps : List (Piece σ)} (tiles : Tiles a ps c)
    (held : ∀ p ∈ ps, p.Held content) {b : UInt8} (shows : Shows content ps place b) :
    (gather content ps)[place - a]? = some b := by
  obtain ⟨p, mem, inside, byte⟩ := shows
  have here : (slice (content p.source) (p.start + (place - p.first)) (p.last - place))[0]? = some b := by
    rw [sliceGet _ (by omega)]
    exact byte
  have rest : (gather content ps)[place - a]? = ((gather content ps).drop (place - a))[0]? := by
    rw [List.getElem?_drop, Nat.add_zero]
  rw [rest, gatherFrom tiles held mem inside, List.getElem?_append_left (List.getElem?_eq_some_iff.mp here).1]
  exact here

def shownByte (content : σ → Bytes) (ps : List (Piece σ)) (place : Nat) : Option UInt8 :=
  (ps.find? (fun p => place < p.last)).bind (fun p => (content p.source)[p.start + (place - p.first)]?)

theorem shownByteIn (content : σ → Bytes) {a c place : Nat} {ps : List (Piece σ)} (tiles : Tiles a ps c) {p : Piece σ}
    (mem : p ∈ ps) (inside : p.first ≤ place ∧ place < p.last) :
    shownByte content ps place = (content p.source)[p.start + (place - p.first)]? := by
  have around := tilesAround tiles mem
  obtain ⟨hit, miss⟩ := tilesFind tiles (show a ≤ place by omega)
  rw [shownByte]
  cases found : ps.find? (fun q => place < q.last) with
  | none =>
    have past := miss found
    omega
  | some q =>
    obtain ⟨known, there⟩ := hit q found
    rw [tilesApart tiles known mem there inside]
    rfl

theorem showsSlice {content : σ → Bytes} {a c start stop : Nat} {ps : List (Piece σ)} (tiles : Tiles a ps c)
    (held : ∀ p ∈ ps, p.Held content) (low : a ≤ start) {bytes : Bytes} (size : bytes.length = min stop c - start)
    (shows : ∀ i b, bytes[i]? = some b → Shows content ps (start + i) b) :
    bytes = slice (gather content ps) (start - a) (stop - start) := by
  have total := gatherLength tiles held
  refine List.ext_getElem? (fun i => ?_)
  by_cases inside : i < bytes.length
  · have byte := gatherShows tiles held (shows i _ (List.getElem?_eq_getElem inside))
    have there : start - a + i = start + i - a := by omega
    rw [sliceGet _ (by omega), there, byte, List.getElem?_eq_getElem inside]
  · have short : (slice (gather content ps) (start - a) (stop - start)).length ≤ i := by
      simp only [slice, List.length_take, List.length_drop, total]
      omega
    rw [List.getElem?_eq_none (by omega), List.getElem?_eq_none short]

theorem gatherGrow {old new : σ → Bytes} (grow : ∀ s, old s <+: new s) {ps : List (Piece σ)}
    (even : ∀ p ∈ ps, p.Even) (held : ∀ p ∈ ps, p.Held old) : gather new ps = gather old ps := by
  induction ps with
  | nil => rfl
  | cons p ps ih =>
    obtain ⟨tail, same⟩ := grow p.source
    have ordered := (even p List.mem_cons_self).ordered
    have inside := held p List.mem_cons_self
    unfold Piece.Held at inside
    have head : p.bytes new = p.bytes old := by
      rw [Piece.bytes, ← same, sliceLeft _ _ (by omega), Piece.bytes]
    rw [gatherCons, gatherCons, head, ih (fun q mem => even q (List.mem_cons_of_mem _ mem))
      (fun q mem => held q (List.mem_cons_of_mem _ mem))]

theorem heldGrow {old new : σ → Bytes} (grow : ∀ s, old s <+: new s) {p : Piece σ} (held : p.Held old) :
    p.Held new := Nat.le_trans held (grow p.source).length_le

section Placement
variable (image : α → Nat → Bytes)

def placesFrom : Nat → List α → List (α × Nat)
  | _, [] => []
  | place, a :: as => (a, place) :: placesFrom (place + (image a place).length) as

def assemble (place : Nat) (as : List α) : Bytes := (placesFrom image place as).flatMap (fun p => image p.1 p.2)

@[simp] theorem assembleNil (place : Nat) : assemble image place [] = [] := rfl

theorem assembleCons (place : Nat) (a : α) (as : List α) :
    assemble image place (a :: as) = image a place ++ assemble image (place + (image a place).length) as := by
  simp [assemble, placesFrom]

theorem assembleAppend (place : Nat) (as bs : List α) : assemble image place (as ++ bs) =
    assemble image place as ++ assemble image (place + (assemble image place as).length) bs := by
  induction as generalizing place with
  | nil => simp
  | cons a as ih =>
    rw [List.cons_append, assembleCons, ih, assembleCons, List.append_assoc, List.length_append, Nat.add_assoc]

theorem placesItems (place : Nat) (as : List α) : (placesFrom image place as).map Prod.fst = as := by
  induction as generalizing place with
  | nil => rfl
  | cons a as ih => simp [placesFrom, ih]

theorem assembleSlice {place : Nat} {as : List α} {a : α} {there : Nat} (mem : (a, there) ∈ placesFrom image place as) :
    ∃ before after, assemble image place as = before ++ (image a there ++ after) ∧
      there = place + before.length := by
  induction as generalizing place with
  | nil => simp [placesFrom] at mem
  | cons b as ih =>
    rw [placesFrom] at mem
    rcases List.mem_cons.mp mem with same | mem
    · cases same
      exact ⟨[], _, by rw [assembleCons, List.nil_append], rfl⟩
    · obtain ⟨before, after, split, rfl⟩ := ih mem
      refine ⟨image b place ++ before, after, ?_, by simp [Nat.add_assoc]⟩
      rw [assembleCons, split, List.append_assoc]

end Placement

end Bootstrap.Tiling
