import Mathlib.Data.List.Chain
import Mathlib.Data.List.Nodup
import Mathlib.Logic.Function.Basic

/-! Circular doubly linked lists whose cells lie inside the objects they link. The cells are any
type of addresses; a list is a head and what a walk along `next` meets before it is back there. -/
namespace Bootstrap.IntrusiveList
open Function (update update_self update_of_ne)

universe u

structure Links (α : Type u) where
  next : α → α
  prev : α → α

section
variable {α : Type u} [DecidableEq α]

def initListHead (l : Links α) (ptr : α) : Links α where
  next := update l.next ptr ptr
  prev := update l.prev ptr ptr

/- __list_add -/
def addBetween (l : Links α) (it prev next : α) : Links α where
  next := update (update l.next it next) prev it
  prev := update (update l.prev next it) it prev

def listAdd (l : Links α) (it head : α) : Links α := addBetween l it head (l.next head)

def listAddTail (l : Links α) (it head : α) : Links α := addBetween l it (l.prev head) head

/- __list_del -/
def delBetween (l : Links α) (prev next : α) : Links α where
  next := update l.next prev next
  prev := update l.prev next prev

/- The entry itself keeps its two links. -/
def listDel (l : Links α) (entry : α) : Links α := delBetween l (l.prev entry) (l.next entry)

def listEmpty (l : Links α) (head : α) : Bool := l.next head == head

/- list_for_each with a body that does nothing, or leaves the loop at `pos`. -/
def seek (l : Links α) (head : α) (hit : α → Bool) : Nat → α → Option (Option α)
  | 0, _ => none
  | fuel + 1, pos =>
    if pos = head then some none
    else if hit pos then some (some pos)
    else seek l head hit fuel (l.next pos)

/- list_for_each_safe: the successor is read before the body. -/
def seekSafe (l : Links α) (head : α) (hit : α → Bool) : Nat → α → α → Option (Option α)
  | 0, _, _ => none
  | fuel + 1, pos, ahead =>
    if pos = head then some none
    else if hit pos then some (some pos)
    else seekSafe l head hit fuel ahead (l.next ahead)

def listForEach (l : Links α) (head : α) (hit : α → Bool) (fuel : Nat) : Option (Option α) :=
  seek l head hit fuel (l.next head)

def listForEachSafe (l : Links α) (head : α) (hit : α → Bool) (fuel : Nat) : Option (Option α) :=
  seekSafe l head hit fuel (l.next head) (l.next (l.next head))

theorem seekSafeSame (l : Links α) (head : α) (hit : α → Bool) (fuel : Nat) (pos : α) :
    seekSafe l head hit fuel pos (l.next pos) = seek l head hit fuel pos := by
  induction fuel generalizing pos with
  | zero => rfl
  | succ fuel ih => simp only [seek, seekSafe, ih]

theorem forEachSafe (l : Links α) (head : α) (hit : α → Bool) (fuel : Nat) :
    listForEachSafe l head hit fuel = listForEach l head hit fuel := seekSafeSame ..

end

/-! The cells of a list in order, the head at both ends. -/

section
variable {α : Type u}

def Linked (l : Links α) (a b : α) : Prop := l.next a = b ∧ l.prev b = a

def cycle (head : α) (xs : List α) : List α := head :: (xs ++ [head])

structure Circular (l : Links α) (head : α) (xs : List α) : Prop where
  distinct : (head :: xs).Nodup
  linked : (cycle head xs).IsChain (Linked l)

theorem cycleFront (head : α) (xs : List α) : (cycle head xs).dropLast = head :: xs := by
  rw [cycle, ← List.cons_append, List.dropLast_concat]

theorem cycleBack {head : α} {xs : List α} (distinct : (head :: xs).Nodup) : (cycle head xs).tail.Nodup :=
  (List.perm_append_singleton head xs).nodup_iff.mpr distinct

theorem cycleMem {head c : α} {xs : List α} : c ∈ cycle head xs ↔ c ∈ head :: xs := by
  rw [cycle, List.mem_cons, (List.perm_append_singleton head xs).mem_iff, List.mem_cons, or_self_left]

theorem chainFrame {l l' : Links α} {ys : List α} (chain : ys.IsChain (Linked l))
    (nexts : ∀ a ∈ ys.dropLast, l'.next a = l.next a) (prevs : ∀ b ∈ ys.tail, l'.prev b = l.prev b) :
    ys.IsChain (Linked l') := by
  induction chain with
  | nil => exact .nil
  | singleton a => exact .singleton a
  | @cons_cons a b rest first chain ih =>
    refine .cons_cons ⟨?_, ?_⟩ (ih (fun c mem => nexts c (List.mem_cons_of_mem a mem))
      (fun c mem => prevs c (List.mem_cons_of_mem b mem)))
    · exact (nexts a List.mem_cons_self).trans first.1
    · exact (prevs b List.mem_cons_self).trans first.2

theorem chainInverse {l : Links α} {ys : List α} (chain : ys.IsChain (Linked l)) :
    (∀ c ∈ ys.dropLast, l.prev (l.next c) = c) ∧ ∀ c ∈ ys.tail, l.next (l.prev c) = c := by
  induction chain with
  | nil => exact ⟨List.forall_mem_nil _, List.forall_mem_nil _⟩
  | singleton a => exact ⟨List.forall_mem_nil _, List.forall_mem_nil _⟩
  | @cons_cons a b rest first chain ih =>
    have forth : l.prev (l.next a) = a := by rw [first.1, first.2]
    have back : l.next (l.prev b) = b := by rw [first.2, first.1]
    exact ⟨List.forall_mem_cons.mpr ⟨forth, ih.1⟩, List.forall_mem_cons.mpr ⟨back, ih.2⟩⟩

theorem ringFrame {l l' : Links α} {head : α} {xs : List α} (ring : Circular l head xs)
    (same : ∀ c ∈ head :: xs, l'.next c = l.next c ∧ l'.prev c = l.prev c) : Circular l' head xs := by
  refine ⟨ring.distinct, chainFrame ring.linked (fun a mem => (same a ?_).1) (fun b mem => (same b ?_).2)⟩
  · rwa [cycleFront] at mem
  · exact (List.perm_append_singleton head xs).mem_iff.mp mem

theorem ringInverse {l : Links α} {head : α} {xs : List α} (ring : Circular l head xs) :
    ∀ c ∈ head :: xs, l.prev (l.next c) = c ∧ l.next (l.prev c) = c := by
  intro c mem
  refine ⟨(chainInverse ring.linked).1 c ?_, (chainInverse ring.linked).2 c ?_⟩
  · rwa [cycleFront]
  · exact (List.perm_append_singleton head xs).mem_iff.mpr mem

theorem chainHead {l : Links α} {a head : α} {xs : List α} (chain : (a :: (xs ++ [head])).IsChain (Linked l)) :
    l.next a = xs.headD head := by
  cases xs with
  | nil => exact (List.isChain_cons_cons.mp chain).1.1
  | cons x xs => exact (List.isChain_cons_cons.mp chain).1.1

theorem ringFirst {l : Links α} {head : α} {xs : List α} (ring : Circular l head xs) : l.next head = xs.headD head :=
  chainHead ring.linked

theorem ringNext {l : Links α} {head x : α} {as bs : List α} (ring : Circular l head (as ++ x :: bs)) :
    l.next x = bs.headD head := by
  have chain := ring.linked
  rw [cycle, List.append_assoc, ← List.cons_append] at chain
  exact chainHead (List.isChain_split.mp chain).2

theorem chainUnique {l : Links α} {head a : α} {xs ys : List α} (chain : (a :: (xs ++ [head])).IsChain (Linked l))
    (chain' : (a :: (ys ++ [head])).IsChain (Linked l)) (outside : head ∉ xs) (outside' : head ∉ ys) : xs = ys := by
  induction xs generalizing ys a with
  | nil =>
    cases ys with
    | nil => rfl
    | cons y ys =>
      have back : y = head := (chainHead chain').symm.trans (chainHead chain)
      exact absurd (back ▸ List.mem_cons_self) outside'
  | cons x xs ih =>
    cases ys with
    | nil =>
      have back : x = head := (chainHead chain).symm.trans (chainHead chain')
      exact absurd (back ▸ List.mem_cons_self) outside
    | cons y ys =>
      have same : x = y := (chainHead chain).symm.trans (chainHead chain')
      subst same
      rw [ih (List.isChain_cons_cons.mp chain).2 (List.isChain_cons_cons.mp chain').2
        (List.not_mem_of_not_mem_cons outside) (List.not_mem_of_not_mem_cons outside')]

theorem ringUnique {l : Links α} {head : α} {xs ys : List α} (ring : Circular l head xs) (other : Circular l head ys) :
    xs = ys :=
  chainUnique ring.linked other.linked (List.nodup_cons.mp ring.distinct).1 (List.nodup_cons.mp other.distinct).1

theorem ringLast {l : Links α} {head : α} {xs : List α} (ring : Circular l head xs) :
    ∃ us, head :: xs = us ++ [l.prev head] := by
  obtain ⟨us, p, before⟩ : ∃ us p, head :: xs = us ++ [p] :=
    ⟨_, _, (List.dropLast_append_getLast (List.cons_ne_nil head xs)).symm⟩
  have chain := ring.linked
  rw [cycle, ← List.cons_append, before, List.append_assoc] at chain
  have precedes : l.prev head = p := (List.isChain_append_cons_cons.mp chain).2.1.2
  exact ⟨us, precedes ▸ before⟩

theorem headAround {l : Links α} {head : α} {xs : List α} (ring : Circular l head xs) :
    l.next head ∈ head :: xs ∧ l.prev head ∈ head :: xs := by
  constructor
  · rw [ringFirst ring]
    cases xs with
    | nil => exact List.mem_cons_self
    | cons x xs => exact List.mem_cons_of_mem head List.mem_cons_self
  · obtain ⟨us, before⟩ := ringLast ring
    rw [before]
    exact List.mem_append_right us List.mem_cons_self

theorem apart {us vs : List α} {p n : α} (front : (us ++ p :: n :: vs).dropLast.Nodup)
    (back : (us ++ p :: n :: vs).tail.Nodup) :
    (∀ a ∈ us, a ≠ p) ∧ (∀ a ∈ (n :: vs).dropLast, a ≠ p) ∧ (∀ b ∈ vs, b ≠ n) ∧ ∀ b ∈ (us ++ [p]).tail, b ≠ n := by
  rw [List.dropLast_append_cons, List.dropLast_cons_cons, List.nodup_append] at front
  have split : (us ++ p :: n :: vs).tail = (us ++ [p]).tail ++ n :: vs := by
    cases us with
    | nil => rfl
    | cons u us => simp
  rw [split, List.nodup_append] at back
  refine ⟨fun a mem => front.2.2 a mem p List.mem_cons_self, ?_, ?_, fun b mem => back.2.2 b mem n List.mem_cons_self⟩
  · rintro a mem rfl
    exact (List.nodup_cons.mp front.2.1).1 mem
  · rintro b mem rfl
    exact (List.nodup_cons.mp back.2.1).1 mem

/- The neighbours of an entry, with the two halves of the cycle around them. -/
theorem ringSplit {l : Links α} {head x : α} {as bs : List α} (ring : Circular l head (as ++ x :: bs)) :
    ∃ us p n vs, head :: as = us ++ [p] ∧ bs ++ [head] = n :: vs ∧ l.prev x = p ∧ l.next x = n ∧
      (us ++ p :: x :: n :: vs).IsChain (Linked l) := by
  obtain ⟨us, p, before⟩ : ∃ us p, head :: as = us ++ [p] :=
    ⟨_, _, (List.dropLast_append_getLast (List.cons_ne_nil head as)).symm⟩
  obtain ⟨n, vs, after⟩ : ∃ n vs, bs ++ [head] = n :: vs := List.exists_cons_of_ne_nil (by simp)
  have shape : cycle head (as ++ x :: bs) = us ++ p :: x :: n :: vs := by
    have tail : x :: bs ++ [head] = x :: n :: vs := congrArg (x :: ·) after
    rw [cycle, List.append_assoc, tail, ← List.cons_append, before]
    simp
  have chain := ring.linked
  rw [shape] at chain
  obtain ⟨-, enters, leaves⟩ := List.isChain_append_cons_cons.mp chain
  exact ⟨us, p, n, vs, before, after, enters.2, (List.isChain_cons_cons.mp leaves).1.1, chain⟩

theorem ringAround {l : Links α} {head x : α} {as bs : List α} (ring : Circular l head (as ++ x :: bs)) :
    l.prev x ∈ head :: (as ++ bs) ∧ l.next x ∈ head :: (as ++ bs) := by
  obtain ⟨us, p, n, vs, before, after, precedes, follows, -⟩ := ringSplit ring
  rw [precedes, follows]
  constructor
  · have mem : p ∈ head :: as := before ▸ List.mem_append_right us List.mem_cons_self
    exact List.mem_append_left bs mem
  · have mem : n ∈ bs ++ [head] := after ▸ List.mem_cons_self
    rcases List.mem_append.mp mem with inside | last
    · exact List.mem_cons_of_mem head (List.mem_append_right as inside)
    · exact List.mem_singleton.mp last ▸ List.mem_cons_self

end

section
variable {α : Type u} [DecidableEq α] {l : Links α} {head other it x : α} {xs ys as bs us vs : List α} {p n : α}

theorem addNext {c : α} (notIt : c ≠ it) (notPrev : c ≠ p) : (addBetween l it p n).next c = l.next c :=
  (update_of_ne notPrev ..).trans (update_of_ne notIt ..)

theorem addPrev {c : α} (notIt : c ≠ it) (notNext : c ≠ n) : (addBetween l it p n).prev c = l.prev c :=
  (update_of_ne notIt ..).trans (update_of_ne notNext ..)

theorem spliceIn (chain : (us ++ p :: n :: vs).IsChain (Linked l)) (front : (us ++ p :: n :: vs).dropLast.Nodup)
    (back : (us ++ p :: n :: vs).tail.Nodup) (fresh : it ∉ us ++ p :: n :: vs) :
    (us ++ p :: it :: n :: vs).IsChain (Linked (addBetween l it p n)) := by
  obtain ⟨inFront, behind, tailBehind, tailFront⟩ := apart front back
  obtain ⟨left, -, right⟩ := List.isChain_append_cons_cons.mp chain
  have notP : p ≠ it := fun same => fresh (same ▸ List.mem_append_right us List.mem_cons_self)
  have notN : n ≠ it := fun same => fresh (same ▸ List.mem_append_right us (List.mem_cons_of_mem p List.mem_cons_self))
  have enters : Linked (addBetween l it p n) p it := ⟨update_self .., update_self ..⟩
  have leaves : Linked (addBetween l it p n) it n :=
    ⟨(update_of_ne notP.symm ..).trans (update_self ..), (update_of_ne notN ..).trans (update_self ..)⟩
  rw [List.isChain_append_cons_cons]
  refine ⟨chainFrame left (fun a mem => ?_) (fun b mem => ?_), enters, .cons_cons leaves
    (chainFrame right (fun a mem => ?_) (fun b mem => ?_))⟩
  · rw [List.dropLast_concat] at mem
    exact addNext (fun same => fresh (same ▸ List.mem_append_left _ mem)) (inFront a mem)
  · have inside : b ∈ us ++ [p] := List.mem_of_mem_tail mem
    refine addPrev (fun same => fresh (same ▸ ?_)) (tailFront b mem)
    rw [List.append_cons]
    exact List.mem_append_left _ inside
  · have inside : a ∈ n :: vs := List.dropLast_subset _ mem
    exact addNext (fun same => fresh (same ▸ List.mem_append_right us (List.mem_cons_of_mem p inside))) (behind a mem)
  · have inside : b ∈ p :: n :: vs := List.mem_cons_of_mem p (List.mem_cons_of_mem n mem)
    exact addPrev (fun same => fresh (same ▸ List.mem_append_right us inside)) (tailBehind b mem)

theorem spliceOut (chain : (us ++ p :: x :: n :: vs).IsChain (Linked l)) (front : (us ++ p :: n :: vs).dropLast.Nodup)
    (back : (us ++ p :: n :: vs).tail.Nodup) : (us ++ p :: n :: vs).IsChain (Linked (delBetween l p n)) := by
  obtain ⟨inFront, behind, tailBehind, tailFront⟩ := apart front back
  obtain ⟨left, -, right⟩ := List.isChain_append_cons_cons.mp chain
  rw [List.isChain_append_cons_cons]
  refine ⟨chainFrame left (fun a mem => ?_) (fun b mem => update_of_ne (tailFront b mem) ..),
    ⟨update_self .., update_self ..⟩,
    chainFrame (List.isChain_cons_cons.mp right).2 (fun a mem => update_of_ne (behind a mem) ..)
      (fun b mem => update_of_ne (tailBehind b mem) ..)⟩
  rw [List.dropLast_concat] at mem
  exact update_of_ne (inFront a mem) ..

theorem ringInit (l : Links α) (head : α) : Circular (initListHead l head) head [] :=
  ⟨List.nodup_singleton head, .cons_cons ⟨update_self .., update_self ..⟩ (.singleton head)⟩

theorem initOther (ring : Circular l other ys) (outside : head ∉ other :: ys) :
    Circular (initListHead l head) other ys :=
  ringFrame ring fun _ mem =>
    have away := ne_of_mem_of_not_mem mem outside
    ⟨update_of_ne away .., update_of_ne away ..⟩

theorem ringEmpty (ring : Circular l head xs) : listEmpty l head = xs.isEmpty := by
  rw [listEmpty, ringFirst ring]
  cases xs with
  | nil => exact beq_self_eq_true head
  | cons x xs =>
    have away : x ≠ head := fun same => (List.nodup_cons.mp ring.distinct).1 (same ▸ List.mem_cons_self)
    exact beq_eq_false_iff_ne.mpr away

theorem ringAdd (ring : Circular l head xs) (fresh : it ∉ head :: xs) :
    Circular (listAdd l it head) head (it :: xs) := by
  have distinct : (head :: it :: xs).Nodup := (List.Perm.swap head it xs).nodup_iff.mp (ring.distinct.cons fresh)
  refine ⟨distinct, ?_⟩
  obtain ⟨n, vs, after⟩ : ∃ n vs, xs ++ [head] = n :: vs := List.exists_cons_of_ne_nil (by simp)
  have chain := ring.linked
  have shape : cycle head xs = [] ++ head :: n :: vs := by rw [cycle, after, List.nil_append]
  have follows : l.next head = n := by
    rw [shape] at chain
    exact (List.isChain_cons_cons.mp chain).1.1
  have absent : it ∉ cycle head xs := mt cycleMem.mp fresh
  have front := cycleFront head xs ▸ ring.distinct
  have back := cycleBack ring.distinct
  rw [shape] at chain front back absent
  rw [listAdd, follows, cycle, List.cons_append, after]
  exact spliceIn chain front back absent

theorem ringAddTail (ring : Circular l head xs) (fresh : it ∉ head :: xs) :
    Circular (listAddTail l it head) head (xs ++ [it]) := by
  have moved : (head :: (xs ++ [it])).Perm (it :: head :: xs) := List.perm_append_singleton it (head :: xs)
  refine ⟨moved.nodup_iff.mpr (ring.distinct.cons fresh), ?_⟩
  obtain ⟨us, before⟩ := ringLast ring
  have shape : cycle head xs = us ++ l.prev head :: head :: [] := by
    rw [cycle, ← List.cons_append, before, List.append_assoc]
    rfl
  have longer : cycle head (xs ++ [it]) = us ++ l.prev head :: it :: head :: [] := by
    rw [cycle, ← List.cons_append, ← List.cons_append, before]
    simp
  have chain := ring.linked
  have absent : it ∉ cycle head xs := mt cycleMem.mp fresh
  have front := cycleFront head xs ▸ ring.distinct
  have back := cycleBack ring.distinct
  rw [shape] at chain front back absent
  rw [longer]
  exact spliceIn chain front back absent

theorem ringDel (ring : Circular l head (as ++ x :: bs)) : Circular (listDel l x) head (as ++ bs) := by
  obtain ⟨us, p, n, vs, before, after, precedes, follows, chain⟩ := ringSplit ring
  have distinct : (head :: (as ++ bs)).Nodup :=
    ring.distinct.sublist (.cons_cons head (.append_left (List.sublist_cons_self x bs) as))
  have shape : cycle head (as ++ bs) = us ++ p :: n :: vs := by
    rw [cycle, List.append_assoc, ← List.cons_append, after, before]
    simp
  refine ⟨distinct, ?_⟩
  have front := cycleFront head (as ++ bs) ▸ distinct
  have back := cycleBack distinct
  rw [shape] at front back ⊢
  rw [listDel, precedes, follows]
  exact spliceOut chain front back

/- The neighbours that a cell names name each other. -/
def Bypassed (l : Links α) (x : α) : Prop := l.next (l.prev x) = l.next x ∧ l.prev (l.next x) = l.prev x

theorem delBypassed (done : Bypassed l x) : listDel l x = l := by
  have nexts : update l.next (l.prev x) (l.next x) = l.next := by rw [← done.1, Function.update_eq_self]
  have prevs : update l.prev (l.next x) (l.prev x) = l.prev := by rw [← done.2, Function.update_eq_self]
  rw [listDel, delBetween, nexts, prevs]

theorem delKeeps (ring : Circular l head (as ++ x :: bs)) :
    (listDel l x).next x = l.next x ∧ (listDel l x).prev x = l.prev x := by
  have moved : (head :: (as ++ x :: bs)).Perm (x :: head :: (as ++ bs)) :=
    (List.perm_middle.cons head).trans (.swap x head _)
  have outside := (List.nodup_cons.mp (moved.nodup_iff.mp ring.distinct)).1
  have around := ringAround ring
  have notPrev : x ≠ l.prev x := fun same => outside (same ▸ around.1)
  have notNext : x ≠ l.next x := fun same => outside (same ▸ around.2)
  exact ⟨update_of_ne notPrev .., update_of_ne notNext ..⟩

theorem ringBypassed (ring : Circular l head (as ++ x :: bs)) : Bypassed (listDel l x) x := by
  obtain ⟨next, prev⟩ := delKeeps ring
  rw [Bypassed, next, prev]
  exact ⟨update_self .., update_self ..⟩

theorem addOther (ring : Circular l head xs) (kept : Circular l other ys)
    (disjoint : (head :: xs).Disjoint (other :: ys)) (outside : it ∉ other :: ys) :
    Circular (listAdd l it head) other ys := by
  refine ringFrame kept fun c mem => ?_
  have notIt : c ≠ it := ne_of_mem_of_not_mem mem outside
  have notHead : c ≠ head := fun same => disjoint (same ▸ List.mem_cons_self) mem
  have notFirst : c ≠ l.next head := fun same => disjoint (same ▸ (headAround ring).1) mem
  exact ⟨addNext notIt notHead, addPrev notIt notFirst⟩

theorem addTailOther (ring : Circular l head xs) (kept : Circular l other ys)
    (disjoint : (head :: xs).Disjoint (other :: ys)) (outside : it ∉ other :: ys) :
    Circular (listAddTail l it head) other ys := by
  refine ringFrame kept fun c mem => ?_
  have notIt : c ≠ it := ne_of_mem_of_not_mem mem outside
  have notHead : c ≠ head := fun same => disjoint (same ▸ List.mem_cons_self) mem
  have notLast : c ≠ l.prev head := fun same => disjoint (same ▸ (headAround ring).2) mem
  exact ⟨addNext notIt notLast, addPrev notIt notHead⟩

theorem delOutside (ring : Circular l head (as ++ x :: bs)) {c : α} (outside : c ∉ head :: (as ++ x :: bs)) :
    (listDel l x).next c = l.next c ∧ (listDel l x).prev c = l.prev c := by
  have more : (head :: (as ++ bs)).Sublist (head :: (as ++ x :: bs)) :=
    .cons_cons head (.append_left (List.sublist_cons_self x bs) as)
  have around := ringAround ring
  have notPrev : c ≠ l.prev x := fun same => outside (more.subset (same ▸ around.1))
  have notNext : c ≠ l.next x := fun same => outside (more.subset (same ▸ around.2))
  exact ⟨update_of_ne notPrev .., update_of_ne notNext ..⟩

theorem delOther (ring : Circular l head (as ++ x :: bs)) (kept : Circular l other ys)
    (disjoint : (head :: (as ++ x :: bs)).Disjoint (other :: ys)) : Circular (listDel l x) other ys :=
  ringFrame kept fun _ mem => delOutside ring fun inside => disjoint inside mem

theorem bypassedKept {y : α} (ring : Circular l head (as ++ y :: bs)) (done : Bypassed l x)
    (apart : ∀ c, c = x ∨ c = l.prev x ∨ c = l.next x → c ∉ head :: (as ++ y :: bs)) :
    Bypassed (listDel l y) x := by
  have self := delOutside ring (apart x (.inl rfl))
  have before := delOutside ring (apart (l.prev x) (.inr (.inl rfl)))
  have after := delOutside ring (apart (l.next x) (.inr (.inr rfl)))
  rw [Bypassed, self.1, self.2, before.1, after.2]
  exact done

theorem seekChain (hit : α → Bool) {fuel : Nat} (chain : (xs ++ [head]).IsChain (Linked l)) (outside : head ∉ xs)
    (enough : xs.length < fuel) : seek l head hit fuel (xs.headD head) = some (xs.find? hit) := by
  induction xs generalizing fuel with
  | nil =>
    obtain ⟨fuel, rfl⟩ := Nat.exists_eq_succ_of_ne_zero (Nat.ne_zero_of_lt enough)
    simp [seek]
  | cons x xs ih =>
    obtain ⟨fuel, rfl⟩ := Nat.exists_eq_succ_of_ne_zero (Nat.ne_zero_of_lt enough)
    have away : x ≠ head := fun same => outside (same ▸ List.mem_cons_self)
    have later := ih (List.isChain_of_isChain_cons chain) (List.not_mem_of_not_mem_cons outside)
      (Nat.lt_of_succ_lt_succ enough)
    rw [List.headD_cons, seek, if_neg away, List.find?_cons, chainHead chain, later]
    cases hit x <;> rfl

theorem ringSeek (ring : Circular l head xs) (hit : α → Bool) {fuel : Nat} (enough : xs.length < fuel) :
    listForEach l head hit fuel = some (xs.find? hit) := by
  rw [listForEach, ringFirst ring]
  exact seekChain hit (List.isChain_of_isChain_cons ring.linked) (List.nodup_cons.mp ring.distinct).1 enough

theorem seekMore {hit : α → Bool} {fuel more : Nat} {pos : α} {found : Option α} (enough : fuel ≤ more)
    (done : seek l head hit fuel pos = some found) : seek l head hit more pos = some found := by
  induction fuel generalizing more pos with
  | zero => cases done
  | succ fuel ih =>
    obtain ⟨more, rfl⟩ := Nat.exists_eq_add_of_le' (Nat.le_trans (Nat.succ_pos fuel) enough)
    rw [seek] at done ⊢
    split
    · rwa [if_pos ‹_›] at done
    · rw [if_neg ‹_›] at done
      split
      · rwa [if_pos ‹_›] at done
      · rw [if_neg ‹_›] at done
        exact ih (Nat.le_of_succ_le_succ enough) done

end

end Bootstrap.IntrusiveList
