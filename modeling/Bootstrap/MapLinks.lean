import Bootstrap.MyMap

/-! The lists of a map as they are threaded through its nodes, and what each splice of the source
does to them. -/
namespace Bootstrap.HashMaps
open CInt IntrusiveList
open Function (update update_self update_of_ne)

def bucketOf (home : Int → Nat) (nodes : List Int) (i : Nat) : List Int := nodes.filter (home · = i)

/-- The nodes on link, in the buckets and on free_list. Between two calls link and the buckets hold
the same nodes; inside one they do not. -/
structure Shape (l : Links Cell) (hashSize : Nat) (home : Int → Nat) (linked hashed free : List Int) : Prop where
  linkRing : Circular l .link (linked.map .nodeLink)
  freeRing : Circular l .freeList (free.map .nodeLink)
  buckets : ∀ i < hashSize, Circular l (.bucket i) ((bucketOf home hashed i).map .nodeHash)
  apart : linked.Disjoint free

section
variable {l : Links Cell} {hashSize : Nat} {home : Int → Nat} {linked hashed free as bs ns ms : List Int} {n : Int}

theorem bucketMem {i : Nat} : n ∈ bucketOf home ns i ↔ n ∈ ns ∧ home n = i := by simp [bucketOf]

theorem bucketOwn : bucketOf home (n :: ns) (home n) = n :: bucketOf home ns (home n) := by simp [bucketOf]

theorem bucketElse {i : Nat} (away : home n ≠ i) : bucketOf home (n :: ns) i = bucketOf home ns i := by
  simp [bucketOf, away]

theorem bucketAppend {i : Nat} : bucketOf home (ns ++ ms) i = bucketOf home ns i ++ bucketOf home ms i :=
  List.filter_append ..

theorem linkFree (apart : ns.Disjoint ms) :
    (Cell.link :: ns.map .nodeLink).Disjoint (.freeList :: ms.map .nodeLink) := by
  intro c here there
  rcases List.mem_cons.mp here with rfl | here
  · simp at there
  · obtain ⟨n, mem, rfl⟩ := List.mem_map.mp here
    refine apart mem ?_
    simpa using there

theorem hashPlain {i : Nat} {head : Cell} (plain : head = .link ∨ head = .freeList) :
    (Cell.bucket i :: ns.map .nodeHash).Disjoint (head :: ms.map .nodeLink) := by
  intro c here there
  rcases List.mem_cons.mp here with rfl | here
  · rcases plain with rfl | rfl <;> simp at there
  · obtain ⟨n, mem, rfl⟩ := List.mem_map.mp here
    rcases plain with rfl | rfl <;> simp at there

theorem plainHash {i : Nat} {head : Cell} (plain : head = .link ∨ head = .freeList) :
    (head :: ms.map .nodeLink).Disjoint (Cell.bucket i :: ns.map .nodeHash) := List.disjoint_symm (hashPlain plain)

theorem bucketsApart {i j : Nat} (away : i ≠ j) :
    (Cell.bucket i :: (bucketOf home ns i).map .nodeHash).Disjoint (.bucket j :: (bucketOf home ms j).map .nodeHash) := by
  intro c here there
  rcases List.mem_cons.mp here with rfl | here
  · exact away (by simpa using there)
  · obtain ⟨n, mem, rfl⟩ := List.mem_map.mp here
    have mem' : n ∈ bucketOf home ms j := by simpa using there
    exact away ((bucketMem.mp mem).2.symm.trans (bucketMem.mp mem').2)

theorem plainCell {head : Cell} {c : Cell} (mem : c ∈ head :: ns.map .nodeLink) :
    c = head ∨ ∃ n ∈ ns, c = .nodeLink n := by
  rcases List.mem_cons.mp mem with same | inside
  · exact .inl same
  · obtain ⟨n, here, rfl⟩ := List.mem_map.mp inside
    exact .inr ⟨n, here, rfl⟩

theorem linkOutside {head : Cell} (plain : head = .link ∨ head = .freeList) (outside : n ∉ ns) :
    Cell.nodeLink n ∉ head :: ns.map .nodeLink := fun mem => by
  rcases plainCell mem with same | ⟨m, here, same⟩
  · rcases plain with rfl | rfl <;> cases same
  · cases same
    exact outside here

theorem linkNotHashed {i : Nat} : Cell.nodeLink n ∉ Cell.bucket i :: ns.map .nodeHash := by simp

theorem hashNotLinked {head : Cell} (plain : head = .link ∨ head = .freeList) :
    Cell.nodeHash n ∉ head :: ns.map .nodeLink := by
  rcases plain with rfl | rfl <;> simp

theorem hashOutside {i : Nat} (outside : n ∉ ns) :
    Cell.nodeHash n ∉ Cell.bucket i :: (bucketOf home ns i).map .nodeHash := by
  intro mem
  have here : n ∈ bucketOf home ns i := by simpa using mem
  exact outside (bucketMem.mp here).1

theorem onceIn {l : Links Cell} {head : Cell} (ring : Circular l head (ns.map .nodeLink)) : ns.Nodup :=
  (List.nodup_cons.mp ring.distinct).2.of_map _

theorem shapeTake (shape : Shape l hashSize home linked hashed (n :: free)) :
    Shape (listDel l (.nodeLink n)) hashSize home linked hashed free := by
  have front : Circular l .freeList ([] ++ .nodeLink n :: free.map .nodeLink) := shape.freeRing
  refine ⟨delOther front shape.linkRing (List.disjoint_symm (linkFree shape.apart)), ringDel front,
    fun i below => delOther front (shape.buckets i below) ?_, List.disjoint_of_disjoint_cons_right shape.apart⟩
  rw [List.nil_append, ← List.map_cons]
  exact plainHash (.inr rfl)

theorem shapeFree (shape : Shape l hashSize home linked hashed free) (notLinked : n ∉ linked) (notFree : n ∉ free) :
    Shape (listAdd l (.nodeLink n) .freeList) hashSize home linked hashed (n :: free) where
  linkRing := addOther shape.freeRing shape.linkRing (List.disjoint_symm (linkFree shape.apart))
    (linkOutside (.inl rfl) notLinked)
  freeRing := ringAdd shape.freeRing (linkOutside (.inr rfl) notFree)
  buckets i below := addOther shape.freeRing (shape.buckets i below) (plainHash (.inr rfl)) linkNotHashed
  apart := List.disjoint_cons_right.mpr ⟨notLinked, shape.apart⟩

theorem shapeLink (shape : Shape l hashSize home linked hashed free) (notLinked : n ∉ linked) (notFree : n ∉ free) :
    Shape (listAdd l (.nodeLink n) .link) hashSize home (n :: linked) hashed free where
  linkRing := ringAdd shape.linkRing (linkOutside (.inl rfl) notLinked)
  freeRing := addOther shape.linkRing shape.freeRing (linkFree shape.apart) (linkOutside (.inr rfl) notFree)
  buckets i below := addOther shape.linkRing (shape.buckets i below) (plainHash (.inl rfl)) linkNotHashed
  apart := List.disjoint_cons_left.mpr ⟨notFree, shape.apart⟩

theorem shapeUnlink (shape : Shape l hashSize home (as ++ n :: bs) hashed free) :
    Shape (listDel l (.nodeLink n)) hashSize home (as ++ bs) hashed free := by
  have ring := shape.linkRing
  have apart := linkFree shape.apart
  rw [List.map_append, List.map_cons] at ring apart
  refine ⟨?_, delOther ring shape.freeRing apart, fun i below => ?_, fun m mem => ?_⟩
  · rw [List.map_append]
    exact ringDel ring
  · refine delOther ring (shape.buckets i below) ?_
    rw [← List.map_cons (f := Cell.nodeLink), ← List.map_append]
    exact plainHash (.inl rfl)
  · refine shape.apart ?_
    rcases List.mem_append.mp mem with before | after
    · exact List.mem_append_left _ before
    · exact List.mem_append_right as (List.mem_cons_of_mem n after)

theorem shapeHash (shape : Shape l hashSize home linked hashed free) (below : home n < hashSize)
    (notHashed : n ∉ hashed) :
    Shape (listAdd l (.nodeHash n) (.bucket (home n))) hashSize home linked (n :: hashed) free := by
  have ring := shape.buckets (home n) below
  refine ⟨addOther ring shape.linkRing (hashPlain (.inl rfl)) (hashNotLinked (.inl rfl)),
    addOther ring shape.freeRing (hashPlain (.inr rfl)) (hashNotLinked (.inr rfl)), fun i small => ?_, shape.apart⟩
  by_cases own : home n = i
  · subst own
    rw [bucketOwn, List.map_cons]
    exact ringAdd ring (hashOutside notHashed)
  · rw [bucketElse own]
    exact addOther ring (shape.buckets i small) (bucketsApart own) (hashOutside notHashed)

theorem bucketSplit : (bucketOf home (as ++ n :: bs) (home n)).map Cell.nodeHash =
    (bucketOf home as (home n)).map .nodeHash ++ .nodeHash n :: (bucketOf home bs (home n)).map .nodeHash := by
  rw [bucketAppend, bucketOwn, List.map_append, List.map_cons]

theorem shapeUnhash (shape : Shape l hashSize home linked (as ++ n :: bs) free) (below : home n < hashSize) :
    Shape (listDel l (.nodeHash n)) hashSize home linked (as ++ bs) free := by
  have ring := shape.buckets (home n) below
  have apartLink : (_ :: (bucketOf home (as ++ n :: bs) (home n)).map _).Disjoint (_ :: linked.map _) :=
    hashPlain (i := home n) (.inl rfl)
  have apartFree : (_ :: (bucketOf home (as ++ n :: bs) (home n)).map _).Disjoint (_ :: free.map _) :=
    hashPlain (i := home n) (.inr rfl)
  rw [bucketSplit] at ring apartLink apartFree
  refine ⟨delOther ring shape.linkRing apartLink, delOther ring shape.freeRing apartFree, fun i small => ?_, shape.apart⟩
  by_cases own : home n = i
  · subst own
    rw [bucketAppend, List.map_append]
    exact ringDel ring
  · have other := shape.buckets i small
    have apart : (_ :: (bucketOf home (as ++ n :: bs) (home n)).map _).Disjoint
      (_ :: (bucketOf home (as ++ n :: bs) i).map _) := bucketsApart own
    have same : bucketOf home (as ++ n :: bs) i = bucketOf home (as ++ bs) i := by
      rw [bucketAppend, bucketElse own, ← bucketAppend]
    rw [bucketSplit] at apart
    rw [same] at other apart
    exact delOther ring other apart

theorem shapeHome {home' : Int → Nat} (shape : Shape l hashSize home linked hashed free)
    (same : ∀ n ∈ hashed, home' n = home n) : Shape l hashSize home' linked hashed free := by
  refine ⟨shape.linkRing, shape.freeRing, fun i below => ?_, shape.apart⟩
  have equal : bucketOf home' hashed i = bucketOf home hashed i :=
    List.filter_congr fun n mem => by rw [same n mem]
  rw [equal]
  exact shape.buckets i below

/-- What clean does to a node: the link cell is taken out a second time, to no effect. -/
theorem unlinkTwice (shape : Shape l hashSize home (n :: linked) (n :: linked) free) (below : home n < hashSize) :
    Shape (listDel (listDel (listDel l (.nodeLink n)) (.nodeHash n)) (.nodeLink n)) hashSize home linked linked free := by
  have front : Shape l hashSize home ([] ++ n :: linked) (n :: linked) free := shape
  have once : Shape (listDel l (.nodeLink n)) hashSize home linked ([] ++ n :: linked) free := shapeUnlink front
  have twice : Shape (listDel (listDel l (.nodeLink n)) (.nodeHash n)) hashSize home linked linked free :=
    shapeUnhash once below
  have ring : Circular l .link ([] ++ .nodeLink n :: linked.map .nodeLink) := shape.linkRing
  have bucket := once.buckets (home n) below
  rw [bucketSplit] at bucket
  have outside : ∀ c, c ∈ Cell.link :: (n :: linked).map .nodeLink →
      c ∉ Cell.bucket (home n) :: (bucketOf home ([] ++ n :: linked) (home n)).map .nodeHash :=
    fun c here there => hashPlain (.inl rfl) there here
  rw [bucketSplit] at outside
  have kept : Bypassed (listDel (listDel l (.nodeLink n)) (.nodeHash n)) (.nodeLink n) := by
    refine bypassedKept bucket (ringBypassed ring) fun c near => outside c ?_
    rw [(delKeeps ring).1, (delKeeps ring).2] at near
    have more : ∀ c, c ∈ Cell.link :: linked.map .nodeLink → c ∈ Cell.link :: (n :: linked).map .nodeLink :=
      fun c mem => List.cons_subset_cons _ (List.subset_cons_self ..) mem
    rcases near with rfl | rfl | rfl
    · exact List.mem_cons_of_mem _ List.mem_cons_self
    · exact more _ (ringAround ring).1
    · exact more _ (ringAround ring).2
  rw [delBypassed kept]
  exact twice

theorem bucketsKeep {head : Cell} (plain : head = .link ∨ head = .freeList) (hashSize : Nat)
    (ring : Circular l head (ns.map .nodeLink)) : Circular (initBuckets l hashSize) head (ns.map .nodeLink) := by
  induction hashSize with
  | zero => exact ring
  | succ i ih =>
    rw [initBuckets, List.range_succ, List.foldl_append]
    refine initOther ih ?_
    rcases plain with rfl | rfl <;> simp

theorem bucketsEmpty {i : Nat} (hashSize : Nat) (below : i < hashSize) :
    Circular (initBuckets l hashSize) (.bucket i) [] := by
  induction hashSize with
  | zero => cases below
  | succ last ih =>
    rw [initBuckets, List.range_succ, List.foldl_append]
    by_cases own : i = last
    · subst own
      exact ringInit ..
    · refine initOther (ih (by omega)) ?_
      simpa using Ne.symm own

theorem shapeClean (shape : Shape l hashSize home [] hashed free) :
    Shape (initListHead (initBuckets l hashSize) .link) hashSize home [] [] free where
  linkRing := ringInit ..
  freeRing := initOther (bucketsKeep (.inr rfl) hashSize shape.freeRing) (by simp)
  buckets _ below := initOther (bucketsEmpty hashSize below) (by simp)
  apart := List.disjoint_nil_left free

def poolNodes (maxSize : Nat) : List Int := (List.range maxSize).map Int.ofNat

theorem poolNodesMem {maxSize : Nat} : n ∈ poolNodes maxSize ↔ 0 ≤ n ∧ n < maxSize := by
  rw [poolNodes, List.mem_map]
  constructor
  · rintro ⟨i, below, rfl⟩
    have small := List.mem_range.mp below
    exact ⟨Int.natCast_nonneg i, Int.ofNat_lt.mpr small⟩
  · rintro ⟨low, high⟩
    exact ⟨n.toNat, List.mem_range.mpr (by omega), Int.toNat_of_nonneg low⟩

theorem poolRing (empty : Circular l .freeList []) (maxSize : Nat) :
    Circular (initPool l maxSize) .freeList ((poolNodes maxSize).map .nodeLink) := by
  induction maxSize with
  | zero => exact empty
  | succ i ih =>
    have fresh : Cell.nodeLink i ∉ Cell.freeList :: (poolNodes i).map .nodeLink :=
      linkOutside (.inr rfl) fun mem => (poolNodesMem.mp mem).2.ne rfl
    rw [initPool, List.range_succ, List.foldl_append, poolNodes, List.range_succ, List.map_append, List.map_append]
    exact ringAddTail ih fresh

theorem poolOther {head : Cell} (empty : Circular l .freeList []) (maxSize : Nat) (ring : Circular l head [])
    (away : head ≠ .freeList) (notNode : ∀ n, head ≠ .nodeLink n) : Circular (initPool l maxSize) head [] := by
  induction maxSize with
  | zero => exact ring
  | succ i ih =>
    have outside : (Cell.freeList :: (poolNodes i).map .nodeLink).Disjoint [head] := by
      refine List.disjoint_singleton.mpr fun mem => ?_
      rcases plainCell mem with same | ⟨m, -, same⟩
      · exact away same
      · exact notNode m same
    rw [initPool, List.range_succ, List.foldl_append]
    exact addTailOther (poolRing empty i) ih outside fun mem => notNode i (List.mem_singleton.mp mem).symm

end

end Bootstrap.HashMaps
