import Bootstrap.MapLinks
import Mathlib.Data.List.Find

/-! What the state of a map says about the nodes on its lists, and how each call changes it. A node
on free_list may have come from new: that a map works does not depend on it. -/
namespace Bootstrap.HashMaps
open CInt ByteLayout IntrusiveList
open Function (update update_self update_of_ne)

/-- What a walk over one bucket relies on: the entry that a key fills names the bucket of the key,
and a hit is a node that was filled alike. -/
structure Laws {κ σ : Type} (keys : Keys κ σ) where
  home : σ → Nat → Nat
  homeStored : ∀ key hashSize, home (keys.store key) hashSize = keys.index key hashSize
  indexBelow : ∀ key hashSize, 0 < hashSize → keys.index key hashSize < hashSize
  hitStored : ∀ key other, keys.hit (keys.store key) other = true ↔ keys.store key = keys.store other

section
variable {κ σ : Type} {keys : Keys κ σ} {laws : Laws keys} {m : MyMap σ} {live free : List Int} {n fresh : Int}
  {difference : Int → Int}

def InPool (m : MyMap σ) (n : Int) : Prop := 0 ≤ n ∧ n < m.maxSize
instance (m : MyMap σ) (n) : Decidable (InPool m n) := by unfold InPool; infer_instance

def homeOf (laws : Laws keys) (m : MyMap σ) (n : Int) : Nat := laws.home (m.entry n) m.hashSize

structure Represents (laws : Laws keys) (m : MyMap σ) (live free : List Int) : Prop where
  sized : 0 < m.hashSize
  shape : Shape m.links m.hashSize (homeOf laws m) live live free
  stored : ∀ n ∈ live, ∃ key, m.entry n = keys.store key
  unique : (live.map m.entry).Nodup
  held : ∀ n, n ∈ live ∨ n ∈ free → InPool m n ∨ n ∈ m.allocated
  outside : ∀ n ∈ m.allocated, ¬ InPool m n
  once : m.allocated.Nodup

structure Loose (m : MyMap σ) (live free : List Int) (n : Int) : Prop where
  notLive : n ∉ live
  notFree : n ∉ free
  held : InPool m n ∨ n ∈ m.allocated

structure Fresh (m : MyMap σ) (fresh : Int) : Prop where
  outside : ¬ InPool m fresh
  notHeld : fresh ∉ m.allocated

def Pooled (difference : Int → Int) (m : MyMap σ) (n : Int) : Prop :=
  0 ≤ poolIndex (difference n) ∧ poolIndex (difference n) < m.maxSize
instance (difference) (m : MyMap σ) (n) : Decidable (Pooled difference m n) := by unfold Pooled; infer_instance

structure Same (m m' : MyMap σ) : Prop where
  num : m'.num = m.num
  hashSize : m'.hashSize = m.hashSize
  maxSize : m'.maxSize = m.maxSize
  entry : m'.entry = m.entry
  val : m'.val = m.val

inductive Taken (allocated : List Int) (fresh : Int) : List Int → Int → List Int → List Int → Prop where
  | reused (n : Int) (free : List Int) : Taken allocated fresh allocated n (n :: free) free
  | created : Taken allocated fresh (fresh :: allocated) fresh [] []

inductive Released (difference : Int → Int) (m : MyMap σ) (n : Int) (free : List Int) : List Int → List Int → Prop where
  | pooled (index : Pooled difference m n) : Released difference m n free m.allocated (n :: free)
  | deleted (index : ¬ Pooled difference m n) (here : n ∈ m.allocated) :
      Released difference m n free (m.allocated.erase n) free

theorem poolSame {m' : MyMap σ} (size : m'.maxSize = m.maxSize) (n : Int) : InPool m' n ↔ InPool m n := by
  rw [InPool, InPool, size]

theorem pooledSame {m' : MyMap σ} (size : m'.maxSize = m.maxSize) (n : Int) :
    Pooled difference m' n ↔ Pooled difference m n := by
  rw [Pooled, Pooled, size]

theorem faithfulSame {m' : MyMap σ} (size : m'.maxSize = m.maxSize) (faithful : ∀ n, InPool m n → difference n = n) :
    ∀ n, InPool m' n → difference n = n := fun n pool => faithful n ((poolSame size n).mp pool)

theorem memMiddle {as bs : List Int} {k : Int} : k ∈ as ++ n :: bs ↔ k = n ∨ k ∈ as ++ bs :=
  List.perm_middle.mem_iff.trans List.mem_cons

/- On the place of a pool node the division loses nothing that the test would see. -/
theorem poolPooled (faithful : ∀ n, InPool m n → difference n = n) (small : m.maxSize < 2 ^ 31) (pool : InPool m n) :
    Pooled difference m n := by
  obtain ⟨low, high⟩ := pool
  have whole : u64 n = n.toNat := by unfold u64; omega
  have index : poolIndex (difference n) = (n.toNat / 48 : Nat) := by
    rw [faithful n ⟨low, high⟩, poolIndex, whole, sizeofNode]
    exact i32Exact (by omega) (by omega)
  unfold Pooled
  rw [index]
  omega

theorem sameNode {k : Int} (rep : Represents laws m live free) (here : n ∈ live) (there : k ∈ live)
    (same : m.entry n = m.entry k) : n = k := List.inj_on_of_nodup_map rep.unique here there same

theorem homeFilled {key : κ} (filled : m.entry n = keys.store key) : homeOf laws m n = keys.index key m.hashSize := by
  rw [homeOf, filled, laws.homeStored]

theorem homeBelow (rep : Represents laws m live free) (here : n ∈ live) : homeOf laws m n < m.hashSize := by
  obtain ⟨key, filled⟩ := rep.stored n here
  rw [homeFilled filled]
  exact laws.indexBelow key m.hashSize rep.sized

theorem initRepresents (memory : Links Cell) (entry : Int → σ) (val : Int → Intptr) (hashSize maxSize : Nat) :
    Represents laws (init hashSize maxSize (constructed memory entry val)) [] (poolNodes maxSize) := by
  have empty (l : Links Cell) : Circular (initListHead l .freeList) .freeList [] := ringInit ..
  refine ⟨Nat.two_pow_pos _, ⟨?_, poolRing (empty _) maxSize, fun i below => ?_, List.disjoint_nil_left _⟩,
    fun n mem => ?_, List.nodup_nil, fun n mem => .inl ?_, fun n mem => ?_, List.nodup_nil⟩
  · have kept (l : Links Cell) (size : Nat) :
        Circular (initBuckets (initListHead l .link) size) .link (([] : List Int).map .nodeLink) :=
      bucketsKeep (.inl rfl) size (ringInit ..)
    refine poolOther (empty _) maxSize (initOther (kept _ _) (by simp)) ?_ ?_ <;> simp
  · refine poolOther (empty _) maxSize (initOther (bucketsEmpty _ below) (by simp)) ?_ ?_ <;> simp
  · cases mem
  · rcases mem with nothing | pool
    · cases nothing
    · exact poolNodesMem.mp pool
  · cases mem

section
variable [DecidableEq σ]

def nodeAt (keys : Keys κ σ) (m : MyMap σ) (live : List Int) (key : κ) : Option Int :=
  live.find? fun n => m.entry n = keys.store key

theorem walkFinds (rep : Represents laws m live free) (key : κ) {fuel : Nat} (enough : live.length < fuel) :
    walkSafe keys m key fuel = some ((nodeAt keys m live key).map .nodeHash) := by
  have ring := rep.shape.buckets _ (laws.indexBelow key m.hashSize rep.sized)
  have short : ((bucketOf (homeOf laws m) live (keys.index key m.hashSize)).map Cell.nodeHash).length < fuel := by
    rw [List.length_map]
    exact (List.length_filter_le ..).trans_lt enough
  have test : ∀ n ∈ live, decide (decide (homeOf laws m n = keys.index key m.hashSize) = true ∧
      hitAt keys m key (.nodeHash n) = true) = decide (m.entry n = keys.store key) := fun n mem => by
    obtain ⟨other, filled⟩ := rep.stored n mem
    have hit : hitAt keys m key (.nodeHash n) = true ↔ m.entry n = keys.store key := by
      rw [filled, ← laws.hitStored, ← filled]
      rfl
    rw [decide_eq_decide, decide_eq_true_iff, hit]
    refine ⟨And.right, fun same => ⟨?_, same⟩⟩
    exact homeFilled same
  rw [walkSafe, forEachSafe, ringSeek ring _ short, List.find?_map, bucketOf, List.find?_filter, nodeAt]
  exact congrArg (fun found => some (found.map Cell.nodeHash)) (List.find?_congr test)

theorem nodeAbsent {key : κ} (absent : nodeAt keys m live key = none) : ∀ n ∈ live, m.entry n ≠ keys.store key :=
  fun n mem same => List.find?_eq_none.mp absent n mem (decide_eq_true same)

theorem nodeFound {key : κ} (found : nodeAt keys m live key = some n) : n ∈ live ∧ m.entry n = keys.store key := by
  have test := List.find?_some found
  exact ⟨List.mem_of_find?_eq_some found, of_decide_eq_true test⟩

theorem findReads (rep : Represents laws m live free) {key : κ} (accepted : keys.refused key = false) {fuel : Nat}
    (enough : live.length < fuel) : find keys fuel m key = some ((nodeAt keys m live key).map m.val) := by
  rw [find, accepted, if_neg Bool.false_ne_true, walkFinds rep key enough]
  cases nodeAt keys m live key <;> rfl

end

theorem releasedSame {m₁ : MyMap σ} {allocated free' : List Int}
    (released : Released difference m₁ n free allocated free') (size : m₁.maxSize = m.maxSize)
    (heap : m₁.allocated = m.allocated) : Released difference m n free allocated free' := by
  have index : Pooled difference m₁ n ↔ Pooled difference m n := pooledSame size n
  cases released with
  | pooled here => exact heap ▸ .pooled (index.mp here)
  | deleted away mem =>
    rw [heap] at mem ⊢
    exact .deleted (fun here => away (index.mpr here)) mem

theorem releasePooled (index : Pooled difference m n) :
    release difference m n = some { m with links := listAdd m.links (.nodeLink n) .freeList } := by
  rw [Pooled] at index
  rw [release, if_pos index]

theorem releaseDeleted (index : ¬ Pooled difference m n) (here : n ∈ m.allocated) :
    release difference m n = some { m with allocated := m.allocated.erase n } := by
  rw [Pooled] at index
  rw [release, if_neg index, if_pos here]

theorem releaseHolds (faithful : ∀ n, InPool m n → difference n = n) (small : m.maxSize < 2 ^ 31)
    (rep : Represents laws m live free) (loose : Loose m live free n) :
    ∃ m' free', release difference m n = some m' ∧ Represents laws m' live free' ∧
      Released difference m n free m'.allocated free' ∧ Same m m' := by
  by_cases index : Pooled difference m n
  · refine ⟨_, n :: free, releasePooled index, ?_, .pooled index, ⟨rfl, rfl, rfl, rfl, rfl⟩⟩
    refine { rep with shape := shapeFree rep.shape loose.notLive loose.notFree, held := fun k mem => ?_ }
    rcases mem with alive | back
    · exact rep.held k (.inl alive)
    · rcases List.mem_cons.mp back with rfl | before
      · exact loose.held
      · exact rep.held k (.inr before)
  · have here : n ∈ m.allocated :=
      loose.held.resolve_left fun pool => index (poolPooled faithful small pool)
    refine ⟨_, free, releaseDeleted index here, ?_, .deleted index here, ⟨rfl, rfl, rfl, rfl, rfl⟩⟩
    refine { rep with
      held := fun k mem => (rep.held k mem).imp_right fun mem' => ?_
      outside := fun k mem => rep.outside k (List.mem_of_mem_erase mem)
      once := rep.once.erase n }
    have other : k ≠ n := fun same => mem.elim (same ▸ loose.notLive) (same ▸ loose.notFree)
    exact (List.mem_erase_of_ne other).mpr mem'

theorem takeHolds (rep : Represents laws m live free) (promised : Fresh m fresh) :
    ∃ n m' free', takeNode m fresh = some (n, m') ∧ Represents laws m' live free' ∧ Loose m' live free' n ∧
      Taken m.allocated fresh m'.allocated n free free' ∧ Same m m' := by
  have ring := rep.shape.freeRing
  have empty := ringEmpty ring
  cases free with
  | nil =>
    refine ⟨fresh, _, [], if_pos empty, ?_, ?_, .created, ⟨rfl, rfl, rfl, rfl, rfl⟩⟩
    · refine { rep with
        held := fun k mem => (rep.held k mem).imp_right (List.mem_cons_of_mem fresh)
        outside := fun k mem => ?_
        once := rep.once.cons promised.notHeld }
      rcases List.mem_cons.mp mem with rfl | before
      · exact promised.outside
      · exact rep.outside k before
    · refine ⟨fun mem => ?_, List.not_mem_nil, .inr List.mem_cons_self⟩
      exact (rep.held fresh (.inl mem)).elim promised.outside promised.notHeld
  | cons n free =>
    have head : m.links.next .freeList = .nodeLink n := ringFirst ring
    have taken : takeNode m fresh = some (n, { m with links := listDel m.links (.nodeLink n) }) := by
      rw [takeNode, empty, if_neg (by simp), head]
      rfl
    refine ⟨n, _, free, taken, ?_, ?_, .reused n free, ⟨rfl, rfl, rfl, rfl, rfl⟩⟩
    · refine { rep with
        shape := shapeTake rep.shape
        held := fun k mem => rep.held k (mem.imp_right (List.mem_cons_of_mem n)) }
    · have once := List.nodup_cons.mp (onceIn ring)
      exact ⟨fun mem => rep.shape.apart mem List.mem_cons_self, once.1, rep.held n (.inr List.mem_cons_self)⟩

theorem placeHolds (rep : Represents laws m live free) (loose : Loose m live free n) {key : κ}
    (absent : ∀ n ∈ live, m.entry n ≠ keys.store key) (val : Intptr) :
    Represents laws (place keys m key val n) (n :: live) free := by
  have kept : ∀ k ∈ live, update m.entry n (keys.store key) k = m.entry k :=
    fun k mem => update_of_ne (ne_of_mem_of_not_mem mem loose.notLive) ..
  have own : homeOf laws (place keys m key val n) n = keys.index key m.hashSize := by
    have filled : (place keys m key val n).entry n = keys.store key := update_self ..
    exact homeFilled filled
  have below : homeOf laws (place keys m key val n) n < m.hashSize :=
    own ▸ laws.indexBelow key m.hashSize rep.sized
  have moved := shapeHome rep.shape fun k mem => congrArg (laws.home · m.hashSize) (kept k mem)
  have hashed := shapeHash moved below loose.notLive
  change Shape (listAdd m.links _ (.bucket (homeOf laws (place keys m key val n) n))) _ _ _ _ _ at hashed
  rw [own] at hashed
  refine ⟨rep.sized, shapeLink hashed loose.notLive loose.notFree, fun k mem => ?_, ?_, fun k mem => ?_, rep.outside,
    rep.once⟩
  · rcases List.mem_cons.mp mem with rfl | before
    · exact ⟨key, update_self ..⟩
    · obtain ⟨other, filled⟩ := rep.stored k before
      exact ⟨other, (kept k before).trans filled⟩
  · have same : live.map (update m.entry n (keys.store key)) = live.map m.entry := List.map_congr_left kept
    have new : keys.store key ∉ live.map m.entry := fun mem => by
      obtain ⟨k, here, filled⟩ := List.mem_map.mp mem
      exact absent k here filled
    change ((n :: live).map (update m.entry n (keys.store key))).Nodup
    rw [List.map_cons, update_self, same]
    exact rep.unique.cons new
  · rcases mem with alive | back
    · rcases List.mem_cons.mp alive with rfl | before
      · exact loose.held
      · exact rep.held k (.inl before)
    · exact rep.held k (.inr back)

theorem unlinkHolds {as bs : List Int} (rep : Represents laws m (as ++ n :: bs) free) :
    Represents laws { m with links := listDel (listDel m.links (.nodeHash n)) (.nodeLink n) } (as ++ bs) free ∧
      Loose m (as ++ bs) free n := by
  have here : n ∈ as ++ n :: bs := List.mem_append_right as List.mem_cons_self
  have fewer : (as ++ bs).Sublist (as ++ n :: bs) := .append_left (List.sublist_cons_self n bs) as
  have below := homeBelow rep here
  have once : n ∉ as ++ bs :=
    (List.nodup_cons.mp (List.perm_middle.nodup_iff.mp (rep.unique.of_map _))).1
  refine ⟨?_, once, fun back => rep.shape.apart here back, rep.held n (.inl here)⟩
  exact { rep with
    shape := shapeUnlink (shapeUnhash rep.shape below)
    stored := fun k mem => rep.stored k (fewer.subset mem)
    unique := rep.unique.sublist (fewer.map _)
    held := fun k mem => rep.held k (mem.imp_left fun alive => fewer.subset alive) }

theorem setReplaces (rep : Represents laws m live free) [DecidableEq σ] {key : κ} (accepted : keys.refused key = false)
    {fuel : Nat} (enough : live.length < fuel) (found : nodeAt keys m live key = some n) (val : Intptr) (fresh : Int) :
    set keys fuel m key val fresh = some (keys.replaced, { m with val := update m.val n val }) := by
  rw [set, accepted, if_neg Bool.false_ne_true, walkFinds rep key enough, found]
  rfl

theorem valHolds (rep : Represents laws m live free) (val : Int → Intptr) :
    Represents laws { m with val } live free :=
  ⟨rep.sized, rep.shape, rep.stored, rep.unique, rep.held, rep.outside, rep.once⟩

theorem setAdds (rep : Represents laws m live free) [DecidableEq σ] {key : κ} (accepted : keys.refused key = false)
    (room : keys.room key = true) {fuel : Nat} (enough : live.length < fuel) (absent : nodeAt keys m live key = none)
    (val : Intptr) (promised : Fresh m fresh) :
    ∃ n m' free', set keys fuel m key val fresh = some (true, m') ∧ Represents laws m' (n :: live) free' ∧ n ∉ live ∧
      Taken m.allocated fresh m'.allocated n free free' ∧ m'.maxSize = m.maxSize ∧
      m'.entry = update m.entry n (keys.store key) ∧ m'.val = update m.val n val ∧ m'.num = i32 (m.num + 1) := by
  obtain ⟨n, taken, free', done, rep', loose, from_, same⟩ := takeHolds rep promised
  have absent' : ∀ k ∈ live, taken.entry k ≠ keys.store key := same.entry ▸ nodeAbsent absent
  refine ⟨n, place keys taken key val n, free', ?_, placeHolds rep' loose absent' val, loose.notLive, from_,
    same.maxSize, ?_, ?_, ?_⟩
  · rw [set, accepted, if_neg Bool.false_ne_true, walkFinds rep key enough, absent, Option.bind_some, setFound]
    simp [done, room]
  · exact congrArg (update · n (keys.store key)) same.entry
  · exact congrArg (update · n val) same.val
  · exact congrArg (fun num => i32 (num + 1)) same.num

theorem setNoRoom (rep : Represents laws m live free) [DecidableEq σ] {key : κ} (accepted : keys.refused key = false)
    (room : keys.room key = false) {fuel : Nat} (enough : live.length < fuel) (absent : nodeAt keys m live key = none)
    (val : Intptr) (promised : Fresh m fresh) : set keys fuel m key val fresh = none := by
  obtain ⟨n, taken, free', done, -⟩ := takeHolds rep promised
  rw [set, accepted, if_neg Bool.false_ne_true, walkFinds rep key enough, absent, Option.bind_some, setFound]
  simp [done, room]

theorem delMisses (rep : Represents laws m live free) [DecidableEq σ] {key : κ} (accepted : keys.refused key = false)
    {fuel : Nat} (enough : live.length < fuel) (absent : nodeAt keys m live key = none) :
    del keys difference fuel m key = some (false, m) := by
  rw [del, accepted, if_neg Bool.false_ne_true, walkFinds rep key enough, absent]
  rfl

theorem delRemoves (faithful : ∀ n, InPool m n → difference n = n) (small : m.maxSize < 2 ^ 31)
    {as bs : List Int} (rep : Represents laws m (as ++ n :: bs) free) [DecidableEq σ] {key : κ}
    (accepted : keys.refused key = false) {fuel : Nat} (enough : (as ++ n :: bs).length < fuel)
    (found : nodeAt keys m (as ++ n :: bs) key = some n) :
    ∃ m' free', del keys difference fuel m key = some (true, m') ∧ Represents laws m' (as ++ bs) free' ∧
      Released difference m n free m'.allocated free' ∧ m'.maxSize = m.maxSize ∧ m'.entry = m.entry ∧ m'.val = m.val ∧
      m'.num = i32 (m.num - 1) := by
  obtain ⟨rep', loose⟩ := unlinkHolds rep
  obtain ⟨m', free', done, rep'', released, same⟩ :=
    releaseHolds (m := { m with links := listDel (listDel m.links (.nodeHash n)) (.nodeLink n) }) faithful small rep'
      ⟨loose.notLive, loose.notFree, loose.held⟩
  refine ⟨{ m' with num := i32 (m'.num - 1) }, free', ?_, ⟨rep''.sized, rep''.shape, rep''.stored, rep''.unique,
    rep''.held, rep''.outside, rep''.once⟩, ?_, same.maxSize, same.entry, same.val,
    congrArg (fun num => i32 (num - 1)) same.num⟩
  · rw [del, accepted, if_neg Bool.false_ne_true, walkFinds rep key enough, found, Option.map_some, Option.bind_some,
      Option.bind_some, hashEntry, delFound, done, Option.map_some]
  · exact releasedSame released rfl rfl

inductive Cleaned (difference : Int → Int) : MyMap σ → List Int → List Int → MyMap σ → List Int → Prop where
  | done (m : MyMap σ) (free : List Int) : Cleaned difference m [] free m free
  | node {m m₁ m' : MyMap σ} {n : Int} {live free free₁ free' : List Int}
      (released : Released difference m n free m₁.allocated free₁) (size : m₁.maxSize = m.maxSize) (rest : Cleaned difference m₁ live free₁ m' free') :
      Cleaned difference m (n :: live) free m' free'

theorem popHolds (rep : Represents laws m (n :: live) free) :
    Represents laws { m with links := listDel (listDel (listDel m.links (.nodeLink n)) (.nodeHash n)) (.nodeLink n) }
      live free ∧ Loose m live free n := by
  have front : Represents laws m ([] ++ n :: live) free := rep
  obtain ⟨rep', loose⟩ := unlinkHolds front
  have below := homeBelow rep List.mem_cons_self
  exact ⟨{ rep' with shape := unlinkTwice rep.shape below }, loose⟩

theorem cleanLoopHolds (faithful : ∀ n, InPool m n → difference n = n) (small : m.maxSize < 2 ^ 31)
    (rep : Represents laws m live free) {fuel : Nat} (enough : live.length < fuel) :
    ∃ m' free', cleanLoop difference fuel m = some m' ∧ Represents laws m' [] free' ∧
      Cleaned difference m live free m' free' ∧ Same m m' := by
  induction live generalizing m free fuel with
  | nil =>
    obtain ⟨fuel, rfl⟩ := Nat.exists_eq_succ_of_ne_zero (Nat.ne_zero_of_lt enough)
    exact ⟨m, free, if_pos (ringEmpty rep.shape.linkRing), rep, .done m free, ⟨rfl, rfl, rfl, rfl, rfl⟩⟩
  | cons n live ih =>
    obtain ⟨fuel, rfl⟩ := Nat.exists_eq_succ_of_ne_zero (Nat.ne_zero_of_lt enough)
    have busy : listEmpty m.links .link = false := ringEmpty rep.shape.linkRing
    have head : m.links.next .link = .nodeLink n := ringFirst rep.shape.linkRing
    obtain ⟨rep', loose⟩ := popHolds rep
    obtain ⟨m₁, free₁, released, rep₁, way, same⟩ :=
      releaseHolds (m := { m with
        links := listDel (listDel (listDel m.links (.nodeLink n)) (.nodeHash n)) (.nodeLink n) }) faithful small rep'
        ⟨loose.notLive, loose.notFree, loose.held⟩
    have size : m₁.maxSize = m.maxSize := same.maxSize
    obtain ⟨m', free', done, rep'', cleaned, same'⟩ :=
      ih (faithfulSame size faithful) (size ▸ small) rep₁ (Nat.lt_of_succ_lt_succ enough)
    refine ⟨m', free', ?_, rep'', .node ?_ size cleaned, ⟨same'.num.trans same.num, same'.hashSize.trans same.hashSize,
      same'.maxSize.trans same.maxSize, same'.entry.trans same.entry, same'.val.trans same.val⟩⟩
    · rw [cleanLoop, busy, if_neg Bool.false_ne_true, cleanNode, head, linkEntry, Option.bind_some, released,
        Option.bind_some, done]
    · exact releasedSame way rfl rfl

theorem cleanHolds (faithful : ∀ n, InPool m n → difference n = n) (small : m.maxSize < 2 ^ 31)
    (rep : Represents laws m live free) {fuel : Nat} (enough : live.length < fuel) :
    ∃ m' free' last, clean difference fuel m = some m' ∧ Represents laws m' [] free' ∧
      Cleaned difference m live free last free' ∧ m'.allocated = last.allocated ∧ m'.maxSize = m.maxSize ∧ m'.num = 0 := by
  obtain ⟨last, free', done, rep', cleaned, same⟩ := cleanLoopHolds faithful small rep enough
  refine ⟨{ last with links := initListHead (initBuckets last.links last.hashSize) .link, num := 0 }, free', last, ?_, ?_,
    cleaned, rfl, same.maxSize, rfl⟩
  · rw [clean, done]
    rfl
  · exact { rep' with shape := shapeClean rep'.shape }

/- for( node = first(); node; node = next( node ) ) -/
def visitFrom (m : MyMap σ) : Nat → Option Int → Option (List Int)
  | _, none => some []
  | 0, some _ => none
  | rounds + 1, some node => (next m node).bind fun after => (visitFrom m rounds after).map (node :: ·)

def visit (m : MyMap σ) (rounds : Nat) : Option (List Int) := (first m).bind (visitFrom m rounds)

theorem firstReads (rep : Represents laws m live free) : first m = some live.head? := by
  have ring := rep.shape.linkRing
  rw [first, ringEmpty ring]
  cases live with
  | nil => rfl
  | cons n live =>
    have head : m.links.next .link = .nodeLink n := ringFirst ring
    rw [head]
    rfl

theorem nextReads {as bs : List Int} (rep : Represents laws m (as ++ n :: bs) free) : next m n = some bs.head? := by
  have ring := rep.shape.linkRing
  rw [List.map_append, List.map_cons] at ring
  rw [next, ringNext ring]
  cases bs with
  | nil => rfl
  | cons k bs => rfl

theorem visitSuffix {as bs : List Int} (rep : Represents laws m (as ++ bs) free) {rounds : Nat}
    (enough : bs.length ≤ rounds) : visitFrom m rounds bs.head? = some bs := by
  induction bs generalizing as rounds with
  | nil => cases rounds <;> rfl
  | cons n bs ih =>
    obtain ⟨rounds, rfl⟩ := Nat.exists_eq_add_of_le' (Nat.le_trans (Nat.succ_pos bs.length) enough)
    have later : Represents laws m ((as ++ [n]) ++ bs) free := by rwa [List.append_assoc]
    have rest := ih later (Nat.le_of_succ_le_succ enough)
    rw [List.head?_cons, visitFrom, nextReads rep, Option.bind_some, rest]
    rfl

end

end Bootstrap.HashMaps
