import Bootstrap.MapCalls

/-! Where removed nodes go. Whether a node is the pool's is not recorded: it is computed from its
distance to the pool, and the distance is counted in nodes and divided by their size once more. -/
namespace Bootstrap.HashMaps
open CInt IntrusiveList

section
variable {κ σ : Type}

def OnList (m : MyMap σ) (head : Cell) (n : Int) : Prop :=
  ∃ ns : List Int, Circular m.links head (ns.map .nodeLink) ∧ n ∈ ns

def Removes : Call κ → Prop
  | .del _ => True
  | .clean => True
  | _ => False

/-- A node that is on link before and not after is on free_list if it is the pool's, and deleted if
it came from new. -/
structure Removal (m m' : MyMap σ) : Prop where
  freed : ∀ n, OnList m .link n → ¬ OnList m' .link n → (OnList m' .freeList n ↔ InPool m n)
  deleted : ∀ n, OnList m .link n → ¬ OnList m' .link n → (n ∈ m.allocated ∧ n ∉ m'.allocated ↔ n ∈ m.allocated)

structure Owned (calls : Calls κ σ) (m : MyMap σ) : Prop where
  pooled : ∀ n, OnList m .freeList n → InPool m n
  removed : ∀ call, Removes call → ∃ enough answer m',
    (∀ fuel, enough ≤ fuel → perform calls id fuel m call = some (answer, m')) ∧ Removal m m'
  destroyed : ∃ enough m', (∀ fuel, enough ≤ fuel → destroy id fuel m = some m') ∧ m'.allocated = []

def PlacedApart (m : MyMap σ) : Call κ → Prop
  | .set _ _ fresh => ¬ Pooled id m fresh
  | _ => True

/-- Heap nodes lie whole nodes away from mem, so the difference of the pointers is their place. -/
def OwnsNodes (calls : Calls κ σ) (placed : MyMap σ → Call κ → Prop) : Prop :=
  ∀ (memory : Links Cell) (entry : Int → σ) (val : Int → Intptr) (hashSize maxSize : Nat),
    1 ≤ hashSize → hashSize ≤ 2 ^ 30 → maxSize < 2 ^ 31 →
    ∀ past m, Reached calls id (fun m call => Promised m call ∧ placed m call)
      (init hashSize maxSize (constructed memory entry val)) past m → Owned calls m

variable {keys : Keys κ σ} {laws : Laws keys} {m : MyMap σ} {live free : List Int} {n : Int}

theorem onLink (rep : Represents laws m live free) : OnList m .link n ↔ n ∈ live := by
  constructor
  · rintro ⟨ns, ring, mem⟩
    have same := ringUnique ring rep.shape.linkRing
    rwa [List.map_injective_iff.mpr (fun _ _ => Cell.nodeLink.inj) same] at mem
  · exact fun mem => ⟨live, rep.shape.linkRing, mem⟩

theorem onFree (rep : Represents laws m live free) : OnList m .freeList n ↔ n ∈ free := by
  constructor
  · rintro ⟨ns, ring, mem⟩
    have same := ringUnique ring rep.shape.freeRing
    rwa [List.map_injective_iff.mpr (fun _ _ => Cell.nodeLink.inj) same] at mem
  · exact fun mem => ⟨free, rep.shape.freeRing, mem⟩

/-! The invariant: free_list holds pool nodes, and what came from new is live and told apart. -/

structure Owns (m : MyMap σ) (live free : List Int) : Prop where
  pooled : ∀ n ∈ free, InPool m n
  heap : ∀ n ∈ m.allocated, n ∈ live ∧ ¬ Pooled id m n

theorem releasedHome {allocated free' : List Int} (released : Released id m n free allocated free')
    (held : InPool m n ∨ n ∈ m.allocated) (outside : ∀ n ∈ m.allocated, ¬ InPool m n)
    (apart : n ∈ m.allocated → ¬ Pooled id m n) (once : m.allocated.Nodup) :
    allocated.Nodup ∧ (∀ k, k ∈ allocated ↔ k ≠ n ∧ k ∈ m.allocated) ∧
      ∀ k, k ∈ free' ↔ k = n ∧ InPool m n ∨ k ∈ free := by
  cases released with
  | pooled index =>
    have away : n ∉ m.allocated := fun here => apart here index
    have inside := held.resolve_right away
    refine ⟨once, fun k => ⟨fun mem => ⟨ne_of_mem_of_not_mem mem away, mem⟩, And.right⟩, fun k => ?_⟩
    rw [List.mem_cons, and_iff_left inside]
  | deleted index here =>
    refine ⟨once.erase n, fun k => once.mem_erase_iff, fun k => ?_⟩
    rw [or_iff_right fun mine => outside n here mine.2]

theorem removalOf {m' : MyMap σ} {live' free' : List Int} (rep : Represents laws m live free)
    (rep' : Represents laws m' live' free')
    (freed : ∀ n ∈ live, n ∉ live' → (n ∈ free' ↔ InPool m n))
    (deleted : ∀ n ∈ live, n ∉ live' → n ∉ m'.allocated) : Removal m m' := by
  refine ⟨fun n before after => ?_, fun n before after => and_iff_left_of_imp fun _ => ?_⟩
  · rw [onFree rep']
    exact freed n ((onLink rep).mp before) fun mem => after ((onLink rep').mpr mem)
  · exact deleted n ((onLink rep).mp before) fun mem => after ((onLink rep').mpr mem)

theorem removalNone (rep : Represents laws m live free) : Removal m m :=
  removalOf rep rep (fun _ mem away => absurd mem away) fun _ mem away => absurd mem away

theorem delOwns {as bs : List Int} (rep : Represents laws m (as ++ n :: bs) free) (owns : Owns m (as ++ n :: bs) free)
    {m' : MyMap σ} {free' : List Int} (rep' : Represents laws m' (as ++ bs) free') (size : m'.maxSize = m.maxSize)
    (released : Released id m n free m'.allocated free') : Owns m' (as ++ bs) free' ∧ Removal m m' := by
  have here : n ∈ as ++ n :: bs := List.mem_append_right as List.mem_cons_self
  have only : ∀ k ∈ as ++ n :: bs, k ∉ as ++ bs → k = n := fun k mem away => (memMiddle.mp mem).resolve_right away
  obtain ⟨-, heap, back⟩ :=
    releasedHome released (rep.held n (.inl here)) rep.outside (fun heap => (owns.heap n heap).2) rep.once
  refine ⟨⟨fun k mem => ?_, fun k mem => ?_⟩, removalOf rep rep' (fun k mem gone => ?_) fun k mem gone => ?_⟩
  · rw [poolSame size]
    rcases (back k).mp mem with ⟨rfl, inside⟩ | before
    · exact inside
    · exact owns.pooled k before
  · obtain ⟨other, before⟩ := (heap k).mp mem
    rw [pooledSame size]
    exact ⟨(memMiddle.mp (owns.heap k before).1).resolve_left other, (owns.heap k before).2⟩
  · have same := only k mem gone
    subst same
    rw [back, or_iff_left (fun mem => rep.shape.apart here mem), and_iff_right rfl]
  · rw [heap]
    exact fun kept => kept.1 (only k mem gone)

theorem cleanedHome {last : MyMap σ} {free' : List Int} (cleaned : Cleaned id m live free last free')
    (heap : ∀ n ∈ m.allocated, n ∈ live ∧ ¬ Pooled id m n) (held : ∀ n ∈ live, InPool m n ∨ n ∈ m.allocated)
    (outside : ∀ n ∈ m.allocated, ¬ InPool m n) (once : m.allocated.Nodup) (distinct : live.Nodup) :
    last.allocated = [] ∧ ∀ n, n ∈ free' ↔ n ∈ live ∧ InPool m n ∨ n ∈ free := by
  induction cleaned with
  | done m free =>
    refine ⟨List.eq_nil_iff_forall_not_mem.mpr fun n mem => List.not_mem_nil (heap n mem).1, fun n => ?_⟩
    simp
  | @node m m₁ m' n live free free₁ free' released size rest ih =>
    obtain ⟨notLater, distinct'⟩ := List.nodup_cons.mp distinct
    obtain ⟨once', heap', back⟩ :=
      releasedHome released (held n List.mem_cons_self) outside (fun mem => (heap n mem).2) once
    have later : ∀ k ∈ m₁.allocated, k ∈ live ∧ ¬ Pooled id m₁ k := fun k mem => by
      obtain ⟨other, before⟩ := (heap' k).mp mem
      rw [pooledSame size]
      exact ⟨(List.mem_cons.mp (heap k before).1).resolve_left other, (heap k before).2⟩
    have held' : ∀ k ∈ live, InPool m₁ k ∨ k ∈ m₁.allocated := fun k mem => by
      rw [poolSame size, heap', and_iff_right (ne_of_mem_of_not_mem mem notLater)]
      exact held k (List.mem_cons_of_mem n mem)
    have outside' : ∀ k ∈ m₁.allocated, ¬ InPool m₁ k := fun k mem => by
      rw [poolSame size]
      exact outside k ((heap' k).mp mem).2
    obtain ⟨empty, freed⟩ := ih later held' outside' once' distinct'
    refine ⟨empty, fun k => ?_⟩
    rw [freed, back, poolSame size, List.mem_cons]
    constructor
    · rintro (⟨alive, inside⟩ | ⟨rfl, inside⟩ | before)
      · exact .inl ⟨.inr alive, inside⟩
      · exact .inl ⟨.inl rfl, inside⟩
      · exact .inr before
    · rintro (⟨rfl | alive, inside⟩ | before)
      · exact .inr (.inl ⟨rfl, inside⟩)
      · exact .inl ⟨alive, inside⟩
      · exact .inr (.inr before)

theorem cleanOwns (rep : Represents laws m live free) (owns : Owns m live free) {m' last : MyMap σ} {free' : List Int}
    (rep' : Represents laws m' [] free') (size : m'.maxSize = m.maxSize) (cleaned : Cleaned id m live free last free')
    (same : m'.allocated = last.allocated) : m'.allocated = [] ∧ Owns m' [] free' ∧ Removal m m' := by
  obtain ⟨empty, freed⟩ := cleanedHome cleaned owns.heap (fun n mem => rep.held n (.inl mem)) rep.outside rep.once
    (rep.unique.of_map _)
  have nothing : m'.allocated = [] := same.trans empty
  refine ⟨nothing, ⟨fun k mem => ?_, fun k mem => ?_⟩, removalOf rep rep' (fun k mem _ => ?_) fun k _ _ => ?_⟩
  · rw [poolSame size]
    rcases (freed k).mp mem with ⟨-, inside⟩ | before
    · exact inside
    · exact owns.pooled k before
  · rw [nothing] at mem
    cases mem
  · rw [freed, and_iff_right mem, or_iff_left (fun back => rep.shape.apart mem back)]
  · rw [nothing]
    exact List.not_mem_nil

theorem takenFrom {allocated allocated' free' : List Int} {fresh : Int}
    (taken : Taken allocated fresh allocated' n free free') :
    (∀ k ∈ free', k ∈ free) ∧ ∀ k ∈ allocated', k ∈ allocated ∨ k = n ∧ k = fresh := by
  cases taken with
  | reused n free => exact ⟨fun k mem => List.mem_cons_of_mem n mem, fun k mem => .inl mem⟩
  | created =>
    refine ⟨fun k mem => mem, fun k mem => ?_⟩
    rcases List.mem_cons.mp mem with rfl | before
    · exact .inr ⟨rfl, rfl⟩
    · exact .inl before

variable [DecidableEq σ] {fuel : Nat}

theorem setCallOwns (rep : Represents laws m live free) (owns : Owns m live free) (enough : live.length < fuel) {key : κ}
    {val : Intptr} {fresh : Int} (promised : Fresh m fresh) (placed : ¬ Pooled id m fresh) {answer : Bool} {m' : MyMap σ}
    (done : set keys fuel m key val fresh = some (answer, m')) :
    m'.maxSize = m.maxSize ∧ ∃ live' free', Represents laws m' live' free' ∧ Owns m' live' free' := by
  cases accepted : keys.refused key with
  | true =>
    rw [set, if_pos accepted] at done
    cases done
    exact ⟨rfl, live, free, rep, owns⟩
  | false =>
    cases at_ : nodeAt keys m live key with
    | some n =>
      rw [setReplaces rep accepted enough at_] at done
      cases done
      exact ⟨rfl, live, free, valHolds rep _, ⟨owns.pooled, owns.heap⟩⟩
    | none =>
      cases room : keys.room key with
      | false =>
        rw [setNoRoom rep accepted room enough at_ val promised] at done
        cases done
      | true =>
        obtain ⟨n, made, free', adds, rep', -, taken, size, -⟩ := setAdds rep accepted room enough at_ val promised
        rw [adds] at done
        obtain ⟨-, rfl⟩ := Prod.mk.inj (Option.some.inj done)
        obtain ⟨fewer, heap⟩ := takenFrom taken
        refine ⟨size, n :: live, free', rep', fun k mem => ?_, fun k mem => ?_⟩
        · rw [poolSame size]
          exact owns.pooled k (fewer k mem)
        · rw [pooledSame size]
          rcases heap k mem with before | ⟨rfl, rfl⟩
          · exact ⟨List.mem_cons_of_mem n (owns.heap k before).1, (owns.heap k before).2⟩
          · exact ⟨List.mem_cons_self, placed⟩

theorem removesOwns (rep : Represents laws m live free) (owns : Owns m live free) (small : m.maxSize < 2 ^ 31)
    (enough : live.length < fuel) {call : Call κ} (removes : Removes call) :
    ∃ answer m' live' free', perform (callsOf keys) id fuel m call = some (answer, m') ∧ m'.maxSize = m.maxSize ∧
      Represents laws m' live' free' ∧ Owns m' live' free' ∧ Removal m m' := by
  have faithful : ∀ n, InPool m n → id n = n := fun _ _ => rfl
  cases call with
  | set key val fresh => cases removes
  | find key => cases removes
  | clean =>
    obtain ⟨m', free', last, done, rep', cleaned, same, size, -⟩ := cleanHolds faithful small rep enough
    obtain ⟨-, owns', removal⟩ := cleanOwns rep owns rep' size cleaned same
    refine ⟨.nothing, m', [], free', ?_, size, rep', owns', removal⟩
    rw [perform, done]
    rfl
  | del key =>
    have kept (answer : Bool) (done : del keys id fuel m key = some (answer, m)) :
        perform (callsOf keys) id fuel m (.del key) = some (.told answer, m) := by
      dsimp only [perform, callsOf]
      rw [done]
      rfl
    cases accepted : keys.refused key with
    | true => exact ⟨_, m, live, free, kept false (if_pos accepted), rfl, rep, owns, removalNone rep⟩
    | false =>
      cases at_ : nodeAt keys m live key with
      | none => exact ⟨_, m, live, free, kept false (delMisses rep accepted enough at_), rfl, rep, owns, removalNone rep⟩
      | some n =>
        obtain ⟨as, bs, rfl⟩ := List.append_of_mem (nodeFound at_).1
        obtain ⟨m', free', done, rep', released, size, -⟩ := delRemoves faithful small rep accepted enough at_
        obtain ⟨owns', removal⟩ := delOwns rep owns rep' size released
        refine ⟨.told true, m', as ++ bs, free', ?_, size, rep', owns', removal⟩
        dsimp only [perform, callsOf]
        rw [done]
        rfl

theorem callOwns (rep : Represents laws m live free) (owns : Owns m live free) (small : m.maxSize < 2 ^ 31)
    {call : Call κ} (promised : Promised m call) (placed : PlacedApart m call) {answer : Answer} {m' : MyMap σ}
    (done : perform (callsOf keys) id fuel m call = some (answer, m')) :
    m'.maxSize = m.maxSize ∧ ∃ live' free', Represents laws m' live' free' ∧ Owns m' live' free' := by
  have enough := Nat.lt_of_lt_of_le (Nat.lt_succ_self live.length) (Nat.le_max_right fuel _)
  have more := performMore (Nat.le_max_left fuel live.length.succ) done
  have removing (removes : Removes call) :
      m'.maxSize = m.maxSize ∧ ∃ live' free', Represents laws m' live' free' ∧ Owns m' live' free' := by
    obtain ⟨answer', after, live', free', returned, size, rep', owns', -⟩ := removesOwns rep owns small enough removes
    rw [returned] at more
    obtain ⟨-, rfl⟩ := Prod.mk.inj (Option.some.inj more)
    exact ⟨size, live', free', rep', owns'⟩
  cases call with
  | set key val fresh =>
    obtain ⟨⟨told, after⟩, returned, same⟩ := Option.map_eq_some_iff.mp more
    obtain ⟨-, rfl⟩ := Prod.mk.inj same
    exact setCallOwns rep owns enough promised placed returned
  | find key =>
    obtain ⟨found, -, same⟩ := Option.map_eq_some_iff.mp more
    obtain ⟨-, rfl⟩ := Prod.mk.inj same
    exact ⟨rfl, live, free, rep, owns⟩
  | del key => exact removing trivial
  | clean => exact removing trivial

theorem reachedOwns {start : MyMap σ} {past : List (Call κ)} (begun : Represents laws start [] free)
    (owns : Owns start [] free) (small : start.maxSize < 2 ^ 31)
    (run : Reached (callsOf keys) id (fun m call => Promised m call ∧ PlacedApart m call) start past m) :
    m.maxSize = start.maxSize ∧ ∃ live free, Represents laws m live free ∧ Owns m live free := by
  induction run with
  | start => exact ⟨rfl, [], free, begun, owns⟩
  | step before met done ih =>
    obtain ⟨size, live, free, rep, owns'⟩ := ih
    obtain ⟨size', after⟩ := callOwns rep owns' (size ▸ small) met.1 met.2 done
    exact ⟨size'.trans size, after⟩

theorem ownedOf (rep : Represents laws m live free) (owns : Owns m live free) (small : m.maxSize < 2 ^ 31) :
    Owned (callsOf keys) m where
  pooled n mem := owns.pooled n ((onFree rep).mp mem)
  removed call removes := by
    obtain ⟨answer, m', -, -, done, -, -, -, removal⟩ := removesOwns rep owns small (Nat.lt_succ_self live.length) removes
    exact ⟨live.length + 1, answer, m', fun fuel enough => performMore enough done, removal⟩
  destroyed := by
    obtain ⟨m', free', last, done, rep', cleaned, same, size, -⟩ :=
      cleanHolds (fun _ _ => rfl) small rep (Nat.lt_succ_self live.length)
    obtain ⟨looped, loop, rest⟩ := Option.map_eq_some_iff.mp done
    refine ⟨live.length + 1, m', fun fuel enough => ?_, (cleanOwns rep owns rep' size cleaned same).1⟩
    exact Option.map_eq_some_iff.mpr ⟨looped, cleanLoopMore enough loop, rest⟩

theorem ownsAll (laws : Laws keys) : OwnsNodes (callsOf keys) PlacedApart := by
  intro memory entry val hashSize maxSize _ _ small past m run
  have begun : Represents laws (init hashSize maxSize (constructed memory entry val)) [] (poolNodes maxSize) :=
    initRepresents ..
  have owns : Owns (init hashSize maxSize (constructed memory entry val)) [] (poolNodes maxSize) :=
    ⟨fun n mem => poolNodesMem.mp mem, fun n mem => absurd mem List.not_mem_nil⟩
  obtain ⟨size, live, free, rep, owns'⟩ := reachedOwns begun owns small run
  exact ownedOf rep owns' (size ▸ small)

end

theorem nodesOwned (signed : Bool) :
    OwnsNodes MyMap32.calls PlacedApart ∧ OwnsNodes (MyMapStr.calls signed) PlacedApart := by
  constructor
  · rw [MyMap32.callsSame]
    exact ownsAll MyMap32.laws
  · rw [MyMapStr.callsSame]
    exact ownsAll (MyMapStr.laws signed)

/- A pool of one node, and a heap node 48 places behind it. -/
theorem sampleOwned : ∃ m, Owned MyMap32.calls m ∧ m.allocated = [48] :=
  ⟨_, (nodesOwned true).1 ⟨id, id⟩ (fun _ => 0) (fun _ => 0) 1 1 le_rfl (by decide) (by decide)
    [.set 3 30 48, .set 1 10 48] _
    (.step (.step .start ⟨⟨by decide, by decide⟩, show ¬ Pooled _ _ _ by decide⟩
        (show perform MyMap32.calls id 3 _ _ = some (_, _) from rfl))
      ⟨⟨by decide, by decide⟩, show ¬ Pooled _ _ _ by decide⟩
      (show perform MyMap32.calls id 3 _ _ = some (_, _) from rfl)), rfl⟩

/- The heap node lies two places behind mem: 2 / 48 is the place of the one pool node. -/
theorem heapNodeKept :
    ¬ (OwnsNodes MyMap32.calls (fun _ _ => True) ∧ ∀ signed, OwnsNodes (MyMapStr.calls signed) fun _ _ => True) := by
  intro ⟨claim, _⟩
  have owned := claim ⟨id, id⟩ (fun _ => 0) (fun _ => 0) 1 1 le_rfl (by decide) (by decide)
    [.del 3, .set 3 30 2, .set 1 10 2] _
    (.step (.step (.step .start ⟨⟨by decide, by decide⟩, trivial⟩
          (show perform MyMap32.calls id 3 _ _ = some (_, _) from rfl))
        ⟨⟨by decide, by decide⟩, trivial⟩ (show perform MyMap32.calls id 3 _ _ = some (_, _) from rfl))
      ⟨trivial, trivial⟩ (show perform MyMap32.calls id 3 _ _ = some (_, _) from rfl))
  have outside := owned.pooled 2 ⟨[2], ⟨by decide, .cons_cons ⟨rfl, rfl⟩ (.cons_cons ⟨rfl, rfl⟩ (.singleton _))⟩, by decide⟩
  exact absurd outside (by decide)

end Bootstrap.HashMaps
