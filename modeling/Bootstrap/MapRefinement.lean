import Bootstrap.MapCalls
import Mathlib.Data.List.Forall2

/-! MyMap32 and MyMapStr against a finite map: what any sequence of calls leaves behind, and what the
next call answers. -/
namespace Bootstrap.HashMaps
open CInt ByteLayout IntrusiveList
open Function (update update_self update_of_ne)

section
variable {κ σ : Type}

def contents [DecidableEq κ] : List (Call κ) → κ → Option Intptr
  | [], _ => none
  | .set key val _ :: past, k => if k = key then some val else contents past k
  | .del key :: past, k => if k = key then none else contents past k
  | .find _ :: past, k => contents past k
  | .clean :: _, _ => none

/-- What the finite map answers. A set tells whether the key was absent, in the class that has
`replaced` false. -/
def expected [DecidableEq κ] (replaced : Bool) (past : List (Call κ)) : Call κ → Answer
  | .set key _ _ => .told (replaced || (contents past key).isNone)
  | .del key => .told (contents past key).isSome
  | .find key => .value (contents past key)
  | .clean => .nothing

def Inverse (l : Links Cell) (c : Cell) : Prop := l.prev (l.next c) = c ∧ l.next (l.prev c) = c

/-- The state of a map that holds `present`: one node for each key, on link and in the bucket of the
key and in no other, in the order in which first and next come to it. -/
structure Shows [DecidableEq κ] (keys : Keys κ σ) (past : List (Call κ)) (m : MyMap σ) (present : List κ)
    (live free : List Int) : Prop where
  once : present.Nodup
  exactly : ∀ key, key ∈ present ↔ (contents past key).isSome
  nodes : List.Forall₂ (fun n key => m.entry n = keys.store key ∧ contents past key = some (m.val n)) live present
  counted : count m = present.length
  emptiness : isempty m = present.isEmpty
  visited : ∀ rounds, live.length ≤ rounds → visit m rounds = some live
  lists : ∃ home, Shape m.links m.hashSize home live live free ∧
    ∀ n ∈ live, home n < m.hashSize ∧ ∀ key, m.entry n = keys.store key → home n = keys.index key m.hashSize
  heads : Inverse m.links .link ∧ Inverse m.links .freeList ∧ ∀ i < m.hashSize, Inverse m.links (.bucket i)
  liveLinks : ∀ n ∈ live, Inverse m.links (.nodeLink n) ∧ Inverse m.links (.nodeHash n)
  freeLinks : ∀ n ∈ free, Inverse m.links (.nodeLink n)

def KeyIs (p : κ → Prop) : Call κ → Prop
  | .set key _ _ => p key
  | .del key => p key
  | .find key => p key
  | .clean => True

def RoomForCopy (keys : Keys κ σ) : Call κ → Prop
  | .set key _ _ => keys.room key = true
  | _ => True

def RoomForOne (calls : Calls κ σ) (m : MyMap σ) : Call κ → Prop
  | .set key _ _ => m.num < 2 ^ 31 - 1 ∨ ∃ fuel val, calls.find fuel m key = some (some val)
  | _ => True

def RefinesFiniteMap [DecidableEq κ] (calls : Calls κ σ) (keys : Keys κ σ) (valid : κ → Prop)
    (narrow : MyMap σ → Call κ → Prop) : Prop :=
  ∀ (difference : Int → Int) (memory : Links Cell) (entry : Int → σ) (val : Int → Intptr) (hashSize maxSize : Nat),
    1 ≤ hashSize → hashSize ≤ 2 ^ 30 → maxSize < 2 ^ 31 → (∀ n : Int, 0 ≤ n ∧ n < maxSize → difference n = n) →
    let meets := fun m call => KeyIs valid call ∧ Promised m call ∧ narrow m call
    ∀ past m, Reached calls difference meets (init hashSize maxSize (constructed memory entry val)) past m →
      (∃ present live free, Shows keys past m present live free) ∧
      ∀ call, meets m call → ∀ fuel : Nat, count m < fuel →
        ∃ m', perform calls difference fuel m call = some (expected keys.replaced past call, m')

/-! The relation between a map and the finite map, kept by each call. -/

structure Admits (keys : Keys κ σ) (admissible : κ → Prop) : Prop where
  accepted : ∀ key, admissible key → keys.refused key = false
  injective : ∀ a b, admissible a → admissible b → keys.store a = keys.store b → a = b

structure Refines [DecidableEq κ] {keys : Keys κ σ} (laws : Laws keys) (admissible : κ → Prop) (past : List (Call κ))
    (m : MyMap σ) (live free : List Int) : Prop where
  rep : Represents laws m live free
  num : m.num = live.length
  bounded : live.length < 2 ^ 31
  keyed : ∀ n ∈ live, ∃ key, admissible key ∧ m.entry n = keys.store key
  reads : ∀ key v, contents past key = some v ↔ admissible key ∧ ∃ n ∈ live, m.entry n = keys.store key ∧ m.val n = v

variable [DecidableEq κ] {keys : Keys κ σ} {laws : Laws keys} {admissible : κ → Prop} {past : List (Call κ)}
  {m : MyMap σ} {live free : List Int} {n : Int} {key : κ}

theorem readsFound (ref : Refines laws admissible past m live free) (admitted : admissible key) (here : n ∈ live)
    (filled : m.entry n = keys.store key) : contents past key = some (m.val n) :=
  (ref.reads key _).mpr ⟨admitted, n, here, filled, rfl⟩

theorem readsAbsent (ref : Refines laws admissible past m live free)
    (absent : ∀ n ∈ live, m.entry n ≠ keys.store key) : contents past key = none := by
  cases read : contents past key with
  | none => rfl
  | some v =>
    obtain ⟨-, n, here, filled, -⟩ := (ref.reads key v).mp read
    exact absurd filled (absent n here)

theorem replacedRefines (admits : Admits keys admissible) (ref : Refines laws admissible past m live free)
    (admitted : admissible key) (here : n ∈ live) (filled : m.entry n = keys.store key) (val : Intptr) (fresh : Int) :
    Refines laws admissible (.set key val fresh :: past) { m with val := update m.val n val } live free := by
  have rep := ref.rep
  refine ⟨valHolds rep _, ref.num, ref.bounded, ref.keyed, fun k v => ?_⟩
  rw [contents]
  by_cases own : k = key
  · subst own
    rw [if_pos rfl, Option.some.injEq]
    constructor
    · rintro rfl
      exact ⟨admitted, n, here, filled, update_self ..⟩
    · rintro ⟨-, k', there, filled', read⟩
      have same : k' = n := sameNode rep there here (filled'.trans filled.symm)
      subst same
      change update m.val k' val k' = v at read
      rwa [update_self] at read
  · rw [if_neg own, ref.reads]
    refine and_congr_right fun admitted' => exists_congr fun k' => and_congr_right fun there =>
      and_congr_right fun filled' => ?_
    have other : k' ≠ n := fun same =>
      own (admits.injective k key admitted' admitted (filled'.symm.trans ((congrArg m.entry same).trans filled)))
    exact iff_of_eq (congrArg (· = v) (update_of_ne other ..).symm)

theorem addedRefines (admits : Admits keys admissible) (ref : Refines laws admissible past m live free)
    (admitted : admissible key) (absent : ∀ n ∈ live, m.entry n ≠ keys.store key) (small : m.num < 2 ^ 31 - 1)
    {val : Intptr} {m' : MyMap σ} {free' : List Int} (rep : Represents laws m' (n :: live) free') (notLive : n ∉ live)
    (entries : m'.entry = update m.entry n (keys.store key)) (vals : m'.val = update m.val n val)
    (num : m'.num = i32 (m.num + 1)) (fresh : Int) :
    Refines laws admissible (.set key val fresh :: past) m' (n :: live) free' := by
  have few := ref.num
  have kept : ∀ k ∈ live, m'.entry k = m.entry k ∧ m'.val k = m.val k := fun k mem => by
    have other : k ≠ n := ne_of_mem_of_not_mem mem notLive
    rw [entries, vals, update_of_ne other, update_of_ne other]
    exact ⟨rfl, rfl⟩
  have own : m'.entry n = keys.store key ∧ m'.val n = val := by
    rw [entries, vals]
    exact ⟨update_self .., update_self ..⟩
  refine ⟨rep, ?_, ?_, fun k mem => ?_, fun k v => ?_⟩
  · rw [num, i32Exact (by omega) (by omega), few, List.length_cons]
    omega
  · rw [List.length_cons]
    omega
  · rcases List.mem_cons.mp mem with rfl | before
    · exact ⟨key, admitted, own.1⟩
    · obtain ⟨other, admitted', filled⟩ := ref.keyed k before
      exact ⟨other, admitted', (kept k before).1.trans filled⟩
  · rw [contents]
    by_cases same : k = key
    · subst same
      rw [if_pos rfl, Option.some.injEq]
      constructor
      · rintro rfl
        exact ⟨admitted, n, List.mem_cons_self, own⟩
      · rintro ⟨-, k', there, filled, read⟩
        rcases List.mem_cons.mp there with rfl | before
        · exact own.2.symm.trans read
        · exact absurd ((kept k' before).1.symm.trans filled) (absent k' before)
    · rw [if_neg same, ref.reads]
      refine and_congr_right fun admitted' => ?_
      constructor
      · rintro ⟨k', there, filled, read⟩
        exact ⟨k', List.mem_cons_of_mem n there, (kept k' there).1.trans filled, (kept k' there).2.trans read⟩
      · rintro ⟨k', there, filled, read⟩
        rcases List.mem_cons.mp there with rfl | before
        · exact absurd (admits.injective k key admitted' admitted (filled.symm.trans own.1)) same
        · exact ⟨k', before, (kept k' before).1.symm.trans filled, (kept k' before).2.symm.trans read⟩

theorem removedRefines (admits : Admits keys admissible) {as bs : List Int}
    (ref : Refines laws admissible past m (as ++ n :: bs) free) (admitted : admissible key)
    (filled : m.entry n = keys.store key) {m' : MyMap σ} {free' : List Int} (rep : Represents laws m' (as ++ bs) free')
    (entries : m'.entry = m.entry) (vals : m'.val = m.val) (num : m'.num = i32 (m.num - 1)) :
    Refines laws admissible (.del key :: past) m' (as ++ bs) free' := by
  have here : n ∈ as ++ n :: bs := List.mem_append_right as List.mem_cons_self
  have once := List.nodup_cons.mp (List.perm_middle.nodup_iff.mp (ref.rep.unique.of_map _))
  have length : (as ++ n :: bs).length = (as ++ bs).length + 1 := List.perm_middle.length_eq
  have few := ref.num
  have bounded := ref.bounded
  refine ⟨rep, ?_, by omega, fun k inside => ?_, fun k v => ?_⟩
  · rw [num, i32Exact (by omega) (by omega)]
    omega
  · rw [entries]
    exact ref.keyed k (memMiddle.mpr (.inr inside))
  · rw [contents, entries, vals]
    by_cases same : k = key
    · subst same
      rw [if_pos rfl]
      refine iff_of_false (by simp) ?_
      rintro ⟨-, k', there, filled', -⟩
      have own : k' = n := sameNode ref.rep (memMiddle.mpr (.inr there)) here (filled'.trans filled.symm)
      exact once.1 (own ▸ there)
    · rw [if_neg same, ref.reads]
      refine and_congr_right fun admitted' => exists_congr fun k' => ?_
      rw [memMiddle]
      refine ⟨fun ⟨there, filled', read⟩ => ⟨there.resolve_left fun own => ?_, filled', read⟩,
        fun ⟨there, rest⟩ => ⟨.inr there, rest⟩⟩
      subst own
      exact same (admits.injective k key admitted' admitted (filled'.symm.trans filled))

theorem findSame (ref : Refines laws admissible past m live free) [DecidableEq σ] (admitted : admissible key) :
    (nodeAt keys m live key).map m.val = contents past key := by
  cases at_ : nodeAt keys m live key with
  | none => exact (readsAbsent ref (nodeAbsent at_)).symm
  | some n => exact (readsFound ref admitted (nodeFound at_).1 (nodeFound at_).2).symm

theorem setRefines (admits : Admits keys admissible) (ref : Refines laws admissible past m live free) [DecidableEq σ]
    (admitted : admissible key) (fits : keys.room key = true) {fuel : Nat} (enough : live.length < fuel) (val : Intptr)
    {fresh : Int} (promised : Fresh m fresh) (narrow : m.num < 2 ^ 31 - 1 ∨ nodeAt keys m live key ≠ none) :
    ∃ answer m' live' free', set keys fuel m key val fresh = some (answer, m') ∧
      answer = (keys.replaced || (contents past key).isNone) ∧ m'.maxSize = m.maxSize ∧
      Refines laws admissible (.set key val fresh :: past) m' live' free' := by
  have accepted := admits.accepted key admitted
  cases at_ : nodeAt keys m live key with
  | none =>
    obtain ⟨n, m', free', done, rep, notLive, -, size, entries, vals, num⟩ :=
      setAdds ref.rep accepted fits enough at_ val promised
    have small := narrow.resolve_right fun found => found at_
    have absent := readsAbsent ref (nodeAbsent at_)
    exact ⟨true, m', _, free', done, by rw [absent, Option.isNone_none, Bool.or_true], size,
      addedRefines admits ref admitted (nodeAbsent at_) small rep notLive entries vals num fresh⟩
  | some n =>
    obtain ⟨here, filled⟩ := nodeFound at_
    have found := readsFound ref admitted here filled
    exact ⟨keys.replaced, _, live, free, setReplaces ref.rep accepted enough at_ val fresh,
      by rw [found, Option.isNone_some, Bool.or_false], rfl, replacedRefines admits ref admitted here filled val fresh⟩

theorem delRefines (admits : Admits keys admissible) (ref : Refines laws admissible past m live free) [DecidableEq σ]
    {difference : Int → Int} (faithful : ∀ n, InPool m n → difference n = n) (small : m.maxSize < 2 ^ 31)
    (admitted : admissible key) {fuel : Nat} (enough : live.length < fuel) :
    ∃ m' live' free', del keys difference fuel m key = some ((contents past key).isSome, m') ∧ m'.maxSize = m.maxSize ∧
      Refines laws admissible (.del key :: past) m' live' free' := by
  have accepted := admits.accepted key admitted
  cases at_ : nodeAt keys m live key with
  | none =>
    have absent := readsAbsent ref (nodeAbsent at_)
    refine ⟨m, live, free, ?_, rfl, ⟨ref.rep, ref.num, ref.bounded, ref.keyed, fun k v => ?_⟩⟩
    · rw [delMisses ref.rep accepted enough at_, absent]
      rfl
    · rw [contents]
      split
      · rename_i own
        rw [← ref.reads, own, absent]
      · exact ref.reads k v
  | some n =>
    obtain ⟨here, filled⟩ := nodeFound at_
    obtain ⟨as, bs, rfl⟩ := List.append_of_mem here
    obtain ⟨m', free', done, rep, -, size, entries, vals, num⟩ := delRemoves faithful small ref.rep accepted enough at_
    refine ⟨m', as ++ bs, free', ?_, size, removedRefines admits ref admitted filled rep entries vals num⟩
    rw [done, readsFound ref admitted here filled]
    rfl

theorem callRefinesMap (admits : Admits keys admissible) (ref : Refines laws admissible past m live free) [DecidableEq σ]
    {difference : Int → Int} (faithful : ∀ n, InPool m n → difference n = n) (small : m.maxSize < 2 ^ 31) {call : Call κ}
    (admitted : KeyIs admissible call) (promised : Promised m call) (fits : RoomForCopy keys call)
    (narrow : RoomForOne (callsOf keys) m call) {fuel : Nat} (enough : live.length < fuel) :
    ∃ m' live' free', perform (callsOf keys) difference fuel m call = some (expected keys.replaced past call, m') ∧
      m'.maxSize = m.maxSize ∧ Refines laws admissible (call :: past) m' live' free' := by
  cases call with
  | set key val fresh =>
    have room : m.num < 2 ^ 31 - 1 ∨ nodeAt keys m live key ≠ none := by
      refine narrow.imp_right fun present absent => ?_
      obtain ⟨rounds, v, found⟩ := present
      have more := findMore (Nat.le_max_left rounds fuel) found
      rw [findReads ref.rep (admits.accepted key admitted) (enough.trans_le (Nat.le_max_right rounds fuel)), absent] at more
      cases more
    obtain ⟨answer, m', live', free', done, told, size, after⟩ :=
      setRefines admits ref admitted fits enough val promised room
    refine ⟨m', live', free', ?_, size, after⟩
    dsimp only [perform, callsOf, expected]
    rw [done, ← told]
    rfl
  | del key =>
    obtain ⟨m', live', free', done, size, after⟩ := delRefines admits ref faithful small admitted enough
    refine ⟨m', live', free', ?_, size, after⟩
    dsimp only [perform, callsOf, expected]
    rw [done]
    rfl
  | find key =>
    refine ⟨m, live, free, ?_, rfl, ⟨ref.rep, ref.num, ref.bounded, ref.keyed, ref.reads⟩⟩
    dsimp only [perform, callsOf, expected]
    rw [findReads ref.rep (admits.accepted key admitted) enough, findSame ref admitted]
    rfl
  | clean =>
    obtain ⟨m', free', last, done, rep, -, -, size, num⟩ := cleanHolds faithful small ref.rep enough
    refine ⟨m', [], free', ?_, size, ⟨rep, num, by decide, fun n mem => ?_, fun k v => ?_⟩⟩
    · rw [perform, done]
      rfl
    · cases mem
    · rw [contents]
      simp

theorem chosen {α β : Type} {p : α → β → Prop} {xs : List α} (each : ∀ a ∈ xs, ∃ b, p a b) :
    ∃ ys, List.Forall₂ p xs ys ∧ ∀ b ∈ ys, ∃ a ∈ xs, p a b := by
  induction xs with
  | nil => exact ⟨[], .nil, fun b mem => absurd mem List.not_mem_nil⟩
  | cons a xs ih =>
    obtain ⟨b, here⟩ := each a List.mem_cons_self
    obtain ⟨ys, rest, back⟩ := ih fun x mem => each x (List.mem_cons_of_mem a mem)
    refine ⟨b :: ys, .cons here rest, fun y mem => ?_⟩
    rcases List.mem_cons.mp mem with rfl | later
    · exact ⟨a, List.mem_cons_self, here⟩
    · obtain ⟨x, inside, there⟩ := back y later
      exact ⟨x, List.mem_cons_of_mem a inside, there⟩

theorem showsRefines (admits : Admits keys admissible) (ref : Refines laws admissible past m live free) :
    ∃ present, Shows keys past m present live free := by
  have rep := ref.rep
  have each : ∀ n ∈ live, ∃ key, n ∈ live ∧ admissible key ∧ m.entry n = keys.store key := fun n mem => by
    obtain ⟨key, here⟩ := ref.keyed n mem
    exact ⟨key, mem, here⟩
  obtain ⟨present, nodes, back⟩ := chosen each
  have stored : live.map m.entry = present.map keys.store := by
    rw [← List.forall₂_eq_eq_eq, List.forall₂_map_left_iff, List.forall₂_map_right_iff]
    exact nodes.imp fun n key here => here.2.2
  have once : (present.map keys.store).Nodup := stored ▸ rep.unique
  have exactly_ (key : κ) : key ∈ present ↔ (contents past key).isSome := by
    rw [Option.isSome_iff_exists]
    constructor
    · intro mem
      obtain ⟨n, -, here, admitted, filled⟩ := back key mem
      exact ⟨m.val n, readsFound ref admitted here filled⟩
    · rintro ⟨v, read⟩
      obtain ⟨admitted, n, here, filled, -⟩ := (ref.reads key v).mp read
      have mem : m.entry n ∈ present.map keys.store := stored ▸ List.mem_map_of_mem here
      obtain ⟨key', inside, same⟩ := List.mem_map.mp mem
      obtain ⟨-, -, -, admitted', -⟩ := back key' inside
      exact admits.injective key' key admitted' admitted (same.trans filled) ▸ inside
  have length : live.length = present.length := nodes.length_eq
  have inverse {head : Cell} {cells : List Cell} (ring : Circular m.links head cells) :
      ∀ c ∈ head :: cells, Inverse m.links c := ringInverse ring
  refine ⟨present, once.of_map _, exactly_, nodes.imp fun n key here => ⟨here.2.2, readsFound ref here.2.1 here.1 here.2.2⟩,
    ?_, ?_, fun rounds enough => ?_, ⟨homeOf laws m, rep.shape, fun n mem => ?_⟩, ⟨?_, ?_, fun i below => ?_⟩,
    fun n mem => ⟨?_, ?_⟩, fun n mem => ?_⟩
  · rw [count, ref.num, length]
  · rw [isempty, ringEmpty rep.shape.linkRing, List.isEmpty_map]
    cases nodes <;> rfl
  · have front : Represents laws m ([] ++ live) free := rep
    rw [visit, firstReads rep, Option.bind_some]
    exact visitSuffix front enough
  · exact ⟨homeBelow rep mem, fun key filled => homeFilled filled⟩
  · exact inverse rep.shape.linkRing _ List.mem_cons_self
  · exact inverse rep.shape.freeRing _ List.mem_cons_self
  · exact inverse (rep.shape.buckets i below) _ List.mem_cons_self
  · exact inverse rep.shape.linkRing _ (List.mem_cons_of_mem _ (List.mem_map_of_mem mem))
  · have own : n ∈ bucketOf (homeOf laws m) live (homeOf laws m n) := bucketMem.mpr ⟨mem, rfl⟩
    exact inverse (rep.shape.buckets _ (homeBelow rep mem)) _ (List.mem_cons_of_mem _ (List.mem_map_of_mem own))
  · exact inverse rep.shape.freeRing _ (List.mem_cons_of_mem _ (List.mem_map_of_mem mem))

theorem reachedRefines (admits : Admits keys admissible) [DecidableEq σ] {difference : Int → Int}
    {meets : MyMap σ → Call κ → Prop} {start : MyMap σ} (begun : Refines laws admissible [] start [] free)
    (faithful : ∀ n, InPool start n → difference n = n) (small : start.maxSize < 2 ^ 31)
    (narrow : ∀ m call, meets m call →
      KeyIs admissible call ∧ Promised m call ∧ RoomForCopy keys call ∧ RoomForOne (callsOf keys) m call)
    (run : Reached (callsOf keys) difference meets start past m) :
    m.maxSize = start.maxSize ∧ ∃ live free, Refines laws admissible past m live free := by
  induction run with
  | start => exact ⟨rfl, [], free, begun⟩
  | @step past m fuel call answer m' before met done ih =>
    obtain ⟨size, live, free, ref⟩ := ih
    obtain ⟨admitted, promised, fits, room⟩ := narrow m call met
    have enough := Nat.lt_of_lt_of_le (Nat.lt_succ_self live.length) (Nat.le_max_right fuel _)
    obtain ⟨next, live', free', returned, size', after⟩ :=
      callRefinesMap admits ref (faithfulSame size faithful) (size ▸ small) admitted promised fits room enough
    rw [performMore (Nat.le_max_left fuel _) done] at returned
    obtain ⟨-, rfl⟩ := Prod.mk.inj (Option.some.inj returned)
    exact ⟨size'.trans size, live', free', after⟩

theorem refinesAll [DecidableEq σ] (laws : Laws keys) {valid : κ → Prop} {narrow : MyMap σ → Call κ → Prop}
    (admits : Admits keys admissible)
    (enough : ∀ m call, KeyIs valid call → narrow m call →
      KeyIs admissible call ∧ RoomForCopy keys call ∧ RoomForOne (callsOf keys) m call) :
    RefinesFiniteMap (callsOf keys) keys valid narrow := by
  intro difference memory entry val hashSize maxSize _ _ small faithful meets past m run
  have narrow' : ∀ m call, meets m call →
      KeyIs admissible call ∧ Promised m call ∧ RoomForCopy keys call ∧ RoomForOne (callsOf keys) m call :=
    fun m call met => ⟨(enough m call met.1 met.2.2).1, met.2.1, (enough m call met.1 met.2.2).2⟩
  have begun : Refines laws admissible [] (init hashSize maxSize (constructed memory entry val)) [] (poolNodes maxSize) :=
    ⟨initRepresents .., rfl, by decide, fun n mem => absurd mem List.not_mem_nil, fun key v => by simp [contents]⟩
  obtain ⟨size, live, free, ref⟩ := reachedRefines admits begun faithful small narrow' run
  obtain ⟨present, shown⟩ := showsRefines admits ref
  refine ⟨⟨present, live, free, shown⟩, fun call met fuel rounds => ?_⟩
  obtain ⟨admitted, promised, fits, room⟩ := narrow' m call met
  have many : live.length < fuel := by
    rw [count, ref.num] at rounds
    exact Int.ofNat_lt.mp rounds
  obtain ⟨m', -, -, done, -⟩ :=
    callRefinesMap admits ref (faithfulSame size faithful) (size ▸ small) admitted promised fits room many
  exact ⟨m', done⟩

end

theorem MyMap32.admits : Admits MyMap32.keys fun _ => True where
  accepted _ _ := rfl
  injective _ _ _ _ same := same

def ShortKey (key : CString) : Prop := key.bytes.length < 2 ^ 31

def ShortCopy : Call CString → Prop
  | .set key _ _ => key.bytes.length + 1 < 2 ^ 31
  | _ => True

theorem MyMapStr.lenShort {key : CString} (short : ShortKey key) : MyMapStr.len key = key.bytes.length := by
  unfold ShortKey at short
  exact i32Exact (by omega) (by omega)

theorem MyMapStr.admits (signed : Bool) :
    Admits (MyMapStr.keys signed) fun key => key.bytes ≠ [] ∧ ShortKey key where
  accepted key admitted := by
    have some_ := List.length_pos_iff.mpr admitted.1
    dsimp only [MyMapStr.keys]
    rw [MyMapStr.lenShort admitted.2, decide_eq_false_iff_not]
    omega
  injective a b short short' same := by
    dsimp only [MyMapStr.keys] at same
    have bytes := (MyMapStr.StrEntry.mk.inj same).1
    rw [MyMapStr.lenShort short.2, MyMapStr.lenShort short'.2, Int.toNat_natCast, Int.toNat_natCast, List.take_length,
      List.take_length] at bytes
    cases a
    cases b
    cases bytes
    rfl

theorem MyMapStr.copyFits (signed : Bool) {call : Call CString} (short : KeyIs ShortKey call) (copied : ShortCopy call) :
    RoomForCopy (MyMapStr.keys signed) call := by
  cases call with
  | set key val fresh =>
    dsimp only [RoomForCopy, ShortCopy, MyMapStr.keys] at copied ⊢
    rw [MyMapStr.lenShort short, decide_eq_true_iff]
    omega
  | del key => trivial
  | find key => trivial
  | clean => trivial

theorem keyBoth {κ : Type} {p q : κ → Prop} {call : Call κ} (first : KeyIs p call) (second : KeyIs q call) :
    KeyIs (fun key => p key ∧ q key) call := by
  cases call with
  | set key val fresh => exact ⟨first, second⟩
  | del key => exact ⟨first, second⟩
  | find key => exact ⟨first, second⟩
  | clean => trivial

theorem mapsFinite (signed : Bool) :
    RefinesFiniteMap MyMap32.calls MyMap32.keys (fun _ => True) (RoomForOne MyMap32.calls) ∧
    RefinesFiniteMap (MyMapStr.calls signed) (MyMapStr.keys signed) (fun key => key.bytes ≠ [])
      fun m call => KeyIs ShortKey call ∧ ShortCopy call ∧ RoomForOne (MyMapStr.calls signed) m call := by
  constructor
  · rw [MyMap32.callsSame]
    refine refinesAll MyMap32.laws MyMap32.admits fun m call key narrow => ⟨key, ?_, narrow⟩
    cases call <;> trivial
  · rw [MyMapStr.callsSame]
    exact refinesAll (MyMapStr.laws signed) (MyMapStr.admits signed) fun m call some_ narrow =>
      ⟨keyBoth some_ narrow.1, MyMapStr.copyFits signed narrow.1 narrow.2.1, narrow.2.2⟩

/- One pool node, two keys of one bucket: the second is on the heap. -/
theorem sampleMap : ∃ m present live free,
    Shows MyMap32.keys [.set 3 30 7, .set 1 10 7] m present live free ∧
    ∃ m', perform MyMap32.calls id 3 m (.find 3) = some (.value (some 30), m') := by
  obtain ⟨⟨present, live, free, shown⟩, answers⟩ := (mapsFinite true).1 id ⟨id, id⟩ (fun _ => 0) (fun _ => 0) 1 1 le_rfl
    (by decide) (by decide) (fun _ _ => rfl) [.set 3 30 7, .set 1 10 7] _
    (.step (.step .start ⟨trivial, ⟨by decide, by decide⟩, .inl (by decide)⟩
        (show perform MyMap32.calls id 3 _ _ = some (_, _) from rfl))
      ⟨trivial, ⟨by decide, by decide⟩, .inl (by decide)⟩ (show perform MyMap32.calls id 3 _ _ = some (_, _) from rfl))
  exact ⟨_, present, live, free, shown, answers (.find 3) ⟨trivial, trivial, trivial⟩ 3 (by decide)⟩

/- 2^31 times the letter a -/
def longKey : CString := ⟨List.replicate (2 ^ 31) 97, fun mem => absurd (List.eq_of_mem_replicate mem) (by decide)⟩

theorem longKeyLost :
    ¬ (RefinesFiniteMap MyMap32.calls MyMap32.keys (fun _ => True) (fun _ _ => True) ∧
      ∀ signed, RefinesFiniteMap (MyMapStr.calls signed) (MyMapStr.keys signed) (fun key => key.bytes ≠ [])
        fun _ _ => True) := by
  intro ⟨_, claim⟩
  have length : longKey.bytes.length = 2 ^ 31 := List.length_replicate
  have some_ : longKey.bytes ≠ [] := fun empty => by
    rw [empty] at length
    cases length
  have refused : (MyMapStr.keys true).refused longKey = true := by
    dsimp only [MyMapStr.keys]
    rw [MyMapStr.len, length]
    decide
  have told (m : MyMap MyMapStr.StrEntry) :
      perform (MyMapStr.calls true) id 0 m (.set longKey 5 0) = some (.told false, m) := by
    dsimp only [perform, MyMapStr.calls, MyMapStr.set]
    rw [set, if_pos refused]
    rfl
  obtain ⟨⟨present, live, free, shown⟩, -⟩ := claim true id ⟨id, id⟩ (fun _ => ⟨[], 0⟩) (fun _ => 0) 1 0 le_rfl (by decide)
    (by decide) (fun _ _ => rfl) [.set longKey 5 0] _
    (.step .start ⟨some_, ⟨by decide, by decide⟩, trivial⟩ (told _))
  have held : longKey ∈ present := by
    rw [shown.exactly, contents, if_pos rfl]
    rfl
  have none_ : (0 : Int) = present.length := shown.counted
  rw [List.eq_nil_of_length_eq_zero (Int.ofNat_eq_zero.mp none_.symm)] at held
  cases held

end Bootstrap.HashMaps
