import Bootstrap.ByteLayout
import Bootstrap.IntrusiveList

/-! The hash maps MyMap32 and MyMapStr: nodes on two circular lists each, taken from a pool while it
lasts and from the heap afterwards. What the two classes share is stated once, over the part of a
node that its key fills; init, clean, first, next, isempty and count are the same text in both, but
for the copy of the key that MyMapStr frees with a node. -/
namespace Bootstrap.HashMaps
open CInt ByteLayout IntrusiveList
open Function (update)

abbrev Intptr := BitVec 64

/- A node is named by its place: how many nodes it lies behind mem. The pool is 0 .. max_size - 1. -/
inductive Cell where
  | bucket (index : Nat)
  | link
  | freeList
  | nodeLink (node : Int)
  | nodeHash (node : Int)
  deriving DecidableEq, Repr

/- list_entry(pos, Node, link) and list_entry(pos, Node, hash) -/
def linkEntry : Cell → Option Int
  | .nodeLink node => some node
  | _ => none

def hashEntry : Cell → Option Int
  | .nodeHash node => some node
  | _ => none

/-- `entry` is what a key fills of a node, `allocated` the nodes that came from new and were not
deleted. -/
structure MyMap (σ : Type) where
  num : Int
  hashSize : Nat
  pow2 : Nat
  maxSize : Nat
  links : Links Cell
  entry : Int → σ
  val : Int → Intptr
  allocated : List Int

/-- What the two classes do with a key: `refused` is the check that comes first, `room` says that
the copy of the key fits in memory, `store` fills a node, `hit` compares a node with a key, and
`replaced` is what set returns when it finds the key. -/
structure Keys (κ σ : Type) where
  refused : κ → Bool
  room : κ → Bool
  store : κ → σ
  hit : σ → κ → Bool
  index : κ → Nat → Nat
  replaced : Bool

section
variable {κ σ : Type}

/- MyMap32::MyMap32(), in memory that holds anything. -/
def constructed (memory : Links Cell) (entry : Int → σ) (val : Int → Intptr) : MyMap σ where
  num := 0
  hashSize := 0
  pow2 := 0
  maxSize := 0
  links := initListHead (initListHead memory .freeList) .link
  entry := entry
  val := val
  allocated := []

/- for( i = 1; i < 32; ++i ) { if( _hash_size <= ( 1 << i ) ) break; } -/
def powerLoop (hashSize : Nat) : Nat → Nat → Nat
  | 0, i => i
  | rounds + 1, i => if hashSize ≤ 2 ^ i then i else powerLoop hashSize rounds (i + 1)

def initBuckets (links : Links Cell) (hashSize : Nat) : Links Cell :=
  (List.range hashSize).foldl (fun links i => initListHead links (.bucket i)) links

def initPool (links : Links Cell) (maxSize : Nat) : Links Cell :=
  (List.range maxSize).foldl (fun links (i : Nat) => listAddTail links (.nodeLink i) .freeList) links

def init (hashSize maxSize : Nat) (m : MyMap σ) : MyMap σ :=
  let pow2 := powerLoop hashSize 31 1
  let links := initBuckets (initListHead m.links .link) (2 ^ pow2)
  { m with
    num := 0
    pow2 := pow2
    hashSize := 2 ^ pow2
    maxSize := maxSize
    links := initPool (initListHead links .freeList) maxSize }

/- The test in the body of each walk over a bucket. -/
def hitAt (keys : Keys κ σ) (m : MyMap σ) (key : κ) (pos : Cell) : Bool :=
  (hashEntry pos).any fun node => keys.hit (m.entry node) key

def walkSafe (keys : Keys κ σ) (m : MyMap σ) (key : κ) (fuel : Nat) : Option (Option Cell) :=
  listForEachSafe m.links (.bucket (keys.index key m.hashSize)) (hitAt keys m key) fuel

def walk (keys : Keys κ σ) (m : MyMap σ) (key : κ) (fuel : Nat) : Option (Option Cell) :=
  listForEach m.links (.bucket (keys.index key m.hashSize)) (hitAt keys m key) fuel

def find (keys : Keys κ σ) (fuel : Nat) (m : MyMap σ) (key : κ) : Option (Option Intptr) :=
  if keys.refused key then some none
  else (walkSafe keys m key fuel).map fun found => (found.bind hashEntry).map m.val

/- `fresh` is what new returns, should the free list be empty. -/
def takeNode (m : MyMap σ) (fresh : Int) : Option (Int × MyMap σ) :=
  if listEmpty m.links .freeList then some (fresh, { m with allocated := fresh :: m.allocated })
  else
    let pos := m.links.next .freeList
    (linkEntry pos).map fun node => (node, { m with links := listDel m.links pos })

def place (keys : Keys κ σ) (m : MyMap σ) (key : κ) (val : Intptr) (node : Int) : MyMap σ :=
  let bucket := Cell.bucket (keys.index key m.hashSize)
  { m with
    entry := update m.entry node (keys.store key)
    val := update m.val node val
    links := listAdd (listAdd m.links (.nodeHash node) bucket) (.nodeLink node) .link
    num := i32 (m.num + 1) }

/- What set does where its walk has ended. A copy that has no room leaves node->key NULL, and the
strncpy that follows is not defined. -/
def setFound (keys : Keys κ σ) (m : MyMap σ) (key : κ) (val : Intptr) (fresh : Int) (found : Option Cell) :
    Option (Bool × MyMap σ) :=
  match found.bind hashEntry with
  | some node => some (keys.replaced, { m with val := update m.val node val })
  | none =>
    (takeNode m fresh).bind fun (node, m) => if keys.room key then some (true, place keys m key val node) else none

def set (keys : Keys κ σ) (fuel : Nat) (m : MyMap σ) (key : κ) (val : Intptr) (fresh : Int) : Option (Bool × MyMap σ) :=
  if keys.refused key then some (false, m)
  else (walkSafe keys m key fuel).bind (setFound keys m key val fresh)

/- sizeof(Node), in MyMapStr too, whose nodes are of another size -/
def sizeofNode : Nat := 48

/- int index = (node - mem) / sizeof(Node): the quotient is taken in size_t. -/
def poolIndex (difference : Int) : Int := i32 (u64 difference / sizeofNode : Nat)

/-- The node goes back to the free list or is deleted; delete is defined for what new returned. The
difference of two pointers into one array is that of their places. -/
def release (difference : Int → Int) (m : MyMap σ) (node : Int) : Option (MyMap σ) :=
  let index := poolIndex (difference node)
  if 0 ≤ index ∧ index < m.maxSize then some { m with links := listAdd m.links (.nodeLink node) .freeList }
  else if node ∈ m.allocated then some { m with allocated := m.allocated.erase node }
  else none

/- What del does where its walk has ended. -/
def delFound (difference : Int → Int) (m : MyMap σ) : Option Int → Option (Bool × MyMap σ)
  | none => some (false, m)
  | some node =>
    let links := listDel (listDel m.links (.nodeHash node)) (.nodeLink node)
    (release difference { m with links } node).map fun m => (true, { m with num := i32 (m.num - 1) })

def del (keys : Keys κ σ) (difference : Int → Int) (fuel : Nat) (m : MyMap σ) (key : κ) : Option (Bool × MyMap σ) :=
  if keys.refused key then some (false, m)
  else (walkSafe keys m key fuel).bind fun found => delFound difference m (found.bind hashEntry)

/- The body of the loop of clean. -/
def cleanNode (difference : Int → Int) (m : MyMap σ) : Option (MyMap σ) :=
  let pos := m.links.next .link
  let links := listDel m.links pos
  (linkEntry pos).bind fun node =>
    release difference { m with links := listDel (listDel links (.nodeHash node)) (.nodeLink node) } node

/- while(!list_empty(&link)) { ... } -/
def cleanLoop (difference : Int → Int) : Nat → MyMap σ → Option (MyMap σ)
  | 0, _ => none
  | fuel + 1, m =>
    if listEmpty m.links .link then some m
    else (cleanNode difference m).bind (cleanLoop difference fuel)

def clean (difference : Int → Int) (fuel : Nat) (m : MyMap σ) : Option (MyMap σ) :=
  (cleanLoop difference fuel m).map fun m =>
    { m with links := initListHead (initBuckets m.links m.hashSize) .link, num := 0 }

/- ~MyMap32(): clean(), then the two arrays are deleted and with them the buckets and the pool. -/
def destroy (difference : Int → Int) (fuel : Nat) (m : MyMap σ) : Option (MyMap σ) := clean difference fuel m

/- `some none` is the null pointer. -/
def first (m : MyMap σ) : Option (Option Int) :=
  if listEmpty m.links .link then some none
  else (linkEntry (m.links.next .link)).map some

def next (m : MyMap σ) (pre : Int) : Option (Option Int) :=
  let pos := m.links.next (.nodeLink pre)
  if pos = .link then some none else (linkEntry pos).map some

def isempty (m : MyMap σ) : Bool := listEmpty m.links .link

def count (m : MyMap σ) : Int := m.num

end

namespace MyMap32

def index (key : Intptr) (hashSize : Nat) : Nat := (key &&& BitVec.ofNat 64 (hashSize - 1)).toNat

def keys : Keys Intptr Intptr where
  refused _ := false
  room _ := true
  store key := key
  hit stored key := stored == key
  index := index
  replaced := false

def find (fuel : Nat) (m : MyMap Intptr) (key : Intptr) : Option (Option Intptr) := HashMaps.find keys fuel m key

/- The one walk that is list_for_each. -/
def set (fuel : Nat) (m : MyMap Intptr) (key val : Intptr) (fresh : Int) : Option (Bool × MyMap Intptr) :=
  (walk keys m key fuel).bind (setFound keys m key val fresh)

theorem setSafe (fuel : Nat) (m : MyMap Intptr) (key val : Intptr) (fresh : Int) :
    set fuel m key val fresh = HashMaps.set keys fuel m key val fresh := by
  rw [set, walk, ← forEachSafe]
  rfl

def del (difference : Int → Int) (fuel : Nat) (m : MyMap Intptr) (key : Intptr) : Option (Bool × MyMap Intptr) :=
  HashMaps.del keys difference fuel m key

end MyMap32

structure CString where
  bytes : Bytes
  noNul : 0 ∉ bytes
  deriving DecidableEq

namespace MyMapStr

structure StrEntry where
  key : Bytes
  len : Int
  deriving DecidableEq

/- int len = strlen( key ) -/
def len (key : CString) : Int := i32 key.bytes.length

/- `char` has a sign or not, as the target has it. -/
def promoted (signed : Bool) (c : UInt8) : BitVec 32 :=
  if signed then c.toBitVec.signExtend 32 else c.toBitVec.setWidth 32

/- while ((c = *str++) && len--) -/
def str2idLoop (signed : Bool) : Bytes → Nat → BitVec 32 → BitVec 32
  | [], _, hash => hash
  | _ :: _, 0, hash => hash
  | c :: str, len + 1, hash => str2idLoop signed str len ((hash <<< 5) + hash + promoted signed c)

def str2id (signed : Bool) (str : Bytes) (len : Int) (hashSize : Nat) : Nat :=
  if len < 1 then 0
  else (str2idLoop signed str len.toNat 5381#32 &&& BitVec.ofNat 32 (hashSize - 1)).toNat

/- strncmp( a, b, n ) == 0, where neither holds a null -/
def strncmpEqual (a b : Bytes) (n : Int) : Bool := a.take n.toNat == b.take n.toNat

def keys (signed : Bool) : Keys CString StrEntry where
  refused key := len key < 1
  room key := len key + 1 < 2 ^ 31
  store key := ⟨key.bytes.take (len key).toNat, len key⟩
  hit stored key := stored.len == len key && strncmpEqual stored.key key.bytes (len key)
  index key := str2id signed key.bytes (len key)
  replaced := true

def find (signed : Bool) (fuel : Nat) (m : MyMap StrEntry) (key : CString) : Option (Option Intptr) :=
  HashMaps.find (keys signed) fuel m key

def set (signed : Bool) (fuel : Nat) (m : MyMap StrEntry) (key : CString) (val : Intptr) (fresh : Int) :
    Option (Bool × MyMap StrEntry) :=
  HashMaps.set (keys signed) fuel m key val fresh

def del (signed : Bool) (difference : Int → Int) (fuel : Nat) (m : MyMap StrEntry) (key : CString) :
    Option (Bool × MyMap StrEntry) :=
  HashMaps.del (keys signed) difference fuel m key

end MyMapStr

end Bootstrap.HashMaps
