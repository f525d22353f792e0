import Bootstrap.CInt

/-! Byte strings: little-endian words, slices, records of fixed-width fields and
exact codecs. Nothing here knows which format is being read. -/
namespace Bootstrap.ByteLayout

abbrev Bytes := List UInt8

instance (b : Bytes) (bs : List Bytes) : Decidable (b ∈ bs) := List.instDecidableMemOfLawfulBEq b bs

def le : Nat → Nat → Bytes
  | 0, _ => []
  | width+1, value => UInt8.ofNat value :: le width (value / 256)

def readLE : Bytes → Nat
  | [] => 0
  | b :: rest => b.toNat + 256 * readLE rest

@[simp] theorem leLength (width value : Nat) : (le width value).length = width := by
  induction width generalizing value with
  | zero => rfl
  | succ width ih => simp [le, ih]

theorem readLeBound (raw : Bytes) : readLE raw < 256 ^ raw.length := by
  induction raw with
  | nil => simp [readLE]
  | cons b rest ih =>
    have hb := b.toNat_lt
    simp only [readLE, List.length_cons, Nat.pow_succ]
    omega

theorem readLeEncoded (width value : Nat) : readLE (le width value) = value % 256 ^ width := by
  induction width generalizing value with
  | zero => simp [le, readLE, Nat.mod_one]
  | succ width ih =>
    have byte : (UInt8.ofNat value).toNat = value % 256 := by simp
    rw [le, readLE, ih, byte, Nat.pow_succ, Nat.mul_comm (256 ^ width) 256, Nat.mod_mul]

theorem leDecoded (raw : Bytes) : le raw.length (readLE raw) = raw := by
  induction raw with
  | nil => rfl
  | cons b rest ih =>
    have hb := b.toNat_lt
    have head : UInt8.ofNat (readLE (b :: rest)) = b := by
      apply UInt8.toNat_inj.mp
      simp only [UInt8.toNat_ofNat', readLE]
      omega
    have tail : readLE (b :: rest) / 256 = readLE rest := by simp only [readLE]; omega
    rw [List.length_cons, le, head, tail, ih]

theorem leMod (width value : Nat) : le width (value % 256 ^ width) = le width value := by
  have h := leDecoded (le width value)
  rwa [leLength, readLeEncoded] at h

/-! Slices: `slice raw start len` is what a read of `len` bytes at `start` delivers. -/

def slice (raw : Bytes) (start len : Nat) : Bytes := (raw.drop start).take len

theorem sliceLength {raw : Bytes} {start len : Nat} (inside : start + len ≤ raw.length) :
    (slice raw start len).length = len := by
  simp only [slice, List.length_take, List.length_drop]; omega

theorem sliceLengthLe (raw : Bytes) (start len : Nat) : (slice raw start len).length ≤ len := by
  simp only [slice, List.length_take]; omega

@[simp] theorem sliceEmpty (raw : Bytes) (start : Nat) : slice raw start 0 = [] := by simp [slice]

theorem sliceGet (raw : Bytes) {start len i : Nat} (below : i < len) : (slice raw start len)[i]? = raw[start + i]? := by
  rw [slice, List.getElem?_take_of_lt below, List.getElem?_drop]

theorem sliceWhole (raw : Bytes) : slice raw 0 raw.length = raw := by simp [slice]

theorem sliceJoin (raw : Bytes) (start a b : Nat) :
    slice raw start a ++ slice raw (start + a) b = slice raw start (a + b) := by
  simp only [slice, ← List.drop_drop, List.take_add]

theorem dropSlice (raw : Bytes) (start len : Nat) : raw.drop start = slice raw start len ++ raw.drop (start + len) := by
  rw [slice, ← List.drop_drop, List.take_append_drop]

theorem sliceOfSlice (raw : Bytes) {start len off n : Nat} (inside : off + n ≤ len) :
    slice (slice raw start len) off n = slice raw (start + off) n := by
  simp only [slice, List.drop_take, List.take_take, List.drop_drop]
  congr 1
  omega

theorem sliceLeft (raw tail : Bytes) {start len : Nat} (inside : start + len ≤ raw.length) :
    slice (raw ++ tail) start len = slice raw start len := by
  have enough : len ≤ (raw.drop start).length := by simp only [List.length_drop]; omega
  rw [slice, slice, List.drop_append_of_le_length (by omega), List.take_append_of_le_length enough]

theorem sliceRight (head raw : Bytes) (start len : Nat) :
    slice (head ++ raw) (head.length + start) len = slice raw start len := by
  rw [slice, slice, ← List.drop_drop, List.drop_left]

theorem sliceAt (head mid tail : Bytes) : slice (head ++ (mid ++ tail)) head.length mid.length = mid := by
  simp [slice]

theorem sliceHead {head : Bytes} {n : Nat} (len : head.length = n) (tail : Bytes) :
    slice (head ++ tail) 0 n = head := by
  subst n
  simp [slice]

abbrev Field := Nat × Nat

def pack (fields : List Field) : Bytes := fields.flatMap (fun f => le f.1 f.2)

def widths (fields : List Field) : Nat := (fields.map Prod.fst).sum

@[simp] theorem packLength (fields : List Field) : (pack fields).length = widths fields := by
  induction fields with
  | nil => rfl
  | cons f rest ih =>
    simp only [pack, widths, List.flatMap_cons, List.length_append, leLength, List.map_cons,
      List.sum_cons] at ih ⊢
    omega

theorem packedField (before : List Field) (width value : Nat) (after : List Field) (tail : Bytes) :
    readLE (slice (pack (before ++ (width, value) :: after) ++ tail) (widths before) width) =
      value % 256 ^ width := by
  have split : pack (before ++ (width, value) :: after) ++ tail =
      pack before ++ (le width value ++ (pack after ++ tail)) := by
    simp [pack, List.flatMap_append]
  have found := sliceAt (pack before) (le width value) (pack after ++ tail)
  rw [packLength, leLength] at found
  rw [split, found, readLeEncoded]

theorem packedWord (before : List Field) {width value : Nat} (small : value < 256 ^ width)
    (after : List Field) (tail : Bytes) :
    readLE (slice (pack (before ++ (width, value) :: after) ++ tail) (widths before) width) = value := by
  rw [packedField, Nat.mod_eq_of_lt small]

theorem leOfSlice {raw : Bytes} {start width : Nat} (inside : start + width ≤ raw.length) :
    le width (readLE (slice raw start width)) = slice raw start width := by
  have h := leDecoded (slice raw start width)
  rwa [sliceLength inside] at h

def cut (raw : Bytes) : Nat → List Nat → List Bytes
  | _, [] => []
  | start, width :: rest => slice raw start width :: cut raw (start + width) rest

theorem cutJoin (raw : Bytes) (start : Nat) (ws : List Nat) :
    (cut raw start ws).flatten = slice raw start ws.sum := by
  induction ws generalizing start with
  | nil => simp [cut]
  | cons w ws ih => rw [cut, List.flatten_cons, ih, sliceJoin, List.sum_cons]

/-! An exact codec: what is written is read back, and what is read was written. -/

structure Exact {α ε : Type} (write : α → Bytes) (valid : α → Prop)
    (read : Bytes → Except ε (α × Bytes)) : Prop where
  roundTrip : ∀ {a}, valid a → ∀ rest, read (write a ++ rest) = .ok (a, rest)
  wellFormed : ∀ {raw a rest}, read raw = .ok (a, rest) → valid a ∧ raw = write a ++ rest

def readMany {α ε : Type} (read : Bytes → Except ε (α × Bytes)) : Nat → Bytes → Except ε (List α × Bytes)
  | 0, raw => .ok ([], raw)
  | n+1, raw => do
    let (a, raw) ← read raw
    let (as, raw) ← readMany read n raw
    return (a :: as, raw)

theorem exceptBind {ε α β : Type} {x : Except ε α} {f : α → Except ε β} {b : β}
    (h : (x >>= f) = .ok b) : ∃ a, x = .ok a ∧ f a = .ok b := by
  cases x with
  | error e => cases h
  | ok a => exact ⟨a, rfl, h⟩

theorem exceptOk {ε α β : Type} {x : Except ε α} {a : α} (h : x = .ok a) (f : α → Except ε β) :
    (x >>= f) = f a := by
  rw [h]
  rfl

theorem exceptNever {ε α β : Type} {e : ε} {x : Except ε α} {f : α → Except ε β} (first : x ≠ .error e)
    (next : ∀ a, f a ≠ .error e) : (x >>= f) ≠ .error e := by
  cases x with
  | error other => intro h; exact first (by cases h; rfl)
  | ok a => exact next a

theorem readManyNever {α ε : Type} {read : Bytes → Except ε (α × Bytes)} {e : ε} (never : ∀ raw, read raw ≠ .error e)
    (n : Nat) (raw : Bytes) : readMany read n raw ≠ .error e := by
  induction n generalizing raw with
  | zero => intro h; cases h
  | succ n ih => exact exceptNever (never raw) (fun p => exceptNever (ih p.2) (fun _ h => by cases h))

theorem readManyError {α ε : Type} {read : Bytes → Except ε (α × Bytes)} {raw e} (bad : read raw = .error e)
    {n : Nat} (some : 0 < n) : readMany read n raw = .error e := by
  cases n with
  | zero => omega
  | succ n => simp only [readMany, bad, bind, Except.bind]

theorem Exact.many {α ε : Type} {write : α → Bytes} {valid : α → Prop}
    {read : Bytes → Except ε (α × Bytes)} (codec : Exact write valid read) (n : Nat) :
    Exact (fun as => as.flatMap write) (fun as => as.length = n ∧ ∀ a ∈ as, valid a) (readMany read n) := by
  constructor
  · intro as ok rest
    induction as generalizing n with
    | nil => obtain ⟨rfl, _⟩ := ok; rfl
    | cons a as ih =>
      obtain ⟨rfl, all⟩ := ok
      have head := codec.roundTrip (all a List.mem_cons_self) (as.flatMap write ++ rest)
      have tail := ih as.length ⟨rfl, fun x hx => all x (List.mem_cons_of_mem _ hx)⟩
      simp only [List.flatMap_cons, List.append_assoc, List.length_cons, readMany, head, bind,
        Except.bind, tail]
      rfl
  · intro raw as rest h
    induction n generalizing raw as rest with
    | zero => cases h; simp
    | succ n ih =>
      obtain ⟨⟨a, r⟩, hr, h⟩ := exceptBind h
      obtain ⟨⟨tail, r'⟩, ht, h⟩ := exceptBind h
      cases h
      obtain ⟨va, rfl⟩ := codec.wellFormed hr
      obtain ⟨⟨len, vt⟩, rfl⟩ := ih ht
      refine ⟨⟨by simp [len], ?_⟩, by simp⟩
      intro x hx
      rcases List.mem_cons.mp hx with rfl | hx
      · exact va
      · exact vt x hx

end Bootstrap.ByteLayout
