import Bootstrap.ByteLayout

/-! The little-endian primitives that user.db is written and read with. A reader takes
the bytes from the stream position on and returns the bytes that are left. -/
namespace Bootstrap.SerialUtils
open CInt ByteLayout

structure FilePartitionInfo where
  shadowStart : Nat
  shadowStop : Nat
  fileIndex : Nat
  startInFile : Nat
  stopInFile : Nat
  deriving DecidableEq, Repr, Inhabited

namespace FilePartitionInfo

def sizeOf : Nat := 40

def fields (p : FilePartitionInfo) : List Field :=
  [(8, p.shadowStart), (8, p.shadowStop), (8, p.fileIndex), (8, p.startInFile), (8, p.stopInFile)]

structure Fits (p : FilePartitionInfo) : Prop where
  shadowStart : p.shadowStart < 2 ^ 64
  shadowStop : p.shadowStop < 2 ^ 64
  fileIndex : p.fileIndex < 2 ^ 64
  startInFile : p.startInFile < 2 ^ 64
  stopInFile : p.stopInFile < 2 ^ 64

instance (p : FilePartitionInfo) : Decidable p.Fits :=
  decidable_of_iff (p.shadowStart < 2 ^ 64 ∧ p.shadowStop < 2 ^ 64 ∧ p.fileIndex < 2 ^ 64 ∧ p.startInFile < 2 ^ 64 ∧
    p.stopInFile < 2 ^ 64) ⟨fun ⟨a, b, c, d, e⟩ => ⟨a, b, c, d, e⟩, fun ⟨a, b, c, d, e⟩ => ⟨a, b, c, d, e⟩⟩

def image (p : FilePartitionInfo) : Bytes := pack p.fields

def ofImage (raw : Bytes) : FilePartitionInfo :=
  ⟨readLE (slice raw 0 8), readLE (slice raw 8 8), readLE (slice raw 16 8), readLE (slice raw 24 8),
    readLE (slice raw 32 8)⟩

@[simp] theorem imageLength (p : FilePartitionInfo) : p.image.length = 40 := by
  simp [image, fields, widths]

theorem ofImageImage {p : FilePartitionInfo} (fits : p.Fits) (rest : Bytes) : ofImage (p.image ++ rest) = p :=
  congr (congr (congr (congr (congrArg mk
    (packedWord [] fits.shadowStart (p.fields.drop 1) rest))
    (packedWord (p.fields.take 1) fits.shadowStop (p.fields.drop 2) rest))
    (packedWord (p.fields.take 2) fits.fileIndex (p.fields.drop 3) rest))
    (packedWord (p.fields.take 3) fits.startInFile (p.fields.drop 4) rest))
    (packedWord (p.fields.take 4) fits.stopInFile (p.fields.drop 5) rest)

theorem wordBound (raw : Bytes) (start : Nat) : readLE (slice raw start 8) < 2 ^ 64 := by
  have bound := readLeBound (slice raw start 8)
  have small := sliceLengthLe raw start 8
  have mono : 256 ^ (slice raw start 8).length ≤ 256 ^ 8 := Nat.pow_le_pow_right (by decide) small
  have eight : (256 : Nat) ^ 8 = 2 ^ 64 := rfl
  omega

theorem ofImageFits (raw : Bytes) : (ofImage raw).Fits :=
  ⟨wordBound raw 0, wordBound raw 8, wordBound raw 16, wordBound raw 24, wordBound raw 32⟩

theorem imageOfImage {raw : Bytes} (enough : 40 ≤ raw.length) : (ofImage raw).image = raw.take 40 := by
  have parts : (ofImage raw).image = slice raw 0 8 ++ (slice raw 8 8 ++ (slice raw 16 8 ++
      (slice raw 24 8 ++ slice raw 32 8))) := by
    simp only [image, fields, ofImage, pack, List.flatMap_cons, List.flatMap_nil, List.append_nil]
    rw [leOfSlice (by omega), leOfSlice (by omega), leOfSlice (by omega), leOfSlice (by omega),
      leOfSlice (by omega)]
  rw [parts, sliceJoin raw 24 8 8, sliceJoin raw 16 8 16, sliceJoin raw 8 8 24, sliceJoin raw 0 8 32]
  simp [slice]

end FilePartitionInfo

def serialUint32 (i : Nat) : Bytes := le 4 i
def serialUint64 (i : Nat) : Bytes := le 8 i

def serialString (str : Bytes) : Bytes :=
  let len := u32 str.length
  serialUint32 len ++ str.take len

/- The loop's counter is an int: for up to 2^31 - 1 strings. -/
def serialStringVector (v : List Bytes) : Bytes :=
  let len := u32 v.length
  serialUint32 len ++ (v.take len).flatMap serialString

/- fwrite's count is kept in an int before it is compared with the size_t byte count. -/
def serialPartitionVector (v : List FilePartitionInfo) : Except Stop Bytes :=
  let len := u32 v.length
  let size := FilePartitionInfo.sizeOf * len
  if i32 size ≠ size then .error .exited
  else .ok (serialUint32 len ++ (v.take len).flatMap FilePartitionInfo.image)

/- A short read consumes what is there and stands for (uint32_t)-1. -/
def unserialUint32 (fp : Bytes) : Nat × Bytes :=
  if 4 ≤ fp.length then (readLE (slice fp 0 4), fp.drop 4) else (2 ^ 32 - 1, [])

def unserialUint64 (fp : Bytes) : Except Stop (Nat × Bytes) :=
  if 8 ≤ fp.length then .ok (readLE (slice fp 0 8), fp.drop 8) else .error .exited

def bufferSize : Nat := 4096

/- fread stores min(len, bytes left) bytes into buffer[4096]. -/
def unserialString (fp : Bytes) : Except Stop (Bytes × Bytes) :=
  let (len, fp) := unserialUint32 fp
  let stored := slice fp 0 len
  if bufferSize < stored.length then .error .faulted
  else if stored.length ≠ len then .error .exited
  else .ok (stored, fp.drop len)

/- The loop counts in an int, which cannot go past 2^31 - 1. -/
def unserialStringVector (fp : Bytes) : Except Stop (List Bytes × Bytes) := do
  let (len, fp) := unserialUint32 fp
  let (v, fp) ← readMany unserialString (min len (2 ^ 31)) fp
  if 2 ^ 31 ≤ len then throw .faulted
  return (v, fp)

/- A count whose byte size does not fit an int never passes the read_cnt test, so the
process ends there whether or not the allocation before it succeeds. -/
def unserialPartitionVector (fp : Bytes) : Except Stop (List FilePartitionInfo × Bytes) :=
  let (len, fp) := unserialUint32 fp
  let size := FilePartitionInfo.sizeOf * len
  let stored := slice fp 0 size
  if i32 stored.length ≠ size then .error .exited
  else .ok ((List.range len).map (fun i => FilePartitionInfo.ofImage (slice stored (40 * i) 40)), fp.drop size)

theorem uint32Read {i : Nat} (small : i < 2 ^ 32) (rest : Bytes) :
    unserialUint32 (serialUint32 i ++ rest) = (i, rest) := by
  have len := leLength 4 i
  have word : slice (le 4 i ++ rest) 0 4 = le 4 i := sliceHead len rest
  have value : readLE (le 4 i) = i := by
    rw [readLeEncoded]
    exact Nat.mod_eq_of_lt small
  have tail : (le 4 i ++ rest).drop 4 = rest := List.drop_left' len
  simp only [unserialUint32, serialUint32, List.length_append, len, Nat.le_add_right, if_true, word, value, tail]

theorem uint64Read {i : Nat} (small : i < 2 ^ 64) (rest : Bytes) :
    unserialUint64 (serialUint64 i ++ rest) = .ok (i, rest) := by
  have len := leLength 8 i
  have word : slice (le 8 i ++ rest) 0 8 = le 8 i := sliceHead len rest
  have value : readLE (le 8 i) = i := by
    rw [readLeEncoded]
    exact Nat.mod_eq_of_lt small
  have tail : (le 8 i ++ rest).drop 8 = rest := List.drop_left' len
  simp only [unserialUint64, serialUint64, List.length_append, len, Nat.le_add_right, if_true, word, value, tail]

/-- A 32-bit word is either read whole, or it reads as a huge number with nothing left behind it. -/
theorem uint32Source (fp : Bytes) :
    (∃ i rest, i < 2 ^ 32 ∧ fp = serialUint32 i ++ rest ∧ unserialUint32 fp = (i, rest)) ∨
    (∃ huge, 2 ^ 31 ≤ huge ∧ huge < 2 ^ 32 ∧ unserialUint32 fp = (huge, [])) := by
  by_cases enough : 4 ≤ fp.length
  · left
    have bound := readLeBound (slice fp 0 4)
    rw [sliceLength (by omega : 0 + 4 ≤ fp.length)] at bound
    have whole : fp = le 4 (readLE (slice fp 0 4)) ++ fp.drop 4 := by
      rw [leOfSlice (by omega)]
      simp [slice]
    exact ⟨readLE (slice fp 0 4), fp.drop 4, bound, whole, by rw [unserialUint32, if_pos enough]⟩
  · right
    exact ⟨2 ^ 32 - 1, by decide, by decide, by rw [unserialUint32, if_neg enough]⟩

theorem stringCutOff {fp : Bytes} {huge : Nat} (large : 2 ^ 31 ≤ huge)
    (h : unserialUint32 fp = (huge, [])) : unserialString fp = .error .exited := by
  have empty : slice [] 0 huge = [] := by simp [slice]
  have fit : ¬ bufferSize < 0 := by omega
  have short : 0 ≠ huge := by omega
  simp only [unserialString, h, empty, List.length_nil, fit, if_false, if_pos short]

theorem stringExact : Exact serialString (fun s => s.length ≤ bufferSize) unserialString := by
  constructor
  · intro s short rest
    unfold bufferSize at short
    have len : u32 s.length = s.length := u32Exact (by omega)
    have stored : slice (s ++ rest) 0 s.length = s := by simpa using sliceAt [] s rest
    have fit : ¬ bufferSize < s.length := by unfold bufferSize; omega
    rw [serialString, len, List.take_length, List.append_assoc, unserialString,
      uint32Read (by omega : s.length < 2 ^ 32)]
    simp only [stored, fit, if_false, ne_eq, not_true_eq_false, List.drop_left]
  · intro raw s rest h
    rcases uint32Source raw with ⟨len, tail, small, rfl, hr⟩ | ⟨huge, large, _, hr⟩
    · simp only [unserialString, hr] at h
      split at h
      · cases h
      split at h
      · cases h
      rename_i fit exact
      cases h
      have same : (slice tail 0 len).length = len := by omega
      have narrow : u32 (slice tail 0 len).length = len := by rw [same]; exact u32Exact small
      refine ⟨by omega, ?_⟩
      rw [serialString, narrow, List.take_of_length_le (by omega), List.append_assoc]
      simp [slice]
    · rw [stringCutOff large hr] at h
      contradiction

theorem emptyString : unserialString [] = .error .exited :=
  stringCutOff (show 2 ^ 31 ≤ 2 ^ 32 - 1 by decide) rfl

theorem stringNeverRefuses (fp : Bytes) : unserialString fp ≠ .error .failed := by
  unfold unserialString
  dsimp only
  split
  · exact fun h => by cases h
  · split <;> exact fun h => by cases h

theorem stringVectorExact :
    Exact serialStringVector (fun v => v.length < 2 ^ 31 ∧ ∀ s ∈ v, s.length ≤ bufferSize)
      unserialStringVector := by
  constructor
  · intro v ok rest
    have small := ok.1
    have len : u32 v.length = v.length := u32Exact (by omega)
    have least : min v.length (2 ^ 31) = v.length := Nat.min_eq_left (by omega)
    rw [serialStringVector, len, List.take_length, List.append_assoc, unserialStringVector, uint32Read (by omega)]
    dsimp only
    rw [least, exceptOk ((stringExact.many v.length).roundTrip ⟨rfl, ok.2⟩ rest)]
    dsimp only
    rw [if_neg (by omega)]
    rfl
  · intro raw v rest h
    unfold unserialStringVector at h
    rcases uint32Source raw with ⟨len, tail, small, rfl, hr⟩ | ⟨huge, large, _, hr⟩
    · rw [hr] at h
      obtain ⟨⟨v', rest'⟩, read, h⟩ := exceptBind h
      dsimp only at read h
      split at h
      · cases h
      · rename_i counted
        cases h
        rw [Nat.min_eq_left (by omega)] at read
        obtain ⟨⟨rfl, all⟩, rfl⟩ := (stringExact.many len).wellFormed read
        refine ⟨⟨by omega, all⟩, ?_⟩
        rw [serialStringVector, u32Exact small, List.take_length, List.append_assoc]
    · rw [hr] at h
      obtain ⟨_, read, _⟩ := exceptBind h
      rw [readManyError emptyString (by omega)] at read
      cases read

theorem serialPartitionsSmall {v : List FilePartitionInfo} (small : 40 * v.length < 2 ^ 31) :
    serialPartitionVector v = .ok (serialUint32 v.length ++ v.flatMap FilePartitionInfo.image) := by
  have len : u32 v.length = v.length := u32Exact (by omega)
  have size : i32 ((FilePartitionInfo.sizeOf * v.length : Nat) : Int) = (FilePartitionInfo.sizeOf * v.length : Nat) := by
    unfold FilePartitionInfo.sizeOf
    exact i32Exact (by omega) (by omega)
  simp only [serialPartitionVector, len, size, ne_eq, not_true_eq_false, if_false, List.take_length]

theorem imagesLength (v : List FilePartitionInfo) : (v.flatMap FilePartitionInfo.image).length = 40 * v.length := by
  induction v with
  | nil => rfl
  | cons p v ih => simp only [List.flatMap_cons, List.length_append, ih, FilePartitionInfo.imageLength,
      List.length_cons]; omega

theorem imagesAt {v : List FilePartitionInfo} (fits : ∀ p ∈ v, p.Fits) :
    (List.range v.length).map (fun i => FilePartitionInfo.ofImage
      (slice (v.flatMap FilePartitionInfo.image) (40 * i) 40)) = v := by
  induction v with
  | nil => rfl
  | cons p v ih =>
    have head : slice (p.image ++ v.flatMap FilePartitionInfo.image) 0 40 = p.image := by
      simpa using sliceAt [] p.image (v.flatMap FilePartitionInfo.image)
    have first := FilePartitionInfo.ofImageImage (fits p List.mem_cons_self) []
    have later : ∀ i, slice (p.image ++ v.flatMap FilePartitionInfo.image) (40 * (i + 1)) 40 =
        slice (v.flatMap FilePartitionInfo.image) (40 * i) 40 := by
      intro i
      have shift := sliceRight p.image (v.flatMap FilePartitionInfo.image) (40 * i) 40
      rw [FilePartitionInfo.imageLength] at shift
      rw [← shift]
      congr 1
      omega
    rw [List.append_nil] at first
    simp only [List.flatMap_cons, List.length_cons, List.range_succ_eq_map, List.map_cons, List.map_map,
      Function.comp_def, Nat.mul_zero, head, first, later]
    rw [ih (fun q hq => fits q (List.mem_cons_of_mem _ hq))]

theorem partitionsRead {v : List FilePartitionInfo} (small : 40 * v.length < 2 ^ 31) (fits : ∀ p ∈ v, p.Fits)
    (rest : Bytes) :
    unserialPartitionVector (serialUint32 v.length ++ v.flatMap FilePartitionInfo.image ++ rest) = .ok (v, rest) := by
  have len := imagesLength v
  have size : FilePartitionInfo.sizeOf * v.length = (v.flatMap FilePartitionInfo.image).length := by
    rw [len, FilePartitionInfo.sizeOf]
  have stored : slice (v.flatMap FilePartitionInfo.image ++ rest) 0 (FilePartitionInfo.sizeOf * v.length) =
      v.flatMap FilePartitionInfo.image := by
    rw [size]
    simpa using sliceAt [] (v.flatMap FilePartitionInfo.image) rest
  have counted : i32 ((v.flatMap FilePartitionInfo.image).length : Int) =
      (FilePartitionInfo.sizeOf * v.length : Nat) := by
    rw [size, len]
    exact i32Exact (by omega) (by omega)
  rw [List.append_assoc, unserialPartitionVector, uint32Read (by omega : v.length < 2 ^ 32)]
  simp only [stored, counted, ne_eq, not_true_eq_false, if_false, imagesAt fits]
  rw [size, List.drop_left]

theorem imagesOfSlices (raw : Bytes) (n : Nat) (enough : 40 * n ≤ raw.length) :
    ((List.range n).map (fun i => FilePartitionInfo.ofImage (slice raw (40 * i) 40))).flatMap
      FilePartitionInfo.image = slice raw 0 (40 * n) := by
  induction n with
  | zero => rfl
  | succ n ih =>
    have last : (FilePartitionInfo.ofImage (slice raw (40 * n) 40)).image = slice raw (40 * n) 40 := by
      have len : (slice raw (40 * n) 40).length = 40 := sliceLength (by omega)
      rw [FilePartitionInfo.imageOfImage (by omega), List.take_of_length_le (by omega)]
    have join := sliceJoin raw 0 (40 * n) 40
    rw [Nat.zero_add] at join
    rw [List.range_succ, List.map_append, List.flatMap_append, ih (by omega)]
    simp only [List.map_cons, List.map_nil, List.flatMap_cons, List.flatMap_nil, List.append_nil, last, join]
    rfl

theorem partitionsSource {raw : Bytes} {v : List FilePartitionInfo} {rest : Bytes}
    (h : unserialPartitionVector raw = .ok (v, rest)) :
    40 * v.length < 2 ^ 31 ∧ (∀ p ∈ v, p.Fits) ∧
      raw = serialUint32 v.length ++ v.flatMap FilePartitionInfo.image ++ rest := by
  rcases uint32Source raw with ⟨len, tail, small, rfl, hr⟩ | ⟨huge, large, _, hr⟩
  · simp only [unserialPartitionVector, hr] at h
    by_cases counted : i32 (slice tail 0 (FilePartitionInfo.sizeOf * len)).length =
        (FilePartitionInfo.sizeOf * len : Nat)
    · rw [if_neg (fun other => other counted)] at h
      cases h
      unfold FilePartitionInfo.sizeOf at counted ⊢
      have short := sliceLengthLe tail 0 (40 * len)
      -- an int that equals the size_t byte count is the true count, and below 2^31
      have size : (slice tail 0 (40 * len)).length = 40 * len ∧ 40 * len < 2 ^ 31 := by
        unfold i32 at counted
        omega
      have images := imagesOfSlices (slice tail 0 (40 * len)) len (by omega)
      refine ⟨by simpa using size.2, ?_, ?_⟩
      · intro p hp
        obtain ⟨i, _, rfl⟩ := List.mem_map.mp hp
        exact FilePartitionInfo.ofImageFits _
      · rw [images, List.length_map, List.length_range, sliceOfSlice _ (by omega), List.append_assoc]
        simp [slice]
    · rw [if_pos counted] at h
      cases h
  · have empty : slice [] 0 (FilePartitionInfo.sizeOf * huge) = [] := by simp [slice]
    have unequal : i32 ((0 : Nat) : Int) ≠ (FilePartitionInfo.sizeOf * huge : Nat) := by
      unfold i32 FilePartitionInfo.sizeOf
      omega
    simp only [unserialPartitionVector, hr, empty, List.length_nil, if_pos unequal] at h
    cases h

theorem partitionsNeverRefuse (fp : Bytes) : unserialPartitionVector fp ≠ .error .failed := by
  unfold unserialPartitionVector
  dsimp only
  split <;> exact fun h => by cases h

theorem uint64NeverRefuses (fp : Bytes) : unserialUint64 fp ≠ .error .failed := by
  unfold unserialUint64
  split <;> exact fun h => by cases h

theorem uint64Source {fp : Bytes} {i : Nat} {rest : Bytes} (h : unserialUint64 fp = .ok (i, rest)) :
    i < 2 ^ 64 ∧ fp = serialUint64 i ++ rest := by
  unfold unserialUint64 at h
  split at h
  · rename_i enough
    cases h
    refine ⟨FilePartitionInfo.wordBound fp 0, ?_⟩
    rw [serialUint64, leOfSlice (by omega)]
    simp [slice]
  · cases h

end Bootstrap.SerialUtils
