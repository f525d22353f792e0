import Bootstrap.FileMapping

/-! What get_mapping finds: a function of the file behind the descriptor, at offset 0. The
query leaves every descriptor as it was. -/
namespace Bootstrap.FileMapping
open CInt ByteLayout OpenFiles SerialUtils
open Bootstrap.ShadowZip (snprintf512 text)
open ShadowStream (SEEK_SET SEEK_CUR)

namespace FileExtraData

@[simp] theorem imageLength (r : FileExtraData) : r.image.length = sizeOf := by
  simp [image, fields, widths, sizeOf]

theorem ofImageImage {r : FileExtraData} (fits : r.Fits) (rest : Bytes) : ofImage (r.image ++ rest) = r := by
  have number : i32 (readLE (slice (r.image ++ rest) 40 4)) = r.fd := by
    have word := packedWord (r.fields.take 5) (show u32 r.fd < 256 ^ 4 from u32Bound r.fd) (r.fields.drop 6) rest
    have signed : i32 (u32 r.fd) = r.fd := by
      have := fits.fd
      unfold i32 u32
      omega
    exact (congrArg (fun n : Nat => i32 n) word).trans signed
  exact congr (congr (congr (congr (congr (congrArg mk
    (packedWord [] fits.magicNum (r.fields.drop 1) rest))
    (packedWord (r.fields.take 1) fits.self (r.fields.drop 2) rest))
    (packedWord (r.fields.take 2) fits.shadowZip (r.fields.drop 3) rest))
    (packedWord (r.fields.take 3) fits.file (r.fields.drop 4) rest))
    (packedWord (r.fields.take 4) fits.mmapBuffer (r.fields.drop 5) rest)) number

theorem imageInjective {r s : FileExtraData} (left : r.Fits) (right : s.Fits) (same : r.image = s.image) : r = s := by
  rw [← ofImageImage left [], ← ofImageImage right [], same]

end FileExtraData

def hexValue (c : UInt8) : Nat := if c.toNat < 0x40 then c.toNat - 0x30 else c.toNat - 0x57

theorem hexValueDigit : ∀ d < 16, hexValue (hexDigit d) = d := by decide

theorem hexDecoded (n : Nat) : Nat.ofDigits 16 ((hex n).reverse.map hexValue) = n := by
  have digits : ((Nat.digits 16 n).map hexDigit).map hexValue = Nat.digits 16 n := by
    rw [List.map_map]
    refine (List.map_congr_left fun d mem => ?_).trans (List.map_id _)
    exact hexValueDigit d (Nat.digits_lt_base (by decide) mem)
  have zero : hexValue 0x30 = 0 := by decide
  simp only [hex, List.reverse_append, List.map_reverse, List.reverse_reverse, List.reverse_replicate, List.map_append,
    List.map_replicate, digits, zero, Nat.ofDigits_append, Nat.ofDigits_digits, Nat.ofDigits_replicate_zero]
  omega

theorem hexInjective {m n : Nat} (same : hex m = hex n) : m = n := by
  rw [← hexDecoded m, ← hexDecoded n, same]

theorem hexLength {n : Nat} (small : n < 2 ^ 64) : (hex n).length ≤ 16 := by
  have digits : (Nat.digits 16 n).length ≤ 16 :=
    (Nat.digits_length_le_iff (by decide) n).mpr (lt_of_lt_of_eq small (by norm_num))
  simp only [hex, List.length_append, List.length_replicate, List.length_map, List.length_reverse]
  omega

theorem savePathInjective {p : Process} (room : p.useDataPath.length ≤ 479) {m n : Nat} (left : m < 2 ^ 64)
    (right : n < 2 ^ 64) (same : savePath p m = savePath p n) : m = n := by
  have dir : (text "/rt_fd_mappings/").length = 16 := by decide +kernel
  have whole : ∀ n < 2 ^ 64, savePath p n = p.useDataPath ++ text "/rt_fd_mappings/" ++ hex n := by
    intro n small
    refine List.take_of_length_le ?_
    have := hexLength small
    simp only [List.length_append]
    omega
  rw [whole m left, whole n right, List.append_cancel_left_eq] at same
  exact hexInjective same

def lookup (raw : Bytes) (fd : Int) : Nat :=
  let copy := slice raw 0 FileExtraData.sizeOf
  validate fd copy.length copy

def OwnImage (raw : Bytes) (fd : Int) : Prop :=
  FileExtraData.sizeOf ≤ raw.length ∧
    (FileExtraData.ofImage (slice raw 0 FileExtraData.sizeOf)).magicNum = MY_MAGIC_NUM ∧
    (FileExtraData.ofImage (slice raw 0 FileExtraData.sizeOf)).fd = fd

theorem shortCopy (fd : Int) {readCnt : Int} (short : readCnt ≠ FileExtraData.sizeOf) (copy : Bytes) :
    validate fd readCnt copy = NULL := if_pos short

theorem lookupForeign {raw : Bytes} {fd : Int} (foreign : ¬OwnImage raw fd) : lookup raw fd = NULL := by
  by_cases long : FileExtraData.sizeOf ≤ raw.length
  · simp only [lookup, validate]
    split
    · rfl
    · split
      · rfl
      · rename_i magicNum
        split
        · rfl
        · rename_i own
          exact absurd ⟨long, not_not.mp magicNum, not_not.mp own⟩ foreign
  · refine shortCopy fd ?_ _
    simp only [slice, List.drop_zero, List.length_take]
    omega

theorem validateImage {r : FileExtraData} (magicNum : r.magicNum = MY_MAGIC_NUM) (fits : r.Fits) :
    validate r.fd FileExtraData.sizeOf r.image = r.self := by
  have whole := FileExtraData.ofImageImage fits []
  rw [List.append_nil] at whole
  simp only [validate, whole, magicNum, ne_eq, not_true_eq_false, if_false]

theorem sliceImage (r : FileExtraData) : slice r.image 0 FileExtraData.sizeOf = r.image := by
  rw [← FileExtraData.imageLength r, sliceWhole]

theorem imageOwner {r : FileExtraData} (fits : r.Fits) {fd : Int} (own : OwnImage r.image fd) : r.fd = fd := by
  have whole := FileExtraData.ofImageImage fits []
  rw [List.append_nil] at whole
  rw [OwnImage, sliceImage, whole] at own
  exact own.2.2

def fileFound (k : Kernel) (fd : Int) : Nat :=
  match k.fds fd with
  | none => NULL
  | some f => if f.offset = 0 ∧ f.readable then lookup (k.contents f.node) fd else NULL

theorem getFileMappingFound (k : Kernel) (fd : Int) : getFileMapping k fd = (fileFound k fd, k) := by
  cases here : k.fds fd with
  | none => simp [getFileMapping, fileFound, Kernel.lseek, here]
  | some f =>
    obtain ⟨still, atStart⟩ := Kernel.lseekHere here
    simp only [getFileMapping, SEEK_CUR, SEEK_SET, fileFound, here, ne_eq, still, atStart]
    by_cases start : f.offset = 0
    · have same : (some { f with offset := 0 } : Option OpenFile) = some f := by rw [← start]
      have rewound := Kernel.lseekStart here
      rw [same, Kernel.setFileSame here] at rewound
      rw [if_neg (not_not.mpr start)]
      cases readable : f.readable with
      | false =>
        simp only [rewound, Kernel.readRefused here readable, Bool.false_eq_true, and_false, if_false]
        rw [shortCopy fd (by decide)]
      | true =>
        have small : FileExtraData.sizeOf ≤ readLimit := by decide
        have copied := Kernel.readHere here readable small rfl
        have back := Kernel.lseekStart (k := (k.read fd FileExtraData.sizeOf).2.2) (by rw [copied]; exact Kernel.setFileHere _ _ _)
        rw [copied] at back
        simp only [Kernel.setFileTwice, same, Kernel.setFileSame here] at back
        simp only [rewound, copied, back]
        simp only [start, and_self, if_true, lookup]
    · rw [if_pos start, if_neg (fun both => start both.1)]

section
variable {p : Process}

def found (p : Process) (k : Kernel) (fd : Int) : Nat := if p.useSharedMem then getMemMapping p k fd else fileFound k fd

theorem getMappingFound (p : Process) (w : World) (fd : Int) : getMapping p w fd = (found p w.toKernel fd, w) := by
  simp only [getMapping, found, getFileMappingFound]
  split <;> rfl

structure Mapped (p : Process) (k : Kernel) (fd : Int) (r : FileExtraData) : Prop where
  magicNum : r.magicNum = MY_MAGIC_NUM
  own : r.fd = fd
  fits : r.Fits
  self : r.self ≠ NULL
  behind : ∃ node, k.fds fd = some ⟨node, 0, true⟩ ∧ k.contents node = r.image ∧
    (p.useSharedMem = true → p.fileId node = p.shmId)

structure Foreign (p : Process) (contents : Nat → Bytes) (fd : Int) (node : Nat) : Prop where
  regular : p.fileId node ≠ p.shmId
  other : p.useSharedMem = false → ¬OwnImage (contents node) fd

theorem mappedFound {k : Kernel} {fd : Int} {r : FileExtraData} (mapped : Mapped p k fd r) : found p k fd = r.self := by
  obtain ⟨node, here, content, region⟩ := mapped.behind
  have valid := validateImage mapped.magicNum mapped.fits
  rw [mapped.own] at valid
  unfold found
  split
  · rename_i shared
    simp only [getMemMapping, here, content, sliceImage, region shared, ne_eq, not_true_eq_false, if_false]
    exact valid
  · simp only [fileFound, here, lookup, content, sliceImage, FileExtraData.imageLength, and_self, if_true]
    exact valid

theorem closedFound {k : Kernel} {fd : Int} (closed : k.fds fd = none) : found p k fd = NULL := by
  simp only [found, getMemMapping, fileFound, closed, ite_self]

theorem foreignFound {k : Kernel} {fd : Int} {f : OpenFile} (here : k.fds fd = some f)
    (foreign : Foreign p k.contents fd f.node) : found p k fd = NULL := by
  unfold found
  split
  · simp only [getMemMapping, here]
    exact if_pos foreign.regular.symm
  · rename_i filed
    simp only [fileFound, here, lookupForeign (foreign.other (Bool.eq_false_iff.mpr filed)), ite_self]

end

end Bootstrap.FileMapping
