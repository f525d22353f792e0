import Bootstrap.CInt
import Bootstrap.SignedLeb
import Mathlib.Data.BitVec
import Mathlib.Data.Nat.Bitwise

/-! The relocations of a .rel(a).android section, one after another. -/
namespace Bootstrap.Xhook
open CInt ByteLayout SignedLeb

/- The decoder is what is left of its section. It fails at the end of the section; a shift by 64
and more is not defined. -/
def sleb128Loop (value : BitVec 64) (shift : Nat) : Bytes → Except Stop (BitVec 64 × Bytes)
  | [] => .error .failed
  | byte :: cur =>
    if 64 ≤ shift then .error .faulted
    else
      let value := value ||| (BitVec.ofNat 64 (byte &&& 127).toNat <<< shift)
      let shift := shift + 7
      if byte &&& 128 ≠ 0 then sleb128Loop value shift cur
      else if shift < 64 ∧ byte &&& 64 ≠ 0 then .ok (value ||| -(1#64 <<< shift), cur)
      else .ok (value, cur)

def sleb128DecoderNext (decoder : Bytes) : Except Stop (BitVec 64 × Bytes) := sleb128Loop 0 0 decoder

/-! The decoder. -/

theorem lowBits (byte : UInt8) : (byte &&& 127).toNat = byte.toNat % 128 := by
  rw [UInt8.toNat_and]
  exact Nat.and_two_pow_sub_one_eq_mod byte.toNat 7

theorem hasBit (byte : UInt8) {i : Nat} (low : i < 8) :
    byte &&& UInt8.ofNat (2 ^ i) ≠ 0 ↔ byte.toNat / 2 ^ i % 2 = 1 := by
  have power : 2 ^ i < 2 ^ 8 := Nat.pow_lt_pow_right (by omega) low
  rw [ne_eq, ← UInt8.toNat_inj, UInt8.toNat_and, UInt8.toNat_ofNat', Nat.mod_eq_of_lt power, Nat.and_two_pow,
    Nat.testBit_eq_decide_div_mod_eq]
  by_cases set : byte.toNat / 2 ^ i % 2 = 1 <;> simp [set]

theorem highBit (byte : UInt8) : byte &&& 128 ≠ 0 ↔ 128 ≤ byte.toNat := by
  have bit := hasBit byte (i := 7) (by omega)
  have bound := byte.toNat_lt
  refine bit.trans ?_
  omega

theorem signBit {byte : UInt8} (ends : byte.toNat < 128) : byte &&& 64 ≠ 0 ↔ 64 ≤ byte.toNat := by
  have bit := hasBit byte (i := 6) (by omega)
  refine bit.trans ?_
  omega

theorem orShifted {value : BitVec 64} {shift : Nat} (small : value.toNat < 2 ^ shift) (bits : Nat) :
    value ||| (BitVec.ofNat 64 bits <<< shift) = BitVec.ofInt 64 (value.toNat + 2 ^ shift * bits) := by
  have disjoint : value &&& (BitVec.ofNat 64 bits <<< shift) = 0#64 := by
    apply BitVec.eq_of_getLsbD_eq
    intro i _
    rw [BitVec.getLsbD_and, BitVec.getLsbD_shiftLeft]
    by_cases low : i < shift
    · simp [low]
    · have clear : value.getLsbD i = false :=
        Nat.testBit_lt_two_pow (Nat.lt_of_lt_of_le small (Nat.pow_le_pow_right (by omega) (by omega)))
      simp [clear]
  have shifted : BitVec.ofNat 64 bits <<< shift = BitVec.ofInt 64 (2 ^ shift * bits) := by
    apply BitVec.eq_of_toNat_eq
    have cast : ((2 : Int) ^ shift * bits) = (2 ^ shift * bits : Nat) := by push_cast; rfl
    rw [cast, BitVec.ofInt_natCast, BitVec.toNat_shiftLeft, BitVec.toNat_ofNat, BitVec.toNat_ofNat, Nat.shiftLeft_eq,
      Nat.mod_mul_mod, Nat.mul_comm]
  rw [← BitVec.add_eq_or_of_and_eq_zero _ _ disjoint, shifted, BitVec.ofInt_add, BitVec.ofInt_natCast, BitVec.ofNat_toNat,
    BitVec.setWidth_eq]

theorem ofIntMod {a b : Int} (same : a % 2 ^ 64 = b % 2 ^ 64) : BitVec.ofInt 64 a = BitVec.ofInt 64 b := by
  apply BitVec.eq_of_toNat_eq
  simp only [BitVec.toNat_ofInt]
  exact congrArg Int.toNat same

theorem orSign {value : BitVec 64} {shift : Nat} (small : value.toNat < 2 ^ shift) :
    value ||| -(1#64 <<< shift) = BitVec.ofInt 64 (value.toNat - 2 ^ shift) := by
  have ones : -(1#64 <<< shift) = BitVec.ofNat 64 (2 ^ 64 - 1) <<< shift := by
    rw [← BitVec.shiftLeft_neg]
    rfl
  rw [ones, orShifted small]
  apply ofIntMod
  push_cast
  omega

theorem grownValue {value : BitVec 64} {shift bits : Nat} (small : value.toNat < 2 ^ shift) (bound : bits < 128)
    (inside : shift + 7 ≤ 64) :
    (BitVec.ofInt 64 (value.toNat + 2 ^ shift * bits)).toNat = value.toNat + 2 ^ shift * bits ∧
      value.toNat + 2 ^ shift * bits < 2 ^ (shift + 7) := by
  have next : 2 ^ (shift + 7) = 2 ^ shift * 128 := Nat.pow_add 2 shift 7
  have room : 2 ^ shift * (bits + 1) ≤ 2 ^ shift * 128 := Nat.mul_le_mul_left _ (by omega)
  have below : value.toNat + 2 ^ shift * bits < 2 ^ (shift + 7) := by
    rw [Nat.mul_succ] at room
    omega
  have whole : 2 ^ (shift + 7) ≤ 2 ^ 64 := Nat.pow_le_pow_right (by omega) inside
  have cast : ((value.toNat : Int) + 2 ^ shift * bits) = (value.toNat + 2 ^ shift * bits : Nat) := by push_cast; rfl
  rw [cast, BitVec.ofInt_natCast, BitVec.toNat_ofNat, Nat.mod_eq_of_lt (by omega)]
  exact ⟨rfl, below⟩

theorem loopDecodes {raw : Bytes} {number : Int} (encodes : Encodes raw number) (rest : Bytes) {value : BitVec 64}
    {shift : Nat} (small : value.toNat < 2 ^ shift) (inside : shift + 7 * raw.length ≤ 70) :
    sleb128Loop value shift (raw ++ rest) = .ok (BitVec.ofInt 64 (value.toNat + 2 ^ shift * number), rest) := by
  induction encodes generalizing value shift with
  | last byte ends =>
    simp only [List.length_cons, List.length_nil] at inside
    have done : ¬byte &&& 128 ≠ 0 := fun more => by have := (highBit byte).mp more; omega
    rw [List.cons_append, List.nil_append, sleb128Loop, if_neg (by omega), lowBits, Nat.mod_eq_of_lt ends, orShifted small]
    dsimp only
    rw [if_neg done]
    have next : (2 : Int) ^ (shift + 7) = 2 ^ shift * 128 := by rw [pow_add]; rfl
    by_cases negative : 64 ≤ byte.toNat
    · rw [if_neg (by omega : ¬byte.toNat < 64)]
      by_cases short : shift + 7 < 64
      · obtain ⟨exact_, below⟩ := grownValue small ends (by omega)
        rw [if_pos ⟨short, (signBit ends).mpr negative⟩, orSign (by rw [exact_]; exact below), exact_, next]
        refine congrArg (fun number => Except.ok (BitVec.ofInt 64 number, rest)) ?_
        push_cast
        linarith
      · rw [if_neg (fun both => short both.1)]
        refine congrArg (fun number => Except.ok (number, rest)) (ofIntMod ?_)
        have gone : (2 : Int) ^ shift * 128 = 2 ^ 64 * 2 ^ (shift - 57) := by
          rw [← next, ← pow_add]
          congr 1
          omega
        rw [mul_sub, gone, ← add_sub_assoc, Int.sub_mul_emod_self_left]
    · rw [if_pos (by omega : byte.toNat < 64), if_neg (fun both => negative ((signBit ends).mp both.2))]
  | @more byte raw number continues tail ih =>
    simp only [List.length_cons] at inside
    have some := encodesNonempty tail
    have bound := byte.toNat_lt
    have low : byte.toNat % 128 = byte.toNat - 128 := by omega
    obtain ⟨exact_, below⟩ := grownValue small (by omega : byte.toNat - 128 < 128) (by omega)
    rw [List.cons_append, sleb128Loop, if_neg (by omega), lowBits, low, orShifted small]
    dsimp only
    rw [if_pos ((highBit byte).mpr continues), ih (by rw [exact_]; exact below) (by omega), exact_]
    refine congrArg (fun number => Except.ok (BitVec.ofInt 64 number, rest)) ?_
    rw [pow_add]
    push_cast [continues]
    rw [mul_add, mul_assoc]
    omega

theorem loopReads {fp : Bytes} {value x : BitVec 64} {shift : Nat} {rest : Bytes}
    (read : sleb128Loop value shift fp = .ok (x, rest)) :
    ∃ raw number, fp = raw ++ rest ∧ Encodes raw number ∧ shift + 7 * raw.length ≤ 70 := by
  induction fp generalizing value shift with
  | nil => cases read
  | cons byte cur ih =>
    rw [sleb128Loop] at read
    dsimp only at read
    split at read
    · cases read
    · rename_i inside
      split at read
      · rename_i more
        obtain ⟨raw, number, rfl, tail, short⟩ := ih read
        refine ⟨byte :: raw, _, rfl, .more byte ((highBit byte).mp more) tail, ?_⟩
        rw [List.length_cons]
        omega
      · rename_i done
        have ends : byte.toNat < 128 := by
          by_contra more
          exact done ((highBit byte).mpr (by omega))
        refine ⟨[byte], _, ?_, .last byte ends, ?_⟩
        · split at read <;> cases read <;> rfl
        · simp only [List.length_cons, List.length_nil]
          omega

theorem loopStops {fp : Bytes} {value : BitVec 64} {n : Nat} (inside : n ≤ 10) :
    (sleb128Loop value (7 * n) fp = .error .failed ↔ n + fp.length ≤ 10 ∧ ∀ b ∈ fp, 128 ≤ b.toNat) ∧
    (sleb128Loop value (7 * n) fp = .error .faulted ↔ 10 < n + fp.length ∧ ∀ b ∈ fp.take (10 - n), 128 ≤ b.toNat) ∧
    sleb128Loop value (7 * n) fp ≠ .error .exited := by
  induction fp generalizing value n with
  | nil => simp [sleb128Loop, inside]
  | cons byte cur ih =>
    rw [sleb128Loop]
    by_cases full : n = 10
    · subst full
      simp
    · have room : 10 - n = (10 - (n + 1)) + 1 := by omega
      rw [if_neg (by omega), room, List.take_succ_cons]
      dsimp only
      by_cases more : 128 ≤ byte.toNat
      · obtain ⟨failed, faulted, exited⟩ := @ih (value ||| BitVec.ofNat 64 (byte &&& 127).toNat <<< (7 * n)) (n + 1) (by omega)
        rw [if_pos ((highBit byte).mpr more)]
        refine ⟨failed.trans ?_, faulted.trans ?_, exited⟩ <;>
          simp only [List.length_cons, List.forall_mem_cons, more, true_and] <;>
          rw [show n + 1 + cur.length = n + (cur.length + 1) by omega]
      · rw [if_neg (fun high => more ((highBit byte).mp high))]
        simp only [List.forall_mem_cons, more, false_and, and_false, iff_false]
        split <;> simp

theorem decoderReads {raw : Bytes} {number : Int} (encodes : Encodes raw number) (short : raw.length ≤ 10) (rest : Bytes) :
    sleb128DecoderNext (raw ++ rest) = .ok (BitVec.ofInt 64 number, rest) := by
  have decoded := @loopDecodes _ _ encodes rest 0 0 (by decide) (by omega)
  rw [sleb128DecoderNext, decoded]
  simp

theorem sleb128Reads (decoder : Bytes) (x : BitVec 64) (rest : Bytes) : sleb128DecoderNext decoder = .ok (x, rest) ↔
    ∃ raw number, decoder = raw ++ rest ∧ Encodes raw number ∧ raw.length ≤ 10 ∧ x = BitVec.ofInt 64 number := by
  constructor
  · intro read
    obtain ⟨raw, number, split, encodes, short⟩ := loopReads read
    refine ⟨raw, number, split, encodes, by omega, ?_⟩
    rw [split, decoderReads encodes (by omega)] at read
    cases read
    rfl
  · rintro ⟨raw, number, rfl, encodes, short, rfl⟩
    exact decoderReads encodes short rest

/-- Every encoding of at most ten bytes is read as its number modulo 2^64, and nothing else is. The
decoder fails at the end of the section, and it shifts too far where ten bytes are not enough. -/
theorem sleb128Exact (decoder : Bytes) :
    (∀ x rest, sleb128DecoderNext decoder = .ok (x, rest) ↔ ∃ raw number, decoder = raw ++ rest ∧
      Encodes raw number ∧ raw.length ≤ 10 ∧ x = BitVec.ofInt 64 number) ∧
    (sleb128DecoderNext decoder = .error .failed ↔ decoder.length ≤ 10 ∧ ∀ b ∈ decoder, 128 ≤ b.toNat) ∧
    (sleb128DecoderNext decoder = .error .faulted ↔ 10 < decoder.length ∧ ∀ b ∈ decoder.take 10, 128 ≤ b.toNat) := by
  obtain ⟨failed, faulted, _⟩ := @loopStops decoder 0 0 (by omega)
  simp only [Nat.zero_add, Nat.sub_zero] at failed faulted
  exact ⟨sleb128Reads decoder, failed, faulted⟩

theorem nextSleb {number : Int} (low : -2 ^ 63 ≤ number) (high : number < 2 ^ 64) (rest : Bytes) :
    sleb128DecoderNext (sleb number ++ rest) = .ok (BitVec.ofInt 64 number, rest) :=
  decoderReads (slebEncodes number) (slebLength 9 (by omega) (by omega)) rest

/-! The iterator. -/

def RELOCATION_GROUPED_BY_INFO_FLAG : BitVec 64 := 1
def RELOCATION_GROUPED_BY_OFFSET_DELTA_FLAG : BitVec 64 := 2
def RELOCATION_GROUPED_BY_ADDEND_FLAG : BitVec 64 := 4
def RELOCATION_GROUP_HAS_ADDEND_FLAG : BitVec 64 := 8

/-- An ElfW(Rela); an ElfW(Rel) has no addend, and here it is 0. Where the sum of two addends overflows ssize_t, which
the language leaves undefined, it wraps here. -/
structure Reloc where
  rOffset : BitVec 64
  rInfo : BitVec 64
  rAddend : BitVec 64
  deriving DecidableEq, Repr

structure PackedRelocIterator where
  decoder : Bytes
  relocationCount : BitVec 64
  groupSize : BitVec 64
  groupFlags : BitVec 64
  groupROffsetDelta : BitVec 64
  relocationIndex : BitVec 64
  relocationGroupIndex : BitVec 64
  rOffset : BitVec 64
  rInfo : BitVec 64
  rAddend : BitVec 64
  isUseRela : Bool
  deriving DecidableEq, Repr

namespace PackedRelocIterator

def grouped (groupFlags flag : BitVec 64) : Bool := groupFlags &&& flag != 0

def readIf (there : Bool) (old : BitVec 64) (put : BitVec 64 → BitVec 64) (decoder : Bytes) :
    Except Stop (BitVec 64 × Bytes) :=
  if there then do
    let (val, decoder) ← sleb128DecoderNext decoder
    return (put val, decoder)
  else return (old, decoder)

/- Its caller does not look at what it returns: an iterator that failed has no relocation, or no
group to begin with. -/
def init (rel : Bytes) (isUseRela : Bool) : Except Stop PackedRelocIterator :=
  let zero : PackedRelocIterator := ⟨rel, 0, 0, 0, 0, 0, 0, 0, 0, 0, isUseRela⟩
  match sleb128DecoderNext rel with
  | .error .failed => .ok { zero with decoder := [] }
  | .error stop => .error stop
  | .ok (relocationCount, decoder) =>
    match sleb128DecoderNext decoder with
    | .error .failed => .ok { zero with relocationCount, decoder := [] }
    | .error stop => .error stop
    | .ok (rOffset, decoder) => .ok { zero with relocationCount, rOffset, decoder }

def readGroupAddend (it : PackedRelocIterator) (groupFlags : BitVec 64) (decoder : Bytes) : Except Stop (BitVec 64 × Bytes) :=
  if grouped groupFlags RELOCATION_GROUP_HAS_ADDEND_FLAG && grouped groupFlags RELOCATION_GROUPED_BY_ADDEND_FLAG then
    if it.isUseRela then readIf true it.rAddend (it.rAddend + ·) decoder else .error .failed
  else if grouped groupFlags RELOCATION_GROUP_HAS_ADDEND_FLAG then .ok (it.rAddend, decoder)
  else .ok (0, decoder)

def readGroupFields (it : PackedRelocIterator) : Except Stop PackedRelocIterator := do
  let (groupSize, decoder) ← sleb128DecoderNext it.decoder
  let (groupFlags, decoder) ← sleb128DecoderNext decoder
  let (groupROffsetDelta, decoder) ←
    readIf (grouped groupFlags RELOCATION_GROUPED_BY_OFFSET_DELTA_FLAG) it.groupROffsetDelta id decoder
  let (rInfo, decoder) ← readIf (grouped groupFlags RELOCATION_GROUPED_BY_INFO_FLAG) it.rInfo id decoder
  let (rAddend, decoder) ← it.readGroupAddend groupFlags decoder
  return { it with decoder, groupSize, groupFlags, groupROffsetDelta, rInfo, rAddend, relocationGroupIndex := 0 }

def advance (it : PackedRelocIterator) : Except Stop (BitVec 64 × Bytes) :=
  if grouped it.groupFlags RELOCATION_GROUPED_BY_OFFSET_DELTA_FLAG then .ok (it.rOffset + it.groupROffsetDelta, it.decoder)
  else readIf true it.rOffset (it.rOffset + ·) it.decoder

def readEntry (it : PackedRelocIterator) : Except Stop (Reloc × PackedRelocIterator) := do
  let (rOffset, decoder) ← it.advance
  let (rInfo, decoder) ← readIf (!grouped it.groupFlags RELOCATION_GROUPED_BY_INFO_FLAG) it.rInfo id decoder
  let (rAddend, decoder) ← readIf (it.isUseRela && grouped it.groupFlags RELOCATION_GROUP_HAS_ADDEND_FLAG &&
    !grouped it.groupFlags RELOCATION_GROUPED_BY_ADDEND_FLAG) it.rAddend (it.rAddend + ·) decoder
  return (⟨rOffset, rInfo, if it.isUseRela then rAddend else 0⟩, { it with
    decoder, rOffset, rInfo, rAddend
    relocationIndex := it.relocationIndex + 1
    relocationGroupIndex := it.relocationGroupIndex + 1 })

/- NULL is `failed`, at the end and at an error. -/
def next (it : PackedRelocIterator) : Except Stop (Reloc × PackedRelocIterator) :=
  if it.relocationCount ≤ it.relocationIndex then .error .failed
  else if it.relocationGroupIndex = it.groupSize then do readEntry (← it.readGroupFields)
  else readEntry it

theorem slebSuffix {decoder rest : Bytes} {x : BitVec 64} (read : sleb128DecoderNext decoder = .ok (x, rest)) : rest <:+ decoder := by
  obtain ⟨raw, _, rfl, _⟩ := (sleb128Reads decoder x rest).mp read
  exact List.suffix_append raw rest

theorem initSuffix {rel : Bytes} {isUseRela : Bool} {it : PackedRelocIterator} (made : init rel isUseRela = .ok it) : it.decoder <:+ rel := by
  unfold init at made
  dsimp only at made
  split at made
  · cases made
    exact List.nil_suffix
  · cases made
  · rename_i count
    split at made
    · cases made
      exact List.nil_suffix
    · cases made
    · rename_i offset
      cases made
      exact (slebSuffix offset).trans (slebSuffix count)

theorem readIfSuffix {there : Bool} {old x : BitVec 64} {put : BitVec 64 → BitVec 64} {decoder rest : Bytes}
    (read : readIf there old put decoder = .ok (x, rest)) : rest <:+ decoder := by
  unfold readIf at read
  split at read
  · simp only [bind, Except.bind] at read
    split at read
    · cases read
    · rename_i done
      cases read
      exact slebSuffix done
  · cases read
    exact List.suffix_refl _

theorem groupAddendSuffix {it : PackedRelocIterator} {groupFlags x : BitVec 64} {decoder rest : Bytes}
    (read : it.readGroupAddend groupFlags decoder = .ok (x, rest)) : rest <:+ decoder := by
  unfold readGroupAddend at read
  split at read
  · split at read
    · exact readIfSuffix read
    · cases read
  · split at read <;> cases read <;> exact List.suffix_refl _

theorem groupFieldsSuffix {it it' : PackedRelocIterator} (read : it.readGroupFields = .ok it') : it'.decoder <:+ it.decoder := by
  simp only [readGroupFields, bind, Except.bind] at read
  split at read
  · cases read
  · rename_i size
    split at read
    · cases read
    · rename_i flags
      split at read
      · cases read
      · rename_i delta
        split at read
        · cases read
        · rename_i info
          split at read
          · cases read
          · rename_i addend
            cases read
            exact (groupAddendSuffix addend).trans ((readIfSuffix info).trans ((readIfSuffix delta).trans
              ((slebSuffix flags).trans (slebSuffix size))))

theorem entrySuffix {it it' : PackedRelocIterator} {rel : Reloc} (read : it.readEntry = .ok (rel, it')) :
    it'.decoder <:+ it.decoder := by
  have advanced {x : BitVec 64} {rest : Bytes} (step : it.advance = .ok (x, rest)) : rest <:+ it.decoder := by
    unfold advance at step
    split at step
    · cases step
      exact List.suffix_refl _
    · exact readIfSuffix step
  simp only [readEntry, bind, Except.bind] at read
  split at read
  · cases read
  · rename_i offset
    split at read
    · cases read
    · rename_i info
      split at read
      · cases read
      · rename_i addend
        cases read
        exact (readIfSuffix addend).trans ((readIfSuffix info).trans (advanced offset))

theorem nextSuffix {it it' : PackedRelocIterator} {rel : Reloc} (read : it.next = .ok (rel, it')) : it'.decoder <:+ it.decoder := by
  unfold next at read
  split at read
  · cases read
  · split at read
    · simp only [bind, Except.bind] at read
      split at read
      · cases read
      · rename_i group
        exact (entrySuffix read).trans (groupFieldsSuffix group)
    · exact entrySuffix read

/-- What the loop of xh_elf_hook sees before NULL. -/
def relocs : Nat → PackedRelocIterator → Except Stop (List Reloc)
  | 0, _ => .ok []
  | rounds+1, it =>
    match it.next with
    | .error .failed => .ok []
    | .error stop => .error stop
    | .ok (rel, it) => (rel :: ·) <$> relocs rounds it

end PackedRelocIterator

/-! The format. -/

structure RelocGroup where
  byInfo : Bool
  byOffsetDelta : Bool
  byAddend : Bool
  hasAddend : Bool
  relocs : List Reloc
  deriving DecidableEq, Repr

namespace RelocGroup

def flagWord (byInfo byOffsetDelta byAddend hasAddend : Bool) : BitVec 64 :=
  (if byInfo then RELOCATION_GROUPED_BY_INFO_FLAG else 0) +
  (if byOffsetDelta then RELOCATION_GROUPED_BY_OFFSET_DELTA_FLAG else 0) +
  (if byAddend then RELOCATION_GROUPED_BY_ADDEND_FLAG else 0) +
  (if hasAddend then RELOCATION_GROUP_HAS_ADDEND_FLAG else 0)

def flags (g : RelocGroup) : BitVec 64 := flagWord g.byInfo g.byOffsetDelta g.byAddend g.hasAddend

def first (g : RelocGroup) : Reloc := g.relocs.headD ⟨0, 0, 0⟩

def last (g : RelocGroup) : Reloc := g.relocs.getLastD ⟨0, 0, 0⟩

def word (there : Bool) (value : BitVec 64) : Bytes := if there then sleb value.toInt else []

def entries (g : RelocGroup) (offset addend : BitVec 64) : List Reloc → Bytes
  | [] => []
  | r :: rest => word (!g.byOffsetDelta) (r.rOffset - offset) ++ (word (!g.byInfo) r.rInfo ++
    (word (g.hasAddend && !g.byAddend) (r.rAddend - addend) ++ g.entries r.rOffset r.rAddend rest))

def image (g : RelocGroup) (offset addend : BitVec 64) : Bytes :=
  sleb g.relocs.length ++ (sleb g.flags.toInt ++ (word g.byOffsetDelta (g.first.rOffset - offset) ++
    (word g.byInfo g.first.rInfo ++ (word (g.hasAddend && g.byAddend) (g.first.rAddend - addend) ++
      g.entries offset addend g.relocs))))

def Evenly (delta : BitVec 64) : BitVec 64 → List Reloc → Prop
  | _, [] => True
  | offset, r :: rest => r.rOffset = offset + delta ∧ Evenly delta r.rOffset rest

structure WellFormed (isUseRela : Bool) (offset : BitVec 64) (g : RelocGroup) : Prop where
  some : g.relocs ≠ []
  evenly : g.byOffsetDelta = true → Evenly (g.first.rOffset - offset) offset g.relocs
  info : g.byInfo = true → ∀ r ∈ g.relocs, r.rInfo = g.first.rInfo
  addend : g.byAddend = true → ∀ r ∈ g.relocs, r.rAddend = g.first.rAddend
  noAddend : g.hasAddend = false → ∀ r ∈ g.relocs, r.rAddend = 0
  onlyRela : g.hasAddend = true → isUseRela = true

def images : BitVec 64 → BitVec 64 → List RelocGroup → Bytes
  | _, _, [] => []
  | offset, addend, g :: groups => g.image offset addend ++ images g.last.rOffset g.last.rAddend groups

def AllWellFormed (isUseRela : Bool) : BitVec 64 → List RelocGroup → Prop
  | _, [] => True
  | offset, g :: groups => g.WellFormed isUseRela offset ∧ AllWellFormed isUseRela g.last.rOffset groups

end RelocGroup

def packedSection (base : BitVec 64) (groups : List RelocGroup) : Bytes :=
  sleb (groups.flatMap RelocGroup.relocs).length ++ (sleb base.toInt ++ RelocGroup.images base 0 groups)

namespace PackedRelocIterator
open RelocGroup (word)

theorem nextWord (value : BitVec 64) (rest : Bytes) : sleb128DecoderNext (sleb value.toInt ++ rest) = .ok (value, rest) := by
  rw [nextSleb (by have := value.le_toInt; omega) (by have := value.toInt_lt; omega), BitVec.ofInt_toInt]

theorem nextCount {n : Nat} (small : n < 2 ^ 64) (rest : Bytes) :
    sleb128DecoderNext (sleb n ++ rest) = .ok (BitVec.ofNat 64 n, rest) := by
  rw [nextSleb (by omega) (by omega), BitVec.ofInt_natCast]

theorem readWord (there : Bool) (value old : BitVec 64) (put : BitVec 64 → BitVec 64) (rest : Bytes) :
    readIf there old put (word there value ++ rest) = .ok (if there then put value else old, rest) := by
  cases there with
  | false => rfl
  | true => simp only [readIf, word, if_true, nextWord, bind, Except.bind, pure, Except.pure]

theorem groupedFlags (g : RelocGroup) :
    grouped g.flags RELOCATION_GROUPED_BY_INFO_FLAG = g.byInfo ∧
    grouped g.flags RELOCATION_GROUPED_BY_OFFSET_DELTA_FLAG = g.byOffsetDelta ∧
    grouped g.flags RELOCATION_GROUPED_BY_ADDEND_FLAG = g.byAddend ∧
    grouped g.flags RELOCATION_GROUP_HAS_ADDEND_FLAG = g.hasAddend := by
  obtain ⟨byInfo, byOffsetDelta, byAddend, hasAddend, relocs⟩ := g
  simp only [RelocGroup.flags]
  revert byInfo byOffsetDelta byAddend hasAddend
  decide

theorem advanceExact {it : PackedRelocIterator} {g : RelocGroup} {r : Reloc} {rest : Bytes} (flags : it.groupFlags = g.flags)
    (decoder : it.decoder = word (!g.byOffsetDelta) (r.rOffset - it.rOffset) ++ rest)
    (delta : g.byOffsetDelta = true → r.rOffset = it.rOffset + it.groupROffsetDelta) : it.advance = .ok (r.rOffset, rest) := by
  obtain ⟨_, byOffsetDelta, _, _⟩ := groupedFlags g
  unfold advance
  rw [flags, byOffsetDelta, decoder]
  cases by_ : g.byOffsetDelta with
  | true =>
    rw [if_pos rfl, delta by_]
    rfl
  | false =>
    rw [if_neg Bool.false_ne_true, Bool.not_false, readWord, if_pos rfl, add_sub_cancel]

def after (it : PackedRelocIterator) (r : Reloc) (decoder : Bytes) : PackedRelocIterator :=
  { it with
    decoder
    relocationIndex := it.relocationIndex + 1
    relocationGroupIndex := it.relocationGroupIndex + 1
    rOffset := r.rOffset
    rInfo := r.rInfo
    rAddend := r.rAddend }

theorem readEntryExact {it : PackedRelocIterator} {g : RelocGroup} {r : Reloc} {rest : Bytes} (flags : it.groupFlags = g.flags)
    (decoder : it.decoder = word (!g.byOffsetDelta) (r.rOffset - it.rOffset) ++ (word (!g.byInfo) r.rInfo ++
      (word (g.hasAddend && !g.byAddend) (r.rAddend - it.rAddend) ++ rest)))
    (rela : g.hasAddend = true → it.isUseRela = true) (none : it.isUseRela = false → r.rAddend = 0)
    (delta : g.byOffsetDelta = true → r.rOffset = it.rOffset + it.groupROffsetDelta)
    (info : g.byInfo = true → it.rInfo = r.rInfo) (same : (g.hasAddend && !g.byAddend) = false → it.rAddend = r.rAddend) :
    it.readEntry = .ok (r, it.after r rest) := by
  obtain ⟨byInfo, _, byAddend, hasAddend⟩ := groupedFlags g
  have there : (it.isUseRela && grouped it.groupFlags RELOCATION_GROUP_HAS_ADDEND_FLAG &&
      !grouped it.groupFlags RELOCATION_GROUPED_BY_ADDEND_FLAG) = (g.hasAddend && !g.byAddend) := by
    rw [flags, hasAddend, byAddend]
    cases has : g.hasAddend with
    | false => simp
    | true => rw [rela has]; simp
  have rInfo : (if !g.byInfo then id r.rInfo else it.rInfo) = r.rInfo := by
    cases by_ : g.byInfo with
    | true => exact info by_
    | false => rfl
  have rAddend : (if g.hasAddend && !g.byAddend then it.rAddend + (r.rAddend - it.rAddend) else it.rAddend) = r.rAddend := by
    cases counted : g.hasAddend && !g.byAddend with
    | true => exact add_sub_cancel _ _
    | false => exact same counted
  have addend : (if it.isUseRela then r.rAddend else 0) = r.rAddend := by
    cases rel : it.isUseRela with
    | true => rfl
    | false => exact (none rel).symm
  unfold readEntry
  rw [advanceExact flags decoder delta, there, flags, byInfo]
  simp only [bind, Except.bind, readWord, rInfo, rAddend, pure, Except.pure, addend, after, flags]

structure Inside (g : RelocGroup) (rest : List Reloc) (tail : Bytes) (it : PackedRelocIterator) : Prop where
  flags : it.groupFlags = g.flags
  size : it.groupSize = BitVec.ofNat 64 g.relocs.length
  index : it.relocationGroupIndex = BitVec.ofNat 64 (g.relocs.length - rest.length)
  fits : rest.length ≤ g.relocs.length ∧ g.relocs.length < 2 ^ 64
  decoder : it.decoder = g.entries it.rOffset it.rAddend rest ++ tail
  rela : g.hasAddend = true → it.isUseRela = true
  delta : g.byOffsetDelta = true → RelocGroup.Evenly it.groupROffsetDelta it.rOffset rest
  info : g.byInfo = true → ∀ r ∈ rest, it.rInfo = r.rInfo
  addend : (g.hasAddend && !g.byAddend) = false → ∀ r ∈ rest, it.rAddend = r.rAddend
  none : it.isUseRela = false → ∀ r ∈ rest, r.rAddend = 0

theorem insideEntry {g : RelocGroup} {r : Reloc} {rest : List Reloc} {tail : Bytes} {it : PackedRelocIterator}
    (inside : Inside g (r :: rest) tail it) :
    it.readEntry = .ok (r, it.after r (g.entries r.rOffset r.rAddend rest ++ tail)) ∧
      Inside g rest tail (it.after r (g.entries r.rOffset r.rAddend rest ++ tail)) := by
  have fits := inside.fits
  rw [List.length_cons] at fits
  have mem := List.mem_cons_self (a := r) (l := rest)
  refine ⟨readEntryExact inside.flags ?_ inside.rela (fun rel => inside.none rel r mem) (fun by_ => (inside.delta by_).1)
    (fun by_ => inside.info by_ r mem) (fun by_ => inside.addend by_ r mem), inside.flags, inside.size, ?_, ⟨by omega, fits.2⟩,
    rfl, inside.rela, fun by_ => (inside.delta by_).2, fun by_ s later => ?_, fun by_ s later => ?_,
    fun rel s later => inside.none rel s (List.mem_cons_of_mem _ later)⟩
  · have decoder := inside.decoder
    simp only [RelocGroup.entries, List.append_assoc] at decoder
    exact decoder
  · have index := inside.index
    simp only [after, index, List.length_cons]
    rw [show (1 : BitVec 64) = BitVec.ofNat 64 1 from rfl, ← BitVec.ofNat_add]
    congr 1
    omega
  · exact (inside.info by_ r mem).symm.trans (inside.info by_ s (List.mem_cons_of_mem _ later))
  · exact (inside.addend by_ r mem).symm.trans (inside.addend by_ s (List.mem_cons_of_mem _ later))

theorem readGroupAddendExact {it : PackedRelocIterator} {g : RelocGroup} (rela : g.hasAddend = true → it.isUseRela = true)
    (rest : Bytes) :
    it.readGroupAddend g.flags (word (g.hasAddend && g.byAddend) (g.first.rAddend - it.rAddend) ++ rest) =
      .ok (if g.hasAddend then if g.byAddend then g.first.rAddend else it.rAddend else 0, rest) := by
  obtain ⟨_, _, byAddend, hasAddend⟩ := groupedFlags g
  unfold readGroupAddend
  rw [hasAddend, byAddend]
  cases has : g.hasAddend with
  | false => rfl
  | true =>
    cases by_ : g.byAddend with
    | false => rfl
    | true =>
      rw [Bool.and_self, if_pos rfl, if_pos (rela has), readWord, if_pos rfl, add_sub_cancel]
      rfl

theorem entriesStart {g : RelocGroup} {addend other : BitVec 64} (same : (g.hasAddend && !g.byAddend) = true → addend = other)
    (offset : BitVec 64) (rest : List Reloc) : g.entries offset addend rest = g.entries offset other rest := by
  cases rest with
  | nil => rfl
  | cons r rest =>
    cases counted : g.hasAddend && !g.byAddend with
    | false => simp only [RelocGroup.entries, counted, word, Bool.false_eq_true, if_false]
    | true => rw [same counted]

theorem insideGroup {g : RelocGroup} {tail : Bytes} {it : PackedRelocIterator} (formed : g.WellFormed it.isUseRela it.rOffset)
    (small : g.relocs.length < 2 ^ 64) (decoder : it.decoder = g.image it.rOffset it.rAddend ++ tail) :
    ∃ it', it.readGroupFields = .ok it' ∧ Inside g g.relocs tail it' ∧ it'.relocationCount = it.relocationCount ∧
      it'.relocationIndex = it.relocationIndex ∧ it'.isUseRela = it.isUseRela := by
  obtain ⟨byInfo, byOffsetDelta, _, _⟩ := groupedFlags g
  unfold readGroupFields
  simp only [decoder, RelocGroup.image, List.append_assoc, nextCount small, nextWord, bind, Except.bind, byOffsetDelta,
    byInfo, readWord, readGroupAddendExact formed.onlyRela, pure, Except.pure]
  refine ⟨_, rfl, ⟨rfl, rfl, ?_, ⟨Nat.le_refl _, small⟩, ?_, formed.onlyRela, fun by_ => ?_, fun by_ r mem => ?_,
    fun counted r mem => ?_, fun rel r mem => ?_⟩, rfl, rfl, rfl⟩
  · rw [Nat.sub_self]
    rfl
  · refine congrArg (· ++ tail) (entriesStart (fun counted => ?_) _ _)
    rw [Bool.and_eq_true, Bool.not_eq_true'] at counted
    simp only [counted.1, counted.2, if_true, Bool.false_eq_true, if_false]
  · simp only [by_, if_true, id]
    exact formed.evenly by_
  · simp only [by_, if_true, id]
    exact (formed.info by_ r mem).symm
  · cases has : g.hasAddend with
    | false => exact (formed.noAddend has r mem).symm
    | true =>
      have by_ : g.byAddend = true := by simpa [has] using counted
      simp only [by_, if_true]
      exact (formed.addend by_ r mem).symm
  · refine formed.noAddend ?_ r mem
    cases has : g.hasAddend with
    | false => rfl
    | true => rw [formed.onlyRela has] at rel; cases rel

structure Between (total done : Nat) (decoder : Bytes) (it : PackedRelocIterator) : Prop where
  count : it.relocationCount = BitVec.ofNat 64 total
  index : it.relocationIndex = BitVec.ofNat 64 done
  boundary : it.relocationGroupIndex = it.groupSize
  decoder : it.decoder = decoder

theorem notDone {it : PackedRelocIterator} {total done : Nat} (small : total < 2 ^ 64) (more : done < total)
    (count : it.relocationCount = BitVec.ofNat 64 total) (index : it.relocationIndex = BitVec.ofNat 64 done) :
    ¬it.relocationCount ≤ it.relocationIndex := by
  rw [count, index, BitVec.le_def, BitVec.toNat_ofNat, BitVec.toNat_ofNat, Nat.mod_eq_of_lt small,
    Nat.mod_eq_of_lt (by omega)]
  omega

theorem nextOffset (done : Nat) : BitVec.ofNat 64 done + 1 = BitVec.ofNat 64 (done + 1) := (BitVec.ofNat_add done 1).symm

/- Over the relocations that are left of a group. -/
theorem entriesRun {g : RelocGroup} {rest : List Reloc} {tail : Bytes} {total done : Nat} {it : PackedRelocIterator}
    (inside : Inside g rest tail it) (started : rest.length < g.relocs.length) (small : total < 2 ^ 64)
    (room : done + rest.length ≤ total) (count : it.relocationCount = BitVec.ofNat 64 total)
    (index : it.relocationIndex = BitVec.ofNat 64 done) :
    ∃ it', Between total (done + rest.length) tail it' ∧ it'.isUseRela = it.isUseRela ∧
      it'.rOffset = (rest.getLastD ⟨it.rOffset, it.rInfo, it.rAddend⟩).rOffset ∧
      it'.rAddend = (rest.getLastD ⟨it.rOffset, it.rInfo, it.rAddend⟩).rAddend ∧
      ∀ rounds, it.relocs (rest.length + rounds) = (rest ++ ·) <$> it'.relocs rounds := by
  induction rest generalizing it done with
  | nil =>
    refine ⟨it, ⟨count, index, ?_, inside.decoder⟩, rfl, rfl, rfl, fun rounds => ?_⟩
    · rw [inside.index, inside.size]
      rfl
    · rw [List.length_nil, Nat.zero_add]
      simp
  | cons r rest ih =>
    rw [List.length_cons] at started room
    obtain ⟨read, inside'⟩ := insideEntry inside
    have middle : it.relocationGroupIndex ≠ it.groupSize := by
      rw [inside.index, inside.size, List.length_cons]
      intro same
      have numbers := congrArg BitVec.toNat same
      have fits := inside.fits.2
      rw [BitVec.toNat_ofNat, BitVec.toNat_ofNat, Nat.mod_eq_of_lt (by omega), Nat.mod_eq_of_lt fits] at numbers
      omega
    have next : it.next = .ok (r, it.after r (g.entries r.rOffset r.rAddend rest ++ tail)) := by
      rw [PackedRelocIterator.next, if_neg (notDone small (by omega) count index), if_neg middle, read]
    obtain ⟨it', between, rela, offset, addend, run⟩ := ih inside' (by omega) (by omega : done + 1 + rest.length ≤ total)
      count (by simp only [after, index, nextOffset])
    refine ⟨it', ?_, rela, ?_, ?_, fun rounds => ?_⟩
    · rw [List.length_cons, show done + (rest.length + 1) = done + 1 + rest.length by omega]
      exact between
    · rw [offset]
      cases rest <;> rfl
    · rw [addend]
      cases rest <;> rfl
    · rw [List.length_cons, show rest.length + 1 + rounds = rest.length + rounds + 1 by omega, relocs, next]
      simp only [run rounds]
      cases it'.relocs rounds <;> rfl

theorem groupRun {g : RelocGroup} {tail : Bytes} {total done : Nat} {it : PackedRelocIterator}
    (formed : g.WellFormed it.isUseRela it.rOffset) (small : total < 2 ^ 64) (room : done + g.relocs.length ≤ total)
    (between : Between total done (g.image it.rOffset it.rAddend ++ tail) it) :
    ∃ it', Between total (done + g.relocs.length) tail it' ∧ it'.isUseRela = it.isUseRela ∧
      it'.rOffset = g.last.rOffset ∧ it'.rAddend = g.last.rAddend ∧
      ∀ rounds, it.relocs (g.relocs.length + rounds) = (g.relocs ++ ·) <$> it'.relocs rounds := by
  obtain ⟨started, fields, inside, count, index, rela⟩ := insideGroup formed (by omega) between.decoder
  have some := formed.some
  unfold RelocGroup.last
  cases listed : g.relocs with
  | nil => exact absurd listed some
  | cons r rest =>
    rw [listed] at inside
    rw [listed, List.length_cons] at room
    obtain ⟨read, inside'⟩ := insideEntry inside
    have next : it.next = .ok (r, started.after r (g.entries r.rOffset r.rAddend rest ++ tail)) := by
      rw [PackedRelocIterator.next, if_neg (notDone small (by omega) between.count between.index), if_pos between.boundary]
      exact (exceptOk fields _).trans read
    obtain ⟨it', between', rela', offset, addend, run⟩ := entriesRun inside' (by rw [listed]; simp) small
      (by omega : done + 1 + rest.length ≤ total) (count.trans between.count) (by simp only [after, index, between.index, nextOffset])
    refine ⟨it', ?_, rela'.trans rela, ?_, ?_, fun rounds => ?_⟩
    · rw [List.length_cons, show done + (rest.length + 1) = done + 1 + rest.length by omega]
      exact between'
    · rw [offset]
      cases rest <;> rfl
    · rw [addend]
      cases rest <;> rfl
    · rw [List.length_cons, show rest.length + 1 + rounds = rest.length + rounds + 1 by omega, relocs, next]
      simp only [run rounds]
      cases it'.relocs rounds <;> rfl

theorem groupsRun {groups : List RelocGroup} {tail : Bytes} {total done rounds : Nat} {it : PackedRelocIterator}
    (formed : RelocGroup.AllWellFormed it.isUseRela it.rOffset groups) (small : total < 2 ^ 64)
    (room : done + (groups.flatMap RelocGroup.relocs).length = total)
    (between : Between total done (RelocGroup.images it.rOffset it.rAddend groups ++ tail) it)
    (enough : (groups.flatMap RelocGroup.relocs).length < rounds) :
    it.relocs rounds = .ok (groups.flatMap RelocGroup.relocs) := by
  induction groups generalizing it done rounds with
  | nil =>
    have ended : it.next = .error .failed := by
      have done_ : done = total := by simpa using room
      rw [PackedRelocIterator.next, if_pos]
      rw [between.count, between.index, done_]
      exact Nat.le_refl _
    cases rounds with
    | zero => cases enough
    | succ rounds => simp only [relocs, ended, List.flatMap_nil]
  | cons g groups ih =>
    rw [List.flatMap_cons, List.length_append] at room enough
    have decoder := between.decoder
    simp only [RelocGroup.images, List.append_assoc] at decoder
    obtain ⟨it', between', rela, offset, addend, run⟩ := groupRun formed.1 small (by omega)
      ⟨between.count, between.index, between.boundary, decoder⟩
    rw [← offset, ← addend] at between'
    have later : it'.relocs (rounds - g.relocs.length) = .ok (groups.flatMap RelocGroup.relocs) :=
      ih (by rw [rela, offset]; exact formed.2) (by omega) between' (by omega)
    have all := run (rounds - g.relocs.length)
    rw [show g.relocs.length + (rounds - g.relocs.length) = rounds by omega, later] at all
    rw [all, List.flatMap_cons]
    rfl

theorem initExact {total : Nat} (small : total < 2 ^ 64) (base : BitVec 64) (rest : Bytes) (isUseRela : Bool) :
    ∃ it, init (sleb total ++ (sleb base.toInt ++ rest)) isUseRela = .ok it ∧ Between total 0 rest it ∧
      it.rOffset = base ∧ it.rAddend = 0 ∧ it.isUseRela = isUseRela := by
  simp only [init, nextCount small, nextWord]
  exact ⟨_, rfl, ⟨rfl, rfl, rfl, rfl⟩, rfl, rfl, rfl⟩

theorem packedRoundTrip {isUseRela : Bool} {base : BitVec 64} {groups : List RelocGroup}
    (formed : RelocGroup.AllWellFormed isUseRela base groups) (small : (groups.flatMap RelocGroup.relocs).length < 2 ^ 64)
    (tail : Bytes) : ∃ it, init (packedSection base groups ++ tail) isUseRela = .ok it ∧
      ∀ rounds, (groups.flatMap RelocGroup.relocs).length < rounds →
        it.relocs rounds = .ok (groups.flatMap RelocGroup.relocs) := by
  obtain ⟨it, start, between, offset, addend, rela⟩ := initExact small base (RelocGroup.images base 0 groups ++ tail) isUseRela
  rw [← addend, ← offset] at between
  refine ⟨it, ?_, fun rounds enough => groupsRun ?_ small (Nat.zero_add _) between enough⟩
  · simp only [packedSection, List.append_assoc]
    exact start
  · rw [rela, offset]
    exact formed

def sampleGroups : List RelocGroup :=
  [⟨true, true, false, false, [⟨0x1008, 0x401, 0⟩, ⟨0x1010, 0x401, 0⟩]⟩,
    ⟨false, false, false, true, [⟨0x1000, 0x402, -8⟩, ⟨0x2000, 0x403, 300⟩]⟩]

theorem samplePacked : ∃ it, init (packedSection 0x1000 sampleGroups ++ [0]) true = .ok it ∧ ∀ rounds, 4 < rounds →
    it.relocs rounds = .ok [⟨0x1008, 0x401, 0⟩, ⟨0x1010, 0x401, 0⟩, ⟨0x1000, 0x402, -8⟩, ⟨0x2000, 0x403, 300⟩] := by
  refine @packedRoundTrip true 0x1000 sampleGroups ⟨⟨?_, ?_, ?_, ?_, ?_, ?_⟩, ⟨?_, ?_, ?_, ?_, ?_, ?_⟩, trivial⟩ (by decide) [0]
  · decide
  · intro _
    exact ⟨rfl, rfl, trivial⟩
  · decide
  · decide
  · decide
  · decide
  · decide
  · intro by_
    cases by_
  · decide
  · decide
  · decide
  · decide

end PackedRelocIterator

end Bootstrap.Xhook
