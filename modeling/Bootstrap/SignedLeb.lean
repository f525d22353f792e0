import Bootstrap.ByteLayout

/-! Signed numbers of variable length, seven bits to a byte. -/
namespace Bootstrap.SignedLeb
open ByteLayout

/- The lowest bits come first. All bytes but the last have their high bit set, and the bit below
it is the sign in the last. A number has many encodings: it may be padded by its sign. -/
inductive Encodes : Bytes → Int → Prop
  | last (byte : UInt8) (ends : byte.toNat < 128) :
    Encodes [byte] (if byte.toNat < 64 then byte.toNat else (byte.toNat : Int) - 128)
  | more (byte : UInt8) {rest : Bytes} {value : Int} (continues : 128 ≤ byte.toNat) (tail : Encodes rest value) :
    Encodes (byte :: rest) (byte.toNat - 128 + 128 * value)

def sleb (value : Int) : Bytes :=
  if -64 ≤ value ∧ value < 64 then [UInt8.ofNat (value % 128).toNat]
  else UInt8.ofNat (value % 128 + 128).toNat :: sleb (value / 128)
termination_by value.natAbs
decreasing_by omega

theorem slebEncodes (value : Int) : Encodes (sleb value) value := by
  induction value using sleb.induct with
  | case1 value small =>
    rw [sleb, if_pos small]
    have byte : (UInt8.ofNat (value % 128).toNat).toNat = (value % 128).toNat := by
      rw [UInt8.toNat_ofNat']
      omega
    have ends := Encodes.last (UInt8.ofNat (value % 128).toNat) (by omega)
    rw [byte] at ends
    have signed : (if (value % 128).toNat < 64 then ((value % 128).toNat : Int) else (value % 128).toNat - 128) = value := by
      split <;> omega
    rwa [signed] at ends
  | case2 value large ih =>
    rw [sleb, if_neg large]
    have byte : (UInt8.ofNat (value % 128 + 128).toNat).toNat = (value % 128 + 128).toNat := by
      rw [UInt8.toNat_ofNat']
      omega
    have more := Encodes.more (UInt8.ofNat (value % 128 + 128).toNat) (by omega) ih
    rw [byte] at more
    have whole : ((value % 128 + 128).toNat : Int) - 128 + 128 * (value / 128) = value := by omega
    rwa [whole] at more

theorem slebLength (n : Nat) {value : Int} (low : -(64 * 128 ^ n) ≤ value) (high : value < 64 * 128 ^ n) :
    (sleb value).length ≤ n + 1 := by
  induction n generalizing value with
  | zero =>
    rw [sleb, if_pos (by omega)]
    rfl
  | succ n ih =>
    rw [sleb]
    split
    · simp
    · have step : (128 : Int) ^ (n + 1) = 128 * 128 ^ n := by rw [pow_succ, mul_comm]
      rw [step] at low high
      have shorter : (sleb (value / 128)).length ≤ n + 1 := ih (by omega) (by omega)
      simpa using shorter

theorem encodesNonempty {raw : Bytes} {value : Int} (encodes : Encodes raw value) : 0 < raw.length := by
  cases encodes with
  | last byte ends => simp
  | more byte continues tail => simp

end Bootstrap.SignedLeb
