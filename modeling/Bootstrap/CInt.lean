import Mathlib.Data.List.Basic
import Mathlib.Logic.Basic
import Mathlib.Tactic.Linarith

/-! Fixed-width C integers over mathematical ones, and the ways a C call can fail to
deliver its result. A conversion is written where a program narrows or widens; between
two conversions the arithmetic is exact. The target is LP64 and little-endian. -/
namespace Bootstrap.CInt

/- `failed` is the error value of the call itself. `exited` ends the process from inside
the call; `faulted` is an access the language does not define. -/
inductive Stop where
  | failed | exited | faulted
  deriving DecidableEq, Repr

def u16 (x : Int) : Nat := (x % 2 ^ 16).toNat
def u32 (x : Int) : Nat := (x % 2 ^ 32).toNat
def u64 (x : Int) : Nat := (x % 2 ^ 64).toNat
def i32 (x : Int) : Int := (x + 2 ^ 31) % 2 ^ 32 - 2 ^ 31
def i64 (x : Int) : Int := (x + 2 ^ 63) % 2 ^ 64 - 2 ^ 63

theorem u16Bound (x : Int) : u16 x < 2 ^ 16 := by unfold u16; omega
theorem u32Bound (x : Int) : u32 x < 2 ^ 32 := by unfold u32; omega
theorem u64Bound (x : Int) : u64 x < 2 ^ 64 := by unfold u64; omega

theorem u16Exact {n : Nat} (small : n < 2 ^ 16) : u16 n = n := by unfold u16; omega
theorem u32Exact {n : Nat} (small : n < 2 ^ 32) : u32 n = n := by unfold u32; omega
theorem u64Exact {n : Nat} (small : n < 2 ^ 64) : u64 n = n := by unfold u64; omega
theorem i32Exact {x : Int} (low : -(2 ^ 31) ≤ x) (high : x < 2 ^ 31) : i32 x = x := by unfold i32; omega
theorem i64Exact {x : Int} (low : -(2 ^ 63) ≤ x) (high : x < 2 ^ 63) : i64 x = x := by unfold i64; omega

theorem u16Nat (n : Nat) : u16 n = n % 2 ^ 16 := by unfold u16; omega
theorem u64OfI64 {n : Nat} (small : n < 2 ^ 64) : u64 (i64 n) = n := by unfold u64 i64; omega

end Bootstrap.CInt
