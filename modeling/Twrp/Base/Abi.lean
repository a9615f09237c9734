import Mathlib.Tactic

/-! The sizes of the machine's integers.

The source runs on a 32-bit device and its tools on 64-bit hosts; what it computes in
`size_t` and `long` depends on which it is. -/
namespace Twrp.Base

/-- The sizes of `size_t` and `long`. -/
inductive Abi where
  | ilp32
  | lp64
deriving DecidableEq

def Abi.word : Abi → Nat
  | ilp32 => 2 ^ 32
  | lp64 => 2 ^ 64

/-- One past the largest `long`. -/
def Abi.longEnd : Abi → Nat
  | ilp32 => 2 ^ 31
  | lp64 => 2 ^ 63

/-- Subtraction on `size_t`. -/
def Abi.sub (abi : Abi) (a b : Nat) : Nat := (a + abi.word - b) % abi.word

theorem Abi.longEnd_lt (abi : Abi) : abi.longEnd + 2 ^ 30 < abi.word := by
  cases abi <;> decide

theorem Abi.sub_of_le (abi : Abi) {a b : Nat} (hle : b ≤ a) (hlt : a < 2 ^ 30) : abi.sub a b = a - b := by
  have hword := abi.longEnd_lt
  have hsum : a + abi.word - b = a - b + abi.word := by omega
  unfold sub
  rw [hsum, Nat.add_mod_right, Nat.mod_eq_of_lt (by omega)]

/-- A conversion to `int`, or to the `long` of a 32-bit device. -/
def int (n : Nat) : Int :=
  if n % 4294967296 < 2147483648 then (n % 4294967296 : Nat) else -((4294967296 - n % 4294967296 : Nat) : Int)

theorem int_small {n : Nat} (h : n < 2147483648) : int n = n := by
  unfold int
  rw [Nat.mod_eq_of_lt (by omega), if_pos h]

theorem int_large {n : Nat} (h : 2147483648 ≤ n) (hlt : n < 4294967296) : int n < 0 := by
  unfold int
  rw [Nat.mod_eq_of_lt hlt, if_neg (by omega)]
  omega

end Twrp.Base
