import Mathlib

/-! C strings and little-endian words, as bytes.

A `CString` is the bytes before the terminating NUL, so it cannot hold a NUL
itself. `ofBytes` is what assigning a `char` array to a string does when the array
holds a NUL; `scan` says when it does not. Strings compare bytewise, which is the
order a map keyed by strings iterates in. -/
namespace Twrp.Base

instance lawfulBytes : LawfulBEq (List UInt8) := inferInstance

structure CString where
  bytes : List UInt8
  noNul : 0 ∉ bytes
deriving DecidableEq

namespace CString

theorem ext {s t : CString} (h : s.bytes = t.bytes) : s = t := by
  cases s
  cases t
  cases h
  rfl

/-- The bytes up to the first NUL. -/
def ofBytes (l : List UInt8) : CString where
  bytes := l.takeWhile (· != 0)
  noNul := by
    intro h
    simpa using List.mem_takeWhile_imp h

/-- A literal of the source. -/
def ofString (s : String) : CString := ofBytes s.toUTF8.data.toList

instance : Coe String CString := ⟨ofString⟩

def length (s : CString) : Nat := s.bytes.length

instance : Append CString where
  append s t := ⟨s.bytes ++ t.bytes, by
    rw [List.mem_append]
    exact not_or.mpr ⟨s.noNul, t.noNul⟩⟩

@[simp] theorem bytes_append (s t : CString) : (s ++ t).bytes = s.bytes ++ t.bytes := rfl

/-- What an array of `char` is as a string: the bytes before its first NUL, and
nothing when it holds none. -/
def scan (l : List UInt8) : Option CString := if 0 ∈ l then some (ofBytes l) else none

theorem bytes_ofBytes_length_le (l : List UInt8) : (ofBytes l).length ≤ l.length :=
  (List.takeWhile_sublist _).length_le

theorem scan_length {l : List UInt8} {s : CString} (h : scan l = some s) : s.length < l.length := by
  unfold scan at h
  split at h
  · cases h
    rename_i hmem
    refine lt_of_le_of_ne (bytes_ofBytes_length_le l) fun heq => ?_
    have hall : l.takeWhile (· != 0) = l := (List.takeWhile_sublist _).eq_of_length heq
    rw [← hall] at hmem
    exact (ofBytes l).noNul hmem
  · cases h

/-- A terminated string read from the front of an array is that string. -/
theorem scan_terminated (s : CString) (rest : List UInt8) :
    scan (s.bytes ++ 0 :: rest) = some s := by
  have hfree : ∀ b ∈ s.bytes, (b != 0) = true := by
    intro b hb
    simp only [bne_iff_ne, ne_eq]
    rintro rfl
    exact s.noNul hb
  rw [scan, if_pos (by simp)]
  refine congrArg some (ext ?_)
  show List.takeWhile (· != 0) (s.bytes ++ 0 :: rest) = s.bytes
  rw [List.takeWhile_append_of_pos hfree]
  simp

/-! ### The order of a string-keyed map -/

instance : Ord CString := ⟨compareOn CString.bytes⟩

instance : Std.TransOrd CString := inferInstanceAs (Std.TransCmp (compareOn CString.bytes))

instance : Std.LawfulEqOrd CString where
  eq_of_compare h := ext (Std.LawfulEqOrd.eq_of_compare (α := List UInt8) h)
  compare_self := fun {_} => @Std.ReflCmp.compare_self _ (compareOn CString.bytes) _ _

/-! ### Numbers in text -/

/-- The value of the leading decimal digits. -/
def digits : List UInt8 → Nat → Nat
  | [], n => n
  | b :: rest, n => if 48 ≤ b ∧ b ≤ 57 then digits rest (10 * n + (b.toNat - 48)) else n

/-- `atoi`, as `strtol` in base ten: leading white space, an optional sign, digits;
out of range goes to the nearest `long`. -/
def atoi (s : CString) : Int :=
  let text := s.bytes.dropWhile fun b => b == 32 || (9 ≤ b && b ≤ 13)
  let value : Int := match text with
    | 45 :: rest => -(digits rest 0 : Int)
    | 43 :: rest => digits rest 0
    | rest => digits rest 0
  max (-2147483648) (min 2147483647 value)

/-- `strtol` in base ten: the number and what stands after it; without digits nothing is taken. -/
def strtol (s : CString) : Int × List UInt8 :=
  let text := s.bytes.dropWhile fun b => b == 32 || (9 ≤ b && b ≤ 13)
  let unsigned := match text with
    | 45 :: rest => rest
    | 43 :: rest => rest
    | rest => rest
  let rest := unsigned.dropWhile fun b => 48 ≤ b && b ≤ 57
  if unsigned = rest then (0, s.bytes) else (atoi s, rest)

/-- `strstr` finds the needle. -/
def strstr (haystack needle : CString) : Bool := needle.bytes <:+: haystack.bytes

/-- `strtoull` in base ten of a string that starts with its digits. -/
def strtoull (s : CString) : Nat := min 18446744073709551615 (digits s.bytes 0)

/-- A number as `ostringstream` writes it. -/
def ofInt (i : Int) : CString := ofString (toString i)

end CString

/-! ### Little-endian words -/

def le16 (n : Nat) : List UInt8 := [UInt8.ofNat n, UInt8.ofNat (n / 256)]

def le32 (n : Nat) : List UInt8 :=
  [UInt8.ofNat n, UInt8.ofNat (n / 256), UInt8.ofNat (n / 65536), UInt8.ofNat (n / 16777216)]

def fromLe : List UInt8 → Nat
  | [] => 0
  | b :: rest => b.toNat + 256 * fromLe rest

theorem fromLe_le16 (n : Nat) : fromLe (le16 n) = n % 65536 := by
  simp only [le16, fromLe, UInt8.toNat_ofNat']
  omega

theorem fromLe_lt (l : List UInt8) : fromLe l < 256 ^ l.length := by
  induction l with
  | nil => simp [fromLe]
  | cons b l ih =>
    have := b.toNat_lt
    rw [fromLe, List.length_cons, Nat.pow_succ]
    omega

@[simp] theorem le16_length (n : Nat) : (le16 n).length = 2 := rfl

@[simp] theorem le32_length (n : Nat) : (le32 n).length = 4 := rfl

end Twrp.Base
