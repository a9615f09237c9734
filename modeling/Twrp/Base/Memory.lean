import Twrp.Base.Abi

/-! A block of bytes at an address.

Pointers are addresses of the machine, and their arithmetic wraps around. A read gives the bytes of the
block, or nothing where one of them lies outside of it. The system keeps the stack above what it gives
out, so a block ends well below the end of the address space. -/
namespace Twrp.Base

/-- A list with some of its bytes replaced. -/
def overwrite (l : List UInt8) (i : Nat) (bs : List UInt8) : List UInt8 := l.take i ++ (bs ++ l.drop (i + bs.length))

section Overwrite
variable {l bs : List UInt8} {i p n : Nat}

theorem length_overwrite (h : i + bs.length ≤ l.length) : (overwrite l i bs).length = l.length := by
  rw [overwrite, List.length_append, List.length_append, List.length_take, List.length_drop]
  omega

theorem getElem?_overwrite_outside {j : Nat} (h : i + bs.length ≤ l.length) (hj : j < i ∨ i + bs.length ≤ j) :
    (overwrite l i bs)[j]? = l[j]? := by
  rw [overwrite]
  have hlength : (l.take i).length = i := by
    rw [List.length_take]
    omega
  rcases hj with hlt | hge
  · rw [List.getElem?_append_left (by omega), List.getElem?_take_of_lt hlt]
  · rw [List.getElem?_append_right (by omega), List.getElem?_append_right (by omega), List.getElem?_drop]
    congr 1
    omega

theorem getElem?_overwrite_inside {j : Nat} (h : i + bs.length ≤ l.length) (hi : i ≤ j) (hj : j < i + bs.length) :
    (overwrite l i bs)[j]? = bs[j - i]? := by
  have hlength : (l.take i).length = i := by
    rw [List.length_take]
    omega
  rw [overwrite, List.getElem?_append_right (by omega), hlength, List.getElem?_append_left (by omega)]

/-- A part of the list that is not touched. -/
theorem slice_overwrite (h : i + bs.length ≤ l.length) (hp : p + n ≤ i ∨ i + bs.length ≤ p) :
    ((overwrite l i bs).drop p).take n = (l.drop p).take n := by
  apply List.ext_getElem?
  intro j
  rw [List.getElem?_take, List.getElem?_take, List.getElem?_drop, List.getElem?_drop]
  split_ifs
  · exact getElem?_overwrite_outside h (by omega)
  · rfl

theorem slice_overwritten (h : i + bs.length ≤ l.length) : ((overwrite l i bs).drop i).take bs.length = bs := by
  have hlength : (l.take i).length = i := by
    rw [List.length_take]
    omega
  rw [overwrite, List.drop_left' hlength, List.take_left]

end Overwrite

structure Memory (abi : Abi) where
  addr : Nat
  bytes : List UInt8
  pos : 0 < addr
  /-- The length is the difference of two file offsets, or was asked of `malloc`. -/
  size : bytes.length < abi.longEnd
  room : addr + bytes.length + 2 ^ 27 ≤ abi.word

namespace Memory
variable {abi : Abi} (m : Memory abi)

/-- One past the last byte. -/
def stop : Nat := m.addr + m.bytes.length

/-- `n` bytes on from a pointer. -/
def plus (_ : Memory abi) (a n : Nat) : Nat := (a + n) % abi.word

/-- `n` bytes from a pointer on. -/
def read (a n : Nat) : Option (List UInt8) :=
  if m.addr ≤ a ∧ a + n ≤ m.stop then some ((m.bytes.drop (a - m.addr)).take n) else none

/-- The block with bytes written from a pointer on, if they lie in it. -/
def write (a : Nat) (bs : List UInt8) : Option (Memory abi) :=
  if h : m.addr ≤ a ∧ a + bs.length ≤ m.stop then
    have hlength : (overwrite m.bytes (a - m.addr) bs).length = m.bytes.length := length_overwrite (by have := h.2; unfold stop at this; omega)
    some ⟨m.addr, overwrite m.bytes (a - m.addr) bs, m.pos, hlength ▸ m.size, hlength ▸ m.room⟩
  else none

variable {m}

theorem write_inside {p : Nat} {bs : List UInt8} (h : p + bs.length ≤ m.bytes.length) :
    ∃ m', m.write (m.addr + p) bs = some m' ∧ m'.addr = m.addr ∧ m'.bytes = overwrite m.bytes p bs := by
  have hin : m.addr ≤ m.addr + p ∧ m.addr + p + bs.length ≤ m.stop := ⟨Nat.le_add_right _ _, by unfold stop; omega⟩
  rw [write, dif_pos hin]
  exact ⟨_, rfl, rfl, congrArg (overwrite m.bytes · bs) (Nat.add_sub_cancel_left _ _)⟩

theorem read_inside {p n : Nat} (h : p + n ≤ m.bytes.length) : m.read (m.addr + p) n = some ((m.bytes.drop p).take n) := by
  have hin : m.addr ≤ m.addr + p ∧ m.addr + p + n ≤ m.stop := ⟨Nat.le_add_right _ _, by unfold stop; omega⟩
  rw [read, if_pos hin, Nat.add_sub_cancel_left]

theorem read_outside {a n : Nat} (h : a < m.addr ∨ m.stop < a + n) : m.read a n = none := by
  rw [read, if_neg]
  omega

/-- Pointers that stay near the block do not wrap around. -/
theorem plus_near {p n : Nat} (h : p + n < m.bytes.length + 2 ^ 27) : m.plus (m.addr + p) n = m.addr + (p + n) := by
  have := m.room
  rw [plus, Nat.mod_eq_of_lt (by omega), Nat.add_assoc]

end Memory

/-- The conversion of a `size_t` to a `long`. -/
def Abi.long (abi : Abi) (n : Nat) : Int := if n < abi.longEnd then n else (n : Int) - abi.word

/-- `safe_add` of two `long`s. -/
def Abi.safeAdd (abi : Abi) (a b : Int) : Bool := decide (-(abi.longEnd : Int) ≤ a + b) && decide (a + b < abi.longEnd)

/-- The conversion of a `long` to a `size_t`. -/
def Abi.ofLong (abi : Abi) (a : Int) : Nat := (a % abi.word).toNat

theorem Abi.word_eq (abi : Abi) : abi.word = 2 * abi.longEnd := by
  cases abi <;> rfl

/-- A sum of two `long`s is the sum of the `size_t`s they come from. -/
theorem Abi.ofLong_add (abi : Abi) (a b : Nat) : abi.ofLong (abi.long a + abi.long b) = (a + b) % abi.word := by
  have hlong : ∀ n, ∃ k : Int, abi.long n = n + k * abi.word := by
    intro n
    unfold long
    split
    · exact ⟨0, by ring⟩
    · exact ⟨-1, by ring⟩
  obtain ⟨k, hk⟩ := hlong a
  obtain ⟨l, hl⟩ := hlong b
  have hsum : abi.long a + abi.long b = ((a + b : Nat) : Int) + (k + l) * abi.word := by
    rw [hk, hl]
    push_cast
    ring
  unfold ofLong
  rw [hsum, Int.add_mul_emod_self_right, ← Int.natCast_emod, Int.toNat_natCast]

end Twrp.Base
