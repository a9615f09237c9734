import Twrp.Base.CString

/-! Character arrays of a fixed size, and the string functions that write to them.

The text of an array is what stands before its first NUL; an array without one has no end. `strcpy` and
`strcat` write as much as they are given, and fail here where that is past the end of the array; `strlcpy`
and `strlcat` cut it. -/
namespace Twrp.Base

structure Field (n : Nat) where
  bytes : List UInt8
  length_eq : bytes.length = n
deriving DecidableEq

namespace Field
variable {n : Nat}

/-- The bytes before the first NUL. -/
def text (f : Field n) : List UInt8 := f.bytes.takeWhile (· != 0)

/-- There is a NUL. -/
def Ends (f : Field n) : Prop := f.text.length < n

instance (f : Field n) : Decidable f.Ends := inferInstanceAs (Decidable (_ < _))

def zero (n : Nat) : Field n := ⟨List.replicate n 0, List.length_replicate⟩

/-- A text and its NUL at the front of the array. -/
def put (f : Field n) (s : List UInt8) (h : s.length < n) : Field n :=
  ⟨s ++ 0 :: f.bytes.drop (s.length + 1), by
    rw [List.length_append, List.length_cons, List.length_drop, f.length_eq]
    omega⟩

theorem text_put (f : Field n) {s : List UInt8} (hs : 0 ∉ s) (h : s.length < n) : (f.put s h).text = s := by
  have hpos : ∀ b ∈ s, (b != 0) = true := by
    intro b hb
    rw [bne_iff_ne]
    intro hzero
    exact hs (hzero ▸ hb)
  unfold text put
  rw [List.takeWhile_append_of_pos hpos]
  simp

theorem nul_not_mem_text (f : Field n) : 0 ∉ f.text := by
  intro h
  simpa using List.mem_takeWhile_imp h

/-- `strcpy`; `none` where it writes past the end. -/
def strcpy (f : Field n) (s : CString) : Option (Field n) := if h : s.bytes.length < n then some (f.put s.bytes h) else none

/-- `strcat`; `none` where it writes past the end, or finds no end to write at. -/
def strcat (f : Field n) (s : CString) : Option (Field n) := if h : (f.text ++ s.bytes).length < n then some (f.put _ h) else none

theorem strcpy_isSome {f : Field n} {s : CString} : (f.strcpy s).isSome ↔ s.bytes.length < n := by
  unfold strcpy
  split <;> simp_all

/-- `strlcpy` with the size of the array. -/
def strlcpy (f : Field (n + 1)) (s : CString) : Field (n + 1) := f.put (s.bytes.take n) (Nat.lt_succ_of_le (List.length_take_le n _))

/-- `strlcat` with the size of the array; without an end to write at it does nothing. -/
def strlcat (f : Field (n + 1)) (s : CString) : Field (n + 1) :=
  if f.Ends then f.put ((f.text ++ s.bytes).take n) (Nat.lt_succ_of_le (List.length_take_le n _)) else f

theorem text_strlcpy (f : Field (n + 1)) (s : CString) : (f.strlcpy s).text = s.bytes.take n :=
  text_put f (fun h => s.noNul (List.mem_of_mem_take h)) _

theorem ends_put (f : Field n) {s : List UInt8} (hs : 0 ∉ s) (h : s.length < n) : (f.put s h).Ends := by
  unfold Ends
  rw [text_put f hs h]
  exact h

theorem ends_strlcpy (f : Field (n + 1)) (s : CString) : (f.strlcpy s).Ends := ends_put f (fun h => s.noNul (List.mem_of_mem_take h)) _

theorem strlcat_spec {f : Field (n + 1)} (hf : f.Ends) (s : CString) :
    (f.strlcat s).Ends ∧ (f.strlcat s).text = (f.text ++ s.bytes).take n := by
  have hnul : 0 ∉ (f.text ++ s.bytes).take n := by
    intro h
    rcases List.mem_append.mp (List.mem_of_mem_take h) with htext | hbytes
    · exact f.nul_not_mem_text htext
    · exact s.noNul hbytes
  unfold strlcat
  rw [if_pos hf]
  exact ⟨ends_put f hnul _, text_put f hnul _⟩

/-- The array with its last byte set to NUL. -/
def terminate (f : Field (n + 1)) : Field (n + 1) := ⟨f.bytes.set n 0, by rw [List.length_set, f.length_eq]⟩

theorem text_terminate (f : Field (n + 1)) : f.terminate.text = f.text.take n := by
  obtain ⟨front, last, hfront⟩ : ∃ front last, f.bytes = front ++ [last] :=
    ⟨_, _, (List.dropLast_concat_getLast (List.ne_nil_of_length_eq_add_one f.length_eq)).symm⟩
  have hlength : front.length = n := by
    have := f.length_eq
    rw [hfront, List.length_append, List.length_singleton] at this
    omega
  have hset : f.bytes.set n 0 = front ++ [0] := by
    rw [hfront, ← hlength, List.set_append_right (h := le_refl _), Nat.sub_self]
    rfl
  unfold text terminate
  dsimp only
  rw [hset, hfront, List.takeWhile_append, List.takeWhile_append]
  split
  · rename_i hall
    rw [List.take_append_of_le_length (by omega), ← hlength, List.take_length]
    simp
  · rw [List.take_of_length_le]
    have := (List.takeWhile_sublist (l := front) (· != 0)).length_le
    omega

/-- What is written at the start of the array, instead of one byte. -/
def setHead (f : Field n) (b : UInt8) : Field n := ⟨f.bytes.set 0 b, by rw [List.length_set, f.length_eq]⟩

end Field

end Twrp.Base
