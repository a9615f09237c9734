import Mathlib.Data.List.Basic
import Mathlib.Data.List.Chain

/-! Paths as text, and the numbers printed into them.

A path is its characters. `collapse` brings runs of slashes down to one, which is
all that a file system does with them; a path in which no two slashes meet is
already collapsed. `padded w n` is the field `%0wi`. -/
namespace Twrp.Base

abbrev Path := List Char

instance : LawfulBEq Path := inferInstanceAs (LawfulBEq (List Char))

/-- `dir + "/" + name` -/
def join (dir name : Path) : Path := dir ++ '/' :: name

/-! ### Slashes -/

/-- Runs of slashes collapsed. -/
def collapse : Path → Path
  | [] => []
  | c :: rest => if c = '/' ∧ rest.head? = some '/' then collapse rest else c :: collapse rest

/-- No two slashes meet. -/
def Collapsed (p : Path) : Prop := p.IsChain fun c d => ¬(c = '/' ∧ d = '/')

theorem collapse_of_collapsed {p : Path} (h : Collapsed p) : collapse p = p := by
  induction p with
  | nil => rfl
  | cons c rest ih =>
    have hhead : ¬(c = '/' ∧ rest.head? = some '/') := by
      rintro ⟨hc, hd⟩
      cases rest with
      | nil => cases hd
      | cons d rest =>
        simp only [List.head?_cons, Option.some.injEq] at hd
        exact (List.isChain_cons_cons.mp h).1 ⟨hc, hd⟩
    rw [collapse, if_neg hhead, ih (List.IsChain.tail h)]

theorem collapse_double (p q : Path) : collapse (p ++ '/' :: '/' :: q) = collapse (p ++ '/' :: q) := by
  induction p with
  | nil => rw [List.nil_append, List.nil_append, collapse, if_pos ⟨rfl, rfl⟩]
  | cons c rest ih =>
    have hhead : (rest ++ '/' :: '/' :: q).head? = (rest ++ '/' :: q).head? := by
      cases rest <;> rfl
    rw [List.cons_append, List.cons_append, collapse, collapse, hhead, ih]

/-- Joining a directory to a path that starts with a slash of its own. -/
theorem collapse_join_slash {dir rest : Path} (h : Collapsed (dir ++ '/' :: rest)) :
    collapse (join dir ('/' :: rest)) = dir ++ '/' :: rest := by
  rw [join, collapse_double]
  exact collapse_of_collapsed h

/-- A path is split at its last slash. -/
theorem exists_last_slash {p : Path} (h : '/' ∈ p) : ∃ dir name, p = join dir name ∧ '/' ∉ name := by
  induction p with
  | nil => cases h
  | cons c rest ih =>
    by_cases hrest : '/' ∈ rest
    · obtain ⟨dir, name, rfl, hname⟩ := ih hrest
      exact ⟨c :: dir, name, rfl, hname⟩
    · obtain rfl := (List.mem_cons.mp h).resolve_right hrest
      exact ⟨[], rest, rfl, hrest⟩

/-- The last component, without trailing slashes. -/
def basename (p : Path) : Path :=
  if p = [] then ['.']
  else
    let trimmed := (p.reverse.dropWhile (· == '/'))
    if trimmed = [] then ['/'] else (trimmed.takeWhile (· != '/')).reverse

/-! ### Printed numbers -/

/-- The field `%i` of a number that is not negative. -/
def decimal (n : Nat) : Path := Nat.toDigits 10 n

/-- The field `%0wi`. -/
def padded (w n : Nat) : Path := List.replicate (w - (decimal n).length) '0' ++ decimal n

/-- The number printed can be read back. -/
theorem value_padded (w n : Nat) : Nat.ofDigitChars 10 (padded w n) 0 = n := by
  rw [padded, Nat.ofDigitChars_append, Nat.ofDigitChars_replicate_zero, Nat.mul_zero]
  exact Nat.ofDigitChars_ten_toDigits

theorem padded_inj {w m n : Nat} (h : padded w m = padded w n) : m = n := by
  have hvalue := congrArg (fun l => Nat.ofDigitChars 10 l 0) h
  simpa only [value_padded] using hvalue

theorem padded_ne_nil (w n : Nat) : padded w n ≠ [] := by
  intro h
  rw [padded, List.append_eq_nil_iff] at h
  exact Nat.toDigits_ne_nil h.2

/-- A digit followed by a field of two is a field of three. -/
theorem decimal_padded : ∀ t < 10, ∀ a < 100, decimal t ++ padded 2 a = padded 3 (100 * t + a) := by
  decide +kernel

end Twrp.Base
