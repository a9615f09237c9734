import Twrp.Base.Number

/-! The conversions of `sscanf`. Each takes what it can from the front of a text and leaves what
stands behind it; nothing is given where the text has nothing for it, and then the conversions
after it are not tried. A word is read back whatever blanks stand in front of it (`nextWord_solid`). -/
namespace Twrp.Base.Scanf

def isSpace (b : UInt8) : Bool := b == 32 || (9 ≤ b && b ≤ 13)

def isHex (b : UInt8) : Bool := (48 ≤ b && b ≤ 57) || (65 ≤ b && b ≤ 70) || (97 ≤ b && b ≤ 102)

/-- `%s` -/
def nextWord (text : List UInt8) : Option (List UInt8 × List UInt8) :=
  let text := text.dropWhile isSpace
  if text = [] then none else some (text.takeWhile (!isSpace ·), text.dropWhile (!isSpace ·))

/-- `%c`, with a blank in front of it in the format -/
def nextChar (text : List UInt8) : Option (UInt8 × List UInt8) :=
  match text.dropWhile isSpace with
  | [] => none
  | b :: rest => some (b, rest)

/-- What `%lx` leaves. -/
def afterHex (text : List UInt8) : Option (List UInt8) :=
  let text := text.dropWhile isSpace
  let text := if text.head? = some 43 ∨ text.head? = some 45 then text.tail else text
  -- after `0x` there must be a digit
  let text := if text.take 2 ∈ [[48, 120], [48, 88]] ∧ (text.drop 2).head?.any isHex then text.drop 2 else text
  let rest := text.dropWhile isHex
  if rest.length = text.length then none else some rest

/-- `%d`, of a number that an `int` holds -/
def nextInt (text : List UInt8) : Option Int :=
  let text := text.dropWhile isSpace
  let digits := if text.head? = some 43 ∨ text.head? = some 45 then text.tail else text
  if digits.head?.any (fun b => decide (IsDigit b)) then some (CString.ofBytes text).atoi else none

/-! ### Words -/

/-- Bytes none of which is a blank. -/
def Solid (w : List UInt8) : Prop := w ≠ [] ∧ ∀ b ∈ w, isSpace b = false

/-- What ends a word: a blank, or the end of the text. -/
def Blank (rest : List UInt8) : Prop := ∀ b ∈ rest.head?, isSpace b = true

theorem dropWhile_gap {p : UInt8 → Bool} {gap rest : List UInt8} (hgap : ∀ b ∈ gap, p b = true)
    (hrest : ∀ b ∈ rest.head?, p b = false) : (gap ++ rest).dropWhile p = rest := by
  rw [List.dropWhile_append_of_pos hgap]
  cases rest with
  | nil => rfl
  | cons b rest => exact List.dropWhile_cons_of_neg (by simp [hrest b rfl])

theorem takeWhile_gap {p : UInt8 → Bool} {front rest : List UInt8} (hfront : ∀ b ∈ front, p b = true)
    (hrest : ∀ b ∈ rest.head?, p b = false) : (front ++ rest).takeWhile p = front := by
  rw [List.takeWhile_append_of_pos hfront]
  cases rest with
  | nil => simp
  | cons b rest => rw [List.takeWhile_cons_of_neg (by simp [hrest b rfl]), List.append_nil]

theorem Solid.head {w : List UInt8} (h : Solid w) (rest : List UInt8) : ∀ b ∈ (w ++ rest).head?, isSpace b = false := by
  obtain ⟨c, w, rfl⟩ := List.exists_cons_of_ne_nil h.1
  intro b hb
  rw [List.cons_append, List.head?_cons, Option.mem_some_iff] at hb
  rw [← hb]
  exact h.2 c List.mem_cons_self

theorem nextWord_solid {gap w rest : List UInt8} (hgap : ∀ b ∈ gap, isSpace b = true) (hw : Solid w) (hrest : Blank rest) :
    nextWord (gap ++ (w ++ rest)) = some (w, rest) := by
  have hbytes : ∀ b ∈ w, (!isSpace b) = true := by
    intro b hb
    rw [hw.2 b hb]
    rfl
  have hend : ∀ b ∈ rest.head?, (!isSpace b) = false := by
    intro b hb
    rw [hrest b hb]
    rfl
  rw [nextWord, dropWhile_gap hgap (hw.head rest)]
  simp only [List.append_eq_nil_iff, hw.1, false_and, if_false]
  rw [takeWhile_gap hbytes hend, dropWhile_gap hbytes hend]

theorem nextChar_cons {gap rest : List UInt8} {b : UInt8} (hgap : ∀ c ∈ gap, isSpace c = true) (hb : isSpace b = false) :
    nextChar (gap ++ b :: rest) = some (b, rest) := by
  have hhead : ∀ c ∈ (b :: rest).head?, isSpace c = false := by
    intro c hc
    rw [List.head?_cons, Option.mem_some_iff] at hc
    rw [← hc]
    exact hb
  rw [nextChar, dropWhile_gap hgap hhead]

theorem not_isSpace_of_isHex {b : UInt8} (h : isHex b = true) : isSpace b = false := by
  simp only [isHex, Bool.or_eq_true, Bool.and_eq_true, decide_eq_true_eq, UInt8.le_iff_toNat_le] at h
  have hlow : 48 ≤ b.toNat := by
    have hnum : (48 : UInt8).toNat = 48 ∧ (65 : UInt8).toNat = 65 ∧ (97 : UInt8).toNat = 97 := by decide
    omega
  have hspace : b ≠ 32 := by
    rintro rfl
    exact absurd hlow (by decide)
  have htab : ¬b ≤ 13 := by
    rw [UInt8.le_iff_toNat_le]
    have hnum : (13 : UInt8).toNat = 13 := by decide
    omega
  simp [isSpace, hspace, htab]

/-- Hexadecimal digits without a prefix are read to their end. -/
theorem afterHex_digits {gap w rest : List UInt8} (hgap : ∀ b ∈ gap, isSpace b = true) (hne : w ≠ [])
    (hw : ∀ b ∈ w, isHex b = true) (hrest : Blank rest) : afterHex (gap ++ (w ++ rest)) = some rest := by
  have hsolid : Solid w := ⟨hne, fun b hb => not_isSpace_of_isHex (hw b hb)⟩
  have hend : ∀ b ∈ rest.head?, isHex b = false := by
    intro b hb
    by_contra hhex
    have hspace := hrest b hb
    rw [not_isSpace_of_isHex (by simpa using hhex)] at hspace
    cases hspace
  have hplain : ∀ b ∈ rest.head?, b ≠ 120 ∧ b ≠ 88 := by
    intro b hb
    have hspace := hrest b hb
    constructor <;> rintro rfl <;> exact absurd hspace (by decide)
  obtain ⟨b, w, rfl⟩ := List.exists_cons_of_ne_nil hne
  have hfirst := hw b List.mem_cons_self
  have hsign : b ≠ 43 ∧ b ≠ 45 := by constructor <;> rintro rfl <;> exact absurd hfirst (by decide)
  have hnumber : (b :: w ++ rest).take 2 ∉ [[48, 120], [48, 88]] := by
    have hsecond : ∀ c ∈ (w ++ rest).head?, c ≠ 120 ∧ c ≠ 88 := by
      cases w with
      | nil => exact hplain
      | cons c w =>
        have hc := hw c (by simp)
        intro d hd
        rw [List.cons_append, List.head?_cons, Option.mem_some_iff] at hd
        subst hd
        constructor <;> rintro rfl <;> exact absurd hc (by decide)
    cases hwr : w ++ rest with
    | nil => simp [hwr]
    | cons c more =>
      rw [hwr] at hsecond
      have hc := hsecond c rfl
      simp [hwr, hc]
  rw [afterHex, dropWhile_gap hgap (hsolid.head rest)]
  simp only [List.cons_append, List.head?_cons, Option.some.injEq, hsign, or_self, if_false]
  rw [List.cons_append] at hnumber
  simp only [hnumber, false_and, if_false]
  rw [← List.cons_append, dropWhile_gap hw hend, if_neg]
  rw [List.length_append, List.length_cons]
  omega

end Twrp.Base.Scanf
