import Twrp.Base.CString
import Twrp.Base.Scanf

/-! Files of the kernel, read into a buffer and scanned line by line.

What fits the buffer is read, and `sscanf` is given the rest of it from the start of each line on, so that a
conversion may run into the lines behind. A line of the file is `Listed` when all of it is in the buffer. -/
namespace Twrp.Scan
open Base Scanf

abbrev Text := List UInt8

/-- `char buf[2048]`, with a terminator behind what is read. -/
def bufferSize : Nat := 2047

/-! ### The starts of the lines -/

/-- Behind each newline, where something stands there. -/
def behindNewlines : Text → List Text
  | [] => []
  | b :: rest => if b = 10 ∧ rest ≠ [] then rest :: behindNewlines rest else behindNewlines rest

/-- The rest of a text from each of its lines on. -/
def starts (text : Text) : List Text := if text = [] then [] else text :: behindNewlines text

/-- What the loop that eats the line leaves. -/
def eatLine (text : Text) : Text := (text.dropWhile (· ≠ 10)).drop 1

theorem eatLine_lt {text : Text} (h : text ≠ []) : (eatLine text).length < text.length := by
  rw [eatLine, List.length_drop]
  have hle := List.length_dropWhile_le (fun b : UInt8 => decide (b ≠ 10)) text
  have hpos := List.length_pos_of_ne_nil h
  omega

theorem behindNewlines_eatLine (text : Text) : behindNewlines text = starts (eatLine text) := by
  induction text with
  | nil => rfl
  | cons b rest ih =>
    by_cases hb : b = 10
    · subst hb
      rw [behindNewlines, starts, eatLine]
      by_cases hrest : rest = []
      · simp [hrest, behindNewlines]
      · simp [hrest]
    · have heat : eatLine (b :: rest) = eatLine rest := by simp [eatLine, hb]
      rw [behindNewlines, if_neg (by simp [hb]), heat, ih]

/-- The starts are the text, and those of what is left when its line is eaten. -/
theorem starts_cons {text : Text} (h : text ≠ []) : starts text = text :: starts (eatLine text) := by
  rw [starts, if_neg h, behindNewlines_eatLine]

/-- A line of a text: where it starts, what it is, and what stands behind it. -/
structure LineAt (text before line rest : Text) : Prop where
  text : text = before ++ (line ++ rest)
  first : before = [] ∨ before.getLast? = some 10
  line : 10 ∉ line
  ends : rest = [] ∨ rest.head? = some 10

/-- The line is looked at in the buffer from its start on. -/
theorem mem_starts {text before line rest : Text} (h : LineAt text before line rest) (hne : line ++ rest ≠ []) :
    line ++ rest ∈ starts text := by
  obtain ⟨rfl, hfirst, -, -⟩ := h
  have hbehind (front : Text) (hfront : front.getLast? = some 10) : line ++ rest ∈ behindNewlines (front ++ (line ++ rest)) := by
    induction front with
    | nil => exact nomatch hfront
    | cons b front ih =>
      rw [List.cons_append, behindNewlines]
      by_cases hnil : front = []
      · subst hnil
        obtain rfl : b = 10 := by simpa using hfront
        rw [List.nil_append, if_pos ⟨rfl, hne⟩]
        exact List.mem_cons_self
      · have hrest := ih (by rw [← hfront, List.getLast?_cons_of_ne_nil hnil])
        split_ifs
        · exact List.mem_cons_of_mem _ hrest
        · exact hrest
  rw [starts, if_neg (by simp_all)]
  obtain rfl | hlast := hfirst
  · exact List.mem_cons_self
  · exact List.mem_cons_of_mem _ (hbehind before hlast)

theorem of_mem_behindNewlines {text start : Text} (h : start ∈ behindNewlines text) : ∃ front, text = front ++ 10 :: start := by
  induction text with
  | nil => exact nomatch h
  | cons b rest ih =>
    rw [behindNewlines] at h
    have hlater (h : start ∈ behindNewlines rest) : ∃ front, b :: rest = front ++ 10 :: start := by
      obtain ⟨front, hfront⟩ := ih h
      exact ⟨b :: front, by rw [hfront]; rfl⟩
    split at h
    · rename_i hb
      obtain rfl | h := List.mem_cons.mp h
      · exact ⟨[], by rw [hb.1]; rfl⟩
      · exact hlater h
    · exact hlater h

/-- Where something is looked at in the buffer, a line starts. -/
theorem exists_lineAt {text start : Text} (h : start ∈ starts text) :
    ∃ before line rest, LineAt text before line rest ∧ start = line ++ rest := by
  have hends : start.dropWhile (· ≠ 10) = [] ∨ (start.dropWhile (· ≠ 10)).head? = some 10 := by
    have hnot := List.head?_dropWhile_not (fun b : UInt8 => decide (b ≠ 10)) start
    cases hrest : start.dropWhile (· ≠ 10) with
    | nil => exact .inl rfl
    | cons b rest =>
      rw [hrest] at hnot
      obtain rfl : b = 10 := by simpa using hnot
      exact .inr rfl
  have hline : (10 : UInt8) ∉ start.takeWhile (· ≠ 10) := by
    intro hmem
    exact absurd (List.mem_takeWhile_imp hmem) (by decide)
  rw [starts] at h
  split at h
  · exact nomatch h
  · obtain rfl | h := List.mem_cons.mp h
    · exact ⟨[], _, _, ⟨by rw [List.takeWhile_append_dropWhile]; rfl, .inl rfl, hline, hends⟩, List.takeWhile_append_dropWhile.symm⟩
    · obtain ⟨front, rfl⟩ := of_mem_behindNewlines h
      exact ⟨front ++ [10], _, _, ⟨by rw [List.takeWhile_append_dropWhile, List.append_assoc]; rfl, .inr (by simp), hline, hends⟩,
        List.takeWhile_append_dropWhile.symm⟩

/-- A line of a file all of which is in the buffer, without a NUL. -/
structure Listed (file line : Text) : Prop where
  noNul : 0 ∉ line
  inBuffer : ∃ before rest, LineAt file before line rest ∧ (before ++ line).length ≤ bufferSize

/-- What `sscanf` sees from the start of a listed line on begins with the line, and a newline or nothing follows. -/
theorem Listed.exists_start {file line : Text} (h : Listed file line) (hne : line ≠ []) :
    ∃ start ∈ starts (file.take bufferSize), ∃ rest, (CString.ofBytes start).bytes = line ++ rest ∧ Blank rest := by
  obtain ⟨before, rest, hline, hlength⟩ := h.inBuffer
  have htake : file.take bufferSize = before ++ (line ++ rest.take (bufferSize - (before ++ line).length)) := by
    rw [hline.text, ← List.append_assoc, List.take_append, List.take_of_length_le hlength, List.append_assoc]
  have hends : rest.take (bufferSize - (before ++ line).length) = [] ∨
      (rest.take (bufferSize - (before ++ line).length)).head? = some 10 := by
    obtain rfl | hhead := hline.ends
    · exact .inl (List.take_nil)
    · obtain ⟨tail, rfl⟩ : ∃ tail, rest = 10 :: tail := by
        cases rest with
        | nil => exact nomatch hhead
        | cons b tail => exact ⟨tail, by rw [Option.some.inj hhead]⟩
      cases bufferSize - (before ++ line).length with
      | zero => exact .inl rfl
      | succ n => exact .inr rfl
  refine ⟨_, mem_starts ⟨htake, hline.first, hline.line, hends⟩ (by simp [hne]), ?_⟩
  have hfree : ∀ b ∈ line, (b != 0) = true := by
    intro b hb
    simp only [bne_iff_ne, ne_eq]
    rintro rfl
    exact h.noNul hb
  refine ⟨(rest.take (bufferSize - (before ++ line).length)).takeWhile (· != 0), ?_, ?_⟩
  · show List.takeWhile _ _ = _
    rw [List.takeWhile_append_of_pos hfree]
  · intro b hb
    obtain hnil | hnewline := hends
    · rw [hnil] at hb
      exact nomatch hb
    · cases hrest : rest.take (bufferSize - (before ++ line).length) with
      | nil => exact nomatch hrest ▸ hnewline
      | cons c tail =>
        rw [hrest] at hb hnewline
        obtain rfl : c = 10 := Option.some.inj hnewline
        obtain rfl : 10 = b := by simpa using hb
        rfl

/-! ### Lookups -/

/-- A lookup by a key gives exactly the entries that there are. -/
def Finds {α : Type} (entry : α → Prop) (key : α → Text) (find : Text → Option α) : Prop :=
  ∀ k, match find k with
    | some e => entry e ∧ key e = k
    | none => ∀ e, entry e → key e ≠ k

/-- The first of a list is found with each key: what is not an entry must stand behind something with its key, and no
entry's key may be missing. -/
theorem finds_iff {α : Type} {entry : α → Prop} {key : α → Text} {l : List α} :
    Finds entry key (fun k => l.find? (key · == k)) ↔ (∀ e, entry e → ∃ r ∈ l, key r = key e) ∧
      ∀ before r after, l = before ++ r :: after → ¬entry r → ∃ r' ∈ before, key r' = key r := by
  unfold Finds
  beta_reduce
  constructor
  · intro h
    constructor
    · intro e he
      have hk := h (key e)
      cases hfind : l.find? (key · == key e) with
      | none =>
        rw [hfind] at hk
        exact absurd rfl (hk e he)
      | some r =>
        have hkey := List.find?_some hfind
        exact ⟨r, List.mem_of_find?_eq_some hfind, beq_iff_eq.mp hkey⟩
    · intro before r after hl hr
      by_contra hnone
      have hbefore : before.find? (key · == key r) = none := by
        rw [List.find?_eq_none]
        intro r' hr' hkey
        exact hnone ⟨r', hr', beq_iff_eq.mp hkey⟩
      have hk := h (key r)
      have hfind : l.find? (key · == key r) = some r := by
        rw [hl, List.find?_append, hbefore, Option.none_or]
        exact List.find?_cons_of_pos (beq_self_eq_true (key r))
      rw [hfind] at hk
      exact hr hk.1
  · intro ⟨hall, hfirst⟩ k
    cases hfind : l.find? (key · == k) with
    | none =>
      intro e he hkey
      obtain ⟨r, hr, hkr⟩ := hall e he
      rw [List.find?_eq_none] at hfind
      exact hfind r hr (by simp [hkr, hkey])
    | some r =>
      obtain ⟨hkey, before, after, hl, hbefore⟩ := List.find?_eq_some_iff_append.mp hfind
      have hkr : key r = k := beq_iff_eq.mp hkey
      refine ⟨?_, hkr⟩
      by_contra hr
      obtain ⟨r', hr', hkey'⟩ := hfirst before r after hl hr
      have hnot := hbefore r' hr'
      simp [hkey', hkr] at hnot

end Twrp.Scan
