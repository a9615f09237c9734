import Twrp.Base.Scanf

/-! `fscanf`: a format is a list of directives, which are done one after the other until one of them
fails. What is told is the fields that were converted, and nobody says whether the directives behind the
last of them matched (`fscanf_matches` needs a format that ends with a conversion). -/
namespace Twrp.Base.Fscanf
open Scanf

abbrev Text := List UInt8

def skip (text : Text) : Text := text.dropWhile isSpace

/-! ### Numbers -/

/-- `%d`, `%u`, `%i` and `%x`. -/
inductive Kind where
  | d | u | i | x
deriving DecidableEq

def digitValue (b : UInt8) : Nat :=
  if 48 ≤ b ∧ b ≤ 57 then b.toNat - 48
  else if 65 ≤ b ∧ b ≤ 70 then b.toNat - 55
  else if 97 ≤ b ∧ b ≤ 102 then b.toNat - 87
  else 16

def isDigitIn (radix : Nat) (b : UInt8) : Bool := digitValue b < radix

def magnitude (radix : Nat) (digits : Text) : Nat := digits.foldl (fun n b => radix * n + digitValue b) 0

/-- A number as it is written: blanks, a sign, `0x`, and its digits. -/
structure Numeral where
  gap : Text
  sign : Text
  pre : Text
  radix : Nat
  digits : Text
deriving DecidableEq

def signed (sign : Text) (n : Nat) : Int := if sign = [45] then -n else n

def Numeral.value (m : Numeral) : Int := signed m.sign (magnitude m.radix m.digits)

/-- What `strtoimax` makes of it, in an `int`. -/
def Numeral.toInt (m : Numeral) : Int :=
  (BitVec.ofInt 32 (max (-9223372036854775808) (min 9223372036854775807 m.value))).toInt

/-- What `strtoumax` makes of it, in an `unsigned int`. -/
def Numeral.toUnsigned (m : Numeral) : BitVec 32 :=
  if 18446744073709551616 ≤ magnitude m.radix m.digits then BitVec.allOnes 32 else BitVec.ofInt 32 m.value

def signOf : Text → Text
  | [] => []
  | b :: _ => if b = 43 ∨ b = 45 then [b] else []

/-- `0x`, where the kind takes it and a digit follows. -/
def prefixOf (k : Kind) (text : Text) : Text :=
  if k ∈ [.i, .x] ∧ text.take 2 ∈ [[48, 120], [48, 88]] ∧ (text.drop 2).head?.any (isDigitIn 16) then text.take 2 else []

def radixOf (k : Kind) (pre text : Text) : Nat :=
  match k with
  | .d | .u => 10
  | .x => 16
  | .i => if pre ≠ [] then 16 else if text.head? = some 48 then 8 else 10

def numberAfter (gap sign pre : Text) (radix : Nat) (text : Text) : Option (Numeral × Text) :=
  if text.takeWhile (isDigitIn radix) = [] then none
  else some (⟨gap, sign, pre, radix, text.takeWhile (isDigitIn radix)⟩, text.dropWhile (isDigitIn radix))

/-- The number that stands at the front of a text, and what stands behind it. -/
def number (k : Kind) (text : Text) : Option (Numeral × Text) :=
  let sign := signOf (skip text)
  let unsigned := (skip text).drop sign.length
  let pre := prefixOf k unsigned
  numberAfter (text.takeWhile isSpace) sign pre (radixOf k pre (unsigned.drop pre.length)) (unsigned.drop pre.length)

/-- A number stands at the front of a text, and something else behind it. -/
structure Numeral.At (m : Numeral) (k : Kind) (text rest : Text) : Prop where
  gap : m.gap = text.takeWhile isSpace
  spelled : skip text = m.sign ++ (m.pre ++ (m.digits ++ rest))
  sign : m.sign = signOf (skip text)
  pre : m.pre = prefixOf k (m.pre ++ (m.digits ++ rest))
  radix : m.radix = radixOf k m.pre (m.digits ++ rest)
  ne_nil : m.digits ≠ []
  digits : ∀ b ∈ m.digits, isDigitIn m.radix b = true
  ends : ∀ b ∈ rest.head?, isDigitIn m.radix b = false

theorem signOf_front (text : Text) : signOf text ++ text.drop (signOf text).length = text := by
  cases text with
  | nil => rfl
  | cons b text =>
    rw [signOf]
    split
    · rfl
    · rfl

theorem prefixOf_front (k : Kind) (text : Text) : prefixOf k text ++ text.drop (prefixOf k text).length = text := by
  rw [prefixOf]
  split
  · exact List.prefix_iff_eq_append.mp (List.take_prefix 2 text)
  · rfl

theorem numberAfter_iff {gap sign pre text rest : Text} {radix : Nat} {m : Numeral} :
    numberAfter gap sign pre radix text = some (m, rest) ↔ m = ⟨gap, sign, pre, radix, m.digits⟩ ∧ text = m.digits ++ rest ∧ m.digits ≠ [] ∧
      (∀ b ∈ m.digits, isDigitIn radix b = true) ∧ ∀ b ∈ rest.head?, isDigitIn radix b = false := by
  rw [numberAfter]
  constructor
  · intro h
    split at h
    · cases h
    · rename_i hne
      obtain ⟨rfl, rfl⟩ := Prod.mk.inj (Option.some.inj h)
      refine ⟨rfl, List.takeWhile_append_dropWhile.symm, hne, fun b hb => List.mem_takeWhile_imp hb, fun b hb => ?_⟩
      have hnot := List.head?_dropWhile_not (isDigitIn radix) text
      rw [hb] at hnot
      exact hnot
  · rintro ⟨hm, htext, hne, hdigits, hends⟩
    rw [htext, takeWhile_gap hdigits hends, dropWhile_gap hdigits hends, if_neg hne, ← hm]

theorem number_iff {k : Kind} {text rest : Text} {m : Numeral} : number k text = some (m, rest) ↔ m.At k text rest := by
  have hsign := signOf_front (skip text)
  have hpre := prefixOf_front k ((skip text).drop (signOf (skip text)).length)
  rw [number, numberAfter_iff]
  constructor
  · rintro ⟨hm, htext, hne, hdigits, hends⟩
    rw [htext] at hpre
    rw [hm]
    exact ⟨rfl, (congrArg _ hpre).trans hsign |>.symm, rfl, by rw [hpre], by rw [htext], hne, hdigits, hends⟩
  · intro h
    have hunsigned : (skip text).drop (signOf (skip text)).length = m.pre ++ (m.digits ++ rest) := by
      rw [← h.sign, h.spelled, List.drop_left]
    have htext : (m.pre ++ (m.digits ++ rest)).drop m.pre.length = m.digits ++ rest := List.drop_left
    rw [hunsigned, ← h.pre, htext, ← h.radix, ← h.gap, ← h.sign]
    exact ⟨rfl, rfl, h.ne_nil, h.digits, h.ends⟩

theorem skip_skip (text : Text) : skip (skip text) = skip text := List.dropWhile_idempotent _ _

theorem length_skip_le (text : Text) : (skip text).length ≤ text.length := List.length_dropWhile_le _ _

theorem skip_head {text : Text} {b : UInt8} (h : b ∈ (skip text).head?) : isSpace b = false := by
  have hnot := List.head?_dropWhile_not isSpace text
  rw [show (text.dropWhile isSpace).head? = some b from h] at hnot
  exact hnot

/-- What stands at the front of a text is a blank, or what stands behind the blanks. -/
theorem head_of_skip {text rest : Text} {b c : UInt8} (h : skip text = c :: rest) (hb : b ∈ text.head?) : isSpace b = true ∨ b = c := by
  cases text with
  | nil => cases hb
  | cons a text =>
    obtain rfl := Option.some.inj hb
    cases ha : isSpace a with
    | true => exact .inl rfl
    | false =>
      rw [skip, List.dropWhile_cons_of_neg (by rw [ha]; exact Bool.false_ne_true)] at h
      exact .inr (List.cons.inj h).1

theorem digit_not_space {radix : Nat} {b : UInt8} (hradix : radix ≤ 16) (h : isDigitIn radix b = true) : isSpace b = false ∧ b ≠ 43 ∧ b ≠ 45 := by
  have hlt : digitValue b < radix := of_decide_eq_true h
  have hlow : ∀ c : UInt8, digitValue c = 16 → b ≠ c := by
    rintro c hc rfl
    omega
  refine ⟨?_, hlow 43 rfl, hlow 45 rfl⟩
  cases hspace : isSpace b with
  | false => rfl
  | true =>
    rw [isSpace, Bool.or_eq_true, Bool.and_eq_true, beq_iff_eq, decide_eq_true_eq, decide_eq_true_eq] at hspace
    obtain rfl | ⟨-, hle⟩ := hspace
    · exact absurd rfl (hlow 32 rfl)
    · have hsmall : ∀ n < 14, digitValue (UInt8.ofNat n) = 16 := by decide
      have hnat : b.toNat < 14 := Nat.lt_succ_of_le (UInt8.le_iff_toNat_le.mp hle)
      have hvalue := hsmall b.toNat hnat
      rw [UInt8.ofNat_toNat] at hvalue
      omega

theorem signOf_digits {radix : Nat} {ds rest : Text} (hradix : radix ≤ 16) (hne : ds ≠ []) (hds : ∀ b ∈ ds, isDigitIn radix b = true) :
    signOf (ds ++ rest) = [] := by
  obtain ⟨b, ds, rfl⟩ := List.exists_cons_of_ne_nil hne
  obtain ⟨-, hplus, hminus⟩ := digit_not_space hradix (hds b List.mem_cons_self)
  rw [List.cons_append, signOf, if_neg]
  exact not_or.mpr ⟨hplus, hminus⟩

/-- A sign that is looked for is found, where digits follow. -/
theorem signOf_signed {sign ds rest : Text} (hsign : sign = [] ∨ sign = [45]) (hne : ds ≠ []) (hds : ∀ b ∈ ds, isDigitIn 10 b = true) :
    signOf (sign ++ (ds ++ rest)) = sign := by
  rcases hsign with rfl | rfl
  · show signOf (ds ++ rest) = []
    exact signOf_digits (by decide) hne hds
  · rfl

theorem signOf_cases (text : Text) : signOf text = [] ∨ signOf text = [43] ∨ signOf text = [45] := by
  cases text with
  | nil => exact .inl rfl
  | cons b text =>
    rw [signOf]
    split
    · rename_i hb
      rcases hb with rfl | rfl
      · exact .inr (.inl rfl)
      · exact .inr (.inr rfl)
    · exact .inl rfl

/-- A prefix starts with a zero, and has no digit behind it. -/
theorem prefixOf_eq_nil {k : Kind} {text : Text} (h : k ∈ [.i, .x] → ∀ b more, text = 48 :: b :: more → b ≠ 120 ∧ b ≠ 88) : prefixOf k text = [] := by
  rw [prefixOf, if_neg]
  rintro ⟨hk, htake, -⟩
  match text with
  | [] => exact absurd htake (by decide)
  | [a] => simp at htake
  | a :: b :: more =>
    have hpair : (a = 48 ∧ b = 120) ∨ (a = 48 ∧ b = 88) := by simpa using htake
    rcases hpair with ⟨rfl, rfl⟩ | ⟨rfl, rfl⟩
    · exact (h hk _ _ rfl).1 rfl
    · exact (h hk _ _ rfl).2 rfl

/-- A decimal number is read as it is written, where it does not look like an octal one. -/
theorem number_decimal {k : Kind} {text sign ds rest : Text} (hx : k ≠ .x) (hsign : sign = [] ∨ sign = [45]) (htext : skip text = sign ++ (ds ++ rest))
    (hne : ds ≠ []) (hds : ∀ b ∈ ds, isDigitIn 10 b = true) (hrest : ∀ b ∈ rest.head?, isDigitIn 10 b = false)
    (hzero : k = .i → ds.head? ≠ some 48) : number k text = some (⟨text.takeWhile isSpace, sign, [], 10, ds⟩, rest) := by
  have hhead : (ds ++ rest).head? = ds.head? := List.head?_append_of_ne_nil _ hne
  have hpre : prefixOf k (ds ++ rest) = [] := by
    apply prefixOf_eq_nil
    intro hk b more heq
    have hi : k = .i := (List.mem_pair.mp hk).resolve_right hx
    rw [heq] at hhead
    exact absurd hhead.symm (hzero hi)
  have hradix : radixOf k [] (ds ++ rest) = 10 := by
    cases k with
    | d | u => rfl
    | x => exact absurd rfl hx
    | i =>
      rw [radixOf, if_neg (not_not.mpr rfl), if_neg]
      rw [hhead]
      exact hzero rfl
  exact number_iff.mpr ⟨rfl, htext, by rw [htext]; exact (signOf_signed hsign hne hds).symm, hpre.symm, hradix.symm, hne, hds, hrest⟩

theorem number_length {k : Kind} {text rest : Text} {m : Numeral} (h : number k text = some (m, rest)) : rest.length ≤ text.length := by
  have hlength := congrArg List.length (number_iff.mp h).spelled
  have hskip := length_skip_le text
  simp only [List.length_append] at hlength
  omega

theorem skip_append {text : Text} (tail : Text) (h : skip text ≠ []) : skip (text ++ tail) = skip text ++ tail := by
  rw [skip, List.dropWhile_append, if_neg]
  · rfl
  · rw [List.isEmpty_iff]
    exact h

theorem prefixOf_append {k : Kind} {text : Text} (tail : Text) (h : 3 ≤ text.length) : prefixOf k (text ++ tail) = prefixOf k text := by
  have hdrop : ((text ++ tail).drop 2).head? = (text.drop 2).head? := by
    rw [List.drop_append_of_le_length (by omega), List.head?_append_of_ne_nil]
    rw [ne_eq, List.drop_eq_nil_iff]
    omega
  rw [prefixOf, prefixOf, hdrop, List.take_append_of_le_length (by omega)]

/-- A number of a line is read as it is where the line stands in a text, when the line goes on behind it. -/
theorem number_append {k : Kind} {text rest : Text} {m : Numeral} (tail : Text) (h : number k text = some (m, rest)) (hrest : 2 ≤ rest.length) :
    number k (text ++ tail) = some (m, rest ++ tail) := by
  have hat := number_iff.mp h
  obtain ⟨b, more, hmore⟩ := List.exists_cons_of_ne_nil hat.ne_nil
  have hskip : skip text ≠ [] := by
    rw [hat.spelled, hmore]
    simp
  have hnext : skip (text ++ tail) = m.sign ++ (m.pre ++ (m.digits ++ (rest ++ tail))) := by
    rw [skip_append tail hskip, hat.spelled]
    simp only [List.append_assoc]
  have hpre : m.pre ++ (m.digits ++ (rest ++ tail)) = m.pre ++ (m.digits ++ rest) ++ tail := by simp only [List.append_assoc]
  refine number_iff.mpr ⟨?_, hnext, ?_, ?_, ?_, hat.ne_nil, hat.digits, ?_⟩
  · rw [hat.gap, List.takeWhile_append, if_neg]
    intro heq
    have hall := List.takeWhile_append_dropWhile (p := isSpace) (l := text)
    have hlength := congrArg List.length hall
    rw [List.length_append, heq] at hlength
    exact hskip (List.eq_nil_of_length_eq_zero (by rw [skip]; omega))
  · rw [hat.sign, skip_append tail hskip]
    cases hs : skip text with
    | nil => exact absurd hs hskip
    | cons c cs => rfl
  · rw [hpre, prefixOf_append tail]
    · exact hat.pre
    · rw [List.length_append, List.length_append, hmore, List.length_cons]
      omega
  · rw [hat.radix, hmore]
    cases k with
    | d | u | x | i => rfl
  · rw [List.head?_append_of_ne_nil]
    · exact hat.ends
    · rintro rfl
      exact absurd hrest (by decide)

theorem number_unsigned {text rest : Text} {m : Numeral} (h : number .u text = some (m, rest)) : m.pre = [] ∧ m.radix = 10 := by
  obtain ⟨-, -, -, hpre, hradix, -⟩ := number_iff.mp h
  have hnone : m.pre = [] := hpre.trans (if_neg fun hk => absurd hk.1 (by decide))
  exact ⟨hnone, hradix⟩

/-- A number of 32 bits is kept as it is. -/
theorem toUnsigned_word {m : Numeral} (hlow : -2147483648 ≤ m.value) (hhigh : m.value < 4294967296) : m.toUnsigned = BitVec.ofInt 32 m.value := by
  have hsmall : magnitude m.radix m.digits < 18446744073709551616 := by
    rw [Numeral.value, signed] at hlow hhigh
    by_cases hminus : m.sign = [45]
    · rw [if_pos hminus] at hlow
      omega
    · rw [if_neg hminus] at hhigh
      omega
  rw [Numeral.toUnsigned, if_neg (by omega)]

theorem toInt_int {m : Numeral} (hlow : -2147483648 ≤ m.value) (hhigh : m.value < 2147483648) : m.toInt = m.value := by
  rw [Numeral.toInt, max_eq_right (by omega), min_eq_right (by omega), BitVec.toInt_ofInt, Int.bmod_eq_of_le (by omega) (by omega)]

/-! ### Formats -/

inductive Directive where
  | blank
  | literal (c : UInt8)
  | char
  | number (k : Kind)

inductive Field where
  | char (c : UInt8)
  | number (m : Numeral)
deriving DecidableEq

/-- The fields that are converted, and what is left of the text. -/
def fscanf : List Directive → Text → List Field × Text
  | [], text => ([], text)
  | .blank :: format, text => fscanf format (skip text)
  | .literal c :: format, text =>
    match text with
    | [] => ([], [])
    | b :: rest => if b = c then fscanf format rest else ([], b :: rest)
  | .char :: format, text =>
    match text with
    | [] => ([], [])
    | b :: rest => ((.char b :: (fscanf format rest).1), (fscanf format rest).2)
  | .number k :: format, text =>
    match number k text with
    | none => ([], text)
    | some (m, rest) => ((.number m :: (fscanf format rest).1), (fscanf format rest).2)

/-- Every directive of the format is matched. -/
def Matches : List Directive → Text → List Field → Text → Prop
  | [], text, fields, rest => fields = [] ∧ rest = text
  | .blank :: format, text, fields, rest => Matches format (skip text) fields rest
  | .literal c :: format, text, fields, rest => ∃ t, text = c :: t ∧ Matches format t fields rest
  | .char :: format, text, fields, rest => ∃ b t more, text = b :: t ∧ fields = .char b :: more ∧ Matches format t more rest
  | .number k :: format, text, fields, rest =>
    ∃ m t more, number k text = some (m, t) ∧ fields = .number m :: more ∧ Matches format t more rest

def Directive.converts : Directive → Bool
  | blank | literal _ => false
  | char | number _ => true

theorem Matches.fscanf_eq {format : List Directive} {text rest : Text} {fields : List Field} (h : Matches format text fields rest) :
    fscanf format text = (fields, rest) := by
  induction format generalizing text fields with
  | nil =>
    obtain ⟨rfl, rfl⟩ := h
    rfl
  | cons directive format ih =>
    cases directive with
    | blank => exact ih h
    | literal c =>
      obtain ⟨t, rfl, h⟩ := h
      rw [fscanf, if_pos rfl, ih h]
    | char =>
      obtain ⟨b, t, more, rfl, rfl, h⟩ := h
      rw [fscanf, ih h]
    | number k =>
      obtain ⟨m, t, more, hnumber, rfl, h⟩ := h
      rw [fscanf, hnumber]
      show (Field.number m :: (fscanf format t).1, (fscanf format t).2) = _
      rw [ih h]

/-- Where the format ends with a conversion, the number of the fields says whether all of it matched. -/
theorem fscanf_matches {format : List Directive} {last : Directive} (hlast : last.converts = true) {text : Text}
    (h : ((format ++ [last]).filter Directive.converts).length = (fscanf (format ++ [last]) text).1.length) :
    Matches (format ++ [last]) text (fscanf (format ++ [last]) text).1 (fscanf (format ++ [last]) text).2 := by
  have hpos : ∀ format : List Directive, 0 < ((format ++ [last]).filter Directive.converts).length := by
    intro format
    rw [List.filter_append, List.length_append, List.filter_cons_of_pos hlast]
    exact Nat.lt_of_lt_of_le Nat.zero_lt_one (Nat.le_add_left _ _)
  induction format generalizing text with
  | nil =>
    cases last with
    | blank | literal => cases hlast
    | char =>
      cases text with
      | nil => cases h
      | cons b t => exact ⟨b, t, [], rfl, rfl, rfl, rfl⟩
    | number k =>
      rw [List.nil_append, fscanf] at h ⊢
      cases hnumber : number k text with
      | none => rw [hnumber] at h; cases h
      | some read => exact ⟨read.1, read.2, [], hnumber, rfl, rfl, rfl⟩
  | cons directive format ih =>
    rw [List.cons_append] at h ⊢
    cases directive with
    | blank => exact ih h
    | literal c =>
      rw [List.filter_cons_of_neg Bool.false_ne_true] at h
      cases text with
      | nil => exact absurd h (hpos format).ne'
      | cons b t =>
        rw [fscanf] at h ⊢
        by_cases hb : b = c
        · simp only [if_pos hb] at h ⊢
          exact ⟨t, hb ▸ rfl, ih h⟩
        · rw [if_neg hb] at h
          exact absurd h (hpos format).ne'
    | char =>
      rw [List.filter_cons_of_pos rfl, List.length_cons] at h
      cases text with
      | nil => exact absurd h (Nat.succ_ne_zero _)
      | cons b t => exact ⟨b, t, _, rfl, rfl, ih (Nat.succ.inj h)⟩
    | number k =>
      rw [List.filter_cons_of_pos rfl, List.length_cons] at h
      rw [fscanf] at h ⊢
      cases hnumber : number k text with
      | none => rw [hnumber] at h; exact absurd h (Nat.succ_ne_zero _)
      | some read =>
        rw [hnumber] at h
        exact ⟨read.1, read.2, _, hnumber, rfl, ih (Nat.succ.inj h)⟩

theorem Matches.length_le {format : List Directive} {text rest : Text} {fields : List Field} (h : Matches format text fields rest) :
    rest.length ≤ text.length := by
  induction format generalizing text fields with
  | nil => exact h.2 ▸ le_rfl
  | cons directive format ih =>
    cases directive with
    | blank => exact (ih h).trans (length_skip_le text)
    | literal c =>
      obtain ⟨t, rfl, h⟩ := h
      exact (ih h).trans (Nat.le_succ _)
    | char =>
      obtain ⟨b, t, more, rfl, -, h⟩ := h
      exact (ih h).trans (Nat.le_succ _)
    | number k =>
      obtain ⟨m, t, more, hnumber, -, h⟩ := h
      exact (ih h).trans (number_length hnumber)

end Twrp.Base.Fscanf
