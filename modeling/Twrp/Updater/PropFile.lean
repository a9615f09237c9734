import Twrp.Updater.Install

/-! What `file_getprop` reads in a property file.

A property file is told line by line (`PropLine`): a line is blank or a comment, or it has a key and a
value around its first equals sign, or it is malformed. The first line that has the key or is malformed
decides (`Asks`). `FileGetPropFn` finds that line by cutting its buffer with `strtok`, which sees the
file only up to its first NUL and has no token at all for a file of empty lines; the loop then looks at
a line that is not there. -/
namespace Twrp.Updater
open Base Edify

/-! ### Lines -/

/-- A text without the blanks around it. -/
def trim (l : List UInt8) : List UInt8 := ((l.dropWhile isspace).reverse.dropWhile isspace).reverse

/-- What a line of a property file says. -/
inductive PropLine where
  /-- a blank line or a comment -/
  | skip
  | pair (key value : List UInt8)
  | malformed
deriving DecidableEq

def propLine (line : List UInt8) : PropLine :=
  if (line.dropWhile isspace).head?.all (· = 35) then .skip
  else if 61 ∉ line then .malformed
  else .pair (trim (line.takeWhile (· != 61))) (trim ((line.dropWhile (· != 61)).drop 1))

/-- A line that does not decide what a key stands for. -/
def Passes (key line : List UInt8) : Prop := propLine line = .skip ∨ ∃ k v, propLine line = .pair k v ∧ k ≠ key

/-- How a call comes out. -/
inductive PropResult where
  | value (v : List UInt8)
  | abort

/-- What is asked for: the value of the first line with the key; nothing where every line is well formed
and none has it; an abort where a malformed line comes first. -/
inductive Asks (key : List UInt8) : List (List UInt8) → PropResult → Prop where
  | found {front rest : List (List UInt8)} {line v : List UInt8} (hfront : ∀ l ∈ front, Passes key l) (hline : propLine line = .pair key v) :
      Asks key (front ++ line :: rest) (.value v)
  | absent {lines : List (List UInt8)} (hlines : ∀ l ∈ lines, Passes key l) : Asks key lines (.value [])
  | malformed {front rest : List (List UInt8)} {line : List UInt8} (hfront : ∀ l ∈ front, Passes key l) (hline : propLine line = .malformed) :
      Asks key (front ++ line :: rest) .abort

theorem asks_nil {key : List UInt8} {o : PropResult} : Asks key [] o ↔ o = .value [] := by
  constructor
  · intro h
    generalize hnil : ([] : List (List UInt8)) = ls at h
    cases h with
    | found => simp at hnil
    | absent => rfl
    | malformed => simp at hnil
  · rintro rfl
    exact .absent (by simp)

/-- The first line decides, or it passes and the others do. -/
theorem asks_cons {key line : List UInt8} {lines : List (List UInt8)} {o : PropResult} :
    Asks key (line :: lines) o ↔ (propLine line = .malformed ∧ o = .abort) ∨ (∃ v, propLine line = .pair key v ∧ o = .value v) ∨
      (Passes key line ∧ Asks key lines o) := by
  constructor
  · intro h
    generalize hall : line :: lines = ls at h
    cases h with
    | @found front rest line' v hfront hline =>
      cases front with
      | nil =>
        obtain ⟨rfl, rfl⟩ := List.cons.inj hall
        exact .inr (.inl ⟨v, hline, rfl⟩)
      | cons l front =>
        obtain ⟨rfl, rfl⟩ := List.cons.inj hall
        obtain ⟨hl, hfront⟩ := List.forall_mem_cons.mp hfront
        exact .inr (.inr ⟨hl, .found hfront hline⟩)
    | absent hlines =>
      subst hall
      obtain ⟨hl, hlines⟩ := List.forall_mem_cons.mp hlines
      exact .inr (.inr ⟨hl, .absent hlines⟩)
    | @malformed front rest line' hfront hline =>
      cases front with
      | nil =>
        obtain ⟨rfl, rfl⟩ := List.cons.inj hall
        exact .inl ⟨hline, rfl⟩
      | cons l front =>
        obtain ⟨rfl, rfl⟩ := List.cons.inj hall
        obtain ⟨hl, hfront⟩ := List.forall_mem_cons.mp hfront
        exact .inr (.inr ⟨hl, .malformed hfront hline⟩)
  · rintro (⟨hline, rfl⟩ | ⟨v, hline, rfl⟩ | ⟨hpass, h⟩)
    · exact @Asks.malformed _ [] _ _ (by simp) hline
    · exact @Asks.found _ [] _ _ _ (by simp) hline
    · cases h with
      | @found front rest line' v hfront hline => exact @Asks.found _ (line :: front) _ _ _ (List.forall_mem_cons.mpr ⟨hpass, hfront⟩) hline
      | absent hlines => exact .absent (List.forall_mem_cons.mpr ⟨hpass, hlines⟩)
      | @malformed front rest line' hfront hline =>
        exact @Asks.malformed _ (line :: front) _ _ (List.forall_mem_cons.mpr ⟨hpass, hfront⟩) hline

/-! ### The loop -/

/-- Where the first byte is not a blank, it is not cut off. -/
theorem trimEnd_eq {l : List UInt8} (h : ∀ b ∈ l.head?, isspace b = false) : trimEnd l = (l.reverse.dropWhile isspace).reverse := by
  cases l with
  | nil => rfl
  | cons b rest =>
    have hb : isspace b = false := h b rfl
    rw [trimEnd, List.reverse_cons, List.dropWhile_append]
    split
    · rename_i hempty
      rw [List.isEmpty_iff.mp hempty]
      simp [hb]
    · simp

theorem head_dropWhile {p : UInt8 → Bool} {l : List UInt8} : ∀ b ∈ (l.dropWhile p).head?, p b = false := by
  intro b hb
  have := List.head?_dropWhile_not p l
  rw [Option.mem_def.mp hb] at this
  exact this

theorem trim_eq (l : List UInt8) : trim l = trimEnd (l.dropWhile isspace) := (trimEnd_eq head_dropWhile).symm

/-- A blank in front of a line changes nothing. -/
theorem propLine_blank {b : UInt8} (hb : isspace b = true) (line : List UInt8) : propLine (b :: line) = propLine line := by
  have hne : b ≠ 61 := by
    rintro rfl
    exact absurd hb (by decide)
  have htake : (b :: line).takeWhile (· != 61) = b :: line.takeWhile (· != 61) := by simp [hne]
  have hdrop : (b :: line).dropWhile (· != 61) = line.dropWhile (· != 61) := by simp [hne]
  have hmem : 61 ∈ b :: line ↔ 61 ∈ line := by simp [hne.symm]
  unfold propLine
  rw [htake, hdrop, List.dropWhile_cons_of_pos hb, trim_eq (b :: _), List.dropWhile_cons_of_pos hb, ← trim_eq]
  simp only [hmem]

/-- A line without blanks in front, as the loop looks at it. -/
theorem propLine_solid {b : UInt8} (hb : isspace b = false) (line : List UInt8) :
    propLine (b :: line) =
      if b = 35 then .skip
      else if 61 ∉ b :: line then .malformed
      else .pair (trimEnd ((b :: line).takeWhile (· != 61))) (trimEnd ((((b :: line).dropWhile (· != 61)).drop 1).dropWhile isspace)) := by
  have hkey : trim ((b :: line).takeWhile (· != 61)) = trimEnd ((b :: line).takeWhile (· != 61)) := by
    rw [trim_eq, List.dropWhile_eq_self_iff.mpr]
    intro hpos
    by_cases h : b = 61
    · simp [h] at hpos
    · simpa [h] using hb
  unfold propLine
  rw [hkey, trim_eq (List.drop 1 _), List.dropWhile_cons_of_neg (by simp [hb])]
  simp only [List.head?_cons, Option.all_some, decide_eq_true_eq]

/-- How the loop comes out. -/
def outcome : List UInt8 ⊕ Option (List UInt8) → PropResult
  | .inl _ => .abort
  | .inr v => .value (v.getD [])

theorem findProp_cons (key : CString) (line : List UInt8) (rest : List (List UInt8)) :
    outcome (findProp key (line :: rest)) =
      match propLine line with
      | .skip => outcome (findProp key rest)
      | .malformed => .abort
      | .pair k v => if k = key.bytes then .value v else outcome (findProp key rest) := by
  induction line with
  | nil => rfl
  | cons b line ih =>
    by_cases hb : isspace b = true
    · rw [propLine_blank hb, ← ih, findProp, findProp, List.dropWhile_cons_of_pos hb]
    · rw [Bool.not_eq_true] at hb
      rw [propLine_solid hb, findProp, List.dropWhile_cons_of_neg (by simp [hb])]
      by_cases hcomment : b = 35
      · subst hcomment
        rfl
      by_cases hequals : 61 ∉ b :: line
      · simp only [if_neg hcomment, if_pos hequals]
        split
        · contradiction
        · rename_i h
          exact absurd (List.cons.inj h).1 hcomment
        · rw [if_pos hequals]
          rfl
      · simp only [if_neg hcomment, if_neg hequals]
        split
        · contradiction
        · rename_i h
          exact absurd (List.cons.inj h).1 hcomment
        · rw [if_neg hequals]
          split
          · rfl
          · rfl

/-- The loop tells what is asked for. -/
theorem asks_findProp (key : CString) (lines : List (List UInt8)) (o : PropResult) :
    Asks key.bytes lines o ↔ o = outcome (findProp key lines) := by
  induction lines with
  | nil => exact asks_nil
  | cons line rest ih =>
    rw [asks_cons, findProp_cons, Passes, ih]
    cases propLine line with
    | skip => simp
    | malformed => simp
    | pair k v =>
      by_cases hk : k = key.bytes
      · simp [hk]
      · simp [hk]

/-- Empty lines are not asked. -/
theorem asks_filter (key : List UInt8) (lines : List (List UInt8)) (o : PropResult) :
    Asks key (lines.filter (· ≠ [])) o ↔ Asks key lines o := by
  induction lines with
  | nil => exact Iff.rfl
  | cons line rest ih =>
    cases line with
    | nil =>
      rw [List.filter_cons_of_neg (by simp), asks_cons, ih]
      have hskip : propLine [] = .skip := rfl
      simp [hskip, Passes]
    | cons b line => rw [List.filter_cons_of_pos (by simp), asks_cons, asks_cons, ih]

/-! ### The call -/

/-- `MAX_FILE_GETPROP_SIZE` -/
def MAX_FILE_GETPROP_SIZE : Nat := 65536

/-- How the reading of a file comes out that is there and holds `data`. -/
def PropFile.ofFile (data : List UInt8) : PropFile := if MAX_FILE_GETPROP_SIZE < data.length then .tooLarge else .contents data

/-- What a call is given: the name of a file that holds `data`, a key, and the file. -/
def asked (filename key : CString) (data : List UInt8) : List (Sigma (Answer Act.Answer)) :=
  [⟨.string 0, some filename⟩, ⟨.string 1, some key⟩, ⟨.act (.readPropFile filename), PropFile.ofFile data⟩]

/-- The call returns a string, or it sets a message and returns NULL. -/
def Delivers (site : Site) (filename key : CString) (data : List UInt8) : PropResult → Prop
  | .value v => ∃ s : CString, s.bytes = v ∧ (fileGetPropFn site).Runs (asked filename key data) (some (.string s))
  | .abort => ∃ message, (fileGetPropFn site).Runs (asked filename key data ++ [⟨.say (.errmsg message), ()⟩]) none

/-- The file as a C string, and its lines. -/
def fileText (data : List UInt8) : List UInt8 := (CString.ofBytes data).bytes

def fileLines (text : List UInt8) : List (List UInt8) := text.splitOn 10

theorem runs_call {Q : Type} {A : Q → Type} {α : Type} {q : Q} {k : A q → Prog A α} {r : A q} {l : List (Sigma A)} {a : α} :
    (Prog.call q k).Runs (⟨q, r⟩ :: l) a ↔ (k r).Runs l a := by
  constructor
  · intro h
    cases h with
    | call _ h => exact h
  · exact .call r

/-- What is made of the lines. -/
def fileAnswer (site : Site) (filename key : CString) : List (List UInt8) → Step (Option Value)
  | [] => undefined
  | lines =>
    match findProp key lines with
    | .inl line => abortWith [site.name, ": malformed line \"", CString.ofBytes line, "\": ", filename, " not a prop file?"]
    | .inr value => ret (CString.ofBytes (value.getD []))

section Call
variable {site : Site} {filename key : CString} {data : List UInt8}

/-- What the call does once the file is in the buffer. -/
theorem runs_fileGetPropFn (hsize : data.length ≤ MAX_FILE_GETPROP_SIZE) {l : List (Sigma (Answer Act.Answer))} {r : Option Value} :
    (fileGetPropFn site).Runs (asked filename key data ++ l) r ↔ tokens [10] (fileText data) ≠ [] ∧
      match findProp key (tokens [10] (fileText data)) with
      | .inl line =>
        (abortWith [site.name, ": malformed line \"", CString.ofBytes line, "\": ", filename, " not a prop file?"]).Runs l r
      | .inr value => (ret (CString.ofBytes (value.getD [])) : Step (Option Value)).Runs l r := by
  have hfile : PropFile.ofFile data = .contents data := if_neg (by omega)
  unfold asked
  rw [hfile]
  refine (runs_call.trans (runs_call.trans runs_call) : _ ↔ _).trans ?_
  show Prog.Runs (fileAnswer site filename key (tokens [10] (fileText data))) l r ↔ _
  cases tokens [10] (fileText data) with
  | nil =>
    refine iff_of_false ?_ fun h => h.1 rfl
    intro h
    cases h with
    | call r _ => exact r.elim
  | cons token rest =>
    rw [and_iff_right (List.cons_ne_nil token rest)]
    cases hfind : findProp key (token :: rest) <;> simp only [fileAnswer, hfind]

/-- A value is part of its line. -/
theorem value_subset {line k v : List UInt8} (h : propLine line = .pair k v) : v ⊆ line := by
  unfold propLine at h
  split_ifs at h
  obtain ⟨-, rfl⟩ := PropLine.pair.inj h
  intro b hb
  rw [trim, List.mem_reverse] at hb
  have hmem := (List.dropWhile_sublist _).subset (List.mem_reverse.mp ((List.dropWhile_sublist _).subset hb))
  exact (List.dropWhile_sublist _).subset (List.mem_of_mem_drop hmem)

theorem nul_not_mem_value {key v : List UInt8} {lines : List (List UInt8)} (hlines : ∀ l ∈ lines, 0 ∉ l) (h : Asks key lines (.value v)) : 0 ∉ v := by
  generalize ho : PropResult.value v = o at h
  cases h with
  | found _ hline =>
    cases ho
    intro hmem
    exact hlines _ (by simp) (value_subset hline hmem)
  | absent =>
    cases ho
    exact List.not_mem_nil
  | malformed => cases ho

/-- The call comes out as the loop does over the tokens, where there is one. -/
theorem delivers_iff (hsize : data.length ≤ MAX_FILE_GETPROP_SIZE) (o : PropResult) :
    Delivers site filename key data o ↔ tokens [10] (fileText data) ≠ [] ∧ o = outcome (findProp key (tokens [10] (fileText data))) := by
  have hnul : ∀ v, findProp key (tokens [10] (fileText data)) = .inr v → 0 ∉ v.getD [] := by
    intro v hv
    have hasks : Asks key.bytes (tokens [10] (fileText data)) (.value (v.getD [])) := by
      rw [asks_findProp, hv]
      rfl
    refine nul_not_mem_value (fun l hl hmem => ?_) hasks
    exact (CString.ofBytes data).noNul ((of_mem_tokens 10 hl).2.2 hmem)
  cases o with
  | value w =>
    unfold Delivers
    constructor
    · rintro ⟨s, rfl, hrun⟩
      rw [← List.append_nil (asked filename key data), runs_fileGetPropFn hsize] at hrun
      obtain ⟨hne, hrun⟩ := hrun
      refine ⟨hne, ?_⟩
      cases hfind : findProp key (tokens [10] (fileText data)) with
      | inl line =>
        rw [hfind] at hrun
        cases hrun
      | inr value =>
        rw [hfind] at hrun
        cases hrun
        rw [Install.ofBytes_eq (hnul value hfind)]
        rfl
    · intro ⟨hne, ho⟩
      cases hfind : findProp key (tokens [10] (fileText data)) with
      | inl line =>
        rw [hfind] at ho
        cases ho
      | inr value =>
        rw [hfind] at ho
        cases ho
        refine ⟨CString.ofBytes (value.getD []), Install.ofBytes_eq (hnul value hfind), ?_⟩
        rw [← List.append_nil (asked filename key data), runs_fileGetPropFn hsize, hfind]
        exact ⟨hne, .done _⟩
  | abort =>
    unfold Delivers
    constructor
    · rintro ⟨message, hrun⟩
      rw [runs_fileGetPropFn hsize] at hrun
      obtain ⟨hne, hrun⟩ := hrun
      refine ⟨hne, ?_⟩
      cases hfind : findProp key (tokens [10] (fileText data)) with
      | inl line => rfl
      | inr value =>
        rw [hfind] at hrun
        cases hrun
    · intro ⟨hne, ho⟩
      cases hfind : findProp key (tokens [10] (fileText data)) with
      | inl line =>
        have habort : ∀ parts, (abortWith parts).Runs [⟨.say (.errmsg (text parts)), ()⟩] none := by
          intro parts
          exact runs_call.mpr (.done none)
        refine ⟨text [site.name, ": malformed line \"", CString.ofBytes line, "\": ", filename, " not a prop file?"], ?_⟩
        rw [runs_fileGetPropFn hsize, hfind]
        exact ⟨hne, habort _⟩
      | inr value =>
        rw [hfind] at ho
        cases ho

/-- There is a token where the text has a byte that is not a newline. -/
theorem tokens_ne_nil {text : List UInt8} : tokens [10] text ≠ [] ↔ ∃ b ∈ text, b ≠ 10 := by
  have hdrop : text.dropWhile ([10].contains ·) = [] ↔ ¬∃ b ∈ text, b ≠ 10 := by
    rw [List.dropWhile_eq_nil_iff]
    simp
  unfold tokens
  cases hlength : text.length with
  | zero =>
    rw [List.length_eq_zero_iff.mp hlength]
    simp [tokensUpTo]
  | succ n =>
    rw [tokensUpTo, strtok]
    cases h : text.dropWhile ([10].contains ·) with
    | nil =>
      have hnone := hdrop.mp h
      simp only [ne_eq, not_true_eq_false, false_iff]
      exact hnone
    | cons b rest =>
      have hsome : ∃ b ∈ text, b ≠ 10 := by
        by_contra hnone
        rw [hdrop.mpr hnone] at h
        cases h
      exact iff_of_true (List.cons_ne_nil _ _) hsome

/-- The function returns what is asked for exactly where the text before the first NUL has a byte that
is not a newline, and the lines of that text ask for the same as those of the file. -/
theorem fileGetProp_iff (site : Site) (filename key : CString) {data : List UInt8} (hsize : data.length ≤ MAX_FILE_GETPROP_SIZE) :
    (∀ o, Delivers site filename key data o ↔ Asks key.bytes (fileLines data) o) ↔
      (∃ b ∈ fileText data, b ≠ 10) ∧ ∀ o, Asks key.bytes (fileLines (fileText data)) o ↔ Asks key.bytes (fileLines data) o := by
  have hdelivers : ∀ o, Delivers site filename key data o ↔ (∃ b ∈ fileText data, b ≠ 10) ∧ Asks key.bytes (fileLines (fileText data)) o := by
    intro o
    rw [delivers_iff hsize, ← asks_findProp, tokens_ne_nil, tokens_splitOn, asks_filter]
    rfl
  constructor
  · intro h
    have hsome : ∃ b ∈ fileText data, b ≠ 10 := ((hdelivers _).mp ((h _).mpr ((asks_findProp key (fileLines data) _).mpr rfl))).1
    refine ⟨hsome, fun o => ?_⟩
    rw [← h o, hdelivers o, and_iff_right hsome]
  · intro ⟨hsome, hsame⟩ o
    rw [hdelivers o, and_iff_right hsome, hsame o]

/-- Where the file has no NUL, its text is the whole file. -/
theorem fileText_eq (h : 0 ∉ data) : fileText data = data := Install.ofBytes_eq h

/-- A call of `file_getprop` with two arguments. -/
def getpropSite : Site := ⟨"file_getprop", 2, fun _ => []⟩

/-- The key `a` in the file `a = 1`, with a carriage return at the end of the line. -/
theorem fileGetProp_spaced : Delivers getpropSite "f" "a" [97, 32, 61, 32, 49, 13, 10] (.value [49]) ↔
    Asks (CString.ofString "a").bytes (fileLines [97, 32, 61, 32, 49, 13, 10]) (.value [49]) :=
  (fileGetProp_iff getpropSite "f" "a" (by decide)).mpr ⟨⟨97, by decide, by decide⟩, by
    have htext : fileText [97, 32, 61, 32, 49, 13, 10] = [97, 32, 61, 32, 49, 13, 10] := fileText_eq (by decide)
    rw [htext]
    exact fun _ => Iff.rfl⟩ (.value [49])

/-- An empty file asks for the empty string, and the function returns nothing at all. -/
theorem empty_not_delivered : ¬∀ o, Delivers getpropSite "f" "a" [] o ↔ Asks (CString.ofString "a").bytes (fileLines []) o := by
  intro h
  have hasks : Asks (CString.ofString "a").bytes (fileLines []) (.value []) := .absent (by
    intro l hl
    obtain rfl : l = [] := by simpa [fileLines] using hl
    exact .inl rfl)
  have hdelivers := (delivers_iff (by decide) _).mp ((h _).mpr hasks)
  exact hdelivers.1 rfl

end Call

end Twrp.Updater
