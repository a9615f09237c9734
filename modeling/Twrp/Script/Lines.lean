import Twrp.Base.CString
import Twrp.Base.Line

/-! The lines of a script (`OpenRecoveryScript::run_script_file`).

A script is read into a buffer of 512 bytes, and each buffer is taken apart into a command
and a value at its first blank. What a line means is said apart from that (`meant`): the text
before the first blank, and the rest without a blank, an equals sign and another blank in
front. The parser looks for the digit three where the sign is meant, counts the length of the
value before it skips anything in front of it, and takes a long line for several. On which
lines it is right all the same is `Plain`, exactly (`script_lines_iff`). -/
namespace Twrp.Script
open Base

/-! ### The parser -/

structure Command where
  command : List UInt8
  value : List UInt8
  /-- where the first blank was found; `cmd` asks for it -/
  cindex : Nat

/-- `SCRIPT_COMMAND_SIZE` -/
def scriptCommandSize : Nat := 512

/-- `if ((int) *val_start == b) val_start++;` -/
def skipOne (b : UInt8) (text : List UInt8) : List UInt8 := if text.head? = some b then text.drop 1 else text

/-- From where on `val_start` is copied. The comment in the source calls the 51 an equals sign. -/
def valStart (text : List UInt8) : List UInt8 := skipOne 32 (skipOne 51 (skipOne 32 text))

/-- The parser on `script_line`; nothing for a line that is too short to contain a command. -/
def parseLine (buffer : List UInt8) : Option Command :=
  let line := (CString.ofBytes buffer).bytes
  let lineLen := line.length
  if lineLen < 2 then none
  else
    let cindex := (line.findIdx? (· = 32)).getD 0
    let removeNl := if line.getLast? = some 10 then 2 else 1
    if cindex ≠ 0 then
      some ⟨line.take cindex, (valStart (line.drop (cindex + 1))).take (lineLen - cindex - removeNl), cindex⟩
    else some ⟨line.take (lineLen - removeNl + 1), [], 0⟩

/-- The commands that a script is taken for. -/
def commands (script : List UInt8) : List Command := (buffers (scriptCommandSize - 1) script).filterMap parseLine

section Run
variable {σ : Type} (exec : Command → σ → σ × Int)

/-- The loop, over what the commands do and the `ret_val` that they leave. -/
def runLoop : Nat → List UInt8 → σ × Int → σ × Int
  | 0, _, r => r
  | fuel + 1, script, r =>
    if script = [] then r
    else if r.2 ≠ 0 then r
    else
      let (scriptLine, rest) := fgets (scriptCommandSize - 1) script
      match parseLine scriptLine with
      | none => runLoop fuel rest r
      | some c => runLoop fuel rest (exec c r.1)

def runScriptFile (script : List UInt8) (s : σ) : σ × Int := runLoop exec script.length script (s, 0)

/-- Commands in their order, up to the first that fails. -/
def interpret : List Command → σ × Int → σ × Int
  | [], r => r
  | c :: rest, r => if r.2 ≠ 0 then r else interpret rest (exec c r.1)

theorem interpret_failed (cs : List Command) {r : σ × Int} (h : r.2 ≠ 0) : interpret exec cs r = r := by
  cases cs with
  | nil => rfl
  | cons c cs => rw [interpret, if_pos h]

theorem runLoop_interpret (fuel : Nat) (script : List UInt8) (r : σ × Int) :
    runLoop exec fuel script r =
      interpret exec ((buffersUpTo (scriptCommandSize - 1) fuel script).filterMap parseLine) r := by
  induction fuel generalizing script r with
  | zero => rfl
  | succ fuel ih =>
    rw [runLoop, buffersUpTo]
    by_cases hs : script = []
    · rw [if_pos hs, if_pos hs]
      rfl
    · rw [if_neg hs, if_neg hs]
      by_cases hr : r.2 ≠ 0
      · rw [if_pos hr, interpret_failed exec _ hr]
      · rw [if_neg hr, List.filterMap_cons]
        cases hparse : parseLine (fgets (scriptCommandSize - 1) script).1 with
        | none => simp only [hparse, ih]
        | some c => simp only [hparse, ih, interpret, if_neg hr]

/-- The loop does what the commands do. -/
theorem runScriptFile_commands (script : List UInt8) (s : σ) :
    runScriptFile exec script s = interpret exec (commands script) (s, 0) :=
  runLoop_interpret exec script.length script (s, 0)

end Run

/-! ### What a line means -/

/-- The rest of a line without what may stand in front of a value. -/
def strip (rest : List UInt8) : List UInt8 := skipOne 32 (skipOne 61 (skipOne 32 rest))

def wordOf (text : List UInt8) : List UInt8 := text.takeWhile (· ≠ 32)

/-- What follows the first blank. -/
def restOf (text : List UInt8) : List UInt8 := text.drop ((wordOf text).length + 1)

/-- The command and the value of a line, newline apart; a blank line has none. -/
def meant (text : List UInt8) : List (List UInt8 × List UInt8) :=
  if text = [] then [] else [(wordOf text, strip (restOf text))]

def Command.pair (c : Command) : List UInt8 × List UInt8 := (c.command, c.value)

/-- Each line is one command, and as it is meant. -/
structure Interprets (script : List UInt8) : Prop where
  /-- the run is that of its lines, each read by itself -/
  run : ∀ (σ : Type) (exec : Command → σ → σ × Int) (s : σ),
    runScriptFile exec script s = interpret exec ((linesOf script).flatMap fun l => commands l.bytes) (s, 0)
  each : ∀ l ∈ linesOf script, (commands l.bytes).map Command.pair = meant l.text

/-- A value that the parser takes as it is meant, by how much of its line the buffer holds. -/
def PlainValue (l : StreamLine) : Prop :=
  let rest := restOf l.text
  if l.text.length < scriptCommandSize - 1 ∧ l.ended = true then
    -- the newline is in the buffer: nothing is skipped
    rest.head? ≠ some 32 ∧ rest.head? ≠ some 51 ∧ rest.head? ≠ some 61
  else if l.text.length < scriptCommandSize then
    -- it is not, so that a blank may be skipped
    (skipOne 32 rest).head? ≠ some 51 ∧ (skipOne 32 rest).head? ≠ some 61
  else
    -- the one byte too many is the end of a value that is the same without it
    l.text.length = scriptCommandSize ∧ l.ended = false ∧ 32 ∈ l.text ∧
      (skipOne 32 rest = [32] ∨ ∀ b ∈ skipOne 32 rest, b = 61)

/-- The lines that the parser takes as they are meant. -/
structure Plain (l : StreamLine) : Prop where
  noNul : 0 ∉ l.text
  /-- it does not begin with a blank -/
  command : l.text.head? ≠ some 32
  /-- the last line is more than one byte, or has a newline -/
  two : l.ended = false → l.text.length ≠ 1
  value : PlainValue l

/-! ### What is skipped in front of a value -/

section Skip
variable (b : UInt8) (text : List UInt8)

theorem skipOne_self : skipOne b (b :: text) = text := by simp [skipOne]

variable {b text}

theorem skipOne_of_ne (h : text.head? ≠ some b) : skipOne b text = text := by rw [skipOne, if_neg h]

theorem length_skipOne_le : (skipOne b text).length ≤ text.length := by
  unfold skipOne
  split <;> simp

theorem length_skipOne_lt (h : text.head? = some b) : (skipOne b text).length < text.length := by
  cases text with
  | nil => cases h
  | cons c rest =>
    obtain rfl : c = b := by simpa using h
    simp [skipOne_self]

theorem skipOne_subset : skipOne b text ⊆ text := by
  unfold skipOne
  split
  · exact List.drop_subset 1 text
  · exact List.Subset.refl text

theorem mem_skipOne {c : UInt8} (hc : c ∈ text) (hne : c ≠ b) : c ∈ skipOne b text := by
  cases text with
  | nil => cases hc
  | cons d rest =>
    by_cases hd : d = b
    · subst hd
      rw [skipOne_self]
      exact (List.mem_cons.mp hc).resolve_left hne
    · rw [skipOne_of_ne (by simpa using hd)]
      exact hc

/-- A byte that is not skipped may follow. -/
theorem skipOne_append {c : UInt8} (hne : c ≠ b) : skipOne b (text ++ [c]) = skipOne b text ++ [c] := by
  cases text with
  | nil => simp [skipOne, hne]
  | cons d rest => by_cases hd : d = b <;> simp [skipOne, hd]

theorem skipOne_dropLast (h : text ≠ []) : skipOne b text.dropLast = (skipOne b text).dropLast := by
  cases text with
  | nil => exact absurd rfl h
  | cons d rest =>
    cases rest with
    | nil => by_cases hd : d = b <;> simp [skipOne, hd]
    | cons e rest => by_cases hd : d = b <;> simp [skipOne, hd]

end Skip

theorem valStart_subset (text : List UInt8) : valStart text ⊆ text :=
  List.Subset.trans skipOne_subset (List.Subset.trans skipOne_subset skipOne_subset)

theorem strip_subset (text : List UInt8) : strip text ⊆ text :=
  List.Subset.trans skipOne_subset (List.Subset.trans skipOne_subset skipOne_subset)

theorem length_valStart_le (text : List UInt8) : (valStart text).length ≤ text.length :=
  length_skipOne_le.trans (length_skipOne_le.trans length_skipOne_le)

/-- With the newline in the buffer, each byte skipped lets one more in at the end. -/
theorem closedValue_iff {rest : List UInt8} (h10 : 10 ∉ rest) :
    (valStart (rest ++ [10])).take rest.length = strip rest ↔
      rest.head? ≠ some 32 ∧ rest.head? ≠ some 51 ∧ rest.head? ≠ some 61 := by
  have hshift : valStart (rest ++ [10]) = valStart rest ++ [10] := by
    simp only [valStart, skipOne_append (by decide : (10 : UInt8) ≠ 32), skipOne_append (by decide : (10 : UInt8) ≠ 51)]
  have hfree : 10 ∉ strip rest := fun h => h10 (strip_subset rest h)
  -- a skipped byte brings the newline into the value
  have hskipped : (valStart rest).length < rest.length → (valStart (rest ++ [10])).take rest.length ≠ strip rest := by
    intro hlt heq
    apply hfree
    rw [← heq, hshift, List.take_of_length_le (by rw [List.length_append, List.length_singleton]; omega)]
    exact List.mem_append_right _ (List.mem_singleton_self 10)
  by_cases h32 : rest.head? = some 32
  · have hlt : (valStart rest).length < rest.length :=
      lt_of_le_of_lt (length_skipOne_le.trans length_skipOne_le) (length_skipOne_lt h32)
    simp [hskipped hlt, h32]
  · by_cases h51 : rest.head? = some 51
    · have hlt : (valStart rest).length < rest.length := by
        rw [valStart, skipOne_of_ne h32]
        exact lt_of_le_of_lt length_skipOne_le (length_skipOne_lt h51)
      simp [hskipped hlt, h51]
    · have hplain : valStart rest = rest := by rw [valStart, skipOne_of_ne h32, skipOne_of_ne h51, skipOne_of_ne h32]
      rw [hshift, hplain, List.take_left]
      by_cases h61 : rest.head? = some 61
      · have hlt : (strip rest).length < rest.length := by
          rw [strip, skipOne_of_ne h32]
          exact lt_of_le_of_lt length_skipOne_le (length_skipOne_lt h61)
        have hne : rest ≠ strip rest := fun h => absurd hlt (by rw [← h]; exact lt_irrefl _)
        simp [hne, h61]
      · rw [strip, skipOne_of_ne h32, skipOne_of_ne h61, skipOne_of_ne h32]
        simp [h32, h51, h61]

/-- Without it, only the digit and the sign tell. -/
theorem openValue_iff (rest : List UInt8) :
    valStart rest = strip rest ↔ (skipOne 32 rest).head? ≠ some 51 ∧ (skipOne 32 rest).head? ≠ some 61 := by
  unfold valStart strip
  generalize skipOne 32 rest = text
  by_cases h51 : text.head? = some 51
  · have h32 : text.head? ≠ some 32 := by simp [h51]
    have h61 : text.head? ≠ some 61 := by simp [h51]
    have hlt := lt_of_le_of_lt (length_skipOne_le (b := 32)) (length_skipOne_lt h51)
    have hne : skipOne 32 (skipOne 51 text) ≠ text := fun h => absurd hlt (by rw [h]; exact lt_irrefl _)
    rw [skipOne_of_ne h61, skipOne_of_ne h32]
    simp [hne, h51]
  · by_cases h61 : text.head? = some 61
    · have h32 : text.head? ≠ some 32 := by simp [h61]
      have hlt := lt_of_le_of_lt (length_skipOne_le (b := 32)) (length_skipOne_lt h61)
      have hne : text ≠ skipOne 32 (skipOne 61 text) := fun h => absurd hlt (by rw [← h]; exact lt_irrefl _)
      rw [skipOne_of_ne h51, skipOne_of_ne h32]
      simp [hne, h61]
    · rw [skipOne_of_ne h51, skipOne_of_ne h61]
      simp [h51, h61]

theorem cons_dropLast_eq {b : UInt8} {text : List UInt8} (h : text ≠ []) : b :: text.dropLast = text ↔ ∀ c ∈ text, c = b := by
  induction text with
  | nil => exact absurd rfl h
  | cons d rest ih =>
    cases rest with
    | nil => simp [eq_comm]
    | cons e rest =>
      have ih := ih (List.cons_ne_nil e rest)
      rw [List.dropLast_cons_cons, List.cons.injEq, List.forall_mem_cons]
      constructor
      · intro ⟨hd, hrest⟩
        subst hd
        exact ⟨rfl, ih.mp hrest⟩
      · intro ⟨hd, hrest⟩
        subst hd
        exact ⟨rfl, ih.mpr hrest⟩

/-- With its last byte cut off as well, the value is right where that byte is lost anyway. -/
theorem cutValue_iff {rest : List UInt8} (h : rest ≠ []) :
    valStart rest.dropLast = strip rest ↔ skipOne 32 rest = [32] ∨ ∀ b ∈ skipOne 32 rest, b = 61 := by
  rw [valStart, strip, skipOne_dropLast h]
  generalize skipOne 32 rest = text
  cases text with
  | nil => simp [skipOne]
  | cons x t =>
    by_cases ht : t = []
    · subst ht
      by_cases h61 : x = 61
      · subst h61
        simp [skipOne]
      · by_cases h32 : x = 32
        · subst h32
          simp [skipOne]
        · simp [skipOne, h61, h32]
    · have hlast : (x :: t).dropLast = x :: t.dropLast := List.dropLast_cons_of_ne_nil ht
      have hpos := List.length_pos_of_ne_nil ht
      have hlt : t.dropLast.length < t.length := by rw [List.length_dropLast]; omega
      rw [hlast]
      by_cases h61 : x = 61
      · subst h61
        rw [skipOne_self, skipOne_of_ne (by simp : (61 :: t.dropLast).head? ≠ some 51),
          skipOne_of_ne (by simp : (61 :: t.dropLast).head? ≠ some 32)]
        by_cases hblank : t.head? = some 32
        · have hshort := length_skipOne_lt hblank
          have hne : 61 :: t.dropLast ≠ skipOne 32 t := by
            intro heq
            have := congrArg List.length heq
            rw [List.length_cons, List.length_dropLast] at this
            omega
          have hmem : (32 : UInt8) ∈ t := List.mem_of_mem_head? (by rw [hblank]; exact rfl)
          constructor
          · intro heq
            exact absurd heq hne
          · intro hall
            obtain hone | hall := hall
            · cases hone
            · exact absurd (hall 32 (List.mem_cons_of_mem 61 hmem)) (by decide)
        · rw [skipOne_of_ne hblank, cons_dropLast_eq ht]
          simp
      · have hside : ¬(x :: t = [32] ∨ ∀ b ∈ x :: t, b = 61) := by
          simp [ht, h61]
        rw [skipOne_of_ne (by simpa using h61 : (x :: t).head? ≠ some 61)]
        constructor
        · intro heq
          exfalso
          by_cases h32 : x = 32
          · subst h32
            rw [skipOne_self, skipOne_of_ne (by simp : (32 :: t.dropLast).head? ≠ some 51), skipOne_self] at heq
            rw [heq] at hlt
            exact lt_irrefl _ hlt
          · rw [skipOne_of_ne (by simpa using h32 : (x :: t).head? ≠ some 32)] at heq
            have hle : (skipOne 32 (skipOne 51 (x :: t.dropLast))).length ≤ (x :: t.dropLast).length :=
              length_skipOne_le.trans length_skipOne_le
            rw [heq, List.length_cons, List.length_cons] at hle
            omega
        · intro hall
          exact absurd hall hside

/-! ### One buffer -/

section Buffer
variable {text buffer : List UInt8}

theorem ofBytes_bytes (h : 0 ∉ buffer) : (CString.ofBytes buffer).bytes = buffer := by
  apply List.takeWhile_eq_self_iff.mpr
  intro b hb
  simp only [bne_iff_ne, ne_eq]
  intro heq
  exact h (heq ▸ hb)

theorem parseLine_short (h : buffer.length < 2) : parseLine buffer = none := by
  have hle : (CString.ofBytes buffer).bytes.length ≤ buffer.length := CString.bytes_ofBytes_length_le buffer
  rw [parseLine]
  exact if_pos (by omega)

theorem parseLine_some (h0 : 0 ∉ buffer) (hlen : 2 ≤ buffer.length) : ∃ c, parseLine buffer = some c := by
  rw [parseLine, ofBytes_bytes h0]
  simp only [if_neg (Nat.not_lt.mpr hlen)]
  split <;> exact ⟨_, rfl⟩

/-- No NUL gets through. -/
theorem parseLine_noNul {c : Command} (h : parseLine buffer = some c) : 0 ∉ c.command ∧ 0 ∉ c.value := by
  have hfree := (CString.ofBytes buffer).noNul
  unfold parseLine at h
  generalize (CString.ofBytes buffer).bytes = line at h hfree
  simp only at h
  split at h
  · cases h
  · split at h
    · obtain rfl := Option.some.inj h
      constructor
      · intro hmem
        exact hfree (List.mem_of_mem_take hmem)
      · intro hmem
        exact hfree (List.mem_of_mem_drop (valStart_subset _ (List.mem_of_mem_take hmem)))
    · obtain rfl := Option.some.inj h
      constructor
      · intro hmem
        exact hfree (List.mem_of_mem_take hmem)
      · exact List.not_mem_nil

theorem findIdx_blank {word : List UInt8} (hword : 32 ∉ word) (rest : List UInt8) :
    (word ++ 32 :: rest).findIdx? (· = 32) = some word.length := by
  induction word with
  | nil => simp [List.findIdx?_cons]
  | cons b word ih =>
    have hb : b ≠ 32 := fun h => hword (h ▸ List.mem_cons_self)
    simp [List.findIdx?_cons, hb, ih (List.not_mem_of_not_mem_cons hword)]

/-- Without a blank, or with one in front, the whole line is the command. -/
theorem parseLine_whole (h0 : 0 ∉ buffer) (hlen : 2 ≤ buffer.length) (h : 32 ∉ buffer ∨ buffer.head? = some 32) :
    parseLine buffer =
      some ⟨buffer.take (buffer.length - (if buffer.getLast? = some 10 then 2 else 1) + 1), [], 0⟩ := by
  have hindex : (buffer.findIdx? (· = 32)).getD 0 = 0 := by
    obtain hfree | hfront := h
    · have hnone : buffer.findIdx? (· = 32) = none := by
        rw [List.findIdx?_eq_none_iff]
        intro b hb
        simpa using fun heq : b = 32 => hfree (heq ▸ hb)
      rw [hnone]
      rfl
    · cases buffer with
      | nil => cases hfront
      | cons b rest =>
        obtain rfl : b = 32 := by simpa using hfront
        simp [List.findIdx?_cons]
  rw [parseLine, ofBytes_bytes h0]
  simp only [if_neg (Nat.not_lt.mpr hlen), hindex, ne_eq, not_true_eq_false, if_false]

theorem parseLine_value {word rest : List UInt8} (h0 : 0 ∉ word ++ 32 :: rest) (hword : 32 ∉ word) (hne : word ≠ []) :
    parseLine (word ++ 32 :: rest) = some ⟨word,
      (valStart rest).take (rest.length + 1 - if (word ++ 32 :: rest).getLast? = some 10 then 2 else 1), word.length⟩ := by
  have hpos := List.length_pos_of_ne_nil hne
  have hlen : 2 ≤ (word ++ 32 :: rest).length := by
    rw [List.length_append, List.length_cons]
    omega
  have hdrop : (word ++ 32 :: rest).drop (word.length + 1) = rest := by
    rw [List.drop_length_add_append]
    rfl
  have hleft : (word ++ 32 :: rest).length - word.length = rest.length + 1 := by
    rw [List.length_append, List.length_cons]
    omega
  rw [parseLine, ofBytes_bytes h0]
  simp only [if_neg (Nat.not_lt.mpr hlen), findIdx_blank hword, Option.getD_some, ne_eq, Nat.ne_of_gt hpos,
    not_false_eq_true, if_true, hdrop, hleft, List.take_left]

theorem getLast_newline (text : List UInt8) : (text ++ [10]).getLast? = some 10 := by simp

theorem getLast_open (h10 : 10 ∉ text) : text.getLast? ≠ some 10 := fun h => h10 (List.mem_of_getLast? h)

end Buffer

/-! ### One line -/

/-- A line is one word, or a word, a blank and a rest. -/
theorem line_cases (text : List UInt8) :
    32 ∉ text ∧ wordOf text = text ∧ restOf text = [] ∨
      ∃ word rest, text = word ++ 32 :: rest ∧ 32 ∉ word ∧ wordOf text = word ∧ restOf text = rest := by
  have hfree {word : List UInt8} (hword : 32 ∉ word) : ∀ b ∈ word, decide (b ≠ 32) = true := by
    intro b hb
    exact decide_eq_true fun heq => hword (heq ▸ hb)
  by_cases hmem : 32 ∈ text
  · obtain ⟨word, rest, rfl, hword⟩ := List.eq_append_cons_of_mem hmem
    have hwordOf : wordOf (word ++ 32 :: rest) = word := by
      rw [wordOf, List.takeWhile_append_of_pos (hfree hword)]
      simp
    right
    refine ⟨word, rest, rfl, hword, hwordOf, ?_⟩
    rw [restOf, hwordOf, List.drop_length_add_append]
    rfl
  · have hwordOf : wordOf text = text := List.takeWhile_eq_self_iff.mpr (hfree hmem)
    left
    refine ⟨hmem, hwordOf, ?_⟩
    rw [restOf, hwordOf]
    exact List.drop_eq_nil_of_le (Nat.le_succ _)

theorem meant_of_ne {text : List UInt8} (h : text ≠ []) : meant text = [(wordOf text, strip (restOf text))] := if_neg h

/-- What is meant keeps a NUL. -/
theorem meant_nul {text : List UInt8} (h : 0 ∈ text) : ∃ p ∈ meant text, 0 ∈ p.1 ∨ 0 ∈ p.2 := by
  rw [meant_of_ne (List.ne_nil_of_mem h)]
  refine ⟨_, List.mem_singleton_self _, ?_⟩
  obtain ⟨-, hword, -⟩ | ⟨word, rest, rfl, -, hword, hrest⟩ := line_cases text
  · left
    rwa [hword]
  · obtain h | h := List.mem_append.mp h
    · left
      rwa [hword]
    · right
      rw [hrest]
      have hmem : 0 ∈ rest := (List.mem_cons.mp h).resolve_left (by decide)
      exact mem_skipOne (mem_skipOne (mem_skipOne hmem (by decide)) (by decide)) (by decide)

theorem commands_noNul {bytes : List UInt8} {c : Command} (h : c ∈ commands bytes) : 0 ∉ c.command ∧ 0 ∉ c.value := by
  obtain ⟨buffer, -, hparse⟩ := List.mem_filterMap.mp h
  exact parseLine_noNul hparse

/-- With its newline in the buffer. -/
theorem parse_closed {text : List UInt8} (h0 : 0 ∉ text) (h10 : 10 ∉ text) (hne : text ≠ []) :
    (parseLine (text ++ [10])).map Command.pair = some (wordOf text, strip (restOf text)) ↔
      text.head? ≠ some 32 ∧ (restOf text).head? ≠ some 32 ∧ (restOf text).head? ≠ some 51 ∧
        (restOf text).head? ≠ some 61 := by
  have hfree : 0 ∉ text ++ [10] := by simpa using h0
  have hpos := List.length_pos_of_ne_nil hne
  have hlen : 2 ≤ (text ++ [10]).length := by
    rw [List.length_append, List.length_singleton]
    omega
  have hwhole (h : 32 ∉ text ++ [10] ∨ (text ++ [10]).head? = some 32) : parseLine (text ++ [10]) = some ⟨text, [], 0⟩ := by
    have hcount : (text ++ [10]).length - 2 + 1 = text.length := by
      rw [List.length_append, List.length_singleton]
      omega
    rw [parseLine_whole hfree hlen h, if_pos (getLast_newline text), hcount, List.take_left]
  obtain ⟨hblank, hword, hrest⟩ | ⟨word, rest, rfl, hblank, hword, hrest⟩ := line_cases text
  · have hhead : text.head? ≠ some 32 := fun h => hblank (List.mem_of_mem_head? h)
    rw [hwhole (Or.inl (by simpa using hblank)), hword, hrest]
    simp [Command.pair, strip, skipOne, hhead]
  · rw [hword, hrest]
    by_cases hnil : word = []
    · subst hnil
      rw [hwhole (Or.inr rfl)]
      simp [Command.pair]
    · have hhead : (word ++ 32 :: rest).head? ≠ some 32 := by
        intro h
        rw [List.head?_append_of_ne_nil _ hnil] at h
        exact hblank (List.mem_of_mem_head? h)
      have h10r : 10 ∉ rest := fun h => h10 (List.mem_append_right _ (List.mem_cons_of_mem 32 h))
      have hlast := getLast_newline (word ++ 32 :: rest)
      rw [List.append_assoc, List.cons_append] at hlast hfree ⊢
      have hcount : (rest ++ [10]).length + 1 - 2 = rest.length := by
        rw [List.length_append, List.length_singleton]
        omega
      rw [parseLine_value hfree hblank hnil, if_pos hlast, hcount]
      simp only [Option.map_some, Command.pair, Option.some.injEq, Prod.mk.injEq, true_and, closedValue_iff h10r, ne_eq,
        hhead, not_false_eq_true]

/-- Without it. -/
theorem parse_open {text : List UInt8} (h0 : 0 ∉ text) (h10 : 10 ∉ text) (hlen : 2 ≤ text.length) :
    (parseLine text).map Command.pair = some (wordOf text, strip (restOf text)) ↔
      text.head? ≠ some 32 ∧ (skipOne 32 (restOf text)).head? ≠ some 51 ∧ (skipOne 32 (restOf text)).head? ≠ some 61 := by
  have hwhole (h : 32 ∉ text ∨ text.head? = some 32) : parseLine text = some ⟨text, [], 0⟩ := by
    have hcount : text.length - 1 + 1 = text.length := by omega
    rw [parseLine_whole h0 hlen h, if_neg (getLast_open h10), hcount, List.take_length]
  obtain ⟨hblank, hword, hrest⟩ | ⟨word, rest, rfl, hblank, hword, hrest⟩ := line_cases text
  · have hhead : text.head? ≠ some 32 := fun h => hblank (List.mem_of_mem_head? h)
    rw [hwhole (Or.inl hblank), hword, hrest]
    simp [Command.pair, strip, skipOne, hhead]
  · rw [hword, hrest]
    by_cases hnil : word = []
    · subst hnil
      rw [hwhole (Or.inr rfl)]
      simp [Command.pair]
    · have hhead : (word ++ 32 :: rest).head? ≠ some 32 := by
        intro h
        rw [List.head?_append_of_ne_nil _ hnil] at h
        exact hblank (List.mem_of_mem_head? h)
      rw [parseLine_value h0 hblank hnil, if_neg (getLast_open h10), Nat.add_sub_cancel,
        List.take_of_length_le (length_valStart_le rest)]
      simp only [Option.map_some, Command.pair, Option.some.injEq, Prod.mk.injEq, true_and, openValue_iff, ne_eq, hhead,
        not_false_eq_true]

/-- With its last byte in the next buffer. -/
theorem parse_cut {text : List UInt8} (h0 : 0 ∉ text) (h10 : 10 ∉ text) (hlen : 2 < text.length) :
    (parseLine text.dropLast).map Command.pair = some (wordOf text, strip (restOf text)) ↔
      text.head? ≠ some 32 ∧ 32 ∈ text ∧
        (skipOne 32 (restOf text) = [32] ∨ ∀ b ∈ skipOne 32 (restOf text), b = 61) := by
  have h0' : 0 ∉ text.dropLast := fun h => h0 (List.mem_of_mem_dropLast h)
  have h10' : 10 ∉ text.dropLast := fun h => h10 (List.mem_of_mem_dropLast h)
  have hlen' : 2 ≤ text.dropLast.length := by
    rw [List.length_dropLast]
    omega
  have hwhole (h : 32 ∉ text.dropLast ∨ text.dropLast.head? = some 32) :
      parseLine text.dropLast = some ⟨text.dropLast, [], 0⟩ := by
    have hcount : text.dropLast.length - 1 + 1 = text.dropLast.length := by omega
    rw [parseLine_whole h0' hlen' h, if_neg (getLast_open h10'), hcount, List.take_length]
  obtain ⟨hblank, hword, hrest⟩ | ⟨word, rest, rfl, hblank, hword, hrest⟩ := line_cases text
  · have hne : text.dropLast ≠ text := by
      intro h
      have hcount := congrArg List.length h
      rw [List.length_dropLast] at hcount
      omega
    rw [hwhole (Or.inl fun h => hblank (List.mem_of_mem_dropLast h)), hword]
    simp [Command.pair, hblank, hne]
  · rw [hword, hrest]
    by_cases hnil : word = []
    · subst hnil
      have hrest : rest ≠ [] := by
        intro h
        rw [h] at hlen
        simp at hlen
      rw [hwhole (Or.inr (by simp [List.dropLast_cons_of_ne_nil hrest]))]
      simp [Command.pair, List.dropLast_cons_of_ne_nil hrest]
    · have hhead : (word ++ 32 :: rest).head? ≠ some 32 := by
        intro h
        rw [List.head?_append_of_ne_nil _ hnil] at h
        exact hblank (List.mem_of_mem_head? h)
      by_cases hend : rest = []
      · -- the blank is what is cut off
        subst hend
        rw [List.dropLast_concat] at hwhole ⊢
        rw [hwhole (Or.inl hblank)]
        have hmem : 32 ∈ word ++ [32] := List.mem_append_right _ (List.mem_singleton_self 32)
        exact iff_of_true rfl ⟨hhead, hmem, Or.inr (by simp [skipOne])⟩
      · have hcut : (word ++ 32 :: rest).dropLast = word ++ 32 :: rest.dropLast := by
          rw [List.dropLast_append_of_ne_nil (List.cons_ne_nil 32 rest), List.dropLast_cons_of_ne_nil hend]
        rw [hcut] at h0' h10' ⊢
        rw [parseLine_value h0' hblank hnil, if_neg (getLast_open h10'), Nat.add_sub_cancel,
          List.take_of_length_le (length_valStart_le rest.dropLast)]
        simp only [Option.map_some, Command.pair, Option.some.injEq, Prod.mk.injEq, true_and, cutValue_iff hend, ne_eq,
          hhead, not_false_eq_true, List.mem_append, List.mem_cons, true_or, or_true]

theorem commands_nil : commands [] = [] := rfl

/-- Two bytes or more are a command at least. -/
theorem commands_ne_nil {l : StreamLine} (h0 : 0 ∉ l.text) (h10 : 10 ∉ l.text) (hlen : 2 ≤ l.bytes.length) :
    commands l.bytes ≠ [] := by
  have h0b : 0 ∉ l.bytes := by
    unfold StreamLine.bytes
    split <;> simp [h0]
  have hfirst : ∃ buffer rest, buffers (scriptCommandSize - 1) l.bytes = buffer :: rest ∧ 0 ∉ buffer ∧ 2 ≤ buffer.length := by
    have hpos : 0 < scriptCommandSize - 1 := by decide
    by_cases hlong : scriptCommandSize - 1 ≤ l.text.length
    · have hsplit : l.bytes = l.text.take (scriptCommandSize - 1) ++
          (l.text.drop (scriptCommandSize - 1) ++ if l.ended then [10] else []) := by
        rw [← List.append_assoc, List.take_append_drop]
        rfl
      have htake : (l.text.take (scriptCommandSize - 1)).length = scriptCommandSize - 1 := by
        rw [List.length_take]
        omega
      rw [hsplit, buffers_cut hpos (fun h => h10 (List.mem_of_mem_take h)) htake]
      exact ⟨_, _, rfl, fun h => h0 (List.mem_of_mem_take h), by rw [htake]; decide⟩
    · unfold StreamLine.bytes at hlen h0b ⊢
      cases hend : l.ended with
      | true =>
        simp only [hend, if_true] at hlen h0b ⊢
        exact ⟨_, _, buffers_fits hpos h10 (by omega), h0b, hlen⟩
      | false =>
        simp only [hend, Bool.false_eq_true, if_false, List.append_nil] at hlen h0b ⊢
        exact ⟨_, _, buffers_last hpos h10 (List.ne_nil_of_length_pos (by omega)) (by omega), h0b, hlen⟩
  obtain ⟨buffer, rest, hbuffers, hfree, htwo⟩ := hfirst
  obtain ⟨c, hc⟩ := parseLine_some hfree htwo
  rw [commands, hbuffers, List.filterMap_cons, hc]
  exact List.cons_ne_nil _ _

/-- Where one buffer of a line is a command, it decides. -/
theorem single_iff {bytes text buffer : List UInt8} (hne : text ≠ []) (h0 : 0 ∉ buffer) (hlen : 2 ≤ buffer.length)
    {short : List (List UInt8)} (hbuffers : buffers (scriptCommandSize - 1) bytes = buffer :: short)
    (hshort : ∀ b ∈ short, b.length < 2) :
    (commands bytes).map Command.pair = meant text ↔
      (parseLine buffer).map Command.pair = some (wordOf text, strip (restOf text)) := by
  obtain ⟨c, hc⟩ := parseLine_some h0 hlen
  have hnone : short.filterMap parseLine = [] := by
    rw [List.filterMap_eq_nil_iff]
    intro b hb
    exact parseLine_short (hshort b hb)
  rw [commands, hbuffers, List.filterMap_cons, hc, hnone, meant_of_ne hne]
  simp

section Line
variable {l : StreamLine} (h0 : 0 ∉ l.text) (h10 : 10 ∉ l.text) (hnil : l.text ≠ [])

theorem bytes_ended (h : l.ended = true) : l.bytes = l.text ++ [10] := by simp [StreamLine.bytes, h]

theorem bytes_open (h : l.ended = false) : l.bytes = l.text := by simp [StreamLine.bytes, h]

/-- A blank line is no command. -/
theorem line_blank (hblank : l.text = []) (hended : l.ended = true) :
    (commands l.bytes).map Command.pair = meant l.text ↔ Plain l := by
  have hvalue : PlainValue l := by simp [PlainValue, hblank, hended, restOf, wordOf, scriptCommandSize]
  rw [bytes_ended hended, hblank]
  apply iff_of_true rfl
  exact ⟨by simp [hblank], by simp [hblank], fun h => Bool.noConfusion (hended.symm.trans h), hvalue⟩

/-- A NUL is lost. -/
theorem line_nul (hnul : 0 ∈ l.text) : (commands l.bytes).map Command.pair = meant l.text ↔ Plain l := by
  constructor
  · intro heq
    obtain ⟨p, hp, hkept⟩ := meant_nul hnul
    rw [← heq] at hp
    obtain ⟨c, hc, rfl⟩ := List.mem_map.mp hp
    exact absurd hkept (not_or.mpr (commands_noNul hc))
  · intro hplain
    exact absurd hnul hplain.noNul

include hnil h10

/-- One byte without a newline is too short. -/
theorem line_lone (hended : l.ended = false) (hone : l.text.length = 1) :
    (commands l.bytes).map Command.pair = meant l.text ↔ Plain l := by
  have hnone : commands l.bytes = [] := by
    rw [bytes_open hended, commands, buffers_last (by decide) h10 hnil (by rw [hone]; decide), List.filterMap_cons,
      parseLine_short (by omega)]
    rfl
  rw [hnone, meant_of_ne hnil]
  constructor
  · intro heq
    cases heq
  · intro hplain
    exact absurd hone (hplain.two hended)

include h0

/-- A line with its newline in the buffer. -/
theorem line_closed (hfits : l.text.length < scriptCommandSize - 1 ∧ l.ended = true) :
    (commands l.bytes).map Command.pair = meant l.text ↔ Plain l := by
  have h0b : 0 ∉ l.text ++ [10] := by simpa using h0
  have hpos := List.length_pos_of_ne_nil hnil
  have htwo : 2 ≤ (l.text ++ [10]).length := by
    rw [List.length_append, List.length_singleton]
    omega
  rw [bytes_ended hfits.2, single_iff hnil h0b htwo (buffers_fits (by decide) h10 hfits.1)
    (fun b hb => absurd hb List.not_mem_nil), parse_closed h0 h10 hnil]
  constructor
  · intro ⟨hcommand, hvalue⟩
    exact ⟨h0, hcommand, fun h => Bool.noConfusion (hfits.2.symm.trans h), by rwa [PlainValue, if_pos hfits]⟩
  · intro hplain
    have hvalue := hplain.value
    rw [PlainValue, if_pos hfits] at hvalue
    exact ⟨hplain.command, hvalue⟩

/-- A line that fits without its newline, or has none: the newline is a buffer of its own. -/
theorem line_open (hfits : ¬(l.text.length < scriptCommandSize - 1 ∧ l.ended = true))
    (hopen : l.text.length < scriptCommandSize) (htwo : 2 ≤ l.text.length) :
    (commands l.bytes).map Command.pair = meant l.text ↔ Plain l := by
  have hpos : 0 < scriptCommandSize - 1 := by decide
  obtain ⟨short, hbuffers, hshort⟩ : ∃ short, buffers (scriptCommandSize - 1) l.bytes = l.text :: short ∧
      ∀ b ∈ short, b.length < 2 := by
    cases hended : l.ended with
    | false =>
      rw [bytes_open hended]
      exact ⟨[], buffers_last hpos h10 hnil (by omega), fun b hb => absurd hb List.not_mem_nil⟩
    | true =>
      have hfull : l.text.length = scriptCommandSize - 1 := by
        by_contra hne
        exact hfits ⟨by omega, hended⟩
      rw [bytes_ended hended, buffers_cut hpos h10 hfull]
      refine ⟨[[10]], rfl, ?_⟩
      intro b hb
      rw [List.mem_singleton.mp hb]
      decide
  rw [single_iff hnil h0 htwo hbuffers hshort, parse_open h0 h10 htwo]
  constructor
  · intro ⟨hcommand, hvalue⟩
    exact ⟨h0, hcommand, fun _ => by omega, by rwa [PlainValue, if_neg hfits, if_pos hopen]⟩
  · intro hplain
    have hvalue := hplain.value
    rw [PlainValue, if_neg hfits, if_pos hopen] at hvalue
    exact ⟨hplain.command, hvalue⟩

/-- Of a longer line there is a second command, but where one byte is left. -/
theorem line_long (hlong : ¬l.text.length < scriptCommandSize) :
    (commands l.bytes).map Command.pair = meant l.text ↔ Plain l := by
  have hsize : scriptCommandSize = 512 := rfl
  have hfits : ¬(l.text.length < scriptCommandSize - 1 ∧ l.ended = true) := by
    intro h
    omega
  have hfull : (l.text.take (scriptCommandSize - 1)).length = scriptCommandSize - 1 := by
    rw [List.length_take]
    omega
  have h0front : 0 ∉ l.text.take (scriptCommandSize - 1) := fun h => h0 (List.mem_of_mem_take h)
  have hsplit : l.bytes = l.text.take (scriptCommandSize - 1) ++
      StreamLine.bytes ⟨l.text.drop (scriptCommandSize - 1), l.ended⟩ := by
    unfold StreamLine.bytes
    rw [← List.append_assoc, List.take_append_drop]
  have hbuffers : buffers (scriptCommandSize - 1) l.bytes = l.text.take (scriptCommandSize - 1) ::
      buffers (scriptCommandSize - 1) (StreamLine.bytes ⟨l.text.drop (scriptCommandSize - 1), l.ended⟩) := by
    conv_lhs => rw [hsplit]
    exact buffers_cut (by decide) (fun h => h10 (List.mem_of_mem_take h)) hfull _
  by_cases hodd : l.text.length = scriptCommandSize ∧ l.ended = false
  · obtain ⟨b, hb⟩ : ∃ b, StreamLine.bytes ⟨l.text.drop (scriptCommandSize - 1), l.ended⟩ = [b] := by
      apply List.length_eq_one_iff.mp
      simp [StreamLine.bytes, hodd.1, hodd.2, hsize]
    have hone : buffers (scriptCommandSize - 1) [b] = [[b]] := by
      by_cases h : b = 10
      · subst h
        rfl
      · have hshort : [b].length ≤ scriptCommandSize - 1 := by rw [List.length_singleton, scriptCommandSize]; omega
        exact buffers_last (by decide) (by simpa using Ne.symm h) (List.cons_ne_nil b []) hshort
    have hshort : ∀ c ∈ [[b]], c.length < 2 := by simp
    have hdropLast : l.text.take (scriptCommandSize - 1) = l.text.dropLast := by
      rw [List.dropLast_eq_take, hodd.1]
    rw [hb, hone] at hbuffers
    rw [single_iff hnil h0front (by omega) hbuffers hshort, hdropLast, parse_cut h0 h10 (by omega)]
    constructor
    · rintro ⟨hcommand, hblank, hvalue⟩
      exact ⟨h0, hcommand, fun _ => by omega,
        by rw [PlainValue, if_neg hfits, if_neg hlong]; exact ⟨hodd.1, hodd.2, hblank, hvalue⟩⟩
    · intro hplain
      have hvalue := hplain.value
      rw [PlainValue, if_neg hfits, if_neg hlong] at hvalue
      exact ⟨hplain.command, hvalue.2.2⟩
  · have hleft : commands (StreamLine.bytes ⟨l.text.drop (scriptCommandSize - 1), l.ended⟩) ≠ [] := by
      apply commands_ne_nil
      · exact fun h => h0 (List.mem_of_mem_drop h)
      · exact fun h => h10 (List.mem_of_mem_drop h)
      · have hdrop : (l.text.drop (scriptCommandSize - 1)).length = l.text.length - (scriptCommandSize - 1) :=
          List.length_drop
        cases hended : l.ended with
        | true =>
          simp [StreamLine.bytes, hdrop]
          omega
        | false =>
          have hmore : l.text.length ≠ scriptCommandSize := fun h => hodd ⟨h, hended⟩
          simp [StreamLine.bytes, hdrop]
          omega
    obtain ⟨c, hc⟩ := parseLine_some h0front (by omega : 2 ≤ (l.text.take (scriptCommandSize - 1)).length)
    obtain ⟨d, rest, hrest⟩ := List.exists_cons_of_ne_nil hleft
    have hcommands : commands l.bytes = c :: d :: rest := by
      rw [commands, hbuffers, List.filterMap_cons, hc]
      exact congrArg (c :: ·) hrest
    rw [hcommands, meant_of_ne hnil]
    constructor
    · intro heq
      simp at heq
    · intro hplain
      have hvalue := hplain.value
      rw [PlainValue, if_neg hfits, if_neg hlong] at hvalue
      exact absurd ⟨hvalue.1, hvalue.2.1⟩ hodd

end Line

/-- A line is what it is meant to be exactly where it is plain. -/
theorem line_iff {l : StreamLine} (h10 : 10 ∉ l.text) (hlast : l.ended = false → l.text ≠ []) :
    (commands l.bytes).map Command.pair = meant l.text ↔ Plain l := by
  by_cases hnil : l.text = []
  · cases hended : l.ended with
    | true => exact line_blank hnil hended
    | false => exact absurd hnil (hlast hended)
  by_cases h0 : 0 ∈ l.text
  · exact line_nul h0
  have hpos := List.length_pos_of_ne_nil hnil
  by_cases hfits : l.text.length < scriptCommandSize - 1 ∧ l.ended = true
  · exact line_closed h0 h10 hnil hfits
  by_cases hlong : l.text.length < scriptCommandSize
  · by_cases htwo : 2 ≤ l.text.length
    · exact line_open h0 h10 hnil hfits hlong htwo
    · cases hended : l.ended with
      | true => exact absurd ⟨by rw [scriptCommandSize]; omega, hended⟩ hfits
      | false => exact line_lone h10 hnil hended (by omega)
  · exact line_long h0 h10 hnil hlong

/-! ### The script -/

/-- Each line of a script is one command, and as it is meant, exactly where every line is plain. -/
theorem script_lines_iff (script : List UInt8) : Interprets script ↔ ∀ l ∈ linesOf script, Plain l := by
  have heach : (∀ l ∈ linesOf script, (commands l.bytes).map Command.pair = meant l.text) ↔
      ∀ l ∈ linesOf script, Plain l := by
    apply forall₂_congr
    intro l hl
    obtain ⟨h10, hlast⟩ := of_mem_linesOf hl
    exact line_iff h10 hlast
  constructor
  · intro h
    exact heach.mp h.each
  · intro hplain
    have hlines : commands script = (linesOf script).flatMap fun l => commands l.bytes := by
      rw [commands, buffers_linesOf (by decide), List.filterMap_flatMap]
      rfl
    exact ⟨fun σ exec s => by rw [runScriptFile_commands, hlines], heach.mpr hplain⟩

/-- The sign is left in front of the value. -/
theorem not_interprets_install : ¬Interprets (("install =/sdcard/a.zip\n" : CString).bytes) := by
  intro h
  have hline : linesOf (("install =/sdcard/a.zip\n" : CString).bytes) = [⟨("install =/sdcard/a.zip" : CString).bytes, true⟩] := by
    decide
  have heach := h.each _ (hline ▸ List.mem_singleton_self _)
  exact absurd heach (by decide)

end Twrp.Script
