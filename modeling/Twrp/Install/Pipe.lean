import Twrp.Base.CString
import Twrp.Base.Line

/-! The command pipe between the updater and the recovery.

The updater writes commands, one a line; `ui_print` writes one for each line of its text and
an empty one at its end. `Run_Update_Binary` takes the lines with `fgets` into a buffer of
1024 bytes and cuts each into a command and its arguments with `strtok`. Where a line is
longer than the buffer, what is left of it is read as a command of its own. -/
namespace Twrp.Install
open Base

/-! ### Writing -/

/-- What `ui_print` returns and what it writes to the command pipe. -/
structure UIPrint where
  value : List UInt8
  written : List UInt8

/-- The command for one line of a text. -/
def printLine (line : List UInt8) : List UInt8 := ("ui_print " : CString).bytes ++ line ++ [10]

/-- `UIPrintFn`, from the values of its arguments on. -/
def uiPrintFn (args : List CString) : UIPrint where
  -- the first `strtok` has put a NUL after the first line, and the buffer is returned as it is
  value :=
    let buffer := args.flatMap CString.bytes
    buffer.takeWhile (· == 10) ++ (buffer.dropWhile (· == 10)).takeWhile (· != 10)
  written :=
    let buffer := args.flatMap CString.bytes
    (tokens [10] buffer).flatMap printLine ++ ("ui_print\n" : CString).bytes

/-- What a script's calls of `ui_print` write. -/
def uiPrints (calls : List (List CString)) : List UInt8 := calls.flatMap fun args => (uiPrintFn args).written

/-! ### Reading -/

/-- What the loop does with a command. -/
inductive Event where
  /-- `gui_print` of the text -/
  | print (text : List UInt8)
  /-- `gui_print` of a newline -/
  | newline
  /-- `ShowProgress`, with the fraction scaled down where the zip's signature is verified -/
  | showProgress (fraction seconds : List UInt8) (scaled : Bool)
  | setProgress (fraction : List UInt8)
  | wipeCache
  | clearDisplay
  /-- a command that is not known is logged -/
  | unknown (command : List UInt8)
  /-- a number is read through a null pointer -/
  | crash
deriving DecidableEq

/-- `sizeof(buffer)` -/
def bufferSize : Nat := 1024

/-- The body of the loop on what is in the buffer; `none` where there is no command. -/
def command (zipVerify : Bool) (buffer : List UInt8) : Option Event :=
  match strtok [32, 10] (CString.ofBytes buffer).bytes with
  | none => none
  | some (command, rest) =>
    if command = ("progress" : CString).bytes then
      match strtok [32, 10] rest with
      | none => some .crash
      | some (fraction, rest) =>
        match strtok [32, 10] rest with
        | none => some .crash
        | some (seconds, _) => some (.showProgress fraction seconds zipVerify)
    else if command = ("set_progress" : CString).bytes then
      match strtok [32, 10] rest with
      | none => some .crash
      | some (fraction, _) => some (.setProgress fraction)
    else if command = ("ui_print" : CString).bytes then
      match strtok [10] rest with
      | some (text, _) => some (.print text)
      | none => some .newline
    else if command = ("wipe_cache" : CString).bytes then some .wipeCache
    else if command = ("clear_display" : CString).bytes then some .clearDisplay
    else some (.unknown command)

/-- The loop; `fuel` bounds the number of calls of `fgets`. -/
def commandsUpTo (zipVerify : Bool) : Nat → List UInt8 → List Event
  | 0, _ => []
  | fuel + 1, stream =>
    let (buffer, rest) := fgets (bufferSize - 1) stream
    if buffer = [] then []
    else
      match command zipVerify buffer with
      | none => commandsUpTo zipVerify fuel rest
      | some .crash => [.crash]
      | some event => event :: commandsUpTo zipVerify fuel rest

/-- The loop on all that the updater wrote: a call of `fgets` takes a byte at least. -/
def commands (zipVerify : Bool) (stream : List UInt8) : List Event := commandsUpTo zipVerify stream.length stream

/-! ### The loop, one line at a time -/

section Loop
variable (zipVerify : Bool)

theorem fgets_length {n : Nat} {stream buffer rest : List UInt8} (h : fgets n stream = (buffer, rest)) :
    buffer.length + rest.length = stream.length := by
  have happend := fgets_append n stream
  rw [h] at happend
  rw [← happend, List.length_append]

/-- More calls of `fgets` than there are bytes change nothing. -/
theorem commandsUpTo_fuel {fuel : Nat} {stream : List UInt8} (hfuel : stream.length ≤ fuel) :
    commandsUpTo zipVerify fuel stream = commands zipVerify stream := by
  induction h : stream.length using Nat.strong_induction_on generalizing fuel stream with
  | _ n ih =>
    subst h
    cases stream with
    | nil => cases fuel <;> rfl
    | cons b stream =>
      obtain ⟨fuel, rfl⟩ := Nat.exists_eq_succ_of_ne_zero (Nat.ne_of_gt (Nat.zero_lt_of_lt hfuel))
      rw [commands, List.length_cons, commandsUpTo, commandsUpTo]
      rcases hget : fgets (bufferSize - 1) (b :: stream) with ⟨buffer, rest⟩
      dsimp only
      by_cases hbuffer : buffer = []
      · rw [if_pos hbuffer, if_pos hbuffer]
      · have hlength := fgets_length hget
        have hpos := List.length_pos_iff.mpr hbuffer
        simp only [List.length_cons] at hlength hfuel
        have hrest (f : Nat) (hf : stream.length ≤ f) : commandsUpTo zipVerify f rest = commands zipVerify rest :=
          ih rest.length (by simp only [List.length_cons]; omega) (by omega) rfl
        rw [if_neg hbuffer, if_neg hbuffer, hrest fuel (by omega), hrest stream.length le_rfl]

theorem commands_nil : commands zipVerify [] = [] := rfl

/-- What the loop does with a buffer it has filled. -/
theorem commands_fgets {stream buffer rest : List UInt8} (hget : fgets (bufferSize - 1) stream = (buffer, rest))
    (hbuffer : buffer ≠ []) :
    commands zipVerify stream = match command zipVerify buffer with
      | none => commands zipVerify rest
      | some .crash => [.crash]
      | some event => event :: commands zipVerify rest := by
  have hlength := fgets_length hget
  have hpos := List.length_pos_iff.mpr hbuffer
  have hfuel : commandsUpTo zipVerify (stream.length - 1) rest = commands zipVerify rest :=
    commandsUpTo_fuel zipVerify (by omega)
  obtain ⟨n, hn⟩ : ∃ n, stream.length = n + 1 := ⟨stream.length - 1, by omega⟩
  rw [commands, hn, commandsUpTo, hget]
  rw [hn, Nat.add_sub_cancel] at hfuel
  simp only [hbuffer, if_false, hfuel]

end Loop

/-! ### The commands of `ui_print` -/

/-- A line of a text: not empty, and without newlines and NULs. -/
def IsLine (line : List UInt8) : Prop := line ≠ [] ∧ 10 ∉ line ∧ 0 ∉ line

section Print
variable (zipVerify : Bool)

theorem ofBytes_eq {l : List UInt8} (h : 0 ∉ l) : (CString.ofBytes l).bytes = l := by
  refine List.takeWhile_eq_self_iff.mpr fun b hb => ?_
  have hne : b ≠ 0 := fun h0 => h (h0 ▸ hb)
  simp [hne]

/-- The command word is cut off at the blank. -/
theorem strtok_ui_print (rest : List UInt8) :
    strtok [32, 10] (("ui_print " : CString).bytes ++ rest) = some (("ui_print" : CString).bytes, rest) := by
  have hword : ("ui_print " : CString).bytes = ("ui_print" : CString).bytes ++ [32] := by decide
  rw [hword, List.append_assoc, List.singleton_append]
  exact strtok_token (by decide) (by decide +kernel) (by decide) rest

/-- The text after the command word is printed, whatever is in it. -/
theorem command_ui_print {rest text left : List UInt8} (hnul : 0 ∉ rest) (htext : strtok [10] rest = some (text, left)) :
    command zipVerify (("ui_print " : CString).bytes ++ rest) = some (.print text) := by
  have hfree : 0 ∉ ("ui_print " : CString).bytes ++ rest := by
    rw [List.mem_append]
    exact not_or.mpr ⟨CString.noNul _, hnul⟩
  have hprogress : ("ui_print" : CString).bytes ≠ ("progress" : CString).bytes := by decide
  have hset : ("ui_print" : CString).bytes ≠ ("set_progress" : CString).bytes := by decide
  rw [command, ofBytes_eq hfree, strtok_ui_print]
  simp only [hprogress, hset, if_false, if_true, htext]

/-- A line that is read up to its newline, or up to the end of the buffer. -/
theorem command_line {line : List UInt8} (hline : IsLine line) :
    command zipVerify (printLine line) = some (.print line) ∧
      command zipVerify (("ui_print " : CString).bytes ++ line) = some (.print line) := by
  obtain ⟨hne, hnewline, hnul⟩ := hline
  have hfree : ∀ b ∈ line, b ∉ [(10 : UInt8)] := by
    intro b hb hmem
    exact hnewline (List.mem_singleton.mp hmem ▸ hb)
  constructor
  · rw [printLine, List.append_assoc]
    exact command_ui_print zipVerify (by simp [hnul]) (strtok_token hne hfree (by simp) [])
  · exact command_ui_print zipVerify hnul (strtok_last hne hfree)

theorem command_newline : command zipVerify [10] = none := rfl

theorem command_end : command zipVerify ("ui_print\n" : CString).bytes = some .newline := by
  have h : ∀ v, command v ("ui_print\n" : CString).bytes = some .newline := by decide
  exact h zipVerify

/-- The longest line whose command still fits: its newline may come alone. -/
def maxLine : Nat := 1014

/-- A line of at most 1014 bytes is printed, and the loop goes on after it. -/
theorem commands_short {line : List UInt8} (hline : IsLine line) (hshort : line.length ≤ maxLine) (rest : List UInt8) :
    commands zipVerify (printLine line ++ rest) = .print line :: commands zipVerify rest := by
  have hnewline : (10 : UInt8) ∉ ("ui_print " : CString).bytes ++ line := by
    rw [List.mem_append]
    exact not_or.mpr ⟨by decide, hline.2.1⟩
  have hlength : (("ui_print " : CString).bytes ++ line).length = 9 + line.length := by
    rw [List.length_append]
    rfl
  have hassoc : printLine line ++ rest = (("ui_print " : CString).bytes ++ line) ++ 10 :: rest := by
    simp [printLine]
  by_cases hfull : line.length = maxLine
  · -- the newline of the line is what the next `fgets` reads
    have hget : fgets (bufferSize - 1) (printLine line ++ rest) = (("ui_print " : CString).bytes ++ line, 10 :: rest) := by
      rw [hassoc]
      exact fgets_cut hnewline (by rw [hlength, hfull]; rfl) _
    have hnext : fgets (bufferSize - 1) (10 :: rest) = ([10], rest) :=
      @fgets_fits (bufferSize - 1) [] (by simp) (by decide) rest
    rw [commands_fgets zipVerify hget (by simp [hline.1]), (command_line zipVerify hline).2]
    simp only
    rw [commands_fgets zipVerify hnext (by simp), command_newline]
  · have hget : fgets (bufferSize - 1) (printLine line ++ rest) = (printLine line, rest) := by
      rw [hassoc, printLine]
      refine fgets_fits hnewline ?_ rest
      rw [hlength]
      have hroom : line.length < 1014 := lt_of_le_of_ne hshort hfull
      change 9 + line.length < 1023
      omega
    rw [commands_fgets zipVerify hget (by simp [printLine]), (command_line zipVerify hline).1]

/-- Of a longer line, only the first 1014 bytes are printed. -/
theorem commands_long {line : List UInt8} (hline : IsLine line) (hlong : maxLine < line.length) (rest : List UInt8) :
    ∃ events, commands zipVerify (printLine line ++ rest) = .print (line.take maxLine) :: events := by
  obtain ⟨hne, hnewline, hnul⟩ := hline
  have hhead : IsLine (line.take maxLine) := by
    refine ⟨?_, fun h => hnewline (List.mem_of_mem_take h), fun h => hnul (List.mem_of_mem_take h)⟩
    simp [maxLine, hne]
  have hfree : (10 : UInt8) ∉ ("ui_print " : CString).bytes ++ line.take maxLine := by
    rw [List.mem_append]
    exact not_or.mpr ⟨by decide, hhead.2.1⟩
  have hget : fgets (bufferSize - 1) (printLine line ++ rest)
      = (("ui_print " : CString).bytes ++ line.take maxLine, line.drop maxLine ++ 10 :: rest) := by
    have hassoc : printLine line ++ rest
        = (("ui_print " : CString).bytes ++ line.take maxLine) ++ (line.drop maxLine ++ 10 :: rest) := by
      rw [List.append_assoc, ← List.append_assoc (line.take maxLine), List.take_append_drop]
      simp [printLine]
    rw [hassoc]
    refine fgets_cut hfree ?_ _
    rw [List.length_append, List.length_take, Nat.min_eq_left (Nat.le_of_lt hlong)]
    rfl
  rw [commands_fgets zipVerify hget (by simp [hhead.1]), (command_line zipVerify hhead).2]
  exact ⟨_, rfl⟩

theorem commands_end (rest : List UInt8) :
    commands zipVerify (("ui_print\n" : CString).bytes ++ rest) = .newline :: commands zipVerify rest := by
  have hget : fgets (bufferSize - 1) (("ui_print\n" : CString).bytes ++ rest) = (("ui_print\n" : CString).bytes, rest) :=
    @fgets_fits (bufferSize - 1) ("ui_print" : CString).bytes (by decide) (by decide) rest
  rw [commands_fgets zipVerify hget (by decide), command_end]

end Print

/-! ### What the reader makes of the texts -/

/-- A command of `ui_print`: a line, or the empty one at the end of a call. -/
def frame : Option (List UInt8) → List UInt8
  | some line => printLine line
  | none => ("ui_print\n" : CString).bytes

/-- The non-empty lines of the text that the arguments of a call make up. -/
def textLines (args : List CString) : List (List UInt8) :=
  ((args.flatMap CString.bytes).splitOn 10).filter (· ≠ [])

def frames (calls : List (List CString)) : List (Option (List UInt8)) :=
  calls.flatMap fun args => (textLines args).map some ++ [none]

theorem uiPrints_frames (calls : List (List CString)) : uiPrints calls = (frames calls).flatMap frame := by
  induction calls with
  | nil => rfl
  | cons args calls ih =>
    have hwritten : (uiPrintFn args).written = ((textLines args).map some ++ [none]).flatMap frame := by
      simp [uiPrintFn, tokens_splitOn, textLines, frame, List.flatMap_map]
    rw [uiPrints, List.flatMap_cons, frames, List.flatMap_cons, List.flatMap_append, hwritten]
    exact congrArg _ ih

theorem isLine_of_mem_textLines {args : List CString} {line : List UInt8} (h : line ∈ textLines args) : IsLine line := by
  rw [textLines, ← tokens_splitOn] at h
  obtain ⟨hne, hnewline, hsub⟩ := of_mem_tokens 10 h
  refine ⟨hne, hnewline, fun hnul => ?_⟩
  obtain ⟨arg, -, hmem⟩ := List.mem_flatMap.mp (hsub hnul)
  exact arg.noNul hmem

/-- The texts that were printed. -/
def printed : Event → Option (List UInt8)
  | .print text => some text
  | _ => none

/-- The loop only prints. -/
def OnlyPrints (events : List Event) : Prop := ∀ e ∈ events, e = .newline ∨ ∃ text, e = .print text

/-- The reader only prints, and prints these lines. -/
def Prints (events : List Event) (lines : List (List UInt8)) : Prop :=
  OnlyPrints events ∧ events.filterMap printed = lines

theorem prints_newline (events : List Event) (lines : List (List UInt8)) :
    Prints (.newline :: events) lines ↔ Prints events lines := by
  have hskip : (Event.newline :: events).filterMap printed = events.filterMap printed :=
    List.filterMap_cons_none rfl
  simp [Prints, OnlyPrints, hskip]

theorem prints_print (text : List UInt8) (events : List Event) (line : List UInt8) (lines : List (List UInt8)) :
    Prints (.print text :: events) (line :: lines) ↔ text = line ∧ Prints events lines := by
  have htake : (Event.print text :: events).filterMap printed = text :: events.filterMap printed :=
    List.filterMap_cons_some rfl
  simp [Prints, OnlyPrints, htake, and_left_comm]

/-- Frame by frame: a long line is not printed whole, and up to it all is as it should be. -/
theorem prints_frames (zipVerify : Bool) {fs : List (Option (List UInt8))} (hlines : ∀ line, some line ∈ fs → IsLine line) :
    Prints (commands zipVerify (fs.flatMap frame)) (fs.filterMap id) ↔ ∀ line, some line ∈ fs → line.length ≤ maxLine := by
  induction fs with
  | nil => simp [Prints, OnlyPrints, commands_nil]
  | cons f fs ih =>
    have ih := ih fun line h => hlines line (List.mem_cons_of_mem f h)
    rw [List.flatMap_cons]
    cases f with
    | none =>
      rw [frame, commands_end, prints_newline]
      simpa using ih
    | some line =>
      have hline := hlines line List.mem_cons_self
      have hfilter : (some line :: fs).filterMap id = line :: fs.filterMap id := List.filterMap_cons_some rfl
      rw [frame, hfilter]
      by_cases hshort : line.length ≤ maxLine
      · rw [commands_short zipVerify hline hshort, prints_print, ih]
        simp [hshort]
      · obtain ⟨events, hevents⟩ := commands_long zipVerify hline (Nat.lt_of_not_le hshort) (fs.flatMap frame)
        rw [hevents, prints_print]
        constructor
        · intro h
          exact absurd (List.take_eq_self_iff line |>.mp h.1) hshort
        · intro h
          exact absurd (h line List.mem_cons_self) hshort

/-- For every sequence of calls of `ui_print`, the recovery only prints, and prints the
non-empty lines of the texts in order, exactly where no line has more than 1014 bytes. -/
theorem ui_print_framed (zipVerify : Bool) (calls : List (List CString)) :
    Prints (commands zipVerify (uiPrints calls)) (calls.flatMap textLines) ↔
      ∀ args ∈ calls, ∀ line ∈ textLines args, line.length ≤ maxLine := by
  have hmem (line : List UInt8) : some line ∈ frames calls ↔ ∃ args ∈ calls, line ∈ textLines args := by
    simp [frames]
  have hlines : (frames calls).filterMap id = calls.flatMap textLines := by
    simp [frames, List.filterMap_flatMap, List.filterMap_append]
  rw [uiPrints_frames, ← hlines, prints_frames]
  · simp only [hmem]
    constructor
    · intro h args hargs line hline
      exact h line ⟨args, hargs, hline⟩
    · intro h line ⟨args, hargs, hline⟩
      exact h args hargs line hline
  · intro line h
    obtain ⟨args, -, hline⟩ := (hmem line).mp h
    exact isLine_of_mem_textLines hline

/-- 1014 letters, and then the name of a command. -/
def longText : CString := ⟨List.replicate 1014 120 ++ ("wipe_cache" : CString).bytes, by decide +kernel⟩

/-- A text without a newline has the cache wiped. -/
theorem ui_print_wipes : Event.wipeCache ∈ commands false (uiPrints [[longText]]) := by decide +kernel

theorem ui_print_not_framed :
    ¬∀ (zipVerify : Bool) (calls : List (List CString)),
      Prints (commands zipVerify (uiPrints calls)) (calls.flatMap textLines) := by
  intro h
  obtain heq | ⟨text, heq⟩ := (h false [[longText]]).1 _ ui_print_wipes
  · cases heq
  · cases heq

end Twrp.Install
