import Twrp.Base.CString
import Twrp.Base.Line

/-! What is printed to the console (`gui_print` and `gui_print_overwrite`).

The formatted text is walked in its buffer by two pointers: `start`, where a line begins, and
`next`. At a newline a terminator is put in its place, what `start` points to is a line, and both
pointers are behind it; then the loop moves `next` once more. The byte behind a newline is
therefore never looked at, and when it is a newline itself it opens the next line. A call adds the
lines of its text exactly when no newline of the text stands directly behind another one
(`addsLines_iff`). -/
namespace Twrp.Gui.Console
open Base

/-- `gConsole` -/
abbrev Lines := List (List UInt8)

/-! ### The printers -/

/-- `vsnprintf(buf, 512, fmt, ap)`: what fits of the formatted text, and its terminator. -/
def vsnprintf (text : CString) : List UInt8 := text.bytes.take 511 ++ [0]

/-- `std::string line = start` -/
def stringAt (buf : List UInt8) (start : Nat) : List UInt8 := (CString.ofBytes (buf.drop start)).bytes

/-- The loop over the buffer. -/
def splitLoop : Nat → List UInt8 → Nat → Nat → Lines → Lines
  | 0, _, _, _, console => console
  | fuel + 1, buf, start, next, console =>
    if buf[next]? = some 0 then console ++ [stringAt buf start]
    else if buf[next]? = some 10 then
      let buf := buf.set next 0
      let next := next + 1
      let console := console ++ [stringAt buf start]
      -- the normal \n\0 case
      if buf[next]? = some 0 then console
      else splitLoop fuel buf next (next + 1) console
    else splitLoop fuel buf start (next + 1) console

/-- A newline and nothing else, which `gui_print` drops. -/
def isLoneNewline (buf : List UInt8) : Bool := buf[0]? = some 10 ∧ (stringAt buf 0).length < 2

def guiPrint (text : CString) (console : Lines) : Lines :=
  let buf := vsnprintf text
  if isLoneNewline buf then console else splitLoop buf.length buf 0 0 console

def guiPrintOverwrite (text : CString) (console : Lines) : Lines :=
  let buf := vsnprintf text
  -- `pop_back`, if there is a line
  splitLoop buf.length buf 0 0 console.dropLast

/-! ### The walk

The two pointers as what lies between them and what is still in front of `next`. -/

def walk : List UInt8 → List UInt8 → Lines
  | line, [] => [line]
  | line, 10 :: [] => [line]
  | line, 10 :: b :: text => line :: walk [b] text
  | line, b :: text => walk (line ++ [b]) text

theorem walk_byte {b : UInt8} (hb : b ≠ 10) (line text : List UInt8) : walk line (b :: text) = walk (line ++ [b]) text := by
  rw [walk]
  · rintro rfl
    exact absurd rfl hb
  · rintro c rest rfl
    exact absurd rfl hb

theorem stringAt_append (front : List UInt8) {line : List UInt8} (hline : 0 ∉ line) (rest : List UInt8) :
    stringAt (front ++ (line ++ 0 :: rest)) front.length = line := by
  rw [stringAt, List.drop_left]
  have hscan := CString.scan_terminated ⟨line, hline⟩ rest
  rw [CString.scan, if_pos (by simp), Option.some_inj] at hscan
  exact congrArg CString.bytes hscan

theorem splitLoop_walk (front : List UInt8) {line text : List UInt8} {fuel : Nat} (hline : 0 ∉ line)
    (htext : 0 ∉ text) (hfuel : text.length < fuel) (console : Lines) :
    splitLoop fuel (front ++ (line ++ (text ++ [0]))) front.length (front.length + line.length) console =
      console ++ walk line text := by
  induction fuel generalizing front line text console with
  | zero => exact absurd hfuel (Nat.not_lt_zero _)
  | succ fuel ih =>
    have hnext (rest : List UInt8) : (front ++ (line ++ rest))[front.length + line.length]? = rest[0]? := by
      rw [← List.append_assoc, List.getElem?_append_right (by simp)]
      simp
    rw [splitLoop, hnext]
    match text with
    | [] =>
      rw [List.nil_append, if_pos (show ([0] : List UInt8)[0]? = some 0 from rfl), walk, stringAt_append front hline]
    | b :: text =>
      obtain ⟨hb, hrest⟩ := List.ne_and_not_mem_of_not_mem_cons htext
      rw [if_neg (by simpa using hb.symm)]
      by_cases hnl : b = 10
      · subst hnl
        have hset : (front ++ (line ++ (10 :: text ++ [0]))).set (front.length + line.length) 0 =
            front ++ (line ++ 0 :: (text ++ [0])) := by
          simp [List.set_append_right]
        have hbehind : (front ++ (line ++ 0 :: (text ++ [0])))[front.length + line.length + 1]? =
            (text ++ [0])[0]? := by
          have hsplit : front ++ (line ++ 0 :: (text ++ [0])) = (front ++ line ++ [0]) ++ (text ++ [0]) := by simp
          rw [hsplit, List.getElem?_append_right (by simp; omega)]
          congr 1
          simp
        rw [if_pos (show (10 :: text ++ [0])[0]? = some 10 from rfl)]
        dsimp only
        rw [hset, hbehind, stringAt_append front hline]
        match text with
        | [] =>
          rw [if_pos (show ([] ++ [0] : List UInt8)[0]? = some 0 from rfl), walk]
        | c :: text =>
          obtain ⟨hc, hlater⟩ := List.ne_and_not_mem_of_not_mem_cons hrest
          rw [if_neg (by simpa using hc.symm), walk]
          have hfree : 0 ∉ [c] := by simpa using hc
          have := ih (front ++ line ++ [0]) hfree hlater (by simp at hfuel; omega) (console ++ [line])
          simpa [Nat.add_assoc] using this
      · rw [if_neg (by simpa using hnl), walk_byte hnl]
        have hfree : 0 ∉ line ++ [b] := by simp [hline, hb]
        have := ih front hfree hrest (by simp at hfuel; omega) console
        simpa [Nat.add_assoc] using this

/-! ### The lines of a text -/

/-- A text split at its newlines, a final newline ending the last line. -/
def linesOfText (text : List UInt8) : Lines :=
  let pieces := text.splitOn 10
  if text.getLast? = some 10 then pieces.dropLast else pieces

theorem linesOfText_free {line : List UInt8} (hline : 10 ∉ line) : linesOfText line = [line] := by
  have hlast : line.getLast? ≠ some 10 := fun h => hline (List.mem_of_getLast? h)
  rw [linesOfText, if_neg hlast, List.splitOn_eq_singleton hline]

/-- The line in front of a newline, and those behind it if anything is behind it. -/
theorem linesOfText_newline {line : List UInt8} (hline : 10 ∉ line) (text : List UInt8) :
    linesOfText (line ++ 10 :: text) = line :: if text = [] then [] else linesOfText text := by
  have hpieces := List.splitOn_append_cons_self_of_not_mem hline text
  match text with
  | [] => simp [linesOfText, hpieces]
  | b :: text =>
    have hne := List.splitOn_ne_nil 10 (b :: text)
    simp only [linesOfText, hpieces, List.getLast?_append_cons, List.getLast?_cons_cons, reduceCtorEq, if_false]
    split_ifs
    · exact List.dropLast_cons_of_ne_nil hne
    · rfl

theorem noNewline {text line : List UInt8} (h : line ∈ linesOfText text) : 10 ∉ line := by
  have hpiece : line ∈ text.splitOn 10 := by
    rw [linesOfText] at h
    split_ifs at h
    · exact List.mem_of_mem_dropLast h
    · exact h
  exact (of_mem_splitOn 10 hpiece).1

/-! ### When the walk gives them -/

/-- A line only grows, so that a newline once in it stays there. -/
theorem walk_newline_in {line : List UInt8} (hline : 10 ∈ line) (text : List UInt8) : ∃ l ∈ walk line text, 10 ∈ l := by
  fun_induction walk line text with
  | case1 line => exact ⟨line, List.mem_cons_self, hline⟩
  | case2 line => exact ⟨line, List.mem_cons_self, hline⟩
  | case3 line b text _ => exact ⟨line, List.mem_cons_self, hline⟩
  | case4 line b text _ _ ih => exact ih (List.mem_append_left [b] hline)

/-- The second of two newlines is skipped, and stands in front of the next line. -/
theorem walk_doubled (line : List UInt8) {text : List UInt8} (h : [10, 10] <:+: text) : ∃ l ∈ walk line text, 10 ∈ l := by
  fun_induction walk line text with
  | case1 line => exact absurd h.length_le (by simp)
  | case2 line => exact absurd h.length_le (by simp)
  | case3 line b text ih =>
    by_cases hb : b = 10
    · subst hb
      obtain ⟨l, hl, hmem⟩ := walk_newline_in List.mem_cons_self text
      exact ⟨l, List.mem_cons_of_mem line hl, hmem⟩
    · obtain hhead | htail := List.infix_cons_iff.mp h
      · exact absurd (by simpa using hhead) (Ne.symm hb)
      · obtain hhead | htail := List.infix_cons_iff.mp htail
        · exact absurd (List.cons_prefix_cons.mp hhead).1 (Ne.symm hb)
        · obtain ⟨l, hl, hmem⟩ := ih htail
          exact ⟨l, List.mem_cons_of_mem line hl, hmem⟩
  | case4 line b text hlast hmore ih =>
    obtain hhead | htail := List.infix_cons_iff.mp h
    · obtain ⟨rest, heq⟩ := hhead
      obtain ⟨hb, htext⟩ := List.cons.inj heq
      exact absurd htext.symm (hmore 10 rest hb.symm)
    · exact ih htail

theorem walk_lines {line text : List UInt8} (hline : 10 ∉ line) (h : ¬ [10, 10] <:+: text) :
    walk line text = linesOfText (line ++ text) := by
  fun_induction walk line text with
  | case1 line => rw [List.append_nil, linesOfText_free hline]
  | case2 line => rw [linesOfText_newline hline, if_pos rfl]
  | case3 line b text ih =>
    have hb : b ≠ 10 := by
      rintro rfl
      exact h ⟨[], text, rfl⟩
    have htext : ¬ [10, 10] <:+: text := fun hin => h (List.infix_cons (List.infix_cons hin))
    rw [linesOfText_newline hline, if_neg (List.cons_ne_nil b text), ih (by simpa using hb.symm) htext]
    rfl
  | case4 line b text hlast hmore ih =>
    have hb : b ≠ 10 := by
      intro hb
      cases text with
      | nil => exact hlast hb rfl
      | cons c text => exact hmore c text hb rfl
    have htext : ¬ [10, 10] <:+: text := fun hin => h (List.infix_cons hin)
    rw [ih (by simp [hline, hb.symm]) htext, List.append_assoc]
    rfl

/-- The walk gives the lines exactly where no newline stands directly behind another. -/
theorem walk_lines_iff (text : List UInt8) : walk [] text = linesOfText text ↔ ¬ [10, 10] <:+: text := by
  constructor
  · intro heq hdouble
    obtain ⟨l, hl, hmem⟩ := walk_doubled [] hdouble
    exact noNewline (heq ▸ hl) hmem
  · exact walk_lines List.not_mem_nil

/-! ### Calls -/

inductive Call where
  | print (text : CString)
  | printOverwrite (text : CString)

namespace Call

def text : Call → CString
  | .print text => text
  | .printOverwrite text => text

def run : Call → Lines → Lines
  | .print text => guiPrint text
  | .printOverwrite text => guiPrintOverwrite text

/-- The formatted text and its terminator fit the buffer. -/
def Fits (c : Call) : Prop := c.text.length < 512

instance (c : Call) : Decidable c.Fits := inferInstanceAs (Decidable (c.text.length < 512))

/-- What a call leaves of the lines before it. -/
def kept : Call → Lines → Lines
  | .print _, console => console
  | .printOverwrite _, console => console.dropLast

/-- The lines that a call is to add; the lone newline of `gui_print` is dropped on purpose. -/
def lines : Call → Lines
  | .print text => if text.bytes = [10] then [] else linesOfText text.bytes
  | .printOverwrite text => linesOfText text.bytes

end Call

/-- Each call of a sequence adds the lines of its text. -/
def AddsLines : List Call → Lines → Prop
  | [], _ => True
  | c :: calls, console => c.run console = c.kept console ++ c.lines ∧ AddsLines calls (c.run console)

theorem splitLoop_text {text : CString} (hfit : text.length < 512) (console : Lines) :
    splitLoop (vsnprintf text).length (vsnprintf text) 0 0 console = console ++ walk [] text.bytes := by
  have htake : text.bytes.take 511 = text.bytes := List.take_of_length_le (Nat.le_of_lt_succ hfit)
  have hbuf : vsnprintf text = text.bytes ++ [0] := by rw [vsnprintf, htake]
  have hfuel : text.bytes.length < (text.bytes ++ [0]).length := by simp
  have hloop := splitLoop_walk [] List.not_mem_nil text.noNul hfuel console
  rw [hbuf]
  exact hloop

theorem isLoneNewline_iff {text : CString} (hfit : text.length < 512) :
    isLoneNewline (vsnprintf text) = true ↔ text.bytes = [10] := by
  have htake : text.bytes.take 511 = text.bytes := List.take_of_length_le (Nat.le_of_lt_succ hfit)
  have hstring : stringAt (vsnprintf text) 0 = text.bytes := by
    have := stringAt_append [] text.noNul []
    rwa [vsnprintf, htake]
  rw [isLoneNewline, hstring, vsnprintf, htake, decide_eq_true_iff]
  match text.bytes with
  | [] => simp
  | [b] => simp
  | _ :: _ :: _ => simp

/-- One call adds the lines of its text exactly when it has no two newlines together. -/
theorem run_lines_iff {c : Call} (hfit : c.Fits) (console : Lines) :
    c.run console = c.kept console ++ c.lines ↔ ¬ [10, 10] <:+: c.text.bytes := by
  cases c with
  | printOverwrite text =>
    show splitLoop _ _ _ _ _ = _ ↔ _
    have hfit : text.length < 512 := hfit
    rw [splitLoop_text hfit]
    exact List.append_right_inj _ |>.trans (walk_lines_iff text.bytes)
  | print text =>
    show (if _ then _ else _) = console ++ (if _ then _ else _) ↔ _
    have hfit : text.length < 512 := hfit
    by_cases hlone : text.bytes = [10]
    · have hsingle : ¬ [10, 10] <:+: text.bytes := by
        rw [hlone]
        exact fun hin => absurd hin.length_le (by decide)
      rw [if_pos ((isLoneNewline_iff hfit).mpr hlone), if_pos hlone, List.append_nil]
      exact iff_of_true rfl hsingle
    · rw [if_neg (fun h => hlone ((isLoneNewline_iff hfit).mp h)), if_neg hlone, splitLoop_text hfit]
      exact List.append_right_inj _ |>.trans (walk_lines_iff text.bytes)

/-- Over any sequence of calls: each of them adds the lines of its text exactly when none of their
texts has two newlines together. -/
theorem addsLines_iff (calls : List Call) (console : Lines) (hfit : ∀ c ∈ calls, c.Fits) :
    AddsLines calls console ↔ ∀ c ∈ calls, ¬ [10, 10] <:+: c.text.bytes := by
  induction calls generalizing console with
  | nil => exact iff_of_true trivial nofun
  | cons c calls ih =>
    obtain ⟨hhead, htail⟩ := List.forall_mem_cons.mp hfit
    rw [AddsLines, run_lines_iff hhead, ih (c.run console) htail, List.forall_mem_cons]

theorem addsLines_twoLines : AddsLines [.print "a\nb\n", .printOverwrite "c"] [] :=
  (addsLines_iff [.print "a\nb\n", .printOverwrite "c"] [] (by decide)).mpr (by decide)

/-- A blank line between two others is printed as a newline in front of the second. -/
theorem blankLine_not_added : Call.Fits (.print "a\n\nb") ∧ ¬ AddsLines [.print "a\n\nb"] [] ∧
    guiPrint "a\n\nb" [] = [[97], [10, 98]] ∧ linesOfText (CString.ofString "a\n\nb").bytes = [[97], [], [98]] := by
  have hprinted : guiPrint "a\n\nb" [] = [[97], [10, 98]] := by decide
  have hlines : (Call.print "a\n\nb").lines = [[97], [], [98]] := by decide
  refine ⟨by decide, fun h => ?_, hprinted, by decide⟩
  exact absurd (hprinted.symm.trans (h.1.trans hlines)) (by decide)

end Twrp.Gui.Console
