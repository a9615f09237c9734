import Twrp.Base.Field
import Twrp.Base.Line

/-! The arguments recovery is started with (`get_args`).

They come from the command line, else from the bootloader block, one per line after `recovery`, else
from the command file, one per line. Whatever they are, they are written back to the block, for the next
start; what does not fit there is cut. -/
namespace Twrp.Boot
open Base

def MAX_ARGS : Nat := 100
def MAX_ARG_LENGTH : Nat := 4096

/-- `bootloader_message` -/
structure Message where
  command : Field 32
  status : Field 32
  recovery : Field 1024

/-- The bytes of a literal. -/
def recoveryName : List UInt8 := [0x72, 0x65, 0x63, 0x6f, 0x76, 0x65, 0x72, 0x79]

/-- `"recovery\n"` -/
def recoveryLine : CString := ⟨recoveryName ++ [10], by decide⟩

/-- `"\n"` -/
def newline : CString := ⟨[10], by decide⟩

/-- The arguments of the bootloader block, if there are any: its first line is `recovery`. -/
def fromBlock (text : List UInt8) : Option (List (List UInt8)) :=
  match strtok [10] text with
  | none => none
  | some (arg, rest) => if arg = recoveryName then some (arg :: tokensUpTo [10] (MAX_ARGS - 1) rest) else none

/-- The arguments of the command file, at most `left` of them; `none` where a token is missing. -/
def fromFile : (left : Nat) → List UInt8 → Option (List (List UInt8))
  | 0, _ => some []
  | left + 1, stream =>
    let (buf, rest) := fgets (MAX_ARG_LENGTH - 1) stream
    if buf = [] then some []
    else
      match strtok [13, 10] (buf.takeWhile (· != 0)) with
      | none => none
      | some (token, _) => (fromFile left rest).map (token :: ·)

/-- The arguments of the command line, or else of the block. -/
def firstArgs (argv : List CString) (boot : Message) : List (List UInt8) :=
  if argv.length ≤ 1 then (fromBlock boot.recovery.terminate.text).getD (argv.map CString.bytes) else argv.map CString.bytes

/-- All three sources; `none` where a missing token is used. -/
def collect (argv : List CString) (boot : Message) (commandFile : Option (List UInt8)) : Option (List (List UInt8)) :=
  let args := firstArgs argv boot
  if args.length ≤ 1 then
    match commandFile with
    | none => some args
    | some stream => (fromFile (MAX_ARGS - 1) stream).map (args.headD [] :: ·)
  else some args

/-- One argument is added to the block. -/
def addLine (recovery : Field 1024) (arg : List UInt8) : Field 1024 := (recovery.strlcat (CString.ofBytes arg)).strlcat newline

/-- The arguments are written back. -/
def writeBack (boot : Message) (args : List (List UInt8)) : Message where
  command := boot.command.strlcpy "boot-recovery"
  status := boot.status
  recovery := args.tail.foldl addLine (boot.recovery.strlcpy recoveryLine)

/-- `get_args`: the arguments, and the block as it is written; `none` where a missing token is used. -/
def getArgs (argv : List CString) (boot : Message) (commandFile : Option (List UInt8)) : Option (List (List UInt8) × Message) :=
  (collect argv boot commandFile).map fun args => (args, writeBack boot args)

/-! ### What is written back -/

/-- The lines of arguments. -/
def body (args : List (List UInt8)) : List UInt8 := args.flatMap (· ++ [10])

/-- The arguments fit into the block, with its first line and the NUL. -/
def Fits (args : List (List UInt8)) : Prop := (recoveryLine.bytes ++ body args).length < 1024

theorem body_cons (a : List UInt8) (args : List (List UInt8)) : body (a :: args) = a ++ 10 :: body args := by
  simp [body]

/-- Text of limited length, added to twice, is cut once. -/
theorem take_append_take (n : Nat) (a b : List UInt8) : (a.take n ++ b).take n = (a ++ b).take n := by
  rw [List.take_append, List.take_take, Nat.min_self, List.take_append, List.length_take]
  rcases Nat.le_total a.length n with h | h
  · rw [Nat.min_eq_right h]
  · rw [Nat.min_eq_left h, Nat.sub_self, Nat.sub_eq_zero_of_le h]

theorem addLine_spec {f : Field 1024} (hf : f.Ends) {arg : List UInt8} (harg : 0 ∉ arg) :
    (addLine f arg).Ends ∧ (addLine f arg).text = (f.text ++ (arg ++ [10])).take 1023 := by
  have hbytes : (CString.ofBytes arg).bytes = arg := by
    apply List.takeWhile_eq_self_iff.mpr
    intro b hb
    rw [bne_iff_ne]
    intro hzero
    exact harg (hzero ▸ hb)
  obtain ⟨hends, htext⟩ := Field.strlcat_spec hf (CString.ofBytes arg)
  obtain ⟨hends', htext'⟩ := Field.strlcat_spec hends newline
  refine ⟨hends', ?_⟩
  show ((f.strlcat (CString.ofBytes arg)).strlcat newline).text = _
  rw [htext', htext, take_append_take, hbytes, List.append_assoc]
  rfl

theorem foldl_addLine {f : Field 1024} (hf : f.Ends) {args : List (List UInt8)} (hargs : ∀ a ∈ args, 0 ∉ a) :
    (args.foldl addLine f).text = (f.text ++ body args).take 1023 := by
  induction args generalizing f with
  | nil =>
    have hlength : f.text.length ≤ 1023 := Nat.le_of_lt_succ hf
    rw [List.foldl_nil, body, List.flatMap_nil, List.append_nil, List.take_of_length_le hlength]
  | cons a args ih =>
    obtain ⟨ha, hrest⟩ := List.forall_mem_cons.mp hargs
    obtain ⟨hends, htext⟩ := addLine_spec hf ha
    rw [List.foldl_cons, ih hends hrest, htext, take_append_take, body_cons]
    simp

/-- The block that is written holds the lines of the arguments, cut to 1023 bytes. -/
theorem text_writeBack (boot : Message) {args : List (List UInt8)} (hargs : ∀ a ∈ args.tail, 0 ∉ a) :
    (writeBack boot args).recovery.terminate.text = (recoveryLine.bytes ++ body args.tail).take 1023 := by
  have hstart : (boot.recovery.strlcpy recoveryLine).text = recoveryLine.bytes := Field.text_strlcpy _ _
  rw [Field.text_terminate]
  show ((args.tail.foldl addLine (boot.recovery.strlcpy recoveryLine)).text).take 1023 = _
  rw [foldl_addLine (Field.ends_strlcpy _ _) hargs, hstart, List.take_take, Nat.min_self]

/-! ### Lines that are cut -/

/-- An argument that a line can hold. -/
def Plain (a : List UInt8) : Prop := a ≠ [] ∧ 10 ∉ a

theorem tokensUpTo_newlines (fuel : Nat) {tail : List UInt8} (h : ∀ b ∈ tail, b = 10) : tokensUpTo [10] fuel tail = [] := by
  induction tail with
  | nil => cases fuel <;> rfl
  | cons b tail ih =>
    obtain ⟨rfl, hrest⟩ := List.forall_mem_cons.mp h
    rw [tokensUpTo_skip, ih hrest]

/-- A text that ends with the last of some arguments: behind each one stands its newline, but perhaps
behind the last, and there may be more newlines. -/
inductive CutAfter : List (List UInt8) → List UInt8 → Prop where
  | newlines {tail : List UInt8} (h : ∀ b ∈ tail, b = 10) : CutAfter [] tail
  | last (a : List UInt8) : CutAfter [a] a
  | line (a : List UInt8) {args : List (List UInt8)} {text : List UInt8} : CutAfter args text → CutAfter (a :: args) (a ++ 10 :: text)

theorem cutAfter_body (args : List (List UInt8)) : CutAfter args (body args) := by
  induction args with
  | nil => exact .newlines (by simp [body])
  | cons a args ih =>
    rw [body_cons]
    exact .line a ih

theorem tokens_of_cutAfter {args : List (List UInt8)} {text : List UInt8} (h : CutAfter args text) (hargs : ∀ a ∈ args, Plain a) {fuel : Nat}
    (hfuel : args.length ≤ fuel) : tokensUpTo [10] fuel text = args := by
  induction h generalizing fuel with
  | newlines htail => exact tokensUpTo_newlines fuel htail
  | last a =>
    obtain ⟨fuel, rfl⟩ : ∃ f, fuel = f + 1 := ⟨fuel - 1, by simp at hfuel; omega⟩
    obtain ⟨hne, hfree⟩ := hargs a List.mem_cons_self
    exact tokensUpTo_last 10 hne hfree fuel
  | line a _ ih =>
    obtain ⟨fuel, rfl⟩ : ∃ f, fuel = f + 1 := ⟨fuel - 1, by simp at hfuel; omega⟩
    obtain ⟨⟨hne, hfree⟩, hrest⟩ := List.forall_mem_cons.mp hargs
    rw [tokensUpTo_token 10 hne hfree, ih hrest (by simpa using hfuel)]

theorem newlines_of_tokens {fuel : Nat} {text : List UInt8} (h : tokensUpTo [10] (fuel + 1) text = []) : ∀ b ∈ text, b = 10 := by
  intro b hb
  have hnone : text.dropWhile ([10].contains ·) = [] := by
    rw [tokensUpTo] at h
    unfold strtok at h
    cases hdrop : text.dropWhile ([10].contains ·) with
    | nil => rfl
    | cons b rest =>
      rw [hdrop] at h
      cases h
  simpa using List.dropWhile_eq_nil_iff.mp hnone b hb

/-- A cut text of which the first arguments are read back ends with the last of them. -/
theorem cutAfter_of_tokens {args : List (List UInt8)} {fuel : Nat} (hfuel : args.length ≤ fuel) {text : List UInt8} (htext : text <+: body args)
    {i : Nat} (h : tokensUpTo [10] fuel text = args.take i) : CutAfter (args.take i) text := by
  induction args generalizing fuel text i with
  | nil =>
    have hnil : text = [] := List.prefix_nil.mp htext
    rw [List.take_nil, hnil]
    exact .newlines (by simp)
  | cons a args ih =>
    obtain ⟨fuel, rfl⟩ : ∃ f, fuel = f + 1 := ⟨fuel - 1, by simp at hfuel; omega⟩
    cases i with
    | zero => exact .newlines (newlines_of_tokens h)
    | succ i =>
      rw [List.take_succ_cons] at h ⊢
      have hmem : a ∈ tokensUpTo [10] (fuel + 1) text := h ▸ List.mem_cons_self
      obtain ⟨hne, hfree, -⟩ := mem_tokensUpTo hmem
      have hfree : 10 ∉ a := fun hmem => hfree 10 hmem (List.mem_singleton_self 10)
      rw [body_cons] at htext
      rcases Nat.lt_or_ge a.length text.length with hlong | hshort
      · -- the whole first line is there
        obtain ⟨rest, rfl⟩ : ∃ rest, text = a ++ 10 :: rest := by
          have hprefix : a ++ [10] <+: text := by
            apply List.prefix_of_prefix_length_le _ htext (by simpa using hlong)
            exact ⟨body args, by simp⟩
          obtain ⟨rest, rfl⟩ := hprefix
          exact ⟨rest, by simp⟩
        rw [List.prefix_append_right_inj, List.cons_prefix_cons] at htext
        rw [tokensUpTo_token 10 hne hfree] at h
        exact .line a (ih (by simpa using hfuel) htext.2 (List.cons.inj h).2)
      · have hinitial : text <+: a := List.prefix_of_prefix_length_le htext (List.prefix_append _ _) hshort
        have hfree' : 10 ∉ text := fun hmem => hfree (hinitial.subset hmem)
        have hne' : text ≠ [] := by
          intro hnil
          rw [hnil, tokensUpTo_newlines _ (by simp)] at h
          cases h
        rw [tokensUpTo_last 10 hne' hfree'] at h
        obtain ⟨rfl, hnil⟩ := List.cons.inj h
        rw [← hnil]
        exact .last text

/-! ### The next start -/

/-- What the command file gives; nothing if there is none. -/
def fileArgs (commandFile : Option (List UInt8)) : Option (List (List UInt8)) :=
  match commandFile with
  | none => some []
  | some stream => fromFile (MAX_ARGS - 1) stream

/-- The block as it was written gives its arguments back, cut to size, and the command file counts only
if there are none. -/
theorem collect_next (boot : Message) {args : List (List UInt8)} (hargs : ∀ a ∈ args.tail, 0 ∉ a) (argv0 : CString)
    (commandFile : Option (List UInt8)) :
    (collect [argv0] (writeBack boot args) commandFile).map List.tail =
      if tokensUpTo [10] (MAX_ARGS - 1) ((body args.tail).take 1014) = [] then fileArgs commandFile
      else some (tokensUpTo [10] (MAX_ARGS - 1) ((body args.tail).take 1014)) := by
  have htext : (writeBack boot args).recovery.terminate.text = recoveryName ++ 10 :: (body args.tail).take 1014 := by
    rw [text_writeBack boot hargs]
    show (recoveryName ++ [10] ++ body args.tail).take 1023 = _
    rw [List.take_append]
    simp [recoveryName]
  have hfirst : firstArgs [argv0] (writeBack boot args) = recoveryName :: tokensUpTo [10] (MAX_ARGS - 1) ((body args.tail).take 1014) := by
    have hone : [argv0].length ≤ 1 := le_refl 1
    have htok : strtok [10] (recoveryName ++ 10 :: (body args.tail).take 1014) = some (recoveryName, (body args.tail).take 1014) :=
      strtok_token (by simp [recoveryName]) (by simp [recoveryName]) (by simp) _
    unfold firstArgs fromBlock
    rw [if_pos hone, htext, htok]
    rfl
  unfold collect
  rw [hfirst]
  generalize tokensUpTo [10] (MAX_ARGS - 1) ((body args.tail).take 1014) = rest
  cases rest with
  | nil =>
    rw [if_pos (by simp), if_pos rfl]
    cases commandFile with
    | none => rfl
    | some stream => simp [fileArgs, Option.map_map, Function.comp_def]
  | cons a rest => simp

/-- The tokens of a command file can stand in lines. -/
theorem fromFile_spec {left : Nat} {stream : List UInt8} {args : List (List UInt8)} (h : fromFile left stream = some args) :
    args.length ≤ left ∧ ∀ a ∈ args, Plain a ∧ 0 ∉ a := by
  induction left generalizing stream args with
  | zero =>
    obtain rfl := Option.some.inj h
    exact ⟨le_refl _, by simp⟩
  | succ left ih =>
    rw [fromFile] at h
    generalize fgets (MAX_ARG_LENGTH - 1) stream = r at h
    obtain ⟨buf, rest⟩ := r
    dsimp only at h
    split at h
    · obtain rfl := Option.some.inj h
      exact ⟨Nat.zero_le _, by simp⟩
    · cases htok : strtok [13, 10] (buf.takeWhile (· != 0)) with
      | none =>
        rw [htok] at h
        cases h
      | some r =>
        rw [htok] at h
        obtain ⟨rest', hrest, rfl⟩ := Option.map_eq_some_iff.mp h
        obtain ⟨hlength, hplain⟩ := ih hrest
        obtain ⟨hne, hfree, hsub, -⟩ := strtok_some htok
        refine ⟨Nat.succ_le_succ hlength, List.forall_mem_cons.mpr ⟨⟨⟨hne, fun hmem => ?_⟩, fun hmem => ?_⟩, hplain⟩⟩
        · exact hfree 10 hmem (by simp)
        · simpa using List.mem_takeWhile_imp (hsub hmem)

/-- The lines of the command file that are looked at. -/
def lines : (left : Nat) → List UInt8 → List (List UInt8)
  | 0, _ => []
  | left + 1, stream =>
    let (buf, rest) := fgets (MAX_ARG_LENGTH - 1) stream
    if buf = [] then [] else buf :: lines left rest

/-- A line that is not blank: something that is no end of line stands before a NUL. -/
def Legible (line : List UInt8) : Prop := ∃ b ∈ line.takeWhile (· != 0), b ≠ 13 ∧ b ≠ 10

theorem strtok_isSome (text : List UInt8) : (strtok [13, 10] text).isSome ↔ ∃ b ∈ text, b ≠ 13 ∧ b ≠ 10 := by
  unfold strtok
  cases hdrop : text.dropWhile ([13, 10].contains ·) with
  | nil =>
    have hall := List.dropWhile_eq_nil_iff.mp hdrop
    refine iff_of_false Bool.false_ne_true ?_
    intro ⟨b, hb, h13, h10⟩
    have := hall b hb
    simp [h13, h10] at this
  | cons b rest =>
    have hne : text.dropWhile ([13, 10].contains ·) ≠ [] := by rw [hdrop]; exact List.cons_ne_nil b rest
    have hhead := List.head_dropWhile_not _ hne
    simp only [hdrop, List.head_cons] at hhead
    have hmem : b ∈ text := (List.dropWhile_sublist _).subset (hdrop ▸ List.mem_cons_self)
    refine iff_of_true rfl ⟨b, hmem, ?_⟩
    simpa using hhead

theorem fromFile_isSome (left : Nat) (stream : List UInt8) : (fromFile left stream).isSome ↔ ∀ line ∈ lines left stream, Legible line := by
  induction left generalizing stream with
  | zero => simp [fromFile, lines]
  | succ left ih =>
    rw [fromFile, lines]
    generalize fgets (MAX_ARG_LENGTH - 1) stream = r
    obtain ⟨buf, rest⟩ := r
    dsimp only
    split
    · simp
    · rw [List.forall_mem_cons, ← ih rest, Legible, ← strtok_isSome]
      cases strtok [13, 10] (buf.takeWhile (· != 0)) with
      | none => simp
      | some r => simp

theorem plain_of_mem_tokens {fuel : Nat} {text a : List UInt8} (h : a ∈ tokensUpTo [10] fuel text) : Plain a := by
  obtain ⟨hne, hfree, -⟩ := mem_tokensUpTo h
  exact ⟨hne, fun hmem => hfree 10 hmem (by simp)⟩

theorem fromBlock_spec {text : List UInt8} {args : List (List UInt8)} (h : fromBlock text = some args) :
    args.length ≤ MAX_ARGS ∧ ∀ a ∈ args.tail, Plain a ∧ a ⊆ text := by
  unfold fromBlock at h
  cases htok : strtok [10] text with
  | none =>
    rw [htok] at h
    cases h
  | some r =>
    rw [htok] at h
    dsimp only at h
    split at h
    · obtain rfl := Option.some.inj h
      refine ⟨Nat.succ_le_succ (length_tokensUpTo _ _), fun a ha => ⟨plain_of_mem_tokens ha, ?_⟩⟩
      exact List.Subset.trans (mem_tokensUpTo ha).2.2 (strtok_some htok).2.2.2
    · cases h

/-- What the block or the command file gives can stand in lines, and there is not too much of it. -/
theorem collect_spec {argv : List CString} {boot : Message} {commandFile : Option (List UInt8)} {args : List (List UInt8)}
    (h : collect argv boot commandFile = some args) :
    (∀ a ∈ args.tail, 0 ∉ a) ∧ (argv.length ≤ 1 → args.length ≤ MAX_ARGS ∧ ∀ a ∈ args.tail, Plain a) ∧
      (1 < argv.length → args = argv.map CString.bytes) := by
  have hargv : ∀ a ∈ (argv.map CString.bytes).tail, 0 ∉ a := by
    intro a ha
    obtain ⟨s, -, rfl⟩ := List.mem_map.mp (List.mem_of_mem_tail ha)
    exact s.noNul
  have hfirst : (∀ a ∈ (firstArgs argv boot).tail, 0 ∉ a) ∧
      (argv.length ≤ 1 → (firstArgs argv boot).length ≤ MAX_ARGS ∧ ∀ a ∈ (firstArgs argv boot).tail, Plain a) ∧
      (1 < argv.length → firstArgs argv boot = argv.map CString.bytes) := by
    unfold firstArgs
    split
    · rename_i hfew
      have hshort : (argv.map CString.bytes).length ≤ MAX_ARGS ∧ ∀ a ∈ (argv.map CString.bytes).tail, Plain a := by
        have hnil : (argv.map CString.bytes).tail = [] := by
          apply List.eq_nil_of_length_eq_zero
          simp
          omega
        refine ⟨by rw [List.length_map, MAX_ARGS]; omega, by simp [hnil]⟩
      cases hblock : fromBlock boot.recovery.terminate.text with
      | none => exact ⟨hargv, fun _ => hshort, fun hmany => by omega⟩
      | some args =>
        obtain ⟨hlength, hplain⟩ := fromBlock_spec hblock
        refine ⟨fun a ha hzero => ?_, fun _ => ⟨hlength, fun a ha => (hplain a ha).1⟩, fun hmany => by omega⟩
        exact Field.nul_not_mem_text _ ((hplain a ha).2 hzero)
    · rename_i hmany
      exact ⟨hargv, fun hfew => absurd hfew hmany, fun _ => rfl⟩
  unfold collect at h
  dsimp only at h
  split at h
  · rename_i hone
    have hfew : argv.length ≤ 1 := by
      by_contra hmany
      rw [hfirst.2.2 (by omega), List.length_map] at hone
      omega
    cases commandFile with
    | none =>
      obtain rfl := Option.some.inj h
      exact hfirst
    | some stream =>
      obtain ⟨rest, hrest, rfl⟩ := Option.map_eq_some_iff.mp h
      obtain ⟨hlength, hplain⟩ := fromFile_spec hrest
      refine ⟨fun a ha => (hplain a ha).2, fun _ => ⟨Nat.succ_le_succ hlength, fun a ha => (hplain a ha).1⟩, fun hmany => by omega⟩
  · obtain rfl := Option.some.inj h
    exact hfirst

/-! ### Arguments that survive -/

/-- The arguments are found and are not too many; with the block as it is written, the next start
without a command line finds the same, or the first of them if they do not fit into the block. -/
def Survives (argv : List CString) (boot : Message) (commandFile : Option (List UInt8)) : Prop :=
  ∃ args boot', getArgs argv boot commandFile = some (args, boot') ∧ args.length ≤ MAX_ARGS ∧
    ∀ argv0 : CString, ∃ args' boot'', getArgs [argv0] boot' commandFile = some (args', boot'') ∧
      (Fits args.tail → args'.tail = args.tail) ∧ args'.tail <+: args.tail

/-- A block that is cut behind an argument: what is left of the lines ends with the last of the first
`i` arguments; if that is none of them, there is nothing in the command file either. -/
def CutWhole (args : List (List UInt8)) (commandFile : Option (List UInt8)) : Prop :=
  ∃ i, (∀ a ∈ args.take i, Plain a) ∧ CutAfter (args.take i) ((body args).take 1014) ∧ (args.take i = [] → fileArgs commandFile = some [])

/-- The command line is not too long; the lines of the command file, if it is used, are not blank; the
arguments can stand in lines, or else the block is cut behind one. -/
structure Lasting (argv : List CString) (boot : Message) (commandFile : Option (List UInt8)) : Prop where
  few : argv.length ≤ MAX_ARGS
  legible : (firstArgs argv boot).length ≤ 1 → ∀ stream, commandFile = some stream → ∀ line ∈ lines (MAX_ARGS - 1) stream, Legible line
  whole : ∀ args, collect argv boot commandFile = some args →
    (Fits args.tail → ∀ a ∈ args.tail, Plain a) ∧ (¬Fits args.tail → CutWhole args.tail commandFile)

theorem collect_isSome {argv : List CString} {boot : Message} {commandFile : Option (List UInt8)} :
    (collect argv boot commandFile).isSome ↔ ((firstArgs argv boot).length ≤ 1 → ∀ stream, commandFile = some stream →
      ∀ line ∈ lines (MAX_ARGS - 1) stream, Legible line) := by
  unfold collect
  dsimp only
  split
  · rename_i hone
    cases commandFile with
    | none => simp
    | some stream =>
      simp only [Option.isSome_map, hone, forall_const, Option.some.injEq, forall_eq']
      exact fromFile_isSome _ _
  · rename_i hmany
    simp [hmany]

theorem body_fits {args : List (List UInt8)} (h : Fits args) : (body args).take 1014 = body args := by
  apply List.take_of_length_le
  unfold Fits at h
  rw [List.length_append] at h
  have hline : recoveryLine.bytes.length = 9 := rfl
  omega

/-- When no arguments are found, the command file has none. -/
theorem fileArgs_of_none {argv : List CString} {boot : Message} {commandFile : Option (List UInt8)} {args : List (List UInt8)}
    (h : collect argv boot commandFile = some args) (hnone : args.tail = []) : fileArgs commandFile = some [] := by
  unfold collect at h
  dsimp only at h
  split at h
  · cases commandFile with
    | none => rfl
    | some stream =>
      obtain ⟨rest, hrest, rfl⟩ := Option.map_eq_some_iff.mp h
      rw [List.tail_cons] at hnone
      rw [fileArgs, hrest, hnone]
  · rename_i hmany
    obtain rfl := Option.some.inj h
    have := congrArg List.length hnone
    simp at this
    omega

theorem plain_fileArgs {commandFile : Option (List UInt8)} {args : List (List UInt8)} (h : fileArgs commandFile = some args) :
    ∀ a ∈ args, Plain a := by
  cases commandFile with
  | none =>
    obtain rfl := Option.some.inj h
    simp
  | some stream => exact fun a ha => ((fromFile_spec h).2 a ha).1

/-- What the next start finds. -/
theorem next_spec {commandFile : Option (List UInt8)} {args : List (List UInt8)} (hargs : ∀ a ∈ args.tail, 0 ∉ a) (hlength : args.tail.length ≤ MAX_ARGS - 1)
    (hnone : args.tail = [] → fileArgs commandFile = some []) (boot : Message) (argv0 : CString) :
    (∃ args' boot'', getArgs [argv0] (writeBack boot args) commandFile = some (args', boot'') ∧
      (Fits args.tail → args'.tail = args.tail) ∧ args'.tail <+: args.tail) ↔
    (Fits args.tail → ∀ a ∈ args.tail, Plain a) ∧ (¬Fits args.tail → CutWhole args.tail commandFile) := by
  have hnext := collect_next boot hargs argv0 commandFile
  have hget : (∃ args' boot'', getArgs [argv0] (writeBack boot args) commandFile = some (args', boot'') ∧
      (Fits args.tail → args'.tail = args.tail) ∧ args'.tail <+: args.tail) ↔
      ∃ rest, (collect [argv0] (writeBack boot args) commandFile).map List.tail = some rest ∧ (Fits args.tail → rest = args.tail) ∧ rest <+: args.tail := by
    unfold getArgs
    cases collect [argv0] (writeBack boot args) commandFile <;> simp
  rw [hget, hnext]
  generalize args.tail = rest at *
  by_cases hfits : Fits rest
  · simp only [hfits, forall_const, not_true, false_implies, and_true, body_fits hfits]
    constructor
    · intro ⟨found, hfound, heq, _⟩
      subst heq
      split at hfound
      · exact plain_fileArgs hfound
      · obtain hfound := Option.some.inj hfound
        intro a ha
        rw [← hfound] at ha
        exact plain_of_mem_tokens ha
    · intro hplain
      rw [tokens_of_cutAfter (cutAfter_body rest) hplain hlength]
      refine ⟨rest, ?_, rfl, List.prefix_refl _⟩
      split
      · rename_i hnil
        rw [hnone hnil, hnil]
      · rfl
  · simp only [hfits, false_implies, not_false_eq_true, forall_const, true_and]
    constructor
    · intro ⟨found, hfound, hprefix⟩
      have htake : found = rest.take found.length := List.prefix_iff_eq_take.mp hprefix
      split at hfound
      · rename_i hnil
        refine ⟨0, by simp, cutAfter_of_tokens hlength (List.take_prefix _ _) (by simpa using hnil), fun _ => ?_⟩
        cases found with
        | nil => exact hfound
        | cons a found =>
          -- a first argument that the command file gives would stand in the block
          obtain ⟨hne, hfree⟩ := plain_fileArgs hfound a List.mem_cons_self
          obtain ⟨more, rfl⟩ := hprefix
          obtain ⟨b, a, rfl⟩ := List.exists_cons_of_ne_nil hne
          have hb := newlines_of_tokens hnil b (by simp [body_cons])
          exact absurd (by simp [hb]) hfree
      · rename_i hne
        obtain hfound := Option.some.inj hfound
        refine ⟨found.length, ?_, ?_, ?_⟩
        · rw [← htake, ← hfound]
          exact fun a ha => plain_of_mem_tokens ha
        · exact cutAfter_of_tokens hlength (List.take_prefix _ _) (by rw [hfound, ← htake])
        · intro hnil
          rw [← htake, ← hfound] at hnil
          exact absurd hnil hne
    · intro ⟨i, hplain, hcut, hfile⟩
      have htokens := tokens_of_cutAfter hcut hplain (le_trans (List.length_take_le' _ _) hlength)
      rw [htokens]
      refine ⟨rest.take i, ?_, List.take_prefix _ _⟩
      split
      · rename_i hnil
        rw [hfile hnil, hnil]
      · rfl

/-- Arguments survive exactly if they are lasting. -/
theorem args_survive_iff (argv : List CString) (boot : Message) (commandFile : Option (List UInt8)) :
    Survives argv boot commandFile ↔ Lasting argv boot commandFile := by
  have hbound : ∀ {args : List (List UInt8)}, args.length ≤ MAX_ARGS → args.tail.length ≤ MAX_ARGS - 1 := by
    intro args h
    rw [List.length_tail]
    omega
  constructor
  · intro ⟨args, boot', hget, hlength, hnext⟩
    obtain ⟨found, hcollect, hpair⟩ := Option.map_eq_some_iff.mp hget
    obtain ⟨rfl, rfl⟩ := Prod.mk.inj hpair
    obtain ⟨hnul, -, hmany⟩ := collect_spec hcollect
    refine ⟨?_, collect_isSome.mp (by rw [hcollect]; rfl), fun args hargs => ?_⟩
    · rcases Nat.lt_or_ge 1 argv.length with hlt | hge
      · rwa [hmany hlt, List.length_map] at hlength
      · exact le_trans hge (by decide)
    · obtain rfl : found = args := Option.some.inj (hcollect.symm.trans hargs)
      exact (next_spec hnul (hbound hlength) (fileArgs_of_none hcollect) boot "").mp (hnext "")
  · intro h
    obtain ⟨args, hcollect⟩ := Option.isSome_iff_exists.mp (collect_isSome.mpr h.legible)
    obtain ⟨hnul, hfew, hmany⟩ := collect_spec hcollect
    have hlength : args.length ≤ MAX_ARGS := by
      rcases Nat.lt_or_ge 1 argv.length with hlt | hge
      · rw [hmany hlt, List.length_map]
        exact h.few
      · exact (hfew hge).1
    refine ⟨args, writeBack boot args, by rw [getArgs, hcollect]; rfl, hlength, fun argv0 => ?_⟩
    exact (next_spec hnul (hbound hlength) (fileArgs_of_none hcollect) boot argv0).mpr (h.whole args hcollect)

/-- A command file with a blank line: a missing token is used. -/
theorem not_survives_blank : ¬Survives ["recovery"] ⟨Field.zero 32, Field.zero 32, Field.zero 1024⟩ (some [10]) := by
  intro ⟨args, boot', hget, _⟩
  have hnone : collect ["recovery"] ⟨Field.zero 32, Field.zero 32, Field.zero 1024⟩ (some [10]) = none := by decide
  rw [getArgs, hnone] at hget
  cases hget

end Twrp.Boot
