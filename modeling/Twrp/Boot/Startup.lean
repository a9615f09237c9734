import Twrp.Boot.Args

/-! What recovery does with its arguments (`main` of twrp.cpp).

An option is known by its first letter, after at most two dashes, and its value by the first `=`. What they
ask for is written to a script, which is run later: a backup or a restore, an installation, a wipe. Each
of these commands opens the script anew. -/
namespace Twrp.Boot.Startup
open Base

/-- What the scan of the arguments finds. -/
structure Scan where
  zipFile : List UInt8 := []
  rebootValue : List UInt8 := []
  restoreFile : List UInt8 := []
  partitionCmd : List UInt8 := []
  cacheWipe : Bool := false
  factoryReset : Bool := false
  performBackup : Bool := false
  performRestore : Bool := false
  finishSDCardPartitioning : Bool := false

/-- The argument behind one dash, if there is one. -/
def skipDash : List UInt8 → List UInt8
  | 45 :: rest => rest
  | arg => arg

def argptr (arg : CString) : List UInt8 := skipDash (skipDash arg.bytes)

/-- The search for `=` or a newline: the byte found and what stands behind it; `none` where it runs past
the end of the argument. -/
def stop (arg : CString) : Option (UInt8 × List UInt8) :=
  match (argptr arg).dropWhile fun b => b != 61 && b != 10 with
  | [] => none
  | b :: rest => some (b, rest)

/-- One argument; `none` where the search runs past its end. -/
def scanArg (s : Scan) (arg : CString) : Option Scan :=
  match (argptr arg).head? with
  | some 117 => do -- u
    let (b, rest) ← stop arg
    let ptr := (b :: rest).dropWhile (· == 61)
    if ptr = [] then pure s else pure { s with zipFile := ptr }
  | some 119 => -- w
    if (argptr arg).length = 9 then some { s with factoryReset := true }
    else if (argptr arg).length = 10 then some { s with cacheWipe := true }
    else some s
  | some 110 => some { s with performBackup := true } -- n
  | some 115 => do -- s
    let (b, _) ← stop arg
    pure { s with rebootValue := [b] }
  | some 114 => do -- r
    let (b, _) ← stop arg
    pure { s with performRestore := true, restoreFile := [b] }
  | some 112 => do -- p
    let (b, _) ← stop arg
    pure { s with finishSDCardPartitioning := true, partitionCmd := [b] }
  | _ => some s

def backupCommand : CString := "backup BSDCAE\n"
def restoreCommand : CString := "restore "
def installCommand : CString := "install "
def wipeDataCommand : CString := "wipe data\n"
def wipeCacheCommand : CString := "wipe cache\n"

/-- `Insert_ORS_Command`: whether the script could be opened, and the script. -/
def insertOrsCommand (opens : Bool) (file : Option (List UInt8)) (command : List UInt8) : Bool × Option (List UInt8) :=
  if opens then (true, some command) else (false, file)

/-- The script after the commands for what was found. -/
def createScript (opens : Bool) (s : Scan) (file : Option (List UInt8)) : Option (List UInt8) :=
  let (keepGoing, file) :=
    if s.performBackup then insertOrsCommand opens file backupCommand.bytes
    else if s.performRestore ∧ s.restoreFile ≠ [] then insertOrsCommand opens file (restoreCommand.bytes ++ s.restoreFile)
    else (true, file)
  let (keepGoing, file) :=
    if keepGoing ∧ s.zipFile ≠ [] then insertOrsCommand opens file (installCommand.bytes ++ s.zipFile) else (keepGoing, file)
  if keepGoing then
    if s.factoryReset then (insertOrsCommand opens file wipeDataCommand.bytes).2
    else if s.cacheWipe then (insertOrsCommand opens file wipeCacheCommand.bytes).2
    else file
  else file

/-- The script `main` leaves, from the one that was there; `none` where it reads past the end of an
argument. -/
def startup (opens : Bool) (args : List CString) (file : Option (List UInt8)) : Option (Option (List UInt8)) :=
  (args.foldlM scanArg {}).map (createScript opens · file)

/-! ### What is asked for -/

def letter (c : UInt8) (arg : CString) : Bool := (argptr arg).head? = some c

/-- The text of an option: what stands behind its `=`, where that is not empty. -/
def value (arg : CString) : Option (List UInt8) :=
  match stop arg with
  | some (61, b :: rest) => some (b :: rest)
  | _ => none

/-- The text of an option that may be given more than once: the last one counts. -/
def lastValue (c : UInt8) (args : List CString) : Option (List UInt8) :=
  args.reverse.findSome? fun arg => if letter c arg then value arg else none

def asksBackup (args : List CString) : Bool := args.any (letter 110 ·)

/-- `--wipe_data` is as long as no other such option. -/
def asksReset (args : List CString) : Bool := args.any fun arg => letter 119 arg && (argptr arg).length == 9

def asksCacheWipe (args : List CString) : Bool := args.any fun arg => letter 119 arg && (argptr arg).length == 10

/-- The command lines that should be in the script. -/
def expected (args : List CString) : List (List UInt8) :=
  (if asksBackup args then [backupCommand.bytes.dropLast]
    else ((lastValue 114 args).map (restoreCommand.bytes ++ ·)).toList) ++
  ((lastValue 117 args).map (installCommand.bytes ++ ·)).toList ++
  (if asksReset args then [wipeDataCommand.bytes.dropLast]
    else if asksCacheWipe args then [wipeCacheCommand.bytes.dropLast] else [])

/-- No argument is read past its end, and the lines of the script are the commands; without any, the
script is left alone. -/
def Reaches (opens : Bool) (args : List CString) : Prop :=
  ∀ file, ∃ left, startup opens args file = some left ∧
    if expected args = [] then left = file else ∃ text, left = some text ∧ tokens [10] text = expected args

/-! ### The scan -/

/-- The arguments whose value is searched for have a place to stop. -/
def InBounds (args : List CString) : Prop :=
  ∀ arg ∈ args, (letter 117 arg ∨ letter 115 arg ∨ letter 114 arg ∨ letter 112 arg) → (stop arg).isSome

/-- What is taken as the file to install. -/
def taken (arg : CString) : List UInt8 := (stop arg).elim [] fun (b, rest) => (b :: rest).dropWhile (· == 61)

/-- The file to install after some arguments, the last one first. -/
def lastTaken : List CString → List UInt8
  | [] => []
  | arg :: args => if letter 117 arg ∧ taken arg ≠ [] then taken arg else lastTaken args

/-- The last argument that is a restore. -/
def lastRestore (args : List CString) : Option CString := args.reverse.find? (letter 114 ·)

/-- The scan after some arguments. -/
structure ScanOf (s : Scan) (args : List CString) : Prop where
  zipFile : s.zipFile = lastTaken args.reverse
  restoreFile : s.restoreFile = ((lastRestore args).bind stop).elim [] fun r => [r.1]
  performRestore : s.performRestore = (lastRestore args).isSome
  performBackup : s.performBackup = asksBackup args
  factoryReset : s.factoryReset = asksReset args
  cacheWipe : s.cacheWipe = asksCacheWipe args

theorem scanArg_spec {s s' : Scan} {args : List CString} {arg : CString} (hs : ScanOf s args) (h : scanArg s arg = some s') :
    ScanOf s' (args ++ [arg]) ∧ InBounds [arg] := by
  obtain ⟨hzip, hfile, hrestore, hbackup, hreset, hcache⟩ := hs
  unfold scanArg at h
  split at h
  · cases hstop : stop arg with
    | none => simp [hstop] at h
    | some r =>
      have htaken : taken arg = (r.1 :: r.2).dropWhile (· == 61) := by simp [taken, hstop]
      simp only [hstop, Option.bind_eq_bind, Option.bind_some] at h
      rw [← htaken] at h
      clear htaken
      refine ⟨?_, by simp [InBounds, hstop]⟩
      split at h <;> obtain rfl := Option.some.inj h <;>
        constructor <;> simp_all [letter, lastTaken, lastRestore, asksBackup, asksReset, asksCacheWipe]
  · refine ⟨?_, by simp_all [InBounds, letter]⟩
    split at h
    · obtain rfl := Option.some.inj h
      constructor <;> simp_all [letter, lastTaken, lastRestore, asksBackup, asksReset, asksCacheWipe]
    split at h <;> obtain rfl := Option.some.inj h <;>
      constructor <;> simp_all [letter, lastTaken, lastRestore, asksBackup, asksReset, asksCacheWipe]
  · obtain rfl := Option.some.inj h
    refine ⟨?_, by simp_all [InBounds, letter]⟩
    constructor <;> simp_all [letter, lastTaken, lastRestore, asksBackup, asksReset, asksCacheWipe]
  iterate 3
    cases hstop : stop arg with
    | none => simp [hstop] at h
    | some r =>
      simp only [hstop, Option.bind_eq_bind, Option.bind_some] at h
      obtain rfl := Option.some.inj h
      refine ⟨?_, by simp [InBounds, hstop]⟩
      constructor <;> simp_all [letter, lastTaken, lastRestore, asksBackup, asksReset, asksCacheWipe]
  · obtain rfl := Option.some.inj h
    refine ⟨?_, by simp_all [InBounds, letter]⟩
    constructor <;> simp_all [letter, lastTaken, lastRestore, asksBackup, asksReset, asksCacheWipe]

theorem scanArg_isSome (s : Scan) {arg : CString} (h : InBounds [arg]) : (scanArg s arg).isSome := by
  cases hstop : stop arg with
  | none =>
    have hletter := mt (h arg (List.mem_singleton_self arg)) (by simp [hstop])
    unfold scanArg
    split
    case h_2 => repeat' (split <;> try rfl)
    all_goals simp_all [letter]
  | some r =>
    simp only [scanArg, hstop, Option.bind_eq_bind, Option.bind_some, pure]
    repeat' (split <;> try rfl)

theorem inBounds_append {args args' : List CString} : InBounds (args ++ args') ↔ InBounds args ∧ InBounds args' :=
  List.forall_mem_append

/-- The scan of all arguments comes to an end where none is read past its end, and is then as told. -/
theorem scan_spec (args : List CString) :
    (∀ s, args.foldlM scanArg {} = some s → InBounds args ∧ ScanOf s args) ∧
    (InBounds args → ∃ s, args.foldlM scanArg {} = some s) := by
  induction args using List.reverseRecOn with
  | nil =>
    constructor
    · intro s hs
      obtain rfl := Option.some.inj hs
      exact ⟨by simp [InBounds], rfl, rfl, rfl, rfl, rfl, rfl⟩
    · intro _
      exact ⟨{}, rfl⟩
  | append_singleton args arg ih =>
    rw [List.foldlM_append, inBounds_append]
    constructor
    · intro s hs
      obtain ⟨s₁, hs₁, hs⟩ := Option.bind_eq_some_iff.mp hs
      have hlast : scanArg s₁ arg = some s := by simpa using hs
      obtain ⟨hin, hof⟩ := ih.1 s₁ hs₁
      obtain ⟨hof', hin'⟩ := scanArg_spec hof hlast
      exact ⟨⟨hin, hin'⟩, hof'⟩
    · intro ⟨hin, hin'⟩
      obtain ⟨s₁, hs₁⟩ := ih.2 hin
      obtain ⟨s, hs⟩ := Option.isSome_iff_exists.mp (scanArg_isSome s₁ hin')
      exact ⟨s, by simp [hs₁, hs]⟩

/-! ### The script that is left -/

/-- The command that is written last. -/
def lastCommand (args : List CString) : Option (List UInt8) :=
  if asksReset args then some wipeDataCommand.bytes
  else if asksCacheWipe args then some wipeCacheCommand.bytes
  else if lastTaken args.reverse ≠ [] then some (installCommand.bytes ++ lastTaken args.reverse)
  else if asksBackup args then some backupCommand.bytes
  else ((lastRestore args).bind stop).map fun r => restoreCommand.bytes ++ [r.1]

theorem stop_of_lastRestore {args : List CString} (hin : InBounds args) {arg : CString} (h : lastRestore args = some arg) :
    ∃ r, stop arg = some r := by
  have hmem := List.mem_of_find?_eq_some h
  have hletter := List.find?_some h
  exact Option.isSome_iff_exists.mp (hin arg (List.mem_reverse.mp hmem) (.inr (.inr (.inl hletter))))

theorem createScript_eq {s : Scan} {args : List CString} (hs : ScanOf s args) (hin : InBounds args) (file : Option (List UInt8)) :
    createScript true s file = (lastCommand args).or file := by
  obtain ⟨hzip, hfile, hrestore, hbackup, hreset, hcache⟩ := hs
  unfold createScript lastCommand
  simp only [insertOrsCommand, hbackup, hreset, hcache, hzip, hfile, hrestore]
  cases hlast : lastRestore args with
  | none =>
    cases asksReset args <;> cases asksCacheWipe args <;> cases asksBackup args <;>
      by_cases htaken : lastTaken args.reverse = [] <;> simp [htaken]
  | some arg =>
    obtain ⟨r, hr⟩ := stop_of_lastRestore hin hlast
    cases asksReset args <;> cases asksCacheWipe args <;> cases asksBackup args <;>
      by_cases htaken : lastTaken args.reverse = [] <;> simp [htaken, hr]

theorem createScript_closed (s : Scan) (file : Option (List UInt8)) : createScript false s file = file := by
  unfold createScript
  simp only [insertOrsCommand]
  repeat' (split <;> try simp_all)

/-- The lines of the script that is left, where there was none. -/
def leftLines (args : List CString) : List (List UInt8) := (lastCommand args).elim [] (tokens [10])

/-- A line in front, whatever follows. -/
theorem tokens_line {line : List UInt8} (hne : line ≠ []) (hline : 10 ∉ line) (rest : List UInt8) :
    tokens [10] (line ++ rest) = (line ++ rest.takeWhile (· != 10)) :: tokens [10] (rest.dropWhile (· != 10)) := by
  rw [tokens_splitOn, tokens_splitOn]
  by_cases hmem : 10 ∈ rest
  · obtain ⟨front, back, rfl, hfront⟩ := List.eq_append_cons_of_mem hmem
    have hpos : ∀ b ∈ front, (b != 10) = true := by
      intro b hb
      rw [bne_iff_ne]
      rintro rfl
      exact hfront hb
    rw [List.takeWhile_append_of_pos hpos, List.dropWhile_append_of_pos hpos, ← List.append_assoc,
      List.splitOn_append_cons_self_of_not_mem (by simp [hline, hfront])]
    simp [hne, List.splitOn_cons_eq_if_modifyHead]
  · have hpos : ∀ b ∈ rest, (b != 10) = true := by
      intro b hb
      rw [bne_iff_ne]
      rintro rfl
      exact hmem hb
    rw [List.takeWhile_eq_self_iff.mpr hpos, List.dropWhile_eq_nil_iff.mpr hpos, List.splitOn_eq_singleton (by simp [hline, hmem])]
    simp [hne]

theorem tokens_install (zip : List UInt8) :
    tokens [10] (installCommand.bytes ++ zip) =
      (installCommand.bytes ++ zip.takeWhile (· != 10)) :: tokens [10] (zip.dropWhile (· != 10)) :=
  tokens_line (by decide) (by decide) zip

theorem tokens_restore (file : List UInt8) :
    tokens [10] (restoreCommand.bytes ++ file) =
      (restoreCommand.bytes ++ file.takeWhile (· != 10)) :: tokens [10] (file.dropWhile (· != 10)) :=
  tokens_line (by decide) (by decide) file

theorem tokens_backup : tokens [10] backupCommand.bytes = [backupCommand.bytes.dropLast] := by decide

theorem tokens_wipeData : tokens [10] wipeDataCommand.bytes = [wipeDataCommand.bytes.dropLast] := by decide

theorem tokens_wipeCache : tokens [10] wipeCacheCommand.bytes = [wipeCacheCommand.bytes.dropLast] := by decide

theorem leftLines_eq_nil {args : List CString} : leftLines args = [] ↔ lastCommand args = none := by
  unfold leftLines lastCommand
  split
  · simp [tokens_wipeData]
  split
  · simp [tokens_wipeCache]
  split
  · simp [tokens_install]
  split
  · simp [tokens_backup]
  · cases (lastRestore args).bind stop <;> simp [tokens_restore]

/-- The text of the option can be told apart from what surrounds it, and is one line. -/
def PlainText (arg : CString) : Prop := ∃ b rest, stop arg = some (61, b :: rest) ∧ b ≠ 61 ∧ 10 ∉ b :: rest

/-- The last argument that gives a file to install, or would. -/
def lastGiving (args : List CString) : Option CString := args.reverse.find? fun arg => letter 117 arg && stop arg != some (61, [])

/-- One command is asked for, and it is one that `main` gets right. -/
def Kept (opens : Bool) (args : List CString) : Prop :=
  InBounds args ∧
    if opens = false then expected args = []
    else if asksReset args ∨ asksCacheWipe args then
      asksBackup args = false ∧ lastValue 114 args = none ∧ lastValue 117 args = none
    else
      match lastGiving args with
      | some arg => asksBackup args = false ∧ lastValue 114 args = none ∧ PlainText arg
      | none =>
        asksBackup args = true ∨
        match lastRestore args with
        | some arg => (stop arg).map Prod.fst = some 61 ∧ lastValue 114 args = some [61]
        | none => True

/-- The commands reach the script when the last of them, alone, is all that was asked for. -/
theorem reaches_iff (opens : Bool) (args : List CString) :
    Reaches opens args ↔ InBounds args ∧ if opens = false then expected args = [] else leftLines args = expected args := by
  constructor
  · intro h
    have hin : InBounds args := by
      obtain ⟨left, hleft, _⟩ := h none
      obtain ⟨s, hs, _⟩ := Option.map_eq_some_iff.mp hleft
      exact ((scan_spec args).1 s hs).1
    refine ⟨hin, ?_⟩
    obtain ⟨s, hs⟩ := (scan_spec args).2 hin
    obtain ⟨_, hof⟩ := (scan_spec args).1 s hs
    obtain ⟨left, hleft, hlines⟩ := h none
    rw [startup, hs, Option.map_some] at hleft
    obtain rfl := Option.some.inj hleft
    cases opens with
    | false =>
      rw [createScript_closed] at hlines
      rw [if_pos rfl]
      by_contra hne
      rw [if_neg hne] at hlines
      obtain ⟨text, htext, _⟩ := hlines
      cases htext
    | true =>
      rw [createScript_eq hof hin, Option.or_none] at hlines
      rw [if_neg (by decide)]
      split at hlines
      · rename_i hnil
        rw [hnil, leftLines_eq_nil, hlines]
      · obtain ⟨text, htext, htokens⟩ := hlines
        rw [leftLines, htext, ← htokens]
        rfl
  · intro ⟨hin, hlines⟩ file
    obtain ⟨s, hs⟩ := (scan_spec args).2 hin
    obtain ⟨_, hof⟩ := (scan_spec args).1 s hs
    refine ⟨createScript opens s file, by rw [startup, hs, Option.map_some], ?_⟩
    cases opens with
    | false =>
      rw [if_pos rfl] at hlines
      rw [if_pos hlines, createScript_closed]
    | true =>
      rw [if_neg (by decide)] at hlines
      rw [createScript_eq hof hin]
      split
      · rename_i hnil
        rw [leftLines_eq_nil.mp (hlines.trans hnil), Option.none_or]
      · rename_i hne
        rw [← hlines, leftLines] at hne ⊢
        cases hlast : lastCommand args with
        | none => simp [hlast] at hne
        | some text => exact ⟨text, rfl, rfl⟩

/-! ### The one command that is asked for -/

theorem stop_mem {arg : CString} {b : UInt8} {rest : List UInt8} (h : stop arg = some (b, rest)) : b = 61 ∨ b = 10 := by
  unfold stop at h
  cases hdrop : (argptr arg).dropWhile fun b => b != 61 && b != 10 with
  | nil =>
    rw [hdrop] at h
    cases h
  | cons c left =>
    rw [hdrop] at h
    obtain ⟨rfl, rfl⟩ := Prod.mk.inj (Option.some.inj h)
    have hne : (argptr arg).dropWhile (fun b => b != 61 && b != 10) ≠ [] := by simp [hdrop]
    have hhead := List.head_dropWhile_not _ hne
    simp only [hdrop, List.head_cons] at hhead
    by_cases h61 : c = 61
    · exact .inl h61
    · right
      simpa [h61] using hhead

theorem lastValue_ne_nil {c : UInt8} {args : List CString} {z : List UInt8} (h : lastValue c args = some z) : z ≠ [] := by
  obtain ⟨arg, _, harg⟩ := List.exists_of_findSome?_eq_some h
  split at harg
  · unfold value at harg
    split at harg
    · obtain rfl := Option.some.inj harg
      exact List.cons_ne_nil _ _
    · cases harg
  · cases harg

/-- What is taken never starts with an equals sign. -/
theorem lastTaken_head {l : List CString} {b : UInt8} {rest : List UInt8} (h : lastTaken l = b :: rest) : b ≠ 61 := by
  induction l with
  | nil => cases h
  | cons arg l ih =>
    rw [lastTaken] at h
    split at h
    · unfold taken at h
      cases hstop : stop arg with
      | none => simp [hstop] at h
      | some r =>
        simp only [hstop, Option.elim_some] at h
        have hne : (r.1 :: r.2).dropWhile (· == 61) ≠ [] := by simp [h]
        have hhead := List.head_dropWhile_not _ hne
        simp only [h, List.head_cons] at hhead
        simpa using hhead
    · exact ih h

/-- Without such an argument there is no file to install. -/
theorem of_lastGiving_none {args : List CString} (h : lastGiving args = none) :
    lastTaken args.reverse = [] ∧ lastValue 117 args = none := by
  unfold lastGiving at h
  unfold lastValue
  generalize args.reverse = l at h ⊢
  induction l with
  | nil => exact ⟨rfl, rfl⟩
  | cons arg l ih =>
    obtain ⟨harg, hrest⟩ := List.forall_mem_cons.mp (List.find?_eq_none.mp h)
    obtain ⟨htaken, hvalue⟩ := ih (List.find?_eq_none.mpr hrest)
    by_cases hletter : letter 117 arg = true
    · have hstop : stop arg = some (61, []) := by simpa [hletter] using harg
      have hnone : value arg = none := by simp [value, hstop]
      have hempty : taken arg = [] := by simp [taken, hstop]
      rw [lastTaken, if_neg (by simp [hempty]), List.findSome?_cons, if_pos hletter, hnone]
      exact ⟨htaken, hvalue⟩
    · simp [lastTaken, hletter, htaken, hvalue]

/-- Such an argument decides on the file to install. -/
theorem of_lastGiving_some {args : List CString} {arg : CString} (h : lastGiving args = some arg) :
    (taken arg ≠ [] → lastTaken args.reverse = taken arg) ∧ ∀ z, value arg = some z → lastValue 117 args = some z := by
  unfold lastGiving at h
  unfold lastValue
  generalize args.reverse = l at h ⊢
  induction l with
  | nil => cases h
  | cons a l ih =>
    rw [List.find?_cons] at h
    split at h
    · rename_i ha
      obtain rfl := Option.some.inj h
      have hletter : letter 117 a = true := (Bool.and_eq_true_iff.mp ha).1
      constructor
      · intro htaken
        simp [lastTaken, hletter, htaken]
      · intro z hz
        simp [hletter, hz]
    · rename_i ha
      obtain ⟨htaken, hvalue⟩ := ih h
      by_cases hletter : letter 117 a = true
      · have hstop : stop a = some (61, []) := by simpa [hletter] using ha
        simpa [lastTaken, hletter, taken, value, hstop] using ⟨htaken, hvalue⟩
      · simpa [lastTaken, hletter] using ⟨htaken, hvalue⟩

/-- The line of a backup or a restore, which the first command is. -/
def firstLine (args : List CString) : List (List UInt8) :=
  if asksBackup args then [backupCommand.bytes.dropLast] else ((lastValue 114 args).map (restoreCommand.bytes ++ ·)).toList

theorem firstLine_eq_nil {args : List CString} : firstLine args = [] ↔ asksBackup args = false ∧ lastValue 114 args = none := by
  unfold firstLine
  cases asksBackup args <;> simp

theorem install_ne_backup (zip : List UInt8) : installCommand.bytes ++ zip ≠ backupCommand.bytes.dropLast := by
  intro h
  have hhead : some (105 : UInt8) = some 98 := congrArg List.head? h
  exact absurd hhead (by decide)

theorem install_ne_restore (zip file : List UInt8) : installCommand.bytes ++ zip ≠ restoreCommand.bytes ++ file := by
  intro h
  have hhead : some (105 : UInt8) = some 114 := congrArg List.head? h
  exact absurd hhead (by decide)

/-- It is no line of an installation. -/
theorem not_installs_of_mem_firstLine {args : List CString} {line : List UInt8} (h : line ∈ firstLine args) (zip : List UInt8) :
    line ≠ installCommand.bytes ++ zip := by
  intro heq
  unfold firstLine at h
  split at h
  · exact install_ne_backup zip (heq.symm.trans (List.mem_singleton.mp h))
  · obtain ⟨file, _, hfile⟩ := Option.map_eq_some_iff.mp (Option.mem_toList.mp h)
    exact install_ne_restore zip file (heq.symm.trans hfile.symm)

def zipLine (args : List CString) : List (List UInt8) := ((lastValue 117 args).map (installCommand.bytes ++ ·)).toList

theorem zipLine_eq_nil {args : List CString} : zipLine args = [] ↔ lastValue 117 args = none := by
  simp [zipLine]

section Wiped
variable {args : List CString}

/-- A wipe is all that is left, and may be all that is asked for. -/
theorem leftLines_eq_iff_of_wipe (hwipe : asksReset args ∨ asksCacheWipe args) :
    leftLines args = expected args ↔ asksBackup args = false ∧ lastValue 114 args = none ∧ lastValue 117 args = none := by
  have hwiped : ∃ line, leftLines args = [line] ∧ expected args = firstLine args ++ zipLine args ++ [line] := by
    by_cases hreset : asksReset args = true
    · refine ⟨wipeDataCommand.bytes.dropLast, ?_, ?_⟩
      · simp [leftLines, lastCommand, hreset, tokens_wipeData]
      · simp [expected, firstLine, zipLine, hreset]
    · have hcache := hwipe.resolve_left hreset
      refine ⟨wipeCacheCommand.bytes.dropLast, ?_, ?_⟩
      · simp [leftLines, lastCommand, hreset, hcache, tokens_wipeCache]
      · simp [expected, firstLine, zipLine, hreset, hcache]
  obtain ⟨line, hleft, hexpected⟩ := hwiped
  rw [hleft, hexpected, ← and_assoc, ← firstLine_eq_nil, ← zipLine_eq_nil, ← List.append_eq_nil_iff]
  constructor
  · intro h
    exact (List.append_cancel_right (show [] ++ _ = _ from h)).symm
  · intro h
    rw [h]
    rfl

/-- Without a wipe an installation is all that is left, or else the first command. -/
theorem leftLines_of_not_wipe (hwipe : ¬ (asksReset args ∨ asksCacheWipe args)) : leftLines args =
    if lastTaken args.reverse ≠ [] then tokens [10] (installCommand.bytes ++ lastTaken args.reverse)
    else if asksBackup args then [backupCommand.bytes.dropLast]
    else ((lastRestore args).bind stop).elim [] fun r => tokens [10] (restoreCommand.bytes ++ [r.1]) := by
  obtain ⟨hreset, hcache⟩ := not_or.mp hwipe
  unfold leftLines lastCommand
  rw [if_neg hreset, if_neg hcache]
  split
  · rfl
  split
  · exact tokens_backup
  · cases (lastRestore args).bind stop <;> rfl

theorem expected_of_not_wipe (hwipe : ¬ (asksReset args ∨ asksCacheWipe args)) : expected args = firstLine args ++ zipLine args := by
  obtain ⟨hreset, hcache⟩ := not_or.mp hwipe
  simp [expected, firstLine, zipLine, hreset, hcache]

/-- An installation in front is the one that is asked for. -/
theorem lastValue_of_head {t : List UInt8} {lines : List (List UInt8)}
    (h : (installCommand.bytes ++ t) :: lines = firstLine args ++ zipLine args) : lastValue 117 args = some t := by
  cases hfirst : firstLine args with
  | cons line rest =>
    rw [hfirst] at h
    have hline : line ∈ firstLine args := by simp [hfirst]
    exact absurd (List.cons.inj h).1.symm (not_installs_of_mem_firstLine hline t)
  | nil =>
    rw [hfirst, List.nil_append, zipLine] at h
    cases hvalue : lastValue 117 args with
    | none => simp [hvalue] at h
    | some z =>
      rw [hvalue] at h
      rw [List.append_cancel_left (List.cons.inj h).1]

theorem tokens_restore_stop {arg : CString} {r : UInt8 × List UInt8} (h : stop arg = some r) :
    tokens [10] (restoreCommand.bytes ++ [r.1]) = [if r.1 = 61 then restoreCommand.bytes ++ [61] else restoreCommand.bytes] := by
  rcases stop_mem (show stop arg = some (r.1, r.2) from h) with h61 | h10
  · rw [h61]
    decide
  · rw [h10]
    decide

/-- A text that is not plain is not installed as it is. -/
theorem leftLines_ne_of_not_plain (hin : InBounds args) (hwipe : ¬ (asksReset args ∨ asksCacheWipe args)) {arg : CString}
    (hlast : lastGiving args = some arg) (hplain : ¬ PlainText arg) : leftLines args ≠ expected args := by
  rw [leftLines_of_not_wipe hwipe, expected_of_not_wipe hwipe]
  obtain ⟨htaken, hvalue⟩ := of_lastGiving_some hlast
  have hgiving := List.find?_some (show args.reverse.find? _ = some arg from hlast)
  obtain ⟨hletter, hne⟩ := Bool.and_eq_true_iff.mp hgiving
  have hmem : arg ∈ args := List.mem_reverse.mp (List.mem_of_find?_eq_some hlast)
  obtain ⟨⟨b, rest⟩, hstop⟩ := Option.isSome_iff_exists.mp (hin arg hmem (.inl hletter))
  rcases stop_mem hstop with rfl | rfl
  · cases rest with
    | nil => simp [hstop] at hne
    | cons c rest =>
      have hz : lastValue 117 args = some (c :: rest) := hvalue _ (by simp [value, hstop])
      cases hfile : lastTaken args.reverse with
      | nil =>
        have hzip : installCommand.bytes ++ c :: rest ∈ firstLine args ++ zipLine args := by
          simp [zipLine, hz]
        intro h
        rw [← h, if_neg (by simp)] at hzip
        split at hzip
        · exact install_ne_backup _ (List.mem_singleton.mp hzip)
        · cases hrestore : lastRestore args with
          | none => simp [hrestore] at hzip
          | some arg =>
            obtain ⟨r, hr⟩ := stop_of_lastRestore hin hrestore
            simp only [hrestore, Option.bind_some, hr, Option.elim_some, tokens_restore_stop hr] at hzip
            have hline := List.mem_singleton.mp hzip
            split at hline
            · exact install_ne_restore _ _ hline
            · exact install_ne_restore _ [] (hline.trans (List.append_nil _).symm)
      | cons d file =>
        intro h
        rw [if_pos (by simp), tokens_install] at h
        have ht := Option.some.inj (hz.symm.trans (lastValue_of_head h))
        by_cases hd : d = 10
        · simp [hd] at ht
        · rw [List.takeWhile_cons_of_pos (by simpa using hd)] at ht
          refine hplain ⟨c, rest, hstop, ?_, ?_⟩
          · rw [(List.cons.inj ht).1]
            exact lastTaken_head hfile
          · rw [ht, ← List.takeWhile_cons_of_pos (p := fun b => b != 10) (by simpa using hd)]
            intro h10
            simpa using List.mem_takeWhile_imp h10
  · have hfile : lastTaken args.reverse = 10 :: rest := by
      have h10 : taken arg = 10 :: rest := by simp [taken, hstop]
      rw [htaken (by simp [h10]), h10]
    intro h
    rw [if_pos (by simp [hfile]), hfile, tokens_install] at h
    exact lastValue_ne_nil (lastValue_of_head h) rfl

theorem leftLines_eq_iff_of_giving (hin : InBounds args) (hwipe : ¬ (asksReset args ∨ asksCacheWipe args)) {arg : CString}
    (hlast : lastGiving args = some arg) :
    leftLines args = expected args ↔ asksBackup args = false ∧ lastValue 114 args = none ∧ PlainText arg := by
  by_cases hplain : PlainText arg
  · rw [and_iff_left hplain, ← firstLine_eq_nil]
    obtain ⟨b, rest, hstop, hb, hfree⟩ := hplain
    obtain ⟨htaken, hvalue⟩ := of_lastGiving_some hlast
    have hrest : taken arg = b :: rest := by simp [taken, hstop, hb]
    have hzip : zipLine args = [installCommand.bytes ++ b :: rest] := by
      rw [zipLine, hvalue (b :: rest) (by simp [value, hstop])]
      rfl
    have hleft : leftLines args = [installCommand.bytes ++ b :: rest] := by
      have hpos : ∀ x ∈ b :: rest, (x != 10) = true := by
        intro x hx
        rw [bne_iff_ne]
        rintro rfl
        exact hfree hx
      rw [leftLines_of_not_wipe hwipe, htaken (by simp [hrest]), hrest, if_pos (by simp), tokens_install,
        List.takeWhile_eq_self_iff.mpr hpos, List.dropWhile_eq_nil_iff.mpr hpos]
      rfl
    rw [hleft, expected_of_not_wipe hwipe, hzip]
    constructor
    · intro h
      exact (List.append_cancel_right (show [] ++ _ = _ from h)).symm
    · intro h
      rw [h]
      rfl
  · exact iff_of_false (leftLines_ne_of_not_plain hin hwipe hlast hplain) fun h => hplain h.2.2

/-- The first command is left alone, and right where it is a backup. -/
theorem leftLines_eq_iff_of_not_giving (hin : InBounds args) (hwipe : ¬ (asksReset args ∨ asksCacheWipe args))
    (hlast : lastGiving args = none) :
    leftLines args = expected args ↔
      asksBackup args = true ∨
      match lastRestore args with
      | some arg => (stop arg).map Prod.fst = some 61 ∧ lastValue 114 args = some [61]
      | none => True := by
  obtain ⟨htaken, hvalue⟩ := of_lastGiving_none hlast
  rw [leftLines_of_not_wipe hwipe, expected_of_not_wipe hwipe, htaken, if_neg (by simp), zipLine_eq_nil.mpr hvalue,
    List.append_nil, firstLine]
  cases hbackup : asksBackup args with
  | true => simp
  | false =>
    cases hrestore : lastRestore args with
    | none =>
      have hnone : lastValue 114 args = none := by
        apply List.findSome?_eq_none_iff.mpr
        intro arg harg
        rw [if_neg (List.find?_eq_none.mp hrestore arg harg)]
      simp [hnone]
    | some arg =>
      obtain ⟨r, hr⟩ := stop_of_lastRestore hin hrestore
      simp only [Option.bind_some, hr, Option.elim_some, tokens_restore_stop hr]
      cases hfile : lastValue 114 args with
      | none => simp
      | some file =>
        have hne := lastValue_ne_nil hfile
        by_cases h61 : r.1 = 61
        · simp [h61, eq_comm]
        · simp [h61, hne]

end Wiped

/-- The script has what was asked for just where one command was, and one that is not spoilt. -/
theorem reaches_iff_kept (opens : Bool) (args : List CString) : Reaches opens args ↔ Kept opens args := by
  rw [reaches_iff, Kept]
  refine and_congr_right fun hin => ?_
  split
  · exact Iff.rfl
  split
  · rename_i hwipe
    exact leftLines_eq_iff_of_wipe hwipe
  · rename_i hwipe
    cases hlast : lastGiving args with
    | none => exact leftLines_eq_iff_of_not_giving hin hwipe hlast
    | some arg => exact leftLines_eq_iff_of_giving hin hwipe hlast

/-- `--wipe_data` and `--update_package=a.zip` -/
def twoCommands : List CString :=
  [⟨[45, 45, 119, 105, 112, 101, 95, 100, 97, 116, 97], by decide⟩,
    ⟨[45, 45, 117, 112, 100, 97, 116, 101, 95, 112, 97, 99, 107, 97, 103, 101, 61, 97, 46, 122, 105, 112], by decide⟩]

theorem not_reaches_two : ¬ ∀ opens args, Reaches opens args := by
  intro h
  obtain ⟨left, hleft, hlines⟩ := h true twoCommands none
  have hscript : startup true twoCommands none = some (some wipeDataCommand.bytes) := by decide
  have hexpected : expected twoCommands =
      [installCommand.bytes ++ [97, 46, 122, 105, 112], wipeDataCommand.bytes.dropLast] := by decide
  obtain rfl := Option.some.inj (hleft.symm.trans hscript)
  rw [hexpected, if_neg (by simp)] at hlines
  obtain ⟨text, htext, htokens⟩ := hlines
  obtain rfl := Option.some.inj htext
  rw [tokens_wipeData] at htokens
  exact absurd (congrArg List.length htokens) (by decide)

end Twrp.Boot.Startup
