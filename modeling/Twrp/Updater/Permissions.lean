import Twrp.Updater.Hierarchy

/-! Failures that the permission functions report.

A function that does not return NULL says that all changes were made. What it leaves out: the values that it does not
understand or cuts, the result of a walk, a file that cannot be looked at, and labels where there are none. -/
namespace Twrp.Updater.Permissions
open Base Edify

/-! ### What is asked for -/

/-- A text that is a number to its end, below a bound. -/
def whole (base : Option Nat) (bound : Nat) (s : CString) : Option (Fin bound) :=
  match number base s with
  | some (negative, value, []) => if h : value < bound ∧ (negative = true → value = 0) then some ⟨value, h.1⟩ else none
  | _ => none

/-- The attributes of `set_metadata`. -/
structure Wanted where
  uid : Option Id := none
  gid : Option Id := none
  mode : Option Mode := none
  fmode : Option Mode := none
  dmode : Option Mode := none
  selabel : Option CString := none
  capabilities : Option (Fin 9223372036854775808) := none

/-- A key with a valid value; other keys are left out. -/
def wantedArg (wanted : Wanted) (key value : CString) : Option Wanted :=
  if key = "uid" then (whole (some 10) _ value).map fun uid => { wanted with uid := some uid }
  else if key = "gid" then (whole (some 10) _ value).map fun gid => { wanted with gid := some gid }
  else if key = "mode" then (whole none _ value).map fun mode => { wanted with mode := some mode }
  else if key = "dmode" then (whole none _ value).map fun mode => { wanted with dmode := some mode }
  else if key = "fmode" then (whole none _ value).map fun mode => { wanted with fmode := some mode }
  else if key = "capabilities" then (whole none _ value).map fun capabilities => { wanted with capabilities := some capabilities }
  else if key = "selabel" then if value.length ≠ 0 then some { wanted with selabel := some value } else none
  else some wanted

def wantedArgs (wanted : Wanted) : List CString → Option Wanted
  | key :: value :: rest => (wantedArg wanted key value).bind (wantedArgs · rest)
  | _ => some wanted

/-- The changes for one file. -/
def Wanted.changes (wanted : Wanted) (path : CString) (kind : FileKind) : List Change :=
  if kind = .symlink then []
  else
    (wanted.uid.map fun uid => Change.owner path (some uid) none).toList ++
    (wanted.gid.map fun gid => Change.owner path none (some gid)).toList ++
    (wanted.mode.map (Change.mode path)).toList ++
    ((if kind = .directory then wanted.dmode else none).map (Change.mode path)).toList ++
    ((if kind = .regular then wanted.fmode else none).map (Change.mode path)).toList ++
    (wanted.selabel.map (Change.label path)).toList ++
    ((if kind = .regular then wanted.capabilities else none).map fun capabilities =>
      if capabilities.val = 0 then Change.noCapabilities path else Change.capabilities path capabilities.val).toList

/-- The numbers of `set_perm_recursive`. -/
def permsOf (uid gid dirMode fileMode : CString) : Option Perms := do
  let uid ← whole none _ uid
  let gid ← whole none _ gid
  let dirMode ← whole none _ dirMode
  let fileMode ← whole none _ fileMode
  return ⟨some uid, some gid, dirMode, fileMode⟩

/-! ### What is done -/

abbrev Entry := Sigma (Answer Act.Answer)

def changeOf : Act → Option Change
  | .chown path uid gid => some (.owner path (uid.bind asId) (gid.bind asId))
  | .chmod path mode => some (.mode path (asMode mode))
  | .lsetfilecon path label => some (.label path label)
  | .removexattr path => some (.noCapabilities path)
  | .setxattr path capabilities => some (.capabilities path (asCapabilities capabilities))
  | _ => none

/-- The change is made; capabilities that are not there need not be removed. -/
def succeeds : (a : Act) → a.Answer → Bool
  | .chown _ _ _, failed => Option.isNone (α := Errno) failed
  | .chmod _ _, failed => Option.isNone (α := Errno) failed
  | .lsetfilecon _ _, failed => Option.isNone (α := Errno) failed
  | .removexattr _, failed => Option.all (α := Errno) (fun e => e.code = ENODATA) failed
  | .setxattr _ _, failed => Option.isNone (α := Errno) failed
  | _, _ => false

/-- The file system has no labels. -/
def refused : (a : Act) → a.Answer → Bool
  | .lsetfilecon _ _, failed => Option.any (α := Errno) (fun e => e.code = ENOTSUP) failed
  | _, _ => false

/-- A change that fails, other than a label where there are none. -/
def counted : Entry → Bool
  | ⟨.act a, answer⟩ => (changeOf a).isSome && !succeeds a answer && !refused a answer
  | _ => false

def changesMade (log : List Entry) : List Change :=
  log.filterMap fun
    | ⟨.act a, answer⟩ => if succeeds a answer then changeOf a else none
    | _ => none

/-- The walks of a run, in turn. -/
def hierarchies (log : List Entry) : List (CString × Perms) :=
  log.filterMap fun
    | ⟨.act (.dirSetHierarchyPermissions path uid gid dirMode fileMode), _⟩ =>
      some (path, ⟨asId uid, asId gid, asMode dirMode, asMode fileMode⟩)
    | _ => none

/-- What a call meets: what the arguments evaluate to, the tree of each file that `set_perm_recursive` names, and for
`set_metadata` the named file, what is below it, and how `nftw` goes: the files it comes to, with what it takes them for, and
whether it fails then. -/
structure World where
  arg : Nat → Option CString
  tree : Nat → Tree
  kind : FileKind
  below : List (CString × FileKind)
  visits : List (CString × FileKind)
  walkFails : Bool

/-- `ReadVarArgs` -/
def World.read (w : World) (start : Nat) : Nat → Option (List CString)
  | 0 => some []
  | count + 1 =>
    match w.arg start with
    | none => none
    | some arg => (w.read (start + 1) count).map (arg :: ·)

/-- `nftw` with `do_SetMetadataRecursive`: it ends at a result that is not 0, which is then its own. -/
def nftw (parsed : PermArgs) (fails : Bool) : List (CString × FileKind) → Step Int
  | [] => pure (if fails then -1 else 0)
  | (path, kind) :: rest => do
    let bad ← applyParsedPerms path kind parsed
    if bad ≠ 0 then pure (bad : Int) else nftw parsed fails rest

/-- The calls of a function in a world; the others are answered as they come. -/
def World.serve (w : World) : (q : Call Act) → Step (Answer Act.Answer q)
  | .string i => (pure (w.arg i) : Step (Option CString))
  | .act (.lstat path) => do
    let stat : Errno ⊕ FileKind ← perform (.lstat path)
    pure (stat.map id fun _ => w.kind : Errno ⊕ FileKind)
  | .act (.setMetadataRecursive _ parsed) => nftw parsed w.walkFails w.visits
  | q => Prog.ask q

/-! ### The functions -/

inductive PermFn where
  | setPerm | setPermRecursive | setMetadata | setMetadataRecursive

def PermFn.name : PermFn → CString
  | setPerm => "set_perm"
  | setPermRecursive => "set_perm_recursive"
  | setMetadata => "set_metadata"
  | setMetadataRecursive => "set_metadata_recursive"

def PermFn.fn : PermFn → Fn
  | setPerm => setPermFn
  | setPermRecursive => setPermFn
  | setMetadata => setMetadataFn
  | setMetadataRecursive => setMetadataFn

/-- All values are valid, and all changes are made on the named files, and below them where the function is recursive. -/
def Fulfilled (w : World) (log : List Entry) : PermFn → List CString → Prop
  | .setPerm, uid :: gid :: mode :: paths => ∃ uid' gid' mode', whole none 4294967295 uid = some uid' ∧
      whole none 4294967295 gid = some gid' ∧ whole none 4096 mode = some mode' ∧
      ∀ path ∈ paths, Change.owner path (some uid') (some gid') ∈ changesMade log ∧ Change.mode path mode' ∈ changesMade log
  | .setPermRecursive, uid :: gid :: dirMode :: fileMode :: paths => ∃ perms, permsOf uid gid dirMode fileMode = some perms ∧
      ∀ i path, paths[i]? = some path → ∃ perms', (hierarchies log)[i]? = some (path, perms') ∧
        List.Subperm ((w.tree i).asked perms path) (dirSetHierarchyPermissions perms' path (w.tree i)).1
  | .setMetadata, path :: args => ∃ wanted, wantedArgs {} args = some wanted ∧
      ∀ c ∈ wanted.changes path w.kind, c ∈ changesMade log
  | .setMetadataRecursive, path :: args => ∃ wanted, wantedArgs {} args = some wanted ∧
      ∀ file ∈ (path, w.kind) :: w.below, ∀ c ∈ wanted.changes file.1 file.2, c ∈ changesMade log
  | _, _ => False

/-- A value other than NULL says that what was asked for was done. -/
def Reports (f : PermFn) (w : World) (site : Site) (log : List Entry) (v : Option Value) : Prop :=
  v ≠ none → ∃ args, w.read 0 site.argc = some args ∧ Fulfilled w log f args

/-! ### The condition -/

/-- How many arguments have to be numbers. -/
def PermFn.numbers : PermFn → Nat
  | setPerm => 3
  | setPermRecursive => 4
  | setMetadata | setMetadataRecursive => 0

/-- The number of the arguments is wrong. -/
def PermFn.Miscounts (argc : Nat) : PermFn → Prop
  | setPerm => argc < 4
  | setPermRecursive => argc < 5
  | setMetadata | setMetadataRecursive => argc % 2 ≠ 1

/-- The call is refused: by the number of its arguments, or since one aborts, or one of the first is no number. -/
def Rejected (f : PermFn) (w : World) (site : Site) : Prop :=
  f.Miscounts site.argc ∨ ∀ args, w.read 0 site.argc = some args → ∃ arg ∈ args.take f.numbers, wholeUl arg = none

/-- The named file can be looked at, a file is come to for which the change is asked, and the change is not refused. -/
structure Reached (wanted : Wanted) (visits : List (CString × FileKind)) (log : List Entry) (c : Change) : Prop where
  stat : ∀ path e, (⟨.act (.lstat path), .inl e⟩ : Entry) ∉ log
  visit : ∃ file ∈ visits, c ∈ wanted.changes file.1 file.2
  accepted : ∃ a answer, (⟨.act a, answer⟩ : Entry) ∈ log ∧ changeOf a = some c ∧ refused a answer = false

/-- The values are valid, and nothing gets lost. -/
def Kept (w : World) (log : List Entry) : PermFn → List CString → Prop
  | .setPerm, uid :: gid :: mode :: _ => (whole none 4294967295 uid).isSome ∧ (whole none 4294967295 gid).isSome ∧
      (whole none 4096 mode).isSome
  | .setPermRecursive, uid :: gid :: dirMode :: fileMode :: paths => ∃ perms, permsOf uid gid dirMode fileMode = some perms ∧
      ∀ i path, paths[i]? = some path → Attempt.Harmless (treeAttempts perms path (w.tree i))
  | .setMetadata, path :: args => ∃ wanted, wantedArgs {} args = some wanted ∧
      ∀ c ∈ wanted.changes path w.kind, Reached wanted [(path, w.kind)] log c
  | .setMetadataRecursive, path :: args => ∃ wanted, wantedArgs {} args = some wanted ∧
      ∀ file ∈ (path, w.kind) :: w.below, ∀ c ∈ wanted.changes file.1 file.2, Reached wanted w.visits log c
  | _, _ => False

def HoldsWhen (f : PermFn) (w : World) (site : Site) (log : List Entry) : Prop :=
  Rejected f w site ∨ (∃ e ∈ log, counted e = true) ∨ ∃ args, w.read 0 site.argc = some args ∧ Kept w log f args

/-! ### Logs -/

/-- Nothing is done but told. -/
def Silent (log : List Entry) : Prop := ∀ e ∈ log, ∃ m, e.1 = Call.say m

/-- The calls that make changes. -/
def acts (log : List Entry) : List Act :=
  log.filterMap fun
    | ⟨.act a, _⟩ => if (changeOf a).isSome then some a else none
    | _ => none

/-- Just these calls for changes are made, and whether one of them fails. -/
structure Did (as : List Act) (bad : Prop) (log : List Entry) : Prop where
  acts : acts log = as
  counted : (∃ e ∈ log, counted e = true) ↔ bad

theorem acts_append (log log' : List Entry) : acts (log ++ log') = acts log ++ acts log' := List.filterMap_append

theorem Did.append {as as' : List Act} {bad bad' : Prop} {log log' : List Entry} (h : Did as bad log) (h' : Did as' bad' log') :
    Did (as ++ as') (bad ∨ bad') (log ++ log') := by
  constructor
  · rw [acts_append, h.acts, h'.acts]
  · rw [← h.counted, ← h'.counted]
    constructor
    · intro ⟨e, he, hbad⟩
      cases List.mem_append.mp he with
      | inl he => exact Or.inl ⟨e, he, hbad⟩
      | inr he => exact Or.inr ⟨e, he, hbad⟩
    · intro hor
      obtain ⟨e, he, hbad⟩ | ⟨e, he, hbad⟩ := hor
      · exact ⟨e, List.mem_append_left _ he, hbad⟩
      · exact ⟨e, List.mem_append_right _ he, hbad⟩

theorem Did.congr {as : List Act} {bad bad' : Prop} {log : List Entry} (h : Did as bad log) (hbad : bad ↔ bad') : Did as bad' log :=
  ⟨h.acts, h.counted.trans hbad⟩

theorem Did.congr_acts {as as' : List Act} {bad : Prop} {log : List Entry} (h : Did as bad log) (has : as = as') : Did as' bad log := by
  rw [← has]
  exact h

theorem did_nil : Did [] False [] := ⟨rfl, by simp⟩

theorem Silent.did {log : List Entry} (h : Silent log) : Did [] False log := by
  induction log with
  | nil => exact did_nil
  | cons e log ih =>
    obtain ⟨q, answer⟩ := e
    obtain ⟨m, hq⟩ := h _ List.mem_cons_self
    obtain rfl : q = .say m := hq
    have hrest := ih fun e he => h e (List.mem_cons_of_mem _ he)
    constructor
    · exact hrest.acts
    · rw [← hrest.counted, List.exists_mem_cons_iff]
      exact or_iff_right Bool.false_ne_true

theorem did_act {a : Act} (answer : a.Answer) (ha : (changeOf a).isSome = true) :
    Did [a] (succeeds a answer = false ∧ refused a answer = false) [⟨.act a, answer⟩] := by
  constructor
  · exact List.filterMap_cons_some (l := []) (if_pos ha)
  · rw [List.exists_mem_cons_iff]
    simp [counted, ha]

theorem mem_changesMade {c : Change} {log : List Entry} :
    c ∈ changesMade log ↔ ∃ a answer, (⟨.act a, answer⟩ : Entry) ∈ log ∧ succeeds a answer = true ∧ changeOf a = some c := by
  rw [changesMade, List.mem_filterMap]
  constructor
  · intro ⟨⟨q, answer⟩, he, hc⟩
    cases q with
    | act a =>
      dsimp only at hc
      split at hc
      · rename_i hok
        exact ⟨a, answer, he, hok, hc⟩
      · exact nomatch hc
    | value i => exact nomatch hc
    | string i => exact nomatch hc
    | say m => exact nomatch hc
    | undefined => exact nomatch hc
  · intro ⟨a, answer, he, hok, hc⟩
    exact ⟨⟨.act a, answer⟩, he, (if_pos hok).trans hc⟩

theorem mem_acts {a : Act} {log : List Entry} (ha : (changeOf a).isSome = true) :
    a ∈ acts log ↔ ∃ answer, (⟨.act a, answer⟩ : Entry) ∈ log := by
  rw [acts, List.mem_filterMap]
  constructor
  · intro ⟨⟨q, answer⟩, he, hc⟩
    cases q with
    | act a' =>
      dsimp only at hc
      split at hc
      · obtain rfl := Option.some.inj hc
        exact ⟨answer, he⟩
      · exact nomatch hc
    | value i => exact nomatch hc
    | string i => exact nomatch hc
    | say m => exact nomatch hc
    | undefined => exact nomatch hc
  · intro ⟨answer, he⟩
    exact ⟨⟨.act a, answer⟩, he, if_pos ha⟩

/-- Where nothing is counted, a change is made when a call for it is not refused. -/
theorem mem_changesMade_of_not_counted {c : Change} {log : List Entry} (h : ¬∃ e ∈ log, counted e = true) :
    c ∈ changesMade log ↔ ∃ a answer, (⟨.act a, answer⟩ : Entry) ∈ log ∧ changeOf a = some c ∧ refused a answer = false := by
  rw [mem_changesMade]
  constructor
  · intro ⟨a, answer, he, hok, hc⟩
    refine ⟨a, answer, he, hc, ?_⟩
    cases a with
    | lsetfilecon path label =>
      cases answer with
      | none => rfl
      | some e => exact nomatch hok
    | _ => rfl
  · intro ⟨a, answer, he, hc, hnot⟩
    refine ⟨a, answer, he, ?_, hc⟩
    by_contra hbad
    apply h
    refine ⟨_, he, ?_⟩
    show ((changeOf a).isSome && !succeeds a answer && !refused a answer) = true
    rw [hc, Bool.eq_false_of_not_eq_true hbad, hnot]
    rfl

/-! ### Runs -/

theorem silent_nil : Silent [] := List.forall_mem_nil _

theorem silent_append {log log' : List Entry} (h : Silent log) (h' : Silent log') : Silent (log ++ log') := by
  intro e he
  cases List.mem_append.mp he with
  | inl he => exact h e he
  | inr he => exact h' e he

theorem runs_say {m : Message} {log : List Entry} {u : Unit} (h : Prog.Runs (say m : Step Unit) log u) : Silent log := by
  rw [Prog.runs_ask.mp h]
  intro e he
  obtain rfl := List.mem_singleton.mp he
  exact ⟨m, rfl⟩

theorem runs_logFailure {failed : Option Errno} {parts : CString → List CString} {log : List Entry} {u : Unit}
    (h : Prog.Runs (logFailure failed parts) log u) : Silent log := by
  cases failed with
  | none =>
    obtain ⟨rfl, -⟩ := Prog.runs_pure.mp h
    exact silent_nil
  | some e => exact runs_say h

theorem runs_logIf {c : Bool} {parts : List CString} {log : List Entry} {u : Unit} (h : Prog.Runs (logIf c parts) log u) : Silent log := by
  rw [logIf] at h
  split at h
  · exact runs_say h
  · obtain ⟨rfl, -⟩ := Prog.runs_pure.mp h
    exact silent_nil

theorem runs_abortWith {parts : List CString} {log : List Entry} {v : Option Value} (h : Prog.Runs (abortWith parts) log v) :
    v = none ∧ Silent log := by
  obtain ⟨l, u, l', rfl, hsay, hnone⟩ := Prog.runs_bind.mp h
  obtain ⟨rfl, rfl⟩ := Prog.runs_pure.mp hnone
  rw [List.append_nil]
  exact ⟨rfl, runs_say hsay⟩

theorem runs_setPerms {site : Site} {uid gid mode : Int} {paths : List CString} {log : List Entry} {bad : Nat}
    (h : Prog.Runs (setPerms site uid gid mode paths) log bad) :
    Did (paths.flatMap fun path => [Act.chown path (some uid) (some gid), Act.chmod path mode]) (bad ≠ 0) log := by
  induction paths generalizing log bad with
  | nil =>
    obtain ⟨rfl, rfl⟩ := Prog.runs_pure.mp h
    exact did_nil.congr (by simp)
  | cons path rest ih =>
    obtain ⟨l₁, owned, l, rfl, howned, h⟩ := Prog.runs_bind.mp h
    obtain ⟨l₂, u, l, rfl, htold, h⟩ := Prog.runs_bind.mp h
    obtain ⟨l₃, moded, l, rfl, hmoded, h⟩ := Prog.runs_bind.mp h
    obtain ⟨l₄, u', l, rfl, htold', h⟩ := Prog.runs_bind.mp h
    obtain ⟨l₅, more, l, rfl, hmore, h⟩ := Prog.runs_bind.mp h
    obtain ⟨rfl, rfl⟩ := Prog.runs_pure.mp h
    rw [Prog.runs_ask.mp howned, Prog.runs_ask.mp hmoded, List.append_nil]
    have hall := (did_act (a := .chown path (some uid) (some gid)) owned rfl).append ((runs_logFailure htold).did.append
      ((did_act (a := .chmod path mode) moded rfl).append ((runs_logFailure htold').did.append (ih hmore))))
    refine hall.congr ?_
    cases owned <;> cases moded <;> simp [succeeds, refused]

/-- The calls for one attribute: one where it is given. -/
theorem runs_applyOne {α : Type} {field : Option α} {change : α → Step (Option Errno)} {allowed : Nat → Bool} {message : α → List CString}
    (a : α → Act) (hchange : ∀ value ∈ field, ∀ l failed, Prog.Runs (change value) l failed →
      Did [a value] (∃ e, failed = some e ∧ allowed e.code = false) l)
    {log : List Entry} {bad : Nat} (h : Prog.Runs (applyOne field change allowed message) log bad) :
    Did (field.map a).toList (bad ≠ 0) log := by
  cases field with
  | none =>
    obtain ⟨rfl, rfl⟩ := Prog.runs_pure.mp h
    exact did_nil.congr (by simp)
  | some value =>
    obtain ⟨l, failed, l', rfl, hrun, h⟩ := Prog.runs_bind.mp h
    have hdid := hchange value rfl l failed hrun
    cases failed with
    | none =>
      obtain ⟨rfl, rfl⟩ := Prog.runs_pure.mp h
      rw [List.append_nil]
      exact hdid.congr (by simp)
    | some e =>
      dsimp only at h
      split at h
      · rename_i hallowed
        obtain ⟨rfl, rfl⟩ := Prog.runs_pure.mp h
        rw [List.append_nil]
        exact hdid.congr (by simp [hallowed])
      · rename_i hallowed
        obtain ⟨l₁, u, l₂, rfl, htold, h⟩ := Prog.runs_bind.mp h
        obtain ⟨rfl, rfl⟩ := Prog.runs_pure.mp h
        rw [List.append_nil]
        exact ((hdid.append (runs_say htold).did).congr (by simp [hallowed])).congr_acts (List.append_nil _)

/-- The calls of `ApplyParsedPerms`. -/
def applyActs (path : CString) (kind : FileKind) (parsed : PermArgs) : List Act :=
  if kind = .symlink then []
  else
    (parsed.uid.map fun uid => Act.chown path (some uid) none).toList ++
    (parsed.gid.map fun gid => Act.chown path none (some gid)).toList ++
    (parsed.mode.map (Act.chmod path)).toList ++
    ((if kind = .directory then parsed.dmode else none).map (Act.chmod path)).toList ++
    ((if kind = .regular then parsed.fmode else none).map (Act.chmod path)).toList ++
    (parsed.selabel.map (Act.lsetfilecon path)).toList ++
    ((if kind = .regular then parsed.capabilities else none).map fun capabilities =>
      if capabilities = 0 then Act.removexattr path else Act.setxattr path capabilities).toList

/-- A call whose failure counts. -/
theorem did_perform {a : Act} (answer : a.Answer) {bad : Prop} (ha : (changeOf a).isSome = true)
    (hbad : succeeds a answer = false ∧ refused a answer = false ↔ bad) {log : List Entry} (h : log = [⟨.act a, answer⟩]) : Did [a] bad log := by
  rw [h]
  exact (did_act answer ha).congr hbad

theorem runs_applyParsedPerms {path : CString} {kind : FileKind} {parsed : PermArgs} {log : List Entry} {bad : Nat}
    (h : Prog.Runs (applyParsedPerms path kind parsed) log bad) : Did (applyActs path kind parsed) (bad ≠ 0) log := by
  rw [applyParsedPerms] at h
  rw [applyActs]
  split at h
  · rename_i hlink
    obtain ⟨rfl, rfl⟩ := Prog.runs_pure.mp h
    rw [if_pos hlink]
    exact did_nil.congr (by simp)
  · rename_i hlink
    rw [if_neg hlink]
    obtain ⟨l₁, uid, l, rfl, huid, h⟩ := Prog.runs_bind.mp h
    obtain ⟨l₂, gid, l, rfl, hgid, h⟩ := Prog.runs_bind.mp h
    obtain ⟨l₃, mode, l, rfl, hmode, h⟩ := Prog.runs_bind.mp h
    obtain ⟨l₄, dmode, l, rfl, hdmode, h⟩ := Prog.runs_bind.mp h
    obtain ⟨l₅, fmode, l, rfl, hfmode, h⟩ := Prog.runs_bind.mp h
    obtain ⟨l₆, selabel, l, rfl, hselabel, h⟩ := Prog.runs_bind.mp h
    obtain ⟨l₇, capabilities, l, rfl, hcapabilities, h⟩ := Prog.runs_bind.mp h
    obtain ⟨rfl, rfl⟩ := Prog.runs_pure.mp h
    have hchmod (field : Option Int) (mode : Int) (_ : mode ∈ field) (l : List Entry) (failed : Option Errno)
        (h : Prog.Runs (perform (.chmod path mode)) l failed) :
        Did [.chmod path mode] (∃ e, failed = some e ∧ false = false) l :=
      did_perform (a := .chmod path mode) failed rfl (by cases failed <;> simp [succeeds, refused]) (Prog.runs_ask.mp h)
    have huid' := runs_applyOne (fun uid => Act.chown path (some uid) none) (fun value _ l failed h =>
      did_perform (a := .chown path (some value) none) failed rfl (by cases failed <;> simp [succeeds, refused]) (Prog.runs_ask.mp h)) huid
    have hgid' := runs_applyOne (fun gid => Act.chown path none (some gid)) (fun value _ l failed h =>
      did_perform (a := .chown path none (some value)) failed rfl (by cases failed <;> simp [succeeds, refused]) (Prog.runs_ask.mp h)) hgid
    have hmode' := runs_applyOne (Act.chmod path) (hchmod _) hmode
    have hdmode' := runs_applyOne (Act.chmod path) (hchmod _) hdmode
    have hfmode' := runs_applyOne (Act.chmod path) (hchmod _) hfmode
    have hselabel' := runs_applyOne (Act.lsetfilecon path) (fun value _ l failed h =>
      did_perform (a := .lsetfilecon path value) failed rfl (by cases failed <;> simp [succeeds, refused]) (Prog.runs_ask.mp h)) hselabel
    have hcapabilities' := runs_applyOne (fun capabilities => if capabilities = 0 then Act.removexattr path else Act.setxattr path capabilities)
      (fun value hvalue l failed h => by
        have hparsed : parsed.capabilities = some value := by
          split at hvalue
          · exact hvalue
          · exact nomatch hvalue
        by_cases hzero : value = 0
        · rw [if_pos hzero]
          have hrun : Prog.Runs (perform (.removexattr path)) l failed := (congrArg (Prog.Runs · l failed) (if_pos hzero)).mp h
          exact did_perform (a := .removexattr path) failed rfl
            (by cases failed <;> simp [succeeds, refused, hparsed, hzero]) (Prog.runs_ask.mp hrun)
        · rw [if_neg hzero]
          have hrun : Prog.Runs (perform (.setxattr path value)) l failed := (congrArg (Prog.Runs · l failed) (if_neg hzero)).mp h
          exact did_perform (a := .setxattr path value) failed rfl
            (by cases failed <;> simp [succeeds, refused, hparsed, hzero]) (Prog.runs_ask.mp hrun)) hcapabilities
    have hall := huid'.append (hgid'.append (hmode'.append (hdmode'.append (hfmode'.append (hselabel'.append hcapabilities')))))
    rw [List.append_nil]
    refine (hall.congr ?_).congr_acts ?_
    · omega
    · simp only [List.append_assoc]

/-- The calls of `nftw`, all of them where it does not end early. -/
theorem runs_nftw {parsed : PermArgs} {fails : Bool} {visits : List (CString × FileKind)} {log : List Entry} {r : Int}
    (h : Prog.Runs (nftw parsed fails visits) log r) :
    (r > 0 ↔ ∃ e ∈ log, counted e = true) ∧
      ((¬∃ e ∈ log, counted e = true) → acts log = visits.flatMap fun file => applyActs file.1 file.2 parsed) := by
  induction visits generalizing log r with
  | nil =>
    obtain ⟨rfl, rfl⟩ := Prog.runs_pure.mp h
    refine ⟨?_, fun _ => rfl⟩
    split <;> simp
  | cons file rest ih =>
    obtain ⟨path, kind⟩ := file
    obtain ⟨l, bad, l', rfl, happly, h⟩ := Prog.runs_bind.mp h
    have hdid := runs_applyParsedPerms happly
    split at h
    · rename_i hbad
      obtain ⟨rfl, rfl⟩ := Prog.runs_pure.mp h
      rw [List.append_nil]
      have hcounted := hdid.counted.mpr hbad
      exact ⟨⟨fun _ => hcounted, fun _ => by omega⟩, fun hnot => absurd hcounted hnot⟩
    · rename_i hgood
      obtain ⟨hcount, hacts⟩ := ih h
      have hsplit : (∃ e ∈ l ++ l', counted e = true) ↔ ∃ e ∈ l', counted e = true := by
        have hfirst : ¬∃ e ∈ l, counted e = true := fun hex => hgood (hdid.counted.mp hex)
        constructor
        · intro ⟨e, he, hbad⟩
          cases List.mem_append.mp he with
          | inl he => exact absurd ⟨e, he, hbad⟩ hfirst
          | inr he => exact ⟨e, he, hbad⟩
        · intro ⟨e, he, hbad⟩
          exact ⟨e, List.mem_append_right _ he, hbad⟩
      rw [hsplit]
      refine ⟨hcount, ?_⟩
      intro hnot
      rw [acts_append, hdid.acts, hacts hnot]
      rfl

end Twrp.Updater.Permissions
