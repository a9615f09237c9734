import Twrp.Base.Attempt
import Twrp.Updater.Install

/-! Changes of owners and modes, and the walk of `dirSetHierarchyPermissions`.

A tree is what the walk meets: the entries of each directory in the order in which they are read, with the calls that fail.
What the walk does is the list of its calls up to the first that fails (`setEntries_eq`). -/
namespace Twrp.Updater.Permissions
open Base

/-! ### Changes -/

/-- An owner or a group; the last number of 32 bits is no one's, and stands for no change. -/
abbrev Id := Fin 4294967295

/-- The twelve bits of `chmod`. -/
abbrev Mode := Fin 4096

inductive Change where
  | owner (path : CString) (uid gid : Option Id)
  | mode (path : CString) (mode : Mode)
  | label (path label : CString)
  | noCapabilities (path : CString)
  | capabilities (path : CString) (capabilities : Nat)
deriving DecidableEq

/-- A number that was read into 64 bits. -/
def clamp (n : Int) : Int := max (-9223372036854775808) (min 9223372036854775807 n)

/-- `uid_t` and `gid_t` -/
def asId (n : Int) : Option Id :=
  if h : (clamp n % 4294967296).toNat < 4294967295 then some ⟨(clamp n % 4294967296).toNat, h⟩ else none

def asMode (n : Int) : Mode := ⟨(clamp n % 4096).toNat, by omega⟩

/-- `uint64_t` -/
def asCapabilities (n : Int) : Nat := (clamp n % 18446744073709551616).toNat

theorem asId_val (id : Id) : asId (id.val : Int) = some id := by
  have hlt := id.isLt
  have hclamp : clamp (id.val : Int) = id.val := by
    rw [clamp]
    omega
  have hval : (clamp (id.val : Int) % 4294967296).toNat = id.val := by
    rw [hclamp]
    omega
  rw [asId, dif_pos (by omega)]
  exact congrArg some (Fin.ext hval)

theorem asMode_val (mode : Mode) : asMode (mode.val : Int) = mode := by
  have hlt := mode.isLt
  have hclamp : clamp (mode.val : Int) = mode.val := by
    rw [clamp]
    omega
  apply Fin.ext
  show (clamp (mode.val : Int) % 4096).toNat = mode.val
  rw [hclamp]
  omega

/-! ### The walk -/

structure Perms where
  uid : Option Id
  gid : Option Id
  dirMode : Mode
  fileMode : Mode

/-- Which calls on a file fail. -/
structure Fails where
  lstat : Bool
  chown : Bool
  chmod : Bool
  opendir : Bool
  closedir : Bool

/-- What `readdir` gives from some entry on; each of its calls can fail. What is below an entry counts where it is a
directory. -/
inductive Entries where
  | done (readdir : Bool)
  | entry (readdir : Bool) (name : CString) (kind : FileKind) (fails : Fails) (below rest : Entries)

structure Tree where
  kind : FileKind
  fails : Fails
  below : Entries

def PATH_MAX : Nat := 4096

section Walk
variable (perms : Perms)

def owner (path : CString) : Change := .owner path perms.uid perms.gid

def mode (path : CString) (kind : FileKind) : Change := .mode path (if kind = .directory then perms.dirMode else perms.fileMode)

/-- `dirSetHierarchyPermissions` on a file, with what its entries come to: the changes that are made, and whether it returns
0. -/
def setFile (path : CString) (kind : FileKind) (fails : Fails) (entries : List Change × Bool) : List Change × Bool :=
  if fails.lstat then ([], false)
  else if kind = .symlink then ([], true)
  else if fails.chown then ([], false)
  else if fails.chmod then ([owner perms path], false)
  else if kind = .directory then
    if fails.opendir then ([owner perms path, mode perms path kind], false)
    else (owner perms path :: mode perms path kind :: entries.1, entries.2 && !fails.closedir)
  else ([owner perms path, mode perms path kind], true)

/-- The path of an entry, and what fails there: a path that does not fit is cut, and names no file. -/
def entryFails (path : CString) (fails : Fails) : Fails := { fails with lstat := fails.lstat || decide (PATH_MAX ≤ path.length) }

/-- The loop of `dirSetHierarchyPermissions` over the entries of a directory; `errno` ends it. -/
def setEntries (path : CString) : Entries → List Change × Bool
  | .done readdir => ([], !readdir)
  | .entry readdir name kind fails below rest =>
    if readdir then ([], false)
    else if name = ".." ∨ name = "." then setEntries path rest
    else
      let dn := path ++ "/" ++ name
      let set := setFile perms dn kind (entryFails dn fails) (setEntries dn below)
      if set.2 then (set.1 ++ (setEntries path rest).1, (setEntries path rest).2) else (set.1, false)

def dirSetHierarchyPermissions (path : CString) (tree : Tree) : List Change × Bool :=
  setFile perms path tree.kind tree.fails (setEntries perms path tree.below)

/-! ### What is asked for -/

/-- The changes for a file that is no link, with those for its entries. -/
def askedFile (path : CString) (kind : FileKind) (entries : List Change) : List Change :=
  if kind = .symlink then [] else owner perms path :: mode perms path kind :: if kind = .directory then entries else []

def askedEntries (path : CString) : Entries → List Change
  | .done _ => []
  | .entry _ name kind _ below rest =>
    if name = ".." ∨ name = "." then askedEntries path rest
    else askedFile perms (path ++ "/" ++ name) kind (askedEntries (path ++ "/" ++ name) below) ++ askedEntries path rest

/-- The changes for a named file, and for each file and directory below it. -/
def Tree.asked (path : CString) (tree : Tree) : List Change := askedFile perms path tree.kind (askedEntries perms path tree.below)

/-! ### The calls of the walk -/

/-- The calls on a file when none fails, around those for its entries. -/
def fileAttempts (path : CString) (kind : FileKind) (fails : Fails) (entries : List (Attempt Change)) : List (Attempt Change) :=
  ⟨none, fails.lstat⟩ ::
    if kind = .symlink then []
    else ⟨some (owner perms path), fails.chown⟩ :: ⟨some (mode perms path kind), fails.chmod⟩ ::
      if kind = .directory then ⟨none, fails.opendir⟩ :: (entries ++ [⟨none, fails.closedir⟩]) else []

def entryAttempts (path : CString) : Entries → List (Attempt Change)
  | .done readdir => [⟨none, readdir⟩]
  | .entry readdir name kind fails below rest =>
    ⟨none, readdir⟩ ::
      if name = ".." ∨ name = "." then entryAttempts path rest
      else
        fileAttempts perms (path ++ "/" ++ name) kind (entryFails (path ++ "/" ++ name) fails)
          (entryAttempts (path ++ "/" ++ name) below) ++ entryAttempts path rest

/-- The calls on a named file and all below it. -/
def treeAttempts (path : CString) (tree : Tree) : List (Attempt Change) :=
  fileAttempts perms path tree.kind tree.fails (entryAttempts perms path tree.below)

theorem setFile_eq (path : CString) (kind : FileKind) (fails : Fails) (attempts : List (Attempt Change)) :
    setFile perms path kind fails (Attempt.made attempts, Attempt.clean attempts) =
      (Attempt.made (fileAttempts perms path kind fails attempts), Attempt.clean (fileAttempts perms path kind fails attempts)) := by
  obtain ⟨lstat, chown, chmod, opendir, closedir⟩ := fails
  rw [setFile, fileAttempts]
  cases lstat with
  | true => rfl
  | false =>
    by_cases hlink : kind = .symlink
    · rw [if_neg Bool.false_ne_true, if_pos hlink, if_pos hlink]
      rfl
    · rw [if_neg Bool.false_ne_true, if_neg hlink, if_neg hlink]
      cases chown with
      | true => rfl
      | false =>
        cases chmod with
        | true => rfl
        | false =>
          by_cases hdir : kind = .directory
          · simp only [hdir, if_true]
            cases opendir with
            | true => rfl
            | false =>
              have hclose : Attempt.made [⟨(none : Option Change), closedir⟩] = [] := by cases closedir <;> rfl
              have hmade : Attempt.made (attempts ++ [⟨none, closedir⟩]) = Attempt.made attempts := by
                rw [Attempt.made_append, hclose, List.append_nil, ite_self]
              have hclean : Attempt.clean (attempts ++ [⟨none, closedir⟩]) = (Attempt.clean attempts && !closedir) := by
                rw [Attempt.clean_append]
                exact congrArg _ (Bool.and_true _)
              refine Prod.ext ?_ hclean.symm
              exact congrArg (fun l => owner perms path :: mode perms path .directory :: l) hmade.symm
          · simp only [hdir, if_false]
            rfl

theorem setEntries_eq (path : CString) (entries : Entries) :
    setEntries perms path entries = (Attempt.made (entryAttempts perms path entries), Attempt.clean (entryAttempts perms path entries)) := by
  induction entries generalizing path with
  | done readdir => cases readdir <;> rfl
  | entry readdir name kind fails below rest ihbelow ihrest =>
    rw [setEntries, entryAttempts]
    cases readdir with
    | true => rfl
    | false =>
      rw [if_neg Bool.false_ne_true]
      by_cases hdots : name = ".." ∨ name = "."
      · rw [if_pos hdots, if_pos hdots, ihrest]
        rfl
      · rw [if_neg hdots, if_neg hdots, ihrest]
        dsimp only
        rw [ihbelow, setFile_eq]
        generalize fileAttempts perms _ kind _ _ = attempts
        have hmade : Attempt.made (⟨none, false⟩ :: (attempts ++ entryAttempts perms path rest)) =
            Attempt.made (attempts ++ entryAttempts perms path rest) := rfl
        have hclean : Attempt.clean (⟨none, false⟩ :: (attempts ++ entryAttempts perms path rest)) =
            Attempt.clean (attempts ++ entryAttempts perms path rest) := rfl
        rw [hmade, hclean, Attempt.made_append, Attempt.clean_append]
        dsimp only
        split
        · rename_i hok
          rw [hok, Bool.true_and]
        · rename_i hbad
          rw [Bool.not_eq_true] at hbad
          rw [hbad, Bool.false_and]

/-- The walk makes the changes of its calls up to the first that fails, and returns 0 when none does. -/
theorem dirSetHierarchyPermissions_eq (path : CString) (tree : Tree) :
    dirSetHierarchyPermissions perms path tree =
      (Attempt.made (treeAttempts perms path tree), Attempt.clean (treeAttempts perms path tree)) := by
  rw [dirSetHierarchyPermissions, setEntries_eq, setFile_eq, treeAttempts]

theorem asked_fileAttempts (path : CString) (kind : FileKind) (fails : Fails) (attempts : List (Attempt Change)) :
    Attempt.asked (fileAttempts perms path kind fails attempts) = askedFile perms path kind (Attempt.asked attempts) := by
  rw [fileAttempts, askedFile, Attempt.asked_cons]
  split
  · rfl
  · rw [Attempt.asked_cons, Attempt.asked_cons]
    split
    · rw [Attempt.asked_cons, Attempt.asked_append]
      exact congrArg (fun l => owner perms path :: mode perms path kind :: l) (List.append_nil _)
    · rfl

theorem asked_entryAttempts (path : CString) (entries : Entries) :
    Attempt.asked (entryAttempts perms path entries) = askedEntries perms path entries := by
  induction entries generalizing path with
  | done readdir => rfl
  | entry readdir name kind fails below rest ihbelow ihrest =>
    rw [entryAttempts, askedEntries, Attempt.asked_cons]
    split
    · exact ihrest path
    · rw [Attempt.asked_append, asked_fileAttempts, ihbelow, ihrest]
      rfl

/-- The walk makes all changes when no call fails at a change or before one. -/
theorem asked_subperm_walk_iff (path : CString) (tree : Tree) :
    List.Subperm (tree.asked perms path) (dirSetHierarchyPermissions perms path tree).1 ↔ Attempt.Harmless (treeAttempts perms path tree) := by
  have hasked : Attempt.asked (treeAttempts perms path tree) = tree.asked perms path := by
    rw [treeAttempts, asked_fileAttempts, asked_entryAttempts, Tree.asked]
  rw [← hasked, dirSetHierarchyPermissions_eq]
  exact Attempt.asked_subperm_made_iff _

end Walk

end Twrp.Updater.Permissions
