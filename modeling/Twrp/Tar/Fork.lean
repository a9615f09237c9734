import Twrp.Base.Process
import Twrp.Tar.Threads

/-! What the parent learns of an archive that failed.

The archives are made in a child process. An error on the way there ends the child with
an exit code other than zero, when it is not lost before (`createList` passes on one of
the four codes of `tarList`, `Split_Archive` does not look at its first `createTar` and
at `closeTar`). The parent then waits for the child, and what `Wait_For_Child` returns
depends on `waitpid` alone. -/
namespace Twrp.Tar
open Base

/-- What `createTarFork` and `splitArchiveFork` run. -/
inductive Archiver where
  | single (cfg : Config) (tarfn tardir : Path) (tree : Listing)
  | encrypted (job : Job)
  | split (cfg : Config) (tarfn tardir : Path) (tree : Listing)

namespace Archiver

/-- The child process, up to `_exit`. -/
def child : Archiver → Walk Int
  | single cfg tarfn tardir tree => do
    if (← create cfg tarfn tardir tree) ≠ 0 then return -1 else return 0
  | encrypted job => createEncrypted job
  | split cfg tarfn tardir tree => do
    if (← splitArchive cfg tarfn tardir tree) ≤ 0 then return -1 else return 0

/-- An error in the child: `createTar`, `addFile` or `closeTar` fail, the archives run out,
or `Generate_TarList` does not open a directory. -/
def reports (a : Archiver) : Sigma Ans → Bool
  | ⟨.createTar _, ok⟩ => !ok
  | ⟨.append _ _, ok⟩ => !ok
  | ⟨.closeTar _, ok⟩ => !ok
  | ⟨.tooMany _, _⟩ => true
  | ⟨.opendir _, ok⟩ =>
    match a with
    | encrypted _ => !ok
    | _ => false
  | _ => false

/-- The child of a run met an error, or was killed. -/
def ChildFails (a : Archiver) : ForkRun a.child → Prop
  | .failed => False
  | .ran log outcome _ _ _ => (∃ e ∈ log, a.reports e = true) ∨ ∃ signal core, outcome = .killed signal core

/-- **Failures of the child.** A run of `createTarFork` or `splitArchiveFork` passes on the
errors of its child exactly when the child met none, or `waitpid` itself fails. -/
theorem child_failure_iff (a : Archiver) (r : ForkRun a.child) :
    (a.ChildFails r → r.result = -1) ↔ ¬a.ChildFails r ∨ r.waitFailed := by
  cases r with
  | failed =>
    constructor
    · intro _
      exact .inl id
    · intro _ h
      exact absurd h id
  | ran log outcome ends wait honest =>
    rw [ForkRun.result_ran ends wait honest]
    constructor
    · intro h
      by_cases hfails : a.ChildFails (.ran log outcome ends wait honest)
      · exact .inr (h hfails)
      · exact .inl hfails
    · rintro (hno | hwait) hfails
      · exact absurd hfails hno
      · exact hwait

end Archiver

/-- Calls that succeed, except that no archive can be closed. -/
def failClose : (q : Call) → Ans q
  | .closeTar _ => false
  | q => succeed q

/-- A single archive, and an encrypted one, that cannot be closed, and a child killed before
its first call. -/
theorem child_failure_unseen :
    (∃ r : ForkRun (Archiver.single ⟨false, false, []⟩ "data.ext4.win".toList "/data".toList .nil).child,
      Archiver.ChildFails _ r ∧ r.result = 0) ∧
    (∃ r : ForkRun (Archiver.encrypted ⟨⟨false, false, []⟩, false, 1, "data.ext4.win".toList, "/data".toList, .nil,
        fun _ => ⟨false, 0⟩⟩).child, Archiver.ChildFails _ r ∧ r.result = 0) ∧
    ∃ r : ForkRun (Archiver.split ⟨false, false, []⟩ "data.ext4.win".toList "/data".toList .nil).child,
      Archiver.ChildFails _ r ∧ r.result = 0 := by
  refine ⟨⟨.ran _ _ (.exits (Prog.runs_eval failClose _)) (.status _) fun _ h => (Wait.status.inj h).symm,
      .inl ⟨_, List.mem_map.mpr ⟨.closeTar "data.ext4.win".toList, ?_, rfl⟩, rfl⟩, ?_⟩,
    ⟨.ran _ _ (.exits (Prog.runs_eval failClose _)) (.status _) fun _ h => (Wait.status.inj h).symm,
      .inl ⟨_, List.mem_map.mpr ⟨.closeTar "data.ext4.win000".toList, ?_, rfl⟩, rfl⟩, ?_⟩,
    ⟨.ran [] _ (.killed ⟨9, by decide, by decide⟩ false (Prog.runs_eval succeed _)) (.status _) fun _ h =>
      (Wait.status.inj h).symm, .inr ⟨_, _, rfl⟩, ?_⟩⟩
  all_goals decide

end Twrp.Tar
