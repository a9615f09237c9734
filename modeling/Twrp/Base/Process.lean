import Twrp.Base.Prog

/-! Child processes.

A child runs a program and ends with its exit code, or is killed by a signal anywhere on
the way. The parent learns of the end through the status word of `waitpid`, which the
macros of `sys/wait.h` take apart. `Wait_For_Child` is where the archiver and every
external command report to their parent. -/
namespace Twrp.Base

/-! ### Status words -/

/-- A signal that ends a process. -/
structure Signal where
  number : Nat
  pos : 0 < number
  lt : number < 127

/-- How a process ends. -/
inductive Outcome where
  | exited (code : Int)
  | killed (signal : Signal) (core : Bool)

/-- The status word: the low byte of the exit code above a zero byte, or a signal with
the core flag. -/
def Outcome.status : Outcome → Nat
  | exited code => (code % 256).toNat * 256
  | killed signal core => signal.number + if core then 128 else 0

/-- `WEXITSTATUS` -/
def wexitstatus (status : Nat) : Nat := status / 256 % 256

/-- `WTERMSIG` -/
def wtermsig (status : Nat) : Nat := status % 128

/-- `WIFSIGNALED` -/
def wifsignaled (status : Nat) : Bool := wtermsig (status + 1) ≥ 2

/-- `WIFEXITED` -/
def wifexited (status : Nat) : Bool := wtermsig status = 0

/-- What `waitpid` may tell of a process that has not ended. -/
inductive Pause where
  /-- stopped by a signal, or by a tracer at an event -/
  | stopped (signal event : Nat) (pos : 0 < signal) (lt : signal < 256)
  | continued

def Pause.status : Pause → Nat
  | stopped signal event _ _ => event * 65536 + signal * 256 + 127
  | continued => 65535

/-- What `waitpid` comes back with. -/
inductive Wait where
  | status (status : Nat)
  /-- `ECHILD` -/
  | noChild
  | error
deriving DecidableEq

/-- `TWFunc::Wait_For_Child` -/
def waitForChild : Wait → Int
  | .status status =>
    if wexitstatus status = 0 then 0
    else if wifsignaled status then -1
    -- an exit code other than zero is not looked at
    else 0
  | .noChild => 0
  | .error => -1

/-- A process that was killed has no exit status, and one that has is not signaled. -/
theorem wexitstatus_killed (signal : Signal) (core : Bool) : wexitstatus (Outcome.killed signal core).status = 0 := by
  have hlt := signal.lt
  unfold wexitstatus Outcome.status
  cases core with
  | false => simp only [Bool.false_eq_true, if_false]; omega
  | true => simp only [if_true]; omega

theorem wifsignaled_exited (code : Int) : wifsignaled (Outcome.exited code).status = false := by
  have hmod : ((code % 256).toNat * 256 + 1) % 128 = 1 := by omega
  simp [wifsignaled, wtermsig, Outcome.status, hmod]

theorem wifexited_exited (code : Int) : wifexited (Outcome.exited code).status = true := by
  have hmod : (code % 256).toNat * 256 % 128 = 0 := by omega
  simp [wifexited, wtermsig, Outcome.status, hmod]

/-- A pause is no end: its status has something in the place of the exit code, and is neither
that of an exit nor that of a signal. -/
theorem Pause.status_spec (p : Pause) :
    wexitstatus p.status ≠ 0 ∧ wifsignaled p.status = false ∧ wifexited p.status = false := by
  cases p with
  | stopped signal event pos lt =>
    have hexit : wexitstatus (stopped signal event pos lt).status = signal := by
      change (event * 65536 + signal * 256 + 127) / 256 % 256 = signal
      omega
    have hsignaled : wtermsig ((stopped signal event pos lt).status + 1) = 0 := by
      change (event * 65536 + signal * 256 + 127 + 1) % 128 = 0
      omega
    have hexited : wtermsig (stopped signal event pos lt).status = 127 := by
      change (event * 65536 + signal * 256 + 127) % 128 = 127
      omega
    simp [wifsignaled, wifexited, hexit, hsignaled, hexited, Nat.ne_of_gt pos]
  | continued => decide

/-- Whatever a child ends with, waiting for it succeeds. -/
theorem waitForChild_status (o : Outcome) : waitForChild (.status o.status) = 0 := by
  cases o with
  | exited code =>
    rw [waitForChild, wifsignaled_exited]
    simp
  | killed signal core =>
    rw [waitForChild, wexitstatus_killed]
    simp

/-! ### Forks -/

section Fork
variable {Q : Type} {A : Q → Type}

/-- A child that runs `x` has made the calls of `log` when it ends. -/
inductive Ends (x : Prog A Int) : List (Sigma A) → Outcome → Prop where
  | exits {log : List (Sigma A)} {code : Int} : Prog.Runs x log code → Ends x log (.exited code)
  | killed {log rest : List (Sigma A)} {code : Int} (signal : Signal) (core : Bool) :
      Prog.Runs x (log ++ rest) code → Ends x log (.killed signal core)

/-- A parent that forks `x` and waits for it: `fork` may fail, and so may `waitpid`, but a
status it gives is the child's. -/
inductive ForkRun (x : Prog A Int) where
  | failed
  | ran (log : List (Sigma A)) (outcome : Outcome) (ends : Ends x log outcome) (wait : Wait)
      (honest : ∀ status, wait = .status status → status = outcome.status)

/-- The parent returns -1 where `fork` or `Wait_For_Child` fails. -/
def ForkRun.result {x : Prog A Int} : ForkRun x → Int
  | failed => -1
  | ran _ _ _ wait _ => if waitForChild wait ≠ 0 then -1 else 0

/-- `waitpid` failed, and not for want of a child. -/
def ForkRun.waitFailed {x : Prog A Int} : ForkRun x → Prop
  | failed => False
  | ran _ _ _ wait _ => wait = .error

/-- The end of the child has no part in what the parent returns. -/
theorem ForkRun.result_ran {x : Prog A Int} {log : List (Sigma A)} {outcome : Outcome} (ends : Ends x log outcome)
    (wait : Wait) (honest : ∀ status, wait = .status status → status = outcome.status) :
    (ran log outcome ends wait honest).result = -1 ↔ wait = .error := by
  cases wait with
  | status status =>
    obtain rfl := honest status rfl
    simp [result, waitForChild_status]
  | noChild => simp [result, waitForChild]
  | error => simp [result, waitForChild]

end Fork

/-! ### What became of a child -/

/-- How a forked process came out: whether it did its work, and what the parent saw. -/
inductive Forked where
  | forkFailed
  | waitFailed (fine : Bool)
  | ended (fine : Bool)
deriving DecidableEq

namespace Forked

/-- What the parent returns. -/
def result : Forked → Int
  | forkFailed => -1
  | waitFailed _ => -1
  | ended _ => 0

def isFine : Forked → Bool
  | ended fine => fine
  | _ => false

/-- The child did not do its work, and the parent sees nothing of it. -/
def isUnseen : Forked → Bool
  | ended false => true
  | _ => false

theorem result_zero (f : Forked) (h : ¬f.result = -1) : f.result = 0 := by
  cases f with
  | forkFailed => exact absurd rfl h
  | waitFailed fine => exact absurd rfl h
  | ended fine => rfl

/-- Where the parent sees nothing wrong, what went wrong is unseen. -/
theorem isUnseen_of_result {f : Forked} (h : f.result = 0) (hfine : f.isFine = false) : f.isUnseen = true := by
  cases f with
  | forkFailed => exact absurd h (by decide)
  | waitFailed fine => exact absurd h (by simp [result])
  | ended fine =>
    cases fine with
    | false => rfl
    | true => cases hfine

variable {Q : Type} {A : Q → Type} {x : Prog A Int}

/-- A run of a child, for a notion of what it is to fail. -/
def ofRun (fails : ForkRun x → Prop) [DecidablePred fails] : ForkRun x → Forked
  | .failed => forkFailed
  | .ran log outcome ends wait honest =>
    let fine := decide ¬fails (.ran log outcome ends wait honest)
    if wait = .error then waitFailed fine else ended fine

theorem result_ofRun (fails : ForkRun x → Prop) [DecidablePred fails] (run : ForkRun x) :
    (ofRun fails run).result = run.result := by
  cases run with
  | failed => rfl
  | ran log outcome ends wait honest =>
    by_cases hwait : wait = .error
    · rw [ofRun, if_pos hwait, (ForkRun.result_ran ends wait honest).mpr hwait]
      rfl
    · rw [ofRun, if_neg hwait]
      have hresult := mt (ForkRun.result_ran ends wait honest).mp hwait
      change (0 : Int) = if waitForChild wait ≠ 0 then -1 else 0
      change ¬(if waitForChild wait ≠ 0 then (-1 : Int) else 0) = -1 at hresult
      by_cases hret : waitForChild wait ≠ 0
      · exact absurd (if_pos hret) hresult
      · rw [if_neg hret]

end Forked

end Twrp.Base
