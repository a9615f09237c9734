import Mathlib.Data.List.Basic

/-! Programs that call on an environment.

A program either is done or makes a call `q` and goes on from the answer, whose
type `A q` depends on the call. Nothing is said about the environment: it may
answer every call as it likes, so a statement about all runs of a program
(`Runs`) covers every pattern of failing calls. `eval` and `calls` follow the one
run in which the environment answers each call by a fixed table, which is how
programs are evaluated on concrete inputs. -/
namespace Twrp.Base

/-- A program over the calls `Q`, with answers `A`. -/
inductive Prog {Q : Type} (A : Q → Type) (α : Type) where
  | done (a : α) : Prog A α
  | call (q : Q) (k : A q → Prog A α) : Prog A α

namespace Prog
variable {Q : Type} {A : Q → Type} {α β γ : Type}

def bind : Prog A α → (α → Prog A β) → Prog A β
  | done a, f => f a
  | call q k, f => call q fun r => (k r).bind f

instance : Monad (Prog A) where
  pure := done
  bind := bind

/-- One call, returning the answer. -/
def ask (q : Q) : Prog A (A q) := call q done

theorem bind_done (x : Prog A α) : x.bind done = x := by
  induction x with
  | done a => rfl
  | call q k ih => simp only [bind, ih]

theorem bind_assoc (x : Prog A α) (f : α → Prog A β) (g : β → Prog A γ) :
    (x.bind f).bind g = x.bind fun a => (f a).bind g := by
  induction x with
  | done a => rfl
  | call q k ih => simp only [bind, ih]

/-- The calls of one program answered by running others. -/
def handle {R : Type} {B : R → Type} (h : (q : Q) → Prog B (A q)) : Prog A α → Prog B α
  | done a => done a
  | call q k => (h q).bind fun r => (k r).handle h

section Handle
variable {R : Type} {B : R → Type} (h : (q : Q) → Prog B (A q))

@[simp] theorem handle_pure (a : α) : (pure a : Prog A α).handle h = pure a := rfl

@[simp] theorem handle_ask (q : Q) : (ask q : Prog A (A q)).handle h = h q := bind_done (h q)

@[simp] theorem handle_bind (x : Prog A α) (f : α → Prog A β) :
    (x >>= f).handle h = x.handle h >>= fun a => (f a).handle h := by
  show (x.bind f).handle h = (x.handle h).bind fun a => (f a).handle h
  induction x with
  | done a => rfl
  | call q k ih => simp only [bind, handle, bind_assoc, ih]

@[simp] theorem handle_ite (c : Prop) [Decidable c] (x y : Prog A α) :
    (if c then x else y).handle h = if c then x.handle h else y.handle h := by
  split <;> rfl

end Handle

/-! ### One environment -/

/-- The result when every call `q` is answered by `env q`. -/
def eval (env : (q : Q) → A q) : Prog A α → α
  | done a => a
  | call q k => (k (env q)).eval env

/-- The calls made when every call `q` is answered by `env q`. -/
def calls (env : (q : Q) → A q) : Prog A α → List Q
  | done _ => []
  | call q k => q :: (k (env q)).calls env

section Eval
variable (env : (q : Q) → A q)

@[simp] theorem eval_pure (a : α) : (pure a : Prog A α).eval env = a := rfl

@[simp] theorem calls_pure (a : α) : (pure a : Prog A α).calls env = [] := rfl

@[simp] theorem eval_ask (q : Q) : (ask q : Prog A (A q)).eval env = env q := rfl

@[simp] theorem calls_ask (q : Q) : (ask q : Prog A (A q)).calls env = [q] := rfl

@[simp] theorem eval_bind (x : Prog A α) (f : α → Prog A β) :
    (x >>= f).eval env = (f (x.eval env)).eval env := by
  show (x.bind f).eval env = _
  induction x with
  | done a => rfl
  | call q k ih => exact ih (env q)

@[simp] theorem calls_bind (x : Prog A α) (f : α → Prog A β) :
    (x >>= f).calls env = x.calls env ++ (f (x.eval env)).calls env := by
  show (x.bind f).calls env = _
  induction x with
  | done a => rfl
  | call q k ih =>
    simp only [bind, calls, eval, List.cons_append]
    exact congrArg _ (ih (env q))

@[simp] theorem eval_ite (c : Prop) [Decidable c] (x y : Prog A α) :
    (if c then x else y).eval env = if c then x.eval env else y.eval env := by
  split <;> rfl

@[simp] theorem calls_ite (c : Prop) [Decidable c] (x y : Prog A α) :
    (if c then x else y).calls env = if c then x.calls env else y.calls env := by
  split <;> rfl

end Eval

/-! ### Every environment -/

/-- `Runs x log a`: some environment answers the calls of `x` as `log` records,
and the program ends with `a`. -/
inductive Runs : Prog A α → List (Sigma A) → α → Prop where
  | done (a : α) : Runs (done a) [] a
  | call {q : Q} {k : A q → Prog A α} {log : List (Sigma A)} {a : α} (r : A q) :
      Runs (k r) log a → Runs (call q k) (⟨q, r⟩ :: log) a

theorem runs_pure {a b : α} {log : List (Sigma A)} :
    Runs (pure a : Prog A α) log b ↔ log = [] ∧ b = a := by
  constructor
  · intro h
    cases h
    exact ⟨rfl, rfl⟩
  · rintro ⟨rfl, rfl⟩
    exact .done _

theorem runs_ask {q : Q} {r : A q} {log : List (Sigma A)} :
    Runs (ask q : Prog A (A q)) log r ↔ log = [⟨q, r⟩] := by
  constructor
  · intro h
    cases h with
    | call r h => cases h; rfl
  · rintro rfl
    exact .call r (.done r)

/-- A run of a sequence is a run of each part. -/
theorem runs_bind {x : Prog A α} {f : α → Prog A β} {log : List (Sigma A)} {b : β} :
    Runs (x >>= f) log b ↔ ∃ l₁ a l₂, log = l₁ ++ l₂ ∧ Runs x l₁ a ∧ Runs (f a) l₂ b := by
  show Runs (x.bind f) log b ↔ _
  induction x generalizing log with
  | done a =>
    constructor
    · intro h
      exact ⟨[], a, log, rfl, .done a, h⟩
    · rintro ⟨l₁, a', l₂, rfl, hx, hf⟩
      cases hx
      exact hf
  | call q k ih =>
    constructor
    · intro h
      cases h with
      | call r h =>
        obtain ⟨l₁, a, l₂, rfl, hx, hf⟩ := (ih r).mp h
        exact ⟨⟨q, r⟩ :: l₁, a, l₂, rfl, .call r hx, hf⟩
    · rintro ⟨l₁, a, l₂, rfl, hx, hf⟩
      cases hx with
      | call r hx => exact .call r ((ih r).mpr ⟨_, a, l₂, rfl, hx, hf⟩)

/-- The run against a fixed table is one of the runs. -/
theorem runs_eval (env : (q : Q) → A q) (x : Prog A α) :
    Runs x ((x.calls env).map fun q => ⟨q, env q⟩) (x.eval env) := by
  induction x with
  | done a => exact .done a
  | call q k ih => exact .call (env q) (ih (env q))

/-- The run in which the environment answers by a table that has no answer to some calls. -/
def follow (env : (q : Q) → Option (A q)) : Prog A α → Option (List (Sigma A) × α)
  | done a => some ([], a)
  | call q k =>
    match env q with
    | none => none
    | some r => ((k r).follow env).map fun run => (⟨q, r⟩ :: run.1, run.2)

theorem runs_follow {env : (q : Q) → Option (A q)} {x : Prog A α} {run : List (Sigma A) × α} (h : x.follow env = some run) :
    Runs x run.1 run.2 ∧ ∀ e ∈ run.1, env e.1 = some e.2 := by
  induction x generalizing run with
  | done a =>
    obtain rfl := Option.some.inj h
    exact ⟨.done a, by simp⟩
  | call q k ih =>
    rw [follow] at h
    cases hq : env q with
    | none =>
      rw [hq] at h
      cases h
    | some r =>
      rw [hq] at h
      obtain ⟨rest, hrest, rfl⟩ := Option.map_eq_some_iff.mp h
      obtain ⟨hruns, hall⟩ := ih r hrest
      exact ⟨.call r hruns, List.forall_mem_cons.mpr ⟨hq, hall⟩⟩

/-! ### What a program can call at all -/

/-- Every call of the program, whatever the answers, satisfies `P`. -/
def All (P : Q → Prop) : Prog A α → Prop
  | done _ => True
  | call q k => P q ∧ ∀ r, (k r).All P

section All
variable {P : Q → Prop}

theorem all_pure (a : α) : (pure a : Prog A α).All P := trivial

theorem all_ask {q : Q} (h : P q) : (ask q : Prog A (A q)).All P := ⟨h, fun _ => trivial⟩

theorem all_bind {x : Prog A α} {f : α → Prog A β} (hx : x.All P) (hf : ∀ a, (f a).All P) :
    (x >>= f).All P := by
  show (x.bind f).All P
  induction x with
  | done a => exact hf a
  | call q k ih => exact ⟨hx.1, fun r => ih r (hx.2 r)⟩

theorem all_ite {c : Prop} [Decidable c] {x y : Prog A α} (hx : c → x.All P) (hy : ¬c → y.All P) :
    (if c then x else y).All P := by
  by_cases h : c
  · rw [if_pos h]
    exact hx h
  · rw [if_neg h]
    exact hy h

theorem Runs.all {x : Prog A α} {log : List (Sigma A)} {a : α} (h : Runs x log a) (hx : x.All P) :
    ∀ e ∈ log, P e.1 := by
  induction h with
  | done a => simp
  | call r _ ih => exact List.forall_mem_cons.mpr ⟨hx.1, ih (hx.2 r)⟩

theorem All.mono {P' : Q → Prop} {x : Prog A α} (h : x.All P) (hP : ∀ q, P q → P' q) : x.All P' := by
  induction x with
  | done a => trivial
  | call q k ih => exact ⟨hP q h.1, fun r => ih r (h.2 r)⟩

end All

/-! ### What every run ends in -/

/-- Every run ends with a log and a result that satisfy `R`. -/
def Post (x : Prog A α) (R : List (Sigma A) → α → Prop) : Prop := ∀ log a, Runs x log a → R log a

section Post
variable {R : List (Sigma A) → α → Prop}

theorem post_pure {a : α} (h : R [] a) : Post (pure a : Prog A α) R := by
  intro log b hrun
  obtain ⟨rfl, rfl⟩ := runs_pure.mp hrun
  exact h

theorem post_ask {q : Q} {R : List (Sigma A) → A q → Prop} (h : ∀ r, R [⟨q, r⟩] r) : Post (ask q) R := by
  intro log r hrun
  rw [runs_ask.mp hrun]
  exact h r

/-- The second part goes on from what the first one ends in. -/
theorem post_bind {x : Prog A α} {f : α → Prog A β} {S : List (Sigma A) → β → Prop} (hx : Post x R)
    (hf : ∀ l a, R l a → Post (f a) fun l' b => S (l ++ l') b) : Post (x >>= f) S := by
  intro log b hrun
  obtain ⟨l, a, l', rfl, hrunx, hrunf⟩ := runs_bind.mp hrun
  exact hf l a (hx l a hrunx) l' b hrunf

theorem post_ite {c : Prop} [Decidable c] {x y : Prog A α} (hx : c → Post x R) (hy : ¬c → Post y R) :
    Post (if c then x else y) R := by
  by_cases h : c
  · rw [if_pos h]
    exact hx h
  · rw [if_neg h]
    exact hy h

theorem Post.mono {x : Prog A α} {S : List (Sigma A) → α → Prop} (h : Post x R) (hRS : ∀ l a, R l a → S l a) :
    Post x S := fun log a hrun => hRS log a (h log a hrun)

/-- Two facts about all runs at once. -/
theorem Post.and {x : Prog A α} {S : List (Sigma A) → α → Prop} (h : Post x R) (h' : Post x S) :
    Post x fun l a => R l a ∧ S l a := fun log a hrun => ⟨h log a hrun, h' log a hrun⟩

/-- The calls that a program can make at all are those of every run. -/
theorem post_all {P : Q → Prop} {x : Prog A α} (h : x.All P) : Post x fun l _ => ∀ e ∈ l, P e.1 := fun _ _ hrun => hrun.all h

/-- One call, whose answer `b` is logged as `e b`. -/
def Logs (e : β → Sigma A) (x : Prog A β) : Prop := x.Post fun l b => l = [e b]

theorem logs_ask (q : Q) : Logs (fun r => ⟨q, r⟩) (ask q : Prog A (A q)) := post_ask fun _ => rfl

/-- A program that goes on from the answer of a call. -/
theorem post_call {e : β → Sigma A} {x : Prog A β} (hx : Logs e x) {f : β → Prog A α}
    (h : ∀ b, (f b).Post fun l a => R (e b :: l) a) : Post (x >>= f) R := by
  refine post_bind hx ?_
  rintro _ b rfl
  exact h b

/-- A program that gives up where a call does not succeed. -/
theorem post_check {e : Bool → Sigma A} {x : Prog A Bool} (hx : Logs e x) {no yes : Prog A α}
    (hno : no.Post fun l a => R (e false :: l) a) (hyes : yes.Post fun l a => R (e true :: l) a) :
    Post (do if !(← x) then no else yes) R := by
  refine post_call hx fun ok => ?_
  cases ok with
  | false => exact hno
  | true => exact hyes

end Post

end Prog

end Twrp.Base
