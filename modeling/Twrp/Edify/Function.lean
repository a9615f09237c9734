import Twrp.Base.CString
import Twrp.Base.Prog

/-! Functions of the script language.

A function is handed its arguments unevaluated and evaluates those it wants, when it wants:
`Evaluate` for a string, `EvaluateValue` for any value. The body of a function is a program
over these calls, over the error message and the log, and over what it does to the world.
An argument that aborts gives NULL, and a function is then to return NULL and do nothing
more (`QuietAt`). -/
namespace Twrp.Edify
open Base

/-- `Value`: a string, or data of a given size; the size is negative where there are none. -/
inductive Value where
  | string (s : CString)
  | blob (data : Option (List UInt8))
deriving DecidableEq

/-- `BooleanString` -/
def booleanString (s : CString) : Bool := s.bytes ≠ []

/-- The two truth values of the functions. -/
def truth (b : Bool) : CString := if b then "t" else ""

/-- What is told to the user and has no part in the evaluation. -/
inductive Message where
  /-- `state->errmsg` is set -/
  | errmsg (text : List UInt8)
  /-- printed to the log -/
  | stdout (text : List UInt8)

/-- What a function calls on; `E` is what it does to the world. -/
inductive Call (E : Type) where
  /-- `EvaluateValue(state, argv[i])` -/
  | value (i : Nat)
  /-- `Evaluate(state, argv[i])` -/
  | string (i : Nat)
  | say (m : Message)
  | act (e : E)
  /-- memory is used that is not there, or is freed again: nothing is known from here on -/
  | undefined

section Bodies
variable {E : Type} (A : E → Type)

def Answer : Call E → Type
  | .value _ => Option Value
  | .string _ => Option CString
  | .say _ => Unit
  | .act e => A e
  | .undefined => Empty

/-- The body of a function on its way to a result of type `α`. -/
abbrev Partial (α : Type) := Prog (Answer A) α

/-- The body of a function; it returns a value or NULL. -/
abbrev Body := Partial A (Option Value)

/-- What a function is called with: its name, the number of its arguments, and the text of
each argument in the script. -/
structure Site where
  name : CString
  argc : Nat
  source : Nat → List UInt8

abbrev Function := Site → Body A

end Bodies

section Calls
variable {E : Type} {A : E → Type}

/-- `EvaluateValue(state, argv[i])` -/
def evaluateValue (i : Nat) : Partial A (Option Value) := Prog.ask (Call.value i)

/-- `Evaluate(state, argv[i])` -/
def evaluate (i : Nat) : Partial A (Option CString) := Prog.ask (Call.string i)

def say (m : Message) : Partial A Unit := Prog.ask (Call.say m)

def act (e : E) : Partial A (A e) := Prog.ask (Call.act e)

/-- The message of `ErrorAbort`, which returns NULL. -/
def errorAbort (text : List UInt8) : Body A := do
  say (.errmsg text)
  pure none

/-- Memory is misused. -/
def undefined {α : Type} : Partial A α := .call Call.undefined Empty.elim

/-- The loop of `ReadArgs` and its three relatives over `count` arguments from `start` on; it
ends at the first that aborts. -/
def readAll {α : Type} (read : Nat → Partial A (Option α)) (start : Nat) : Nat → Partial A (Option (List α))
  | 0 => pure (some [])
  | count + 1 => do
    match ← read start with
    | none => pure none
    | some arg =>
      match ← readAll read (start + 1) count with
      | none => pure none
      | some args => pure (some (arg :: args))

/-- `ReadArgs`, and `ReadVarArgs` on `argv + start`. -/
def readArgs (start count : Nat) : Partial A (Option (List CString)) := readAll evaluate start count

/-- `ReadValueArgs`, and `ReadValueVarArgs` on `argv + start`. -/
def readValueArgs (start count : Nat) : Partial A (Option (List Value)) := readAll evaluateValue start count

end Calls

/-! ### Aborting arguments -/

section Abort
variable {E : Type} {A : E → Type}

/-- The function returns NULL and does nothing before but set a message. -/
def Quiet : Body A → Prop
  | .done v => v = none
  | .call (.say _) k => Quiet (k ())
  | .call _ _ => False

/-- Where argument `n` aborts, nothing more is done and the result is NULL. -/
def QuietAt (n : Nat) : Body A → Prop
  | .done _ => True
  | .call (.value i) k => (i = n → Quiet (k none)) ∧ ∀ v, QuietAt n (k (some v))
  | .call (.string i) k => (i = n → Quiet (k none)) ∧ ∀ s, QuietAt n (k (some s))
  | .call (.say _) k => QuietAt n (k ())
  | .call (.act _) k => ∀ r, QuietAt n (k r)
  | .call .undefined _ => True

/-- No argument is evaluated any more. -/
def NoArgs {α : Type} (x : Partial A α) : Prop :=
  x.All fun
    | .value _ => False
    | .string _ => False
    | _ => True

variable {α : Type}

/-- The reading of one argument: NULL where it aborts. -/
def Reads (n i : Nat) (read : Partial A (Option α)) : Prop :=
  ∀ f : Option α → Body A, QuietAt n (read >>= f) ↔ (i = n → Quiet (f none)) ∧ ∀ a, QuietAt n (f (some a))

theorem reads_evaluateValue (n i : Nat) : Reads n i (evaluateValue i : Partial A _) := fun _ => Iff.rfl

theorem reads_evaluate (n i : Nat) : Reads n i (evaluate i : Partial A _) := fun _ => Iff.rfl

theorem bind_bind {β γ : Type} (x : Partial A α) (f : α → Partial A β) (g : β → Partial A γ) :
    (x >>= f) >>= g = x >>= fun a => f a >>= g :=
  Prog.bind_assoc x f g

/-- A list of arguments: where one of them aborts, there is no list. -/
theorem quietAt_readAll [Nonempty α] (n : Nat) {read : Nat → Partial A (Option α)} (hread : ∀ i, Reads n i (read i))
    {start count : Nat} {f : Option (List α) → Body A} :
    QuietAt n (readAll read start count >>= f) ↔
      (start ≤ n ∧ n < start + count → Quiet (f none)) ∧ ∀ args, args.length = count → QuietAt n (f (some args)) := by
  induction count generalizing start f with
  | zero =>
    constructor
    · intro h
      refine ⟨fun hn => by omega, fun args hargs => ?_⟩
      rw [List.length_eq_zero_iff.mp hargs]
      exact h
    · intro h
      exact h.2 [] rfl
  | succ count ih =>
    rw [readAll, bind_bind, hread start]
    constructor
    · intro ⟨hfirst, hrest⟩
      constructor
      · intro hn
        by_cases hstart : start = n
        · exact hfirst hstart
        · obtain ⟨arg⟩ := ‹Nonempty α›
          have hnext := hrest arg
          simp only [bind_bind] at hnext
          exact (ih.mp hnext).1 ⟨by omega, by omega⟩
      · intro args hargs
        obtain ⟨arg, args, rfl⟩ := List.exists_cons_of_length_eq_add_one hargs
        have hnext := hrest arg
        simp only [bind_bind] at hnext
        exact (ih.mp hnext).2 args (Nat.succ.inj hargs)
    · intro ⟨hnone, hsome⟩
      refine ⟨fun hstart => hnone ⟨by omega, by omega⟩, fun arg => ?_⟩
      simp only [bind_bind]
      refine ih.mpr ⟨fun hn => hnone ⟨by omega, by omega⟩, fun args hargs => ?_⟩
      exact hsome (arg :: args) (by simp [hargs])

instance : Nonempty CString := ⟨""⟩

instance : Nonempty Value := ⟨.string ""⟩

theorem quietAt_readArgs_iff (n : Nat) {start count : Nat} {f : Option (List CString) → Body A} :
    QuietAt n (readArgs start count >>= f) ↔
      (start ≤ n ∧ n < start + count → Quiet (f none)) ∧ ∀ args, args.length = count → QuietAt n (f (some args)) :=
  quietAt_readAll n (reads_evaluate n)

theorem quietAt_readValueArgs_iff (n : Nat) {start count : Nat} {f : Option (List Value) → Body A} :
    QuietAt n (readValueArgs start count >>= f) ↔
      (start ≤ n ∧ n < start + count → Quiet (f none)) ∧ ∀ args, args.length = count → QuietAt n (f (some args)) :=
  quietAt_readAll n (reads_evaluateValue n)

/-- A function that returns NULL where it has no list. -/
theorem quietAt_readArgs (n : Nat) {start count : Nat} {f : Option (List CString) → Body A} (hnone : Quiet (f none))
    (hsome : ∀ args, args.length = count → QuietAt n (f (some args))) : QuietAt n (readArgs start count >>= f) :=
  (quietAt_readArgs_iff n).mpr ⟨fun _ => hnone, hsome⟩

theorem quietAt_readValueArgs (n : Nat) {start count : Nat} {f : Option (List Value) → Body A} (hnone : Quiet (f none))
    (hsome : ∀ args, args.length = count → QuietAt n (f (some args))) : QuietAt n (readValueArgs start count >>= f) :=
  (quietAt_readValueArgs_iff n).mpr ⟨fun _ => hnone, hsome⟩

end Abort

end Twrp.Edify
