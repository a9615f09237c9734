import Twrp.Edify.Function

/-! Expressions and their evaluation.

An expression is a string, an operator or a function call with its operands, and the part of
the script it stands in. Each operator and each built-in function is a function of its own
that evaluates its operands itself. `eval` runs the function of a node with the evaluations
of its operands in the place of its arguments; it records where an evaluation begins and
what it gives. -/
namespace Twrp.Edify
open Base

/-! ### Expressions -/

/-- The operators, with `if` without and with `else`. -/
inductive Op where
  | plus | semicolon | and | or | not | eq | ne | ifThen | ifThenElse
deriving DecidableEq

/-- How many operands the grammar gives an operator. -/
def Op.arity : Op → Nat
  | not => 1
  | ifThenElse => 3
  | _ => 2

/-- The built-in functions, and those of `F` that are registered besides. -/
inductive Named (F : Type) where
  | ifelse | abort | assert | concat | isSubstring | lessThanInt | greaterThanInt
  | other (f : F)

/-- The part of the script a node was read from. -/
structure Span where
  start : Nat
  stop : Nat
deriving DecidableEq

inductive Expr (F : Type) where
  | literal (name : CString) (span : Span)
  | op (o : Op) (argv : Fin o.arity → Expr F) (span : Span)
  | call (f : Named F) (name : CString) (argc : Nat) (argv : Fin argc → Expr F) (span : Span)

namespace Expr
variable {F : Type}

def span : Expr F → Span
  | literal _ span => span
  | op _ _ span => span
  | call _ _ _ _ span => span

/-- `P` holds of the expression and of all that it is built from. -/
def Everywhere (P : Expr F → Prop) : Expr F → Prop
  | literal name span => P (literal name span)
  | op o argv span => P (op o argv span) ∧ ∀ i, (argv i).Everywhere P
  | call f name argc argv span => P (call f name argc argv span) ∧ ∀ i, (argv i).Everywhere P

theorem Everywhere.here {P : Expr F → Prop} {e : Expr F} (h : e.Everywhere P) : P e := by
  cases e with
  | literal name span => exact h
  | op o argv span => exact h.1
  | call f name argc argv span => exact h.1

theorem everywhere_of_forall {P : Expr F → Prop} (h : ∀ e, P e) (e : Expr F) : e.Everywhere P := by
  induction e with
  | literal name span => exact h _
  | op o argv span ih => exact ⟨h _, ih⟩
  | call f name argc argv span ih => exact ⟨h _, ih⟩

theorem Everywhere.imp {P Q : Expr F → Prop} {e : Expr F} (h : e.Everywhere P)
    (hPQ : ∀ e : Expr F, e.Everywhere P → Q e) : e.Everywhere Q := by
  induction e with
  | literal name span => exact hPQ _ h
  | op o argv span ih => exact ⟨hPQ _ h, fun i => ih i (h.2 i)⟩
  | call f name argc argv span ih => exact ⟨hPQ _ h, fun i => ih i (h.2 i)⟩

end Expr

/-! ### The functions of the operators and the built-in ones -/

section Builtins
variable {E : Type} {A : E → Type}

def ret (s : CString) : Body A := pure (some (.string s))

/-- `ConcatFn` -/
def concatFn : Function A := fun site =>
  if site.argc = 0 then ret ""
  else do
    match ← readArgs 0 site.argc with
    | none => pure none
    | some strings => ret (strings.foldr (· ++ ·) "")

/-- `IfElseFn` -/
def ifElseFn : Function A := fun site =>
  if site.argc ≠ 2 ∧ site.argc ≠ 3 then errorAbort ("ifelse expects 2 or 3 arguments" : CString).bytes
  else do
    match ← evaluate 0 with
    | none => pure none
    | some cond =>
      if booleanString cond then evaluateValue 1
      else if site.argc = 3 then evaluateValue 2
      else ret cond

/-- `AbortFn` -/
def abortFn : Function A := fun site => do
  let msg ← if site.argc > 0 then evaluate 0 else pure none
  match msg with
  | some msg => errorAbort msg.bytes
  | none => errorAbort ("called abort()" : CString).bytes

/-- The loop of `AssertFn` over `count` arguments from `i` on. -/
def assertFrom (source : Nat → List UInt8) (i : Nat) : Nat → Body A
  | 0 => ret ""
  | count + 1 => do
    match ← evaluate i with
    | none => pure none
    | some v =>
      if booleanString v then assertFrom source (i + 1) count
      else errorAbort (("assert failed: " : CString).bytes ++ source i)

/-- `AssertFn` -/
def assertFn : Function A := fun site => assertFrom site.source 0 site.argc

/-- `LogicalAndFn` -/
def logicalAndFn : Function A := fun _ => do
  match ← evaluate 0 with
  | none => pure none
  | some left => if booleanString left then evaluateValue 1 else ret left

/-- `LogicalOrFn` -/
def logicalOrFn : Function A := fun _ => do
  match ← evaluate 0 with
  | none => pure none
  | some left => if booleanString left then ret left else evaluateValue 1

/-- `LogicalNotFn` -/
def logicalNotFn : Function A := fun _ => do
  match ← evaluate 0 with
  | none => pure none
  | some val => ret (truth (!booleanString val))

/-- `SubstringFn`, `EqualityFn` and `InequalityFn`: two strings are compared. -/
def compareFn (test : CString → CString → Bool) : Body A := do
  match ← evaluate 0 with
  | none => pure none
  | some left =>
    match ← evaluate 1 with
    | none => pure none
    | some right => ret (truth (test left right))

/-- `SubstringFn`: the number of arguments is not looked at. -/
def substringFn : Function A := fun _ => compareFn fun needle haystack => haystack.strstr needle

/-- `EqualityFn` -/
def equalityFn : Function A := fun _ => compareFn fun left right => left = right

/-- `InequalityFn` -/
def inequalityFn : Function A := fun _ => compareFn fun left right => left ≠ right

/-- `SequenceFn` -/
def sequenceFn : Function A := fun _ => do
  match ← evaluateValue 0 with
  | none => pure none
  | some _ => evaluateValue 1

/-- The number that is all of the string, as `strtol` reads it. -/
def wholeInt (s : CString) : Option Int := if s.bytes = [] ∨ s.strtol.2 ≠ [] then none else some s.strtol.1

/-- The message of `LessThanIntFn` for a string that is not a number. -/
def notInt (s : CString) : Message := .stdout (("[" : CString) ++ s ++ ("] is not an int\n" : CString)).bytes

/-- `LessThanIntFn` on two arguments, from the strings on. -/
def lessThanInt (left right : CString) : Body A :=
  match wholeInt left with
  | none => do
    say (notInt left)
    ret (truth false)
  | some l =>
    match wholeInt right with
    | none => do
      say (notInt right)
      ret (truth false)
    | some r => ret (truth (l < r))

/-- `LessThanIntFn` -/
def lessThanIntFn : Function A := fun site =>
  if site.argc ≠ 2 then errorAbort ("less_than_int expects 2 arguments" : CString).bytes
  else do
    match ← readArgs 0 2 with
    | some [left, right] => lessThanInt left right
    | _ => pure none

/-- `GreaterThanIntFn`: `LessThanIntFn` on the arguments the other way round. -/
def greaterThanIntFn : Function A := fun site =>
  if site.argc ≠ 2 then errorAbort ("greater_than_int expects 2 arguments" : CString).bytes
  else do
    match ← evaluate 1 with
    | none => pure none
    | some left =>
      match ← evaluate 0 with
      | none => pure none
      | some right => lessThanInt left right

/-- The function that the grammar builds an operator with. -/
def Op.fn : Op → Function A
  | plus => concatFn
  | semicolon => sequenceFn
  | and => logicalAndFn
  | or => logicalOrFn
  | not => logicalNotFn
  | eq => equalityFn
  | ne => inequalityFn
  | ifThen => ifElseFn
  | ifThenElse => ifElseFn

/-- The function table. -/
def Named.fn {F : Type} (env : F → Function A) : Named F → Function A
  | ifelse => ifElseFn
  | abort => abortFn
  | assert => assertFn
  | concat => concatFn
  | isSubstring => substringFn
  | lessThanInt => lessThanIntFn
  | greaterThanInt => greaterThanIntFn
  | other f => env f

end Builtins

/-! ### Evaluation -/

/-- What happens while an expression is evaluated; a sub-expression is named by the way to it
from the root. -/
inductive Event (E : Type) where
  | enter (path : List Nat)
  | leave (path : List Nat) (v : Option Value)
  | say (m : Message)
  | act (e : E)
  | undefined

section Eval
variable {E : Type} {A : E → Type}

variable (A) in
def Reply : Event E → Type
  | .act e => A e
  | .undefined => Empty
  | _ => Unit

variable (A) in
abbrev Tree (α : Type) := Prog (Reply A) α

/-- The end of `Evaluate`: a value that is not a string is an error. -/
def expectString : Option Value → Tree A (Option CString)
  | none => pure none
  | some (.string s) => pure (some s)
  | some (.blob _) => do
    Prog.ask (Event.say (.errmsg ("expecting string, got value type 2" : CString).bytes))
    pure none

/-- The calls of a function, for the evaluations of its arguments. -/
def answer (args : Nat → Tree A (Option Value)) : (q : Call E) → Tree A (Answer A q)
  | .value i => args i
  | .string i => args i >>= expectString
  | .say m => Prog.ask (Event.say m)
  | .act e => Prog.ask (Event.act e)
  | .undefined => Prog.ask Event.undefined

/-- One node: `expr->fn(expr->name, state, expr->argc, expr->argv)`. -/
def node (path : List Nat) (args : Nat → Tree A (Option Value)) (body : Body A) : Tree A (Option Value) := do
  let _ ← Prog.ask (Event.enter path)
  let v ← body.handle (answer args)
  let _ ← Prog.ask (Event.leave path v)
  pure v

/-- The arguments of a node; there are none past the end of `argv`. -/
def operands {argc : Nat} (argv : Fin argc → Tree A (Option Value)) (i : Nat) : Tree A (Option Value) :=
  if h : i < argc then argv ⟨i, h⟩ else .call Event.undefined Empty.elim

/-- The bytes of the script that a span names. -/
def Span.text (script : List UInt8) (s : Span) : List UInt8 := (script.drop s.start).take (s.stop - s.start)

variable {F : Type}

/-- What a function is called with at a node. -/
def site (script : List UInt8) (name : CString) {argc : Nat} (argv : Fin argc → Expr F) : Site where
  name := name
  argc := argc
  source i := if h : i < argc then (argv ⟨i, h⟩).span.text script else []

/-- `EvaluateValue` -/
def eval (script : List UInt8) (env : F → Function A) (path : List Nat) : Expr F → Tree A (Option Value)
  | .literal name _ => node path (operands fun i : Fin 0 => i.elim0) (ret name)
  | .op o argv _ =>
    node path (operands fun i => eval script env (path ++ [i.val]) (argv i)) (o.fn (site script "(operator)" argv))
  | .call f name _ argv _ =>
    node path (operands fun i => eval script env (path ++ [i.val]) (argv i)) (f.fn env (site script name argv))

end Eval

end Twrp.Edify
