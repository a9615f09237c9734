import Twrp.Edify.Expr

/-! The language as the README describes it.

For each operator and each built-in function a rule says what comes next once the operands
evaluated so far have given their values: another operand, a result, or an abort. What an
abort of an operand means is said once, for all rules (`follow`). `eval_follows` compares
the functions of the program with the rules. -/
namespace Twrp.Edify
open Base

/-! ### The rules -/

/-- What comes next. -/
inductive Next where
  | operand (i : Nat)
  | result (v : Value)
  | abort

/-- A rule, on the values of the operands in the order in which they were evaluated. -/
abbrev Rule := List Value → Next

def Value.string? : Value → Option CString
  | string s => some s
  | blob _ => none

/-- The strings, where all values are strings. -/
def strings : List Value → Option (List CString)
  | [] => some []
  | .string s :: vs => (strings vs).map (s :: ·)
  | .blob _ :: _ => none

/-- A string is wanted, and any other value is an error. -/
def expecting (v : Value) (f : CString → Next) : Next :=
  match v.string? with
  | none => .abort
  | some s => f s

/-- Strings are concatenated, one operand after the other. -/
def concatRule (argc : Nat) : Rule := fun vs =>
  match strings vs with
  | none => .abort
  | some ss => if ss.length < argc then .operand ss.length else .result (.string (ss.foldr (· ++ ·) ""))

/-- "evaluating it just means to first evaluate the left side, then the right" -/
def sequenceRule : Rule
  | [] => .operand 0
  | [_] => .operand 1
  | _ :: v :: _ => .result v

/-- "they evaluate their second argument only if it's needed to determine the truth of the
expression"; `needed` is the truth of the first at which it is. -/
def logicalRule (needed : Bool) : Rule
  | [] => .operand 0
  | [left] => expecting left fun s => if booleanString s = needed then .operand 1 else .result (.string s)
  | _ :: v :: _ => .result v

def notRule : Rule
  | [] => .operand 0
  | v :: _ => expecting v fun s => .result (.string (truth (!booleanString s)))

/-- Two strings are compared. -/
def compareRule (test : CString → CString → Bool) : Rule
  | [] => .operand 0
  | [left] => expecting left fun _ => .operand 1
  | left :: right :: _ => expecting left fun l => expecting right fun r => .result (.string (truth (test l r)))

/-- "it evaluates exactly one of the second and third, depending on whether the first one is
true"; without a third it "evaluates to false". -/
def ifElseRule (argc : Nat) : Rule := fun vs =>
  if argc ≠ 2 ∧ argc ≠ 3 then .abort
  else
    match vs with
    | [] => .operand 0
    | [cond] => expecting cond fun s =>
      if booleanString s then .operand 1 else if argc = 3 then .operand 2 else .result (.string s)
    | _ :: v :: _ => .result v

def abortRule (argc : Nat) : Rule := fun vs => if vs.length < argc ∧ vs = [] then .operand 0 else .abort

/-- `assert(condition())` is `ifelse(condition(), "", abort())`. -/
def assertRule (argc : Nat) : Rule := fun vs =>
  match strings vs with
  | none => .abort
  | some ss =>
    if ss.all booleanString then if ss.length < argc then .operand ss.length else .result (.string "")
    else .abort

/-- A comparison of numbers is false where one is not a number. -/
def intTest (test : Int → Int → Bool) (left right : CString) : Bool :=
  match wholeInt left, wholeInt right with
  | some l, some r => test l r
  | _, _ => false

/-- A function of exactly, or at least, so many arguments. -/
def arityRule (ok : Prop) [Decidable ok] (rule : Rule) : Rule := fun vs => if ok then rule vs else .abort

def Op.rule : Op → Rule
  | plus => concatRule 2
  | semicolon => sequenceRule
  | and => logicalRule true
  | or => logicalRule false
  | not => notRule
  | eq => compareRule fun left right => left = right
  | ne => compareRule fun left right => left ≠ right
  | ifThen => ifElseRule 2
  | ifThenElse => ifElseRule 3

/-- The rules of the built-in functions; the others have none. -/
def Named.rule {F : Type} (argc : Nat) : Named F → Option Rule
  | ifelse => some (ifElseRule argc)
  | abort => some (abortRule argc)
  | assert => some (assertRule argc)
  | concat => some (concatRule argc)
  | isSubstring => some (arityRule (2 ≤ argc) (compareRule fun needle haystack => haystack.strstr needle))
  | lessThanInt => some (arityRule (argc = 2) (compareRule (intTest fun l r => l < r)))
  | greaterThanInt => some (arityRule (argc = 2) (compareRule (intTest fun l r => r < l)))
  | other _ => none

section Meaning
variable {E : Type} {A : E → Type}

/-- Operand after operand as the rule says; an operand that aborts is the last. -/
def follow (rule : Rule) : Nat → List Value → Body A
  | 0, _ => pure none
  | n + 1, vs =>
    match rule vs with
    | .operand i => do
      match ← evaluateValue i with
      | none => pure none
      | some v => follow rule n (vs ++ [v])
    | .result v => pure (some v)
    | .abort => pure none

/-- A body without its messages, with `Evaluate` as `EvaluateValue` and a test. -/
def plain : Body A → Body A
  | .done v => .done v
  | .call (.value i) k => .call (.value i) fun v => plain (k v)
  | .call (.string i) k => .call (.value i) fun
    | none => plain (k none)
    | some (.string s) => plain (k (some s))
    | some (.blob _) => plain (k none)
  | .call (.say _) k => plain (k ())
  | .call (.act e) k => .call (.act e) fun r => plain (k r)
  | .call .undefined k => .call .undefined fun r => plain (k r)

variable {F : Type}

/-- What a function of the table means: by its rule, or as it is. -/
def Named.meaning (env : F → Function A) (f : Named F) (site : Site) : Body A :=
  match f.rule site.argc with
  | some rule => follow rule (site.argc + 1) []
  | none => plain (f.fn env site)

/-- The evaluation of an expression by the rules. -/
def readme (script : List UInt8) (env : F → Function A) (path : List Nat) : Expr F → Tree A (Option Value)
  | .literal name _ => node path (operands fun i : Fin 0 => i.elim0) (ret name)
  | .op o argv _ =>
    node path (operands fun i => readme script env (path ++ [i.val]) (argv i)) (follow o.rule (o.arity + 1) [])
  | .call f name _ argv _ =>
    node path (operands fun i => readme script env (path ++ [i.val]) (argv i)) (f.meaning env (site script name argv))

/-- An evaluation without its messages. -/
def erase {α : Type} : Tree A α → Tree A α
  | .done a => .done a
  | .call (.enter path) k => .call (.enter path) fun r => erase (k r)
  | .call (.leave path v) k => .call (.leave path v) fun r => erase (k r)
  | .call (.say _) k => erase (k ())
  | .call (.act e) k => .call (.act e) fun r => erase (k r)
  | .call .undefined k => .call .undefined fun r => erase (k r)

end Meaning

/-! ### The functions keep to the rules -/

section Plain
variable {E : Type} {A : E → Type}

theorem plain_string (i : Nat) (k : Answer A (.string i) → Body A) :
    plain (.call (.string i) k) = .call (.value i) fun
      | none => plain (k none)
      | some (.string s) => plain (k (some s))
      | some (.blob _) => plain (k none) := by
  rw [plain]

theorem plain_evaluate (i : Nat) (f : Option CString → Body A) :
    plain (evaluate i >>= f) = evaluateValue i >>= fun
      | none => plain (f none)
      | some (.string s) => plain (f (some s))
      | some (.blob _) => plain (f none) := by
  refine (plain_string i f).trans (congrArg (Prog.call (Call.value i)) (funext fun v => ?_))
  rcases v with _ | s | data <;> rfl

theorem plain_evaluateValue (i : Nat) (f : Option Value → Body A) :
    plain (evaluateValue i >>= f) = evaluateValue i >>= fun v => plain (f v) := rfl

theorem follow_operand {rule : Rule} {vs : List Value} {i : Nat} (h : rule vs = .operand i) (n : Nat) :
    (follow rule (n + 1) vs : Body A) = evaluateValue i >>= fun
      | none => pure none
      | some v => follow rule n (vs ++ [v]) := by
  rw [follow, h]

theorem follow_result {rule : Rule} {vs : List Value} {v : Value} (h : rule vs = .result v) (n : Nat) :
    (follow rule (n + 1) vs : Body A) = pure (some v) := by
  rw [follow, h]

theorem follow_abort {rule : Rule} {vs : List Value} (h : rule vs = .abort) (n : Nat) :
    (follow rule (n + 1) vs : Body A) = pure none := by
  rw [follow, h]

theorem strings_map (ss : List CString) : strings (ss.map .string) = some ss := by
  induction ss with
  | nil => rfl
  | cons s ss ih => simp [strings, ih]

theorem strings_blob (ss : List CString) (data : Option (List UInt8)) : strings (ss.map .string ++ [.blob data]) = none := by
  induction ss with
  | nil => rfl
  | cons s ss ih => simp [strings, ih]

/-- `ConcatFn` with the strings `ss` read and `count` to go. -/
theorem plain_concatFrom (ss : List CString) (count : Nat) :
    plain (readArgs ss.length count >>= fun
        | none => pure none
        | some rest => ret ((ss ++ rest).foldr (· ++ ·) "") : Body A) =
      follow (concatRule (ss.length + count)) (count + 1) (ss.map .string) := by
  induction count generalizing ss with
  | zero =>
    have hrule : concatRule (ss.length + 0) (ss.map .string) = .result (.string (ss.foldr (· ++ ·) "")) := by
      rw [concatRule, strings_map]
      exact if_neg (Nat.lt_irrefl _)
    rw [follow_result hrule]
    have hnil : ss ++ [] = ss := List.append_nil ss
    exact congrArg (fun l => (ret (l.foldr (· ++ ·) "") : Body A)) hnil
  | succ count ih =>
    have hrule : concatRule (ss.length + (count + 1)) (ss.map .string) = .operand ss.length := by
      rw [concatRule, strings_map]
      exact if_pos (by omega)
    rw [follow_operand hrule, readArgs, readAll, bind_bind, plain_evaluate]
    refine congrArg _ (funext fun v => ?_)
    rcases v with _ | s | data
    · rfl
    · have hnext := ih (ss ++ [s])
      have hcount : (ss ++ [s]).length + count = ss.length + (count + 1) := by simp; omega
      rw [hcount] at hnext
      simp only [List.map_append, List.map_cons, List.map_nil] at hnext
      simp only [bind_bind]
      rw [← hnext, List.length_append, List.length_singleton]
      refine congrArg plain (congrArg _ (funext fun rest => ?_))
      cases rest with
      | none => rfl
      | some rest =>
        have hlist : ss ++ s :: rest = ss ++ [s] ++ rest := List.append_cons ss s rest
        exact congrArg (fun l => (ret (l.foldr (· ++ ·) "") : Body A)) hlist
    · have hblob : concatRule (ss.length + (count + 1)) (ss.map .string ++ [.blob data]) = .abort := by
        rw [concatRule, strings_blob]
      simp only
      rw [follow_abort hblob]
      rfl

theorem plain_concatFn (site : Site) :
    plain (concatFn site : Body A) = follow (concatRule site.argc) (site.argc + 1) [] := by
  by_cases hargc : site.argc = 0
  · rw [concatFn, if_pos hargc, hargc]
    rfl
  · rw [concatFn, if_neg hargc]
    have h := plain_concatFrom (A := A) [] site.argc
    simp only [List.length_nil, Nat.zero_add, List.map_nil, List.nil_append] at h
    exact h

/-- `AssertFn` with the strings `ss` read, all of them true, and `count` to go. -/
theorem plain_assertFrom (source : Nat → List UInt8) (ss : List CString) (htrue : ss.all booleanString = true) (count : Nat) :
    plain (assertFrom source ss.length count : Body A) =
      follow (assertRule (ss.length + count)) (count + 1) (ss.map .string) := by
  induction count generalizing ss with
  | zero =>
    have hrule : assertRule (ss.length + 0) (ss.map .string) = .result (.string "") := by
      rw [assertRule, strings_map]
      exact (if_pos htrue).trans (if_neg (Nat.lt_irrefl _))
    rw [follow_result hrule]
    rfl
  | succ count ih =>
    have hrule : assertRule (ss.length + (count + 1)) (ss.map .string) = .operand ss.length := by
      rw [assertRule, strings_map]
      exact (if_pos htrue).trans (if_pos (by omega))
    rw [follow_operand hrule, assertFrom, plain_evaluate]
    refine congrArg _ (funext fun v => ?_)
    rcases v with _ | s | data
    · rfl
    · by_cases hs : booleanString s = true
      · have hall : (ss ++ [s]).all booleanString = true := by simp [htrue, hs]
        have hnext := ih (ss ++ [s]) hall
        have hcount : (ss ++ [s]).length + count = ss.length + (count + 1) := by simp; omega
        rw [hcount, List.map_append, List.length_append] at hnext
        simp only [hs, if_true]
        exact hnext
      · have hfalse : assertRule (ss.length + (count + 1)) (ss.map .string ++ [.string s]) = .abort := by
          have hmap : ss.map Value.string ++ [.string s] = (ss ++ [s]).map .string := by simp
          rw [hmap, assertRule, strings_map]
          exact if_neg (by simp [hs])
        simp only [hs]
        rw [follow_abort hfalse]
        rfl
    · have hblob : assertRule (ss.length + (count + 1)) (ss.map .string ++ [.blob data]) = .abort := by
        rw [assertRule, strings_blob]
      simp only
      rw [follow_abort hblob]
      rfl

theorem plain_assertFn (site : Site) :
    plain (assertFn site : Body A) = follow (assertRule site.argc) (site.argc + 1) [] := by
  have h := plain_assertFrom (A := A) site.source [] rfl site.argc
  simp only [List.length_nil, Nat.zero_add, List.map_nil] at h
  exact h

theorem plain_abortFn (site : Site) :
    plain (abortFn site : Body A) = follow (abortRule site.argc) (site.argc + 1) [] := by
  by_cases hargc : site.argc > 0
  · have hrule : abortRule site.argc [] = .operand 0 := if_pos ⟨hargc, rfl⟩
    obtain ⟨n, hn⟩ : ∃ n, site.argc = n + 1 := ⟨site.argc - 1, by omega⟩
    rw [follow_operand hrule, abortFn, if_pos hargc, plain_evaluate]
    refine congrArg _ (funext fun v => ?_)
    have habort (v : Value) : (follow (abortRule site.argc) site.argc ([] ++ [v]) : Body A) = pure none := by
      rw [hn]
      exact follow_abort (if_neg (by simp)) n
    rcases v with _ | s | data
    · rfl
    · exact (habort _).symm
    · exact (habort _).symm
  · have hrule : abortRule site.argc [] = .abort := if_neg fun h => hargc h.1
    rw [follow_abort hrule, abortFn, if_neg hargc]
    rfl

/-- A function that reads two strings and gives a result keeps to the rule of comparisons. -/
theorem plain_compare {test : CString → CString → Bool} {f : CString → CString → Body A}
    (hf : ∀ l r, plain (f l r) = ret (truth (test l r))) (n : Nat) :
    plain (evaluate 0 >>= fun
        | none => pure none
        | some left => evaluate 1 >>= fun
          | none => pure none
          | some right => f left right) = follow (compareRule test) (n + 3) [] := by
  rw [follow_operand rfl, plain_evaluate]
  refine congrArg _ (funext fun v => ?_)
  rcases v with _ | left | data
  · rfl
  · simp only
    rw [follow_operand rfl, plain_evaluate]
    refine congrArg _ (funext fun v => ?_)
    rcases v with _ | right | data
    · rfl
    · exact hf left right
    · rfl
  · rfl

theorem plain_compareFn (test : CString → CString → Bool) (n : Nat) :
    plain (compareFn test : Body A) = follow (compareRule test) (n + 3) [] :=
  plain_compare (fun _ _ => rfl) n

theorem plain_lessThanInt (left right : CString) :
    plain (lessThanInt left right : Body A) = ret (truth (intTest (fun l r => l < r) left right)) := by
  unfold lessThanInt intTest
  cases hl : wholeInt left with
  | none => rfl
  | some l =>
    cases hr : wholeInt right with
    | none => rfl
    | some r => rfl

theorem arityRule_pos {ok : Prop} [Decidable ok] (h : ok) (rule : Rule) : arityRule ok rule = rule :=
  funext fun _ => if_pos h

theorem arityRule_neg {ok : Prop} [Decidable ok] (h : ¬ok) (rule : Rule) (vs : List Value) : arityRule ok rule vs = .abort :=
  if_neg h

theorem plain_lessThanIntFn (site : Site) :
    plain (lessThanIntFn site : Body A) =
      follow (arityRule (site.argc = 2) (compareRule (intTest fun l r => l < r))) (site.argc + 1) [] := by
  by_cases hargc : site.argc = 2
  · rw [arityRule_pos hargc, lessThanIntFn, if_neg (not_not.mpr hargc), hargc, ← plain_compare plain_lessThanInt 0]
    simp only [readArgs, readAll, bind_bind]
    refine congrArg plain (congrArg _ (funext fun v => ?_))
    rcases v with _ | left
    · rfl
    · simp only [bind_bind]
      refine congrArg _ (funext fun v => ?_)
      rcases v with _ | right <;> rfl
  · rw [follow_abort (arityRule_neg hargc _ _), lessThanIntFn, if_pos hargc]
    rfl

/-- Past the check of their number, the arguments of `greater_than_int` come in the wrong order. -/
theorem plain_greaterThanIntFn {site : Site} (hargc : site.argc ≠ 2) :
    plain (greaterThanIntFn site : Body A) =
      follow (arityRule (site.argc = 2) (compareRule (intTest fun l r => r < l))) (site.argc + 1) [] := by
  rw [follow_abort (arityRule_neg hargc _ _), greaterThanIntFn, if_pos hargc]
  rfl

theorem plain_substringFn {site : Site} (hargc : 2 ≤ site.argc) :
    plain (substringFn site : Body A) =
      follow (arityRule (2 ≤ site.argc) (compareRule fun needle haystack => haystack.strstr needle)) (site.argc + 1) [] := by
  obtain ⟨n, hn⟩ : ∃ n, site.argc = n + 2 := ⟨site.argc - 2, by omega⟩
  rw [arityRule_pos hargc, hn]
  exact plain_compareFn _ n

/-- Where the first operand decides whether another is evaluated. -/
theorem plain_branch {rule : Rule} {f : CString → Body A} (hfirst : rule [] = .operand 0)
    (hblob : ∀ data, rule [.blob data] = .abort) {n : Nat}
    (hf : ∀ s, plain (f s) = follow rule (n + 1) [.string s]) :
    plain (evaluate 0 >>= fun
        | none => pure none
        | some s => f s) = follow rule (n + 2) [] := by
  rw [follow_operand hfirst, plain_evaluate]
  refine congrArg _ (funext fun v => ?_)
  rcases v with _ | s | data
  · rfl
  · exact hf s
  · exact (follow_abort (hblob data) n).symm

/-- The last operand is the result. -/
theorem plain_last {rule : Rule} {vs : List Value} {i : Nat} (hrule : rule vs = .operand i)
    (hresult : ∀ v, rule (vs ++ [v]) = .result v) (n : Nat) :
    plain (evaluateValue i : Body A) = follow rule (n + 2) vs := by
  rw [follow_operand hrule]
  refine congrArg (Prog.call (Call.value i)) (funext fun v => ?_)
  rcases v with _ | v
  · rfl
  · exact (follow_result (hresult v) n).symm

theorem plain_logicalAndFn (site : Site) : plain (logicalAndFn site : Body A) = follow (logicalRule true) 3 [] := by
  refine plain_branch rfl (fun _ => rfl) fun s => ?_
  by_cases hs : booleanString s = true
  · rw [if_pos hs]
    exact plain_last (if_pos hs) (fun _ => rfl) 0
  · rw [if_neg hs]
    exact (follow_result (if_neg hs) 1).symm

theorem plain_logicalOrFn (site : Site) : plain (logicalOrFn site : Body A) = follow (logicalRule false) 3 [] := by
  refine plain_branch rfl (fun _ => rfl) fun s => ?_
  by_cases hs : booleanString s = true
  · rw [if_pos hs]
    exact (follow_result (if_neg (by simp [hs])) 1).symm
  · rw [if_neg hs]
    exact plain_last (if_pos (by simp [hs])) (fun _ => rfl) 0

theorem plain_logicalNotFn (site : Site) : plain (logicalNotFn site : Body A) = follow notRule 2 [] :=
  plain_branch rfl (fun _ => rfl) fun _ => rfl

theorem plain_sequenceFn (site : Site) : plain (sequenceFn site : Body A) = follow sequenceRule 3 [] := by
  rw [follow_operand rfl, sequenceFn, plain_evaluateValue]
  refine congrArg _ (funext fun v => ?_)
  rcases v with _ | v
  · rfl
  · exact plain_last rfl (fun _ => rfl) 0

theorem plain_ifElseFn (site : Site) :
    plain (ifElseFn site : Body A) = follow (ifElseRule site.argc) (site.argc + 1) [] := by
  by_cases hargc : site.argc ≠ 2 ∧ site.argc ≠ 3
  · rw [ifElseFn, if_pos hargc, follow_abort (if_pos hargc)]
    rfl
  · obtain ⟨n, hn⟩ : ∃ n, site.argc = n + 2 := ⟨site.argc - 2, by omega⟩
    rw [ifElseFn, if_neg hargc]
    have hrule (vs : List Value) : ifElseRule site.argc vs = match vs with
        | [] => .operand 0
        | [cond] => expecting cond fun s =>
          if booleanString s then .operand 1 else if site.argc = 3 then .operand 2 else .result (.string s)
        | _ :: v :: _ => .result v := if_neg hargc
    have hfuel : site.argc + 1 = n + 1 + 2 := by omega
    rw [hfuel]
    refine plain_branch (hrule []) (fun data => hrule [.blob data]) fun s => ?_
    by_cases hs : booleanString s = true
    · rw [if_pos hs]
      exact plain_last ((hrule [.string s]).trans (if_pos hs)) (fun v => hrule _) n
    · rw [if_neg hs]
      by_cases hthree : site.argc = 3
      · rw [if_pos hthree]
        exact plain_last ((hrule [.string s]).trans ((if_neg hs).trans (if_pos hthree))) (fun v => hrule _) n
      · rw [if_neg hthree]
        exact (follow_result ((hrule [.string s]).trans ((if_neg hs).trans (if_neg hthree))) (n + 1)).symm

end Plain

/-! ### The functions pass an abort on -/

section Quiet
variable {E : Type} {A : E → Type} (n : Nat)

theorem quietAt_ret (s : CString) : QuietAt n (ret s : Body A) := trivial

/-- One string, and the rest of the function. -/
theorem quietAt_evaluate (i : Nat) {f : CString → Body A} (hf : ∀ s, QuietAt n (f s)) :
    QuietAt n (evaluate i >>= fun
      | none => pure none
      | some s => f s) :=
  ⟨fun _ => rfl, hf⟩

theorem quietAt_evaluateValue (i : Nat) : QuietAt n (evaluateValue i : Body A) := ⟨fun _ => rfl, fun _ => trivial⟩

theorem quietAt_ite {c : Prop} [Decidable c] {x y : Body A} (hx : QuietAt n x) (hy : QuietAt n y) :
    QuietAt n (if c then x else y) := by
  split
  · exact hx
  · exact hy

theorem quietAt_concatFn (site : Site) : QuietAt n (concatFn site : Body A) :=
  quietAt_ite n trivial (quietAt_readArgs n rfl fun _ _ => trivial)

theorem quietAt_ifElseFn (site : Site) : QuietAt n (ifElseFn site : Body A) := by
  refine quietAt_ite n trivial (quietAt_evaluate n 0 fun cond => ?_)
  exact quietAt_ite n (quietAt_evaluateValue n 1) (quietAt_ite n (quietAt_evaluateValue n 2) trivial)

theorem quietAt_abortFn (site : Site) : QuietAt n (abortFn site : Body A) := by
  unfold abortFn
  by_cases hargc : site.argc > 0
  · rw [if_pos hargc]
    exact ⟨fun _ => rfl, fun _ => trivial⟩
  · rw [if_neg hargc]
    exact trivial

theorem quietAt_assertFrom (source : Nat → List UInt8) (i count : Nat) : QuietAt n (assertFrom source i count : Body A) := by
  induction count generalizing i with
  | zero => trivial
  | succ count ih => exact quietAt_evaluate n i fun s => quietAt_ite n (ih (i + 1)) trivial

theorem quietAt_lessThanInt (left right : CString) : QuietAt n (lessThanInt left right : Body A) := by
  unfold lessThanInt
  cases wholeInt left with
  | none => trivial
  | some l =>
    cases wholeInt right with
    | none => trivial
    | some r => trivial

theorem quietAt_compareFn (test : CString → CString → Bool) : QuietAt n (compareFn test : Body A) :=
  quietAt_evaluate n 0 fun _ => quietAt_evaluate n 1 fun _ => trivial

theorem quietAt_lessThanIntFn (site : Site) : QuietAt n (lessThanIntFn site : Body A) := by
  refine quietAt_ite n trivial (quietAt_readArgs n rfl fun args _ => ?_)
  rcases args with _ | ⟨left, _ | ⟨right, _ | ⟨_, _⟩⟩⟩
  · trivial
  · trivial
  · exact quietAt_lessThanInt n left right
  · trivial

theorem quietAt_greaterThanIntFn (site : Site) : QuietAt n (greaterThanIntFn site : Body A) :=
  quietAt_ite n trivial (quietAt_evaluate n 1 fun _ => quietAt_evaluate n 0 fun _ => quietAt_lessThanInt n _ _)

theorem quietAt_op (o : Op) (site : Site) : QuietAt n (o.fn site : Body A) := by
  cases o with
  | plus => exact quietAt_concatFn n site
  | semicolon => exact ⟨fun _ => rfl, fun _ => quietAt_evaluateValue n 1⟩
  | and => exact quietAt_evaluate n 0 fun _ => quietAt_ite n (quietAt_evaluateValue n 1) trivial
  | or => exact quietAt_evaluate n 0 fun _ => quietAt_ite n trivial (quietAt_evaluateValue n 1)
  | not => exact quietAt_evaluate n 0 fun _ => trivial
  | eq => exact quietAt_compareFn n _
  | ne => exact quietAt_compareFn n _
  | ifThen => exact quietAt_ifElseFn n site
  | ifThenElse => exact quietAt_ifElseFn n site

/-- The built-in functions pass an abort on. -/
theorem quietAt_named {F : Type} {env : F → Function A} {f : Named F} {site : Site}
    (henv : ∀ g, f = .other g → QuietAt n (env g site)) : QuietAt n (f.fn env site) := by
  cases f with
  | ifelse => exact quietAt_ifElseFn n site
  | abort => exact quietAt_abortFn n site
  | assert => exact quietAt_assertFrom n site.source 0 site.argc
  | concat => exact quietAt_concatFn n site
  | isSubstring => exact quietAt_compareFn n _
  | lessThanInt => exact quietAt_lessThanIntFn n site
  | greaterThanInt => exact quietAt_greaterThanIntFn n site
  | other f => exact henv f rfl

end Quiet

/-! ### After an abort -/

section Stops
variable {E : Type} {A : E → Type}

/-- Nothing is evaluated or done any more, and the result is NULL: only the expressions around
are left. -/
def Dead : Tree A (Option Value) → Prop
  | .done v => v = none
  | .call (.say _) k => Dead (k ())
  | .call (.leave _ none) k => Dead (k ())
  | .call _ _ => False

/-- From the first sub-expression that aborts on, nothing is evaluated or done; where none
does, the result is a value. -/
def Stops : Tree A (Option Value) → Prop
  | .done v => v ≠ none
  | .call (.enter _) k => Stops (k ())
  | .call (.leave _ none) k => Dead (k ())
  | .call (.leave _ (some _)) k => Stops (k ())
  | .call (.say _) k => Stops (k ())
  | .call (.act _) k => ∀ r, Stops (k r)
  | .call .undefined _ => True

theorem dead_bind {x : Tree A (Option Value)} {f : Option Value → Tree A (Option Value)} (hx : Dead x) (hf : Dead (f none)) :
    Dead (x >>= f) := by
  induction x with
  | done v =>
    cases hx
    exact hf
  | call q k ih =>
    cases q with
    | enter path => exact hx.elim
    | leave path v =>
      cases v with
      | none => exact ih () hx
      | some v => exact hx.elim
    | say m => exact ih () hx
    | act e => exact hx.elim
    | undefined => exact hx.elim

theorem stops_bind {x : Tree A (Option Value)} {f : Option Value → Tree A (Option Value)} (hx : Stops x)
    (hnone : Dead (f none)) (hsome : ∀ v, Stops (f (some v))) : Stops (x >>= f) := by
  induction x with
  | done v =>
    cases v with
    | none => exact absurd rfl hx
    | some v => exact hsome v
  | call q k ih =>
    cases q with
    | enter path => exact ih () hx
    | leave path v =>
      cases v with
      | none => exact dead_bind hx hnone
      | some v => exact ih () hx
    | say m => exact ih () hx
    | act e => exact fun r => ih r (hx r)
    | undefined => trivial

/-- What is left of a node once its function is through. -/
def close (path : List Nat) (v : Option Value) : Tree A (Option Value) := do
  let _ ← Prog.ask (Event.leave path v)
  pure v

theorem node_eq (path : List Nat) (args : Nat → Tree A (Option Value)) (body : Body A) :
    node path args body = .call (Event.enter path) fun _ => body.handle (answer args) >>= close path := rfl

theorem tree_bind_bind {α β γ : Type} (x : Tree A α) (f : α → Tree A β) (g : β → Tree A γ) :
    (x >>= f) >>= g = x >>= fun a => f a >>= g :=
  Prog.bind_assoc x f g

/-- A function that only returns NULL ends its node. -/
theorem quiet_node (path : List Nat) (args : Nat → Tree A (Option Value)) {body : Body A} (h : Quiet body) :
    Dead (body.handle (answer args) >>= close path) ∧ Stops (body.handle (answer args) >>= close path) := by
  induction body with
  | done v =>
    cases h
    exact ⟨rfl, rfl⟩
  | call q k ih =>
    cases q with
    | say m => exact ih () h
    | value i => exact h.elim
    | string i => exact h.elim
    | act e => exact h.elim
    | undefined => exact h.elim

theorem stops_handle (path : List Nat) {args : Nat → Tree A (Option Value)} (hargs : ∀ i, Stops (args i)) {body : Body A}
    (hbody : ∀ n, QuietAt n body) : Stops (body.handle (answer args) >>= close path) := by
  induction body with
  | done v =>
    cases v with
    | none => exact rfl
    | some v => exact Option.some_ne_none v
  | call q k ih =>
    cases q with
    | value i =>
      show Stops ((args i >>= fun v => (k v).handle (answer args)) >>= close path)
      rw [tree_bind_bind]
      refine stops_bind (hargs i) (quiet_node path args ((hbody i).1 rfl)).1 fun v => ?_
      exact ih (some v) fun n => (hbody n).2 v
    | string i =>
      show Stops (((args i >>= expectString) >>= fun v => (k v).handle (answer args)) >>= close path)
      rw [tree_bind_bind, tree_bind_bind]
      have hnone := quiet_node path args ((hbody i).1 rfl)
      refine stops_bind (hargs i) hnone.1 fun v => ?_
      cases v with
      | string s => exact ih (some s) fun n => (hbody n).2 s
      | blob data => exact hnone.2
    | say m => exact ih () hbody
    | act e => exact fun r => ih r fun n => hbody n r
    | undefined => trivial

theorem stops_operands {argc : Nat} {argv : Fin argc → Tree A (Option Value)} (h : ∀ i, Stops (argv i)) (i : Nat) :
    Stops (operands argv i) := by
  unfold operands
  by_cases hi : i < argc
  · rw [dif_pos hi]
    exact h ⟨i, hi⟩
  · rw [dif_neg hi]
    trivial

variable {F : Type}

/-- The function at the root of the expression passes an abort of its arguments on. -/
def PassesOn (script : List UInt8) (env : F → Function A) : Expr F → Prop
  | .call f name _ argv _ => ∀ n, QuietAt n (f.fn env (site script name argv))
  | _ => True

/-- Where the functions of an expression pass an abort on, an abort anywhere in it is the end of
its evaluation. -/
theorem stops_eval {script : List UInt8} {env : F → Function A} {e : Expr F} (he : e.Everywhere (PassesOn script env)) :
    ∀ path, Stops (eval script env path e) := by
  induction e with
  | literal name span =>
    intro path
    exact stops_handle path (stops_operands fun i => i.elim0) fun n => quietAt_ret n name
  | op o argv span ih =>
    intro path
    exact stops_handle path (stops_operands fun i => ih i (he.2 i) _) fun n => quietAt_op n o _
  | call f name argc argv span ih =>
    intro path
    exact stops_handle path (stops_operands fun i => ih i (he.2 i) _) he.1

theorem passesOn_of_env (script : List UInt8) {env : F → Function A} (henv : ∀ f site n, QuietAt n (env f site)) (e : Expr F) :
    PassesOn script env e := by
  cases e with
  | literal name span => trivial
  | op o argv span => trivial
  | call f name argc argv span => exact fun n => quietAt_named n fun g _ => henv g _ n

end Stops

/-! ### Without the messages -/

section Erase
variable {E : Type} {A : E → Type}

theorem erase_bind {α β : Type} (x : Tree A α) (f : α → Tree A β) : erase (x >>= f) = erase x >>= fun a => erase (f a) := by
  induction x with
  | done a => rfl
  | call q k ih =>
    cases q with
    | enter path => exact congrArg (Prog.call (Event.enter path)) (funext ih)
    | leave path v => exact congrArg (Prog.call (Event.leave path v)) (funext ih)
    | say m => exact ih ()
    | act e => exact congrArg (Prog.call (Event.act e)) (funext ih)
    | undefined => exact congrArg (Prog.call Event.undefined) (funext ih)

theorem erase_handle (args : Nat → Tree A (Option Value)) (body : Body A) :
    erase (body.handle (answer args)) = (plain body).handle (answer fun i => erase (args i)) := by
  induction body with
  | done v => rfl
  | call q k ih =>
    cases q with
    | value i =>
      refine (erase_bind _ _).trans ?_
      exact congrArg (erase (args i)).bind (funext ih)
    | string i =>
      have hcall : (Prog.call (Call.string i) k).handle (answer args)
          = (args i >>= expectString) >>= fun s => (k s).handle (answer args) := rfl
      rw [hcall, tree_bind_bind, erase_bind, plain_string]
      refine congrArg (erase (args i)).bind (funext fun v => ?_)
      rcases v with _ | s | data
      · exact ih none
      · exact ih (some s)
      · exact ih none
    | say m => exact ih ()
    | act e => exact congrArg (Prog.call (Event.act e)) (funext ih)
    | undefined => exact congrArg (Prog.call Event.undefined) (funext ih)

theorem erase_node (path : List Nat) (args : Nat → Tree A (Option Value)) (body : Body A) :
    erase (node path args body) = node path (fun i => erase (args i)) (plain body) := by
  have hclose (v : Option Value) : erase (close path v : Tree A (Option Value)) = close path v := rfl
  rw [node_eq, node_eq, ← erase_handle]
  refine congrArg (Prog.call (Event.enter path)) (funext fun _ => ?_)
  refine (erase_bind _ _).trans ?_
  simp only [hclose]

theorem erase_operands {argc : Nat} (argv : Fin argc → Tree A (Option Value)) :
    (fun i => erase (operands argv i)) = operands fun i => erase (argv i) := by
  funext i
  unfold operands
  by_cases hi : i < argc
  · rw [dif_pos hi, dif_pos hi]
  · rw [dif_neg hi, dif_neg hi]
    exact congrArg (Prog.call Event.undefined) (funext fun r => r.elim)

end Erase

/-! ### The order of the operands -/

section Order
variable {E : Type} {A : E → Type}

/-- Of `argc` operands those from `lo` on are evaluated, from left to right and each at most
once. -/
def Rising (argc : Nat) (lo : Nat) : Body A → Prop
  | .done _ => True
  | .call (.value i) k => lo ≤ i ∧ i < argc ∧ ∀ v, Rising argc (i + 1) (k v)
  | .call (.string i) k => lo ≤ i ∧ i < argc ∧ ∀ s, Rising argc (i + 1) (k s)
  | .call (.say _) k => Rising argc lo (k ())
  | .call (.act _) k => ∀ r, Rising argc lo (k r)
  | .call .undefined _ => False

variable {argc lo : Nat}

theorem rising_evaluate {i : Nat} (hlo : lo ≤ i) (hi : i < argc) {f : CString → Body A}
    (hf : ∀ s, Rising argc (i + 1) (f s)) :
    Rising argc lo (evaluate i >>= fun
      | none => pure none
      | some s => f s) := by
  refine ⟨hlo, hi, fun s => ?_⟩
  cases s with
  | none => trivial
  | some s => exact hf s

theorem rising_evaluateValue {i : Nat} (hlo : lo ≤ i) (hi : i < argc) : Rising argc lo (evaluateValue i : Body A) :=
  ⟨hlo, hi, fun _ => trivial⟩

theorem rising_ite {c : Prop} [Decidable c] {x y : Body A} (hx : c → Rising argc lo x) (hy : ¬c → Rising argc lo y) :
    Rising argc lo (if c then x else y) := by
  by_cases h : c
  · rw [if_pos h]
    exact hx h
  · rw [if_neg h]
    exact hy h

theorem rising_readArgs {count : Nat} {f : Option (List CString) → Body A} (hcount : lo + count ≤ argc)
    (hf : ∀ hi args, Rising argc hi (f args)) : Rising argc lo (readArgs lo count >>= f) := by
  induction count generalizing lo f with
  | zero => exact hf lo (some [])
  | succ count ih =>
    rw [readArgs, readAll, bind_bind]
    refine ⟨le_rfl, by omega, fun s => ?_⟩
    cases s with
    | none => exact hf (lo + 1) none
    | some s =>
      simp only [Prog.bind, bind_bind]
      refine ih (by omega) fun hi args => ?_
      cases args with
      | none => exact hf hi none
      | some args => exact hf hi (some (s :: args))

theorem rising_concatFn (site : Site) : Rising site.argc 0 (concatFn site : Body A) := by
  refine rising_ite (fun _ => trivial) fun _ => rising_readArgs (by omega) fun hi args => ?_
  cases args <;> trivial

theorem rising_ifElseFn (site : Site) : Rising site.argc 0 (ifElseFn site : Body A) := by
  refine rising_ite (fun _ => trivial) fun hargc => rising_evaluate le_rfl (by omega) fun cond => ?_
  refine rising_ite (fun _ => rising_evaluateValue le_rfl (by omega)) fun _ => ?_
  exact rising_ite (fun hthree => rising_evaluateValue (by omega) (by omega)) fun _ => trivial

theorem rising_assertFrom (source : Nat → List UInt8) {i count : Nat} (hcount : i + count ≤ argc) :
    Rising argc i (assertFrom source i count : Body A) := by
  induction count generalizing i with
  | zero => trivial
  | succ count ih =>
    refine rising_evaluate le_rfl (by omega) fun s => ?_
    exact rising_ite (fun _ => ih (by omega)) fun _ => trivial

theorem rising_lessThanInt (left right : CString) : Rising argc lo (lessThanInt left right : Body A) := by
  unfold lessThanInt
  cases wholeInt left with
  | none => trivial
  | some l =>
    cases wholeInt right with
    | none => trivial
    | some r => trivial

theorem rising_compareFn (test : CString → CString → Bool) (hargc : 2 ≤ argc) : Rising argc 0 (compareFn test : Body A) :=
  rising_evaluate le_rfl (by omega) fun _ => rising_evaluate le_rfl (by omega) fun _ => trivial

theorem rising_op {o : Op} {site : Site} (hargc : site.argc = o.arity) : Rising site.argc 0 (o.fn site : Body A) := by
  cases o with
  | plus => exact rising_concatFn site
  | semicolon =>
    rw [hargc]
    refine ⟨le_rfl, by decide, fun v => ?_⟩
    cases v with
    | none => trivial
    | some v => exact rising_evaluateValue le_rfl (by decide)
  | and =>
    rw [hargc]
    exact rising_evaluate le_rfl (by decide) fun _ =>
      rising_ite (fun _ => rising_evaluateValue le_rfl (by decide)) fun _ => trivial
  | or =>
    rw [hargc]
    exact rising_evaluate le_rfl (by decide) fun _ =>
      rising_ite (fun _ => trivial) fun _ => rising_evaluateValue le_rfl (by decide)
  | not =>
    rw [hargc]
    exact rising_evaluate le_rfl (by decide) fun _ => trivial
  | eq => exact rising_compareFn _ (by rw [hargc]; decide)
  | ne => exact rising_compareFn _ (by rw [hargc]; decide)
  | ifThen => exact rising_ifElseFn site
  | ifThenElse => exact rising_ifElseFn site

end Order

/-! ### Where the program follows the README -/

section Follows
variable {E : Type} {A : E → Type} {F : Type}

/-- `greater_than_int` on two arguments, and `is_substring` on fewer. -/
def Named.Misread (argc : Nat) : Named F → Prop
  | greaterThanInt => argc = 2
  | isSubstring => argc < 2
  | _ => False

/-- The call at the root of the expression is one of these. -/
def Expr.Misread : Expr F → Prop
  | .call f _ argc _ _ => f.Misread argc
  | _ => False

/-- The functions of the README evaluate the operands of a node from left to right. -/
def InOrder (script : List UInt8) (env : F → Function A) : Expr F → Prop
  | .literal _ _ => True
  | .op o argv _ => Rising o.arity 0 (o.fn (site script "(operator)" argv) : Body A)
  | .call f name argc argv _ =>
    match f with
    | .other _ => True
    | f => Rising argc 0 (f.fn env (site script name argv))

/-- The evaluation of an expression, wherever it stands, follows the README. -/
structure Follows (script : List UInt8) (env : F → Function A) (e : Expr F) : Prop where
  /-- what is evaluated, and what comes of it, is what the rules say -/
  meaning : ∀ path, erase (eval script env path e) = readme script env path e
  /-- the first abort is the end of the evaluation -/
  stops : ∀ path, Stops (eval script env path e)
  /-- operands are evaluated from left to right, each at most once -/
  inOrder : InOrder script env e

theorem plain_op {o : Op} {site : Site} (hargc : site.argc = o.arity) :
    plain (o.fn site : Body A) = follow o.rule (o.arity + 1) [] := by
  cases o with
  | plus => exact (plain_concatFn site).trans (by rw [hargc]; rfl)
  | semicolon => exact plain_sequenceFn site
  | and => exact plain_logicalAndFn site
  | or => exact plain_logicalOrFn site
  | not => exact plain_logicalNotFn site
  | eq => exact plain_compareFn _ 0
  | ne => exact plain_compareFn _ 0
  | ifThen => exact (plain_ifElseFn site).trans (by rw [hargc]; rfl)
  | ifThenElse => exact (plain_ifElseFn site).trans (by rw [hargc]; rfl)

theorem plain_named (env : F → Function A) {f : Named F} {site : Site} (hf : ¬f.Misread site.argc) :
    plain (f.fn env site) = f.meaning env site := by
  cases f with
  | ifelse => exact plain_ifElseFn site
  | abort => exact plain_abortFn site
  | assert => exact plain_assertFn site
  | concat => exact plain_concatFn site
  | isSubstring => exact plain_substringFn (Nat.le_of_not_lt hf)
  | lessThanInt => exact plain_lessThanIntFn site
  | greaterThanInt => exact plain_greaterThanIntFn hf
  | other f => rfl

theorem inOrder_iff (script : List UInt8) (env : F → Function A) (e : Expr F) : InOrder script env e ↔ ¬e.Misread := by
  cases e with
  | literal name span => exact ⟨fun _ h => h, fun _ => trivial⟩
  | op o argv span =>
    refine ⟨fun _ h => h, fun _ => ?_⟩
    exact @rising_op E A o (site script "(operator)" argv) rfl
  | call f name argc argv span =>
    cases f with
    | ifelse => exact ⟨fun _ h => h, fun _ => rising_ifElseFn (site script name argv)⟩
    | abort =>
      refine ⟨fun _ h => h, fun _ => ?_⟩
      show Rising argc 0 (abortFn (site script name argv) : Body A)
      unfold abortFn
      by_cases hargc : (site script name argv).argc > 0
      · rw [if_pos hargc]
        refine ⟨le_rfl, hargc, fun s => ?_⟩
        cases s <;> trivial
      · rw [if_neg hargc]
        trivial
    | assert => exact ⟨fun _ h => h, fun _ => rising_assertFrom _ (Nat.le_of_eq (Nat.zero_add argc))⟩
    | concat => exact ⟨fun _ h => h, fun _ => rising_concatFn (site script name argv)⟩
    | isSubstring =>
      constructor
      · intro h hargc
        obtain ⟨-, -, h⟩ := h
        obtain ⟨-, hone, -⟩ := h (some "")
        exact absurd hone (Nat.not_lt.mpr (Nat.le_of_lt_succ hargc))
      · intro hargc
        exact rising_compareFn _ (Nat.le_of_not_lt hargc)
    | lessThanInt =>
      refine ⟨fun _ h => h, fun _ => ?_⟩
      refine rising_ite (fun _ => trivial) fun hargc => rising_readArgs ?_ fun hi args => ?_
      · exact Nat.le_of_eq (not_not.mp hargc).symm
      rcases args with _ | _ | ⟨left, _ | ⟨right, _ | ⟨_, _⟩⟩⟩
      · trivial
      · trivial
      · trivial
      · exact rising_lessThanInt left right
      · trivial
    | greaterThanInt =>
      constructor
      · intro h hargc
        have h : Rising argc 0 (greaterThanIntFn (site script name argv) : Body A) := h
        rw [greaterThanIntFn, if_neg (c := (site script name argv).argc ≠ 2) (not_not.mpr hargc)] at h
        obtain ⟨-, -, h⟩ := h
        obtain ⟨hzero, -, -⟩ := h (some "")
        exact absurd hzero (by decide)
      · intro hargc
        exact rising_ite (fun _ => trivial) fun htwo => absurd (not_not.mp htwo) hargc
    | other f => exact ⟨fun _ h => h, fun _ => trivial⟩

theorem erase_eval (script : List UInt8) (env : F → Function A) {e : Expr F} (he : e.Everywhere fun e => ¬e.Misread) :
    ∀ path, erase (eval script env path e) = readme script env path e := by
  induction e with
  | literal name span =>
    intro path
    refine (erase_node _ _ _).trans ?_
    rw [erase_operands]
    exact congrArg (fun args => node path (operands args) (ret name)) (funext fun i => i.elim0)
  | op o argv span ih =>
    intro path
    refine (erase_node _ _ _).trans ?_
    rw [erase_operands, plain_op rfl]
    exact congrArg (fun args => node path (operands args) _) (funext fun i => ih i (he.2 i) _)
  | call f name argc argv span ih =>
    intro path
    refine (erase_node _ _ _).trans ?_
    have hplain : plain (f.fn env (site script name argv)) = f.meaning env (site script name argv) := plain_named env he.1
    rw [erase_operands, hplain]
    exact congrArg (fun args => node path (operands args) _) (funext fun i => ih i (he.2 i) _)

end Follows

/-- A function without arguments that gives its own name. -/
def ownName : Unit → Function (fun _ : Empty => Unit) := fun _ site => ret site.name

/-- `"a" + name()` -/
def sumExpr : Expr Unit :=
  .op .plus ![.literal "a" ⟨0, 3⟩, .call (.other ()) "name" 0 (fun i => i.elim0) ⟨6, 12⟩] ⟨0, 12⟩

/-- `greater_than_int(1, 2)` -/
def greaterExpr : Expr Unit :=
  .call .greaterThanInt "greater_than_int" 2 ![.literal "1" ⟨17, 18⟩, .literal "2" ⟨20, 21⟩] ⟨0, 22⟩

end Twrp.Edify
