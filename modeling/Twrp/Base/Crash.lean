import Twrp.Base.Prog

/-! Programs that act on a state and can be killed.

What a call does to the state is a relation: from a state, a call may be answered in several
ways, each leaving its own state. An execution follows the program from one state, call by
call, and stops either at its end or, killed, at any point before it. `Safe` says of a program
that every state an execution can be stopped in satisfies an invariant, and that what it ends
with satisfies a postcondition; the rules put such facts together along the program. -/
namespace Twrp.Base.Prog
variable {Q : Type} {A : Q → Type} {S α β : Type}

/-- `Exec M s x t o`: from `s` the program is stopped in `t`, killed or having returned. -/
inductive Exec (M : S → (q : Q) → A q → S → Prop) : S → Prog A α → S → Option α → Prop where
  | killed (s : S) (x : Prog A α) : Exec M s x s none
  | done (s : S) (a : α) : Exec M s (done a) s (some a)
  | call {q : Q} {k : A q → Prog A α} {s s' t : S} {o : Option α} (r : A q) :
      M s q r s' → Exec M s' (k r) t o → Exec M s (call q k) t o

/-- Every state on the way satisfies `I`, and the end satisfies `R`. -/
def Safe (M : S → (q : Q) → A q → S → Prop) (I : S → Prop) (R : α → S → Prop) : Prog A α → S → Prop
  | done a, s => I s ∧ R a s
  | call q k, s => I s ∧ ∀ r s', M s q r s' → (k r).Safe M I R s'

section Safe
variable {M : S → (q : Q) → A q → S → Prop} {I : S → Prop} {R : α → S → Prop} {s : S}

theorem Safe.here {x : Prog A α} (h : x.Safe M I R s) : I s := by
  cases x with
  | done a => exact h.1
  | call q k => exact h.1

/-- What is safe is safe in every execution. -/
theorem Safe.exec {x : Prog A α} (h : x.Safe M I R s) {t : S} {o : Option α} (hexec : Exec M s x t o) :
    I t ∧ ∀ a, o = some a → R a t := by
  induction hexec with
  | killed s x =>
    refine ⟨h.here, fun a ha => ?_⟩
    cases ha
  | done s a =>
    refine ⟨h.1, fun b hb => ?_⟩
    cases hb
    exact h.2
  | call r hstep _ ih => exact ih (h.2 r _ hstep)

/-- A program whose calls can all be answered comes to its end. -/
theorem exists_exec {x : Prog A α} (h : x.All fun q => ∀ s, ∃ r s', M s q r s') (s : S) : ∃ t a, Exec M s x t (some a) := by
  induction x generalizing s with
  | done a => exact ⟨s, a, .done s a⟩
  | call q k ih =>
    obtain ⟨r, s', hstep⟩ := h.1 s
    obtain ⟨t, a, hexec⟩ := ih r (h.2 r) s'
    exact ⟨t, a, .call r hstep hexec⟩

theorem safe_pure {a : α} (hI : I s) (hR : R a s) : (pure a : Prog A α).Safe M I R s := ⟨hI, hR⟩

theorem safe_bind {x : Prog A α} {f : α → Prog A β} {R' : β → S → Prop} (hx : x.Safe M I R s)
    (hf : ∀ a t, R a t → (f a).Safe M I R' t) : (x >>= f).Safe M I R' s := by
  show (x.bind f).Safe M I R' s
  induction x generalizing s with
  | done a => exact hf a s hx.2
  | call q k ih => exact ⟨hx.1, fun r s' hstep => ih r (hx.2 r s' hstep)⟩

/-- A program that goes on from the answer of a call. -/
theorem safe_call {q : Q} {f : A q → Prog A β} {R' : β → S → Prop} (hI : I s)
    (h : ∀ r s', M s q r s' → (f r).Safe M I R' s') : (ask q >>= f).Safe M I R' s := ⟨hI, h⟩

/-- A program that goes on from a call that changes nothing. -/
theorem safe_look {q : Q} {f : A q → Prog A β} {R' : β → S → Prop} (hI : I s) (hsame : ∀ r s', M s q r s' → s' = s)
    (h : ∀ r, M s q r s → (f r).Safe M I R' s) : (ask q >>= f).Safe M I R' s := by
  refine safe_call hI fun r s' hstep => ?_
  obtain rfl := hsame r s' hstep
  exact h r hstep

theorem safe_ite {c : Prop} [Decidable c] {x y : Prog A α} (hx : c → x.Safe M I R s) (hy : ¬c → y.Safe M I R s) :
    (if c then x else y).Safe M I R s := by
  by_cases h : c
  · rw [if_pos h]
    exact hx h
  · rw [if_neg h]
    exact hy h

theorem Safe.mono {x : Prog A α} {I' : S → Prop} {R' : α → S → Prop} (h : x.Safe M I R s) (hI : ∀ t, I t → I' t)
    (hR : ∀ a t, I t → R a t → R' a t) : x.Safe M I' R' s := by
  induction x generalizing s with
  | done a => exact ⟨hI s h.1, hR a s h.1 h.2⟩
  | call q k ih => exact ⟨hI s h.1, fun r s' hstep => ih r (h.2 r s' hstep)⟩

/-- The end is a state on the way. -/
theorem Safe.keep {x : Prog A α} (h : x.Safe M I R s) : x.Safe M I (fun a t => I t ∧ R a t) s :=
  h.mono (fun _ ht => ht) fun _ _ ht hr => ⟨ht, hr⟩

theorem safe_map {x : Prog A α} {f : α → β} {R' : β → S → Prop} (hx : x.Safe M I (fun a t => R' (f a) t) s) :
    (f <$> x).Safe M I R' s := safe_bind hx.keep fun _ _ h => safe_pure h.1 h.2

/-- Nothing is asked of a program. -/
theorem safe_any (x : Prog A α) : x.Safe M (fun _ => True) (fun _ _ => True) s := by
  induction x generalizing s with
  | done a => exact ⟨trivial, trivial⟩
  | call q k ih => exact ⟨trivial, fun r s' _ => ih r⟩

/-- Two facts about all executions at once. -/
theorem Safe.and {x : Prog A α} {I' : S → Prop} {R' : α → S → Prop} (h : x.Safe M I R s) (h' : x.Safe M I' R' s) :
    x.Safe M (fun t => I t ∧ I' t) (fun a t => R a t ∧ R' a t) s := by
  induction x generalizing s with
  | done a => exact ⟨⟨h.1, h'.1⟩, h.2, h'.2⟩
  | call q k ih => exact ⟨⟨h.1, h'.1⟩, fun r s' hstep => ih r (h.2 r s' hstep) (h'.2 r s' hstep)⟩

/-- Fewer answers leave fewer executions. -/
theorem Safe.restrict {M' : S → (q : Q) → A q → S → Prop} {x : Prog A α} (h : x.Safe M I R s)
    (hM : ∀ s q r s', M' s q r s' → M s q r s') : x.Safe M' I R s := by
  induction x generalizing s with
  | done a => exact h
  | call q k ih => exact ⟨h.1, fun r s' hstep => ih r (h.2 r s' (hM _ _ _ _ hstep))⟩

end Safe

/-! ### One execution -/

theorem exec_bind {M : S → (q : Q) → A q → S → Prop} {x : Prog A α} {f : α → Prog A β} {s t u : S} {a : α} {o : Option β}
    (hx : Exec M s x t (some a)) (hf : Exec M t (f a) u o) : Exec M s (x >>= f) u o := by
  show Exec M s (x.bind f) u o
  induction x generalizing s with
  | done a' =>
    cases hx
    exact hf
  | call q k ih =>
    cases hx with
    | call r hstep hrest => exact .call r hstep (ih r hrest)

/-- A program comes to its end where every call it makes can be answered without a change. -/
theorem exec_all {M : S → (q : Q) → A q → S → Prop} {P : Q → Prop} {x : Prog A α} {s : S} (hx : x.All P)
    (hM : ∀ q, P q → ∃ r, M s q r s) : ∃ a, Exec M s x s (some a) := by
  induction x with
  | done a => exact ⟨a, .done s a⟩
  | call q k ih =>
    obtain ⟨r, hstep⟩ := hM q hx.1
    obtain ⟨a, hrest⟩ := ih r (hx.2 r)
    exact ⟨a, .call r hstep hrest⟩

/-- The execution in which every call is answered by `h`, killed after `n` calls or where there
is no answer. -/
def interp (h : S → (q : Q) → Option (A q × S)) : Nat → Prog A α → S → S × Option α
  | _, done a, s => (s, some a)
  | 0, call _ _, s => (s, none)
  | n + 1, call q k, s =>
    match h s q with
    | none => (s, none)
    | some (r, s') => (k r).interp h n s'

theorem exec_interp {M : S → (q : Q) → A q → S → Prop} {h : S → (q : Q) → Option (A q × S)}
    (hM : ∀ s q r s', h s q = some (r, s') → M s q r s') (n : Nat) (x : Prog A α) (s : S) :
    Exec M s x (x.interp h n s).1 (x.interp h n s).2 := by
  induction x generalizing n s with
  | done a =>
    cases n with
    | zero => exact .done s a
    | succ n => exact .done s a
  | call q k ih =>
    cases n with
    | zero => exact .killed s _
    | succ n =>
      rw [interp]
      cases hanswer : h s q with
      | none => exact .killed s _
      | some answer => exact .call answer.1 (hM s q _ _ hanswer) (ih _ n _)

end Twrp.Base.Prog
