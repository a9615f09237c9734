import Twrp.Base.Prog

/-! Calls that a program must not come to.

`Reaches` says that a program, answered as a log records, comes to a call. `Avoids` says of a program
that with answers of some kind it comes to no bad call, and what it ends with; its rules put such facts
together along the program. -/
namespace Twrp.Base.Prog
variable {Q : Type} {A : Q → Type} {α β : Type}

/-- `Reaches q x log`: answered as `log` records, `x` comes to the call `q`. -/
inductive Reaches (q : Q) : Prog A α → List (Sigma A) → Prop where
  | here (k : A q → Prog A α) : Reaches q (call q k) []
  | call {q' : Q} {k : A q' → Prog A α} {log : List (Sigma A)} (r : A q') : Reaches q (k r) log → Reaches q (call q' k) (⟨q', r⟩ :: log)

theorem reaches_first {q : Q} {x : Prog A α} (f : α → Prog A β) {log : List (Sigma A)} (h : Reaches q x log) : Reaches q (x >>= f) log := by
  show Reaches q (x.bind f) log
  induction h with
  | here k => exact .here _
  | call r _ ih => exact .call r ih

theorem reaches_later {q : Q} {x : Prog A α} {f : α → Prog A β} {l l' : List (Sigma A)} {a : α} (hx : Runs x l a)
    (hf : Reaches q (f a) l') : Reaches q (x >>= f) (l ++ l') := by
  show Reaches q (x.bind f) (l ++ l')
  induction hx with
  | done a => exact hf
  | call r _ ih => exact .call r (ih hf)

/-- With answers that satisfy `H`, no bad call is made, and the result satisfies `R`. -/
def Avoids (H : Sigma A → Prop) (bad : Q → Prop) (R : α → Prop) : Prog A α → Prop
  | done a => R a
  | call q k => ¬bad q ∧ ∀ r, H ⟨q, r⟩ → (k r).Avoids H bad R

section Avoids
variable {H : Sigma A → Prop} {bad : Q → Prop} {R : α → Prop}

theorem Avoids.not_reaches {x : Prog A α} (h : x.Avoids H bad R) {q : Q} {log : List (Sigma A)} (hreach : Reaches q x log)
    (hlog : ∀ s ∈ log, H s) : ¬bad q := by
  induction hreach with
  | here k => exact h.1
  | call r _ ih =>
    obtain ⟨hr, hrest⟩ := List.forall_mem_cons.mp hlog
    exact ih (h.2 r hr) hrest

theorem Avoids.result {x : Prog A α} (h : x.Avoids H bad R) {log : List (Sigma A)} {a : α} (hrun : Runs x log a)
    (hlog : ∀ s ∈ log, H s) : R a := by
  induction hrun with
  | done a => exact h
  | call r _ ih =>
    obtain ⟨hr, hrest⟩ := List.forall_mem_cons.mp hlog
    exact ih (h.2 r hr) hrest

theorem avoids_pure {a : α} (h : R a) : (pure a : Prog A α).Avoids H bad R := h

theorem avoids_call {q : Q} {f : A q → Prog A α} (hq : ¬bad q) (h : ∀ r, H ⟨q, r⟩ → (f r).Avoids H bad R) :
    (ask q >>= f).Avoids H bad R := ⟨hq, h⟩

theorem avoids_bind {x : Prog A β} {f : β → Prog A α} {S : β → Prop} (hx : x.Avoids H bad S) (hf : ∀ b, S b → (f b).Avoids H bad R) :
    (x >>= f).Avoids H bad R := by
  show (x.bind f).Avoids H bad R
  induction x with
  | done b => exact hf b hx
  | call q k ih => exact ⟨hx.1, fun r hr => ih r (hx.2 r hr)⟩

theorem avoids_ite {c : Prop} [Decidable c] {x y : Prog A α} (hx : c → x.Avoids H bad R) (hy : ¬c → y.Avoids H bad R) :
    (if c then x else y).Avoids H bad R := by
  by_cases h : c
  · rw [if_pos h]
    exact hx h
  · rw [if_neg h]
    exact hy h

end Avoids

end Twrp.Base.Prog
