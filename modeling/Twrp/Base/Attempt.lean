import Mathlib

/-! Work that ends at the first call that fails.

An attempt is a call that may make a change. What is made of a list of attempts is a part of what it asks for, and all of it
exactly when no call fails at a change or before one (`asked_subperm_made_iff`). -/
namespace Twrp.Base

structure Attempt (C : Type) where
  change : Option C
  fails : Bool

namespace Attempt
variable {C : Type}

/-- The changes that the attempts are for. -/
def asked (attempts : List (Attempt C)) : List C := attempts.filterMap change

/-- The changes up to the first call that fails. -/
def made : List (Attempt C) → List C
  | [] => []
  | attempt :: rest => if attempt.fails then [] else attempt.change.toList ++ made rest

/-- No call fails. -/
def clean (attempts : List (Attempt C)) : Bool := attempts.all fun attempt => !attempt.fails

/-- The first call that fails, if there is one, is behind all changes. -/
def Harmless : List (Attempt C) → Prop
  | [] => True
  | attempt :: rest => if attempt.fails then asked (attempt :: rest) = [] else Harmless rest

theorem asked_cons (attempt : Attempt C) (rest : List (Attempt C)) : asked (attempt :: rest) = attempt.change.toList ++ asked rest := by
  rw [asked, List.filterMap_cons]
  cases attempt.change with
  | none => rfl
  | some c => rfl

theorem asked_append (attempts attempts' : List (Attempt C)) : asked (attempts ++ attempts') = asked attempts ++ asked attempts' :=
  List.filterMap_append

theorem made_initial (attempts : List (Attempt C)) : made attempts <+: asked attempts := by
  induction attempts with
  | nil => exact List.prefix_refl []
  | cons attempt rest ih =>
    rw [made, asked_cons]
    split
    · exact List.nil_prefix
    · exact (List.prefix_append_right_inj _).mpr ih

theorem made_append (attempts attempts' : List (Attempt C)) :
    made (attempts ++ attempts') = if clean attempts then made attempts ++ made attempts' else made attempts := by
  induction attempts with
  | nil => rfl
  | cons attempt rest ih =>
    have hclean : clean (attempt :: rest) = (!attempt.fails && clean rest) := List.all_cons
    rw [List.cons_append, made, made, ih, hclean]
    cases attempt.fails with
    | true => rfl
    | false =>
      cases clean rest with
      | true => exact (List.append_assoc _ _ _).symm
      | false => rfl

theorem clean_append (attempts attempts' : List (Attempt C)) : clean (attempts ++ attempts') = (clean attempts && clean attempts') := List.all_append

/-- All that is asked for is made when what fails is behind it. -/
theorem made_eq_asked_iff (attempts : List (Attempt C)) : made attempts = asked attempts ↔ Harmless attempts := by
  induction attempts with
  | nil => exact ⟨fun _ => trivial, fun _ => rfl⟩
  | cons attempt rest ih =>
    rw [made, Harmless]
    split
    · exact eq_comm
    · rw [asked_cons, List.append_cancel_left_eq]
      exact ih

/-- Every change is made, as often as it is asked for. -/
theorem asked_subperm_made_iff (attempts : List (Attempt C)) : List.Subperm (asked attempts) (made attempts) ↔ Harmless attempts := by
  rw [← made_eq_asked_iff]
  constructor
  · intro h
    exact (made_initial attempts).eq_of_length_le h.length_le
  · intro h
    rw [h]

end Attempt

end Twrp.Base
