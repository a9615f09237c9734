import Mathlib

/-! Sorting by a comparison.

The library's sort asks for a strict weak ordering of what it sorts, and leaves a permutation in which
nothing stands in front of what goes before it. A comparison that compares keys of a linear order is one
(`ByKey.strictWeak`), and then the keys of what is sorted are told by the keys of what was there
(`ByKey.map_eq`). -/
namespace Twrp.Base
universe u v
variable {α : Type u}

section Sorting
variable (less : α → α → Bool)

def Incomparable (a b : α) : Prop := less a b = false ∧ less b a = false

/-- A strict weak ordering of the members of a list. -/
structure StrictWeak (l : List α) : Prop where
  irrefl : ∀ a ∈ l, less a a = false
  asymm : ∀ a ∈ l, ∀ b ∈ l, less a b = true → less b a = false
  trans : ∀ a ∈ l, ∀ b ∈ l, ∀ c ∈ l, less a b = true → less b c = true → less a c = true
  incomparable : ∀ a ∈ l, ∀ b ∈ l, ∀ c ∈ l, Incomparable less a b → Incomparable less b c → Incomparable less a c

/-- What a sort may make of a list. -/
structure Sorts (l sorted : List α) : Prop where
  perm : sorted.Perm l
  ordered : sorted.Pairwise fun a b => less b a = false

variable {less} {l sorted : List α}

/-- One more that nothing goes behind. -/
theorem Sorts.concat (h : Sorts less l sorted) {a : α} (ha : ∀ b ∈ l, less a b = false) :
    Sorts less (a :: l) (sorted ++ [a]) where
  perm := (List.perm_append_singleton a sorted).trans (h.perm.cons a)
  ordered := by
    rw [List.pairwise_append]
    refine ⟨h.ordered, List.pairwise_singleton _ a, fun b hb c hc => ?_⟩
    rw [List.mem_singleton.mp hc]
    exact ha b (h.perm.mem_iff.mp hb)

/-- One more that nothing goes in front of. -/
theorem Sorts.cons (h : Sorts less l sorted) {a : α} (ha : ∀ b ∈ l, less b a = false) :
    Sorts less (a :: l) (a :: sorted) where
  perm := h.perm.cons a
  ordered := List.pairwise_cons.mpr ⟨fun b hb => ha b (h.perm.mem_iff.mp hb), h.ordered⟩

end Sorting

/-! ### Comparing keys -/

/-- On a list, a comparison is that of keys. -/
def ByKey {K : Type v} [LinearOrder K] (less : α → α → Bool) (key : α → K) (l : List α) : Prop :=
  ∀ a ∈ l, ∀ b ∈ l, less a b = true ↔ key a < key b

namespace ByKey
variable {K : Type v} [LinearOrder K] {less : α → α → Bool} {key : α → K} {l l' s s' : List α}

theorem not_less (h : ByKey less key l) {a b : α} (ha : a ∈ l) (hb : b ∈ l) : less a b = false ↔ key b ≤ key a := by
  rw [← Bool.not_eq_true, h a ha b hb, not_lt]

theorem incomparable (h : ByKey less key l) {a b : α} (ha : a ∈ l) (hb : b ∈ l) :
    Incomparable less a b ↔ key a = key b := by
  rw [Incomparable, h.not_less ha hb, h.not_less hb ha, and_comm]
  exact le_antisymm_iff.symm

theorem strictWeak (h : ByKey less key l) : StrictWeak less l where
  irrefl _ ha := (h.not_less ha ha).mpr le_rfl
  asymm a ha b hb hab := (h.not_less hb ha).mpr ((h a ha b hb).mp hab).le
  trans a ha b hb c hc hab hbc := (h a ha c hc).mpr (((h a ha b hb).mp hab).trans ((h b hb c hc).mp hbc))
  incomparable a ha b hb c hc hab hbc :=
    (h.incomparable ha hc).mpr (((h.incomparable ha hb).mp hab).trans ((h.incomparable hb hc).mp hbc))

theorem subset (h : ByKey less key l) (hsub : s ⊆ l) : ByKey less key s :=
  fun a ha b hb => h a (hsub ha) b (hsub hb)

/-- There is a sorted permutation. -/
theorem exists_sorts (h : ByKey less key l) : ∃ s, Sorts less l s := by
  refine ⟨l.insertionSort fun a b => key a ≤ key b, List.perm_insertionSort _ l, ?_⟩
  have : Std.Total fun a b : α => key a ≤ key b := ⟨fun a b => le_total (key a) (key b)⟩
  have : IsTrans α fun a b : α => key a ≤ key b := ⟨fun a b c => le_trans⟩
  refine (List.pairwise_insertionSort (fun a b => key a ≤ key b) l).imp_of_mem fun ha hb hab => ?_
  exact (h.not_less ((List.perm_insertionSort _ l).mem_iff.mp hb) ((List.perm_insertionSort _ l).mem_iff.mp ha)).mpr hab

theorem sorted_keys (h : ByKey less key l) (hs : Sorts less l s) : (s.map key).Pairwise (· ≤ ·) := by
  rw [List.pairwise_map]
  exact hs.ordered.imp_of_mem fun ha hb hab =>
    (h.not_less (hs.perm.mem_iff.mp hb) (hs.perm.mem_iff.mp ha)).mp hab

/-- The keys of a sorted list depend only on which keys there are. -/
theorem map_eq (h : ByKey less key l) (h' : ByKey less key l') (hkeys : (l.map key).Perm (l'.map key))
    (hs : Sorts less l s) (hs' : Sorts less l' s') : s.map key = s'.map key :=
  (((hs.perm.map key).trans hkeys).trans (hs'.perm.map key).symm).eq_of_pairwise
    (fun _ _ _ _ => le_antisymm) (h.sorted_keys hs) (h'.sorted_keys hs')

end ByKey

end Twrp.Base
