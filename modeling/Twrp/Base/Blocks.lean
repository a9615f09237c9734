import Mathlib.Data.Nat.Count
import Mathlib.Tactic

/-! Streams cut into blocks.

A stream is written block by block: its whole blocks in order (`wholes`), and the bytes past the last
of them (`leftover`) wait for more. The blocks of a device that satisfy a test are met in order
(`ahead`); how many of them stand before a place is Mathlib's `Nat.count`. -/
namespace Twrp.Base

/-- A list of exactly `e` elements. -/
abbrev Block (α : Type) (e : Nat) := {l : List α // l.length = e}

section Blocks
variable {α : Type} {e : Nat}

/-- The whole blocks a list starts with. -/
def wholes (e : Nat) (l : List α) : List (Block α e) :=
  if h : 0 < e ∧ e ≤ l.length then
    ⟨l.take e, List.length_take_of_le h.2⟩ :: wholes e (l.drop e)
  else []
termination_by l.length
decreasing_by simp only [List.length_drop]; omega

/-- What stands past the last whole block. -/
def leftover (e : Nat) (l : List α) : List α := l.drop (e * (l.length / e))

def joined (bs : List (Block α e)) : List α := (bs.map Subtype.val).flatten

@[simp] theorem joined_nil : joined ([] : List (Block α e)) = [] := rfl

@[simp] theorem joined_cons (b : Block α e) (bs : List (Block α e)) : joined (b :: bs) = b.val ++ joined bs := rfl

theorem joined_append (bs cs : List (Block α e)) : joined (bs ++ cs) = joined bs ++ joined cs := by
  simp [joined]

theorem length_joined (bs : List (Block α e)) : (joined bs).length = e * bs.length := by
  induction bs with
  | nil => rfl
  | cons b bs ih =>
    rw [joined_cons, List.length_append, ih, b.property, List.length_cons, Nat.mul_succ, Nat.add_comm]

theorem joined_split (bs : List (Block α e)) (n : Nat) : joined bs = joined (bs.take n) ++ joined (bs.drop n) := by
  rw [← joined_append, List.take_append_drop]

theorem getElem?_joined {bs : List (Block α e)} {m k : Nat} {b : Block α e} (h : bs[m]? = some b) (hk : k < e) :
    (joined bs)[e * m + k]? = b.val[k]? := by
  induction bs generalizing m with
  | nil => exact absurd h (by simp)
  | cons b' bs ih =>
    cases m with
    | zero =>
      obtain rfl := Option.some.inj h
      rw [joined_cons, Nat.mul_zero, Nat.zero_add, List.getElem?_append_left (by rw [b'.property]; exact hk)]
    | succ m =>
      have hplace : e * (m + 1) + k = b'.val.length + (e * m + k) := by
        rw [b'.property, Nat.mul_succ]
        omega
      rw [joined_cons, hplace, List.getElem?_append_right (Nat.le_add_right _ _), Nat.add_sub_cancel_left]
      exact ih h

theorem wholes_short {l : List α} (h : l.length < e) : wholes e l = [] := by
  rw [wholes, dif_neg (by omega)]

theorem wholes_block (he : 0 < e) (b : Block α e) (l : List α) : wholes e (b.val ++ l) = b :: wholes e l := by
  have hle : e ≤ (b.val ++ l).length := by
    rw [List.length_append, b.property]
    omega
  rw [wholes, dif_pos ⟨he, hle⟩]
  congr 1
  · exact Subtype.ext (List.take_left' b.property)
  · rw [List.drop_left' b.property]

theorem leftover_short {l : List α} (h : l.length < e) : leftover e l = l := by
  rw [leftover, Nat.div_eq_of_lt h, Nat.mul_zero, List.drop_zero]

theorem leftover_block (he : 0 < e) (b : Block α e) (l : List α) : leftover e (b.val ++ l) = leftover e l := by
  have hlength : (b.val ++ l).length = l.length + e := by
    rw [List.length_append, b.property, Nat.add_comm]
  rw [leftover, hlength, Nat.add_div_right _ he, Nat.mul_succ, Nat.add_comm, ← List.drop_drop,
    List.drop_left' b.property, leftover]

/-- A list is shorter than a block, or starts with one. -/
theorem short_or_block (e : Nat) (l : List α) : l.length < e ∨ ∃ (b : Block α e) (t : List α), l = b.val ++ t := by
  rcases Nat.lt_or_ge l.length e with h | h
  · exact .inl h
  · exact .inr ⟨⟨l.take e, List.length_take_of_le h⟩, l.drop e, (List.take_append_drop e l).symm⟩

/-- Induction over a list by its blocks. -/
theorem block_induction {P : List α → Prop} (he : 0 < e) (short : ∀ l, l.length < e → P l)
    (block : ∀ (b : Block α e) (l : List α), P l → P (b.val ++ l)) (l : List α) : P l := by
  induction h : l.length using Nat.strong_induction_on generalizing l with
  | _ n ih =>
    rcases short_or_block e l with hshort | ⟨b, t, rfl⟩
    · exact short l hshort
    · have hlength : (b.val ++ t).length = e + t.length := by
        rw [List.length_append, b.property]
      exact block b t (ih t.length (by omega) t rfl)

theorem joined_wholes (he : 0 < e) (l : List α) : joined (wholes e l) ++ leftover e l = l := by
  induction l using block_induction he with
  | short l h => rw [wholes_short h, leftover_short h, joined_nil, List.nil_append]
  | block b l ih => rw [wholes_block he, leftover_block he, joined_cons, List.append_assoc, ih]

theorem length_leftover (l : List α) : (leftover e l).length = l.length % e := by
  rw [leftover, List.length_drop, Nat.mod_eq_sub]

theorem length_wholes (he : 0 < e) (l : List α) : (wholes e l).length = l.length / e := by
  induction l using block_induction he with
  | short l h => rw [wholes_short h, Nat.div_eq_of_lt h, List.length_nil]
  | block b l ih =>
    rw [wholes_block he, List.length_cons, ih, List.length_append, b.property, Nat.add_div_left _ he]

theorem wholes_append (he : 0 < e) (l m : List α) : wholes e (l ++ m) = wholes e l ++ wholes e (leftover e l ++ m) := by
  induction l using block_induction he with
  | short l h => rw [wholes_short h, leftover_short h, List.nil_append]
  | block b l ih =>
    rw [List.append_assoc, wholes_block he, wholes_block he, leftover_block he, ih, List.cons_append]

theorem leftover_append (he : 0 < e) (l m : List α) : leftover e (l ++ m) = leftover e (leftover e l ++ m) := by
  induction l using block_induction he with
  | short l h => rw [leftover_short h]
  | block b l ih => rw [List.append_assoc, leftover_block he, leftover_block he, ih]

theorem wholes_joined (he : 0 < e) (bs : List (Block α e)) : wholes e (joined bs) = bs := by
  induction bs with
  | nil => exact wholes_short he
  | cons b bs ih => rw [joined_cons, wholes_block he, ih]

end Blocks

section Ahead
variable (p : Nat → Bool) (stop : Nat)

/-- The places from `pos` on and before `stop` that satisfy `p`. -/
def ahead (pos : Nat) : List Nat := (List.range' pos (stop - pos)).filter p

variable {p} {stop} {pos : Nat}

theorem ahead_end (h : stop ≤ pos) : ahead p stop pos = [] := by
  rw [ahead, Nat.sub_eq_zero_of_le h, List.range'_zero, List.filter_nil]

theorem ahead_take (h : pos < stop) (hp : p pos = true) : ahead p stop pos = pos :: ahead p stop (pos + 1) := by
  have hsub : stop - pos = (stop - (pos + 1)) + 1 := by omega
  rw [ahead, hsub, List.range'_succ, List.filter_cons_of_pos hp, ahead]

theorem ahead_skip (hp : p pos = false) : ahead p stop pos = ahead p stop (pos + 1) := by
  rcases Nat.lt_or_ge pos stop with h | h
  · have hsub : stop - pos = (stop - (pos + 1)) + 1 := by omega
    rw [ahead, hsub, List.range'_succ, List.filter_cons_of_neg (by simp [hp]), ahead]
  · rw [ahead_end h, ahead_end (by omega)]

theorem ahead_cons {i : Nat} {t : List Nat} (h : ahead p stop pos = i :: t) :
    p i = true ∧ pos ≤ i ∧ i < stop ∧ t = ahead p stop (i + 1) ∧ ∀ j, pos ≤ j → j < i → p j = false := by
  rcases Nat.lt_or_ge pos stop with hlt | hge
  · induction hle : stop - pos generalizing pos with
    | zero => omega
    | succ n ih =>
      cases hp : p pos with
      | true =>
        rw [ahead_take hlt hp] at h
        obtain ⟨rfl, rfl⟩ := List.cons.inj h
        exact ⟨hp, le_refl _, hlt, rfl, fun j h1 h2 => absurd h2 (by omega)⟩
      | false =>
        rw [ahead_skip hp] at h
        rcases Nat.lt_or_ge (pos + 1) stop with hlt' | hge'
        · obtain ⟨h1, h2, h3, h4, h5⟩ := ih h hlt' (by omega)
          refine ⟨h1, by omega, h3, h4, fun j hj hji => ?_⟩
          rcases Nat.eq_or_lt_of_le hj with rfl | hj'
          · exact hp
          · exact h5 j hj' hji
        · rw [ahead_end hge'] at h
          exact absurd h (by simp)
  · rw [ahead_end hge] at h
    exact absurd h (by simp)

theorem count_skip {i : Nat} (hle : pos ≤ i) (h : ∀ j, pos ≤ j → j < i → p j = false) :
    Nat.count (fun i => p i = true) i = Nat.count (fun i => p i = true) pos := by
  induction i, hle using Nat.le_induction with
  | base => rfl
  | succ i hle ih =>
    rw [Nat.count_succ, ih fun j hj hji => h j hj (by omega), if_neg (by simp [h i hle (Nat.lt_succ_self i)]), Nat.add_zero]

theorem mem_ahead {i : Nat} : i ∈ ahead p stop pos ↔ (pos ≤ i ∧ i < stop) ∧ p i = true := by
  rw [ahead, List.mem_filter, List.mem_range'_1]
  exact and_congr_left fun _ => by omega

theorem ahead_congr {q : Nat → Bool} (h : ∀ i < stop, p i = q i) : ahead p stop pos = ahead q stop pos := by
  apply List.filter_congr
  intro i hi
  rw [List.mem_range'_1] at hi
  exact h i (by omega)

theorem length_ahead (h : pos ≤ stop) : (ahead p stop pos).length + Nat.count (fun i => p i = true) pos =
    Nat.count (fun i => p i = true) stop := by
  induction h using Nat.decreasingInduction with
  | self => rw [ahead_end (le_refl _), List.length_nil, Nat.zero_add]
  | of_succ pos hlt ih =>
    cases hp : p pos with
    | true =>
      rw [ahead_take hlt hp, List.length_cons, ← ih, Nat.count_succ, if_pos hp]
      omega
    | false =>
      rw [ahead_skip hp, ← ih, Nat.count_succ, if_neg (by simp [hp])]
      omega

/-- The place met as number `m` is the one with `m` of its kind before it. -/
theorem getElem?_ahead {m i : Nat} : (ahead p stop 0)[m]? = some i ↔
    i < stop ∧ p i = true ∧ Nat.count (fun i => p i = true) i = m := by
  suffices h : ∀ pos, pos ≤ stop → ∀ m, (ahead p stop pos)[m]? = some i ↔
      pos ≤ i ∧ i < stop ∧ p i = true ∧ Nat.count (fun i => p i = true) i = m + Nat.count (fun i => p i = true) pos by
    simpa using h 0 (Nat.zero_le _) m
  intro pos hpos
  induction hpos using Nat.decreasingInduction with
  | self =>
    intro m
    rw [ahead_end (le_refl _)]
    simp only [List.getElem?_nil, reduceCtorEq, false_iff]
    omega
  | of_succ pos hlt ih =>
    intro m
    cases hp : p pos with
    | true =>
      have hcount : Nat.count (fun i => p i = true) (pos + 1) = Nat.count (fun i => p i = true) pos + 1 := by
        rw [Nat.count_succ, if_pos hp]
      rw [ahead_take hlt hp]
      cases m with
      | zero =>
        simp only [List.getElem?_cons_zero, Option.some.injEq, Nat.zero_add]
        constructor
        · intro h
          subst h
          exact ⟨le_refl _, hlt, hp, rfl⟩
        · intro ⟨_, _, hi, heq⟩
          exact Nat.count_injective hp hi heq.symm
      | succ m =>
        rw [List.getElem?_cons_succ, ih m, hcount]
        constructor
        · intro ⟨h1, h2, h3, h4⟩
          exact ⟨by omega, h2, h3, by omega⟩
        · intro ⟨h1, h2, h3, h4⟩
          have hne : i ≠ pos := by
            intro heq
            subst heq
            omega
          exact ⟨by omega, h2, h3, by omega⟩
    | false =>
      have hcount : Nat.count (fun i => p i = true) (pos + 1) = Nat.count (fun i => p i = true) pos := by
        rw [Nat.count_succ, if_neg (by simp [hp]), Nat.add_zero]
      rw [ahead_skip hp, ih m, hcount]
      constructor
      · intro ⟨h1, h2, h3, h4⟩
        exact ⟨by omega, h2, h3, h4⟩
      · intro ⟨h1, h2, h3, h4⟩
        have hne : i ≠ pos := by
          intro heq
          rw [heq, hp] at h3
          exact Bool.noConfusion h3
        exact ⟨by omega, h2, h3, h4⟩

end Ahead

end Twrp.Base
