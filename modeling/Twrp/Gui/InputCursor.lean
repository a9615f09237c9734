import Twrp.Gui.Input

/-! Where keys edit.

The place of the cursor is kept in the value by each key, and by each touch and each change of the text that `Meets` what
the code relies on. In such states the cursor is drawn where keys edit. -/
namespace Twrp.Gui.Input
variable (c : Field)

/-- The place where keys edit is in the value, or at its end. -/
def Position (s : State) : Prop :=
  s.mCursorLocation = -1 ∨ (0 ≤ s.mCursorLocation ∧ s.mCursorLocation + s.skipChars ≤ s.value.length)

instance (s : State) : Decidable (Position s) := inferInstanceAs (Decidable (_ ∨ _))

/-- What a key makes of the value, at the place where the cursor is drawn. -/
def edited (s : State) (key : Int) : Text :=
  let p := drawnAt c s
  if key = 8 then s.value.take (p - 1) ++ s.value.drop p
  else if key = 252 then s.value.drop p
  else if key < 245 ∧ 0 < key ∧ accepts c s (UInt8.ofNat key.toNat) then s.value.take p ++ UInt8.ofNat key.toNat :: s.value.drop p
  else s.value

/-- Nothing is erased or inserted outside of a string, the place is in the value, and a key changes what it should. -/
def AllGood : State → List Event → Prop
  | _, [] => True
  | s, e :: events => ∃ s', step c s e = some s' ∧ Position s' ∧
      (∀ key, e = .key key → s.hasInputFocus = true → s'.value = edited c s key) ∧ AllGood s' events

/-- A field as it is made, and what happens then. -/
def Right (value maskValue : Text) (focus : Bool) (events : List Event) : Prop :=
  ∃ s, create c value maskValue focus = some s ∧ Position s ∧ AllGood c s events

/-! ### The condition -/

/-- The mask is one character, and goes to a variable of its own. -/
def Field.OneMask : Prop := ∀ mask ∈ c.mask, mask.length = 1 ∧ c.maskOwn = false

/-- Not all of the text is skipped. -/
def InBox (s : State) : Prop := s.skipChars = 0 ∨ s.skipChars < s.value.length

/-- A drag scrolls characters out of the box on the left. -/
structure ScrollsOut (s : State) (x y : Int) : Prop where
  focus : s.hasInputFocus = true
  inside : getSelection c x y ≠ -1
  moved : ¬(s.startSelection ≠ -1 ∧ |x - s.lastX| < 6)
  left : x < s.lastX
  wide : c.mRenderW < measure c (display c s.value)
  shownWide : c.mRenderW < measure c (shown c s)
  far : s.scrollingX ≠ 0 → s.scrollingX ≤ s.lastX - x

/-- No more of them go than stand behind the cursor: behind some such number the text fits the box, or the drag ends. -/
def Room (s : State) (x : Int) : Prop :=
  ∃ n : Nat, 1 ≤ n ∧ s.mCursorLocation + s.skipChars + n ≤ s.value.length ∧
    (measure c ((shown c s).drop n) ≤ c.mRenderW ∨
      (if s.scrollingX ≠ 0 then 0 else s.lastX - x) ≤ (measure c (shown c s) : Int) - measure c ((shown c s).drop n))

/-- What the code relies on. -/
def Meets (s : State) : Event → Prop
  | .touch .drag x y => ScrollsOut c s x y → InBox s ∧ (s.mCursorLocation = -1 ∨ Room c s x)
  | .touch .release _ _ => s.hasInputFocus = true → InBox s
  | .textChange true value => s.mCursorLocation ≤ value.length ∨ c.mRenderW < measure c (display c value)
  | .textChange false value => s.skipChars ≤ value.length ∧ s.mCursorLocation + s.skipChars ≤ value.length
  | _ => True

def AllMeet : State → List Event → Prop
  | _, [] => True
  | s, e :: events => Meets c s e ∧ ∀ s', step c s e = some s' → AllMeet s' events

/-! ### The invariant -/

structure Inv (s : State) : Prop where
  position : Position s
  skipped : s.skipChars ≤ s.value.length
  text : s.charSkip = s.skipChars

/-- `s'` is as it should be, with the value of `s`. -/
def Moves (s : State) (r : Option State) : Prop := ∃ s', r = some s' ∧ s'.value = s.value ∧ Inv s'

variable {c}

theorem display_length (hc : c.OneMask) (value : Text) : (display c value).length = value.length := by
  rw [display]
  cases hmask : c.mask with
  | none => rfl
  | some mask => simp [(hc mask hmask).1]

theorem shown_length (hc : c.OneMask) {s : State} (h : InBox s) : (shown c s).length = s.value.length - s.skipChars := by
  rw [shown, display_length hc]
  obtain hzero | hlt := h
  · rw [if_neg (by simp [hzero]), display_length hc, hzero]
    rfl
  · split
    · rw [List.length_drop, display_length hc]
    · rename_i hnot
      have hzero : s.skipChars = 0 := by
        by_contra hne
        exact hnot ⟨hne, hlt⟩
      rw [display_length hc, hzero]
      rfl

theorem fit_le (text : Text) : (fit c text).1 ≤ text.length := by
  induction text with
  | nil => exact Nat.le_refl 0
  | cons b rest ih =>
    rw [fit]
    split
    · exact Nat.zero_le _
    · exact Nat.succ_le_succ ih

/-! ### `HandleTextLocation` keeps to the value -/

theorem inv_fits {s : State} (x : Int) (h : s.mCursorLocation = -1 ∨ (0 ≤ s.mCursorLocation ∧ s.mCursorLocation ≤ s.value.length)) :
    Inv { s with lastX := x, scrollingX := 0, skipChars := 0, charSkip := 0 } where
  position := by
    obtain hend | ⟨hpos, hle⟩ := h
    · exact .inl hend
    · exact .inr ⟨hpos, by show s.mCursorLocation + (0 : Nat) ≤ s.value.length; omega⟩
  skipped := Nat.zero_le _
  text := rfl

theorem inv_showEnd {s : State} (h : s.mCursorLocation = -1) : Inv (showEnd c s) where
  position := .inl h
  skipped := fit_le s.value
  text := rfl

theorem moves_showAdded {s : State} (hpos : 0 ≤ s.mCursorLocation) (hle : s.mCursorLocation + s.skipChars ≤ s.value.length) :
    Moves s (showAdded c s) := by
  have hgone := fit_le (c := c) ((shown c s).take s.mCursorLocation.toNat)
  rw [List.length_take] at hgone
  refine ⟨_, if_neg (by omega), rfl, ?_⟩
  refine ⟨.inr ⟨?_, ?_⟩, ?_, rfl⟩
  · dsimp only
    omega
  · dsimp only
    omega
  · dsimp only
    omega

theorem moves_showDeleted (displayValue : Text) (k : Nat) {s : State} (hpos : 0 ≤ s.mCursorLocation) (hle : s.mCursorLocation + k ≤ s.value.length) :
    Moves s (showDeleted c displayValue k s) := by
  induction k generalizing displayValue s with
  | zero => exact ⟨_, rfl, rfl, .inr ⟨hpos, hle⟩, Nat.zero_le _, rfl⟩
  | succ k ih =>
    have hchar : charAt s.value k = some ((s.value.drop k).take 1) := if_pos (by omega)
    rw [showDeleted, hchar]
    dsimp only [Option.bind_eq_bind, Option.bind_some]
    split
    · exact ⟨_, rfl, rfl, .inr ⟨hpos, hle⟩, by dsimp only; omega, rfl⟩
    · exact ih (s := { s with mCursorLocation := s.mCursorLocation + 1 }) _ (by dsimp only; omega) (by dsimp only; omega)

theorem moves_dragRight (x : Int) (displayValue : Text) (k : Nat) (lastX : Int) {s : State} (hk : k ≤ s.value.length)
    (h : s.mCursorLocation = -1 ∨ (0 ≤ s.mCursorLocation ∧ s.mCursorLocation + k ≤ s.value.length)) :
    Moves s (dragRight c x displayValue k lastX s) := by
  induction k generalizing displayValue lastX with
  | zero => exact ⟨_, rfl, rfl, h, Nat.zero_le _, rfl⟩
  | succ k ih =>
    have hchar : charAt s.value k = some ((s.value.drop k).take 1) := if_pos (by omega)
    have hstop (scrollingX : Int) : Inv { s with skipChars := k + 1, scrollingX, lastX := x, charSkip := k + 1 } := ⟨h, hk, rfl⟩
    rw [dragRight]
    split
    · exact ⟨_, rfl, rfl, hstop _⟩
    · rw [hchar]
      dsimp only [Option.bind_eq_bind, Option.bind_some]
      split
      · apply ih _ _ (by omega)
        obtain hend | ⟨hpos, hle⟩ := h
        · exact .inl hend
        · exact .inr ⟨hpos, by omega⟩
      · exact ⟨_, rfl, rfl, hstop _⟩

/-- The loop ends at the first number of characters behind which the text fits, or the drag ends. -/
theorem scrollLeft_le {x : Int} (text : Text) (lastX : Int) {n : Nat} (hn : 1 ≤ n)
    (h : measure c (text.drop n) ≤ c.mRenderW ∨ lastX - x ≤ (measure c text : Int) - measure c (text.drop n)) : (scrollLeft c x text lastX).1 ≤ n := by
  induction text generalizing lastX n with
  | nil => exact hn
  | cons b rest ih =>
    obtain ⟨k, rfl⟩ : ∃ k, n = k + 1 := ⟨n - 1, by omega⟩
    rw [List.drop_succ_cons] at h
    rw [scrollLeft]
    split
    · exact hn
    · rename_i hwide
      split
      · rename_i hfar
        apply Nat.succ_le_succ
        have hk : 1 ≤ k := by
          by_contra hzero
          obtain rfl : k = 0 := by omega
          rw [List.drop_zero] at h
          omega
        apply ih _ hk
        obtain hfits | hends := h
        · exact .inl hfits
        · exact .inr (by omega)
      · exact hn

theorem scrollLeft_le_length {x : Int} (text : Text) (lastX : Int) (hne : text ≠ []) : (scrollLeft c x text lastX).1 ≤ text.length := by
  apply scrollLeft_le text lastX (List.length_pos_of_ne_nil hne)
  rw [List.drop_length]
  exact .inl (Nat.zero_le _)

theorem inv_dragLeft (hc : c.OneMask) {s : State} {x : Int} (h : Inv s) (hwide : c.mRenderW < measure c (shown c s) →
      (s.scrollingX ≠ 0 → s.scrollingX ≤ s.lastX - x) → InBox s ∧ (s.mCursorLocation = -1 ∨ Room c s x)) : Inv (dragLeft c x s) := by
  rw [dragLeft]
  split
  · exact ⟨h.position, h.skipped, h.text⟩
  · rename_i hshown
    split
    · exact ⟨h.position, h.skipped, h.text⟩
    · rename_i hfar
      obtain ⟨hbox, hroom⟩ := hwide (by omega) (by omega)
      have hlength := shown_length hc hbox
      have hne : shown c s ≠ [] := by
        intro hnil
        rw [hnil, measure_nil] at hshown
        omega
      have hskipped := h.skipped
      dsimp only
      refine ⟨?_, ?_, rfl⟩
      · obtain hend | ⟨n, hn, hle, hstop⟩ := hroom
        · exact .inl hend
        · have hgone := scrollLeft_le (c := c) (x := x) (shown c s) (if s.scrollingX ≠ 0 then x else s.lastX) hn (by split_ifs at hstop ⊢ <;> omega)
          obtain hend | ⟨hpos, -⟩ := h.position
          · exact .inl hend
          · exact .inr ⟨hpos, by dsimp only; omega⟩
      · have hgone := scrollLeft_le_length (c := c) (x := x) (shown c s) (if s.scrollingX ≠ 0 then x else s.lastX) hne
        dsimp only
        omega

/-- After a change of the text the cursor is at the end, or the text fits and still reaches to it. -/
theorem moves_end {s : State}
    (h : s.mCursorLocation = -1 ∨ (0 ≤ s.mCursorLocation ∧ (s.mCursorLocation ≤ s.value.length ∨ c.mRenderW < measure c (display c s.value)))) :
    Moves s (handleTextLocation c (-1003) s) := by
  rw [handleTextLocation]
  split
  · refine ⟨_, rfl, rfl, inv_fits _ ?_⟩
    obtain hend | ⟨hpos, hle | hwide⟩ := h
    · exact .inl hend
    · exact .inr ⟨hpos, hle⟩
    · omega
  · rw [if_pos (by decide)]
    exact ⟨_, if_pos rfl, rfl, inv_showEnd rfl⟩

theorem moves_added {s : State} (h : Position s) : Moves s (handleTextLocation c (-1001) s) := by
  rw [handleTextLocation]
  split
  · refine ⟨_, rfl, rfl, inv_fits _ ?_⟩
    obtain hend | ⟨hpos, hle⟩ := h
    · exact .inl hend
    · exact .inr ⟨hpos, by omega⟩
  · rw [if_pos (by decide), if_neg (by decide : ¬(-1001 : Int) = -1003)]
    dsimp only
    split
    · rename_i hend
      exact ⟨_, rfl, rfl, inv_showEnd hend⟩
    · rename_i hend
      obtain ⟨hpos, hle⟩ := h.resolve_left hend
      rw [if_pos rfl]
      exact moves_showAdded hpos hle

theorem moves_deleted {s : State} (h : Position s) : Moves s (handleTextLocation c (-1002) s) := by
  rw [handleTextLocation]
  split
  · refine ⟨_, rfl, rfl, inv_fits _ ?_⟩
    obtain hend | ⟨hpos, hle⟩ := h
    · exact .inl hend
    · exact .inr ⟨hpos, by omega⟩
  · rw [if_pos (by decide), if_neg (by decide : ¬(-1002 : Int) = -1003)]
    dsimp only
    split
    · rename_i hend
      exact ⟨_, rfl, rfl, inv_showEnd hend⟩
    · rename_i hend
      obtain ⟨hpos, hle⟩ := h.resolve_left hend
      rw [if_neg (by decide), if_pos rfl]
      exact moves_showDeleted _ _ hpos hle

theorem moves_drag (hc : c.OneMask) {s : State} {x : Int} (h : Inv s) (hwide : x < s.lastX → c.mRenderW < measure c (display c s.value) →
      c.mRenderW < measure c (shown c s) → (s.scrollingX ≠ 0 → s.scrollingX ≤ s.lastX - x) → InBox s ∧ (s.mCursorLocation = -1 ∨ Room c s x)) :
    Moves s (handleTextLocation c x s) := by
  by_cases hend : x = -1003
  · rw [hend]
    apply moves_end
    obtain hpos | ⟨hpos, hle⟩ := h.position
    · exact .inl hpos
    · exact .inr ⟨hpos, .inl (by omega)⟩
  by_cases hadded : x = -1001
  · rw [hadded]
    exact moves_added h.position
  by_cases hdeleted : x = -1002
  · rw [hdeleted]
    exact moves_deleted h.position
  rw [handleTextLocation]
  split
  · refine ⟨_, rfl, rfl, inv_fits _ ?_⟩
    obtain hpos | ⟨hpos, hle⟩ := h.position
    · exact .inl hpos
    · exact .inr ⟨hpos, by omega⟩
  · rename_i hshort
    dsimp only
    split
    · split
      · rename_i hlast
        exact ⟨_, rfl, rfl, inv_showEnd hlast⟩
      · exact ⟨_, rfl, rfl, h⟩
    · split
      · exact moves_dragRight x _ _ _ h.skipped h.position
      · split
        · rename_i hleft
          refine ⟨_, rfl, ?_, inv_dragLeft hc h (hwide hleft (by omega))⟩
          rw [dragLeft]
          split_ifs <;> rfl
        · exact ⟨_, rfl, rfl, h⟩

/-! ### Where the cursor is drawn -/

/-- The cursor is drawn where keys edit. -/
theorem drawnAt_eq (hc : c.OneMask) {s : State} (h : Inv s) :
    (drawnAt c s : Int) = if s.mCursorLocation = -1 then (s.value.length : Int) else s.mCursorLocation + s.skipChars := by
  have hskipped := h.skipped
  have hshown : s.skipChars < s.value.length → (shown c s).length = s.value.length - s.skipChars := fun hlt => shown_length hc (.inr hlt)
  have hwhole : s.skipChars = 0 → (shown c s).length = s.value.length - s.skipChars := fun hzero => shown_length hc (.inl hzero)
  rw [drawnAt, cursorPlace, display_length hc]
  by_cases hnone : s.value.length = 0
  · rw [if_pos hnone]
    obtain hend | ⟨hpos, hle⟩ := h.position
    · rw [if_pos hend]
    · rw [if_neg (by omega)]
      dsimp only
      omega
  rw [if_neg hnone]
  by_cases hstart : s.mCursorLocation = 0
  · rw [if_pos hstart, if_neg (by omega), h.text]
    dsimp only
    omega
  rw [if_neg hstart]
  by_cases hinside : 0 < s.mCursorLocation ∧ s.mCursorLocation < (shown c s).length
  · rw [if_pos hinside, if_neg (by omega), h.text]
    dsimp only
    omega
  · rw [if_neg hinside]
    dsimp only
    obtain hend | ⟨hpos, hle⟩ := h.position
    · rw [if_pos hend]
    · rw [if_neg (by omega)]
      omega

/-! ### Keys -/

theorem setMask_eq (hc : c.OneMask) (isLocal : Bool) (s : State) : ∃ maskValue, setMask c isLocal s = some { s with maskValue } := by
  rw [setMask]
  cases hmask : c.mask with
  | none => exact ⟨s.maskValue, rfl⟩
  | some mask =>
    dsimp only
    rw [(hc mask hmask).2, if_neg Bool.false_ne_true]
    exact ⟨_, rfl⟩

/-- What a key does: it goes through, keeps the invariant, and changes the value as it should. -/
def Edits (c : Field) (key : Int) (s : State) (r : Option State) : Prop := ∃ s', r = some s' ∧ Inv s' ∧ s'.value = edited c s key

/-- The place where the cursor is drawn, at the end and before it. -/
theorem drawnAt_end (hc : c.OneMask) {s : State} (h : Inv s) (hend : s.mCursorLocation = -1) : drawnAt c s = s.value.length := by
  have hdrawn := drawnAt_eq hc h
  rw [if_pos hend] at hdrawn
  omega

theorem drawnAt_inside (hc : c.OneMask) {s : State} (h : Inv s) (hend : s.mCursorLocation ≠ -1) :
    0 ≤ s.mCursorLocation ∧ drawnAt c s = s.mCursorLocation.toNat + s.skipChars ∧ drawnAt c s ≤ s.value.length := by
  have hdrawn := drawnAt_eq hc h
  rw [if_neg hend] at hdrawn
  obtain ⟨hpos, hle⟩ := h.position.resolve_left hend
  omega

theorem edits_backspace (hc : c.OneMask) {s : State} (h : Inv s) : Edits c 8 s (backspace c s) := by
  have hedited : edited c s 8 = s.value.take (drawnAt c s - 1) ++ s.value.drop (drawnAt c s) := rfl
  have hskipped := h.skipped
  rw [backspace]
  split
  · rename_i hguard
    obtain ⟨s₁, herase, hvalue, hposition⟩ : ∃ s₁, eraseChar s = some s₁ ∧ s₁.value = edited c s 8 ∧ Position s₁ := by
      rw [eraseChar]
      by_cases hend : s.mCursorLocation = -1
      · rw [if_pos hend]
        refine ⟨_, rfl, ?_, .inl hend⟩
        rw [hedited, drawnAt_end hc h hend, List.drop_length, List.append_nil]
        exact List.dropLast_eq_take
      · obtain ⟨hpos, hdrawn, hle⟩ := drawnAt_inside hc h hend
        have hfront : 0 < drawnAt c s := by omega
        have herase : eraseAt s.value (s.mCursorLocation + s.skipChars - 1) = some (s.value.take (drawnAt c s - 1) ++ s.value.drop (drawnAt c s)) := by
          have hto : (s.mCursorLocation + s.skipChars - 1).toNat = drawnAt c s - 1 := by omega
          rw [eraseAt, if_pos (by omega), hto, Nat.sub_add_cancel hfront]
        have hlength : (s.value.take (drawnAt c s - 1) ++ s.value.drop (drawnAt c s)).length = s.value.length - 1 := by
          rw [List.length_append, List.length_take, List.length_drop]
          omega
        rw [if_neg hend, herase, hedited]
        refine ⟨_, rfl, ?_, ?_⟩
        · split_ifs <;> rfl
        · split_ifs with hcursor
          · exact .inr ⟨by dsimp only; omega, by dsimp only; omega⟩
          · exact .inr ⟨hpos, by dsimp only; omega⟩
    obtain ⟨maskValue, hmask⟩ := setMask_eq hc false s₁
    obtain ⟨s', hs', hsame, hinv⟩ := moves_deleted (c := c) (s := { s₁ with maskValue }) hposition
    refine ⟨s', ?_, hinv, hsame.trans hvalue⟩
    rw [herase]
    dsimp only [Option.bind_eq_bind, Option.bind_some]
    rw [hmask]
    exact hs'
  · rename_i hguard
    refine ⟨s, rfl, h, ?_⟩
    by_cases hnone : s.value.length = 0
    · rw [hedited, List.eq_nil_of_length_eq_zero hnone]
      simp
    · have hend : s.mCursorLocation ≠ -1 := fun hend => hguard ⟨by omega, .inr hend⟩
      obtain ⟨hpos, hdrawn, hle⟩ := drawnAt_inside hc h hend
      have hzero : drawnAt c s = 0 := by
        by_contra hne
        exact hguard ⟨by omega, .inl (by omega)⟩
      rw [hedited, hzero]
      rfl

theorem edits_deleteAll (hc : c.OneMask) {s : State} (h : Inv s) : Edits c 252 s (deleteAll c s) := by
  have hedited : edited c s 252 = s.value.drop (drawnAt c s) := rfl
  have hown : ¬(c.mask.isSome = true ∧ c.maskOwn = true) := by
    intro ⟨hsome, hown⟩
    obtain ⟨mask, hmask⟩ := Option.isSome_iff_exists.mp hsome
    exact Bool.false_ne_true ((hc mask hmask).2.symm.trans hown)
  rw [deleteAll]
  by_cases hend : s.mCursorLocation = -1
  · rw [if_pos hend]
    refine ⟨_, rfl, ⟨.inl hend, Nat.zero_le _, rfl⟩, ?_⟩
    rw [hedited, drawnAt_end hc h hend, List.drop_length]
  · obtain ⟨hpos, hdrawn, hle⟩ := drawnAt_inside hc h hend
    have hto : (s.mCursorLocation + s.skipChars).toNat = drawnAt c s := by omega
    rw [if_neg hend]
    dsimp only
    refine ⟨_, rfl, ⟨.inr ⟨le_refl 0, ?_⟩, Nat.zero_le _, rfl⟩, ?_⟩
    · exact Int.natCast_nonneg _
    · dsimp only
      rw [if_neg hown, if_pos (by omega), hto, hedited]

theorem edits_same {key : Int} {s : State} {r : Option State} (hkey : edited c s key = s.value) (h : Moves s r) : Edits c key s r := by
  obtain ⟨s', hs', hsame, hinv⟩ := h
  exact ⟨s', hs', hinv, hsame.trans hkey.symm⟩

theorem moves_arrowLeft {s : State} (h : Inv s) : Moves s (arrowLeft c s) := by
  have hskipped := h.skipped
  rw [arrowLeft]
  split
  · exact ⟨s, rfl, rfl, h⟩
  · rename_i hstart
    split
    · split
      · exact ⟨s, rfl, rfl, h⟩
      · refine ⟨_, rfl, rfl, ?_, h.skipped, h.text⟩
        by_cases hall : s.skipChars = s.value.length
        · exact .inl (by dsimp only; omega)
        · exact .inr ⟨by dsimp only; omega, by dsimp only; omega⟩
    · rename_i hend
      obtain ⟨hpos, hle⟩ := h.position.resolve_left hend
      split
      · exact moves_deleted (s := { s with skipChars := s.skipChars - 1 }) (.inr ⟨hpos, by dsimp only; omega⟩)
      · exact moves_deleted (s := { s with mCursorLocation := s.mCursorLocation - 1 }) (.inr ⟨by dsimp only; omega, by dsimp only; omega⟩)

theorem moves_arrowRight {s : State} (h : Inv s) : Moves s (arrowRight c s) := by
  rw [arrowRight]
  split
  · exact ⟨s, rfl, rfl, h⟩
  · rename_i hend
    obtain ⟨hpos, hle⟩ := h.position.resolve_left hend
    dsimp only
    split
    · exact moves_added (s := { s with mCursorLocation := -1 }) (.inl rfl)
    · exact moves_added (s := { s with mCursorLocation := s.mCursorLocation + 1 }) (.inr ⟨by dsimp only; omega, by dsimp only; omega⟩)

theorem edits_typeKey (hc : c.OneMask) {s : State} {key : Int} (hrange : key < 245 ∧ 0 < key) (hback : key ≠ 8) (h : Inv s) :
    Edits c key s (typeKey c (UInt8.ofNat key.toNat) s) := by
  have hedited : edited c s key = if accepts c s (UInt8.ofNat key.toNat) then
      s.value.take (drawnAt c s) ++ UInt8.ofNat key.toNat :: s.value.drop (drawnAt c s) else s.value := by
    rw [edited, if_neg hback, if_neg (by omega)]
    simp only [hrange, true_and]
  rw [typeKey]
  split
  · rename_i haccepts
    rw [if_pos haccepts] at hedited
    obtain ⟨s₁, hinsert, hvalue, hposition⟩ : ∃ s₁, insertChar (UInt8.ofNat key.toNat) s = some s₁ ∧ s₁.value = edited c s key ∧ Position s₁ := by
      rw [insertChar]
      by_cases hend : s.mCursorLocation = -1
      · rw [if_pos hend]
        refine ⟨_, rfl, ?_, .inl hend⟩
        rw [hedited, drawnAt_end hc h hend, List.take_length, List.drop_length]
      · obtain ⟨hpos, hdrawn, hle⟩ := drawnAt_inside hc h hend
        have hto : (s.mCursorLocation + s.skipChars).toNat = drawnAt c s := by omega
        rw [if_neg hend, insertAt, if_pos (by omega), hto, hedited]
        refine ⟨_, rfl, rfl, .inr ⟨by dsimp only; omega, ?_⟩⟩
        dsimp only
        rw [List.length_append, List.length_cons, List.length_take, List.length_drop]
        omega
    obtain ⟨s₂, hs₂, hsame, hinv⟩ := moves_added (c := c) hposition
    obtain ⟨maskValue, hmask⟩ := setMask_eq hc false s₂
    refine ⟨{ s₂ with maskValue }, ?_, ⟨hinv.position, hinv.skipped, hinv.text⟩, hsame.trans hvalue⟩
    rw [hinsert]
    dsimp only [Option.bind_eq_bind, Option.bind_some]
    rw [hs₂]
    exact hmask
  · rename_i haccepts
    rw [if_neg haccepts] at hedited
    exact ⟨s, rfl, h, hedited.symm⟩

theorem edits_key (hc : c.OneMask) {s : State} (key : Int) (hfocus : s.hasInputFocus = true) (h : Inv s) :
    Edits c key s (notifyKeyboard c key s) := by
  rw [notifyKeyboard, if_neg (by rw [hfocus]; exact Bool.noConfusion)]
  by_cases hback : key = 8
  · rw [if_pos hback, hback]
    exact edits_backspace hc h
  rw [if_neg hback]
  by_cases hall : key = 252
  · rw [if_pos hall, hall]
    exact edits_deleteAll hc h
  rw [if_neg hall]
  have hspecial (hkey : ¬(key < 245 ∧ 0 < key)) : edited c s key = s.value := by
    rw [edited, if_neg hback, if_neg hall, if_neg]
    intro ⟨hlt, hpos, _⟩
    exact hkey ⟨hlt, hpos⟩
  split
  · exact edits_same (hspecial (by omega)) (moves_arrowLeft h)
  split
  · exact edits_same (hspecial (by omega)) (moves_arrowRight h)
  split
  · refine edits_same (hspecial (by omega)) ?_
    split
    · exact ⟨s, rfl, rfl, h⟩
    · exact moves_deleted (s := { s with mCursorLocation := 0, skipChars := 0 }) (.inr ⟨le_refl 0, by dsimp only; omega⟩)
  split
  · exact edits_same (hspecial (by omega)) (moves_end (s := { s with mCursorLocation := -1 }) (.inl rfl))
  split
  · rename_i hrange
    exact edits_typeKey hc hrange hback h
  · rename_i hrange
    exact ⟨s, rfl, h, (hspecial hrange).symm⟩

/-! ### Touches, changes from outside, drawing -/

theorem touchedFrom_range {x : Int} (displayValue : Text) (left index : Nat) :
    touchedFrom c x displayValue left index = -1 ∨
      (0 ≤ touchedFrom c x displayValue left index ∧ touchedFrom c x displayValue left index < (index + left : Nat)) := by
  induction left generalizing index with
  | zero => exact .inl rfl
  | succ left ih =>
    rw [touchedFrom]
    split
    · split
      · exact .inr ⟨by omega, by omega⟩
      · exact .inr ⟨by omega, by omega⟩
    · obtain hend | ⟨hpos, hlt⟩ := ih (index + 1)
      · exact .inl hend
      · exact .inr ⟨hpos, by omega⟩

theorem inv_touch (hc : c.OneMask) {s : State} {state : TouchState} {x y : Int} (h : Inv s) (hm : Meets c s (.touch state x y)) :
    ∃ s', notifyTouch c state x y s = some s' ∧ Inv s' := by
  unfold notifyTouch
  by_cases hfocus : s.hasInputFocus = false
  · rw [if_pos hfocus]
    split
    · exact ⟨_, rfl, h.position, h.skipped, h.text⟩
    · exact ⟨s, rfl, h⟩
  rw [if_neg hfocus]
  have hfocused : s.hasInputFocus = true := by simpa using hfocus
  cases state with
  | hold => exact ⟨s, rfl, h⟩
  | «repeat» => exact ⟨s, rfl, h⟩
  | start => exact ⟨_, rfl, h.position, h.skipped, h.text⟩
  | drag =>
    dsimp only
    split
    · exact ⟨_, rfl, h.position, h.skipped, h.text⟩
    · rename_i hinside
      split
      · exact ⟨_, rfl, h.position, h.skipped, h.text⟩
      · rename_i hmoved
        split
        · obtain ⟨s', hs', -, hinv⟩ := moves_drag hc (s := { s with drawCursor := false, startSelection := -1 }) (x := x)
            ⟨h.position, h.skipped, h.text⟩ (fun hleft hwide hshown hfar => hm ⟨hfocused, hinside, hmoved, hleft, hwide, hshown, hfar⟩)
          exact ⟨s', hs', hinv⟩
        · exact ⟨_, rfl, h.position, h.skipped, h.text⟩
  | release =>
    dsimp only
    rw [display_length hc]
    split
    · rename_i hnone
      have hskipped := h.skipped
      have htext := h.text
      exact ⟨_, rfl, .inl rfl, Nat.zero_le _, by dsimp only; omega⟩
    · have hbox : InBox s := hm hfocused
      have hlength := shown_length (s := { s with drawCursor := true }) hc hbox
      have hskipped := h.skipped
      refine ⟨_, rfl, ?_, h.skipped, h.text⟩
      obtain hend | ⟨hpos, hlt⟩ := touchedFrom_range (c := c) (x := x) (shown c { s with drawCursor := true }) _ 0
      · exact .inl hend
      · refine .inr ⟨hpos, ?_⟩
        rw [hlength] at hlt
        rw [touched, hlength]
        dsimp only at hlt ⊢
        omega

theorem inv_textChange {s : State} {told : Bool} {value : Text} (h : Inv s) (hm : Meets c s (.textChange told value)) :
    ∃ s', textChange c told value s = some s' ∧ Inv s' := by
  cases told with
  | true =>
    have hend : s.mCursorLocation = -1 ∨ (0 ≤ s.mCursorLocation ∧
        (s.mCursorLocation ≤ value.length ∨ c.mRenderW < measure c (display c value))) := by
      obtain hend | ⟨hpos, -⟩ := h.position
      · exact .inl hend
      · exact .inr ⟨hpos, hm⟩
    obtain ⟨s', hs', -, hinv⟩ := moves_end (s := { s with value }) hend
    exact ⟨s', hs', hinv⟩
  | false =>
    obtain ⟨hskipped, hle⟩ := hm
    refine ⟨_, rfl, ?_, hskipped, h.text⟩
    obtain hend | ⟨hpos, -⟩ := h.position
    · exact .inl hend
    · exact .inr ⟨hpos, hle⟩

theorem inv_render (hc : c.OneMask) {s : State} (visible : Bool) (h : Inv s) : ∃ s', render c visible s = some s' ∧ Inv s' := by
  have hskipped := h.skipped
  have htext := h.text
  rw [render, display_length hc]
  split
  · exact ⟨s, rfl, h⟩
  rw [if_neg (by omega)]
  split
  · exact ⟨s, rfl, h⟩
  split
  · exact ⟨_, rfl, .inl rfl, Nat.zero_le _, by dsimp only; omega⟩
  · cases cursorPlace c s with
    | inside k => exact ⟨s, rfl, h⟩
    | atEnd =>
      dsimp only
      refine ⟨_, rfl, ?_⟩
      split_ifs
      · exact ⟨.inl rfl, h.skipped, h.text⟩
      · exact h

/-! ### Runs -/

theorem step_good (hc : c.OneMask) {s : State} {e : Event} (h : Inv s) (hm : Meets c s e) :
    ∃ s', step c s e = some s' ∧ Inv s' ∧ ∀ key, e = .key key → s.hasInputFocus = true → s'.value = edited c s key := by
  cases e with
  | render visible =>
    obtain ⟨s', hs', hinv⟩ := inv_render hc visible h
    exact ⟨s', hs', hinv, nofun⟩
  | touch state x y =>
    obtain ⟨s', hs', hinv⟩ := inv_touch hc h hm
    exact ⟨s', hs', hinv, nofun⟩
  | key key =>
    cases hfocus : s.hasInputFocus with
    | true =>
      obtain ⟨s', hs', hinv, hvalue⟩ := edits_key hc key hfocus h
      refine ⟨s', hs', hinv, ?_⟩
      intro k hk _
      cases hk
      exact hvalue
    | false =>
      refine ⟨s, if_pos hfocus, h, ?_⟩
      intro k _ htrue
      exact nomatch htrue
  | textChange told value =>
    obtain ⟨s', hs', hinv⟩ := inv_textChange h hm
    exact ⟨s', hs', hinv, nofun⟩
  | setInputFocus focus => exact ⟨_, rfl, ⟨h.position, h.skipped, h.text⟩, nofun⟩

theorem allGood (hc : c.OneMask) {s : State} {events : List Event} (h : Inv s) (hm : AllMeet c s events) : AllGood c s events := by
  induction events generalizing s with
  | nil => trivial
  | cons e events ih =>
    obtain ⟨s', hs', hinv, hkey⟩ := step_good hc h hm.1
    exact ⟨s', hs', hinv.position, hkey, ih hinv (hm.2 s' hs')⟩

theorem inv_create (hc : c.OneMask) (value maskValue : Text) (focus : Bool) : ∃ s, create c value maskValue focus = some s ∧ Inv s := by
  obtain ⟨s, hs, -, hinv⟩ := moves_drag (c := c) hc (x := -3)
    (s := ⟨value, maskValue, 0, -1, 0, 0, -1, focus, focus, 0⟩) ⟨.inl rfl, Nat.zero_le _, rfl⟩ (fun _ _ _ _ => ⟨.inl rfl, .inl rfl⟩)
  exact ⟨s, hs, hinv⟩

variable (c)

/-- A box for five characters. -/
def narrow : Field := ⟨fun _ => 10, 0, 0, 50, 20, none, false, none, none, 0⟩

end Twrp.Gui.Input
