import Twrp.Gui.FileScroll

/-! A file selector in use.

The first line stays in the list and the offset within a line, as long as the fast scroll is not used on what is left of a
list, and a folder that is gone does not leave a position behind (`Meets`). The entry of a touch is the first one whose
last row is not above it, which is the one drawn there but for the first row of a line. -/
namespace Twrp.Gui.FileSelector
open Base
variable (w : Window)

/-- The first line is in the list, or right behind it. -/
def InList (s : State) : Prop := 0 ≤ s.mStart ∧ s.mStart ≤ totalSize w s

instance (s : State) : Decidable (InList w s) := inferInstanceAs (Decidable (_ ∧ _))

def Event.isRelease : Event → Bool
  | .touch .release _ _ _ _ => true
  | _ => false

/-- Where a touch has started that has not been a drag. -/
def touchedAfter (touched : Option Int) : Event → Option Int
  | .touch .start _ y _ _ => some y
  | .touch .drag _ _ _ _ | .touch .release _ _ _ _ => none
  | _ => touched

/-- No access is out of a list and no division by zero, the first line stays in the list, and a touch that is released
selects the entry on the screen. -/
def AllGood : Option Int → State → List Event → Prop
  | _, _, [] => True
  | touched, s, e :: events => ∃ s' selected, step w s e = some (s', selected) ∧ InList w s' ∧
      (∀ y ∈ touched, e.isRelease = true → selected = shownAt w s y) ∧ AllGood (touchedAfter touched e) s' events

/-- A selector as it is made, and what happens then. -/
def Right (path header : CString) (disk : Disk) (events : List Event) : Prop :=
  InList w (create w path header disk) ∧ AllGood w none (create w path header disk) events

/-! ### The condition -/

/-- A folder that has to be read can be opened, or is left, or the list stands at its start. -/
def Readable (s : State) (disk : Disk) : Prop :=
  s.updateFileList = true → disk s.path = none → s.mStart = 0 ∨ (leaves w s.path).isSome = true

/-- The screen shows the list as it stands. -/
def Shows (s : State) : Prop :=
  drawLines w s (drawn w s).toNat 0 (w.mRenderY + w.mHeaderH + s.scrollingY) = some s.screen

/-- The row of a touch, from the top of the first line on. -/
def rowOf (s : State) (y : Int) : Int := y - w.mRenderY - w.mHeaderH - s.scrollingY

/-- A row of the window in which the touch has not stopped the list, and which is not the first of a line. -/
structure Within (s : State) (y : Int) : Prop where
  below : w.mRenderY + w.mHeaderH < y
  above : y < w.mRenderY + w.mRenderH
  selection : s.startSelection ≠ -1
  inner : ¬w.actualLineHeight ∣ rowOf w s y

/-- The list ends above the row. -/
def Beyond (s : State) (y : Int) : Prop := totalSize w s ≤ s.mStart + (rowOf w s y - 1) / w.actualLineHeight

/-- The touch is outside of the window, or the screen shows the list and the row is as it should be. -/
def Agrees (s : State) (y : Int) : Prop :=
  y < w.mRenderY + w.mHeaderH ∨ w.mRenderY + w.mRenderH < y ∨ (Shows w s ∧ (Within w s y ∨ Beyond w s y))

/-- What the code relies on. -/
def Meets (touched : Option Int) (s : State) : Event → Prop
  | .touch .drag x y _ _ => getSelection w y ≠ -1 → onFastScroll w s x → lines w ≤ totalSize w s
  | .touch .release _ _ _ _ => ∀ y ∈ touched, Agrees w s y
  | .render disk _ => Readable w s disk
  | .update disk header _ => (headerUpdate w header s).mUpdate = true → Readable w s disk
  | _ => True

def AllMeet : Option Int → State → List Event → Prop
  | _, _, [] => True
  | touched, s, e :: events => Meets w touched s e ∧
      ∀ s' selected, step w s e = some (s', selected) → AllMeet (touchedAfter touched e) s' events

/-! ### The window -/

variable {w}

theorem height_pos : 0 < height w := lt_of_lt_of_le w.line w.room

theorem lines_eq : lines w = height w / w.actualLineHeight := Int.tdiv_eq_ediv_of_nonneg height_pos.le

theorem lines_pos : 1 ≤ lines w := by
  rw [lines_eq, Int.le_ediv_iff_mul_le w.line, one_mul]
  exact w.room

theorem bottomOffset_range : -w.actualLineHeight ≤ bottomOffset w ∧ bottomOffset w < 0 := by
  have hmod : height w - lines w * w.actualLineHeight = height w % w.actualLineHeight := by
    rw [lines_eq, Int.emod_def, mul_comm]
  have hlow := Int.emod_nonneg (height w) w.line.ne'
  have hhigh := Int.emod_lt_of_pos (height w) w.line
  rw [bottomOffset, hmod]
  omega

theorem extraLine_eq : extraLine w = 1 := if_pos bottomOffset_range.2.ne

theorem folderSize_nonneg (s : State) : 0 ≤ folderSize w s := by
  rw [folderSize]
  split <;> omega

theorem fileSize_nonneg (s : State) : 0 ≤ fileSize w s := by
  rw [fileSize]
  split <;> omega

theorem totalSize_nonneg (s : State) : 0 ≤ totalSize w s := Int.add_nonneg (folderSize_nonneg s) (fileSize_nonneg s)

theorem totalSize_congr {s s' : State} (h : s'.lists = s.lists) : totalSize w s' = totalSize w s := by
  rw [totalSize, totalSize, folderSize, folderSize, fileSize, fileSize, h]

/-! ### The loops -/

theorem scrollUp_spec (mStart scrollingY : Int) (hstart : 0 ≤ mStart) :
    0 ≤ (scrollUp w mStart scrollingY).1 ∧ (scrollUp w mStart scrollingY).1 ≤ mStart ∧
      ((scrollUp w mStart scrollingY).1 = 0 ∨ (scrollUp w mStart scrollingY).2 ≤ 0) ∧
      (-w.actualLineHeight ≤ scrollingY → -w.actualLineHeight ≤ (scrollUp w mStart scrollingY).2) := by
  induction mStart, scrollingY using scrollUp.induct w with
  | case1 mStart scrollingY h ih =>
    rw [scrollUp, if_pos h]
    have hnext := ih (by omega)
    omega
  | case2 mStart scrollingY h =>
    rw [scrollUp, if_neg h]
    omega

theorem scrollDown_spec (totalSize mStart scrollingY : Int) (htop : scrollingY ≤ 0) :
    mStart ≤ (scrollDown w totalSize mStart scrollingY).1 ∧
      ((scrollDown w totalSize mStart scrollingY).1 = mStart ∨ (scrollDown w totalSize mStart scrollingY).1 < totalSize - lines w) ∧
      (scrollDown w totalSize mStart scrollingY).2 ≤ 0 ∧
      (-w.actualLineHeight ≤ (scrollDown w totalSize mStart scrollingY).2 ∨
        totalSize ≤ (scrollDown w totalSize mStart scrollingY).1 + lines w + 1) := by
  have hline := w.line
  induction mStart, scrollingY using scrollDown.induct w totalSize with
  | case1 mStart scrollingY h ih =>
    rw [scrollDown, if_pos h]
    rw [extraLine_eq, abs_of_nonpos htop] at h
    have hnext := ih (by omega)
    omega
  | case2 mStart scrollingY h =>
    rw [scrollDown, if_neg h]
    rw [extraLine_eq, abs_of_nonpos htop] at h
    omega

/-- The place of the list: in it, and not more than a line off. -/
structure Placed (totalSize : Int) (p : Int × Int) : Prop where
  start : 0 ≤ p.1
  stop : p.1 ≤ totalSize
  low : -w.actualLineHeight ≤ p.2
  high : p.2 ≤ 0

/-- Scrolling down and keeping the bottom leaves a place of the list. -/
theorem placed_down {totalSize mStart scrollingY : Int} (hlines : lines w < totalSize) (hstart : 0 ≤ mStart) (hstop : mStart ≤ totalSize)
    (htop : scrollingY ≤ 0) :
    Placed (w := w) totalSize
      ((clampBottom w totalSize (scrollDown w totalSize mStart scrollingY).1 (scrollDown w totalSize mStart scrollingY).2).getD
        (scrollDown w totalSize mStart scrollingY)) := by
  have hoffset := bottomOffset_range (w := w)
  have hpos := lines_pos (w := w)
  obtain ⟨h₁, h₂, h₃, h₄⟩ := scrollDown_spec (w := w) totalSize mStart scrollingY htop
  have hline := w.line
  rw [clampBottom]
  split
  · constructor <;> (dsimp only [Option.getD_some]; omega)
  · split
    · constructor <;> (dsimp only [Option.getD_some]; omega)
    · constructor <;> (dsimp only [Option.getD_none]; omega)

/-! ### What is on the screen -/

theorem entryAt_nonneg (s : State) {i : Int} (h : 0 ≤ i) : ∃ e, entryAt w s i = some e := by
  have hentry (list : List FileData) {j : Int} (hj : 0 ≤ j) (hlt : j < list.length) : ∃ e, entryOf list j = some e := by
    rw [entryOf, if_pos hj]
    exact ⟨_, List.getElem?_eq_getElem (by omega)⟩
  rw [entryAt]
  split
  · rename_i hfolder
    rw [folderSize] at hfolder
    split at hfolder
    · obtain ⟨e, he⟩ := hentry s.lists.mFolderList h hfolder
      exact ⟨some e, by rw [he]; rfl⟩
    · omega
  · split
    · rename_i hnot htotal
      rw [totalSize, fileSize] at htotal
      split at htotal
      · obtain ⟨e, he⟩ := hentry s.lists.mFileList (j := i - folderSize w s) (by omega) (by omega)
        exact ⟨some e, by rw [he]; rfl⟩
      · omega
    · exact ⟨none, rfl⟩

theorem entryAt_beyond (s : State) {i : Int} (h : totalSize w s ≤ i) : entryAt w s i = some none := by
  have hfiles := fileSize_nonneg (w := w) s
  rw [totalSize] at h
  rw [entryAt, if_neg (by omega), totalSize, if_neg (by omega)]

theorem beyond_of_entryAt {s : State} {i : Int} (h : entryAt w s i = some none) : totalSize w s ≤ i := by
  by_contra hlt
  rw [entryAt] at h
  split at h
  · obtain ⟨e, -, he⟩ := Option.map_eq_some_iff.mp h
    exact nomatch he
  · rw [if_pos (by omega)] at h
    obtain ⟨e, -, he⟩ := Option.map_eq_some_iff.mp h
    exact nomatch he

theorem exists_drawLines (s : State) (count : Nat) (line yPos : Int) (h : 0 ≤ line + s.mStart) :
    ∃ screen, drawLines w s count line yPos = some screen := by
  induction count generalizing line yPos with
  | zero => exact ⟨[], rfl⟩
  | succ count ih =>
    obtain ⟨e, he⟩ := entryAt_nonneg (w := w) s h
    rw [drawLines, he]
    cases e with
    | none => exact ih (line + 1) yPos (by omega)
    | some label =>
      obtain ⟨screen, hscreen⟩ := ih (line + 1) (yPos + w.actualLineHeight) (by omega)
      exact ⟨(yPos, label) :: screen, by dsimp only; rw [hscreen]; rfl⟩

theorem drawLines_beyond (s : State) (count : Nat) {line : Int} (yPos : Int) (h : totalSize w s ≤ line + s.mStart) :
    drawLines w s count line yPos = some [] := by
  induction count generalizing line with
  | zero => rfl
  | succ count ih =>
    rw [drawLines, entryAt_beyond s h]
    exact ih (by omega)

/-- The label in a row is that of the entry whose line has the row. -/
theorem find_drawLines {s : State} {count : Nat} {line yPos y : Int} {screen : List (Int × FileData)}
    (hdraw : drawLines w s count line yPos = some screen) (hy : yPos ≤ y)
    (hcount : totalSize w s ≤ line + count + s.mStart ∨ (y - yPos) / w.actualLineHeight < count) :
    some ((screen.find? fun label => label.1 ≤ y ∧ y < label.1 + w.actualLineHeight).map Prod.snd) =
      (if totalSize w s ≤ line + (y - yPos) / w.actualLineHeight + s.mStart then some none
        else entryAt w s (line + (y - yPos) / w.actualLineHeight + s.mStart)) := by
  have hline := w.line
  have hquot : 0 ≤ (y - yPos) / w.actualLineHeight := Int.ediv_nonneg (by omega) hline.le
  induction count generalizing line yPos screen with
  | zero =>
    obtain rfl := Option.some.inj hdraw
    rw [if_pos (by push_cast at hcount; omega)]
    rfl
  | succ count ih =>
    rw [drawLines] at hdraw
    cases he : entryAt w s (line + s.mStart) with
    | none =>
      rw [he] at hdraw
      exact nomatch hdraw
    | some e =>
      rw [he] at hdraw
      cases e with
      | none =>
        have hbeyond := beyond_of_entryAt he
        have hrest : drawLines w s count (line + 1) yPos = some [] := drawLines_beyond s count yPos (by omega)
        obtain rfl := Option.some.inj (hrest.symm.trans hdraw)
        rw [if_pos (by omega)]
        rfl
      | some label =>
        obtain ⟨rest, hrest, rfl⟩ := Option.map_eq_some_iff.mp hdraw
        have hin : line + s.mStart < totalSize w s := by
          by_contra hge
          rw [entryAt_beyond s (by omega)] at he
          exact nomatch he
        by_cases hrow : y < yPos + w.actualLineHeight
        · have hzero : (y - yPos) / w.actualLineHeight = 0 := Int.ediv_eq_zero_of_lt (by omega) (by omega)
          rw [List.find?_cons_of_pos (by simp [hy, hrow]), hzero, if_neg (by omega), add_zero, he]
          rfl
        · have hshift : (y - (yPos + w.actualLineHeight)) / w.actualLineHeight = (y - yPos) / w.actualLineHeight - 1 := by
            rw [show y - (yPos + w.actualLineHeight) = y - yPos + (-1) * w.actualLineHeight by ring, Int.add_mul_ediv_right _ _ hline.ne']
            ring
          have hnext := ih hrest (by omega) (by push_cast at hcount; omega) (Int.ediv_nonneg (by omega) hline.le)
          rw [List.find?_cons_of_neg (by simp [hrow]), hnext, hshift]
          have hindex : line + 1 + ((y - yPos) / w.actualLineHeight - 1) + s.mStart = line + (y - yPos) / w.actualLineHeight + s.mStart := by ring
          rw [hindex]

/-- The entry in a row of the window is the one that stands there. -/
theorem shownAt_eq {s : State} (hshows : Shows w s) (hstart : 0 ≤ s.mStart) (hlow : -w.actualLineHeight ≤ s.scrollingY)
    (hhigh : s.scrollingY ≤ 0) {y : Int} (htop : w.mRenderY + w.mHeaderH ≤ y) (hbottom : y < w.mRenderY + w.mRenderH) :
    some (shownAt w s y) = entryAt w s (s.mStart + rowOf w s y / w.actualLineHeight) := by
  have hrow : y - (w.mRenderY + w.mHeaderH + s.scrollingY) = rowOf w s y := by
    rw [rowOf]
    ring
  have hquot : rowOf w s y / w.actualLineHeight ≤ lines w + 1 := by
    have hle : rowOf w s y ≤ height w + 1 * w.actualLineHeight := by
      rw [rowOf, height]
      omega
    have hdiv := Int.ediv_le_ediv w.line hle
    rw [Int.add_mul_ediv_right _ _ w.line.ne', ← lines_eq] at hdiv
    exact hdiv
  have htotal := totalSize_nonneg (w := w) s
  have hpos := lines_pos (w := w)
  have hcount : totalSize w s ≤ 0 + ((drawn w s).toNat : Nat) + s.mStart ∨
      (y - (w.mRenderY + w.mHeaderH + s.scrollingY)) / w.actualLineHeight < (drawn w s).toNat := by
    rw [hrow, drawn]
    split_ifs <;> omega
  rw [shownAt, if_pos ⟨htop, hbottom⟩, find_drawLines hshows (by omega) hcount, hrow]
  have hindex : 0 + rowOf w s y / w.actualLineHeight + s.mStart = s.mStart + rowOf w s y / w.actualLineHeight := by ring
  rw [hindex]
  split
  · rename_i hbeyond
    exact (entryAt_beyond s hbeyond).symm
  · rfl

/-- The entry of a touch. -/
theorem locate_eq {startSelection selectY : Int} (actualSelection : Int) (h : selectY < startSelection) :
    locate w startSelection selectY actualSelection = actualSelection + (startSelection - selectY - 1) / w.actualLineHeight := by
  have hline := w.line
  induction selectY, actualSelection using locate.induct w startSelection with
  | case1 selectY actualSelection hmore ih =>
    rw [locate, if_pos hmore, ih hmore]
    rw [show startSelection - (selectY + w.actualLineHeight) - 1 = startSelection - selectY - 1 + (-1) * w.actualLineHeight by ring,
      Int.add_mul_ediv_right _ _ hline.ne']
    ring
  | case2 selectY actualSelection hlast =>
    rw [locate, if_neg hlast, Int.ediv_eq_zero_of_lt (by omega) (by omega), add_zero]

theorem sub_one_ediv {a r : Int} (ha : 0 < a) (h : ¬a ∣ r) : (r - 1) / a = r / a := by
  have hne : r % a ≠ 0 := fun hzero => h (Int.dvd_of_emod_eq_zero hzero)
  have hnonneg := Int.emod_nonneg r ha.ne'
  have hlt := Int.emod_lt_of_pos r ha
  have hsplit : r - 1 = r % a - 1 + r / a * a := by
    have hr := Int.emod_add_mul_ediv r a
    rw [mul_comm] at hr
    omega
  rw [hsplit, Int.add_mul_ediv_right _ _ ha.ne', Int.ediv_eq_zero_of_lt (by omega) (by omega), zero_add]

/-! ### What a step keeps -/

variable (w) in
/-- The list has a place, and the selection is that of the touch. -/
structure Inv (touched : Option Int) (s : State) : Prop where
  placed : Placed (w := w) (totalSize w s) (s.mStart, s.scrollingY)
  touch : ∀ y ∈ touched, s.startSelection = -1 ∨ s.startSelection = getSelection w y

theorem Inv.inList {touched : Option Int} {s : State} (h : Inv w touched s) : InList w s := ⟨h.placed.start, h.placed.stop⟩

theorem placed_zero (s : State) : Placed (w := w) (totalSize w s) (0, 0) :=
  ⟨le_refl 0, totalSize_nonneg s, neg_nonpos.mpr w.line.le, le_refl 0⟩

/-- A step that leaves the selection. -/
theorem Inv.move {touched : Option Int} {s s' : State} (h : Inv w touched s) (hselection : s'.startSelection = s.startSelection)
    (hplaced : Placed (w := w) (totalSize w s') (s'.mStart, s'.scrollingY)) : Inv w touched s' := by
  constructor
  · exact hplaced
  · intro y hy
    rw [hselection]
    exact h.touch y hy

theorem Inv.untouched {touched : Option Int} {s : State} (h : Inv w touched s) : Inv w none s := ⟨h.placed, nofun⟩

theorem Inv.notifyVarChange {touched : Option Int} {s : State} (h : Inv w touched s) (varName : VarName) (header : CString) :
    Inv w touched (notifyVarChange w varName header s) := by
  rw [FileSelector.notifyVarChange]
  dsimp only
  split <;> split
  · exact h.move rfl (placed_zero s)
  · exact h.move rfl (placed_zero s)
  · exact h.move rfl (placed_zero s)
  · exact h

theorem Inv.setPageFocus {touched : Option Int} {s : State} (h : Inv w touched s) (inFocus : Bool) : Inv w touched (setPageFocus inFocus s) := by
  rw [FileSelector.setPageFocus]
  split
  · exact h.move rfl ⟨h.placed.start, h.placed.stop, neg_nonpos.mpr w.line.le, le_refl 0⟩
  · exact h

/-- A touch begins. -/
theorem Inv.start {touched : Option Int} {s : State} (h : Inv w touched s) (y : Int) : Inv w (some y) (start w y s) := by
  have hselection : (FileSelector.start w y s).startSelection = if s.scrollingSpeed ≠ 0 then -1 else getSelection w y := rfl
  constructor
  · exact h.placed
  · intro y' hy'
    obtain rfl := Option.some.inj hy'
    rw [hselection]
    split
    · exact Or.inl rfl
    · exact Or.inr rfl

/-! ### A folder is read -/

theorem placed_fillLists (lists : Lists) {s : State} (hstart : 0 ≤ s.mStart) (hlow : -w.actualLineHeight ≤ s.scrollingY)
    (hhigh : s.scrollingY ≤ 0) :
    Placed (w := w) (totalSize w (fillLists w lists s)) ((fillLists w lists s).mStart, (fillLists w lists s).scrollingY) := by
  have hpos := lines_pos (w := w)
  have htotal := totalSize_nonneg (w := w) { s with lists }
  rw [fillLists]
  dsimp only
  split
  · exact ⟨le_max_left _ _, max_le htotal (sub_le_self _ (by omega)), hlow, hhigh⟩
  · rename_i hle
    exact ⟨hstart, by dsimp only; omega, hlow, hhigh⟩

theorem startSelection_fillLists (lists : Lists) (s : State) : (fillLists w lists s).startSelection = s.startSelection := by
  rw [fillLists]
  dsimp only
  split <;> rfl

/-- A folder that cannot be opened leaves an empty list. -/
theorem totalSize_cleared (s : State) : totalSize w { s with lists := ⟨[], []⟩ } = 0 := by
  rw [totalSize, folderSize, fileSize]
  split <;> split <;> rfl

/-- A new folder is shown from its start. -/
theorem notifyVarChange_path (header : CString) (s : State) :
    (notifyVarChange w .path header s).mStart = 0 ∧ (notifyVarChange w .path header s).scrollingY = 0 ∧
      (notifyVarChange w .path header s).startSelection = s.startSelection := by
  rw [notifyVarChange]
  dsimp only
  rw [if_pos (Or.inl rfl)]
  split <;> exact ⟨rfl, rfl, rfl⟩

theorem Inv.getFileList {touched : Option Int} {s : State} {disk : Disk} (h : Inv w touched s)
    (hread : disk s.path = none → s.mStart = 0 ∨ (leaves w s.path).isSome = true) (header : CString) :
    Inv w touched (getFileList w disk header s).1 := by
  rw [FileSelector.getFileList]
  split
  · exact h.move (startSelection_fillLists _ s) (placed_fillLists _ h.placed.start h.placed.low h.placed.high)
  · rename_i hgone
    dsimp only
    split
    · rename_i newFolder hleaves
      obtain ⟨hstart, hoffset, hselection⟩ := notifyVarChange_path (w := w) header { s with lists := ⟨[], []⟩, path := newFolder }
      apply h.move hselection
      rw [hstart, hoffset]
      exact placed_zero _
    · rename_i hstays
      have hzero : s.mStart = 0 := (hread hgone).resolve_right (by rw [hstays]; exact Bool.false_ne_true)
      have hempty := totalSize_cleared (w := w) s
      exact h.move rfl ⟨h.placed.start, hzero.le.trans hempty.ge, h.placed.low, h.placed.high⟩

/-! ### Drawing -/

theorem settle_placed {s : State} (h : Placed (w := w) (totalSize w s) (s.mStart, s.scrollingY)) :
    Placed (w := w) (totalSize w (settle w s)) ((settle w s).mStart, (settle w s).scrollingY) := by
  rw [settle]
  split
  · exact ⟨h.start, h.stop, neg_nonpos.mpr w.line.le, le_refl 0⟩
  · exact h

theorem startSelection_settle (s : State) : (settle w s).startSelection = s.startSelection := by
  rw [settle]
  split <;> rfl

/-- The bar is drawn on a list that is longer than the window. -/
theorem exists_drawFastScroll (s : State) : ∃ x y, drawFastScroll w s = some { s with mFastScrollRectX := x, mFastScrollRectY := y } := by
  rw [drawFastScroll]
  split
  · rename_i hlong
    have hne : totalSize w s * w.actualLineHeight - lines w * w.actualLineHeight ≠ 0 := by
      rw [← sub_mul]
      exact mul_ne_zero (sub_ne_zero.mpr hlong.2.ne') w.line.ne'
    rw [divide, if_neg hne]
    exact ⟨_, _, rfl⟩
  · exact ⟨s.mFastScrollRectX, s.mFastScrollRectY, rfl⟩

theorem Inv.draw {touched : Option Int} {s : State} (h : Inv w touched s) : ∃ s', draw w s = some s' ∧ Inv w touched s' := by
  have hplaced := settle_placed h.placed
  obtain ⟨screen, hscreen⟩ := exists_drawLines (w := w) (settle w s) (drawn w s).toNat 0 (w.mRenderY + w.mHeaderH + (settle w s).scrollingY)
    (by rw [zero_add]; exact hplaced.start)
  obtain ⟨x, y, hbar⟩ := exists_drawFastScroll (w := w) { settle w s with screen }
  rw [FileSelector.draw, hscreen]
  dsimp only [Option.bind_eq_bind, Option.bind_some]
  rw [hbar]
  exact ⟨_, rfl, h.move (startSelection_settle s) hplaced⟩

theorem Inv.render {touched : Option Int} {s : State} {disk : Disk} (h : Inv w touched s) (hread : Readable w s disk) (header : CString) :
    ∃ s', render w disk header s = some s' ∧ Inv w touched s' := by
  rw [FileSelector.render]
  split
  · rename_i hupdate
    have hlist := h.getFileList (hread hupdate) header
    dsimp only
    split
    · exact Inv.draw (hlist.move rfl hlist.placed)
    · exact ⟨_, rfl, hlist.move rfl hlist.placed⟩
  · exact h.draw

/-! ### Scrolling -/

theorem exists_headerUpdate (header : CString) (s : State) :
    ∃ text update, headerUpdate w header s = { s with mLastValue := text, mUpdate := update } := by
  rw [headerUpdate]
  split
  · exact ⟨_, _, rfl⟩
  · exact ⟨s.mLastValue, s.mUpdate, rfl⟩

/-- Scrolling up by a part of a line or more. -/
theorem placed_up {total mStart scrollingY : Int} (hstart : 0 ≤ mStart) (hstop : mStart ≤ total) (hlow : -w.actualLineHeight ≤ scrollingY)
    (hnot : ¬((scrollUp w mStart scrollingY).1 = 0 ∧ 0 < (scrollUp w mStart scrollingY).2)) :
    Placed (w := w) total (scrollUp w mStart scrollingY) := by
  obtain ⟨h₁, h₂, h₃, h₄⟩ := scrollUp_spec (w := w) mStart scrollingY hstart
  exact ⟨h₁, h₂.trans hstop, h₄ hlow, by omega⟩

theorem Inv.kinetic {touched : Option Int} {s : State} (h : Inv w touched s) : Inv w touched (kinetic w s) := by
  obtain ⟨hstart, hstop, hlow, hhigh⟩ := h.placed
  dsimp only at hstart hstop hlow hhigh
  have hline := w.line
  have hfast : 0 ≤ fastest w := Int.tdiv_nonneg (by omega) (by decide)
  rw [FileSelector.kinetic]
  split
  · exact h
  · split
    · have hspeed : 0 ≤ if s.scrollingSpeed < fastest w then s.scrollingSpeed else fastest w := by split <;> omega
      generalize (if s.scrollingSpeed < fastest w then s.scrollingSpeed else fastest w) = speed at hspeed ⊢
      dsimp only
      split
      · rename_i hzero
        exact h.move rfl ⟨hzero.1.ge, hzero.1.le.trans (totalSize_nonneg s), neg_nonpos.mpr hline.le, le_refl 0⟩
      · rename_i hnot
        exact h.move rfl (placed_up hstart hstop (by omega) hnot)
    · split
      · rename_i hlong
        have hoffset : (if |s.scrollingSpeed| < fastest w then s.scrollingY + s.scrollingSpeed else s.scrollingY - fastest w) ≤ 0 := by
          split <;> omega
        have hdown := placed_down (w := w) hlong hstart hstop hoffset
        dsimp only
        split
        · rename_i mStart scrollingY hclamp
          rw [hclamp] at hdown
          exact h.move rfl hdown
        · rename_i hclamp
          rw [hclamp] at hdown
          exact h.move rfl hdown
      · exact h

theorem Inv.update {touched : Option Int} {s : State} {disk : Disk} (h : Inv w touched s) (header header' : CString)
    (hread : (FileSelector.headerUpdate w header s).mUpdate = true → Readable w s disk) :
    ∃ s', update w disk header header' s = some s' ∧ Inv w touched s' := by
  obtain ⟨text, update, hheader⟩ := exists_headerUpdate (w := w) header s
  rw [hheader] at hread
  rw [FileSelector.update, hheader]
  dsimp only
  split
  · rename_i hupdate
    have hreadable : Readable w { s with mLastValue := text, mUpdate := false } disk := hread hupdate
    have hstate : Inv w touched { s with mLastValue := text, mUpdate := false } := h.move rfl h.placed
    exact hstate.render hreadable header'
  · exact ⟨_, rfl, Inv.kinetic (h.move rfl h.placed)⟩

/-! ### Dragging -/

theorem placed_dragList {y : Int} {s : State} (h : Placed (w := w) (totalSize w s) (s.mStart, s.scrollingY)) :
    Placed (w := w) (totalSize w s) ((dragList w y s).mStart, (dragList w y s).scrollingY) := by
  obtain ⟨h₁, h₂, h₃, -⟩ := scrollUp_spec (w := w) s.mStart (s.scrollingY + (y - s.startY)) h.start
  have hstop := h₂.trans h.stop
  rw [dragList]
  dsimp only
  split
  · rename_i hlong
    exact placed_down hlong h₁ hstop (by split <;> omega)
  · exact ⟨h₁, hstop, neg_nonpos.mpr w.line.le, le_refl 0⟩

theorem getSelection_eq (y : Int) :
    getSelection w y = -1 ∨ (getSelection w y = y - w.mRenderY - w.mHeaderH ∧ w.mRenderY + w.mHeaderH < y ∧ y ≤ w.mRenderY + w.mRenderH) := by
  rw [getSelection]
  split
  · exact Or.inl rfl
  · rename_i hin
    exact Or.inr ⟨rfl, by omega, by omega⟩

/-- The position of the bar is one of the list when there is a bar to be drawn. -/
theorem placed_fastScroll {total l : Int} (hl : 0 ≤ l) (hmore : ¬total * 100 ≤ l + lines w * 100) :
    Placed (w := w) total (l.tdiv 100, (-(l.tmod 100) * w.actualLineHeight).tdiv 100) := by
  have hpos := lines_pos (w := w)
  have hline := w.line
  have hrest := Int.tmod_nonneg 100 hl
  have hless := Int.tmod_lt_of_pos l (show (0 : Int) < 100 by decide)
  have hpart : 0 ≤ l.tmod 100 * w.actualLineHeight := mul_nonneg hrest hline.le
  have hwhole : l.tmod 100 * w.actualLineHeight ≤ 100 * w.actualLineHeight := mul_le_mul_of_nonneg_right hless.le hline.le
  rw [neg_mul, Int.neg_tdiv, Int.tdiv_eq_ediv_of_nonneg hpart, Int.tdiv_eq_ediv_of_nonneg hl]
  exact ⟨by dsimp only; omega, by dsimp only; omega, by dsimp only; omega, by dsimp only; omega⟩

theorem exists_fastScroll {s : State} {y : Int} (hy : getSelection w y ≠ -1) (htotal : lines w ≤ totalSize w s) :
    ∃ s', fastScroll w y s = some s' ∧ Inv w none s' := by
  have hheight := height_pos (w := w)
  have hpos := lines_pos (w := w)
  obtain hout | ⟨-, hrow, -⟩ := getSelection_eq (w := w) y
  · exact absurd hout hy
  have hpct : 0 ≤ ((y - w.mRenderY - w.mHeaderH) * 100).tdiv (height w) := Int.tdiv_nonneg (by omega) hheight.le
  rw [fastScroll, divide, if_neg hheight.ne', Option.map_some]
  refine ⟨_, rfl, ?_, nofun⟩
  dsimp only
  split
  · exact ⟨sub_nonneg.mpr htotal, sub_le_self _ (by omega), neg_nonpos.mpr w.line.le, le_refl 0⟩
  · rename_i hmore
    exact placed_fastScroll (mul_nonneg (sub_nonneg.mpr htotal) hpct) hmore

theorem Inv.drag {touched : Option Int} {s : State} (h : Inv w touched s) (x y : Int)
    (hbar : getSelection w y ≠ -1 → onFastScroll w s x → lines w ≤ totalSize w s) : ∃ s', drag w x y s = some s' ∧ Inv w none s' := by
  rw [FileSelector.drag]
  split
  · exact ⟨_, rfl, h.placed, nofun⟩
  · rename_i hin
    split
    · rename_i hon
      exact exists_fastScroll hin (hbar hin hon)
    · split
      · exact ⟨_, rfl, h.placed, nofun⟩
      · refine ⟨_, rfl, ?_, nofun⟩
        have hlists : (dragList w y s).lists = s.lists := by
          rw [dragList]
          dsimp only
          split <;> rfl
        rw [totalSize_congr hlists]
        exact placed_dragList h.placed

/-! ### A release -/

theorem le_locate (startSelection selectY actualSelection : Int) : actualSelection ≤ locate w startSelection selectY actualSelection := by
  induction selectY, actualSelection using locate.induct w startSelection with
  | case1 selectY actualSelection hmore ih =>
    rw [locate, if_pos hmore]
    omega
  | case2 selectY actualSelection hlast => rw [locate, if_neg hlast]

/-- Nothing is drawn behind the end of the list. -/
theorem shownAt_beyond {s : State} (hplaced : Placed (w := w) (totalSize w s) (s.mStart, s.scrollingY)) (hshows : Shows w s) {y : Int}
    (hbeyond : Beyond w s y) : shownAt w s y = none := by
  by_cases hin : w.mRenderY + w.mHeaderH ≤ y ∧ y < w.mRenderY + w.mRenderH
  · have hshown := shownAt_eq hshows hplaced.start hplaced.low hplaced.high hin.1 hin.2
    have hquot : (rowOf w s y - 1) / w.actualLineHeight ≤ rowOf w s y / w.actualLineHeight := Int.ediv_le_ediv w.line (by omega)
    rw [Beyond] at hbeyond
    rw [entryAt_beyond s (by omega)] at hshown
    exact Option.some.inj hshown
  · rw [shownAt, if_neg hin]

theorem shownAt_outside {s : State} {y : Int} (h : y < w.mRenderY + w.mHeaderH ∨ w.mRenderY + w.mRenderH < y) : shownAt w s y = none := by
  rw [shownAt, if_neg (by omega)]

/-- A touch that selects something selects what is on the screen. -/
theorem entryAt_locate {s : State} {y : Int} (hplaced : Placed (w := w) (totalSize w s) (s.mStart, s.scrollingY))
    (hselection : s.startSelection = y - w.mRenderY - w.mHeaderH) (hpos : 0 < s.startSelection) (hshows : Shows w s)
    (hagrees : Within w s y ∨ Beyond w s y) :
    entryAt w s (locate w s.startSelection s.scrollingY s.mStart) = some (shownAt w s y) := by
  have hrow : s.startSelection - s.scrollingY = rowOf w s y := by rw [hselection, rowOf]
  have hhigh := hplaced.high
  dsimp only at hhigh
  rw [locate_eq s.mStart (by omega), hrow]
  cases hagrees with
  | inl hwithin =>
    rw [sub_one_ediv w.line hwithin.inner]
    exact (shownAt_eq hshows hplaced.start hplaced.low hhigh hwithin.below.le hwithin.above).symm
  | inr hbeyond => rw [shownAt_beyond hplaced hshows hbeyond, entryAt_beyond s hbeyond]

theorem Inv.chooseFolder {s : State} (h : Inv w none s) (str header header' : CString) : Inv w none (chooseFolder w str header header' s) := by
  have htold : Inv w none (if w.hasSelection then FileSelector.notifyVarChange w .other header s else s) := by
    split
    · exact h.notifyVarChange .other header
    · exact h
  rw [FileSelector.chooseFolder]
  dsimp only
  split
  · exact htold
  · split
    · split
      · exact htold
      · exact htold.notifyVarChange .other header'
    · exact ⟨placed_zero _, nofun⟩

theorem Inv.choose {s : State} (h : Inv w none s) (i : Int) (entry : FileData) (header header' : CString) :
    Inv w none (choose w i entry header header' s) := by
  rw [FileSelector.choose]
  split
  · exact h.chooseFolder entry.fileName header header'
  · split
    · rw [chooseFile]
      split
      · exact (h.notifyVarChange .other header).notifyVarChange .other header'
      · exact h.notifyVarChange .other header'
    · exact h

theorem Inv.release {touched : Option Int} {s : State} (h : Inv w touched s) (header header' : CString) (hagrees : ∀ y ∈ touched, Agrees w s y) :
    ∃ s' selected, release w header header' s = some (s', selected) ∧ Inv w none s' ∧ ∀ y ∈ touched, selected = shownAt w s y := by
  rw [FileSelector.release]
  split
  · rename_i hselected
    have hstart := le_locate (w := w) s.startSelection s.scrollingY s.mStart
    obtain ⟨selected, hentry⟩ := entryAt_nonneg (w := w) s (h.placed.start.trans hstart)
    have hstate : Inv w none { s with isHighlighted := false, startSelection := locate w s.startSelection s.scrollingY s.mStart } :=
      ⟨h.placed, nofun⟩
    refine ⟨_, selected, congrArg (Option.map _) hentry, ?_, ?_⟩
    · cases selected with
      | none => exact hstate
      | some entry => exact hstate.choose _ entry header header'
    · intro y hy
      have hrow : s.startSelection = y - w.mRenderY - w.mHeaderH ∧ w.mRenderY + w.mHeaderH < y ∧ y ≤ w.mRenderY + w.mRenderH := by
        have htouch := h.touch y hy
        have hselection := getSelection_eq (w := w) y
        omega
      obtain hout | hout | ⟨hshows, hin⟩ := hagrees y hy
      · omega
      · omega
      · have hsame := entryAt_locate h.placed hrow.1 (by omega) hshows hin
        exact Option.some.inj (hentry.symm.trans hsame)
  · rename_i hnothing
    refine ⟨_, none, rfl, ⟨h.placed, nofun⟩, ?_⟩
    intro y hy
    obtain hout | hout | ⟨hshows, hin | hbeyond⟩ := hagrees y hy
    · exact (shownAt_outside (Or.inl hout)).symm
    · exact (shownAt_outside (Or.inr hout)).symm
    · have htouch := h.touch y hy
      have hselection := getSelection_eq (w := w) y
      have hne := hin.selection
      omega
    · exact (shownAt_beyond h.placed hshows hbeyond).symm

/-! ### The screen -/

theorem drawLines_congr {s s' : State} (hlists : s'.lists = s.lists) (hstart : s'.mStart = s.mStart) (count : Nat) (line yPos : Int) :
    drawLines w s' count line yPos = drawLines w s count line yPos := by
  have hentry (i : Int) : entryAt w s' i = entryAt w s i := by
    rw [entryAt, entryAt, totalSize_congr hlists, folderSize, folderSize, hlists]
  induction count generalizing line yPos with
  | zero => rfl
  | succ count ih =>
    rw [drawLines, drawLines, hstart, hentry]
    split
    · rfl
    · exact ih _ _
    · rw [ih]

/-- A state with the list and the place that were drawn. -/
theorem shows_of_drawLines {s s' : State} {screen : List (Int × FileData)}
    (h : drawLines w s (drawn w s).toNat 0 (w.mRenderY + w.mHeaderH + s.scrollingY) = some screen) (hlists : s'.lists = s.lists)
    (hstart : s'.mStart = s.mStart) (hoffset : s'.scrollingY = s.scrollingY) (hscreen : s'.screen = screen) : Shows w s' := by
  rw [Shows, drawLines_congr hlists hstart, drawn, totalSize_congr hlists, hoffset, hscreen]
  exact h

/-- What is drawn is the list as it stands. -/
theorem shows_draw {s s' : State} (h : draw w s = some s') : Shows w s' := by
  rw [draw] at h
  obtain ⟨screen, hscreen, h⟩ := Option.bind_eq_some_iff.mp h
  obtain ⟨x, y, hbar⟩ := exists_drawFastScroll (w := w) { settle w s with screen }
  rw [hbar] at h
  obtain rfl := Option.some.inj h
  have hlists : (settle w s).lists = s.lists := by
    rw [settle]
    split <;> rfl
  have hdrawn : drawn w (settle w s) = drawn w s := by rw [drawn, drawn, totalSize_congr hlists]
  rw [← hdrawn] at hscreen
  exact shows_of_drawLines hscreen rfl rfl rfl rfl

/-- A touch that begins in an inner row of a list that was drawn and stands still, and is released there. -/
theorem release_start {s s' : State} {y : Int} (h : Inv w none s) (hdraw : draw w s = some s') (hstill : s'.scrollingSpeed = 0)
    (hin : getSelection w y ≠ -1) (habove : y < w.mRenderY + w.mRenderH) (hinner : ¬w.actualLineHeight ∣ rowOf w s' y)
    (header header' : CString) : ∃ s'', release w header header' (start w y s') = some (s'', shownAt w s' y) := by
  obtain ⟨drawn, hdrawn, hinv⟩ := h.draw
  obtain rfl := Option.some.inj (hdraw.symm.trans hdrawn)
  have hbelow := ((getSelection_eq (w := w) y).resolve_left hin).2.1
  have hselection : (start w y s').startSelection ≠ -1 := by
    rw [start, if_neg (not_not.mpr hstill)]
    exact hin
  have hshows : Shows w (start w y s') := shows_of_drawLines (shows_draw hdraw) rfl rfl rfl rfl
  obtain ⟨s'', selected, hrelease, -, hsame⟩ := (hinv.start y).release header header' (by
    intro y' hy'
    obtain rfl := Option.some.inj hy'
    exact Or.inr (Or.inr ⟨hshows, Or.inl ⟨hbelow, habove, hselection, hinner⟩⟩))
  have hshown : selected = shownAt w s' y := hsame y rfl
  exact ⟨s'', by rw [hrelease, hshown]⟩

/-! ### Runs -/

theorem Inv.step {touched : Option Int} {s : State} {e : Event} (h : Inv w touched s) (hm : Meets w touched s e) :
    ∃ s' selected, step w s e = some (s', selected) ∧ Inv w (touchedAfter touched e) s' ∧
      ∀ y ∈ touched, e.isRelease = true → selected = shownAt w s y := by
  cases e with
  | touch state x y header header' =>
    cases state with
    | start => exact ⟨_, none, rfl, h.start y, nofun⟩
    | drag =>
      obtain ⟨s', hs', hnext⟩ := h.drag x y hm
      exact ⟨s', none, congrArg (Option.map _) hs', hnext, nofun⟩
    | release =>
      obtain ⟨s', selected, hs', hnext, hsame⟩ := h.release header header' hm
      exact ⟨s', selected, hs', hnext, fun y hy _ => hsame y hy⟩
    | hold => exact ⟨s, none, rfl, h, nofun⟩
    | «repeat» => exact ⟨s, none, rfl, h, nofun⟩
  | update disk header header' =>
    obtain ⟨s', hs', hnext⟩ := h.update header header' hm
    exact ⟨s', none, congrArg (Option.map _) hs', hnext, nofun⟩
  | render disk header =>
    obtain ⟨s', hs', hnext⟩ := h.render hm header
    exact ⟨s', none, congrArg (Option.map _) hs', hnext, nofun⟩
  | varChange varName header => exact ⟨_, none, rfl, h.notifyVarChange varName header, nofun⟩
  | setPath path told header =>
    have hpath : Inv w touched { s with path } := h.move rfl h.placed
    refine ⟨_, none, rfl, ?_, nofun⟩
    split
    · exact hpath.notifyVarChange .path header
    · exact hpath
  | setPageFocus inFocus => exact ⟨_, none, rfl, h.setPageFocus inFocus, nofun⟩

/-- The invariant carries over a run. -/
theorem allGood_of_inv {touched : Option Int} {s : State} {events : List Event} (h : Inv w touched s) (hm : AllMeet w touched s events) :
    AllGood w touched s events := by
  induction events generalizing touched s with
  | nil => trivial
  | cons e events ih =>
    obtain ⟨s', selected, hs', hnext, hsame⟩ := h.step hm.1
    exact ⟨s', selected, hs', hnext.inList, hsame, ih hnext (hm.2 s' selected hs')⟩

theorem inv_create (path header : CString) (disk : Disk) : Inv w none (create w path header disk) := ⟨placed_zero _, nofun⟩

variable (w)

/-- The list keeps its place, and touches select what they are on. -/
theorem keepsPlace_of_allMeet (path header : CString) (disk : Disk) (events : List Event)
    (hm : AllMeet w none (create w path header disk) events) : Right w path header disk events :=
  ⟨(inv_create path header disk).inList, allGood_of_inv (inv_create path header disk) hm⟩

/-- Five lines of ten pixels under a header. -/
def smallWindow : Window where
  mRenderX := 0
  mRenderY := 0
  mRenderW := 100
  mRenderH := 60
  mHeaderH := 10
  actualLineHeight := 10
  touchDebounce := 10
  mFastScrollW := 0
  mFastScrollRectW := 0
  mFastScrollRectH := 0
  mShowFolders := true
  mShowFiles := true
  mShowNavFolders := true
  mHeaderIsStatic := true
  hasSelection := false
  mVariable := "tw_filename"
  line := by decide
  room := by decide

def smallFile (fileName : CString) : FileData := ⟨fileName, .reg, 0, 0, 0, 0, 0, 0, 0⟩

def smallDisk : Disk := fun _ => some ⟨[], [smallFile "a.zip", smallFile "b.zip", smallFile "c.zip"]⟩

theorem touchedInside_keepsPlace :
    Right smallWindow "/sdcard" "" smallDisk [.render smallDisk "", .touch .start 5 25 "" "", .touch .release 5 25 "" ""] := by
  apply keepsPlace_of_allMeet
  refine ⟨nofun, ?_⟩
  intro s selected hs
  cases hs
  refine ⟨trivial, ?_⟩
  intro s selected hs
  cases hs
  refine ⟨?_, fun _ _ _ => trivial⟩
  intro y hy
  cases hy
  exact Or.inr (Or.inr ⟨rfl, Or.inl ⟨by decide, by decide, by decide, by decide⟩⟩)

/-- The first row of a line is taken for the line above. -/
theorem boundaryTouch_not_right :
    ¬Right smallWindow "/sdcard" "" smallDisk [.render smallDisk "", .touch .start 5 20 "" "", .touch .release 5 20 "" ""] := by
  intro ⟨_, s, _, hs, _, _, s', _, hs', _, _, s'', selected, hs'', _, hsame, _⟩
  cases hs
  cases hs'
  have hshown := hsame 20 rfl rfl
  have hlocate : locate smallWindow 10 0 0 = 0 := by rw [locate, if_neg (by decide)]
  rw [step, release, if_pos (by decide)] at hs''
  change Option.map _ (entryAt smallWindow _ (locate smallWindow 10 0 0)) = some (s'', selected) at hs''
  rw [hlocate] at hs''
  cases hs''
  exact absurd hshown (by decide)

end Twrp.Gui.FileSelector
