import Twrp.Gui.FileList
import Twrp.Gui.Touch

/-! The window of a file selector: where the list stands in it, what is drawn, and what a touch selects.

The position is the index of the first line and a number of pixels, which is not positive. The loops end because a line
has a height: they are accepted as they stand, without fuel. An access outside of a list throws, and with a division by
zero has no result. A folder is read by `disk`, which gives its lists sorted, or nothing when it cannot be opened; fast
scroll positions are exact. -/
namespace Twrp.Gui.FileSelector
open Base

/-- What the theme says about a selector with lines that have a height, and room for one. -/
structure Window where
  mRenderX : Int
  mRenderY : Int
  mRenderW : Int
  mRenderH : Int
  mHeaderH : Int
  actualLineHeight : Int
  touchDebounce : Int
  mFastScrollW : Int
  mFastScrollRectW : Int
  mFastScrollRectH : Int
  mShowFolders : Bool
  mShowFiles : Bool
  mShowNavFolders : Bool
  mHeaderIsStatic : Bool
  /-- `mSelection` is not "0". -/
  hasSelection : Bool
  mVariable : CString
  line : 0 < actualLineHeight
  room : actualLineHeight ≤ mRenderH - mHeaderH

structure State where
  /-- What `mPathVar` holds. -/
  path : CString
  lists : Lists
  mStart : Int
  scrollingY : Int
  scrollingSpeed : Int
  startY : Int
  lastY : Int
  last2Y : Int
  startSelection : Int
  isHighlighted : Bool
  mUpdate : Bool
  updateFileList : Bool
  mFastScrollRectX : Int
  mFastScrollRectY : Int
  mLastValue : CString
  /-- The labels on the screen, with their first rows. -/
  screen : List (Int × FileData)

abbrev Disk := CString → Option Lists

/-- Which variable changed. -/
inductive VarName where
  | empty | path | sort | other
deriving DecidableEq

def divide (a b : Int) : Option Int := if b = 0 then none else some (a.tdiv b)

/-- `at` -/
def entryOf (list : List FileData) (i : Int) : Option FileData := if 0 ≤ i then list[i.toNat]? else none

section Window
variable (w : Window)

/-- `mRenderH - mHeaderH` -/
def height : Int := w.mRenderH - w.mHeaderH

/-- The lines that the window has room for. -/
def lines : Int := (height w).tdiv w.actualLineHeight

def folderSize (s : State) : Int := if w.mShowFolders then s.lists.mFolderList.length else 0

def fileSize (s : State) : Int := if w.mShowFiles then s.lists.mFileList.length else 0

def totalSize (s : State) : Int := folderSize w s + fileSize w s

/-- The entry of a line, `some none` where the list has none. -/
def entryAt (s : State) (i : Int) : Option (Option FileData) :=
  if i < folderSize w s then (entryOf s.lists.mFolderList i).map some
  else if i < totalSize w s then (entryOf s.lists.mFileList (i - folderSize w s)).map some
  else some none

/-! ### Variables and folders -/

/-- The position is put back to the start. -/
def State.toStart (s : State) : State := { s with mStart := 0, scrollingY := 0, scrollingSpeed := 0, mUpdate := true }

/-- `NotifyVarChange`, with the text that the header is parsed to. -/
def notifyVarChange (varName : VarName) (header : CString) (s : State) : State :=
  let s := if w.mHeaderIsStatic = false ∧ s.mLastValue ≠ header then { s.toStart with mLastValue := header } else s
  if varName = .path ∨ varName = .sort then { s.toStart with updateFileList := true } else s

/-- `substr(0, find_last_of('/'))` -/
def parent (folder : CString) : Option CString :=
  if 47 ∈ folder.bytes then some (.ofBytes ((folder.bytes.reverse.dropWhile (· ≠ 47)).drop 1).reverse) else none

def orRoot (folder : CString) : CString := if folder.length < 2 then "/" else folder

/-- Where a folder that cannot be opened is left. -/
def leaves (folder : CString) : Option CString :=
  if folder ≠ "/" ∧ (w.mShowNavFolders ∨ w.mShowFiles) then (parent folder).map orRoot else none

/-- The lists of a folder that was opened. -/
def fillLists (lists : Lists) (s : State) : State :=
  let s := { s with lists }
  let lines := lines w - 1
  if totalSize w s - lines < s.mStart then { s with mStart := max 0 (totalSize w s - lines) } else s

/-- `GetFileList`, and whether it returns 0. -/
def getFileList (disk : Disk) (header : CString) (s : State) : State × Bool :=
  match disk s.path with
  | some lists => (fillLists w lists s, true)
  | none =>
    let s' := { s with lists := ⟨[], []⟩ }
    match leaves w s.path with
    | some newFolder => (notifyVarChange w .path header { s' with path := newFolder }, false)
    | none => (s', false)

/-! ### Drawing -/

/-- The loop over the lines, from the one that is drawn at `yPos` on. -/
def drawLines (s : State) : (count : Nat) → (line yPos : Int) → Option (List (Int × FileData))
  | 0, _, _ => some []
  | count + 1, line, yPos =>
    match entryAt w s (line + s.mStart) with
    | none => none
    | some none => drawLines s count (line + 1) yPos
    | some (some label) => (drawLines s count (line + 1) (yPos + w.actualLineHeight)).map ((yPos, label) :: ·)

/-- A list that does not fill the window is not scrolled. -/
def settle (s : State) : State :=
  if totalSize w s < lines w then { s with scrollingY := 0, mFastScrollRectX := -1, mFastScrollRectY := -1 } else s

/-- The lines that the loop is for. -/
def drawn (s : State) : Int :=
  if totalSize w s < lines w then totalSize w s else if lines w + 1 < totalSize w s then lines w + 1 + 1 else lines w + 1

/-- The bar's rectangle, `pct` of the way down. -/
def drawFastScroll (s : State) : Option State :=
  if 0 < w.mFastScrollW ∧ lines w < totalSize w s then
    (divide ((s.mStart * w.actualLineHeight - s.scrollingY) * 100) (totalSize w s * w.actualLineHeight - lines w * w.actualLineHeight)).map
      fun pct =>
        { s with
          mFastScrollRectX := w.mRenderW - w.mFastScrollW + w.mRenderX + (w.mFastScrollW - w.mFastScrollRectW).tdiv 2
          mFastScrollRectY := w.mRenderY + w.mHeaderH + ((height w - w.mFastScrollRectH) * pct).tdiv 100 }
  else some s

/-- What `Render` does behind the lists. -/
def draw (s : State) : Option State := do
  let screen ← drawLines w (settle w s) (drawn w s).toNat 0 (w.mRenderY + w.mHeaderH + (settle w s).scrollingY)
  let s ← drawFastScroll w { settle w s with screen }
  return { s with mUpdate := if s.updateFileList then s.mUpdate else false }

/-- `Render`. Without a list there is only the background. -/
def render (disk : Disk) (header : CString) (s : State) : Option State :=
  if s.updateFileList then
    let (s, ok) := getFileList w disk header s
    if ok then draw w { s with updateFileList := false } else some { s with screen := [] }
  else draw w s

/-- The entry that is on the screen in a row of pixels. -/
def shownAt (s : State) (y : Int) : Option FileData :=
  if w.mRenderY + w.mHeaderH ≤ y ∧ y < w.mRenderY + w.mRenderH then
    (s.screen.find? fun label => label.1 ≤ y ∧ y < label.1 + w.actualLineHeight).map Prod.snd
  else none

/-! ### Scrolling -/

/-- `while (mStart && scrollingY > 0)` -/
def scrollUp (mStart scrollingY : Int) : Int × Int :=
  if mStart ≠ 0 ∧ 0 < scrollingY then scrollUp (mStart - 1) (scrollingY - w.actualLineHeight) else (mStart, scrollingY)
termination_by scrollingY.toNat
decreasing_by
  have hline := w.line
  omega

def bottomOffset : Int := height w - lines w * w.actualLineHeight - w.actualLineHeight

/-- `bottom_offset ? 1 : 0` -/
def extraLine : Int := if bottomOffset w ≠ 0 then 1 else 0

/-- `while (mStart + lines + (bottom_offset ? 1 : 0) < totalSize && abs(scrollingY) > actualLineHeight)` -/
def scrollDown (totalSize mStart scrollingY : Int) : Int × Int :=
  if mStart + lines w + extraLine w < totalSize ∧ w.actualLineHeight < |scrollingY| then
    scrollDown totalSize (mStart + 1) (scrollingY + w.actualLineHeight)
  else (mStart, scrollingY)
termination_by (totalSize - lines w - mStart).toNat
decreasing_by
  have hextra : 0 ≤ extraLine w := by
    rw [extraLine]
    split <;> decide
  omega

/-- The bottom of the list is kept at the bottom of the window. -/
def clampBottom (totalSize mStart scrollingY : Int) : Option (Int × Int) :=
  if bottomOffset w ≠ 0 ∧ totalSize ≤ mStart + lines w + 1 ∧ scrollingY ≤ bottomOffset w then some (totalSize - lines w - 1, bottomOffset w)
  else if totalSize ≤ mStart + lines w ∧ scrollingY < 0 then some (totalSize - lines w, 0)
  else none

/-- `(int) (actualLineHeight * 2.5)` -/
def fastest : Int := (w.actualLineHeight * 5).tdiv 2

/-- The kinetic part of `Update`. -/
def kinetic (s : State) : State :=
  if s.scrollingSpeed = 0 then s
  else if 0 < s.scrollingSpeed then
    let (mStart, scrollingY) := scrollUp w s.mStart (s.scrollingY + if s.scrollingSpeed < fastest w then s.scrollingSpeed else fastest w)
    let speed := s.scrollingSpeed - 6
    if mStart = 0 ∧ 0 < scrollingY then { s with mStart, scrollingY := 0, scrollingSpeed := 0, mUpdate := true }
    else { s with mStart, scrollingY, scrollingSpeed := if speed < 10 then 0 else speed, mUpdate := true }
  else if lines w < totalSize w s then
    let (mStart, scrollingY) := scrollDown w (totalSize w s) s.mStart
      (if |s.scrollingSpeed| < fastest w then s.scrollingY + s.scrollingSpeed else s.scrollingY - fastest w)
    let speed := s.scrollingSpeed + 6
    match clampBottom w (totalSize w s) mStart scrollingY with
    | some (mStart, scrollingY) => { s with mStart, scrollingY, scrollingSpeed := speed, mUpdate := true }
    | none => { s with mStart, scrollingY, scrollingSpeed := if -speed < 10 then 0 else speed, mUpdate := true }
  else s

/-- `Update` sees another text of the header. -/
def headerUpdate (header : CString) (s : State) : State :=
  if w.mHeaderIsStatic = false ∧ s.mLastValue ≠ header then { s with mLastValue := header, mUpdate := true } else s

/-- `Update`; the second text is what the header has become when a folder is left. -/
def update (disk : Disk) (header header' : CString) (s : State) : Option State :=
  let s := headerUpdate w header s
  if s.mUpdate then render w disk header' { s with mUpdate := false } else some (kinetic w s)

/-! ### Touches -/

def getSelection (y : Int) : Int :=
  if y < w.mRenderY ∨ y - w.mRenderY ≤ w.mHeaderH ∨ w.mRenderH < y - w.mRenderY then -1 else y - w.mRenderY - w.mHeaderH

/-- `while (selectY + actualLineHeight < startSelection)` -/
def locate (startSelection selectY actualSelection : Int) : Int :=
  if selectY + w.actualLineHeight < startSelection then locate startSelection (selectY + w.actualLineHeight) (actualSelection + 1)
  else actualSelection
termination_by (startSelection - selectY).toNat
decreasing_by
  have hline := w.line
  omega

/-- The touch is on the fast scroll. -/
def onFastScroll (s : State) (x : Int) : Prop := s.mFastScrollRectX ≠ -1 ∧ w.mRenderX + w.mRenderW - w.mFastScrollW ≤ x

instance (s : State) (x : Int) : Decidable (onFastScroll w s x) := inferInstanceAs (Decidable (_ ∧ _))

/-- The position `l`, in hundredths. -/
def fastScroll (y : Int) (s : State) : Option State :=
  (divide ((y - w.mRenderY - w.mHeaderH) * 100) (height w)).map fun pct =>
    let l := (totalSize w s - lines w) * pct
    let s := { s with startSelection := -1, mUpdate := true, scrollingSpeed := 0, isHighlighted := false }
    if totalSize w s * 100 ≤ l + lines w * 100 then { s with mStart := totalSize w s - lines w, scrollingY := 0 }
    else { s with mStart := l.tdiv 100, scrollingY := (-(l.tmod 100) * w.actualLineHeight).tdiv 100 }

/-- A drag of the list. -/
def dragList (y : Int) (s : State) : State :=
  let (mStart, scrollingY) := scrollUp w s.mStart (s.scrollingY + (y - s.startY))
  let scrollingY := if mStart = 0 ∧ 0 < scrollingY then 0 else scrollingY
  let s := { s with isHighlighted := false, last2Y := s.lastY, lastY := y, startSelection := -1, startY := y, mUpdate := true }
  if lines w < totalSize w s then
    let (mStart, scrollingY) := scrollDown w (totalSize w s) mStart scrollingY
    let (mStart, scrollingY) := (clampBottom w (totalSize w s) mStart scrollingY).getD (mStart, scrollingY)
    { s with mStart, scrollingY }
  else { s with mStart, scrollingY := 0 }

def drag (x y : Int) (s : State) : Option State :=
  if getSelection w y = -1 then
    some { s with last2Y := 0, lastY := 0, isHighlighted := false, mUpdate := if s.isHighlighted then true else s.mUpdate }
  else if onFastScroll w s x then fastScroll w y s
  else if s.startSelection ≠ -1 ∧ |y - s.startY| < w.touchDebounce then some { s with isHighlighted := true, mUpdate := true }
  else some (dragList w y s)

/-- `cwd` of an entry of the folder. -/
def folderOf (cwd str : CString) : CString :=
  if str = upALevel then (if cwd ≠ "/" then orRoot ((parent cwd).getD cwd) else cwd)
  else if cwd ≠ "/" then cwd ++ "/" ++ str
  else cwd ++ str

/-- What is done with a folder that is selected; the texts are the header's behind either variable. -/
def chooseFolder (str header header' : CString) (s : State) : State :=
  let s := if w.hasSelection then notifyVarChange w .other header s else s
  if str = "." then s
  else if w.mShowNavFolders = false ∧ w.mShowFiles = false then (if w.mVariable = "" then s else notifyVarChange w .other header' s)
  else
    let s := notifyVarChange w .path header' { s with path := folderOf s.path str }
    { s with mStart := 0, scrollingY := 0, mUpdate := true }

def chooseFile (header header' : CString) (s : State) : State :=
  notifyVarChange w .other header' (if w.hasSelection then notifyVarChange w .other header s else s)

/-- What is done with the entry at an index. -/
def choose (i : Int) (entry : FileData) (header header' : CString) (s : State) : State :=
  if i < folderSize w s then chooseFolder w entry.fileName header header' s
  else if w.mVariable ≠ "" then chooseFile w header header' s
  else s

/-- The release of a touch, and the entry that it selects. -/
def release (header header' : CString) (s : State) : Option (State × Option FileData) :=
  if 0 ≤ s.startSelection then
    let i := locate w s.startSelection s.scrollingY s.mStart
    let s := { s with isHighlighted := false, startSelection := i }
    (entryAt w s i).map fun selected => ((selected.map (choose w i · header header' s)).getD s, selected)
  else
    let speed := s.lastY - s.last2Y
    some ({ s with isHighlighted := false, scrollingSpeed := if 10 < |speed| then speed * 6 else 0 }, none)

def start (y : Int) (s : State) : State :=
  let startSelection := if s.scrollingSpeed ≠ 0 then -1 else getSelection w y
  { s with
    startSelection
    isHighlighted := -1 < startSelection
    mUpdate := if -1 < startSelection then true else s.mUpdate
    startY := y, lastY := y, last2Y := y, scrollingSpeed := 0 }

def setPageFocus (inFocus : Bool) (s : State) : State :=
  if inFocus then { s with updateFileList := true, scrollingY := 0, scrollingSpeed := 0, mUpdate := true } else s

/-! ### Runs -/

inductive Event where
  | touch (state : TouchState) (x y : Int) (header header' : CString)
  | update (disk : Disk) (header header' : CString)
  | render (disk : Disk) (header : CString)
  | varChange (varName : VarName) (header : CString)
  /-- `mPathVar` is set; the selector is told of it when it is on the current page. -/
  | setPath (path : CString) (told : Bool) (header : CString)
  | setPageFocus (inFocus : Bool)

def step (s : State) : Event → Option (State × Option FileData)
  | .touch .start _ y _ _ => some (start w y s, none)
  | .touch .drag x y _ _ => (drag w x y s).map (·, none)
  | .touch .release _ _ header header' => release w header header' s
  | .touch .hold _ _ _ _ | .touch .repeat _ _ _ _ => some (s, none)
  | .update disk header header' => (update w disk header header' s).map (·, none)
  | .render disk header => (render w disk header s).map (·, none)
  | .varChange varName header => some (notifyVarChange w varName header s, none)
  | .setPath path told header => some (if told then notifyVarChange w .path header { s with path } else { s with path }, none)
  | .setPageFocus inFocus => some (setPageFocus inFocus s, none)

/-- The constructor; nobody tells a selector that is not on a page yet of the folder that it leaves. -/
def create (path header : CString) (disk : Disk) : State :=
  { path := if (disk path).isSome then path else (leaves w path).getD path
    lists := (disk path).getD ⟨[], []⟩
    mStart := 0, scrollingY := 0, scrollingSpeed := 0, startY := 0, lastY := 0, last2Y := 0, startSelection := -1, isHighlighted := false
    mUpdate := false, updateFileList := false, mFastScrollRectX := -1, mFastScrollRectY := -1, mLastValue := header, screen := [] }

end Window

end Twrp.Gui.FileSelector
