import Twrp.Gui.Touch

/-! The text field.

The place where keys edit is kept relative to what is displayed: `mCursorLocation` characters behind the `skipChars`
that do not fit in front, or at the end when it is -1. The text object is told separately how many characters to leave
out. An erase, an insert or a `substr` outside of its string throws, and has no result here. The text object shows what
the field displays. -/
namespace Twrp.Gui.Input

abbrev Text := List UInt8

/-- What is loaded of the field, and the font. -/
structure Field where
  width : UInt8 → Nat
  mRenderX : Int
  mRenderY : Int
  mRenderW : Nat
  mRenderH : Nat
  /-- `mMask`, when `HasMask`. -/
  mask : Option Text
  /-- `mMaskVariable` is `mVariable`. -/
  maskOwn : Bool
  allowed : Option Text
  disabled : Option Text
  maxLen : Nat

structure State where
  /-- What `mVariable` holds. -/
  value : Text
  /-- What `mMaskVariable` holds, when it is another one. -/
  maskValue : Text
  skipChars : Nat
  mCursorLocation : Int
  scrollingX : Int
  lastX : Int
  startSelection : Int
  hasInputFocus : Bool
  drawCursor : Bool
  /-- Of `mInputText`. -/
  charSkip : Nat
deriving DecidableEq

/-! ### Strings -/

/-- `erase(pos, 1)` -/
def eraseAt (text : Text) (pos : Int) : Option Text :=
  if 0 ≤ pos ∧ pos ≤ text.length then some (text.take pos.toNat ++ text.drop (pos.toNat + 1)) else none

def insertAt (text : Text) (pos : Int) (c : UInt8) : Option Text :=
  if 0 ≤ pos ∧ pos ≤ text.length then some (text.take pos.toNat ++ c :: text.drop pos.toNat) else none

/-- `substr(pos, 1)` -/
def charAt (text : Text) (pos : Nat) : Option Text := if pos ≤ text.length then some ((text.drop pos).take 1) else none

section Field
variable (c : Field)

/-- `gr_measureEx` -/
def measure (text : Text) : Nat := ((text.takeWhile (· ≠ 0)).map c.width).sum

theorem measure_nil : measure c [] = 0 := rfl

/-- The value, or as many masks. -/
def display (value : Text) : Text :=
  match c.mask with
  | none => value
  | some mask => (List.replicate value.length mask).flatten

/-- What is left of the display where characters are skipped. -/
def shown (s : State) : Text :=
  if s.skipChars ≠ 0 ∧ s.skipChars < (display c s.value).length then (display c s.value).drop s.skipChars else display c s.value

/-! ### `HandleTextLocation` -/

/-- The characters that have to go in front until the text fits, and what is left of it. -/
def fit : Text → Nat × Text
  | [] => (0, [])
  | b :: rest => if measure c (b :: rest) ≤ c.mRenderW then (0, b :: rest) else ((fit rest).1 + 1, (fit rest).2)

/-- The cursor at the end: the value is measured, masked or not. -/
def showEnd (s : State) : State :=
  { s with
    skipChars := (fit c s.value).1
    scrollingX := c.mRenderW - measure c (fit c s.value).2
    charSkip := (fit c s.value).1 }

/-- A character was added: the text in front of the cursor has to fit. -/
def showAdded (s : State) : Option State :=
  if s.mCursorLocation < 0 then none
  else
    let (gone, left) := fit c ((shown c s).take s.mCursorLocation.toNat)
    some
      { s with
        skipChars := s.skipChars + gone
        mCursorLocation := s.mCursorLocation - gone
        scrollingX := if gone ≠ 0 then max 0 (c.mRenderW - measure c left) else s.scrollingX
        charSkip := s.skipChars + gone }

/-- A character was deleted: as many are shown again as fit. -/
def showDeleted (displayValue : Text) (skipChars : Nat) (s : State) : Option State :=
  match skipChars with
  | 0 => some { s with skipChars := 0, scrollingX := 0, charSkip := 0 }
  | k + 1 => do
    let insertChar ← charAt s.value k
    if c.mRenderW < measure c (insertChar ++ displayValue) then
      return { s with skipChars := k + 1, scrollingX := max 0 (c.mRenderW - measure c displayValue), charSkip := k + 1 }
    else showDeleted (insertChar ++ displayValue) k { s with mCursorLocation := s.mCursorLocation + 1 }

/-- Dragging to the right. -/
def dragRight (x : Int) (displayValue : Text) (skipChars : Nat) (lastX : Int) (s : State) : Option State :=
  match skipChars with
  | 0 => some { s with skipChars := 0, scrollingX := 0, lastX := x, charSkip := 0 }
  | k + 1 =>
    let deltaX := x - lastX + s.scrollingX
    if deltaX = 0 then some { s with skipChars := k + 1, scrollingX := 0, lastX := x, charSkip := k + 1 }
    else do
      let insertChar ← charAt s.value k
      let deltaText : Int := measure c (insertChar ++ displayValue) - measure c displayValue
      if deltaText < deltaX then dragRight x (insertChar ++ displayValue) k (lastX + deltaText) s
      else return { s with skipChars := k + 1, scrollingX := deltaX, lastX := x, charSkip := k + 1 }

/-- The loop of dragging to the left: the characters that go, and `scrollingX`. -/
def scrollLeft (x : Int) : Text → (lastX : Int) → Nat × Int
  | [], _ => (1, c.mRenderW)
  | b :: rest, lastX =>
    let deltaText : Int := measure c (b :: rest) - measure c rest
    if measure c rest ≤ c.mRenderW then (1, c.mRenderW - measure c rest)
    else if deltaText < lastX - x then ((scrollLeft x rest (lastX - deltaText)).1 + 1, (scrollLeft x rest (lastX - deltaText)).2)
    else (1, deltaText - (lastX - x))

/-- Dragging to the left. -/
def dragLeft (x : Int) (s : State) : State :=
  if measure c (shown c s) ≤ c.mRenderW then { s with lastX := x, scrollingX := c.mRenderW - measure c (shown c s) }
  else if s.scrollingX ≠ 0 ∧ s.lastX - x < s.scrollingX then { s with lastX := x, scrollingX := s.scrollingX - (s.lastX - x) }
  else
    let (gone, scrollingX) := scrollLeft c x (shown c s) (if s.scrollingX ≠ 0 then x else s.lastX)
    { s with skipChars := s.skipChars + gone, scrollingX, lastX := x, charSkip := s.skipChars + gone }

def handleTextLocation (x : Int) (s : State) : Option State :=
  if measure c (display c s.value) ≤ c.mRenderW then some { s with lastX := x, scrollingX := 0, skipChars := 0, charSkip := 0 }
  else if x < -1000 then
    let s := if x = -1003 then { s with mCursorLocation := -1 } else s
    if s.mCursorLocation = -1 then some (showEnd c s)
    else if x = -1001 then showAdded c s
    else if x = -1002 then showDeleted c (shown c s) s.skipChars s
    else some s
  else if s.lastX < x then dragRight c x (shown c s) s.skipChars s.lastX s
  else if x < s.lastX then some (dragLeft c x s)
  else some s

/-! ### Drawing -/

/-- Where `Render` finds the cursor, in what it displays. -/
inductive Place where
  | inside (k : Nat)
  | atEnd

def cursorPlace (s : State) : Place :=
  if (display c s.value).length = 0 then .atEnd
  else if s.mCursorLocation = 0 then .inside 0
  else if 0 < s.mCursorLocation ∧ s.mCursorLocation < (shown c s).length then .inside s.mCursorLocation.toNat
  else .atEnd

/-- The characters of the value in front of the drawn cursor: the text object leaves out `charSkip` of them. -/
def drawnAt (s : State) : Nat :=
  match cursorPlace c s with
  | .inside k => s.charSkip + k
  | .atEnd => s.value.length

/-- `Render`; the text object erases what it leaves out, before the cursor is looked at. -/
def render (visible : Bool) (s : State) : Option State :=
  if visible = false then some s
  else if (display c s.value).length < s.charSkip then none
  else if s.hasInputFocus = false ∨ s.drawCursor = false then some s
  else if (display c s.value).length = 0 then some { s with skipChars := 0, mCursorLocation := -1 }
  else
    match cursorPlace c s with
    | .inside _ => some s
    | .atEnd => some (if 0 < s.mCursorLocation then { s with mCursorLocation := -1 } else s)

/-! ### Touches -/

def getSelection (x y : Int) : Int :=
  if x < c.mRenderX ∨ c.mRenderW < x - c.mRenderX ∨ y < c.mRenderY ∨ c.mRenderH < y - c.mRenderY then -1 else x - c.mRenderX

/-- The loop of a release: the first place that is drawn to the right of the touch. -/
def touchedFrom (x : Int) (displayValue : Text) : (left index : Nat) → Int
  | 0, _ => -1
  | left + 1, index =>
    if x < measure c (displayValue.take index) + c.mRenderX then (if 0 < index then index - 1 else index)
    else touchedFrom x displayValue left (index + 1)

def touched (x : Int) (displayValue : Text) : Int := touchedFrom c x displayValue displayValue.length 0

def notifyTouch (state : TouchState) (x y : Int) (s : State) : Option State :=
  if s.hasInputFocus = false then
    if state = .release ∧ 0 ≤ getSelection c x y then some { s with hasInputFocus := true, drawCursor := true } else some s
  else
    match state with
    | .hold | .repeat => some s
    | .start => some { s with startSelection := getSelection c x y, lastX := x, drawCursor := false }
    | .drag =>
      if getSelection c x y = -1 then some { s with lastX := 0 }
      else
        let s := { s with drawCursor := false }
        if s.startSelection ≠ -1 ∧ |x - s.lastX| < 6 then some s
        else
          let s := { s with startSelection := -1 }
          if s.lastX ≠ x then handleTextLocation c x s else some s
    | .release =>
      let s := { s with drawCursor := true }
      if (display c s.value).length = 0 then some { s with skipChars := 0, mCursorLocation := -1 }
      else some { s with mCursorLocation := touched c x (shown c s) }

/-! ### Keys and variables -/

/-- The mask variable is set, which the field is told of when it is its own and the change is not local. -/
def setMask (isLocal : Bool) (s : State) : Option State :=
  match c.mask with
  | none => some s
  | some mask =>
    let masked := (List.replicate s.value.length mask).flatten
    if c.maskOwn then
      if isLocal then some { s with value := masked } else handleTextLocation c (-1003) { s with value := masked }
    else some { s with maskValue := masked }

/-- The character in front of the cursor goes. -/
def eraseChar (s : State) : Option State :=
  if s.mCursorLocation = -1 then some { s with value := s.value.dropLast }
  else
    (eraseAt s.value (s.mCursorLocation + s.skipChars - 1)).map fun value =>
      if 0 < s.mCursorLocation then { s with value, mCursorLocation := s.mCursorLocation - 1 }
      else { s with value, skipChars := s.skipChars - 1 }

def backspace (s : State) : Option State :=
  if 0 < s.value.length ∧ (s.mCursorLocation + s.skipChars ≠ 0 ∨ s.mCursorLocation = -1) then do
    let s ← eraseChar s
    let s ← setMask c false s
    handleTextLocation c (-1002) s
  else some s

/-- `KEYBOARD_SWIPE_LEFT` -/
def deleteAll (s : State) : Option State :=
  if s.mCursorLocation = -1 then
    some { s with value := [], maskValue := if c.mask.isSome ∧ ¬c.maskOwn then [] else s.maskValue, skipChars := 0, scrollingX := 0, charSkip := 0 }
  else
    let count := s.mCursorLocation + s.skipChars
    -- a negative count is a large one
    let erase (text : Text) : Text := if 0 ≤ count then text.drop count.toNat else []
    let value := erase s.value
    some
      { s with
        value := if c.mask.isSome ∧ c.maskOwn then erase value else value
        maskValue := if c.mask.isSome ∧ ¬c.maskOwn then erase s.maskValue else s.maskValue
        mCursorLocation := 0, skipChars := 0, scrollingX := 0, charSkip := 0 }

def arrowLeft (s : State) : Option State :=
  if s.mCursorLocation = 0 ∧ s.skipChars = 0 then some s
  else if s.mCursorLocation = -1 then
    if s.value.length = 0 then some s else some { s with mCursorLocation := s.value.length - s.skipChars - 1 }
  else if s.mCursorLocation = 0 then handleTextLocation c (-1002) { s with skipChars := s.skipChars - 1 }
  else handleTextLocation c (-1002) { s with mCursorLocation := s.mCursorLocation - 1 }

def arrowRight (s : State) : Option State :=
  if s.mCursorLocation = -1 then some s
  else
    let s := { s with mCursorLocation := s.mCursorLocation + 1 }
    handleTextLocation c (-1001) (if (s.value.length : Int) ≤ s.mCursorLocation + s.skipChars then { s with mCursorLocation := -1 } else s)

/-- Whether a character may be typed now. -/
def accepts (s : State) (b : UInt8) : Bool :=
  c.allowed.all (b ∈ ·) ∧ ¬c.disabled.any (b ∈ ·) ∧ ¬(c.maxLen ≠ 0 ∧ c.maxLen ≤ s.value.length)

/-- The character comes in at the cursor. -/
def insertChar (b : UInt8) (s : State) : Option State :=
  if s.mCursorLocation = -1 then some { s with value := s.value ++ [b] }
  else (insertAt s.value (s.mCursorLocation + s.skipChars) b).map fun value => { s with value, mCursorLocation := s.mCursorLocation + 1 }

def typeKey (b : UInt8) (s : State) : Option State :=
  if accepts c s b then do
    let s ← insertChar b s
    let s ← handleTextLocation c (-1001) s
    setMask c false s
  else some s

/-- `NotifyKeyboard`. An action changes variables, if at all, as others do from outside. -/
def notifyKeyboard (key : Int) (s : State) : Option State :=
  if s.hasInputFocus = false then some s
  else if key = 8 then backspace c s
  else if key = 252 then deleteAll c s
  else if key = 250 then arrowLeft c s
  else if key = 249 then arrowRight c s
  else if key = 248 ∨ key = 246 then
    if s.value.length = 0 then some s else handleTextLocation c (-1002) { s with mCursorLocation := 0, skipChars := 0 }
  else if key = 247 ∨ key = 245 then handleTextLocation c (-1003) { s with mCursorLocation := -1 }
  else if key < 245 ∧ 0 < key then typeKey c (UInt8.ofNat key.toNat) s
  else some s

/-- Another value of `mVariable`; the field is told of it when it is on the current page. -/
def textChange (told : Bool) (value : Text) (s : State) : Option State :=
  if told then handleTextLocation c (-1003) { s with value } else some { s with value }

/-! ### Runs -/

inductive Event where
  | render (visible : Bool)
  | touch (state : TouchState) (x y : Int)
  | key (key : Int)
  | textChange (told : Bool) (value : Text)
  | setInputFocus (focus : Bool)

def step (s : State) : Event → Option State
  | .render visible => render c visible s
  | .touch state x y => notifyTouch c state x y s
  | .key key => notifyKeyboard c key s
  | .textChange told value => textChange c told value s
  | .setInputFocus focus => some { s with hasInputFocus := focus }

/-- The constructor, where the variable holds that. -/
def create (value maskValue : Text) (focus : Bool) : Option State :=
  handleTextLocation c (-3)
    { value, maskValue, skipChars := 0, mCursorLocation := -1, scrollingX := 0, lastX := 0, startSelection := -1, hasInputFocus := focus, drawCursor := focus,
      charSkip := 0 }

end Field

end Twrp.Gui.Input
