import Mathlib

/-! Touches, as the objects of a page are told of them. -/
namespace Twrp.Gui

/-- `TOUCH_STATE` -/
inductive TouchState where
  | start | drag | release | hold | repeat
deriving DecidableEq

end Twrp.Gui
