/-
  Text.Style — terminal colors.

  A style is a control sequence before the text and one after it; a report is
  written either `plain` or `colored`.

  * `Palette`: whether colors are used;
  * `Palette.paint`: a text in a style, or as it is.
-/
import RecordFilter.Text

namespace RecordFilter

/-- How a piece of a report stands out on a terminal. -/
inductive Style where
  /-- Names of attributes and blocks. -/
  | cyan
  /-- Headers and summaries. -/
  | dimmed
  /-- The mark of an error. -/
  | boldRed
  /-- Combinators. -/
  | boldYellow
  /-- Headings. -/
  | boldGreen
  deriving DecidableEq, Repr

/-- The control sequence with the given parameter. -/
def Style.sequence (parameter : Nat) : Text := '\x1b' :: '[' :: Text.ofNat parameter ++ ['m']

/-- What switches a style on. -/
def Style.start : Style → Text
  | cyan => sequence 36
  | dimmed => sequence 2
  | boldRed => sequence 1 ++ sequence 31
  | boldYellow => sequence 1 ++ sequence 33
  | boldGreen => sequence 1 ++ sequence 32

/-- What switches a style off. -/
def Style.stop : Style → Text
  | cyan => sequence 39
  | dimmed => sequence 0
  | boldRed | boldYellow | boldGreen => sequence 39 ++ sequence 0

/-- Whether a report is written with colors. -/
inductive Palette where
  | plain
  | colored
  deriving DecidableEq, Repr

/-- The palette of a report that does or does not use colors. -/
def Palette.ofBool (colors : Bool) : Palette := if colors then colored else plain

/-- The text in the given style if there are colors, else as it is. -/
def Palette.paint (palette : Palette) (style : Style) (t : Text) : Text :=
  match palette with
  | .plain => t
  | .colored => style.start ++ t ++ style.stop

end RecordFilter
