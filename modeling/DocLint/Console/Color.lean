import DocLint.Text

/-!
# Colored text

A colored text stands between the sequence that sets its color and the one that resets all colors. Where the text
resets the colors itself, its color is set again behind that. Without colors a text is written as it is.
-/

namespace DocLint

/-- The colors of a report. -/
inductive Color
  | red
  | green
  | yellow
  | blue
  deriving DecidableEq, Repr

namespace Color

/-- The character that begins a control sequence. -/
def escape : Char := '\x1b'

/-- The sequence that sets a color. -/
def start : Color → Text
  | red => escape :: "[31m".toList
  | green => escape :: "[32m".toList
  | yellow => escape :: "[33m".toList
  | blue => escape :: "[34m".toList

/-- The sequence that resets all colors. -/
def reset : Text := escape :: "[0m".toList

/-- The text with the color set again behind every reset in it. -/
def renewed (color : Color) : Text → Text
  | '\x1b' :: '[' :: '0' :: 'm' :: rest => reset ++ color.start ++ renewed color rest
  | c :: rest => c :: renewed color rest
  | [] => []

/-- Whether colors are on by the environment: a forcing variable decides first, then a refusing one, and otherwise
colors are on for a terminal unless they are switched off. A variable with the value `0` is a no. -/
def enabled (terminal : Bool) (forced refused switched : Option Text) : Bool :=
  let isOn (value : Text) : Bool := value != ['0']
  if forced.any isOn then true
  else if refused.isSome then false
  else switched.all isOn && terminal

/-- The text in a color, if colors are on. -/
def paint (color : Color) (colored : Bool) (s : Text) : Text :=
  if colored then color.start ++ color.renewed s ++ reset else s

end Color
end DocLint
