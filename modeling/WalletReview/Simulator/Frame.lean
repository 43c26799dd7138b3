import WalletReview.Engine.Basic

/-! A screen drawn with characters: the title line and the lines of the value in a border. -/
namespace WalletReview.Simulator

def pad (width : Nat) (s : String) : String :=
  s ++ String.ofList (List.replicate (width - s.length) ' ')

def framed (width : Nat) (s : String) : String := "| " ++ pad width s ++ " |"

def border (width : Nat) : String := "+" ++ String.ofList (List.replicate (width + 2) '-') ++ "+"

/-- The greatest width that a line can be filled up to, a 16-bit number. -/
def maxWidth : Nat := 0xFFFF

/-- The most bytes that a text can have: it may take up half of a 64-bit address space. -/
def maxTextSize : Nat := 0x7FFFFFFFFFFFFFFF

/-- The lines of a screen of `lineLength` bytes a line, with its border, and whether they are all of
it. A border too long for a text ends the program, and so does a width that no line can be filled up
to, after the border. -/
def frame (lineLength : Nat) (screen : Screen) : List String × Bool :=
  let width := max lineLength 1
  if maxTextSize < width + 2 then ([], false)
  else if maxWidth < width then ([border width], false)
  else
    ([border width, framed width screen.key] ++ (screen.lines width).map (framed width) ++
      [border width], true)

end WalletReview.Simulator
