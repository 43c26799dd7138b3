import WalletReview.Text.Bounded

/-! Short texts composed for the title line: the paging label of an item and the intent of a
review. -/
namespace WalletReview

inductive LabelStyle
  /-- As in `key [1/3]`, on devices with buttons. -/
  | brackets
  /-- As in `key (1/3)`, on touch devices. -/
  | parens
  deriving DecidableEq, Inhabited

namespace LabelStyle

def all : List LabelStyle := [brackets, parens]

def name : LabelStyle → String
  | brackets => "Brackets"
  | parens => "Parens"

def ofName? (s : String) : Option LabelStyle := all.find? (·.name == s)

/-- The label of page `page`, counted from zero, of `count` pages. Its parts are written one after
another, numbers in decimal digits, as `emstr` writes them. -/
def label (style : LabelStyle) (page count : UInt8) : String :=
  let body := toString (page.toNat + 1) ++ "/" ++ toString count.toNat
  match style with
  | brackets => " [" ++ body ++ "]"
  | parens => " (" ++ body ++ ")"

end LabelStyle

namespace BoundedText

variable {n : Nat}

/-- Append the paging label, if there is more than one page. -/
def appendLabel (t : BoundedText n) (page count : UInt8) (style : LabelStyle) : BoundedText n :=
  if count ≤ 1 then t else (t.append (style.label page count)).1

/-- Replace the text by `to intent`, which ends in an ellipsis where the intent does not fit. -/
def setIntent (t : BoundedText n) (intent : String) : BoundedText n :=
  let (whole, fits) := (t.set "to ").1.append intent
  if fits then whole else ((whole.truncate (n - 3)).append "...").1

end BoundedText
end WalletReview
