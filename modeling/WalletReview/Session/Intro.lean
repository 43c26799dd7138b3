import WalletReview.Kind
import WalletReview.Modes

/-! Screens shown before the first item of a review. -/
namespace WalletReview

inductive IntroScreen
  | blindSignWarning
  | blindSignDetails
  | blindSignRisk
  | title
  /-- Selecting it jumps to approval. -/
  | shortcut
  deriving DecidableEq, Inhabited

namespace IntroScreen

def name : IntroScreen → String
  | blindSignWarning => "BlindSignWarning"
  | blindSignDetails => "BlindSignDetails"
  | blindSignRisk => "BlindSignRisk"
  | title => "Title"
  | shortcut => "Shortcut"

def all : List IntroScreen := [blindSignWarning, blindSignDetails, blindSignRisk, title, shortcut]

def ofName? (s : String) : Option IntroScreen := all.find? (·.name == s)

/-- Key and value of the screen, unless a title given for the review replaces them. -/
def text (kind : Kind) : IntroScreen → String × String
  | blindSignWarning => ("Warning", "BlindSign")
  | blindSignDetails => ("Tx details", "not verifiable")
  | blindSignRisk => ("Could lose", "all assets")
  | title =>
    match kind with
    | .config => ("Review", "configuration")
    | .message => ("Review", "Message")
    | _ => ("Please", "review")
  | shortcut => ("Skip", "fields")

end IntroScreen

/-- The warnings of a blind signing, the title, and the shortcut, each where it applies. -/
def introScreens (kind : Kind) (modes : Modes) (title : Bool) : List IntroScreen :=
  (if modes.blindSignRequired && kind.isSigning then
    [.blindSignWarning, .blindSignDetails, .blindSignRisk] else []) ++
  (if title then [.title] else []) ++
  (if modes.shortcut && kind != .address then [.shortcut] else [])

end WalletReview
