import WalletReview.Text.Label

/-! How a device presents a review. -/
namespace WalletReview

inductive TerminalMode
  /-- Approve and reject follow the last item as screens of their own. -/
  | items
  /-- Approve follows the last item, reject is a control. -/
  | approveOnly
  /-- A confirm screen follows the last item. -/
  | dedicated
  deriving DecidableEq, Inhabited

namespace TerminalMode

def all : List TerminalMode := [items, approveOnly, dedicated]

def name : TerminalMode → String
  | items => "Items"
  | approveOnly => "ApproveOnly"
  | dedicated => "Dedicated"

def ofName? (s : String) : Option TerminalMode := all.find? (·.name == s)

/-- The number of decision screens in the list of screens. -/
def trailing : TerminalMode → UInt8
  | items => 2
  | approveOnly => 1
  | dedicated => 0

end TerminalMode

inductive InspectLayout
  /-- Between a screen that leads to the root and a screen that leads back. -/
  | bracketed
  | native
  deriving DecidableEq, Inhabited

namespace InspectLayout

def all : List InspectLayout := [bracketed, native]

def name : InspectLayout → String
  | bracketed => "Bracketed"
  | native => "Native"

def ofName? (s : String) : Option InspectLayout := all.find? (·.name == s)

/-- The number of screens added to the children. -/
def extra : InspectLayout → UInt8
  | bracketed => 2
  | native => 0

end InspectLayout

structure Config where
  /-- Longest page of a value, in bytes. -/
  pageLength : Nat
  /-- Longest display line, in bytes. -/
  lineLength : Nat
  /-- First item after which skipping may be offered. -/
  skipMinItem : UInt8
  titleScreen : Bool
  terminal : TerminalMode
  inspectLayout : InspectLayout
  labelStyle : LabelStyle
  touchLabels : Bool
  pairsPerScreen : UInt8
  deriving DecidableEq

namespace Config

def nanoS : Config where
  pageLength := 34
  lineLength := 17
  skipMinItem := 1
  titleScreen := true
  terminal := .items
  inspectLayout := .bracketed
  labelStyle := .brackets
  touchLabels := false
  pairsPerScreen := 1

def nanoX : Config := { nanoS with pageLength := 255, inspectLayout := .native }

def stax : Config where
  pageLength := 179
  lineLength := 32
  skipMinItem := 1
  titleScreen := false
  terminal := .dedicated
  inspectLayout := .native
  labelStyle := .parens
  touchLabels := true
  pairsPerScreen := 6

instance : Inhabited Config := ⟨nanoX⟩

end Config
end WalletReview
