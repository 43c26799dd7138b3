import WalletReview.Event

/-! The journal of a review: notices of what happened, each of a severity, and their wording.
Values are written as `Name`, `Name(value)` or as a name with fields in braces, lists in square
brackets. -/
namespace WalletReview

inductive Severity
  | error
  | warn
  | info
  | debug
  | trace
  deriving DecidableEq, Inhabited

namespace Severity

def all : List Severity := [error, warn, info, debug, trace]

def name : Severity → String
  | error => "ERROR"
  | warn => "WARN"
  | info => "INFO"
  | debug => "DEBUG"
  | trace => "TRACE"

def rank : Severity → Nat
  | error => 1
  | warn => 2
  | info => 3
  | debug => 4
  | trace => 5

end Severity

namespace Wording

def list {α : Type} (f : α → String) (xs : List α) : String :=
  "[" ++ ", ".intercalate (xs.map f) ++ "]"

def byte (n : UInt8) : String := toString n.toNat

def bytes (ns : List UInt8) : String := list byte ns

def bool (b : Bool) : String := if b then "true" else "false"

def option {α : Type} (f : α → String) : Option α → String
  | some a => "Some(" ++ f a ++ ")"
  | none => "None"

def pair (p : UInt8 × UInt8) : String := "(" ++ byte p.1 ++ ", " ++ byte p.2 ++ ")"

def result {α : Type} (f : α → String) : Except Error α → String
  | .ok a => "Ok(" ++ f a ++ ")"
  | .error cause => "Err(" ++ cause.name ++ ")"

def record (name : String) (fields : List (String × String)) : String :=
  name ++ " \x7b " ++ ", ".intercalate (fields.map fun f => f.1 ++ ": " ++ f.2) ++ " \x7d"

def quoted (s : String) : String :=
  "\"" ++ String.join (s.toList.map fun c =>
    if c = '"' then "\\\"" else if c = '\\' then "\\\\" else c.toString) ++ "\""

end Wording

open Wording in
def Position.describe : Position → String
  | idle => "Idle"
  | intro screen => "Intro(" ++ screen.name ++ ")"
  | item index page => record "Item" [("index", byte index), ("page", byte page)]
  | interstitial index => record "Interstitial" [("index", byte index)]
  | approve => "Approve"
  | reject => "Reject"
  | child depth index page =>
    record "Child" [("depth", byte depth), ("index", byte index), ("page", byte page)]
  | goToRoot => "GoToRoot"
  | back => "Back"
  | error => "Error"

open Wording in
def Event.describe : Event → String
  | none => "None"
  | begin kind confirmation =>
    record "Begin" [("kind", kind.title), ("confirmation_required", bool confirmation)]
  | next => "Next"
  | previous => "Previous"
  | select => "Select"
  | approve => "Approve"
  | reject => "Reject"
  | skipToApprove => "SkipToApprove"
  | inspectRoot => "InspectRoot"
  | inspectBack => "InspectBack"
  | acknowledge => "Acknowledge"

inductive Notice
  | event (event : Event) (state : State)
  | begun (kind : Kind) (confirmation : Bool) (modes : Modes)
  | skipOffered (after : Option UInt8)
  | skipped
  | completed (approved : Bool)
  | failed (cause : Error)
  | emptyItem (index : UInt8)
  | inspecting (item : UInt8)
  | descended (trace : List UInt8)
  | ascended (trace : List UInt8)
  | returned (item : UInt8)
  | staticScreen (screen : UInt16) (pairs : Nat)
  | remark (severity : Severity) (text : String)
  deriving DecidableEq

namespace Notice

def severity : Notice → Severity
  | failed _ => .error
  | remark severity _ => severity
  | _ => .debug

open Wording in
def text : Notice → String
  | event e state => "event: " ++ e.describe ++ " (state: " ++ state.name ++ ")"
  | begun kind confirmation modes =>
    "begin " ++ kind.name ++ " review (confirmation: " ++ bool confirmation ++ ", modes: " ++
      modes.describe ++ ")"
  | skipOffered after => "offer skip after item " ++ option byte after
  | skipped => "skip to approve"
  | completed approved => "review complete (approved: " ++ bool approved ++ ")"
  | failed cause => "review failed: " ++ cause.name
  | emptyItem index => "skip empty item " ++ byte index
  | inspecting item => "inspect item " ++ byte item
  | descended trace => "descend to " ++ bytes trace
  | ascended trace => "ascend to " ++ bytes trace
  | returned item => "return to item " ++ byte item
  | staticScreen screen pairs =>
    "render static page " ++ toString screen.toNat ++ " (" ++ toString pairs ++ " pairs)"
  | remark _ text => text

end Notice
end WalletReview
