import WalletReview.Error
import WalletReview.Session.Intro

/-! What a user does to a review, how the review answers, and where it stands. -/
namespace WalletReview

inductive Event
  | none
  | begin (kind : Kind) (confirmation : Bool)
  | next
  | previous
  | select
  | approve
  | reject
  | skipToApprove
  | inspectRoot
  | inspectBack
  | acknowledge
  deriving DecidableEq, Inhabited

def Event.ofCode (code : UInt8) (confirmation : Bool) : Except Error Event :=
  match Kind.ofCode? code with
  | some kind => .ok (.begin kind confirmation)
  | Option.none => .error .invalidKind

inductive Output
  | none
  | redraw
  | approved
  | rejected
  /-- Back to idle after an error. -/
  | idle
  deriving DecidableEq, Inhabited

def Output.name : Output → String
  | none => "None"
  | redraw => "Redraw"
  | approved => "Approved"
  | rejected => "Rejected"
  | idle => "Idle"

inductive Position
  | idle
  | intro (screen : IntroScreen)
  | item (index page : UInt8)
  /-- The offer to skip, after item `index`. -/
  | interstitial (index : UInt8)
  | approve
  | reject
  /-- A child of the item being inspected, `depth` levels further down. -/
  | child (depth index page : UInt8)
  | goToRoot
  | back
  | error
  deriving DecidableEq, Inhabited

inductive State
  | idle
  /-- On an intro screen, an item, or a decision screen. -/
  | review
  | interstitial
  | inspect
  | confirm
  | error
  deriving DecidableEq, Inhabited

namespace State

def all : List State := [idle, review, interstitial, inspect, confirm, error]

def name : State → String
  | idle => "Idle"
  | review => "Review"
  | interstitial => "SkipInterstitial"
  | inspect => "Inspect"
  | confirm => "Confirm"
  | error => "Error"

def ofName? (s : String) : Option State := all.find? (·.name == s)

end State
end WalletReview
