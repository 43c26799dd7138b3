import WalletReview.Config
import WalletReview.Cursor
import WalletReview.Field
import WalletReview.Inspection
import WalletReview.Session.Intro

/-! A running review: what it was started with, and a cursor over its screens. The cursor counts the
intro screens, then the items, then the decision screens. -/
namespace WalletReview

structure Session where
  cursor : Cursor
  intro : List IntroScreen
  kind : Kind
  /-- Whether skipping may be offered. -/
  confirmation : Bool
  terminal : TerminalMode
  modes : Modes
  itemCount : UInt8
  /-- Replaces the title where it is not empty. -/
  intent : BoundedText keyCapacity
  inspection : Option Inspection
  deriving DecidableEq

namespace Session

def start (kind : Kind) (confirmation : Bool) (terminal : TerminalMode) (modes : Modes)
    (intro : List IntroScreen) (itemCount : UInt8) : Session where
  cursor := .start (saturate8 (intro.length.toUInt8.toNat + itemCount.toNat))
  intro := intro
  kind := kind
  confirmation := confirmation
  terminal := terminal
  modes := modes
  itemCount := itemCount
  intent := .empty _
  inspection := none

def leading (s : Session) : UInt8 := s.intro.length.toUInt8

theorem leading_le_length (s : Session) : s.leading.toNat ≤ s.intro.length := by
  simp only [leading, Nat.toUInt8, UInt8.toNat_ofNat']
  omega

def introScreen? (s : Session) : Option IntroScreen := s.intro[s.cursor.item.toNat]?

def isIntro (s : Session) : Bool := s.cursor.item < s.leading

def isItem (s : Session) : Bool := !s.isIntro && s.cursor.item < s.cursor.itemCount

/-- The index of the item under the cursor, among the items of the content. -/
def itemIndex? (s : Session) : Option UInt8 :=
  if h : s.leading ≤ s.cursor.item then
    if s.cursor.item < s.cursor.itemCount then some (diff8 s.cursor.item s.leading h) else none
  else none

def approveIndex (s : Session) : Nat := s.leading.toNat + s.itemCount.toNat

def isApprove (s : Session) : Bool :=
  s.terminal != .dedicated && s.cursor.item.toNat == s.approveIndex

def isReject (s : Session) : Bool :=
  s.terminal == .items && s.cursor.item.toNat == s.approveIndex + 1

def isTerminal (s : Session) : Bool := s.cursor.itemCount ≤ s.cursor.item

def toApprove (s : Session) : Session :=
  { s with cursor := ⟨saturate8 s.approveIndex, s.cursor.itemCount, 0, 1⟩ }

def toConfirm (s : Session) : Session :=
  { s with cursor := { s.cursor with item := s.cursor.itemCount, page := 0 } }

/-- Whether going on from here offers to skip: from the last page of an item, from item `skipMin`
on, unless no item follows. -/
def skipEligible (s : Session) (skipMin : UInt8) : Checked Bool := do
  if !s.confirmation || !s.kind.isSigning then return false
  match s.itemIndex? with
  | none => return false
  | some index =>
    if ← s.cursor.isLastPage then
      return skipMin ≤ index && index.toNat + 1 < s.itemCount.toNat
    else return false

end Session
end WalletReview
