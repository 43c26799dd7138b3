import WalletReview.Engine.Inspect

/-! Moving through a review, one page, item or screen at a time, and jumping to its end where that
is offered. -/
namespace WalletReview.Engine

variable {σ : Type}

/-- Move the top-level cursor one step; it stays if no screen is left in that direction. -/
def Loader.step (L : Loader σ) (dir : Direction) : Operation Engine σ Output := do
  let s ← getSession
  match ← stepped s.cursor s.terminal.trailing dir with
  | none => return .none
  | some cursor =>
    setSession { s with cursor }
    if ← L.top dir then return .redraw
    setSession { (← getSession) with cursor := s.cursor }
    let _ ← L.top .forward
    return .none

def step (p : Provider σ) (dir : Direction) : Operation Engine σ Output := (loader p).step dir

def offerSkip (s : Session) : Operation Engine σ Output := do
  Operation.note (.skipOffered s.itemIndex?)
  setState .interstitial
  modifyField fun f => (f.clear.setKey "Press right to read").setValue "Double-press to skip"
  return .redraw

/-- Go on from a screen of the list: to an offer to skip, to the confirm screen, or one step. -/
def Loader.advanceReview (L : Loader σ) : Operation Engine σ Output := do
  let s ← getSession
  if ← s.skipEligible (← Operation.machine).config.skipMinItem then offerSkip s
  else if s.terminal = .dedicated && !s.isTerminal && !s.cursor.canAdvance 0 then
    setSession s.toConfirm
    let _ ← L.top .forward
    return .redraw
  else L.step .forward

def advanceReview (p : Provider σ) : Operation Engine σ Output := (loader p).advanceReview

def Loader.advance (L : Loader σ) : Operation Engine σ Output := do
  match (← Operation.machine).state with
  | .review => L.advanceReview
  | .interstitial =>
    setState .review
    L.step .forward
  | .inspect => L.inspectStep .forward
  | .confirm => return .none
  | .idle | .error => throw .invalidState

def advance (p : Provider σ) : Operation Engine σ Output := (loader p).advance

def Loader.retreat (L : Loader σ) : Operation Engine σ Output := do
  match (← Operation.machine).state with
  | .review => L.step .backward
  | .interstitial =>
    setState .review
    let _ ← L.top .forward
    return .redraw
  | .inspect => L.inspectStep .backward
  | .confirm =>
    setState .review
    let output ← L.step .backward
    if (← getSession).isTerminal then setState .confirm
    return output
  | .idle | .error => throw .invalidState

def retreat (p : Provider σ) : Operation Engine σ Output := (loader p).retreat

/-- Whether the end of the review can be jumped to: from the offer to skip, or the shortcut. -/
def canSkip (e : Engine) (s : Session) : Bool :=
  match e.state with
  | .interstitial => true
  | .review => s.introScreen? == some .shortcut
  | _ => false

def Loader.skipToApprove (L : Loader σ) : Operation Engine σ Output := do
  let e ← Operation.machine
  let s ← getSession
  if !e.canSkip s then throw .invalidState
  Operation.note .skipped
  setSession (if s.terminal = .dedicated then s.toConfirm else s.toApprove)
  setState .review
  let _ ← L.top .forward
  return .redraw

def skipToApprove (p : Provider σ) : Operation Engine σ Output := (loader p).skipToApprove

end WalletReview.Engine
