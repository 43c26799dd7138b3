import WalletReview.Engine.Load

/-! Beginning and ending a review. A review ends with approval, with rejection, or on an error
screen that the user acknowledges; all three leave an idle engine whose field is wiped. -/
namespace WalletReview.Engine

variable {σ : Type}

def newSession (e : Engine) (kind : Kind) (confirmation : Bool) (intent : Option String)
    (count : UInt8) : Session :=
  let intro := introScreens kind e.modes e.config.titleScreen
  let s := Session.start kind confirmation e.config.terminal e.modes intro count
  match intent with
  | some text =>
    if kind.isSigning && text != "" then { s with intent := s.intent.setIntent text } else s
  | none => s

/-- Begin a review, with an intent in place of the title where there is one. -/
def Loader.begin (L : Loader σ) (p : Provider σ) (kind : Kind) (confirmation : Bool)
    (intent : Option String) : Operation Engine σ Output := do
  let e ← Operation.machine
  Operation.note (.begun kind confirmation e.modes)
  if e.state ≠ .idle then throw .invalidState
  modifyField fun f => f.wipe.setPageLength e.config.pageLength
  match ← Operation.ask p.itemCount with
  | .error cause => fail cause
  | .ok count =>
    let intro := introScreens kind e.modes e.config.titleScreen
    if 255 < count.toNat + intro.length + e.config.terminal.trailing.toNat then fail .outOfBounds
    else
      setSession (e.newSession kind confirmation intent count)
      setState .review
      let _ ← L.top .forward
      return .redraw

def begin (p : Provider σ) (kind : Kind) (confirmation : Bool) (intent : Option String) :
    Operation Engine σ Output :=
  (loader p).begin p kind confirmation intent

/-- End the review: the session given up, the field wiped, and the provider told. -/
def finish (p : Provider σ) (approved : Bool) : Operation Engine σ Output := do
  Operation.note (.completed approved)
  Operation.modifyMachine fun e => { e with session := none, field := e.field.wipe, state := .idle }
  if approved then
    Operation.conclude p .accepted
    return .approved
  else
    Operation.conclude p .rejected
    return .rejected

/-- Whether a review can be approved here: on the approve screen or the confirm screen. -/
def canApprove (e : Engine) : Bool :=
  match e.state, e.session with
  | .confirm, some _ => true
  | .review, some s => s.isApprove
  | _, _ => false

def approve (p : Provider σ) : Operation Engine σ Output := do
  if (← Operation.machine).canApprove then finish p true else throw .invalidState

def reject (p : Provider σ) : Operation Engine σ Output := do
  match (← Operation.machine).state with
  | .idle | .error => throw .invalidState
  | _ => finish p false

def showError : Operation Engine σ Output := do
  showErrorScreen errorKey errorValue
  return .redraw

def showCustomError (upper lower : String) : Operation Engine σ Output := do
  showErrorScreen upper lower
  return .redraw

/-- Show that blind signing is needed but not enabled, in place of any review. -/
def showBlindSignError : Operation Engine σ Output := do
  showErrorScreen "Blind signing must be" "enabled in Settings"
  return .redraw

def acknowledge (p : Provider σ) : Operation Engine σ Output := do
  if (← Operation.machine).state ≠ .error then throw .invalidState
  Operation.modifyMachine fun e => { e with field := e.field.wipe, state := .idle }
  Operation.conclude p .error
  return .idle

def setModes (modes : Modes) : Operation Engine σ Unit :=
  Operation.modifyMachine fun e => { e with modes }

end WalletReview.Engine
