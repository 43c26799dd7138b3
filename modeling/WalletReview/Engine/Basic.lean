import WalletReview.Event
import WalletReview.Operation
import WalletReview.Session

/-! The engine of a review: its state, the session of a running review, and the field on screen.
`position` tells where the review stands and `display` what its screen holds. -/
namespace WalletReview

structure Engine where
  state : State
  session : Option Session
  config : Config
  /-- Mode flags for the next review. -/
  modes : Modes
  field : Field
  deriving DecidableEq

structure Screen where
  /-- The title line, with a paging label if there is one. -/
  key : String
  value : String
  position : Position
  page : UInt8
  pageCount : UInt8
  deriving DecidableEq

def Screen.lines (s : Screen) (width : Nat) : List String := Text.lines s.value width

namespace Engine

def start (config : Config) : Engine where
  state := .idle
  session := none
  config := config
  modes := .none
  field := (Field.empty 0).setPageLength config.pageLength

def inspectPosition (i : Inspection) : Position :=
  match i.childIndex with
  | some index => .child i.depth index i.cursor.page
  | none =>
    if i.isGoToRoot then .goToRoot
    else if i.isBack then .back
    else .child i.depth 0 0

def topPosition (s : Session) : Position :=
  if h : s.cursor.item.toNat < s.intro.length then .intro s.intro[s.cursor.item.toNat]
  else if s.isApprove then .approve
  else if s.isReject then .reject
  else
    .item (diff8 s.cursor.item s.leading
      (UInt8.le_iff_toNat_le.2 (Nat.le_trans s.leading_le_length (Nat.le_of_not_lt h))))
      s.cursor.page

def position (e : Engine) : Position :=
  match e.state, e.session with
  | .error, _ => .error
  | .idle, _ => .idle
  | _, none => .idle
  | .confirm, some _ => .approve
  | .interstitial, some s => .interstitial (s.itemIndex?.getD 0)
  | .inspect, some s =>
    match s.inspection with
    | some i => inspectPosition i
    | none => topPosition s
  | .review, some s => topPosition s

def pageOnScreen (e : Engine) : UInt8 × UInt8 :=
  match e.state, e.session with
  | .inspect, some s =>
    match s.inspection with
    | some i => (i.cursor.page, i.cursor.pageCount)
    | none => (0, 1)
  | .review, some s => (s.cursor.page, s.cursor.pageCount)
  | _, _ => (0, 1)

def display (e : Engine) : Screen where
  key := e.field.key.text
  value := e.field.value.text
  position := e.position
  page := e.pageOnScreen.1
  pageCount := e.pageOnScreen.2

def isAtApprove (e : Engine) : Bool := e.position == .approve

def isAtReject (e : Engine) : Bool := e.position == .reject

variable {σ : Type}

def getSession : Operation Engine σ Session := do
  match (← Operation.machine).session with
  | some s => return s
  | none => throw .invalidState

def setSession (s : Session) : Operation Engine σ Unit :=
  Operation.modifyMachine fun e => { e with session := some s }

def setState (state : State) : Operation Engine σ Unit :=
  Operation.modifyMachine fun e => { e with state }

def modifyField (f : Field → Field) : Operation Engine σ Unit :=
  Operation.modifyMachine fun e => { e with field := f e.field }

def getInspection : Operation Engine σ Inspection := do
  match (← getSession).inspection with
  | some i => return i
  | none => throw .invalidState

def setInspection (i : Inspection) : Operation Engine σ Unit :=
  Operation.modifyMachine fun e =>
    { e with session := e.session.map fun s => { s with inspection := some i } }

/-- Put a question to the provider that writes on the engine's field, and take over its reply. -/
def askField {α : Type} (question : Field → σ → Except Error α × Field × σ) :
    Operation Engine σ α := do
  let (reply, field) ← Operation.askField (question (← Operation.machine).field)
  modifyField fun _ => field
  Operation.settle reply

end Engine
end WalletReview
