import WalletReview.Engine.Navigate

/-! How an engine takes an event. -/
namespace WalletReview.Engine

variable {σ : Type}

/-- An operation that does nothing where it is refused for one of `causes`. -/
def orNothing (causes : List Error) (op : Operation Engine σ Output) : Operation Engine σ Output :=
  do
  match ← op.attempt with
  | .ok output => return output
  | .error cause => if cause ∈ causes then return .none else throw cause

def Loader.select (L : Loader σ) (p : Provider σ) : Operation Engine σ Output := do
  match (← Operation.machine).position with
  | .intro .shortcut | .interstitial _ => L.skipToApprove
  | .approve => approve p
  | .reject => reject p
  | .item _ _ => orNothing [.notInspectable] (L.enterInspect p)
  | .goToRoot => L.exitToRoot
  | .back => L.exitLevel
  | .child _ _ _ => orNothing [.notInspectable, .maxDepth] (L.descend p)
  | _ => return .none

def select (p : Provider σ) : Operation Engine σ Output := (loader p).select p

def Loader.update (L : Loader σ) (p : Provider σ) (event : Event) : Operation Engine σ Output := do
  let state := (← Operation.machine).state
  Operation.note (.event event state)
  match state, event with
  | _, .none => return .none
  | .idle, .begin kind confirmation => L.begin p kind confirmation none
  | .error, .acknowledge | .error, .select => acknowledge p
  | .idle, _ | .error, _ => throw .unexpectedEvent
  | _, .begin _ _ | _, .acknowledge => throw .unexpectedEvent
  | _, .next => L.advance
  | _, .previous => L.retreat
  | _, .select => L.select p
  | _, .approve => approve p
  | _, .reject => reject p
  | _, .skipToApprove => L.skipToApprove
  | .inspect, .inspectRoot => L.exitToRoot
  | .inspect, .inspectBack => L.exitLevel
  | _, _ => throw .unexpectedEvent

def update (p : Provider σ) (event : Event) : Operation Engine σ Output := (loader p).update p event

end WalletReview.Engine
