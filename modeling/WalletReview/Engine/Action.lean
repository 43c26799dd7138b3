import WalletReview.Button

/-! Everything that can be done to an engine from outside, as one type. -/
namespace WalletReview.Engine

inductive Action
  | begin (kind : Kind) (confirmation : Bool) (intent : Option String)
  | take (event : Event)
  | press (button : Button)
  | advance
  | retreat
  | skipToApprove
  | approve
  | reject
  | enterInspect
  | canDescend
  | descend
  | exitLevel
  | exitToRoot
  | acknowledge
  | showError
  | showBlindSignError
  | showCustomError (upper lower : String)
  | setModes (modes : Modes)
  deriving DecidableEq

inductive Reply
  | output (output : Output)
  | flag (holds : Bool)
  | response (response : Response Bool)
  | done
  deriving DecidableEq

variable {σ : Type}

def Loader.perform (L : Loader σ) (p : Provider σ) : Action → Operation Engine σ Reply
  | .begin kind confirmation intent => .output <$> L.begin p kind confirmation intent
  | .take event => .output <$> L.update p event
  | .press button => .response <$> button.pressWith L p
  | .advance => .output <$> L.advance
  | .retreat => .output <$> L.retreat
  | .skipToApprove => .output <$> L.skipToApprove
  | .approve => .output <$> Engine.approve p
  | .reject => .output <$> Engine.reject p
  | .enterInspect => .output <$> L.enterInspect p
  | .canDescend => .flag <$> Engine.canDescend p
  | .descend => .output <$> L.descend p
  | .exitLevel => .output <$> L.exitLevel
  | .exitToRoot => .output <$> L.exitToRoot
  | .acknowledge => .output <$> Engine.acknowledge p
  | .showError => .output <$> Engine.showError
  | .showBlindSignError => .output <$> Engine.showBlindSignError
  | .showCustomError upper lower => .output <$> Engine.showCustomError upper lower
  | .setModes modes => do
    Engine.setModes modes
    return .done

def Action.perform (p : Provider σ) (action : Action) : Operation Engine σ Reply :=
  (loader p).perform p action

end WalletReview.Engine
