import WalletReview.Engine.Update

/-! Devices with two buttons: what a release means on each screen, and what it does. -/
namespace WalletReview

inductive Button
  | left
  | right
  | both
  deriving DecidableEq, Inhabited

inductive Response (α : Type)
  | none
  | update
  | exit (result : α)
  deriving DecidableEq

namespace Response

variable {α β : Type}

def map (f : α → β) : Response α → Response β
  | none => none
  | update => update
  | exit result => exit (f result)

def isExit : Response α → Bool
  | exit _ => true
  | _ => false

end Response

namespace Button

def event (position : Position) : Button → Event
  | both => if position = .error then .acknowledge else .select
  | left => .previous
  | right => .next

variable {σ : Type}

/-- Take a release; the review is left with whether it was approved. A refused event changes
nothing, unless the review was aborted with an error screen. -/
def pressWith (L : Engine.Loader σ) (p : Provider σ) (button : Button) :
    Operation Engine σ (Response Bool) := do
  let event := button.event (← Operation.machine).position
  match ← (L.update p event).attempt with
  | .ok .none => return .none
  | .ok .redraw => return .update
  | .ok .approved => return .exit true
  | .ok .rejected | .ok .idle => return .exit false
  | .error _ => return if (← Operation.machine).state = .error then .update else .none

def press (p : Provider σ) (button : Button) : Operation Engine σ (Response Bool) :=
  button.pressWith (Engine.loader p) p

end Button
end WalletReview
