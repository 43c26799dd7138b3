import WalletReview.Engine.Navigate
import WalletReview.Trial

/-! Walks through a review: every position on the way to one end. -/
namespace WalletReview.Walk

variable {σ : Type}

def limit : Nat := 4096

/-- Go on with `step`, noting every position, as long as it shows a new screen and `stop` does not
hold; `visited` holds the positions so far, the latest first. -/
def follow (word doing : String) (stop : Engine → Bool) (step : Operation Engine σ Output) :
    (fuel : Nat) → (visited : List Position) → Trial Engine σ (List Position)
  | 0, _ => Trial.giveUp "walk limit exceeded"
  | fuel + 1, visited => do
    if stop (← Trial.machine) then return visited.reverse
    match ← Trial.perform step with
    | .redraw =>
      let e ← Trial.machine
      Trial.remark .debug (word ++ ": " ++ e.position.describe ++ " '" ++ e.display.key ++ "'")
      follow word doing stop step fuel (e.position :: visited)
    | .none => return visited.reverse
    | output => Trial.giveUp ("unexpected output " ++ output.name ++ " while " ++ doing)

def forward (p : Provider σ) : Trial Engine σ (List Position) := do
  let start := (← Trial.machine).position
  follow "advance" "advancing" Engine.isAtApprove (Engine.advance p) limit [start]

def backward (p : Provider σ) : Trial Engine σ (List Position) := do
  let start := (← Trial.machine).position
  follow "retreat" "retreating" (fun _ => false) (Engine.retreat p) limit [start]

def itemPages (positions : List Position) : List (UInt8 × UInt8) :=
  positions.filterMap fun
    | .item index page => some (index, page)
    | _ => none

def expectedPages (layout : List UInt8) : List (UInt8 × UInt8) :=
  layout.zipIdx.flatMap fun (pages, i) =>
    (List.range pages.toNat).map fun page => (i.toUInt8, .ofNat page)

end WalletReview.Walk
