import WalletReview.Engine.Update
import WalletReview.Fixture
import WalletReview.Walk

/-! A bench for trying engines out: reviews of fixtures, all questions on record. -/
namespace WalletReview.Scenario

abbrev Bench := Trial Engine (Recorded Fixture)

abbrev fixture : Provider (Recorded Fixture) := Fixture.provider.recorded

namespace Bench

def setUp (x : Fixture) (config : Config) (modes : Modes) : Bench Unit := do
  Trial.restart (.start config) ⟨x, []⟩
  Trial.perform (Engine.setModes modes)

def begin (kind : Kind) (confirmation : Bool) : Bench Output :=
  Trial.perform (Engine.begin fixture kind confirmation none)

def advance : Bench Output := Trial.perform (Engine.advance fixture)

def retreat : Bench Output := Trial.perform (Engine.retreat fixture)

def update (event : Event) : Bench Output := Trial.perform (Engine.update fixture event)

def position : Bench Position := return (← Trial.machine).position

def display : Bench Screen := return (← Trial.machine).display

def inspection : Bench (Option Inspection) :=
  return (← Trial.machine).session.bind (·.inspection)

def content : Bench Fixture := return (← Trial.content).content

def forget : Bench Unit := Trial.modifyContent Recorded.forget

def queries : Bench (List Query) := return (← Trial.content).queries

def demandUpdate (event : Event) (output : Output) : Bench Unit := do
  Trial.demand ((← update event) == output)

def demandPosition (expected : Position) : Bench Unit := do
  Trial.demand ((← position) == expected)

def demandCounts (accepted rejected : Nat) : Bench Unit := do
  let x ← content
  Trial.demand (x.accepted == accepted && x.rejected == rejected)

/-- Advance until a position is reached, or give up where there is no new screen. -/
def seek (reached : Position → Bool) (otherwise : String) : (fuel : Nat) → Bench Unit
  | 0 => Trial.giveUp otherwise
  | fuel + 1 => do
    if reached (← position) then return
    if (← advance) ≠ .redraw then Trial.giveUp otherwise
    seek reached otherwise fuel

def positionsAhead : (fuel : Nat) → Bench (List Position)
  | 0 => Trial.giveUp "walk limit exceeded"
  | fuel + 1 => do
    if (← advance) ≠ .redraw then return []
    let here ← position
    return here :: (← positionsAhead fuel)

end Bench
end WalletReview.Scenario
