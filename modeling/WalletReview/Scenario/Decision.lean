import WalletReview.Scenario.Bench

/-! Scenarios of decisions: approval, rejection, the confirm screen, and errors of a provider. -/
namespace WalletReview.Scenario

open Wording in
def transaction (config : Config) : Bench Unit := do
  Trial.remark .info "transaction review"
  Bench.setUp (.ofPages [1, 2, 1]) config .none
  let _ ← Bench.begin .transaction false
  let positions ← Walk.forward fixture
  Trial.demandOr (positions.length == config.titleScreen.toNat + 4 + 1)
    ("unexpected walk length: " ++ list Position.describe positions)
  Trial.demand (positions.getLast? == some .approve)
  Bench.demandUpdate .select .approved
  Trial.demand ((← Bench.content).accepted == 1)
  Trial.demand ((← Trial.machine).state == .idle)

def reject (config : Config) : Bench Unit := do
  Trial.remark .info "reject review"
  Bench.setUp (.ofPages [1, 1]) config .none
  let _ ← Bench.begin .message false
  let _ ← Walk.forward fixture
  match config.terminal with
  | .items =>
    Trial.demand ((← Bench.advance) == .redraw)
    Trial.demand (← Trial.machine).isAtReject
    Trial.demand ((← Bench.display).value == "REJECT")
    Trial.demand ((← Bench.advance) == .none)
    Bench.demandUpdate .select .rejected
  | _ =>
    Trial.demand !(← Trial.machine).isAtReject
    Trial.demand ((← Trial.perform (Engine.reject fixture)) == .rejected)
  Bench.demandCounts 0 1
  Bench.setUp (.ofPages [1, 1]) config .none
  let _ ← Bench.begin .transaction false
  let _ ← Bench.advance
  Bench.demandUpdate .reject .rejected
  Trial.demand ((← Trial.machine).state == .idle)
  Trial.demand ((← Bench.content).rejected == 1)

open Wording in
/-- The confirm screen follows the last item. -/
def confirm (config : Config) : Bench Unit := do
  Trial.remark .info "dedicated confirm"
  Bench.setUp (.ofPages [1, 1]) { config with terminal := .dedicated, titleScreen := false } .none
  let _ ← Bench.begin .transaction false
  let positions ← Walk.forward fixture
  Trial.demandOr (positions == [.item 0 0, .item 1 0, .approve])
    ("unexpected positions: " ++ list Position.describe positions)
  Trial.demand ((← Trial.machine).state == .confirm)
  Trial.demand ((← Bench.advance) == .none)
  Trial.demand ((← Bench.retreat) == .redraw)
  Bench.demandPosition (.item 1 0)
  Trial.demand ((← Trial.machine).state == .review)
  Trial.demand ((← Bench.advance) == .redraw)
  Bench.demandUpdate .approve .approved
  Trial.demand ((← Bench.content).accepted == 1)

def error (config : Config) : Bench Unit := do
  Trial.remark .info "error screen"
  let x : Fixture := { Fixture.ofPages [1, 1, 1] with failAt := some 1 }
  Bench.setUp x { config with titleScreen := false } .none
  let _ ← Bench.begin .transaction false
  let result ← Trial.attempt (Engine.advance fixture)
  Trial.demandOr (Trial.isRefused result .unknown)
    ("unexpected advance result: " ++ Wording.result Output.name result)
  Trial.demand ((← Trial.machine).state == .error)
  Bench.demandPosition .error
  Trial.demand (← Trial.machine).session.isNone
  let screen ← Bench.display
  Trial.demand (screen.key == "ERROR" && screen.value == "SHOWING DATA")
  let next ← Trial.attempt (Engine.update fixture .next)
  Trial.demand (Trial.isRefused next .unexpectedEvent)
  let approval ← Trial.attempt (Engine.approve fixture)
  Trial.demand (Trial.isRefused approval .invalidState)
  Bench.demandUpdate .acknowledge .idle
  Trial.demand ((← Trial.machine).state == .idle)
  Trial.demand ((← Bench.content).errors == 1)
  Trial.demand ((← Bench.content).accepted == 0)
  Trial.modifyContent fun r => { r with content := { r.content with failAt := none } }
  let _ ← Bench.update (.begin .transaction false)
  Bench.demandPosition (.item 0 0)

end WalletReview.Scenario
