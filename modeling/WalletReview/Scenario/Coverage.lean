import WalletReview.Scenario.Bench

/-! Scenarios of coverage: every page of every item is visited, in order, before approval can be
reached. -/
namespace WalletReview.Scenario

open Wording in
/-- Walk a review forward, backward and forward again, then approve. -/
def coverage (config : Config) (kind : Kind) (layout : List UInt8) : Bench Unit := do
  Trial.remark .info
    ("coverage: " ++ config.terminal.name ++ " " ++ kind.name ++ " review of " ++ bytes layout)
  Bench.setUp (.ofPages layout) config .none
  let output ← Bench.begin kind false
  Trial.demandOr (output == .redraw) ("unexpected begin output: " ++ output.name)
  let expected := Walk.expectedPages layout
  let mismatch (way : String) (visited : List (UInt8 × UInt8)) : String :=
    way ++ " coverage mismatch (visited: " ++ list pair visited ++ ", expected: " ++
      list pair expected ++ ")"
  let ahead ← Walk.forward fixture
  Trial.remark .debug ("forward: " ++ list Position.describe ahead)
  let visited := Walk.itemPages ahead
  Trial.demandOr (visited == expected) (mismatch "forward" visited)
  Trial.demandOr (← Trial.machine).isAtApprove "forward walk did not reach approve"
  let back ← Walk.backward fixture
  Trial.remark .debug ("backward: " ++ list Position.describe back)
  let visited := (Walk.itemPages back).reverse
  Trial.demandOr (visited == expected) (mismatch "backward" visited)
  Trial.demandOr (back.getLast? == ahead.head?) "backward walk did not return to start"
  let _ ← Walk.forward fixture
  let output ← Trial.perform (Engine.approve fixture)
  Trial.demandOr (output == .approved) ("unexpected approve output: " ++ output.name)
  Trial.demandOr ((← Trial.machine).state == .idle) "engine not idle after approval"
  Trial.demandOr ((← Bench.content).accepted == 1) "accept callback not fired"
  Trial.demandOr ((← Bench.content).rejected == 0) "reject callback fired"

/-- Advance to the approve screen in at most `most` steps; before it approval and skipping are
refused. -/
def refuseUntilApprove (most : Nat) : (fuel steps : Nat) → Bench Unit
  | 0, _ => Trial.giveUp "approve not reached"
  | fuel + 1, steps => do
    if (← Trial.machine).isAtApprove then return
    let approval ← Trial.attempt (Engine.approve fixture)
    Trial.demandOr (Trial.isRefused approval .invalidState)
      ("approve accepted at " ++ (← Bench.position).describe)
    let skipping ← Trial.attempt (Engine.skipToApprove fixture)
    Trial.demandOr (Trial.isRefused skipping .invalidState)
      ("skip accepted at " ++ (← Bench.position).describe)
    match ← Bench.advance with
    | .redraw =>
      if most < steps + 1 then Trial.giveUp "approve not reached"
      refuseUntilApprove most fuel (steps + 1)
    | output =>
      Trial.giveUp
        ("unexpected output " ++ output.name ++ " at " ++ (← Bench.position).describe)

def noSkip (config : Config) (layout : List UInt8) : Bench Unit := do
  Trial.remark .info ("no-skip: " ++ Wording.bytes layout)
  Bench.setUp (.ofPages layout) config .none
  let _ ← Bench.begin .transaction false
  let most := (Walk.expectedPages layout).length + 8
  refuseUntilApprove most (most + 2) 0
  Trial.demandOr ((← Bench.content).accepted == 0) "accept callback fired before approval"

def forwardRun (config : Config) (layout : List UInt8) : Bench (List Position × List Query) := do
  Bench.setUp (.ofPages layout) config .none
  let _ ← Bench.begin .transaction false
  let positions ← Walk.forward fixture
  let last := positions.getLast?
  Trial.demandOr (last == some .approve)
    ("walk ended at " ++ Wording.option Position.describe last)
  return (positions, ← Bench.queries)

def forwardOnly (config : Config) (layout : List UInt8) : Bench Unit := do
  Trial.remark .info ("forward-only: " ++ Wording.bytes layout)
  let one ← forwardRun config layout
  let two ← forwardRun config layout
  Trial.demandOr (one == two) "forward walks differ"

end WalletReview.Scenario
