import WalletReview.Scenario.Bench

/-! Scenarios of inspection: the way down into nested fields and back, in both layouts. -/
namespace WalletReview.Scenario

def setUpNested (config : Config) : Bench Unit := do
  Bench.setUp { items := Fixture.nested } { config with titleScreen := false } .none
  let _ ← Bench.begin .transaction false

def seekItem (index : UInt8) : Bench Unit :=
  Bench.seek (· == .item index 0) ("item " ++ Wording.byte index ++ " not reached") Walk.limit

def follow : List Event → Bench (List Position)
  | [] => return []
  | event :: rest => do
    let _ ← Bench.update event
    let here ← Bench.position
    Trial.remark .debug
      (event.describe ++ ": " ++ here.describe ++ " '" ++ (← Bench.display).key ++ "'")
    return here :: (← follow rest)

/-- Down to the path `[2, 1, 0]` and back out, children by themselves. -/
def native (config : Config) : Bench Unit := do
  Trial.remark .info "inspect native"
  Trial.demand (config.inspectLayout == .native)
  setUpNested config
  seekItem 1
  Bench.demandUpdate .select .none
  Trial.demand ((← Trial.machine).state == .review)
  seekItem 2
  let positions ← follow
    [.select, .next, .next, .select, .select, .next, .inspectBack, .next, .inspectBack]
  let expected : List Position :=
    [.child 0 0 0, .child 0 0 1, .child 0 1 0, .child 1 0 0, .child 2 0 0, .child 2 1 0,
      .child 1 0 0, .child 1 2 0, .item 2 0]
  Trial.demandOr (positions == expected)
    ("inspection positions mismatch (got: " ++ Wording.list Position.describe positions ++ ")")
  Trial.demand ((← Trial.machine).state == .review)
  Trial.demand ((← Bench.advance) == .redraw)
  Bench.demandPosition (.item 3 0)

def bracketed (config : Config) : Bench Unit := do
  Trial.remark .info "inspect bracketed"
  Trial.demand (config.inspectLayout == .bracketed)
  setUpNested config
  seekItem 2
  let _ ← Bench.update .select
  Bench.demandPosition .goToRoot
  Trial.demand ((← Bench.display).value == "Go to root")
  Trial.demand ((← Bench.retreat) == .none)
  Bench.demandPosition .goToRoot
  let positions ← Bench.positionsAhead Walk.limit
  let expected : List Position := [.child 0 0 0, .child 0 0 1, .child 0 1 0, .child 0 2 0, .back]
  Trial.demandOr (positions == expected)
    ("bracketed positions mismatch (got: " ++ Wording.list Position.describe positions ++ ")")
  Trial.demand ((← Bench.display).value == "BACK")
  let _ ← Bench.update .select
  Bench.demandPosition (.item 2 0)
  let _ ← Bench.update .select
  let _ ← Bench.advance
  let _ ← Bench.advance
  let _ ← Bench.advance
  Bench.demandPosition (.child 0 1 0)
  let _ ← Bench.update .select
  Bench.demandPosition .goToRoot
  let _ ← Bench.advance
  let _ ← Bench.update .select
  Bench.demandPosition .goToRoot
  Trial.demand ((← Bench.inspection).map (·.depth) == some 2)
  let _ ← Bench.update .select
  Bench.demandPosition (.item 2 0)

def descendFrom : (levels depth : Nat) → Bench Unit
  | 0, _ => return
  | levels + 1, depth => do
    Trial.demand ((← Bench.inspection).map (·.depth.toNat) == some depth)
    Trial.demandOr (← Trial.perform (Engine.canDescend fixture))
      ("descend refused at depth " ++ toString depth)
    let _ ← Trial.perform (Engine.descend fixture)
    descendFrom levels (depth + 1)

/-- Down to the greatest depth, where going further is refused and changes nothing. -/
def depth (config : Config) : Bench Unit := do
  Trial.remark .info "inspect depth"
  Bench.setUp { items := [Fixture.chain (maxDepth + 2)] }
    { config with titleScreen := false, inspectLayout := .native } .none
  let _ ← Bench.begin .transaction false
  let _ ← Trial.perform (Engine.enterInspect fixture)
  descendFrom maxDepth 0
  let before ← Bench.inspection
  Trial.demand (before.map (·.depth.toNat) == some maxDepth)
  Trial.demand !(← Trial.perform (Engine.canDescend fixture))
  let result ← Trial.attempt (Engine.descend fixture)
  Trial.demandOr (Trial.isRefused result .maxDepth)
    ("unexpected descend result: " ++ Wording.result Output.name result)
  Trial.demand ((← Bench.inspection) == before)
  Bench.demandUpdate .select .none
  Trial.demand ((← Bench.inspection) == before)

def downward : List Event := [.select, .next, .next, .select, .select, .next, .previous]

/-- The positions and questions of an inspection that ends at the root. -/
def inspectionRun (config : Config) : Bench (List Position × List Query) := do
  setUpNested config
  seekItem 2
  Bench.forget
  let positions ← follow (downward ++ [.inspectRoot])
  return (positions, ← Bench.queries)

def asksBelow (path : List UInt8) : Query → Bool
  | .child p _ _ => p == path
  | _ => false

def replay (config : Config) : Bench Unit := do
  Trial.remark .info "inspect replay"
  let config := { config with inspectLayout := .native }
  let one ← inspectionRun config
  let two ← inspectionRun config
  Trial.demandOr (one.1 == two.1) "replayed positions differ"
  Trial.demandOr (one.2 == two.2) "replayed queries differ"
  Trial.demandOr (one.2.any (asksBelow [2, 1, 0])) "trace [2, 1, 0] not inspected"
  Trial.demand (one.1.getLast? == some (.item 2 0))

def leaveInspection : (fuel : Nat) → Bench Unit
  | 0 => return
  | fuel + 1 => do
    if (← Trial.machine).state ≠ .inspect then return
    let _ ← Bench.update .inspectBack
    leaveInspection fuel

/-- The same inspection twice in one review asks the same questions. -/
def redescend (config : Config) : Bench Unit := do
  Trial.remark .info "inspect re-descend"
  setUpNested { config with inspectLayout := .native }
  seekItem 2
  Bench.forget
  let positions ← follow downward
  let queries ← Bench.queries
  leaveInspection (maxDepth + 2)
  Bench.demandPosition (.item 2 0)
  Bench.forget
  let again ← follow downward
  Trial.demandOr (positions == again)
    ("re-descent positions differ (" ++ Wording.list Position.describe positions ++ " != " ++
      Wording.list Position.describe again ++ ")")
  Trial.demandOr (queries == (← Bench.queries)) "re-descent queries differ"
  let i ← Bench.inspection
  let path ← (i.mapM Inspection.trace : Checked (Option (List UInt8)))
  Trial.demandOr (path == some [2, 1, 0]) "trace [2, 1, 0] not reached"

end WalletReview.Scenario
