import WalletReview.Scenario.Bench

/-! Scenarios of skipping to approval, from the offer to skip and from the shortcut, and of the
warnings of blind signing. -/
namespace WalletReview.Scenario

def isInterstitial : Position → Bool
  | .interstitial _ => true
  | _ => false

def offersIn (positions : List Position) : List UInt8 :=
  positions.filterMap fun
    | .interstitial index => some index
    | _ => none

/-- Skipping is offered after each item that allows it, and taken from the first. -/
def interstitial (config : Config) : Bench Unit := do
  Trial.remark .info "skip interstitial"
  let layout := [1, 1, 1, 1]
  Bench.setUp (.ofPages layout) config .none
  let _ ← Bench.begin .transaction true
  let positions ← Walk.forward fixture
  Trial.demand (Walk.itemPages positions == Walk.expectedPages layout)
  let offered := offersIn positions
  let eligible := [0, 1, 2].filter (config.skipMinItem ≤ ·)
  Trial.demandOr (offered == eligible)
    ("interstitial offered after " ++ Wording.bytes offered ++ ", expected " ++
      Wording.bytes eligible)
  Bench.setUp (.ofPages layout) config .none
  let _ ← Bench.begin .transaction true
  Bench.seek isInterstitial "interstitial not offered" Walk.limit
  let offer ← Bench.position
  let index := (offersIn [offer]).headD 0
  Trial.demand ((← Bench.display).key == "Press right to read")
  Trial.demand ((← Bench.display).value == "Double-press to skip")
  Trial.demand ((← Bench.retreat) == .redraw)
  Bench.demandPosition (.item index 0)
  Trial.demand ((← Bench.advance) == .redraw)
  Bench.demandPosition offer
  Bench.demandUpdate .select .redraw
  Trial.demand (← Trial.machine).isAtApprove
  Bench.demandUpdate .select .approved
  Trial.demand ((← Bench.content).accepted == 1)

def demandNoOffer (config : Config) (kind : Kind) (confirmation : Bool) : Bench Unit := do
  let layout := [1, 1, 1, 1]
  Bench.setUp (.ofPages layout) config .none
  let _ ← Bench.begin kind confirmation
  let positions ← Walk.forward fixture
  Trial.demandOr (!positions.any isInterstitial)
    ("interstitial offered for " ++ kind.name ++ " review (confirm: " ++
      Wording.bool confirmation ++ ")")
  Trial.demand (Walk.itemPages positions == Walk.expectedPages layout)

/-- Skipping is only offered in reviews for signing that ask for it. -/
def notOffered (config : Config) : Bench Unit := do
  Trial.remark .info "skip not offered"
  demandNoOffer config .transaction false
  demandNoOffer config .message false
  demandNoOffer config .address true
  demandNoOffer config .config true

/-- The shortcut screen leads to approval, and address reviews have none. -/
def shortcut (config : Config) : Bench Unit := do
  Trial.remark .info "skip shortcut"
  Bench.setUp (.ofPages [2, 1]) config { shortcut := true }
  let _ ← Bench.begin .transaction false
  Bench.seek (· == .intro .shortcut) "shortcut screen not shown" Walk.limit
  Bench.demandUpdate .select .redraw
  Trial.demand (← Trial.machine).isAtApprove
  Trial.demand ((← Bench.retreat) == .redraw)
  let skipping ← Trial.attempt (Engine.skipToApprove fixture)
  Trial.demand (Trial.isRefused skipping .invalidState)
  Bench.setUp (.ofPages [1]) config { shortcut := true }
  let _ ← Bench.begin .address false
  let positions ← Walk.forward fixture
  Trial.demand !(positions.contains (.intro .shortcut))

/-- Reviews that need blind signing show warnings, and name the risk on approval. -/
def blindSign (config : Config) : Bench Unit := do
  Trial.remark .info "blind sign warnings"
  Bench.setUp (.ofPages [1]) config { blindSign := true, blindSignRequired := true }
  let _ ← Bench.begin .transaction false
  let positions ← Walk.forward fixture
  let intro := positions.filterMap fun
    | .intro screen => some screen
    | _ => none
  let expected := [.blindSignWarning, .blindSignDetails, .blindSignRisk] ++
    (if config.titleScreen then [IntroScreen.title] else [])
  Trial.demandOr (intro == expected)
    ("unexpected intro screens: " ++ Wording.list IntroScreen.name intro)
  let screen ← Bench.display
  Trial.demand (screen.key == "ACCEPT RISK" && screen.value == "AND APPROVE")

end WalletReview.Scenario
