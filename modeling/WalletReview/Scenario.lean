import WalletReview.Scenario.Coverage
import WalletReview.Scenario.Decision
import WalletReview.Scenario.Nested
import WalletReview.Scenario.Pages
import WalletReview.Scenario.Skip

/-! The scenarios by name, each run from a fresh start to its verdict. -/
namespace WalletReview.Scenario

inductive Name
  | coverage (kind : Kind) (layout : List UInt8)
  | noSkip (layout : List UInt8)
  | forwardOnly (layout : List UInt8)
  | staticPages (layout : List UInt8)
  | transaction
  | reject
  | confirm
  | error
  | native
  | bracketed
  | depth
  | replay
  | redescend
  | interstitial
  | notOffered
  | shortcut
  | blindSign

namespace Name

def ofText? (kind : Kind) (layout : List UInt8) : String → Option Name
  | "coverage" => some (coverage kind layout)
  | "no_skip" => some (noSkip layout)
  | "forward_only" => some (forwardOnly layout)
  | "static" => some (staticPages layout)
  | "transaction" => some transaction
  | "reject" => some reject
  | "confirm" => some confirm
  | "error" => some error
  | "native" => some native
  | "bracketed" => some bracketed
  | "depth" => some depth
  | "replay" => some replay
  | "redescend" => some redescend
  | "interstitial" => some interstitial
  | "not_offered" => some notOffered
  | "shortcut" => some shortcut
  | "blind_sign" => some blindSign
  | _ => none

end Name

def verdict {μ : Type} (machine : μ) (trial : Trial μ (Recorded Fixture) Unit) :
    Checked (Except Failure Unit × List Notice) := do
  let (result, s) ← trial { machine, content := ⟨{ items := [] }, []⟩ }
  return (result, s.journal.reverse)

def run (config : Config) (name : Name) : Checked (Except Failure Unit × List Notice) :=
  let engine (trial : Bench Unit) := verdict (.start config) trial
  match name with
  | .coverage kind layout => engine (coverage config kind layout)
  | .noSkip layout => engine (noSkip config layout)
  | .forwardOnly layout => engine (forwardOnly config layout)
  | .staticPages layout => verdict (.start config) (staticPages config layout)
  | .transaction => engine (transaction config)
  | .reject => engine (reject config)
  | .confirm => engine (confirm config)
  | .error => engine (error config)
  | .native => engine (native config)
  | .bracketed => engine (bracketed config)
  | .depth => engine (depth config)
  | .replay => engine (replay config)
  | .redescend => engine (redescend config)
  | .interstitial => engine (interstitial config)
  | .notOffered => engine (notOffered config)
  | .shortcut => engine (shortcut config)
  | .blindSign => engine (blindSign config)

end WalletReview.Scenario
