import WalletReview.Fixture
import WalletReview.StaticReview
import WalletReview.Trial
import WalletReview.Walk

/-! The scenario of a static review: its screens hold every page of every item in order, and a
screen asked for again is not asked of the provider again. -/
namespace WalletReview.Scenario

abbrev StaticBench := Trial StaticReview (Recorded Fixture)

def staticFixture : Provider (Recorded Fixture) := Fixture.provider.recorded

def screenAt (n : UInt16) : StaticBench (List Pair) :=
  Trial.perform (StaticReview.screenAt staticFixture n)

def staticQueries : StaticBench (List Query) := return (← Trial.content).queries

/-- The pairs of `count` screens from screen `n` on, each asked for twice. -/
def collectScreens : (count : Nat) → (n : UInt16) → StaticBench (List Pair)
  | 0, _ => return []
  | count + 1, n => do
    let number := toString n.toNat
    let pairs ← screenAt n
    Trial.remark .debug ("page " ++ number ++ ": " ++ Wording.list Pair.describe pairs)
    Trial.demandOr (!pairs.isEmpty) ("empty screen " ++ number)
    Trial.modifyContent Recorded.forget
    let again ← screenAt n
    Trial.demandOr (pairs == again) ("repeated screen " ++ number ++ " differs")
    Trial.demandOr (← staticQueries).isEmpty ("screen " ++ number ++ " not cached")
    return pairs ++ (← collectScreens count (n + 1))

def demandPair (pair : Pair) (index page : UInt8) : StaticBench Unit := do
  Trial.demandOr ((Fixture.itemKey index).toList.isPrefixOf pair.key.text.toList)
    ("unexpected key '" ++ pair.key.text ++ "' for item " ++ Wording.byte index)
  Trial.demand (pair.value.text == Fixture.pageValue index page)

def demandNoScreen (n : UInt16) (cause : Error) (otherwise : String) : StaticBench Unit := do
  let result ← Trial.attempt (StaticReview.screenAt staticFixture n)
  Trial.demandOr (Trial.isRefused result cause)
    (otherwise ++ Wording.result (Wording.list Pair.describe) result)

def staticPages (config : Config) (layout : List UInt8) : StaticBench Unit := do
  Trial.remark .info
    ("static review: " ++ Wording.bytes layout ++ " (" ++ Wording.byte config.pairsPerScreen ++
      " pairs per screen)")
  Trial.restart (.start config) ⟨.ofPages layout, []⟩
  let expected := Walk.expectedPages layout
  Trial.demand ((← Trial.perform (StaticReview.totalPairs staticFixture)).toNat == expected.length)
  let screens ← Trial.perform (StaticReview.totalScreens staticFixture)
  let pairs ← collectScreens screens.toNat 0
  Trial.demand (pairs.length == expected.length)
  (pairs.zip expected).forM fun (pair, index, page) => demandPair pair index page
  demandNoScreen screens .outOfBounds "unexpected result past the last screen: "
  Trial.demand (← Trial.perform (StaticReview.finish staticFixture true))
  Trial.demand !(← Trial.perform (StaticReview.finish staticFixture false))
  Trial.demand (← Trial.machine).finished
  let x := (← Trial.content).content
  Trial.demand (x.accepted == 1 && x.rejected == 0)
  demandNoScreen 0 .invalidState "unexpected result after completion: "

end WalletReview.Scenario
