import WalletReview.Config
import WalletReview.Operation

/-! A review without a cursor, for devices that pull screens by number. Every page of every item is
one pair of key and value; the pairs are dealt out in screens. Approval needs the last screen to
have been shown. -/
namespace WalletReview

structure Pair where
  key : BoundedText keyCapacity
  value : BoundedText valueCapacity
  deriving DecidableEq

namespace Pair

def empty : Pair := ⟨.empty _, .empty _⟩

instance : Inhabited Pair := ⟨empty⟩

open Wording in
def describe (p : Pair) : String :=
  record "Pair" [("key", quoted p.key.text), ("value", quoted p.value.text)]

end Pair

abbrev maxPairs : Nat := 8

structure StaticReview where
  config : Config
  field : Field
  /-- The number of pairs, once counted. -/
  pairCount : Option UInt16
  /-- The screen shown last, with its number. -/
  shown : Option (UInt16 × List Pair)
  reached : Option UInt16
  finished : Bool
  deriving DecidableEq

structure Place where
  item : UInt8
  page : UInt8
  pages : UInt8
  deriving DecidableEq

namespace StaticReview

def start (config : Config) : StaticReview where
  config := config
  field := (Field.empty 0).setPageLength config.pageLength
  pairCount := none
  shown := none
  reached := none
  finished := false

def pairsPerScreen (r : StaticReview) : UInt16 :=
  .ofNat (min (max r.config.pairsPerScreen.toNat 1) maxPairs)

variable {σ : Type}

def modifyField (f : Field → Field) : Operation StaticReview σ Unit :=
  Operation.modifyMachine fun r => { r with field := f r.field }

def askItem (p : Provider σ) (item page : UInt8) : Operation StaticReview σ UInt8 := do
  let (reply, field) ← Operation.askField (p.item item page (← Operation.machine).field)
  modifyField fun _ => field
  Operation.settle reply

def askItems (p : Provider σ) : Operation StaticReview σ (List UInt8) := do
  let count ← Operation.settle (← Operation.ask p.itemCount)
  return (List.range count.toNat).map .ofNat

def sumPages (p : Provider σ) : List UInt8 → UInt16 → Operation StaticReview σ UInt16
  | [], sum => return sum
  | item :: rest, sum => do
    let pages ← askItem p item 0
    sumPages p rest (← Checked.add16 sum pages.toUInt16)

/-- The number of pairs, counted the first time. -/
def totalPairs (p : Provider σ) : Operation StaticReview σ UInt16 := do
  match (← Operation.machine).pairCount with
  | some count => return count
  | none =>
    let count ← sumPages p (← askItems p) 0
    modifyField Field.clear
    Operation.modifyMachine fun r => { r with pairCount := some count }
    return count

def totalScreens (p : Provider σ) : Operation StaticReview σ UInt16 := do
  let pairs ← totalPairs p
  let perScreen := (← Operation.machine).pairsPerScreen
  let above ← Checked.sub16 (← Checked.add16 pairs perScreen) 1
  return above / perScreen

/-- The place of pair `index` among some items, the first of which has pair `base` as its first. -/
def locateFrom (p : Provider σ) (index : UInt16) :
    List UInt8 → UInt16 → Operation StaticReview σ Place
  | [], _ => throw .outOfBounds
  | item :: rest, base => do
    let pages ← askItem p item 0
    let next ← Checked.add16 base pages.toUInt16
    if index < next then
      return ⟨item, (← Checked.sub16 index base).toUInt8, pages⟩
    else locateFrom p index rest next

def locate (p : Provider σ) (index : UInt16) : Operation StaticReview σ Place := do
  locateFrom p index (← askItems p) 0

def pairAt (p : Provider σ) (index : UInt16) (out : Pair) : Operation StaticReview σ Pair := do
  let place ← locate p index
  modifyField Field.clear
  let _ ← askItem p place.item place.page
  let r ← Operation.machine
  let key := (out.key.set r.field.key.text).1
  let value := if r.field.value.isEmpty then " " else r.field.value.text
  modifyField Field.clear
  return ⟨key.appendLabel place.page place.pages r.config.labelStyle, (out.value.set value).1⟩

/-- Pair `index` in the place of `out`, which stays if there is none. -/
def overwritePair (p : Provider σ) (index : UInt16) (out : Pair) :
    Operation StaticReview σ (Except Error Unit × Pair) := do
  match ← (pairAt p index out).attempt with
  | .ok pair => return (.ok (), pair)
  | .error cause => return (.error cause, out)

def collectPairs (p : Provider σ) : (count : Nat) → (index : UInt16) → List Pair →
    Operation StaticReview σ (List Pair)
  | 0, _, pairs => return pairs
  | count + 1, index, pairs => do
    let pair ← pairAt p index .empty
    if pairs.length < maxPairs then
      collectPairs p count (index + 1) (pairs ++ [pair])
    else throw .bufferTooSmall

def renderScreen (p : Provider σ) (n : UInt16) : Operation StaticReview σ (List Pair) := do
  if (← totalScreens p) ≤ n then throw .outOfBounds
  let perScreen := (← Operation.machine).pairsPerScreen
  let first ← Checked.mul16 n perScreen
  let past ← Checked.add16 first perScreen
  let past := min past (← totalPairs p)
  let pairs ← collectPairs p (past.toNat - first.toNat) first []
  Operation.note (.staticScreen n pairs.length)
  return pairs

/-- Screen `n`, which counts as shown from then on. The screen shown last is kept, and shown again
without a question to the provider. -/
def screenAt (p : Provider σ) (n : UInt16) : Operation StaticReview σ (List Pair) := do
  let r ← Operation.machine
  if r.finished then throw .invalidState
  let pairs ← match r.shown with
    | some (m, pairs) => if m = n then pure pairs else renderScreen p n
    | none => renderScreen p n
  Operation.modifyMachine fun r =>
    { r with shown := some (n, pairs), reached := some (max (r.reached.getD n) n) }
  return pairs

def isComplete (p : Provider σ) : Operation StaticReview σ Bool := do
  match ← (totalScreens p).attempt with
  | .error _ => return false
  | .ok screens =>
    if screens = 0 then return true
    match (← Operation.machine).reached with
    | none => return false
    | some reached => return screens ≤ (← Checked.add16 reached 1)

/-- End the review and tell the provider, once; approval only if the last screen has been shown.
Answers whether it ended now. -/
def finish (p : Provider σ) (approved : Bool) : Operation StaticReview σ Bool := do
  if (← Operation.machine).finished then return false
  let allowed ← if approved then isComplete p else pure true
  if !allowed then return false
  Operation.modifyMachine fun r => { r with finished := true, shown := none, field := r.field.wipe }
  Operation.conclude p (if approved then .accepted else .rejected)
  return true

end StaticReview
end WalletReview
