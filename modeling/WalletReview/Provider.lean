import WalletReview.Error
import WalletReview.Field
import WalletReview.Journal

/-! Providers of content: the questions that a review asks, and a record of them with their answers.
A provider of state `σ` may answer the same question differently each time. -/
namespace WalletReview

inductive Outcome
  | accepted
  | rejected
  /-- The user has acknowledged an error. -/
  | error
  deriving DecidableEq, Inhabited

def Outcome.name : Outcome → String
  | accepted => "Accepted"
  | rejected => "Rejected"
  | error => "Error"

/-- What a provider answers, and the state that it is left in. Indices count the provider's own
items from zero. A question for a page also gives the field to write on; what was written stays,
even if the answer is an error. -/
structure Provider (σ : Type) where
  itemCount : σ → Except Error UInt8 × σ
  /-- Write a page of an item and answer how many pages it has, also if the page is beyond. -/
  item : (index page : UInt8) → Field → σ → Except Error UInt8 × Field × σ
  /-- Write a title of the review. -/
  title : Field → σ → Except Error Unit × Field × σ := fun f st => (.error .noData, f, st)
  /-- The number of children of the item or child at the end of a path. -/
  childCount : List UInt8 → σ → Except Error UInt8 × σ := fun _ st => (.error .noData, st)
  child : List UInt8 → (child page : UInt8) → Field → σ → Except Error UInt8 × Field × σ :=
    fun _ _ _ f st => (.error .noData, f, st)
  /-- Whether a child of what is at the end of a path can be inspected; of items, for no path. -/
  canInspect : List UInt8 → UInt8 → σ → Bool × σ := fun _ _ st => (false, st)
  conclude : Outcome → σ → σ := fun _ st => st
  /-- What the journal is to say of the end of a review. -/
  remarks : Outcome → List Notice := fun _ => []

inductive Query
  | itemCount
  | item (index page : UInt8)
  | title
  | childCount (path : List UInt8)
  | child (path : List UInt8) (child page : UInt8)
  | canInspect (path : List UInt8) (child : UInt8)
  | conclude (outcome : Outcome)
  deriving DecidableEq

inductive Answer
  | count (reply : Except Error UInt8)
  | title (reply : Except Error Unit)
  | flag (reply : Bool)
  | done

structure Exchange where
  query : Query
  answer : Answer

/-- The state of a provider together with the exchanges so far, the latest first. -/
structure Recorded (σ : Type) where
  content : σ
  exchanges : List Exchange := []

namespace Recorded

variable {σ : Type}

def queries (r : Recorded σ) : List Query := r.exchanges.reverse.map (·.query)

def forget (r : Recorded σ) : Recorded σ := { r with exchanges := [] }

end Recorded

/-- The provider that answers as `p` does and records every exchange. -/
def Provider.recorded {σ : Type} (p : Provider σ) : Provider (Recorded σ) where
  itemCount r :=
    let (reply, content) := p.itemCount r.content
    (reply, ⟨content, ⟨.itemCount, .count reply⟩ :: r.exchanges⟩)
  item index page f r :=
    let (reply, f, content) := p.item index page f r.content
    (reply, f, ⟨content, ⟨.item index page, .count reply⟩ :: r.exchanges⟩)
  title f r :=
    let (reply, f, content) := p.title f r.content
    (reply, f, ⟨content, ⟨.title, .title reply⟩ :: r.exchanges⟩)
  childCount path r :=
    let (reply, content) := p.childCount path r.content
    (reply, ⟨content, ⟨.childCount path, .count reply⟩ :: r.exchanges⟩)
  child path child page f r :=
    let (reply, f, content) := p.child path child page f r.content
    (reply, f, ⟨content, ⟨.child path child page, .count reply⟩ :: r.exchanges⟩)
  canInspect path child r :=
    let (reply, content) := p.canInspect path child r.content
    (reply, ⟨content, ⟨.canInspect path child, .flag reply⟩ :: r.exchanges⟩)
  conclude outcome r := ⟨p.conclude outcome r.content, ⟨.conclude outcome, .done⟩ :: r.exchanges⟩
  remarks := p.remarks

end WalletReview
