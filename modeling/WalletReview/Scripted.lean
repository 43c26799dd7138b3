import WalletReview.Provider
import WalletReview.Tree

/-! Providers that answer as they are told: from lists of replies, which may change from one
question to the next and may be errors, or from a flat list of pairs. -/
namespace WalletReview

/-- Replies to the same question in turn; the last is given from then on. -/
structure Replies where
  first : Except Error UInt8
  rest : List (Except Error UInt8)

namespace Replies

def always (n : UInt8) : Replies := ⟨.ok n, []⟩

def take (r : Replies) : Except Error UInt8 × Replies :=
  match r.rest with
  | [] => (r.first, r)
  | second :: rest => (r.first, ⟨second, rest⟩)

end Replies

structure Script.Entry where
  key : String
  pages : Replies
  values : List String
  /-- The answer to how many children there are, if not the number of children. -/
  count : Option Replies
  /-- The answer whether it can be inspected, if not whether there are children. -/
  inspect : Option Bool

abbrev Script.Node := Tree Script.Entry

inductive Script.Title
  | text (key value : String)
  /-- A key is written before the question fails. -/
  | refused (cause : Error)

structure Script where
  count : Option Replies
  title : Option Script.Title
  items : List Script.Node

namespace Script

def inspectable (node : Node) : Bool := node.value.inspect.getD (!node.children.isEmpty)

def countReply (node : Node) : Except Error UInt8 × Node :=
  match node.value.count with
  | some count =>
    let (reply, count) := count.take
    (reply, .node { node.value with count := some count } node.children)
  | none => (.ok node.children.length.toUInt8, node)

def writePage (page : UInt8) (f : Field) (node : Node) : (Except Error UInt8 × Field) × Node :=
  let f := f.setKey node.value.key
  let f := match node.value.values[page.toNat]? with
    | some value => f.setValue value
    | none => f
  let (reply, pages) := node.value.pages.take
  ((reply, f), .node { node.value with pages } node.children)

def ask {α : Type} (question : Node → α × Node) (path : List UInt8) (x : Script) :
    Option α × Script :=
  let (answer, items) := Tree.visit question path x.items
  (answer, { x with items })

def askPage (path : List UInt8) (page : UInt8) (f : Field) (x : Script) :
    Except Error UInt8 × Field × Script :=
  match x.ask (writePage page f) path with
  | (some (reply, f), x) => (reply, f, x)
  | (none, x) => (.error .noData, f, x)

def provider : Provider Script where
  itemCount x :=
    match x.count with
    | some count =>
      let (reply, count) := count.take
      (reply, { x with count := some count })
    | none => (.ok x.items.length.toUInt8, x)
  item index page f x := x.askPage [index] page f
  title f x :=
    match x.title with
    | some (.text key value) => (.ok (), (f.setKey key).setValue value, x)
    | some (.refused cause) => (.error cause, f.setKey "partial", x)
    | none => (.error .noData, f, x)
  childCount path x :=
    match x.ask countReply path with
    | (some reply, x) => (reply, x)
    | (none, x) => (.error .noData, x)
  child path child page f x := x.askPage (path ++ [child]) page f
  canInspect path child x :=
    match x.ask (fun node => (inspectable node, node)) (path ++ [child]) with
    | (some answer, x) => (answer, x)
    | (none, x) => (false, x)

end Script

abbrev Listing := List (String × String)

namespace Listing

def provider : Provider Listing where
  itemCount x := (.ok x.length.toUInt8, x)
  item index page f x :=
    match x[index.toNat]? with
    | some (key, value) =>
      let (f, pages) := f.setPage key value page
      (.ok pages, f, x)
    | none => (.error .noData, f, x)

/-- A listing where every field seems open to inspection, but has no children to give. -/
def openProvider : Provider Listing := { provider with canInspect := fun _ _ x => (true, x) }

/-- A listing where every field seems to have two children, but gives none. -/
def countedProvider : Provider Listing :=
  { openProvider with childCount := fun _ x => (.ok 2, x) }

end Listing
end WalletReview
