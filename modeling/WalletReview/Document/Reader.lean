import WalletReview.Document
import WalletReview.Json.Record

/-! Documents read from JSON. Of a field only the key is needed; value and children may be left out,
and so may the title of the document. -/
namespace WalletReview.Document

open Json

structure Item.Draft where
  key : Option String := none
  value : Option String := none
  children : Option (List Item) := none

def Item.Draft.build (d : Item.Draft) : Option Item := do
  return .node ⟨← d.key, d.value.getD ""⟩ (d.children.getD [])

/-- The fields of an item in their order, with a reader for the list of its children. -/
def Item.members (children : Reader (List Item)) : List (Reader.Member Item.Draft) :=
  [⟨"key", (·.key.isSome), do
      let s ← Reader.text
      return ({ · with key := some s })⟩,
    ⟨"value", (·.value.isSome), do
      let s ← Reader.text
      return ({ · with value := some s })⟩,
    ⟨"children", (·.children.isSome), do
      let items ← children
      return ({ · with children := some items })⟩]

/-- An item, where `depth` more brackets are refused; its own bracket and that of its children are
two of them. -/
def Item.reader : (depth : Nat) → Reader Item
  | depth + 2 =>
    Reader.record (depth + 2) (members (Reader.list (depth + 1) (Item.reader depth))) {} Draft.build
  | depth => Reader.record depth (members (throw .malformed)) {} Draft.build

structure Draft where
  title : Option (Option (String × String)) := none
  items : Option (List Item) := none

def Draft.build (d : Draft) : Option Document := do
  return ⟨d.title.join, ← d.items⟩

def members (depth : Nat) : List (Reader.Member Draft) :=
  [⟨"title", (·.title.isSome), do
      let title ← Reader.optional (Reader.pair depth Reader.text)
      return ({ · with title := some title })⟩,
    ⟨"items", (·.items.isSome), do
      let items ← Reader.list depth (Item.reader (depth - 1))
      return ({ · with items := some items })⟩]

def reader : Reader Document :=
  Reader.record Reader.depthLimit (members (Reader.depthLimit - 1)) {} Draft.build

def parse (s : String) : Except Refusal Document := Reader.whole reader s

end WalletReview.Document
