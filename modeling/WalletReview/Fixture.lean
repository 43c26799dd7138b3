import WalletReview.Provider
import WalletReview.Tree

/-! A provider of made-up items for trying a review out: each has a number of pages, and says on
every page which item and page it is. -/
namespace WalletReview

abbrev Fixture.Item := Tree UInt8

structure Fixture where
  items : List Fixture.Item
  title : Option (String × String) := none
  /-- The item at which every question fails. -/
  failAt : Option UInt8 := none
  accepted : Nat := 0
  rejected : Nat := 0
  errors : Nat := 0

namespace Fixture

/-- An item from which one can go down `depth` levels. -/
def chain : (depth : Nat) → Item
  | 0 => .leaf 1
  | depth + 1 => .node 1 [chain depth, .leaf 1]

def ofPages (pages : List UInt8) : Fixture := { items := pages.map .leaf }

def itemKey (index : UInt8) : String := "Item " ++ Wording.byte index

def pageValue (index page : UInt8) : String := Wording.byte index ++ "." ++ Wording.byte page

def childKey (path : List UInt8) (child : UInt8) : String :=
  "Child " ++ Wording.bytes path ++ "/" ++ Wording.byte child

/-- A page of an item under a key; beyond the last page the value is not written. -/
def writePage (key : String) (index page pages : UInt8) (f : Field) : Field :=
  let f := f.setKey key
  if page < pages then f.setValue (pageValue index page) else f

/-- The provider of a fixture. Lengths of lists are taken modulo 256. -/
def provider : Provider Fixture where
  itemCount x := (.ok x.items.length.toUInt8, x)
  item index page f x :=
    if x.failAt = some index then (.error .unknown, f, x)
    else match x.items[index.toNat]? with
      | some item => (.ok item.value, writePage (itemKey index) index page item.value f, x)
      | none => (.error .noData, f, x)
  title f x :=
    match x.title with
    | some (key, value) => (.ok (), (f.setKey key).setValue value, x)
    | none => (.error .noData, f, x)
  childCount path x :=
    match Tree.find? path x.items with
    | some item => (.ok item.children.length.toUInt8, x)
    | none => (.error .noData, x)
  child path child page f x :=
    match Tree.childBelow? path child x.items with
    | some item => (.ok item.value, writePage (childKey path child) child page item.value f, x)
    | none => (.error .noData, f, x)
  canInspect path child x :=
    match Tree.find? (path ++ [child]) x.items with
    | some item => (!item.children.isEmpty, x)
    | none => (false, x)
  conclude
    | .accepted, x => { x with accepted := x.accepted + 1 }
    | .rejected, x => { x with rejected := x.rejected + 1 }
    | .error, x => { x with errors := x.errors + 1 }

def layouts : List (List UInt8) :=
  [[1], [2, 0, 1], [1, 2, 1], [3, 3, 3], [0, 1, 0, 2], [5, 1, 0, 0, 4], [1, 1, 1, 1, 1, 1, 1, 1],
    [0, 0, 3, 0]]

/-- Nested items, the path `[2, 1, 0]` among them. -/
def nested : List Item :=
  [.leaf 1, .leaf 2,
    .node 1 [.leaf 2, .node 1 [.node 1 [.leaf 1, .leaf 3], .leaf 0, .leaf 1], .leaf 1],
    .leaf 1]

end Fixture
end WalletReview
