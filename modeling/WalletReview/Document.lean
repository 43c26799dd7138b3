import WalletReview.Provider
import WalletReview.Tree

/-! Documents under review: items of key, value and nested children, and the provider that shows
them. -/
namespace WalletReview

namespace Document

structure Entry where
  key : String
  value : String
  deriving DecidableEq

abbrev Item := Tree Entry

end Document

structure Document where
  title : Option (String × String)
  items : List Document.Item

namespace Document

/-- A count that has to fit a byte. -/
def countReply (n : Nat) : Except Error UInt8 :=
  if n < 256 then .ok (.ofNat n) else .error .outOfBounds

def writeItem (item? : Option Item) (page : UInt8) (f : Field) : Except Error UInt8 × Field :=
  match item? with
  | some item =>
    let (f, pages) := f.setPage item.value.key item.value.value page
    (.ok pages, f)
  | none => (.error .noData, f)

structure Reading where
  document : Document
  outcome : Option Outcome := none

def provider : Provider Reading where
  itemCount r := (countReply r.document.items.length, r)
  item index page f r :=
    let (reply, f) := writeItem r.document.items[index.toNat]? page f
    (reply, f, r)
  title f r :=
    match r.document.title with
    | some (key, value) => (.ok (), (f.setKey key).setValue value, r)
    | none => (.error .noData, f, r)
  childCount path r :=
    match Tree.find? path r.document.items with
    | some item => (countReply item.children.length, r)
    | none => (.error .noData, r)
  child path child page f r :=
    let (reply, f) := writeItem (Tree.childBelow? path child r.document.items) page f
    (reply, f, r)
  canInspect path child r :=
    match Tree.find? (path ++ [child]) r.document.items with
    | some item => (!item.children.isEmpty, r)
    | none => (false, r)
  conclude outcome r := { r with outcome := some outcome }
  remarks
    | .accepted => [.remark .info "review accepted"]
    | .rejected => [.remark .info "review rejected"]
    | .error => [.remark .debug "error acknowledged"]

end Document
end WalletReview
