import WalletReview.Checked

/-! A cursor over a list of paged items. -/
namespace WalletReview

structure Cursor where
  item : UInt8 := 0
  itemCount : UInt8 := 0
  page : UInt8 := 0
  pageCount : UInt8 := 0
  deriving DecidableEq, Inhabited

namespace Cursor

/-- Stands for the last page of an item until its page count is known. -/
def lastPage : UInt8 := 0xFF

def start (itemCount : UInt8) : Cursor := ⟨0, itemCount, 0, 1⟩

def hasNextPage (c : Cursor) : Bool := c.page.toNat + 1 < c.pageCount.toNat

def hasNextItem (c : Cursor) (extra : UInt8) : Bool :=
  c.item.toNat + 1 < c.itemCount.toNat + extra.toNat

/-- Whether there is a next page, or a next item where `extra` more follow the last. -/
def canAdvance (c : Cursor) (extra : UInt8) : Bool := c.hasNextPage || c.hasNextItem extra

def advance (c : Cursor) (extra : UInt8) : Checked Cursor := do
  if c.hasNextPage then
    let page ← Checked.add8 c.page 1
    return { c with page }
  else if c.hasNextItem extra then
    let item ← Checked.add8 c.item 1
    return { c with item, page := 0 }
  else
    return c

def canRetreat (c : Cursor) : Bool := c.page != 0 || 0 < c.item

/-- The page before, else the last page of the item before; that page is only marked, to be clamped
once the page count is known. -/
def retreat (c : Cursor) : Cursor :=
  if h : 1 ≤ c.page then { c with page := diff8 c.page 1 h }
  else if h : 1 ≤ c.item then { c with item := diff8 c.item 1 h, page := lastPage }
  else c

/-- The cursor with a page count, on the last page if it was beyond; whether it was. -/
def clamp (c : Cursor) (pageCount : UInt8) : Cursor × Bool :=
  if h : 1 ≤ pageCount then
    if pageCount ≤ c.page then ({ c with pageCount, page := diff8 pageCount 1 h }, true)
    else ({ c with pageCount }, false)
  else ({ c with pageCount }, false)

def isLastPage (c : Cursor) : Checked Bool := do
  if c.pageCount = 0 then return true
  let next ← Checked.add8 c.page 1
  return c.pageCount ≤ next

end Cursor
end WalletReview
