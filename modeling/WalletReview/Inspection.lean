import WalletReview.Config
import WalletReview.Cursor

/-! The inspection of nested fields: a path from an item down to some parent, and a cursor over the
children of that parent. The path is kept in an array whose slots below the current depth are zero.
-/
namespace WalletReview

abbrev maxDepth : Nat := 10

structure Inspection where
  /-- Levels below the inspected item. -/
  depth : UInt8
  /-- The inspected item, then the child chosen at each level. -/
  path : Vector UInt8 (maxDepth + 1)
  cursor : Cursor
  layout : InspectLayout
  deriving DecidableEq

namespace Inspection

def start (item : UInt8) (layout : InspectLayout) : Inspection :=
  ⟨0, (Vector.replicate _ 0).set 0 item, .start 0, layout⟩

def root (i : Inspection) : UInt8 := i.path[0]

def trace (i : Inspection) : Checked (List UInt8) :=
  if i.depth.toNat ≤ maxDepth then .ok (i.path.toList.take (i.depth.toNat + 1))
  else .error .outOfRange

/-- The inspection with `count` children at the current level, as far as they can be numbered. -/
def setChildCount (i : Inspection) (count : UInt8) : Inspection :=
  let extra := i.layout.extra
  let itemCount := .ofNat (min count.toNat (255 - extra.toNat) + extra.toNat)
  { i with cursor := { i.cursor with itemCount } }

def childCount (i : Inspection) : UInt8 :=
  .ofNat (i.cursor.itemCount.toNat - i.layout.extra.toNat)

def isGoToRoot (i : Inspection) : Bool := i.layout == .bracketed && i.cursor.item == 0

def isBack (i : Inspection) : Bool :=
  if h : 1 ≤ i.cursor.itemCount then
    i.layout == .bracketed && i.cursor.item == diff8 i.cursor.itemCount 1 h
  else false

/-- The child under the cursor; none on the screens that lead to the root or back. -/
def childIndex (i : Inspection) : Option UInt8 :=
  match i.layout with
  | .native => if i.cursor.item < i.cursor.itemCount then some i.cursor.item else none
  | .bracketed =>
    if i.isBack then none
    else if h : 1 ≤ i.cursor.item then some (diff8 i.cursor.item 1 h) else none

def enter (i : Inspection) (child : UInt8) : Checked Inspection := do
  let depth ← Checked.add8 i.depth 1
  if h : depth.toNat < maxDepth + 1 then
    return { i with depth, path := i.path.set depth.toNat child, cursor := .start 0 }
  else throw .outOfRange

/-- One level up, onto the child that was entered; none at the levels from which the way leads to
the root. -/
def ascend (i : Inspection) : Checked (Option Inspection) := do
  if i.depth ≤ 1 then return none
  if h : i.depth.toNat < maxDepth + 1 then
    let child := i.path[i.depth.toNat]
    let depth ← Checked.sub8 i.depth 1
    let item ← match i.layout with
      | .bracketed => Checked.add8 child 1
      | .native => pure child
    return some
      { i with depth, path := i.path.set i.depth.toNat 0, cursor := { Cursor.start 0 with item } }
  else throw .outOfRange

end Inspection
end WalletReview
