import WalletReview.Engine.Decide

/-! Inspecting nested fields: into the item on screen, up and down its levels, and along the
children at one level. -/
namespace WalletReview

namespace Inspection

variable {μ σ : Type}

/-- Whether the provider allows to go down into a child, there being a level left. -/
def canDescend (p : Provider σ) (i : Inspection) (child : UInt8) : Operation μ σ Bool := do
  if maxDepth ≤ i.depth.toNat then return false
  let path ← i.trace
  Operation.ask (p.canInspect path child)

def descend (p : Provider σ) (i : Inspection) (child : UInt8) : Operation μ σ Inspection := do
  if maxDepth ≤ i.depth.toNat then throw .maxDepth
  let path ← i.trace
  if ← Operation.ask (p.canInspect path child) then i.enter child else throw .notInspectable

end Inspection

namespace Engine

variable {σ : Type}

def Loader.enterInspect (L : Loader σ) (p : Provider σ) : Operation Engine σ Output := do
  let e ← Operation.machine
  if e.state ≠ .review then throw .invalidState
  let s ← getSession
  match s.itemIndex? with
  | none => throw .invalidState
  | some index =>
    if ← Operation.ask (p.canInspect [] index) then
      Operation.note (.inspecting index)
      setInspection (.start index e.config.inspectLayout)
      setState .inspect
      let _ ← L.child .forward
      return .redraw
    else throw .notInspectable

def enterInspect (p : Provider σ) : Operation Engine σ Output := (loader p).enterInspect p

def canDescend (p : Provider σ) : Operation Engine σ Bool := do
  match (← Operation.machine).session.bind (·.inspection) with
  | none => return false
  | some i =>
    match i.childIndex with
    | none => return false
    | some child => i.canDescend p child

def Loader.descend (L : Loader σ) (p : Provider σ) : Operation Engine σ Output := do
  if (← Operation.machine).state ≠ .inspect then throw .invalidState
  let i ← getInspection
  match i.childIndex with
  | none => throw .invalidState
  | some child =>
    let i ← i.descend p child
    setInspection i
    Operation.note (.descended (← i.trace))
    let _ ← L.child .forward
    return .redraw

def descend (p : Provider σ) : Operation Engine σ Output := (loader p).descend p

def Loader.exitToRoot (L : Loader σ) : Operation Engine σ Output := do
  if (← Operation.machine).state ≠ .inspect then throw .invalidState
  let s ← getSession
  let i ← getInspection
  Operation.note (.returned i.root)
  let item ← Checked.add8 s.leading i.root
  setSession { s with inspection := none, cursor := { s.cursor with item, page := 0 } }
  setState .review
  let _ ← L.top .forward
  return .redraw

def exitToRoot (p : Provider σ) : Operation Engine σ Output := (loader p).exitToRoot

/-- Leave the current level, from the first levels towards the item that was inspected. -/
def Loader.exitLevel (L : Loader σ) : Operation Engine σ Output := do
  if (← Operation.machine).state ≠ .inspect then throw .invalidState
  let i ← getInspection
  match ← i.ascend with
  | none => L.exitToRoot
  | some i =>
    setInspection i
    Operation.note (.ascended (← i.trace))
    let _ ← L.child .forward
    return .redraw

def exitLevel (p : Provider σ) : Operation Engine σ Output := (loader p).exitLevel

def stepped (c : Cursor) (extra : UInt8) : Direction → Checked (Option Cursor)
  | .forward => if c.canAdvance extra then some <$> c.advance extra else pure none
  | .backward => pure (if c.canRetreat then some c.retreat else none)

/-- Move the inspection cursor one step; it stays if no screen is left in that direction. -/
def Loader.inspectStep (L : Loader σ) (dir : Direction) : Operation Engine σ Output := do
  let i ← getInspection
  match ← stepped i.cursor 0 dir with
  | none => return .none
  | some cursor =>
    setInspection { i with cursor }
    if ← L.child dir then return .redraw
    setInspection { (← getInspection) with cursor := i.cursor }
    let _ ← L.child .forward
    return .none

def inspectStep (p : Provider σ) (dir : Direction) : Operation Engine σ Output :=
  (loader p).inspectStep dir

end Engine
end WalletReview
