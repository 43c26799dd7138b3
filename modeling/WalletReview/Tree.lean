/-! Values with children below them, and paths of child indices that lead to them. -/
namespace WalletReview

inductive Tree (α : Type)
  | node (value : α) (children : List (Tree α))

namespace Tree

variable {α β : Type}

def value : Tree α → α
  | node value _ => value

def children : Tree α → List (Tree α)
  | node _ children => children

def leaf (value : α) : Tree α := node value []

/-- The tree at the end of a path through a list of trees, none at the end of the empty path. -/
def find? : List UInt8 → List (Tree α) → Option (Tree α)
  | [], _ => none
  | [i], trees => trees[i.toNat]?
  | i :: rest, trees =>
    match trees[i.toNat]? with
    | some tree => find? rest tree.children
    | none => none

def childBelow? (path : List UInt8) (child : UInt8) (trees : List (Tree α)) : Option (Tree α) :=
  (find? path trees).bind (·.children[child.toNat]?)

/-- Visit the tree at the end of a path: an answer, and the trees with the visited one replaced. -/
def visit (f : Tree α → β × Tree α) : List UInt8 → List (Tree α) → Option β × List (Tree α)
  | [], trees => (none, trees)
  | [i], trees =>
    match trees[i.toNat]? with
    | some tree =>
      let (answer, tree) := f tree
      (some answer, trees.set i.toNat tree)
    | none => (none, trees)
  | i :: rest, trees =>
    match trees[i.toNat]? with
    | some (node value children) =>
      let (answer, children) := visit f rest children
      (answer, trees.set i.toNat (node value children))
    | none => (none, trees)

end Tree
end WalletReview
