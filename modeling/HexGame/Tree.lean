/-!
# Trees

Finitely branching trees with ordered children. Functions on a tree come in pairs, one for a tree and
one for a list of trees.
-/
namespace HexGame

inductive Tree (α : Type) where
  | node (value : α) (children : List (Tree α))

namespace Tree

variable {α : Type}

def value : Tree α → α
  | node value _ => value

def children : Tree α → List (Tree α)
  | node _ children => children

def leaf (value : α) : Tree α := node value []

def isLeaf (t : Tree α) : Bool := t.children.isEmpty

mutual

def size : Tree α → Nat
  | node _ children => 1 + sizes children

def sizes : List (Tree α) → Nat
  | [] => 0
  | t :: ts => size t + sizes ts

end

mutual

/-- Every subtree with its depth, parents before children and children in order. -/
def walkAt (depth : Nat) : Tree α → List (Tree α × Nat)
  | node value children => (node value children, depth) :: walkAllAt (depth + 1) children

/-- The walks of all trees of a list, one after the other. -/
def walkAllAt (depth : Nat) : List (Tree α) → List (Tree α × Nat)
  | [] => []
  | t :: ts => walkAt depth t ++ walkAllAt depth ts

end

def walk (t : Tree α) : List (Tree α × Nat) := walkAt 0 t

/-- The subtree reached by child indices from the root. -/
def subtree? (t : Tree α) : List Nat → Option (Tree α)
  | [] => some t
  | i :: path =>
    match t.children[i]? with
    | none => none
    | some child => child.subtree? path

end Tree
end HexGame
