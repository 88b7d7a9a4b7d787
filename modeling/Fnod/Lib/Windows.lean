import Fnod.Lib.BlockTree

/-!
# Averages over the windows before a node

A walk back from a node of a tree that stays at the root once it is there, and the average of one
number for each window of the walk, where each window weighs less than the one after it: window
`j` of `n` has the weight `2 ^ ((n - j) * α)`.
-/

namespace Windows

variable {β : Type*}

/-- The node that such a walk gets to. -/
def back (node : List β) (i : Nat) : List β := node.drop (min i (node.length - 1))

def weight (windows alpha j : Nat) : Int := 2 ^ ((windows - j) * alpha)

/-- The weighted average of the numbers of the windows, rounded down. -/
def average (windows alpha : Nat) (change : Nat → Int) : Int :=
  ((List.range windows).map fun j => change j * weight windows alpha j).sum /
    ((List.range windows).map (weight windows alpha)).sum

end Windows
