import Fnod.Lib.NodeMem
import Fnod.Lib.StaticStack
import Fnod.Stake.TicketTreap

/-!
# Package `tickettreap`: the nodes

`Put` and `Delete` of an immutable treap copy the nodes on the way to the key, link the copies and
rotate them. Here they are programs that work on nodes in memory, with the stack of parents that the
code uses. `Immutable` of `TicketTreap` has the trees that these nodes make up.

That they return, write to no node that was there before, and lead to the trees of `Tree.put` and
`Tree.delete` is proved in the modules on refinement and deletion.
-/

namespace Fnod

open OrdMap Treap NodeMem StaticStack

/-- The fields of `treapNode` besides its children. -/
structure TreapNode where
  key : Hash
  value : TicketValue
  priority : Nat
  /-- The number of nodes of the subtree, as an `uint32`. -/
  size : UInt32

abbrev Nodes := Mem TreapNode

def staticDepth : Nat := 128

abbrev ParentStack := Stack staticDepth Nat

/-- `Immutable`, with its nodes in memory. -/
structure NodeTreap where
  root : Ptr
  count : Nat
  totalSize : UInt64

namespace NodeTreap

variable (n : Node TreapNode) (m : Nodes) (t : NodeTreap) (key : Hash) (value : TicketValue)
  (parents : ParentStack)

def newTreapNode (priority : Nat) : Node TreapNode :=
  ⟨⟨key, value, priority, 1⟩, none, none⟩

/-- `nodeSize`, in bytes. -/
def nodeBytes : UInt64 := UInt64.ofNat nodeSize

/-- `leftSize` and `rightSize`, of a child. -/
def childSize : Ptr → Option UInt32
  | none => some 0
  | some a => (m.cells a).map fun n => n.data.size

/-- The node that was copied is a child of the topmost copy, if there is one, and is replaced by its
own copy. -/
def linkCopy (node nodeCopy : Nat) : Nodes :=
  match parents.item 0 with
  | none => m
  | some oldParent => m.relink oldParent node nodeCopy

/-- Either the new node is the root, when there is no parent, or the parent is linked to it. -/
def replaceChild (parent : Ptr) (old new : Nat) (newRoot : Ptr) : Nodes × Ptr :=
  match parent with
  | none => (m, some new)
  | some parent => (m.relink parent old new, newRoot)

/-- The node grows by so many entries. -/
def addSize (by' : UInt32) : Node TreapNode :=
  { n with data.size := n.data.size + by' }

/-- The node shrinks by so many entries. -/
def subSize (by' : UInt32) : Node TreapNode :=
  { n with data.size := n.data.size - by' }

/-! ## `Put` -/

/-- How the walk of `Put` ends: at the key, or at the place where it is missing. -/
inductive PutWalk where
  | found (m : Nodes) (newRoot : Ptr)
  | missing (m : Nodes) (parents : ParentStack) (less : Bool)

/-- The walk of `Put`: the nodes on the way are copied. -/
def putWalk : Nat → Nodes → Ptr → ParentStack → Bool → Option PutWalk
  | _, m, none, parents, less => some (.missing m parents less)
  | 0, _, some _, _, _ => none
  | fuel + 1, m, some node, parents, _ => do
    let n ← m.cells node
    let (m, nodeCopy) := m.alloc n
    let m := linkCopy m parents node nodeCopy
    let parents := parents.push nodeCopy
    if key < n.data.key then putWalk fuel m n.left parents true
    else if n.data.key < key then putWalk fuel m n.right parents false
    else
      let m := m.modify nodeCopy fun n => { n with data.value := value }
      some (.found m (parents.item ((parents.len : Int) - 1)))

/-- The parents count the new node. -/
def growParents : Option Nodes :=
  (List.range parents.len).foldlM (fun m (i : Nat) => do
    let parent ← parents.item i
    some (m.modify parent (addSize · 1))) m

/-- The node is rotated above its parent. -/
def rotate (node parent : Nat) (n p : Node TreapNode) : Option Nodes :=
  if p.left = some node then do
    let rightSize ← childSize m p.right
    let m := m.modify node (addSize · (1 + rightSize))
    let leftSize ← childSize m n.left
    let m := m.modify parent (subSize · (1 + leftSize))
    some ((m.modify node fun n => { n with right := some parent }).modify parent
      fun p => { p with left := n.right })
  else do
    let leftSize ← childSize m p.left
    let m := m.modify node (addSize · (1 + leftSize))
    let rightSize ← childSize m n.right
    let m := m.modify parent (subSize · (1 + rightSize))
    some ((m.modify node fun n => { n with left := some parent }).modify parent
      fun p => { p with right := n.left })

/-- The rotations of `Put`. The loop has as many turns as there are parents. -/
def putRotate (node : Nat) : Nat → Nodes → ParentStack → Ptr → Option (Nodes × Ptr)
  | 0, m, _, newRoot => some (m, newRoot)
  | turns + 1, m, parents, newRoot => do
    let (top, parents) := parents.pop
    let parent ← top
    let n ← m.cells node
    let p ← m.cells parent
    if n.data.priority ≥ p.data.priority then some (m, newRoot)
    else do
      let m ← rotate m node parent n p
      let (m, newRoot) := replaceChild m (parents.item 0) parent node newRoot
      putRotate node turns m parents newRoot

/-- The rest of `Put`: a missing key gets a new node, which is rotated up. -/
def finishPut : PutWalk → Option (Nodes × NodeTreap)
  | .found m newRoot => some (m, ⟨newRoot, t.count, t.totalSize⟩)
  | .missing m parents less => do
    let (m, node) := m.alloc (newTreapNode key value value.height)
    let m ← growParents m parents
    let parent ← parents.item 0
    let m := m.modify parent fun n =>
      if less then { n with left := some node } else { n with right := some node }
    let (m, newRoot) ← putRotate node parents.len m parents (parents.item ((parents.len : Int) - 1))
    some (m, ⟨newRoot, t.count + 1, t.totalSize + nodeBytes⟩)

/-- `Put`. The walk takes at most as many steps as there are entries. -/
def put (value : Option TicketValue) : Option (Nodes × NodeTreap) :=
  match value, t.root with
  | none, _ => some (m, t)
  | some value, none =>
    let (m, root) := m.alloc (newTreapNode key value value.height)
    some (m, ⟨some root, 1, nodeBytes⟩)
  | some value, some root => do
    let walked ← putWalk key value t.count m (some root) .empty false
    finishPut t key value walked

/-! ## `Delete` -/

/-- The walk of `Delete`, with the node that has the key, if there is one. -/
def deleteWalk : Nat → Nodes → Ptr → ParentStack → Option (ParentStack × Ptr)
  | _, _, none, parents => some (parents, none)
  | 0, _, some _, _ => none
  | fuel + 1, m, some node, parents => do
    let n ← m.cells node
    let parents := parents.push node
    if key < n.data.key then deleteWalk fuel m n.left parents
    else if n.data.key < key then deleteWalk fuel m n.right parents
    else some (parents, some node)

/-- The parents and the node itself are copied, from the root on; the copies count one entry less.
-/
def cloneParents : Nat → Nodes → ParentStack → Option (Nodes × ParentStack)
  | 0, m, newParents => some (m, newParents)
  | i + 1, m, newParents => do
    let node ← parents.item i
    let n ← m.cells node
    let (m, nodeCopy) := m.alloc (subSize n 1)
    let m := linkCopy m newParents node nodeCopy
    cloneParents i m (newParents.push nodeCopy)

/-- The child that is rotated up, and whether it is the left one. -/
def chooseChild (d : Node TreapNode) : Option (Nat × Bool) :=
  match d.left, d.right with
  | none, none => none
  | none, some r => some (r, false)
  | some l, none => some (l, true)
  | some l, some r => do
    let left ← m.cells l
    let right ← m.cells r
    some (if left.data.priority ≤ right.data.priority then (l, true) else (r, false))

/-- The copy of the child is rotated above the node that is deleted. -/
def rotateDown (delNode child : Nat) (d c : Node TreapNode) (isLeft : Bool) : Option Nodes :=
  if isLeft then do
    let rightSize ← childSize m d.right
    let m := m.modify child (addSize · rightSize)
    some ((m.modify child fun c => { c with right := some delNode }).modify delNode
      fun d => { d with left := c.right })
  else do
    let leftSize ← childSize m d.left
    let m := m.modify child (addSize · leftSize)
    some ((m.modify child fun c => { c with left := some delNode }).modify delNode
      fun d => { d with right := c.left })

/-- The rotations of `Delete`: the node is moved down to a leaf position. Each turn leaves a subtree
behind, so there are at most as many turns as entries. -/
def sink (delNode : Nat) : Nat → Nodes → Ptr → Ptr → Option (Nodes × Ptr × Ptr)
  | turns, m, parent, newRoot => do
    let d ← m.cells delNode
    if d.left = none ∧ d.right = none then some (m, parent, newRoot)
    else
      match turns with
      | 0 => none
      | turns + 1 => do
        let (child, isLeft) ← chooseChild m d
        let c ← m.cells child
        let (m, child) := m.alloc c
        let m ← rotateDown m delNode child d c isLeft
        let (m, newRoot) := replaceChild m parent delNode child newRoot
        sink delNode turns m (some child) newRoot

def delete : Option (Nodes × NodeTreap) := do
  let (parents, delNode) ← deleteWalk key t.count m t.root .empty
  match delNode with
  | none => some (m, t)
  | some delNode => do
    let d ← m.cells delNode
    if parents.item 1 = none ∧ d.left = none ∧ d.right = none then some (m, ⟨none, 0, 0⟩)
    else do
      let (m, newParents) ← cloneParents parents parents.len m .empty
      let (top, newParents) := newParents.pop
      let delNode ← top
      let (m, parent, newRoot) ← sink delNode t.count m (newParents.item 0)
        (newParents.item ((newParents.len : Int) - 1))
      let parent ← parent
      let m := m.modify parent fun n =>
        if n.right = some delNode then { n with right := none } else { n with left := none }
      some (m, ⟨newRoot, t.count - 1, t.totalSize - nodeBytes⟩)

/-! ## Access -/

/-- `get`. -/
def getNode : Nat → Nodes → Ptr → Option (Option (Node TreapNode))
  | _, _, none => some none
  | 0, _, some _ => none
  | fuel + 1, m, some node => do
    let n ← m.cells node
    if key < n.data.key then getNode fuel m n.left
    else if n.data.key < key then getNode fuel m n.right
    else some (some n)

def get : Option (Option TicketValue) := do
  let node ← getNode key t.count m t.root
  some (node.map fun n => n.data.value)

def has : Option Bool := do
  let node ← getNode key t.count m t.root
  some node.isSome

/-- The loop of `getByIndex`. -/
def getByIndexFrom : Nat → Nodes → Ptr → Int → Option (Hash × TicketValue)
  | 0, _, _, _ => none
  | _, _, none, _ => none
  | fuel + 1, m, some node, idx => do
    let n ← m.cells node
    match n.left with
    | none =>
      if idx = 0 then some (n.data.key, n.data.value)
      else getByIndexFrom fuel m n.right (idx - 1)
    | some l => do
      let left ← m.cells l
      let size : Int := left.data.size.toNat
      if idx < size then getByIndexFrom fuel m n.left idx
      else if idx = size then some (n.data.key, n.data.value)
      else getByIndexFrom fuel m n.right (idx - size - 1)

/-- `GetByIndex`. No result stands for a panic. -/
def getByIndex (idx : Int) : Option (Hash × TicketValue) := do
  let root ← t.root
  let n ← m.cells root
  if idx < 0 ∨ idx > n.data.size.toNat then none
  else getByIndexFrom (t.count + 1) m t.root idx

/-- The node and the nodes to the left below it are put on the stack, as long as they are wanted. -/
def pushLeft (wanted : TreapNode → Bool) : Nat → Nodes → Ptr → ParentStack → Option ParentStack
  | _, _, none, parents => some parents
  | 0, _, some _, _ => none
  | fuel + 1, m, some node, parents => do
    let n ← m.cells node
    if wanted n.data then pushLeft wanted fuel m n.left (parents.push node) else some parents

/-- The loop of `ForEach` and `ForEachByHeight`. The callback may keep a state, and tells whether to
go on. -/
def visit {σ : Type} (wanted : TreapNode → Bool) (fn : Hash → TicketValue → σ → σ × Bool)
    (count : Nat) : Nat → Nodes → ParentStack → σ → Option σ
  | turns, m, parents, s =>
    if parents.len = 0 then some s
    else
      match turns with
      | 0 => none
      | turns + 1 => do
        let (top, parents) := parents.pop
        let pnode ← top
        let n ← m.cells pnode
        let (s, goOn) := fn n.data.key n.data.value s
        if !goOn then some s
        else do
          let parents ← pushLeft wanted count m n.right parents
          visit wanted fn count turns m parents s

def forEach {σ : Type} (m : Nodes) (t : NodeTreap) (fn : Hash → TicketValue → σ → σ × Bool)
    (s : σ) : Option σ := do
  let parents ← pushLeft (fun _ => true) t.count m t.root .empty
  visit (fun _ => true) fn t.count t.count m parents s

def forEachByHeight {σ : Type} (m : Nodes) (t : NodeTreap) (heightLessThan : Nat)
    (fn : Hash → TicketValue → σ → σ × Bool) (s : σ) : Option σ := do
  let parents ← pushLeft (fun n => n.priority < heightLessThan) t.count m t.root .empty
  visit (fun n => n.priority < heightLessThan) fn t.count t.count m parents s

end NodeTreap

end Fnod
