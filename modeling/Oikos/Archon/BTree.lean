/-
The B-Link tree of `tpt-archon-core`: an arena of nodes with right-links and
high keys, searched, scanned and updated by loops over node ids.  Keys are any
ordered type and values any type; the storage engine uses `u64` and bytes.
-/
import Oikos.Lib.Vec

namespace Oikos.Archon

/-- Keys of the storage engine. -/
abbrev Key := UInt64

/-- Values of the storage engine. -/
abbrev Bytes := List UInt8

/-- The maximum number of keys per node. -/
def nodeCapacity : Nat := 64

/-- Position of a node in the arena. -/
abbrev NodeId := Nat

/-- A node.  `right` links to the next sibling and `highKey` is the smallest key
not covered by the node. -/
inductive Node (K : Type) (V : Type) where
  | leaf (keys : List K) (vals : List V) (right : Option NodeId) (highKey : Option K)
  | internal (keys : List K) (children : List NodeId) (right : Option NodeId)
      (highKey : Option K)
deriving Repr, DecidableEq

structure BTree (K : Type) (V : Type) where
  nodes : List (Node K V)
  root : NodeId
deriving Repr, DecidableEq

namespace BTree

variable {K : Type} {V : Type}

/-- A single empty leaf as the root. -/
def new : BTree K V :=
  ⟨[.leaf [] [] none none], 0⟩

/-- Replace the node at `id`. -/
def setNode (t : BTree K V) (id : NodeId) (n : Node K V) : BTree K V :=
  { t with nodes := t.nodes.set id n }

/-- Append a node to the arena. -/
def push (t : BTree K V) (n : Node K V) : BTree K V :=
  { t with nodes := t.nodes ++ [n] }

variable [LinearOrder K]

/-- The right-link to follow when `key` is beyond the node's coverage. -/
def beyond (key : K) (right : Option NodeId) (highKey : Option K) : Option NodeId :=
  match highKey with
  | some hk => if key ≥ hk then right else none
  | none => none

/-- Which child of an internal node is responsible for `key`. -/
def childIndex (keys : List K) (key : K) : Nat :=
  match binarySearch keys key with
  | .ok i => i + 1
  | .error i => i

/-- The body of the loop of `get`. -/
def getTurn (t : BTree K V) (key : K) (id : NodeId) :
    Result Empty (Turn NodeId (Option V)) := do
  match ← index t.nodes id with
  | .internal keys children right highKey =>
    match beyond key right highKey with
    | some r => .ok (.again r)
    | none =>
      let child ← index children (childIndex keys key)
      .ok (.again child)
  | .leaf keys vals right highKey =>
    match beyond key right highKey with
    | some r => .ok (.again r)
    | none =>
      match binarySearch keys key with
      | .ok i =>
        let v ← index vals i
        .ok (.leave (some v))
      | .error _ => .ok (.leave none)

/-- The search for `key` begun at node `id`. -/
def getFrom (t : BTree K V) (key : K) (id : NodeId) : Result Empty (Option V) :=
  loop (t.getTurn key) t.nodes.length id

/-- Look up `key`.  No node is visited twice, so one turn for each node is
enough. -/
def get (t : BTree K V) (key : K) : Result Empty (Option V) :=
  t.getFrom key t.root

/-- Whether `key` is present. -/
def contains (t : BTree K V) (key : K) : Result Empty Bool := do
  let v ← t.get key
  .ok v.isSome

/-- The body of the loop of `leftmost_leaf_for`. -/
def leftmostLeafForTurn (t : BTree K V) (key : K) (id : NodeId) :
    Result Empty (Turn NodeId NodeId) := do
  match ← index t.nodes id with
  | .internal keys children _ _ =>
    let child ← index children (childIndex keys key)
    .ok (.again child)
  | .leaf _ _ _ _ => .ok (.leave id)

/-- Descend to the leaf that should contain `key`. -/
def leftmostLeafFor (t : BTree K V) (key : K) : Result Empty NodeId :=
  loop (t.leftmostLeafForTurn key) t.nodes.length t.root

/-- The entries of one leaf that fall into `[lo, hi)`, and whether a key that is
not below `hi` ended the scan. -/
def scanLeaf (lo hi : K) : List K → List V → Result Empty (List (K × V) × Bool)
  | [], _ => .ok ([], false)
  | k :: ks, vals =>
    if k ≥ hi then .ok ([], true)
    else if k ≥ lo then do
      let v ← index vals 0
      let (out, ended) ← scanLeaf lo hi ks vals.tail
      .ok ((k, v) :: out, ended)
    else scanLeaf lo hi ks vals.tail

/-- The body of the loop of `range`; the state is the leaf and the output so far. -/
def rangeTurn (t : BTree K V) (lo hi : K) (s : NodeId × List (K × V)) :
    Result Empty (Turn (NodeId × List (K × V)) (List (K × V))) := do
  match ← index t.nodes s.1 with
  | .leaf keys vals right _ =>
    let (out, ended) ← scanLeaf lo hi keys vals
    if ended then .ok (.leave (s.2 ++ out))
    else
      match right with
      | some r => .ok (.again (r, s.2 ++ out))
      | none => .ok (.leave (s.2 ++ out))
  | .internal _ _ _ _ => .error .panic

/-- All pairs with `lo ≤ key < hi`, in key order. -/
def range (t : BTree K V) (lo hi : K) : Result Empty (List (K × V)) :=
  if lo ≥ hi then .ok []
  else do
    let id ← t.leftmostLeafFor lo
    loop (t.rangeTurn lo hi) t.nodes.length (id, [])

/-- The body of the loop of `delete`. -/
def deleteTurn (t : BTree K V) (key : K) (id : NodeId) :
    Result Empty (Turn NodeId (Option V × BTree K V)) := do
  match ← index t.nodes id with
  | .internal keys children right highKey =>
    match beyond key right highKey with
    | some r => .ok (.again r)
    | none =>
      let child ← index children (childIndex keys key)
      .ok (.again child)
  | .leaf keys vals right highKey =>
    match beyond key right highKey with
    | some r => .ok (.again r)
    | none =>
      match binarySearch keys key with
      | .ok i =>
        let (_, keys) ← removeAt keys i
        let (v, vals) ← removeAt vals i
        .ok (.leave (some v, t.setNode id (.leaf keys vals right highKey)))
      | .error _ => .ok (.leave (none, t))

/-- Remove `key` if present, returning the stored value.  Leaves are never
merged. -/
def delete (t : BTree K V) (key : K) : Result Empty (Option V × BTree K V) :=
  loop (t.deleteTurn key) t.nodes.length t.root

/-- Move the upper half of leaf `id` to a new right sibling. -/
def splitLeaf (t : BTree K V) (id : NodeId) : Result Empty (BTree K V × K × NodeId) := do
  let mid := (nodeCapacity + 1) / 2
  match ← index t.nodes id with
  | .leaf keys vals right highKey =>
    let (keys, rKeys) ← splitOff keys mid
    let (vals, rVals) ← splitOff vals mid
    let sep ← index rKeys 0
    let newId := t.nodes.length
    let t := t.setNode id (.leaf keys vals (some newId) (some sep))
    .ok (t.push (.leaf rKeys rVals right highKey), sep, newId)
  | .internal _ _ _ _ => .error .panic

/-- Move the upper half of internal node `id` to a new right sibling; the middle
separator moves up. -/
def splitInternal (t : BTree K V) (id : NodeId) : Result Empty (BTree K V × K × NodeId) := do
  let mid := (nodeCapacity + 1) / 2
  match ← index t.nodes id with
  | .internal keys children right highKey =>
    let sep ← index keys mid
    let (keys, rKeys) ← splitOff keys (mid + 1)
    let keys := keys.dropLast
    let (children, rChildren) ← splitOff children (mid + 1)
    let newId := t.nodes.length
    let t := t.setNode id (.internal keys children (some newId) (some sep))
    .ok (t.push (.internal rKeys rChildren right highKey), sep, newId)
  | .leaf _ _ _ _ => .error .panic

/-- Insert below node `id`; the separator and the id of the new right sibling
are returned if `id` was split. -/
def insertRec : Nat → BTree K V → NodeId → K → V →
    Result Empty (BTree K V × Option (K × NodeId))
  | 0, _, _, _, _ => .error .fuel
  | depth + 1, t, id, key, value => do
    match ← index t.nodes id with
    | .leaf keys vals right highKey =>
      match binarySearch keys key with
      | .ok i =>
        let vals ← setAt vals i value
        .ok (t.setNode id (.leaf keys vals right highKey), none)
      | .error i =>
        let keys ← insertAt keys i key
        let vals ← insertAt vals i value
        let t := t.setNode id (.leaf keys vals right highKey)
        if keys.length > nodeCapacity then
          let (t, split) ← t.splitLeaf id
          .ok (t, some split)
        else .ok (t, none)
    | .internal keys children _ _ =>
      let child ← index children (childIndex keys key)
      let (t, split) ← insertRec depth t child key value
      match split with
      | none => .ok (t, none)
      | some (sep, rightId) =>
        match ← index t.nodes id with
        | .internal keys children right highKey =>
          let pos := match binarySearch keys sep with
            | .ok i => i
            | .error i => i
          let keys ← insertAt keys pos sep
          let children ← insertAt children (pos + 1) rightId
          let t := t.setNode id (.internal keys children right highKey)
          if keys.length > nodeCapacity then
            let (t, split) ← t.splitInternal id
            .ok (t, some split)
          else .ok (t, none)
        | .leaf _ _ _ _ => .ok (t, none)

/-- Insert or replace `key`.  When the root is split a new root is put above the
two halves.  The descent is shorter than the arena. -/
def insert (t : BTree K V) (key : K) (value : V) : Result Empty (BTree K V) := do
  let (t, split) ← insertRec t.nodes.length t t.root key value
  match split with
  | none => .ok t
  | some (sepKey, rightId) =>
    let newRoot := .internal [sepKey] [t.root, rightId] none none
    .ok { t.push newRoot with root := t.nodes.length }

/-- The body of the loop of `leftmost_leaf`. -/
def leftmostLeafTurn (t : BTree K V) (id : NodeId) : Result Empty (Turn NodeId NodeId) := do
  match ← index t.nodes id with
  | .internal _ children _ _ =>
    let child ← index children 0
    .ok (.again child)
  | .leaf _ _ _ _ => .ok (.leave id)

def leftmostLeaf (t : BTree K V) : Result Empty NodeId :=
  loop t.leftmostLeafTurn t.nodes.length t.root

/-- The body of the loop of `len`; the state is the leaf and the count so far. -/
def lenTurn (t : BTree K V) (s : NodeId × Nat) : Result Empty (Turn (NodeId × Nat) Nat) := do
  match ← index t.nodes s.1 with
  | .leaf keys _ right _ =>
    match right with
    | some r => .ok (.again (r, s.2 + keys.length))
    | none => .ok (.leave (s.2 + keys.length))
  | .internal _ _ _ _ => .error .panic

/-- Total number of pairs, counted along the leaf chain. -/
def len (t : BTree K V) : Result Empty Nat := do
  let id ← t.leftmostLeaf
  loop t.lenTurn t.nodes.length (id, 0)

end BTree

end Oikos.Archon
