import LittleKeyValueDb.LatchManager.Node

/-! # `BTree`: descents, `insert` and `delete`

* `findLeafToAdd` and `findLeafToDelete` are the descent loops, pass for pass: `next` keeps its
  value across passes, so at an internal node without keys the loop stays where it is.
* `insert`: the descent loop and the loop that walks `parent_stack` back up are one recursion,
  `insertFrom`. Each frame is one pass of the descent at its node and, when the call below
  returns, one pass of the upward loop at the same stack entry: `insert_node` of the split-off
  node, then a split when the node is full. The `Rc` nodes on the stack are mutated in place; here
  the frame rebuilds its node with the new child.
* `delete`: the descent gives the stack of `(edge index, direction, node)`; an `Rc` handle on a
  node of the stack is the path of edge indices to it, and the mutations of `delete`,
  `update_ancestors_after_delete` and the two leaf steals rewrite the node at a path.
-/

namespace LittleKeyValueDb.LatchManager
set_option autoImplicit false
set_option linter.unusedSectionVars false

/-- `BTree`. -/
structure BTree (K : Type) where
  root : Option (Node K)
  order : Nat

section Tree
variable {K : Type} [LinearOrder K]

/-- `BTree::new`: one empty leaf. -/
def BTree.new (capacity : Nat) : BTree K :=
  ⟨some (.leaf ⟨0, [], [], none, none⟩), capacity⟩

/-! ## Siblings -/

/-- `BTree::find_left_sibling`. -/
def findLeftSibling (parentNode : Node K) (edgeIdx : Nat) : Except Fault (Option (Node K)) :=
  match parentNode with
  | .internal _ edges => if edgeIdx = 0 then pure none else vecIndex edges (edgeIdx - 1)
  | .leaf _ => throw (.panic "leaf node doesn't have child")

/-- `BTree::find_right_sibling`. -/
def findRightSibling (parentNode : Node K) (edgeIdx : Nat) : Except Fault (Option (Node K)) :=
  match parentNode with
  | .internal _ edges => do
    if edgeIdx = (← usizeSub edges.length 1) then pure none else vecIndex edges (edgeIdx + 1)
  | .leaf _ => throw (.panic "leaf node doesn't have child")

/-! ## Descents -/

/-- The loop of `find_leaf_to_delete`, given `fuel` passes. -/
def findLeafToDeleteLoop (keyToDelete : K) :
    Nat → Option (Node K) → Option (Node K) → List (Nat × Direction × Node K) →
      Except Fault (Option (Node K) × List (Nat × Direction × Node K))
  | 0, _, _, _ => throw .outOfFuel
  | fuel + 1, tempNode, next, stack =>
    match tempNode with
    | none => throw (.panic "should not be undefined")
    | some (.leaf l) => pure (some (.leaf l), stack)
    | some (.internal keys edges) => do
      let (stack, next) ← if keys.isEmpty then pure (stack, next) else do
        let idx := keyIndex keys keyToDelete
        let direction := if idx < keys.length then Direction.left else Direction.right
        pure (stack ++ [(idx, direction, .internal keys edges)], ← vecIndex edges idx)
      match next with
      | some n => findLeafToDeleteLoop keyToDelete fuel (some n) (some n) stack
      | none => throw (.panic "next is not provided")

/-- `BTree::find_leaf_to_delete`: the leaf and the stack of `(edge index, direction, node)`. -/
def BTree.findLeafToDelete (fuel : Nat) (t : BTree K) (keyToDelete : K) :
    Except Fault (Option (Node K) × List (Nat × Direction × Node K)) :=
  findLeafToDeleteLoop keyToDelete fuel t.root none []

/-- The loop of `find_leaf_to_add`, given `fuel` passes. -/
def findLeafToAddLoop (keyToAdd : K) :
    Nat → Option (Node K) → Option (Node K) → List (Node K) → Except Fault (Option (Node K) × List (Node K))
  | 0, _, _, _ => throw .outOfFuel
  | fuel + 1, tempNode, next, stack =>
    match tempNode with
    | none => throw (.panic "should not be undefined")
    | some (.leaf l) => pure (some (.leaf l), stack)
    | some (.internal keys edges) => do
      let stack := stack ++ [.internal keys edges]
      let next ← if keys.isEmpty then pure next else vecIndex edges (keyIndex keys keyToAdd)
      match next with
      | some n => findLeafToAddLoop keyToAdd fuel (some n) (some n) stack
      | none => throw (.panic "next is not provided")

/-- `BTree::find_leaf_to_add`: the leaf and the stack of the internal nodes passed. -/
def BTree.findLeafToAdd (fuel : Nat) (t : BTree K) (keyToAdd : K) :
    Except Fault (Option (Node K) × List (Node K)) :=
  findLeafToAddLoop keyToAdd fuel t.root none []

/-! ## Insert -/

/-- What a frame of `insert` hands to the frame above: its node rebuilt, or its node split into
two with the key that separates them. -/
inductive InsertResult (K : Type) where
  | fit (node : Node K)
  | split (left : Node K) (median : K) (right : Node K)

/-- The leaf's part of `insert`: `insert_range`, then `split_node` when the leaf is full. -/
def insertIntoLeaf (order : Nat) (range : Range K) (addr : Nat) (l : LeafNode K) :
    Except Fault (InsertResult K) := do
  let l ← l.insertRange range
  if l.hasCapacity order then pure (.fit (.leaf l))
  else
    let (l, r, median) ← splitLeaf l addr
    pure (.split (.leaf l) median (.leaf r))

/-- The end of a pass of the upward loop of `insert`: a node with room stays, a full one is split. -/
def splitIfFull (order : Nat) (keys : List K) (edges : List (Option (Node K))) :
    Except Fault (InsertResult K) :=
  if InternalNode.hasCapacity order keys then pure (.fit (.internal keys edges))
  else do
    let ((lk, le), (rk, re), median) ← splitInternal keys edges
    pure (.split (.internal lk le) median (.internal rk re))

/-- One pass of the upward loop of `insert`, at an internal node whose child at `idx` came back as
`res`: `insert_node` of the split-off node, then `splitIfFull`. -/
def insertUp (order : Nat) (keys : List K) (edges : List (Option (Node K))) (idx : Nat) :
    InsertResult K → Except Fault (InsertResult K)
  | .fit c => pure (.fit (.internal keys (edges.set idx (some c))))
  | .split c median right => do
    let (keys, edges) ← insertNode keys (edges.set idx (some c)) right median
    splitIfFull order keys edges

/-- One frame of `BTree::insert` at `node`, given `fuel` passes of the descent; `next` is the
descent's `next` on arrival, and `addr` the allocation of the leaf a split creates. -/
def insertFrom (order : Nat) (range : Range K) (addr : Nat) :
    Nat → Node K → Option (Node K) → Except Fault (InsertResult K)
  | 0, _, _ => throw .outOfFuel
  | _ + 1, .leaf l, _ => insertIntoLeaf order range addr l
  | fuel + 1, .internal keys edges, next =>
    if keys.isEmpty then
      match next with
      | some n => insertFrom order range addr fuel n next
      | none => throw (.panic "next is not provided")
    else do
      let idx := keyIndex keys range.startKey
      match ← vecIndex edges idx with
      | none => throw (.panic "next is not provided")
      | some child => insertUp order keys edges idx (← insertFrom order range addr fuel child (some child))

/-- `BTree::insert`, given `fuel` passes of the descent. A root that splits is replaced by a new
root with one key and two children. -/
def BTree.insert (fuel : Nat) (t : BTree K) (range : Range K) : Except Fault (BTree K) :=
  match t.root with
  | none => throw (.panic "should not be undefined")
  | some root => do
    match ← insertFrom t.order range root.freshAddr fuel root none with
    | .fit n => pure { t with root := some n }
    | .split l median r => pure { t with root := some (.internal [median] [some l, some r]) }

/-! ## Nodes by path -/

/-- Rewrite the node at a path of edge indices. A path taken from a descent always names a node. -/
def Node.modify (f : Node K → Except Fault (Node K)) : Node K → List Nat → Except Fault (Node K)
  | n, [] => f n
  | .internal keys edges, i :: path =>
    match edges[i]? with
    | some (some c) => do pure (.internal keys (edges.set i (some (← c.modify f path))))
    | _ => pure (.internal keys edges)
  | .leaf l, _ :: _ => pure (.leaf l)

/-- Rewrite the leaf at a path. -/
def Node.modifyLeaf (f : LeafNode K → Except Fault (LeafNode K)) (n : Node K) (path : List Nat) :
    Except Fault (Node K) :=
  n.modify (fun m => do pure (.leaf (← f (← m.asLeafNode)))) path

/-- The path of the `j`-th node of a `find_leaf_to_delete` stack. -/
def stackPath (stack : List (Nat × Direction × Node K)) (j : Nat) : List Nat :=
  (stack.take j).map (·.1)

/-! ## Delete -/

/-- `BTree::find_next_largest_key`. -/
def findNextLargestKey (keyToDelete : K) (leafNode : LeafNode K) (rightSiblingOption : Option (Node K)) :
    Except Fault K :=
  match leafNode.findNextLargerKey keyToDelete with
  | some idx => vecIndex leafNode.startKeys idx
  | none => do
    let rightLeaf ← unwrap rightSiblingOption
    vecIndex (← rightLeaf.asLeafNode).startKeys 0

/-- One pass of the loop of `update_ancestors_after_delete`, at the `j`-th stack entry. -/
def updateAncestorAt (keyToDelete nextLargestKey : K) (stack : List (Nat × Direction × Node K))
    (root : Node K) : Nat × Nat × Direction × Node K → Except Fault (Node K)
  | (_, _, .left, _) => pure root
  | (j, idx, .right, _) =>
    root.modify (fun node => do
      let (keys, edges) ← node.asInternalNode
      let keyIdx ← usizeSub idx 1
      if (← vecIndex keys keyIdx) = keyToDelete then
        pure (.internal (← vecSet keys keyIdx nextLargestKey) edges)
      else pure node) (stackPath stack j)

/-- `BTree::update_ancestors_after_delete`: every separator equal to the deleted key on the left
of a right turn of the descent becomes the next largest key. -/
def updateAncestorsAfterDelete (root : Node K) (keyToDelete : K) (leafNode : LeafNode K)
    (stack : List (Nat × Direction × Node K)) (rightSiblingOption : Option (Node K)) :
    Except Fault (Node K) := do
  let nextLargestKey ← findNextLargestKey keyToDelete leafNode rightSiblingOption
  stack.enum.foldlM (updateAncestorAt keyToDelete nextLargestKey stack) root

/-- `BTree::steal_from_left_leaf_sibling`: the largest span of the left sibling (at `edgeIdx - 1`
of the parent) moves to the leaf (at `edgeIdx`), and becomes the parent's separator. -/
def stealFromLeftLeafSibling (order : Nat) (root : Node K) (leftSibling : Node K)
    (stack : List (Nat × Direction × Node K)) : Except Fault (Node K × Bool) := do
  if leftSibling.hasSpareKey order then
    let (leftLeafSibling, stolenRange) ← (← leftSibling.asLeafNode).stealBiggestKey order
    let parentPath := stackPath stack (stack.length - 1)
    let idx := (stack.getLast?.map (·.1)).getD 0
    let root ← root.modify (fun _ => pure (.leaf leftLeafSibling)) (parentPath ++ [idx - 1])
    let root ← root.modifyLeaf (·.insertRange stolenRange) (parentPath ++ [idx])
    let root ← root.modify (·.updateKeyAtIndex (← usizeSub idx 1) stolenRange.startKey) parentPath
    pure (root, true)
  else pure (root, false)

/-- One pass of the loop of `steal_from_right_leaf_sibling`, at stack entry `iterIdx`: the parent
(the last entry) takes `newLower`, the sibling's new first key; an ancestor separator equal to the
deleted key becomes the stolen key. -/
def stealRightAncestorAt (keyToDelete stolenKey : K) (newLower : Option K)
    (stack : List (Nat × Direction × Node K)) (root : Node K) :
    Nat × Nat × Direction × Node K → Except Fault (Node K)
  | (iterIdx, idx, direction, _) => do
    let keyIdx ← match direction with
      | .left => pure idx
      | .right => usizeSub idx 1
    root.modify (fun node => do
      let (keys, edges) ← node.asInternalNode
      if iterIdx = stack.length - 1 then node.updateKeyAtIndex keyIdx (← unwrap newLower)
      else if (← vecIndex keys keyIdx) = keyToDelete then
        pure (.internal (← vecSet keys keyIdx stolenKey) edges)
      else pure node) (stackPath stack iterIdx)

/-- `BTree::steal_from_right_leaf_sibling`: the smallest span of the right sibling moves to the
leaf; the parent's separator becomes the sibling's new first key, and every ancestor separator
equal to the deleted key becomes the moved key. The source ends the branch with `true;`, a
statement, so the function returns `false` either way. -/
def stealFromRightLeafSibling (order : Nat) (root : Node K) (keyToDelete : K) (rightSibling : Node K)
    (stack : List (Nat × Direction × Node K)) : Except Fault (Node K × Bool) := do
  if rightSibling.hasSpareKey order then
    let (rightLeafSibling, stolenRange) ← (← rightSibling.asLeafNode).stealSmallestKey order
    let parentPath := stackPath stack (stack.length - 1)
    let idx := (stack.getLast?.map (·.1)).getD 0
    let root ← root.modify (fun _ => pure (.leaf rightLeafSibling)) (parentPath ++ [idx + 1])
    let root ← root.modifyLeaf (·.insertRange stolenRange) (parentPath ++ [idx])
    let root ← stack.enum.foldlM
      (stealRightAncestorAt keyToDelete stolenRange.startKey (Node.leaf rightLeafSibling).getLower stack) root
    pure (root, false)
  else pure (root, false)

/-- `BTree::delete`, given `fuel` passes of the descent. -/
def BTree.delete (fuel : Nat) (t : BTree K) (keyToDelete : K) : Except Fault (BTree K) := do
  let (nodeToDelete, stack) ← t.findLeafToDelete fuel keyToDelete
  match nodeToDelete, t.root with
  | some nodeRef, some root => do
    match ← (← nodeRef.asLeafNode).removeKey keyToDelete with
    | none => pure t
    | some leafNode =>
      let root ← root.modify (fun _ => pure (.leaf leafNode)) (stackPath stack stack.length)
      match stack.getLast? with
      | none => pure { t with root := some root }
      | some (idx, _, parentNode) =>
        let rightSiblingOption ← findRightSibling parentNode idx
        let leftSiblingOption ← findLeftSibling parentNode idx
        if !leafNode.isUnderflow t.order then
          let root ← updateAncestorsAfterDelete root keyToDelete leafNode stack rightSiblingOption
          pure { t with root := some root }
        else
          let isStolen := false
          -- the result of the left steal is not stored in `is_stolen`
          let root ← match leftSiblingOption with
            | some leftSibling => do pure (← stealFromLeftLeafSibling t.order root leftSibling stack).1
            | none => pure root
          let (root, _) ← if !isStolen then
              match rightSiblingOption with
              | some rightSibling => stealFromRightLeafSibling t.order root keyToDelete rightSibling stack
              | none => pure (root, isStolen)
            else pure (root, isStolen)
          pure { t with root := some root }
  | _, _ => pure t

/-! ## Merging and stealing between siblings

No call of these is made yet: `delete` borrows between leaves only. The node handle a repair is
given is the child at `edge_idx` of the parent, and the sibling handles are the children next to it,
so their in-place edits rebuild those edges of the parent, which is what each function returns. -/

/-- `BTree::merge_leaf_node`: the leaf takes in the spans of its left sibling or, with none, of its
right sibling, and the parent loses the sibling's edge and the separator between the two.
`append` puts the sibling's spans after the leaf's own in both branches. With no sibling the
source reaches `todo!()`. -/
def mergeLeafNode (leafNode : LeafNode K) (parentNode : Node K) (edgeIdx : Nat) : Except Fault (Node K) := do
  match ← findLeftSibling parentNode edgeIdx with
  | some leftRc =>
    let leftNode ← leftRc.asLeafNode
    let leafNode := { leafNode with
      startKeys := leafNode.startKeys ++ leftNode.startKeys
      endKeys := leafNode.endKeys ++ leftNode.endKeys
      leftPtr := leftNode.leftPtr }
    let (keys, edges) ← parentNode.asInternalNode
    let (_, edges) ← vecRemove (edges.set edgeIdx (some (.leaf leafNode))) (edgeIdx - 1)
    let (_, keys) ← vecRemove keys (edgeIdx - 1)
    pure (.internal keys edges)
  | none =>
    match ← findRightSibling parentNode edgeIdx with
    | some rightRc =>
      let rightNode ← rightRc.asLeafNode
      let leafNode := { leafNode with
        startKeys := leafNode.startKeys ++ rightNode.startKeys
        endKeys := leafNode.endKeys ++ rightNode.endKeys
        rightPtr := rightNode.rightPtr }
      let (keys, edges) ← parentNode.asInternalNode
      let (_, edges) ← vecRemove (edges.set edgeIdx (some (.leaf leafNode))) (edgeIdx + 1)
      let (_, keys) ← vecRemove keys edgeIdx
      pure (.internal keys edges)
    | none => throw (.panic "not yet implemented")

/-- `BTree::steal_from_left_internal_sibling`: when the left sibling has a spare key, its last edge
moves to the front of the node behind the parent's separator, and the sibling's last key becomes
the parent's separator. That key is read, not removed: the sibling keeps it. -/
def stealFromLeftInternalSibling (order : Nat) (internalNode leftSibling : List K × List (Option (Node K)))
    (parentNode : Node K) (edgeIdx : Nat) : Except Fault (Node K × Bool) := do
  if InternalNode.hasSpareKey order leftSibling.1 then
    let (parentKeys, parentEdges) ← parentNode.asInternalNode
    let parentSplitKey ← vecIndex parentKeys (← usizeSub edgeIdx 1)
    let (stolenEdge, leftEdges) ← vecRemove leftSibling.2 (← usizeSub leftSibling.2.length 1)
    let stolenSplitKey ← vecIndex leftSibling.1 (← usizeSub leftSibling.1.length 1)
    let parentKeys ← vecSet parentKeys (edgeIdx - 1) stolenSplitKey
    pure (.internal parentKeys ((parentEdges.set edgeIdx
      (some (.internal (parentSplitKey :: internalNode.1) (stolenEdge :: internalNode.2)))).set (edgeIdx - 1)
        (some (.internal leftSibling.1 leftEdges))), true)
  else pure (parentNode, false)

/-- `BTree::steal_from_right_internal_sibling`: when the right sibling has a spare key, its first
edge moves to the end of the node behind the parent's separator, and the sibling's first key,
removed, becomes the parent's separator. -/
def stealFromRightInternalSibling (order : Nat) (internalNode rightSibling : List K × List (Option (Node K)))
    (parentNode : Node K) (edgeIdx : Nat) : Except Fault (Node K × Bool) := do
  if InternalNode.hasSpareKey order rightSibling.1 then
    let (parentKeys, parentEdges) ← parentNode.asInternalNode
    let parentSplitKey ← vecIndex parentKeys edgeIdx
    let (stolenEdge, rightEdges) ← vecRemove rightSibling.2 0
    let (stolenKey, rightKeys) ← vecRemove rightSibling.1 0
    let parentKeys ← vecSet parentKeys edgeIdx stolenKey
    pure (.internal parentKeys ((parentEdges.set edgeIdx
      (some (.internal (internalNode.1 ++ [parentSplitKey]) (internalNode.2 ++ [stolenEdge])))).set (edgeIdx + 1)
        (some (.internal rightKeys rightEdges))), true)
  else pure (parentNode, false)

/-- `BTree::steal_from_sibling`: a steal from the left sibling, and when that does not happen one
from the right sibling; whether one happened. -/
def stealFromSibling (order : Nat) (internalNode : List K × List (Option (Node K))) (parentNode : Node K)
    (edgeIdx : Nat) : Except Fault (Node K × Bool) := do
  let (parentNode, isStolen) ← match ← findLeftSibling parentNode edgeIdx with
    | some leftRc => stealFromLeftInternalSibling order internalNode (← leftRc.asInternalNode) parentNode edgeIdx
    | none => pure (parentNode, false)
  if isStolen then pure (parentNode, true)
  else match ← findRightSibling parentNode edgeIdx with
    | some rightRc => stealFromRightInternalSibling order internalNode (← rightRc.asInternalNode) parentNode edgeIdx
    | none => pure (parentNode, false)

/-! ## Runs -/

/-- The trees a sequence of `insert` calls builds from `BTree::new(order)`, with the spans inserted
so far. Each call is given the passes it needs. -/
inductive InsertRun (order : Nat) : List (Range K) → BTree K → Prop
  | new : InsertRun order [] (BTree.new order)
  | insert {rs : List (Range K)} {t t' : BTree K} {range : Range K} (fuel : Nat) :
      InsertRun order rs t → t.insert fuel range = .ok t' → InsertRun order (rs ++ [range]) t'

/-- `insert` calls one after another, each given `fuel` passes. -/
def BTree.insertAll (fuel : Nat) (t : BTree K) : List (Range K) → Except Fault (BTree K)
  | [] => pure t
  | range :: rs => do (← t.insert fuel range).insertAll fuel rs

theorem InsertRun.insertAll {order : Nat} {rs rs' : List (Range K)} {t t' : BTree K} (fuel : Nat)
    (h : InsertRun order rs t) (h' : t.insertAll fuel rs' = .ok t') : InsertRun order (rs ++ rs') t' := by
  induction rs' generalizing rs t with
  | nil =>
    obtain rfl : t = t' := by simpa [BTree.insertAll] using h'
    simpa using h
  | cons range rs' ih =>
    obtain ⟨t₁, h₁, h₂⟩ := bind_eq_ok.1 h'
    simpa using ih (h.insert fuel h₁) h₂

end Tree

/-! ## Runs on fixed inputs

The trees below are the ones the calls build; each is checked by evaluating the calls. -/

/-- What spans at 5, 10 and 20 build at order 3: the leaves `[5]` and `[10, 20]` under the
separator 10. -/
def threeSpansRoot : Node Nat :=
  .internal [10] [some (.leaf ⟨0, [5], [6], none, some 1⟩), some (.leaf ⟨1, [10, 20], [11, 21], some 0, none⟩)]

def threeSpansTree : BTree Nat := ⟨some threeSpansRoot, 3⟩

theorem insertRun_three_spans : InsertRun 3 [⟨5, 6⟩, ⟨10, 11⟩, ⟨20, 21⟩] threeSpansTree :=
  InsertRun.new.insertAll 3 rfl

/-- What spans at 5, 10, 20, 1 and 6 build at order 3: the leaf `[1, 5]` has split while it had a
right neighbour. -/
def fiveSpansTree : BTree Nat :=
  ⟨some (.internal [5, 10] [some (.leaf ⟨0, [1], [2], none, some 2⟩),
    some (.leaf ⟨2, [5, 6], [6, 7], some 0, some 1⟩), some (.leaf ⟨1, [10, 20], [11, 21], some 0, none⟩)]), 3⟩

theorem insertRun_five_spans : InsertRun 3 [⟨5, 6⟩, ⟨10, 11⟩, ⟨20, 21⟩, ⟨1, 2⟩, ⟨6, 7⟩] fiveSpansTree :=
  insertRun_three_spans.insertAll 3 rfl

/-- Three spans with one start key at order 3: the leaf split puts one copy on each side of the
new separator, and the descent for that key reaches only the right-hand leaf. -/
theorem repeated_start_key_unreachable :
    ∃ t : BTree Nat, InsertRun 3 [⟨5, 6⟩, ⟨5, 7⟩, ⟨5, 8⟩] t ∧ ∃ root, t.root = some root ∧
      (5, 6) ∈ root.entries ∧ ∀ fuel, 2 ≤ fuel → ∃ leaf stack,
        t.findLeafToDelete fuel 5 = .ok (some (.leaf leaf), stack) ∧ (5, 6) ∉ leaf.entries := by
  refine ⟨_, (InsertRun.new.insertAll 3 rfl : InsertRun 3 ([] ++ [⟨5, 6⟩, ⟨5, 7⟩, ⟨5, 8⟩])
    ⟨some (.internal [5] [some (.leaf ⟨0, [5], [6], none, some 1⟩),
      some (.leaf ⟨1, [5, 5], [7, 8], some 0, none⟩)]), 3⟩), _, rfl, by decide, fun fuel hf => ?_⟩
  obtain ⟨f, rfl⟩ : ∃ f, fuel = f + 2 := ⟨fuel - 2, by omega⟩
  exact ⟨_, _, rfl, by decide⟩

/-- At order 3, after spans at 5, 10 and 20, the leaf `[10, 20]` is its parent's last child; deleting
20 leaves it without underflow, and looking for the next larger key unwraps its missing right
sibling. -/
theorem delete_largest_key_of_last_leaf_panics :
    ∃ t : BTree Nat, InsertRun 3 [⟨5, 6⟩, ⟨10, 11⟩, ⟨20, 21⟩] t ∧
      ∀ fuel, 2 ≤ fuel → t.delete fuel 20 = .error (.panic "called `Option::unwrap()` on a `None` value") := by
  refine ⟨_, insertRun_three_spans, fun fuel hf => ?_⟩
  obtain ⟨f, rfl⟩ : ∃ f, fuel = f + 2 := ⟨fuel - 2, by omega⟩
  rfl

/-- At order 3, deleting 20 from `[5, 10] [20] [30, 40]` empties the middle leaf; it borrows 10 from
the left sibling and then 30 from the right one, so all three leaves change. -/
theorem delete_borrows_from_both_siblings :
    ∃ t : BTree Nat, InsertRun 3 [⟨10, 11⟩, ⟨20, 21⟩, ⟨30, 31⟩, ⟨40, 41⟩, ⟨5, 6⟩] t ∧
      (t.root.map fun r => r.leaves.map LeafNode.entries) =
        some [[(5, 6), (10, 11)], [(20, 21)], [(30, 31), (40, 41)]] ∧
      ∀ fuel, 2 ≤ fuel → ∃ t', t.delete fuel 20 = .ok t' ∧
        (t'.root.map fun r => r.leaves.map LeafNode.entries) = some [[(5, 6)], [(10, 11), (30, 31)], [(40, 41)]] := by
  have h₁ : (BTree.new 3 : BTree Nat).insertAll 3 [⟨10, 11⟩, ⟨20, 21⟩, ⟨30, 31⟩] =
      .ok ⟨some (.internal [20] [some (.leaf ⟨0, [10], [11], none, some 1⟩),
        some (.leaf ⟨1, [20, 30], [21, 31], some 0, none⟩)]), 3⟩ := rfl
  refine ⟨_, ((InsertRun.new.insertAll 3 h₁).insertAll 3 rfl :
    InsertRun 3 ([] ++ [⟨10, 11⟩, ⟨20, 21⟩, ⟨30, 31⟩] ++ [⟨40, 41⟩, ⟨5, 6⟩])
      ⟨some (.internal [20, 30] [some (.leaf ⟨0, [5, 10], [6, 11], none, some 1⟩),
        some (.leaf ⟨1, [20], [21], some 0, some 2⟩), some (.leaf ⟨2, [30, 40], [31, 41], some 1, none⟩)]), 3⟩),
    rfl, fun fuel hf => ?_⟩
  obtain ⟨f, rfl⟩ : ∃ f, fuel = f + 2 := ⟨fuel - 2, by omega⟩
  exact ⟨_, rfl, rfl⟩

theorem insertRun_order_four_one_to_ten :
    InsertRun 4 ((List.range' 1 10).map fun k => ⟨k, k + 1⟩)
      ⟨some (.internal [7] [some (.internal [3, 5] [some (.leaf ⟨0, [1, 2], [2, 3], none, some 1⟩),
        some (.leaf ⟨1, [3, 4], [4, 5], some 0, some 2⟩), some (.leaf ⟨2, [5, 6], [6, 7], some 1, some 3⟩)]),
        some (.internal [9] [some (.leaf ⟨3, [7, 8], [8, 9], some 2, some 4⟩),
          some (.leaf ⟨4, [9, 10], [10, 11], some 3, none⟩)])]), 4⟩ := by
  have h₁ : (BTree.new 4 : BTree Nat).insertAll 3 [⟨1, 2⟩, ⟨2, 3⟩, ⟨3, 4⟩] =
      .ok ⟨some (.leaf ⟨0, [1, 2, 3], [2, 3, 4], none, none⟩), 4⟩ := rfl
  have h₂ : (⟨some (.leaf ⟨0, [1, 2, 3], [2, 3, 4], none, none⟩), 4⟩ : BTree Nat).insertAll 3
      [⟨4, 5⟩, ⟨5, 6⟩, ⟨6, 7⟩] = .ok ⟨some (.internal [3, 5] [some (.leaf ⟨0, [1, 2], [2, 3], none, some 1⟩),
        some (.leaf ⟨1, [3, 4], [4, 5], some 0, some 2⟩), some (.leaf ⟨2, [5, 6], [6, 7], some 1, none⟩)]), 4⟩ := rfl
  have h₃ : (⟨some (.internal [3, 5] [some (.leaf ⟨0, [1, 2], [2, 3], none, some 1⟩),
      some (.leaf ⟨1, [3, 4], [4, 5], some 0, some 2⟩), some (.leaf ⟨2, [5, 6], [6, 7], some 1, none⟩)]), 4⟩ :
        BTree Nat).insertAll 3 [⟨7, 8⟩, ⟨8, 9⟩] =
      .ok ⟨some (.internal [3, 5, 7] [some (.leaf ⟨0, [1, 2], [2, 3], none, some 1⟩),
        some (.leaf ⟨1, [3, 4], [4, 5], some 0, some 2⟩), some (.leaf ⟨2, [5, 6], [6, 7], some 1, some 3⟩),
        some (.leaf ⟨3, [7, 8], [8, 9], some 2, none⟩)]), 4⟩ := rfl
  exact ((((InsertRun.new.insertAll 3 h₁).insertAll 3 h₂).insertAll 3 h₃).insertAll 3 rfl :
    InsertRun 4 ([] ++ [⟨1, 2⟩, ⟨2, 3⟩, ⟨3, 4⟩] ++ [⟨4, 5⟩, ⟨5, 6⟩, ⟨6, 7⟩] ++ [⟨7, 8⟩, ⟨8, 9⟩] ++
      [⟨9, 10⟩, ⟨10, 11⟩]) _)

end LittleKeyValueDb.LatchManager
