import Mathlib.Order.Lattice
import LittleKeyValueDb.Fault

/-! # Nodes of the latch manager's interval B-tree (`latch_manager/latch_interval_btree.rs`)

The tree keeps latched spans by their start key. A leaf holds the spans as two aligned vectors,
`start_keys` and `end_keys`; an internal node holds separator `keys` and one more `edges`.

## Transcription choices

* **`Rc` nodes are values.** Every `Rc<Node>` the code creates sits in exactly one edge (or the
  root), so the nodes form a tree, and a node mutated through an `Rc` is the same node rebuilt in
  place. A `RefCell<Option<Rc<Node>>>` edge is an `Option (Node K)`.
* **`Weak` links are addresses.** `left_ptr` and `right_ptr` name the allocation of another leaf;
  `LeafNode.addr` is the allocation the leaf lives in. Upgrading a link finds the live leaf with
  that address, if any.
* **`order`.** Every node stores the tree's `order` (`BTree::new` passes it to the first leaf,
  `split_node` copies it, a new root takes `self.order`), so it is passed as a parameter here.
* **Shared scans.** `insert_node`, `insert_range` and the descents of `find_leaf_to_add` and
  `find_leaf_to_delete` all stop at the first key greater than the key they place: that position
  is `keyIndex`. The occupancy tests of leaves and internal nodes differ only in the vector they
  count: `isUnderflowLen`, `hasSpareKeyLen`, `hasCapacityLen`.
-/

namespace LittleKeyValueDb.LatchManager
set_option autoImplicit false
set_option linter.unusedSectionVars false

/-- `LeafNode`. -/
structure LeafNode (K : Type) where
  addr : Nat
  startKeys : List K
  endKeys : List K
  leftPtr : Option Nat
  rightPtr : Option Nat
  deriving DecidableEq

/-- `Node`: an internal node with its separator keys and edges, or a leaf. -/
inductive Node (K : Type) where
  | internal (keys : List K) (edges : List (Option (Node K)))
  | leaf (node : LeafNode K)

/-- `Range`: a latched span. -/
structure Range (K : Type) where
  startKey : K
  endKey : K
  deriving DecidableEq

/-- `Direction`: which side of the separator `find_leaf_to_delete` went. -/
inductive Direction where
  | left
  | right
  deriving DecidableEq

section Ops
variable {K : Type} [LinearOrder K]

/-! ## Where a key goes -/

/-- The position of the first key greater than `key`, or the length when there is none. -/
def keyIndex (keys : List K) (key : K) : Nat := keys.findIdx (fun k => key < k)

theorem keyIndex_le (keys : List K) (key : K) : keyIndex keys key ≤ keys.length :=
  List.findIdx_le_length _

/-! ## Occupancy -/

/-- `has_capacity`: fewer than `order` keys. -/
def hasCapacityLen (order len : Nat) : Bool := len < order

/-- `is_underflow`: fewer than `order / 2` keys. -/
def isUnderflowLen (order len : Nat) : Bool := len < order / 2

/-- `has_spare_key`: more than `order / 2` keys. -/
def hasSpareKeyLen (order len : Nat) : Bool := order / 2 < len

/-- `LeafNode::has_capacity`. -/
def LeafNode.hasCapacity (order : Nat) (l : LeafNode K) : Bool := hasCapacityLen order l.startKeys.length

/-- `LeafNode::is_underflow`. -/
def LeafNode.isUnderflow (order : Nat) (l : LeafNode K) : Bool := isUnderflowLen order l.startKeys.length

/-- `LeafNode::has_spare_key`. -/
def LeafNode.hasSpareKey (order : Nat) (l : LeafNode K) : Bool := hasSpareKeyLen order l.startKeys.length

/-- `InternalNode::has_capacity`. -/
def InternalNode.hasCapacity (order : Nat) (keys : List K) : Bool := hasCapacityLen order keys.length

/-- `InternalNode::is_underflow`. -/
def InternalNode.isUnderflow (order : Nat) (keys : List K) : Bool := isUnderflowLen order keys.length

/-- `InternalNode::has_spare_key`. -/
def InternalNode.hasSpareKey (order : Nat) (keys : List K) : Bool := hasSpareKeyLen order keys.length

/-- `Node::is_underflow`. -/
def Node.isUnderflow (order : Nat) : Node K → Bool
  | .internal keys _ => InternalNode.isUnderflow order keys
  | .leaf l => l.isUnderflow order

/-- `Node::has_spare_key`. -/
def Node.hasSpareKey (order : Nat) : Node K → Bool
  | .internal keys _ => InternalNode.hasSpareKey order keys
  | .leaf l => l.hasSpareKey order

/-- `Node::get_lower`: the first key. -/
def Node.getLower : Node K → Option K
  | .internal keys _ => keys.head?
  | .leaf l => l.startKeys.head?

/-- `Node::get_keys`: the separator keys, or a leaf's start keys. -/
def Node.getKeys : Node K → List K
  | .internal keys _ => keys
  | .leaf l => l.startKeys

/-- `Node::as_leaf_node`. -/
def Node.asLeafNode : Node K → Except Fault (LeafNode K)
  | .internal _ _ => throw (.panic "Cannot coerce leaf node to internal node")
  | .leaf l => pure l

/-- `Node::as_internal_node`: the keys and edges. -/
def Node.asInternalNode : Node K → Except Fault (List K × List (Option (Node K)))
  | .internal keys edges => pure (keys, edges)
  | .leaf _ => throw (.panic "Cannot coerce leaf node to internal node")

/-- `Node::update_key_at_index`. -/
def Node.updateKeyAtIndex (idx : Nat) (newKey : K) : Node K → Except Fault (Node K)
  | .internal keys edges => do pure (.internal (← vecSet keys idx newKey) edges)
  | .leaf _ => throw (.panic "Currently don't support updating key for leaf node")

/-! ## Inserting -/

/-- `LeafNode::insert_range`: the span goes after the start keys not greater than its own. -/
def LeafNode.insertRange (l : LeafNode K) (range : Range K) : Except Fault (LeafNode K) := do
  let insertIdx := keyIndex l.startKeys range.startKey
  let startKeys ← vecInsert l.startKeys insertIdx range.startKey
  let endKeys ← vecInsert l.endKeys insertIdx range.endKey
  pure { l with startKeys, endKeys }

/-- `InternalNode::insert_node`: `insertKey` goes after the keys not greater than it, and `node`
becomes the edge to its right. -/
def insertNode (keys : List K) (edges : List (Option (Node K))) (node : Node K) (insertKey : K) :
    Except Fault (List K × List (Option (Node K))) := do
  let insertIdx := keyIndex keys insertKey
  let keys ← vecInsert keys insertIdx insertKey
  let edges ← vecInsert edges (insertIdx + 1) (some node)
  pure (keys, edges)

/-! ## Splitting -/

/-- `split_node`, leaf branch: the upper half of the spans moves to a new leaf at `addr`, linked
between the leaf and its old right neighbour. Returns the leaf, the new leaf, and the new leaf's
first start key. -/
def splitLeaf (l : LeafNode K) (addr : Nat) : Except Fault (LeafNode K × LeafNode K × K) := do
  let mid := l.startKeys.length / 2
  let (startKeys, rightStartKeys) ← vecSplitOff l.startKeys mid
  let (endKeys, rightEndKeys) ← vecSplitOff l.endKeys mid
  let rightSibling := l.rightPtr
  let rightStart ← vecIndex rightStartKeys 0
  let newRightNode : LeafNode K :=
    { addr, startKeys := rightStartKeys, endKeys := rightEndKeys, leftPtr := some l.addr,
      rightPtr := rightSibling }
  pure ({ l with startKeys, endKeys, rightPtr := some addr }, newRightNode, rightStart)

/-- `split_node`, internal branch: keys `[0, mid)` and edges `[0, mid]` stay, key `mid` moves up,
and the rest goes to a new node. -/
def splitInternal (keys : List K) (edges : List (Option (Node K))) :
    Except Fault ((List K × List (Option (Node K))) × (List K × List (Option (Node K))) × K) := do
  let midIdx := keys.length / 2
  let (keys, rightKeys) ← vecSplitOff keys midIdx
  let (edges, rightEdges) ← vecSplitOff edges (midIdx + 1)
  let rightEdges ← vecInsert rightEdges 0 none
  let (rightStart, rightKeys) ← vecRemove rightKeys 0
  let (_, rightEdges) ← vecRemove rightEdges 0
  pure ((keys, edges), (rightKeys, rightEdges), rightStart)

/-- `split_node`: the node as it stays, the new right node, and the key that separates them. -/
def splitNode (addr : Nat) : Node K → Except Fault (Node K × Node K × K)
  | .leaf l => do
    let (l, r, m) ← splitLeaf l addr
    pure (.leaf l, .leaf r, m)
  | .internal keys edges => do
    let ((lk, le), (rk, re), m) ← splitInternal keys edges
    pure (.internal lk le, .internal rk re, m)

/-! ## Removing -/

/-- `LeafNode::find_key_idx`. -/
def LeafNode.findKeyIdx (l : LeafNode K) (key : K) : Option Nat :=
  l.startKeys.findIdx? (fun k => k = key)

/-- `LeafNode::find_next_larger_key`. -/
def LeafNode.findNextLargerKey (l : LeafNode K) (key : K) : Option Nat :=
  l.startKeys.findIdx? (fun k => k > key)

/-- `LeafNode::remove_key`: the first span starting at `keyToDelete` goes; `none` when there is
none. -/
def LeafNode.removeKey (l : LeafNode K) (keyToDelete : K) : Except Fault (Option (LeafNode K)) :=
  match l.findKeyIdx keyToDelete with
  | some idx => do
    let (_, startKeys) ← vecRemove l.startKeys idx
    let (_, endKeys) ← vecRemove l.endKeys idx
    pure (some { l with startKeys, endKeys })
  | none => pure none

/-- `LeafNode::steal_smallest_key`: the leaf without its first span, and that span. -/
def LeafNode.stealSmallestKey (order : Nat) (l : LeafNode K) : Except Fault (LeafNode K × Range K) := do
  if !l.hasSpareKey order then throw (.panic "Cannot steal key from leaf, will underflow")
  let (startKey, startKeys) ← vecRemove l.startKeys 0
  let (endKey, endKeys) ← vecRemove l.endKeys 0
  pure ({ l with startKeys, endKeys }, { startKey, endKey })

/-- `LeafNode::steal_biggest_key`: the leaf without its last span, and that span. -/
def LeafNode.stealBiggestKey (order : Nat) (l : LeafNode K) : Except Fault (LeafNode K × Range K) := do
  if !l.hasSpareKey order then throw (.panic "Cannot steal key from leaf, will underflow")
  let idx := l.startKeys.length - 1
  let (startKey, startKeys) ← vecRemove l.startKeys idx
  let (endKey, endKeys) ← vecRemove l.endKeys idx
  pure ({ l with startKeys, endKeys }, { startKey, endKey })

/-! ## Traversals -/

mutual
/-- The leaves, left to right. -/
def Node.leaves : Node K → List (LeafNode K)
  | .internal _ edges => Node.edgeLeaves edges
  | .leaf l => [l]

/-- The leaves below a list of edges, left to right. -/
def Node.edgeLeaves : List (Option (Node K)) → List (LeafNode K)
  | [] => []
  | none :: edges => Node.edgeLeaves edges
  | some n :: edges => n.leaves ++ Node.edgeLeaves edges
end

/-- A leaf's spans as `(start_key, end_key)` pairs. -/
def LeafNode.entries (l : LeafNode K) : List (K × K) := l.startKeys.zip l.endKeys

/-- The spans read off the leaves left to right. -/
def Node.entries (n : Node K) : List (K × K) := n.leaves.flatMap LeafNode.entries

mutual
/-- Every node of the subtree, the node first. -/
def Node.nodes : Node K → List (Node K)
  | .internal keys edges => .internal keys edges :: Node.edgeNodes edges
  | .leaf l => [.leaf l]

/-- Every node below a list of edges. -/
def Node.edgeNodes : List (Option (Node K)) → List (Node K)
  | [] => []
  | none :: edges => Node.edgeNodes edges
  | some n :: edges => n.nodes ++ Node.edgeNodes edges
end

/-- Every node of the subtree but the node itself. -/
def Node.descendants : Node K → List (Node K)
  | .internal _ edges => Node.edgeNodes edges
  | .leaf _ => []

mutual
/-- The depth of each leaf below the node, left to right. -/
def Node.leafDepths : Node K → List Nat
  | .internal _ edges => (Node.edgeLeafDepths edges).map (· + 1)
  | .leaf _ => [0]

/-- The depth of each leaf below a list of edges, counted from the edges' targets. -/
def Node.edgeLeafDepths : List (Option (Node K)) → List Nat
  | [] => []
  | none :: edges => Node.edgeLeafDepths edges
  | some n :: edges => n.leafDepths ++ Node.edgeLeafDepths edges
end

/-- The largest leaf address a leaf holds or links to. -/
def LeafNode.maxAddr (l : LeafNode K) : Nat := max l.addr (max (l.leftPtr.getD 0) (l.rightPtr.getD 0))

/-- The address `Rc::new` gives the next leaf: one past every address in use or linked to. -/
def Node.freshAddr (n : Node K) : Nat := (n.leaves.map LeafNode.maxAddr).foldr max 0 + 1

/-! ## What each operation computes

With every index in range, each operation returns; these lemmas state its result, so that later
proofs never unfold it. -/

theorem keyIndex_nil (key : K) : keyIndex [] key = 0 := rfl

theorem keyIndex_cons (s : K) (ss : List K) (key : K) :
    keyIndex (s :: ss) key = if key < s then 0 else keyIndex ss key + 1 := by
  by_cases h : key < s <;> simp [keyIndex, List.findIdx_cons, h]

/-- The leaf `insert_range` returns when its two vectors are as long. -/
def LeafNode.withRange (l : LeafNode K) (range : Range K) : LeafNode K :=
  { l with
    startKeys := l.startKeys.take (keyIndex l.startKeys range.startKey) ++
      range.startKey :: l.startKeys.drop (keyIndex l.startKeys range.startKey)
    endKeys := l.endKeys.take (keyIndex l.startKeys range.startKey) ++
      range.endKey :: l.endKeys.drop (keyIndex l.startKeys range.startKey) }

theorem LeafNode.insertRange_eq (l : LeafNode K) (range : Range K)
    (h : l.startKeys.length = l.endKeys.length) : l.insertRange range = pure (l.withRange range) := by
  have hi := keyIndex_le l.startKeys range.startKey
  simp only [insertRange, vecInsert_of_le _ hi, vecInsert_of_le _ (h ▸ hi)]
  rfl

theorem insertNode_eq (keys : List K) (edges : List (Option (Node K))) (node : Node K) (insertKey : K)
    (h : edges.length = keys.length + 1) :
    insertNode keys edges node insertKey = pure
      (keys.take (keyIndex keys insertKey) ++ insertKey :: keys.drop (keyIndex keys insertKey),
        edges.take (keyIndex keys insertKey + 1) ++ some node :: edges.drop (keyIndex keys insertKey + 1)) := by
  have hi := keyIndex_le keys insertKey
  simp only [insertNode, vecInsert_of_le _ hi, vecInsert_of_le _ (show keyIndex keys insertKey + 1 ≤ edges.length by omega)]
  rfl

/-- The leaf `split_node` keeps: its lower half, linked to the new leaf at `addr`. -/
def LeafNode.lowerHalf (l : LeafNode K) (addr : Nat) : LeafNode K :=
  { l with
    startKeys := l.startKeys.take (l.startKeys.length / 2)
    endKeys := l.endKeys.take (l.startKeys.length / 2)
    rightPtr := some addr }

/-- The leaf `split_node` allocates at `addr`: the upper half, between the leaf and the leaf's old
right neighbour. -/
def LeafNode.upperHalf (l : LeafNode K) (addr : Nat) : LeafNode K where
  addr := addr
  startKeys := l.startKeys.drop (l.startKeys.length / 2)
  endKeys := l.endKeys.drop (l.startKeys.length / 2)
  leftPtr := some l.addr
  rightPtr := l.rightPtr

theorem splitLeaf_eq (l : LeafNode K) (addr : Nat) {m : K} (h : l.startKeys.length = l.endKeys.length)
    (hm : l.startKeys[l.startKeys.length / 2]? = some m) :
    splitLeaf l addr = pure (l.lowerHalf addr, l.upperHalf addr, m) := by
  have hle : l.startKeys.length / 2 ≤ l.startKeys.length := Nat.div_le_self _ _
  simp [splitLeaf, vecSplitOff_of_le hle, vecSplitOff_of_le (show l.startKeys.length / 2 ≤ l.endKeys.length by omega),
    vecIndex, hm, LeafNode.lowerHalf, LeafNode.upperHalf]

theorem splitInternal_eq (keys : List K) (edges : List (Option (Node K))) {m : K}
    (h : edges.length = keys.length + 1) (hm : keys[keys.length / 2]? = some m) :
    splitInternal keys edges = pure
      ((keys.take (keys.length / 2), edges.take (keys.length / 2 + 1)),
        (keys.drop (keys.length / 2 + 1), edges.drop (keys.length / 2 + 1)), m) := by
  have hlt : keys.length / 2 < keys.length := by
    by_contra hc
    simp [List.getElem?_eq_none (Nat.le_of_not_lt hc)] at hm
  have hm' : (keys.drop (keys.length / 2))[0]? = some m := by simpa using hm
  simp only [splitInternal, vecSplitOff_of_le hlt.le, vecSplitOff_of_le (show keys.length / 2 + 1 ≤ edges.length by omega),
    vecInsert_of_le _ (Nat.zero_le _), vecRemove, hm']
  simp [List.drop_drop, hm]

/-! ## Traversals below a list of edges -/

section Edges
variable {edges edges' : List (Option (Node K))}

@[simp] theorem Node.edgeLeaves_append :
    Node.edgeLeaves (edges ++ edges') = Node.edgeLeaves edges ++ Node.edgeLeaves edges' := by
  induction edges with
  | nil => rfl
  | cons e edges ih => cases e <;> simp [Node.edgeLeaves, ih]

@[simp] theorem Node.edgeNodes_append :
    Node.edgeNodes (edges ++ edges') = Node.edgeNodes edges ++ Node.edgeNodes edges' := by
  induction edges with
  | nil => rfl
  | cons e edges ih => cases e <;> simp [Node.edgeNodes, ih]

theorem Node.mem_edgeLeaves {l : LeafNode K} :
    l ∈ Node.edgeLeaves edges ↔ ∃ c, some c ∈ edges ∧ l ∈ c.leaves := by
  induction edges with
  | nil => simp [Node.edgeLeaves]
  | cons e edges ih => cases e <;> simp [Node.edgeLeaves, ih, or_and_right, exists_or]

theorem Node.mem_edgeNodes {m : Node K} :
    m ∈ Node.edgeNodes edges ↔ ∃ c, some c ∈ edges ∧ m ∈ c.nodes := by
  induction edges with
  | nil => simp [Node.edgeNodes]
  | cons e edges ih => cases e <;> simp [Node.edgeNodes, ih, or_and_right, exists_or]

/-- A node below a child is a node of the parent. -/
theorem Node.mem_nodes_of_child {keys : List K} {c m : Node K} (hc : some c ∈ edges) (hm : m ∈ c.nodes) :
    m ∈ (Node.internal keys edges).nodes :=
  List.mem_cons_of_mem _ (Node.mem_edgeNodes.2 ⟨c, hc, hm⟩)

theorem Node.mem_edgeLeafDepths {d : Nat} :
    d ∈ Node.edgeLeafDepths edges ↔ ∃ c, some c ∈ edges ∧ d ∈ c.leafDepths := by
  induction edges with
  | nil => simp [Node.edgeLeafDepths]
  | cons e edges ih => cases e <;> simp [Node.edgeLeafDepths, ih, or_and_right, exists_or]

end Edges

theorem Node.nodes_eq_cons (n : Node K) : n.nodes = n :: n.descendants := by
  cases n <;> rfl

end Ops

end LittleKeyValueDb.LatchManager
