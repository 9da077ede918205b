import Mathlib.Data.Multiset.Basic
import Mathlib.Tactic.Abel
import LittleKeyValueDb.LatchManager.BTree

/-! # The spans a tree holds

What the tree stands for is the multiset of the spans in its leaves, as `(start_key, end_key)`
pairs (`Node.spans`, `BTree.spans`). This module says what each step of `insert` does to it, on any
node and whatever the keys:

* a vector operation that returns moves spans whole: `insert_range` adds its span to the leaf,
  `split_node` shares the node's spans between the halves, `insert_node` adds the spans below the
  new edge, and removing an index from both vectors of a leaf takes one span out;
* a frame of `insert` that returns hands up its node's spans and the new one (`insertFrom_spans`),
  so `BTree::insert`, whenever it returns, adds exactly its span (`BTree.insert_spans`).

The equations that say what a step of `insert` computes (`insertFrom_leaf`, `insertFrom_internal`,
`BTree.insert_eq_ok`) are stated here too.
-/

namespace LittleKeyValueDb.LatchManager
set_option autoImplicit false
set_option linter.unusedSectionVars false

variable {K : Type} [LinearOrder K]

/-! ## Spans -/

/-- The spans below a node, as a multiset. -/
def Node.spans (n : Node K) : Multiset (K × K) := n.entries

/-- The spans below a list of edges. -/
def edgeSpans (edges : List (Option (Node K))) : Multiset (K × K) :=
  (Node.edgeLeaves edges).flatMap LeafNode.entries

/-- The spans a tree holds. -/
def BTree.spans (t : BTree K) : Multiset (K × K) := (t.root.map Node.spans).getD 0

/-- The spans a frame of `insert` hands up. -/
def InsertResult.spans : InsertResult K → Multiset (K × K)
  | .fit n => n.spans
  | .split l _ r => l.spans + r.spans

section Spans
variable {edges : List (Option (Node K))}

@[simp] theorem spans_internal (keys : List K) : (Node.internal keys edges).spans = edgeSpans edges := rfl

@[simp] theorem spans_leaf (l : LeafNode K) : (Node.leaf l).spans = (l.entries : Multiset (K × K)) := by
  simp [Node.spans, Node.entries, Node.leaves]

@[simp] theorem edgeSpans_append (edges' : List (Option (Node K))) :
    edgeSpans (edges ++ edges') = edgeSpans edges + edgeSpans edges' := by
  simp [edgeSpans]

@[simp] theorem edgeSpans_nil : edgeSpans ([] : List (Option (Node K))) = 0 := rfl

@[simp] theorem edgeSpans_cons_some (c : Node K) : edgeSpans (some c :: edges) = c.spans + edgeSpans edges := by
  simp [edgeSpans, Node.edgeLeaves, Node.spans, Node.entries]

@[simp] theorem edgeSpans_cons_none : edgeSpans (none :: edges) = edgeSpans edges := rfl

theorem edgeSpans_eq_of_getElem? {i : Nat} {c : Node K} (h : edges[i]? = some (some c)) :
    edgeSpans edges = c.spans + (edgeSpans (edges.take i) + edgeSpans (edges.drop (i + 1))) := by
  obtain ⟨hi, hc⟩ := List.getElem?_eq_some_iff.1 h
  conv_lhs => rw [← List.take_append_drop i edges, List.drop_eq_getElem_cons hi, hc]
  simp [add_left_comm]

theorem edgeSpans_set {i : Nat} {c : Node K} (c' : Node K) (h : edges[i]? = some (some c)) :
    edgeSpans (edges.set i (some c')) + c.spans = c'.spans + edgeSpans edges := by
  rw [List.set_eq_take_append_cons_drop, if_pos (List.getElem?_eq_some_iff.1 h).1, edgeSpans_eq_of_getElem? h]
  simp only [edgeSpans_append, edgeSpans_cons_some]
  abel

theorem edgeSpans_eraseIdx {i : Nat} {c : Node K} (h : edges[i]? = some (some c)) :
    edgeSpans (edges.eraseIdx i) + c.spans = edgeSpans edges := by
  rw [List.eraseIdx_eq_take_drop_succ, edgeSpans_eq_of_getElem? h, edgeSpans_append]
  abel

/-- Replacing the child at edge `i` by one that holds its spans and those of the child at edge `j`,
and removing edge `j`, keeps the spans below the edges: a merge of two children. -/
theorem edgeSpans_merge {i j : Nat} {c d : Node K} (c' : Node K) (hij : i ≠ j)
    (hc : edges[i]? = some (some c)) (hd : edges[j]? = some (some d)) (h : c'.spans = c.spans + d.spans) :
    edgeSpans ((edges.set i (some c')).eraseIdx j) = edgeSpans edges := by
  have hd' : (edges.set i (some c'))[j]? = some (some d) := by rw [List.getElem?_set_ne hij]; exact hd
  refine add_right_cancel (b := d.spans + c.spans) ?_
  calc _ = edgeSpans (edges.set i (some c')) + c.spans := by rw [← add_assoc, edgeSpans_eraseIdx hd']
    _ = _ := by rw [edgeSpans_set c' hc, h]; abel

theorem edgeSpans_set_set {i j : Nat} {a b : Node K} (a' b' : Node K) (hij : i ≠ j)
    (ha : edges[i]? = some (some a)) (hb : edges[j]? = some (some b)) (h : a'.spans + b'.spans = a.spans + b.spans) :
    edgeSpans ((edges.set i (some a')).set j (some b')) = edgeSpans edges := by
  have hb' : (edges.set i (some a'))[j]? = some (some b) := by rw [List.getElem?_set_ne hij]; exact hb
  refine add_right_cancel (b := a.spans + b.spans) ?_
  calc _ = (edgeSpans ((edges.set i (some a')).set j (some b')) + b.spans) + a.spans := by abel
    _ = _ := by rw [edgeSpans_set b' hb', add_assoc, edgeSpans_set a' ha, ← h]; abel

theorem BTree.spans_eq {t : BTree K} {root : Node K} (h : t.root = some root) : t.spans = root.spans := by
  simp [BTree.spans, h]

end Spans

/-! ## Zips -/

section Zip
variable {α β : Type}

theorem zip_take_append_zip_drop (xs : List α) (ys : List β) (n : Nat) :
    (xs.take n).zip (ys.take n) ++ (xs.drop n).zip (ys.drop n) = xs.zip ys := by
  simp only [List.zip_eq_zipWith, ← List.take_zipWith, ← List.drop_zipWith, List.take_append_drop]

theorem zip_insertAt_perm {xs : List α} {ys : List β} {n : Nat} (x : α) (y : β) (hx : n ≤ xs.length)
    (hy : n ≤ ys.length) :
    ((xs.take n ++ x :: xs.drop n).zip (ys.take n ++ y :: ys.drop n)).Perm ((x, y) :: xs.zip ys) := by
  rw [List.zip_append (by simp; omega), List.zip_cons_cons, ← zip_take_append_zip_drop xs ys n]
  exact List.perm_middle

theorem zip_eraseAt_perm {xs : List α} {ys : List β} {n : Nat} (hx : n < xs.length) (hy : n < ys.length) :
    (xs.zip ys).Perm ((xs[n], ys[n]) :: (xs.take n ++ xs.drop (n + 1)).zip (ys.take n ++ ys.drop (n + 1))) := by
  rw [List.zip_append (by simp; omega), ← zip_take_append_zip_drop xs ys n, List.drop_eq_getElem_cons hx,
    List.drop_eq_getElem_cons hy, List.zip_cons_cons]
  exact List.perm_middle

end Zip

/-! ## Leaves -/

section Leaf
variable {l l' : LeafNode K}

/-- What a leaf is besides its spans: its address and its links. -/
def LeafNode.links (l : LeafNode K) : Nat × Option Nat × Option Nat := (l.addr, l.leftPtr, l.rightPtr)

/-- `l'` is `l` with the span at index `i`, `(s, e)`, taken out of both vectors, its address and
links kept: what `remove_key` and both steals do. -/
def LeafNode.RemovesAt (l l' : LeafNode K) (i : Nat) (s e : K) : Prop :=
  vecRemove l.startKeys i = .ok (s, l'.startKeys) ∧ vecRemove l.endKeys i = .ok (e, l'.endKeys) ∧
    l'.links = l.links

/-- Removing one index from both vectors of a leaf takes one span out. -/
theorem LeafNode.RemovesAt.entries {i : Nat} {s e : K} (h : l.RemovesAt l' i s e) :
    (l.entries : Multiset (K × K)) = (s, e) ::ₘ l'.entries := by
  obtain ⟨hs', hst⟩ := vecRemove_eq_ok.1 h.1
  obtain ⟨he', hen⟩ := vecRemove_eq_ok.1 h.2.1
  obtain ⟨hi, rfl⟩ := List.getElem?_eq_some_iff.1 hs'
  obtain ⟨hj, rfl⟩ := List.getElem?_eq_some_iff.1 he'
  rw [LeafNode.entries, LeafNode.entries, hst, hen]
  exact Multiset.coe_eq_coe.2 (zip_eraseAt_perm hi hj)

theorem LeafNode.insertRange_entries {range : Range K} (h : l.insertRange range = .ok l') :
    (l'.entries : Multiset (K × K)) = (range.startKey, range.endKey) ::ₘ l.entries := by
  simp only [LeafNode.insertRange, bind_eq_ok, vecInsert_eq_ok, except_pure_eq_ok] at h
  obtain ⟨_, ⟨hs, rfl⟩, _, ⟨he, rfl⟩, rfl⟩ := h
  exact Multiset.coe_eq_coe.2 (zip_insertAt_perm _ _ hs he)

theorem splitLeaf_entries {a b : LeafNode K} {addr : Nat} {m : K} (h : splitLeaf l addr = .ok (a, b, m)) :
    a.entries ++ b.entries = l.entries := by
  simp only [splitLeaf, bind_eq_ok, Prod.exists, vecSplitOff_eq_ok, except_pure_eq_ok, Prod.mk.injEq] at h
  obtain ⟨_, _, ⟨-, rfl, rfl⟩, _, _, ⟨-, rfl, rfl⟩, _, -, rfl, rfl, -⟩ := h
  exact zip_take_append_zip_drop _ _ _

theorem LeafNode.removeKey_removesAt {key : K} (h : l.removeKey key = .ok (some l')) :
    ∃ i v, l.RemovesAt l' i key v := by
  unfold LeafNode.removeKey at h
  split at h
  · rename_i idx hidx
    simp only [bind_eq_ok, Prod.exists, except_pure_eq_ok, Option.some_inj] at h
    obtain ⟨s, _, hs, e, _, he, rfl⟩ := h
    obtain ⟨hi, hk, -⟩ := List.findIdx?_eq_some_iff_getElem.1 hidx
    obtain ⟨hs', -⟩ := vecRemove_eq_ok.1 hs
    rw [List.getElem?_eq_getElem hi, Option.some_inj, of_decide_eq_true hk] at hs'
    exact ⟨idx, e, hs' ▸ hs, he, rfl⟩
  · cases h

/-- `remove_key` finds nothing only when no span of the leaf starts at the key. -/
theorem LeafNode.removeKey_eq_none {key : K} (h : l.removeKey key = .ok none) : key ∉ l.startKeys := by
  unfold LeafNode.removeKey at h
  split at h
  · simp only [bind_eq_ok, Prod.exists, except_pure_eq_ok] at h
    obtain ⟨_, _, _, _, _, _, h⟩ := h
    cases h
  · rename_i hidx
    intro hk
    simpa using List.findIdx?_eq_none_iff.1 hidx key hk

theorem LeafNode.stealSmallestKey_removesAt {order : Nat} {r : Range K} (h : l.stealSmallestKey order = .ok (l', r)) :
    l.RemovesAt l' 0 r.startKey r.endKey := by
  unfold LeafNode.stealSmallestKey at h
  split at h
  · cases h
  · simp only [pure_bind, bind_eq_ok, Prod.exists, except_pure_eq_ok, Prod.mk.injEq] at h
    obtain ⟨_, _, hs, _, _, he, rfl, rfl⟩ := h
    exact ⟨hs, he, rfl⟩

theorem LeafNode.stealBiggestKey_removesAt {order : Nat} {r : Range K} (h : l.stealBiggestKey order = .ok (l', r)) :
    l.RemovesAt l' (l.startKeys.length - 1) r.startKey r.endKey := by
  unfold LeafNode.stealBiggestKey at h
  split at h
  · cases h
  · simp only [pure_bind, bind_eq_ok, Prod.exists, except_pure_eq_ok, Prod.mk.injEq] at h
    obtain ⟨_, _, hs, _, _, he, rfl, rfl⟩ := h
    exact ⟨hs, he, rfl⟩

end Leaf

/-! ## Internal nodes -/

section Internal
variable {order idx : Nat} {keys : List K} {edges : List (Option (Node K))}

theorem insertNode_edgeSpans {keys' : List K} {edges' : List (Option (Node K))} {node : Node K} {key : K}
    (h : insertNode keys edges node key = .ok (keys', edges')) : edgeSpans edges' = node.spans + edgeSpans edges := by
  simp only [insertNode, bind_eq_ok, vecInsert_eq_ok, except_pure_eq_ok, Prod.mk.injEq] at h
  obtain ⟨_, ⟨-, rfl⟩, _, ⟨-, rfl⟩, -, rfl⟩ := h
  conv_rhs => rw [← List.take_append_drop (keyIndex keys key + 1) edges]
  simp only [edgeSpans_append, edgeSpans_cons_some]
  abel

theorem splitInternal_edgeSpans {lk rk : List K} {le re : List (Option (Node K))} {m : K}
    (h : splitInternal keys edges = .ok ((lk, le), (rk, re), m)) : edgeSpans le + edgeSpans re = edgeSpans edges := by
  simp only [splitInternal, bind_eq_ok, Prod.exists, vecSplitOff_eq_ok, vecInsert_eq_ok, vecRemove_eq_ok,
    except_pure_eq_ok, Prod.mk.injEq] at h
  obtain ⟨_, _, -, _, _, ⟨-, rfl, rfl⟩, _, ⟨-, rfl⟩, _, _, -, _, _, ⟨-, rfl⟩, ⟨-, rfl⟩, ⟨-, rfl⟩, -⟩ := h
  simp only [List.take_zero, List.drop_zero, List.nil_append, zero_add, List.drop_succ_cons]
  rw [← edgeSpans_append, List.take_append_drop]

theorem splitIfFull_spans {res : InsertResult K} (h : splitIfFull order keys edges = .ok res) :
    res.spans = edgeSpans edges := by
  unfold splitIfFull at h
  split at h
  · cases h
    rfl
  · obtain ⟨⟨⟨lk, le⟩, ⟨rk, re⟩, m⟩, hs, h⟩ := bind_eq_ok.1 h
    cases h
    exact splitInternal_edgeSpans hs

/-- A pass of the upward loop at the edge of child `c`: what came back takes the place of `c`. -/
theorem insertUp_spans {c : Node K} {res res' : InsertResult K} (hc : edges[idx]? = some (some c))
    (h : insertUp order keys edges idx res = .ok res') : res'.spans + c.spans = res.spans + edgeSpans edges := by
  cases res with
  | fit c' =>
    cases h
    exact edgeSpans_set c' hc
  | split c' m r =>
    obtain ⟨⟨keys', edges'⟩, hins, hsplit⟩ := bind_eq_ok.1 h
    rw [splitIfFull_spans hsplit, insertNode_edgeSpans hins, add_assoc, edgeSpans_set c' hc]
    simp only [InsertResult.spans]
    abel

end Internal

/-! ## A frame of `insert` -/

section Frame
variable {order : Nat} {range : Range K} {addr : Nat}

theorem insertIntoLeaf_spans {l : LeafNode K} {res : InsertResult K} (h : insertIntoLeaf order range addr l = .ok res) :
    res.spans = (range.startKey, range.endKey) ::ₘ (Node.leaf l).spans := by
  obtain ⟨l', hl', h⟩ := bind_eq_ok.1 h
  rw [spans_leaf, ← LeafNode.insertRange_entries hl']
  split at h
  · cases h
    simp [InsertResult.spans]
  · obtain ⟨⟨a, b, m⟩, hs, h⟩ := bind_eq_ok.1 h
    cases h
    simp [InsertResult.spans, ← splitLeaf_entries hs]

theorem insertFrom_leaf {fuel : Nat} {l : LeafNode K} {next : Option (Node K)} :
    insertFrom order range addr (fuel + 1) (.leaf l) next = insertIntoLeaf order range addr l := rfl

theorem insertFrom_internal {fuel : Nat} {keys : List K} {edges : List (Option (Node K))} {next : Option (Node K)}
    {c : Node K} (hk : keys ≠ []) (hc : edges[keyIndex keys range.startKey]? = some (some c)) :
    insertFrom order range addr (fuel + 1) (.internal keys edges) next =
      insertFrom order range addr fuel c (some c) >>= insertUp order keys edges (keyIndex keys range.startKey) := by
  simp [insertFrom, hk, vecIndex, hc]

theorem insertFrom_internal_eq_ok {fuel : Nat} {keys : List K} {edges : List (Option (Node K))}
    {next : Option (Node K)} {res : InsertResult K} (hk : keys ≠ [])
    (h : insertFrom order range addr (fuel + 1) (.internal keys edges) next = .ok res) :
    ∃ c resC, edges[keyIndex keys range.startKey]? = some (some c) ∧
      insertFrom order range addr fuel c (some c) = .ok resC ∧
      insertUp order keys edges (keyIndex keys range.startKey) resC = .ok res := by
  simp only [insertFrom, List.isEmpty_iff, hk, if_false, bind_eq_ok, vecIndex_eq_ok] at h
  obtain ⟨oc, hoc, h⟩ := h
  cases oc with
  | none => cases h
  | some c =>
    obtain ⟨resC, h₁, h₂⟩ := bind_eq_ok.1 h
    exact ⟨c, resC, hoc, h₁, h₂⟩

/-- **Spans of a frame.** Whatever the node and the keys, a frame that returns hands up the node's
spans and the new one. -/
theorem insertFrom_spans :
    ∀ {fuel : Nat} {n : Node K} {next : Option (Node K)} {res : InsertResult K},
      (next = none ∨ next = some n) → insertFrom order range addr fuel n next = .ok res →
        res.spans = (range.startKey, range.endKey) ::ₘ n.spans
  | 0, _, _, _, _, h => by cases h
  | _ + 1, .leaf _, _, _, _, h => insertIntoLeaf_spans h
  | fuel + 1, .internal keys edges, _, _, hnext, h => by
    by_cases hk : keys = []
    · subst hk
      rcases hnext with rfl | rfl
      · cases h
      · exact insertFrom_spans (.inr rfl) (by simpa [insertFrom] using h)
    · obtain ⟨c, resC, hc, hrc, hup⟩ := insertFrom_internal_eq_ok hk h
      have h' := insertUp_spans hc hup
      rw [insertFrom_spans (.inr rfl) hrc, Multiset.cons_add, add_comm c.spans, ← Multiset.cons_add] at h'
      exact add_right_cancel h'

end Frame

/-! ## `BTree::insert` -/

/-- The root after `insert`: the frame's node, or a new root over the two halves of a split. -/
def InsertResult.toRoot : InsertResult K → Node K
  | .fit n => n
  | .split l median r => .internal [median] [some l, some r]

/-- The spans of a list of ranges. -/
def rangePairs (rs : List (Range K)) : List (K × K) := rs.map fun r => (r.startKey, r.endKey)

theorem InsertResult.toRoot_spans (res : InsertResult K) : res.toRoot.spans = res.spans := by
  cases res <;> simp [InsertResult.toRoot, InsertResult.spans]

theorem BTree.insert_eq_ok {fuel : Nat} {t t' : BTree K} {range : Range K} {root : Node K}
    (hroot : t.root = some root) :
    t.insert fuel range = .ok t' ↔
      ∃ res, insertFrom t.order range root.freshAddr fuel root none = .ok res ∧
        t' = { t with root := some res.toRoot } := by
  simp only [BTree.insert, hroot]
  cases insertFrom t.order range root.freshAddr fuel root none with
  | error e => simp [bind, Except.bind]
  | ok res => cases res <;> simp [bind, Except.bind, InsertResult.toRoot, pure, Except.pure, eq_comm]

/-- **`insert` adds its span.** Whatever the tree and the keys, an `insert` that returns adds
exactly its span to the spans the tree holds. -/
theorem BTree.insert_spans {fuel : Nat} {t t' : BTree K} {range : Range K} (h : t.insert fuel range = .ok t') :
    t'.spans = (range.startKey, range.endKey) ::ₘ t.spans := by
  cases hroot : t.root with
  | none => simp [BTree.insert, hroot] at h
  | some root =>
    obtain ⟨res, hres, rfl⟩ := (BTree.insert_eq_ok hroot).1 h
    rw [BTree.spans_eq rfl, BTree.spans_eq hroot, InsertResult.toRoot_spans, insertFrom_spans (.inl rfl) hres]

/-- Along a run of `insert`, whatever the order and the keys, the tree holds every span inserted,
as often as it was inserted. -/
theorem InsertRun.spans {order : Nat} {rs : List (Range K)} {t : BTree K} (hrun : InsertRun order rs t) :
    t.spans = (rangePairs rs : Multiset (K × K)) := by
  induction hrun with
  | new => rfl
  | insert _ _ hins ih =>
    rw [BTree.insert_spans hins, ih]
    simp only [rangePairs, List.map_append, List.map_singleton, Multiset.cons_coe, Multiset.coe_eq_coe]
    exact (List.perm_append_singleton _ _).symm

end LittleKeyValueDb.LatchManager
