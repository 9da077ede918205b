import Mathlib.Logic.Relation
import LittleKeyValueDb.LatchManager.Spans

/-! # What `delete` does to the spans

`delete` edits the tree through handles on the nodes of its descent; in the model each edit
rewrites the node at a path of edge indices (`Node.modify`). What an edit does is stated once:

* the spans change only at the node it rewrites (`Node.modify_spans`);
* the nodes at paths that branch off elsewhere stay as they were (`Node.subtree_modify_of_ne`);
* an edit that only rewrites separator keys keeps the spans and every node below
  (`Node.modify_rekey`).

The descent of `find_leaf_to_delete` records the path to the leaf it returns, and its last stack
entry is the leaf's parent (`findLeafToDeleteLoop_path`). So each edit of `delete` lands where the
code means it to. What a `delete` that returns does is stated once (`BTree.delete_eq_ok`): nothing,
or the leaf loses the span `remove_key` takes out, followed by `Repairs`, a chain of `RepairStep`s:
`update_ancestors_after_delete` and the borrows' ancestor loops set separator keys, and each borrow
moves one span from a sibling leaf into the leaf. Each invariant of `delete` is then one lemma per
kind of step. Here: whenever `delete k` returns, the tree holds the same spans, less at most one span
starting at `k` (`BTree.delete_spans`), whatever the tree: on the path without underflow and on
both borrowing paths, no span is lost, duplicated or changed.
-/

namespace LittleKeyValueDb.LatchManager
set_option autoImplicit false
set_option linter.unusedSectionVars false

variable {K : Type} [LinearOrder K]

/-! ## Paths -/

/-- The node at a path of edge indices, if there is one. -/
def Node.subtree : Node K → List Nat → Option (Node K)
  | n, [] => some n
  | .internal _ edges, i :: path =>
    match edges[i]? with
    | some (some c) => c.subtree path
    | _ => none
  | .leaf _, _ :: _ => none

/-- `n'` is `n` with its separator keys rewritten: the same edges. -/
def Node.Rekeys (n n' : Node K) : Prop := ∃ keys keys' edges, n = .internal keys edges ∧ n' = .internal keys' edges

section Paths
variable {f : Node K → Except Fault (Node K)}

@[simp] theorem Node.subtree_nil (n : Node K) : n.subtree [] = some n := by cases n <;> rfl

@[simp] theorem Node.modify_nil (n : Node K) : n.modify f [] = f n := by cases n <;> rfl

theorem Node.subtree_internal_cons {keys : List K} {edges : List (Option (Node K))} {i : Nat} {c : Node K}
    (hc : edges[i]? = some (some c)) (path : List Nat) : (Node.internal keys edges).subtree (i :: path) = c.subtree path := by
  simp [Node.subtree, hc]

theorem Node.subtree_singleton {keys : List K} {edges : List (Option (Node K))} {i : Nat} {c : Node K} :
    (Node.internal keys edges).subtree [i] = some c ↔ edges[i]? = some (some c) := by
  rcases h : edges[i]? with _ | _ | c' <;> simp [Node.subtree, h]

theorem Node.subtree_append (n : Node K) (p q : List Nat) : n.subtree (p ++ q) = (n.subtree p).bind (·.subtree q) := by
  induction p generalizing n with
  | nil => simp
  | cons i p ih =>
    cases n with
    | leaf l => rfl
    | internal keys edges =>
      rcases hc : edges[i]? with _ | _ | c
      all_goals simp [Node.subtree, hc, ih]

theorem Node.modify_cons {keys : List K} {edges : List (Option (Node K))} {i : Nat} {p : List Nat} {n' : Node K}
    (h : (Node.internal keys edges).modify f (i :: p) = .ok n') :
    (∃ c c', edges[i]? = some (some c) ∧ c.modify f p = .ok c' ∧ n' = .internal keys (edges.set i (some c'))) ∨
      ((∀ c, edges[i]? ≠ some (some c)) ∧ n' = .internal keys edges) := by
  simp only [Node.modify] at h
  split at h
  · rename_i c hc
    obtain ⟨c', hc', h⟩ := bind_eq_ok.1 h
    exact .inl ⟨c, c', hc, hc', ((except_pure_eq_ok _ _).1 h).symm⟩
  · rename_i hc
    exact .inr ⟨fun c h' => hc c h', ((except_pure_eq_ok _ _).1 h).symm⟩

theorem Node.subtree_set_cons {keys : List K} {edges : List (Option (Node K))} {i : Nat} {c c' : Node K}
    (hc : edges[i]? = some (some c)) (path : List Nat) :
    (Node.internal keys (edges.set i (some c'))).subtree (i :: path) = c'.subtree path :=
  Node.subtree_internal_cons (List.getElem?_set_self (List.getElem?_eq_some_iff.1 hc).1) path

/-- **An edit at a path.** When the path names a node, the edit rewrote that node, and the spans
changed by what the rewrite changed there. -/
theorem Node.modify_spans {s : Node K} :
    ∀ {path : List Nat} {n n' : Node K}, n.subtree path = some s → n.modify f path = .ok n' →
      ∃ s', f s = .ok s' ∧ n'.subtree path = some s' ∧ n'.spans + s.spans = n.spans + s'.spans
  | [], _, n', hs, h => by
    rw [Node.subtree_nil, Option.some_inj] at hs
    subst hs
    exact ⟨n', by rwa [Node.modify_nil] at h, Node.subtree_nil _, add_comm _ _⟩
  | i :: path, .internal keys edges, _, hs, h => by
    rcases Node.modify_cons h with ⟨c, c', hc, hc', rfl⟩ | ⟨hc, -⟩
    · rw [Node.subtree_internal_cons hc] at hs
      obtain ⟨s', hs', hsub, hsp⟩ := Node.modify_spans hs hc'
      refine ⟨s', hs', by rw [Node.subtree_set_cons hc, hsub], add_right_cancel (b := c.spans) ?_⟩
      have hset := edgeSpans_set c' hc
      calc edgeSpans (edges.set i (some c')) + s.spans + c.spans
          = (edgeSpans (edges.set i (some c')) + c.spans) + s.spans := by abel
        _ = edgeSpans edges + (c'.spans + s.spans) := by rw [hset]; abel
        _ = edgeSpans edges + s'.spans + c.spans := by rw [hsp]; abel
    · rcases he : edges[i]? with _ | _ | c
      all_goals simp [Node.subtree, he] at hs
      exact absurd he (hc c)
  | _ :: _, .leaf _, _, hs, _ => by cases hs

theorem Node.modify_ok {s s' : Node K} (hf : f s = .ok s') :
    ∀ {path : List Nat} {n : Node K}, n.subtree path = some s →
      ∃ n', n.modify f path = .ok n' ∧ n'.subtree path = some s'
  | [], n, hs => by
    rw [Node.subtree_nil, Option.some_inj] at hs
    subst hs
    exact ⟨s', by rwa [Node.modify_nil], Node.subtree_nil _⟩
  | i :: path, .internal keys edges, hs => by
    rcases hc : edges[i]? with _ | _ | c
    all_goals simp only [Node.subtree, hc, reduceCtorEq] at hs
    obtain ⟨c', hc', hsub⟩ := Node.modify_ok hf hs
    exact ⟨.internal keys (edges.set i (some c')), by simp [Node.modify, hc, hc', bind, Except.bind, pure, Except.pure],
      by rw [Node.subtree_set_cons hc, hsub]⟩
  | _ :: _, .leaf _, hs => by cases hs

theorem Node.mem_nodes_of_subtree {s m : Node K} :
    ∀ {path : List Nat} {n : Node K}, n.subtree path = some s → m ∈ s.nodes → m ∈ n.nodes
  | [], n, hs, hm => by
    rw [Node.subtree_nil, Option.some_inj] at hs
    exact hs ▸ hm
  | i :: path, .internal keys edges, hs, hm => by
    rcases hc : edges[i]? with _ | _ | c
    all_goals simp only [Node.subtree, hc, reduceCtorEq] at hs
    exact Node.mem_nodes_of_child (List.mem_iff_getElem?.2 ⟨i, hc⟩) (Node.mem_nodes_of_subtree hs hm)
  | _ :: _, .leaf _, hs, _ => by cases hs

theorem Node.mem_leaves_of_subtree {s : Node K} {l : LeafNode K} :
    ∀ {path : List Nat} {n : Node K}, n.subtree path = some s → l ∈ s.leaves → l ∈ n.leaves
  | [], n, hs, hl => by
    rw [Node.subtree_nil, Option.some_inj] at hs
    exact hs ▸ hl
  | i :: path, .internal keys edges, hs, hl => by
    rcases hc : edges[i]? with _ | _ | c
    all_goals simp only [Node.subtree, hc, reduceCtorEq] at hs
    exact Node.mem_edgeLeaves.2 ⟨c, List.mem_iff_getElem?.2 ⟨i, hc⟩, Node.mem_leaves_of_subtree hs hl⟩
  | _ :: _, .leaf _, hs, _ => by cases hs

theorem Node.subtree_modify_of_ne {i j : Nat} {q q' : List Nat} (hij : i ≠ j) :
    ∀ {p : List Nat} {n n' : Node K}, n.modify f (p ++ i :: q) = .ok n' →
      n'.subtree (p ++ j :: q') = n.subtree (p ++ j :: q')
  | [], .internal keys edges, _, h => by
    rcases Node.modify_cons h with ⟨c, c', hc, -, rfl⟩ | ⟨-, rfl⟩
    · simp [Node.subtree, List.getElem?_set_ne hij]
    · rfl
  | k :: p, .internal keys edges, _, h => by
    rcases Node.modify_cons h with ⟨c, c', hc, hc', rfl⟩ | ⟨-, rfl⟩
    · rw [List.cons_append, Node.subtree_set_cons hc, Node.subtree_internal_cons hc]
      exact Node.subtree_modify_of_ne hij hc'
    · rfl
  | [], .leaf _, _, h | _ :: _, .leaf _, _, h => by cases h; rfl

theorem Node.Rekeys.spans {n n' : Node K} (h : n.Rekeys n') : n'.spans = n.spans := by
  obtain ⟨_, _, _, rfl, rfl⟩ := h
  rfl

theorem Node.Rekeys.subtree {n n' : Node K} (h : n.Rekeys n') (j : Nat) (q : List Nat) :
    n'.subtree (j :: q) = n.subtree (j :: q) := by
  obtain ⟨_, _, _, rfl, rfl⟩ := h
  rfl

/-- **An edit of separator keys.** It keeps the spans and every node below the one it rewrites. -/
theorem Node.modify_rekey (hf : ∀ s s', f s = .ok s' → s.Rekeys s') :
    ∀ {p : List Nat} {n n' : Node K}, n.modify f p = .ok n' →
      n'.spans = n.spans ∧ ∀ j q, n'.subtree (p ++ j :: q) = n.subtree (p ++ j :: q)
  | [], n, _, h => by
    rw [Node.modify_nil] at h
    exact ⟨(hf n _ h).spans, (hf n _ h).subtree⟩
  | i :: p, .internal keys edges, _, h => by
    rcases Node.modify_cons h with ⟨c, c', hc, hc', rfl⟩ | ⟨-, rfl⟩
    · obtain ⟨hsp, hsub⟩ := Node.modify_rekey hf hc'
      refine ⟨add_right_cancel (b := c.spans) ?_, fun j q => ?_⟩
      · rw [spans_internal, spans_internal, edgeSpans_set c' hc, hsp, add_comm]
      · rw [List.cons_append, Node.subtree_set_cons hc, Node.subtree_internal_cons hc, hsub]
    · exact ⟨rfl, fun _ _ => rfl⟩
  | _ :: _, .leaf _, _, h => by
    cases h
    exact ⟨rfl, fun _ _ => rfl⟩

end Paths

/-! ## Reading nodes -/

section Nodes
variable {n n' : Node K}

theorem Node.asLeafNode_eq_ok {l : LeafNode K} : n.asLeafNode = .ok l ↔ n = .leaf l := by
  cases n <;> simp [Node.asLeafNode, pure, Except.pure, throw, throwThe, MonadExceptOf.throw]

theorem Node.asInternalNode_eq_ok {keys : List K} {edges : List (Option (Node K))} :
    n.asInternalNode = .ok (keys, edges) ↔ n = .internal keys edges := by
  cases n <;> simp [Node.asInternalNode, pure, Except.pure, throw, throwThe, MonadExceptOf.throw]

/-- `n'` is the internal node `n` with as many keys, some of them rewritten, and the same edges: what
each separator edit of `delete` does to the node it edits. -/
def Node.SetsKeys (n n' : Node K) : Prop :=
  ∃ keys keys' edges, n = .internal keys edges ∧ n' = .internal keys' edges ∧ keys'.length = keys.length

theorem Node.SetsKeys.rekeys (h : n.SetsKeys n') : n.Rekeys n' :=
  let ⟨keys, keys', edges, hn, hn', _⟩ := h
  ⟨keys, keys', edges, hn, hn'⟩

theorem Node.updateKeyAtIndex_setsKeys {idx : Nat} {k : K} (h : n.updateKeyAtIndex idx k = .ok n') :
    n.SetsKeys n' := by
  cases n with
  | internal keys edges =>
    obtain ⟨keys', hset, h⟩ := bind_eq_ok.1 h
    obtain ⟨-, rfl⟩ := vecSet_eq_ok.1 hset
    exact ⟨keys, _, edges, rfl, ((except_pure_eq_ok _ _).1 h).symm, List.length_set _ _ _⟩
  | leaf _ => cases h

theorem Node.setsKeys_of_asInternalNode {keys : List K} {edges : List (Option (Node K))}
    (hn : n.asInternalNode = .ok (keys, edges)) (h : (∃ i k, n' = .internal (keys.set i k) edges) ∨ n' = n) :
    n.SetsKeys n' := by
  rw [Node.asInternalNode_eq_ok] at hn
  subst hn
  rcases h with ⟨i, k, rfl⟩ | rfl
  · exact ⟨keys, _, edges, rfl, rfl, List.length_set _ _ _⟩
  · exact ⟨keys, keys, edges, rfl, rfl, rfl⟩

theorem Node.modifyLeaf_spans {g : LeafNode K → Except Fault (LeafNode K)} {path : List Nat} {l : LeafNode K}
    (hs : n.subtree path = some (.leaf l)) (h : n.modifyLeaf g path = .ok n') :
    ∃ l', g l = .ok l' ∧ n'.subtree path = some (.leaf l') ∧
      n'.spans + (l.entries : Multiset (K × K)) = n.spans + (l'.entries : Multiset (K × K)) := by
  obtain ⟨s', hs', hsub, hsp⟩ := Node.modify_spans hs h
  obtain ⟨_, hl, hs'⟩ := bind_eq_ok.1 hs'
  cases hl
  obtain ⟨l', hl', hs'⟩ := bind_eq_ok.1 hs'
  cases hs'
  exact ⟨l', hl', hsub, by simpa using hsp⟩

end Nodes

/-! ## The descent -/

/-- The descent of `find_leaf_to_delete` from a node at the path of its stack returns a leaf at the
path of the whole stack, and the last entry of the stack is the node at the path before it. -/
theorem findLeafToDeleteLoop_path {root : Node K} {key : K} :
    ∀ {fuel : Nat} {n : Node K} {next : Option (Node K)} {stack stack' : List (Nat × Direction × Node K)}
      {res : Option (Node K)},
      findLeafToDeleteLoop key fuel (some n) next stack = .ok (res, stack') →
      (next = none ∨ next = some n) → root.subtree (stack.map (·.1)) = some n →
      (∀ e ∈ stack.getLast?, root.subtree (stack.dropLast.map (·.1)) = some e.2.2) →
      ∃ l, res = some (.leaf l) ∧ root.subtree (stack'.map (·.1)) = some (.leaf l) ∧
        ∀ e ∈ stack'.getLast?, root.subtree (stack'.dropLast.map (·.1)) = some e.2.2
  | 0, _, _, _, _, _, h, _, _, _ => by cases h
  | _ + 1, .leaf l, _, _, _, _, h, _, hn, hlast => by
    simp only [findLeafToDeleteLoop, except_pure_eq_ok, Prod.mk.injEq] at h
    obtain ⟨rfl, rfl⟩ := h
    exact ⟨l, rfl, hn, hlast⟩
  | fuel + 1, .internal keys edges, _, stack, _, _, h, hnext, hn, hlast => by
    by_cases hk : keys = []
    · subst hk
      rcases hnext with rfl | rfl
      · simp [findLeafToDeleteLoop] at h
      · simp only [findLeafToDeleteLoop, List.isEmpty_nil, if_true, pure_bind] at h
        exact findLeafToDeleteLoop_path h (.inr rfl) hn hlast
    · simp only [findLeafToDeleteLoop, List.isEmpty_iff, hk, if_false, bind_eq_ok, Prod.exists, vecIndex_eq_ok,
        except_pure_eq_ok, Prod.mk.injEq] at h
      obtain ⟨oc, hoc, _, _, ⟨rfl, rfl⟩, h⟩ := h
      cases oc with
      | none => cases h
      | some c =>
        refine findLeafToDeleteLoop_path h (.inr rfl) ?_ (by simp [hn])
        rw [List.map_append, Node.subtree_append, hn]
        simp [Node.subtree, hoc]

theorem stackPath_length (stack : List (Nat × Direction × Node K)) : stackPath stack stack.length = stack.map (·.1) := by
  simp [stackPath]

@[simp] theorem stackPath_parent (init : List (Nat × Direction × Node K)) (e : Nat × Direction × Node K) :
    stackPath (init ++ [e]) ((init ++ [e]).length - 1) = init.map (·.1) := by
  simp [stackPath]

@[simp] theorem stackPath_index (init : List (Nat × Direction × Node K)) (e : Nat × Direction × Node K) :
    (((init ++ [e]).getLast?).map (·.1)).getD 0 = e.1 := by
  simp

theorem BTree.findLeafToDelete_path {fuel : Nat} {t : BTree K} {root : Node K} {key : K} {res : Option (Node K)}
    {stack : List (Nat × Direction × Node K)} (hroot : t.root = some root)
    (h : t.findLeafToDelete fuel key = .ok (res, stack)) :
    ∃ l, res = some (.leaf l) ∧ root.subtree (stack.map (·.1)) = some (.leaf l) ∧
      ∀ e ∈ stack.getLast?, root.subtree (stack.dropLast.map (·.1)) = some e.2.2 := by
  rw [BTree.findLeafToDelete, hroot] at h
  exact findLeafToDeleteLoop_path h (.inl rfl) (Node.subtree_nil _) (by simp)

theorem findLeftSibling_eq_ok {parent s : Node K} {idx : Nat} (h : findLeftSibling parent idx = .ok (some s)) :
    idx ≠ 0 ∧ parent.subtree [idx - 1] = some s := by
  unfold findLeftSibling at h
  split at h
  · split at h
    · cases h
    · exact ⟨‹_›, by simp [Node.subtree, vecIndex_eq_ok.1 h]⟩
  · cases h

theorem findRightSibling_eq_ok {parent s : Node K} {idx : Nat} (h : findRightSibling parent idx = .ok (some s)) :
    parent.subtree [idx + 1] = some s := by
  unfold findRightSibling at h
  split at h
  · obtain ⟨_, -, h⟩ := bind_eq_ok.1 h
    split at h
    · cases h
    · simp [Node.subtree, vecIndex_eq_ok.1 h]
  · cases h

/-! ## Separator rewrites -/

theorem updateAncestorAt_setsKeys {root root' : Node K} {key next : K} {stack : List (Nat × Direction × Node K)}
    {e : Nat × Nat × Direction × Node K} (h : updateAncestorAt key next stack root e = .ok root') :
    root' = root ∨ ∃ f path, (∀ s s', f s = .ok s' → s.SetsKeys s') ∧ root.modify f path = .ok root' := by
  obtain ⟨j, idx, direction, _⟩ := e
  cases direction with
  | left => exact .inl ((except_pure_eq_ok _ _).1 h).symm
  | right =>
    refine .inr ⟨_, _, fun s s' hs => ?_, h⟩
    obtain ⟨⟨keys, edges⟩, hke, hs⟩ := bind_eq_ok.1 hs
    obtain ⟨keyIdx, -, hs⟩ := bind_eq_ok.1 hs
    obtain ⟨k, -, hs⟩ := bind_eq_ok.1 hs
    refine Node.setsKeys_of_asInternalNode hke ?_
    split at hs
    · obtain ⟨keys', hset, hs⟩ := bind_eq_ok.1 hs
      obtain ⟨-, rfl⟩ := vecSet_eq_ok.1 hset
      exact .inl ⟨_, _, ((except_pure_eq_ok _ _).1 hs).symm⟩
    · exact .inr ((except_pure_eq_ok _ _).1 hs).symm

theorem stealRightAncestorAt_setsKeys {root root' : Node K} {key stolenKey : K} {newLower : Option K}
    {stack : List (Nat × Direction × Node K)} {e : Nat × Nat × Direction × Node K}
    (h : stealRightAncestorAt key stolenKey newLower stack root e = .ok root') :
    ∃ f path, (∀ s s', f s = .ok s' → s.SetsKeys s') ∧ root.modify f path = .ok root' := by
  obtain ⟨iterIdx, idx, direction, _⟩ := e
  cases direction
  all_goals
    obtain ⟨keyIdx, -, h⟩ := bind_eq_ok.1 h
    refine ⟨_, _, fun s s' hs => ?_, h⟩
    obtain ⟨⟨keys, edges⟩, hke, hs⟩ := bind_eq_ok.1 hs
    dsimp only at hs
    split at hs
    · obtain ⟨k, -, hs⟩ := bind_eq_ok.1 hs
      exact Node.updateKeyAtIndex_setsKeys hs
    · obtain ⟨k, -, hs⟩ := bind_eq_ok.1 hs
      refine Node.setsKeys_of_asInternalNode hke ?_
      split at hs
      · obtain ⟨keys', hset, hs⟩ := bind_eq_ok.1 hs
        obtain ⟨-, rfl⟩ := vecSet_eq_ok.1 hset
        exact .inl ⟨_, _, ((except_pure_eq_ok _ _).1 hs).symm⟩
      · exact .inr ((except_pure_eq_ok _ _).1 hs).symm

/-! ## Borrowing from a sibling -/

/-- One span moves from the leaf at edge `i` of the node at `pp` to the leaf at edge `j`: the spans
stay, the second leaf is still a leaf, and the other edges are untouched. -/
theorem Node.moveSpan_spans {n n₂ n₃ : Node K} {pp : List Nat} {i j : Nat} {sl sl' l : LeafNode K} {r : Range K}
    (hij : i ≠ j) (hsteal : (sl.entries : Multiset (K × K)) = (r.startKey, r.endKey) ::ₘ sl'.entries)
    (hsib : n.subtree (pp ++ [i]) = some (.leaf sl)) (hleaf : n.subtree (pp ++ [j]) = some (.leaf l))
    (h₂ : n.modify (fun _ => pure (.leaf sl')) (pp ++ [i]) = .ok n₂)
    (h₃ : n₂.modifyLeaf (·.insertRange r) (pp ++ [j]) = .ok n₃) :
    n₃.spans = n.spans ∧ (∃ l', n₃.subtree (pp ++ [j]) = some (.leaf l')) ∧
      ∀ k, k ≠ i → k ≠ j → n₃.subtree (pp ++ [k]) = n.subtree (pp ++ [k]) := by
  obtain ⟨s₂, hs₂, -, hsp₂⟩ := Node.modify_spans hsib h₂
  cases hs₂
  obtain ⟨l', hl', hsub₃, hsp₃⟩ := Node.modifyLeaf_spans (by rw [Node.subtree_modify_of_ne hij h₂, hleaf]) h₃
  refine ⟨?_, ⟨l', hsub₃⟩, fun k hki hkj => by
    rw [Node.subtree_modify_of_ne (Ne.symm hkj) h₃, Node.subtree_modify_of_ne (Ne.symm hki) h₂]⟩
  have e₃ : n₃.spans = (r.startKey, r.endKey) ::ₘ n₂.spans := add_right_cancel (b := (l.entries : Multiset _))
    (by rw [hsp₃, LeafNode.insertRange_entries hl', Multiset.add_cons, Multiset.cons_add])
  have e₂ : (r.startKey, r.endKey) ::ₘ n₂.spans = n.spans := add_right_cancel (b := (sl'.entries : Multiset _))
    (by rw [Multiset.cons_add, ← Multiset.add_cons, ← hsteal]; simpa using hsp₂)
  rw [e₃, e₂]

/-! ## The repairs after the removal -/

/-- One edit `delete` makes after taking the span out of its leaf: it sets separator keys of the
node at a path, or it moves one span, which `steal_biggest_key` or `steal_smallest_key` takes out,
from the leaf at edge `i` of the node at `pp` into the leaf at edge `j`. -/
inductive RepairStep : Node K → Node K → Prop
  | setKeys {f : Node K → Except Fault (Node K)} {path : List Nat} {n n' : Node K}
      (hf : ∀ s s', f s = .ok s' → s.SetsKeys s') (h : n.modify f path = .ok n') : RepairStep n n'
  | moveSpan {n n₂ n₃ : Node K} {pp : List Nat} {i j : Nat} {sl sl' l : LeafNode K} {r : Range K}
      (hij : i ≠ j) (hsteal : ∃ k, sl.RemovesAt sl' k r.startKey r.endKey)
      (hsib : n.subtree (pp ++ [i]) = some (.leaf sl)) (hleaf : n.subtree (pp ++ [j]) = some (.leaf l))
      (h₂ : n.modify (fun _ => pure (.leaf sl')) (pp ++ [i]) = .ok n₂)
      (h₃ : n₂.modifyLeaf (·.insertRange r) (pp ++ [j]) = .ok n₃) : RepairStep n n₃

/-- The repairs of one `delete`, in the order it makes them. -/
def Repairs : Node K → Node K → Prop := Relation.ReflTransGen RepairStep

theorem RepairStep.spans {n n' : Node K} : RepairStep n n' → n'.spans = n.spans
  | .setKeys hf h => (Node.modify_rekey (fun s s' hs => (hf s s' hs).rekeys) h).1
  | .moveSpan hij hsteal hsib hleaf h₂ h₃ =>
    (Node.moveSpan_spans hij hsteal.choose_spec.entries hsib hleaf h₂ h₃).1

theorem Repairs.spans {n n' : Node K} (h : Repairs n n') : n'.spans = n.spans := by
  induction h with
  | refl => rfl
  | tail _ hs ih => exact hs.spans.trans ih

/-- `update_ancestors_after_delete` only sets separator keys. -/
theorem updateAncestorsAfterDelete_repairs {root root' : Node K} {key : K} {leaf : LeafNode K}
    {stack : List (Nat × Direction × Node K)} {rightSibling : Option (Node K)}
    (h : updateAncestorsAfterDelete root key leaf stack rightSibling = .ok root') : Repairs root root' := by
  obtain ⟨next, -, h⟩ := bind_eq_ok.1 h
  refine foldlM_invariant (P := Repairs root) (fun r e r' he hr => ?_) h .refl
  rcases updateAncestorAt_setsKeys he with rfl | ⟨f, path, hf, hm⟩
  · exact hr
  · exact hr.tail (.setKeys hf hm)

section Borrow
variable {order idx : Nat} {d : Direction} {parent : Node K} {init : List (Nat × Direction × Node K)}

/-- **The left borrow** moves the left sibling's last span into the leaf and sets the parent's
separator: the leaf is still a leaf, and the right sibling is untouched. -/
theorem stealFromLeftLeafSibling_repairs {root root' sib : Node K} {stolen : Bool} (hidx : idx ≠ 0)
    (hsib : root.subtree (init.map (·.1) ++ [idx - 1]) = some sib)
    (hleaf : ∃ l, root.subtree (init.map (·.1) ++ [idx]) = some (.leaf l))
    (h : stealFromLeftLeafSibling order root sib (init ++ [(idx, d, parent)]) = .ok (root', stolen)) :
    Repairs root root' ∧ (∃ l, root'.subtree (init.map (·.1) ++ [idx]) = some (.leaf l)) ∧
      root'.subtree (init.map (·.1) ++ [idx + 1]) = root.subtree (init.map (·.1) ++ [idx + 1]) := by
  unfold stealFromLeftLeafSibling at h
  split at h
  · simp only [stackPath_parent, stackPath_index, bind_eq_ok, Prod.exists, except_pure_eq_ok, Prod.mk.injEq] at h
    obtain ⟨sl, hsl, sl', r, hsteal, root₂, h₂, root₃, h₃, k, -, root₄, h₄, rfl, -⟩ := h
    rw [Node.asLeafNode_eq_ok] at hsl
    subst hsl
    obtain ⟨l, hl⟩ := hleaf
    obtain ⟨-, hl₃, hside⟩ := Node.moveSpan_spans (by omega) (LeafNode.stealBiggestKey_removesAt hsteal).entries hsib hl h₂ h₃
    obtain ⟨-, hsub₄⟩ := Node.modify_rekey (fun _ _ hs => (Node.updateKeyAtIndex_setsKeys hs).rekeys) h₄
    refine ⟨.tail (.single (.moveSpan (by omega) ⟨_, LeafNode.stealBiggestKey_removesAt hsteal⟩ hsib hl h₂ h₃))
      (.setKeys (fun _ _ hs => Node.updateKeyAtIndex_setsKeys hs) h₄), by rwa [hsub₄], ?_⟩
    rw [hsub₄, hside _ (by omega) (by omega)]
  · cases h
    exact ⟨.refl, hleaf, rfl⟩

/-- **The right borrow** moves the right sibling's first span into the leaf, then sets
separators of the leaf's ancestors. -/
theorem stealFromRightLeafSibling_repairs {root root' sib : Node K} {key : K} {stolen : Bool}
    (hsib : root.subtree (init.map (·.1) ++ [idx + 1]) = some sib)
    (hleaf : ∃ l, root.subtree (init.map (·.1) ++ [idx]) = some (.leaf l))
    (h : stealFromRightLeafSibling order root key sib (init ++ [(idx, d, parent)]) = .ok (root', stolen)) :
    Repairs root root' := by
  unfold stealFromRightLeafSibling at h
  split at h
  · simp only [stackPath_parent, stackPath_index, bind_eq_ok, Prod.exists, except_pure_eq_ok, Prod.mk.injEq] at h
    obtain ⟨sl, hsl, sl', r, hsteal, root₂, h₂, root₃, h₃, root₄, h₄, rfl, -⟩ := h
    rw [Node.asLeafNode_eq_ok] at hsl
    subst hsl
    obtain ⟨l, hl⟩ := hleaf
    refine foldlM_invariant (P := Repairs root) (fun _ _ _ he hr => ?_) h₄
      (.single (.moveSpan (by omega) ⟨_, LeafNode.stealSmallestKey_removesAt hsteal⟩ hsib hl h₂ h₃))
    obtain ⟨f, path, hf, hm⟩ := stealRightAncestorAt_setsKeys he
    exact hr.tail (.setKeys hf hm)
  · cases h
    exact .refl

end Borrow

/-! ## `BTree::delete` -/

theorem BTree.findLeafToDelete_root_none {fuel : Nat} {t : BTree K} {key : K}
    {x : Option (Node K) × List (Nat × Direction × Node K)} (hroot : t.root = none) :
    t.findLeafToDelete fuel key ≠ .ok x := by
  cases fuel <;> simp [BTree.findLeafToDelete, findLeafToDeleteLoop, hroot]

/-- **What `delete` does.** Whatever the tree, a `delete k` that returns either leaves the tree as it
was, the leaf its descent reached holding no span starting at `k`, or takes a span starting at `k`
out of a leaf of the tree and then repairs. -/
theorem BTree.delete_eq_ok {fuel : Nat} {t t' : BTree K} {key : K} (h : t.delete fuel key = .ok t') :
    (t' = t ∧ ∃ l stack, t.findLeafToDelete fuel key = .ok (some (.leaf l), stack) ∧ key ∉ l.startKeys) ∨
      ∃ root path l leaf root₁ root', t.root = some root ∧ t' = { t with root := some root' } ∧
        root.subtree path = some (.leaf l) ∧ l.removeKey key = .ok (some leaf) ∧
        root.modify (fun _ => pure (.leaf leaf)) path = .ok root₁ ∧ Repairs root₁ root' := by
  obtain ⟨⟨res, stack⟩, hfind, h⟩ := bind_eq_ok.1 h
  dsimp only at h
  cases hroot : t.root with
  | none => exact absurd hfind (BTree.findLeafToDelete_root_none hroot)
  | some root =>
    obtain ⟨l, rfl, hleaf, hlast⟩ := BTree.findLeafToDelete_path hroot hfind
    rw [hroot] at h
    simp only [Node.asLeafNode, pure_bind, bind_eq_ok] at h
    obtain ⟨r, hr, h⟩ := h
    cases r with
    | none => exact .inl ⟨by cases h; rfl, l, stack, hfind, LeafNode.removeKey_eq_none hr⟩
    | some leaf =>
      obtain ⟨root₁, h₁, h⟩ := bind_eq_ok.1 h
      rw [stackPath_length] at h₁
      obtain ⟨s₁, hs₁, hsub₁, -⟩ := Node.modify_spans hleaf h₁
      cases hs₁
      suffices ∃ root', t' = { t with root := some root' } ∧ Repairs root₁ root' from
        let ⟨root', ht', hrep⟩ := this
        .inr ⟨root, _, l, leaf, root₁, root', rfl, ht', hleaf, hr, h₁, hrep⟩
      rcases hst : stack.getLast? with _ | ⟨idx, d, parent⟩
      · rw [hst] at h
        exact ⟨root₁, by cases h; rfl, .refl⟩
      obtain ⟨init, rfl⟩ := List.getLast?_eq_some_iff.1 hst
      rw [hst] at h
      have hparent : root.subtree (init.map (·.1)) = some parent := by simpa using hlast _ hst
      rw [List.map_append, List.map_singleton] at h₁ hsub₁
      have hside : ∀ j, j ≠ idx → root₁.subtree (init.map (·.1) ++ [j]) = parent.subtree [j] := fun j hj => by
        rw [Node.subtree_modify_of_ne (Ne.symm hj) h₁, Node.subtree_append, hparent]
        rfl
      obtain ⟨rso, hrso, h⟩ := bind_eq_ok.1 h
      obtain ⟨lso, hlso, h⟩ := bind_eq_ok.1 h
      split at h
      · obtain ⟨root₂, h₂, h⟩ := bind_eq_ok.1 h
        exact ⟨root₂, by cases h; rfl, updateAncestorsAfterDelete_repairs h₂⟩
      simp only [Bool.not_false, if_true] at h
      have hright : ∀ {root₂ rs : Node K} {res : Node K × Bool}, rso = some rs → Repairs root₁ root₂ →
          (∃ l, root₂.subtree (init.map (·.1) ++ [idx]) = some (.leaf l)) →
          root₂.subtree (init.map (·.1) ++ [idx + 1]) = root₁.subtree (init.map (·.1) ++ [idx + 1]) →
          stealFromRightLeafSibling t.order root₂ key rs (init ++ [(idx, d, parent)]) = .ok res →
          Repairs root₁ res.1 := by
        rintro root₂ rs ⟨root₃, b⟩ rfl hrep hl hsub hsteal
        refine hrep.trans (stealFromRightLeafSibling_repairs ?_ hl hsteal)
        rw [hsub, hside _ (by omega), findRightSibling_eq_ok hrso]
      cases lso with
      | none =>
        cases rso with
        | none => exact ⟨root₁, by cases h; rfl, .refl⟩
        | some rs =>
          obtain ⟨res, hres, h⟩ := bind_eq_ok.1 h
          exact ⟨res.1, by cases h; rfl, hright rfl .refl ⟨leaf, hsub₁⟩ rfl hres⟩
      | some ls =>
        obtain ⟨hidx, hls⟩ := findLeftSibling_eq_ok hlso
        obtain ⟨⟨root₂, b⟩, h₂, h⟩ := bind_eq_ok.1 h
        obtain ⟨hrep₂, hl₂, hsub₂⟩ :=
          stealFromLeftLeafSibling_repairs hidx (by rw [hside _ (by omega), hls]) ⟨leaf, hsub₁⟩ h₂
        cases rso with
        | none => exact ⟨root₂, by cases h; rfl, hrep₂⟩
        | some rs =>
          obtain ⟨res, hres, h⟩ := bind_eq_ok.1 h
          exact ⟨res.1, by cases h; rfl, hright rfl hrep₂ hl₂ hsub₂ hres⟩

theorem BTree.delete_cases {fuel : Nat} {t t' : BTree K} {key : K} (h : t.delete fuel key = .ok t') :
    (t' = t ∧ ∃ l stack, t.findLeafToDelete fuel key = .ok (some (.leaf l), stack) ∧ key ∉ l.startKeys) ∨
      ∃ v, t.spans = (key, v) ::ₘ t'.spans := by
  rcases BTree.delete_eq_ok h with h | ⟨root, path, l, leaf, root₁, root', hroot, rfl, hleaf, hr, h₁, hrep⟩
  · exact .inl h
  obtain ⟨_, v, hv⟩ := LeafNode.removeKey_removesAt hr
  obtain ⟨s₁, hs₁, -, hsp₁⟩ := Node.modify_spans hleaf h₁
  cases hs₁
  refine .inr ⟨v, ?_⟩
  rw [BTree.spans_eq hroot, BTree.spans_eq rfl, hrep.spans]
  exact add_right_cancel (b := (leaf.entries : Multiset _)) (by
    rw [Multiset.cons_add, ← Multiset.add_cons, ← hv.entries]; simpa using hsp₁.symm)

end LittleKeyValueDb.LatchManager
