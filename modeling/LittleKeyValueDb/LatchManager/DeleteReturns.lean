import LittleKeyValueDb.LatchManager.Skeleton

/-! # What `delete` keeps, and where it can fail

`delete` rewrites the tree in place: a leaf loses a span, a sibling lends one, ancestors get a new
separator. None of these edits adds, drops or moves a node, or relinks a leaf: every path holds the
same kind of node before and after, an internal node with as many keys and edges, a leaf with the
same address and links (`SameShape`, kept by the leaf edits and by every `RepairStep`, so by every
`delete`: `delete_keeps_shape`).

`delete` also indexes vectors, unwraps options and casts nodes at every step: the descent,
`remove_key`, the siblings, `update_ancestors_after_delete` and both borrows. On a skeleton every one
of these steps but one returns; the one that can fail is `find_next_largest_key`, on the path without
underflow, when the leaf has no start key above the deleted one and its right sibling is missing or
empty (`BTree.delete_returns`). That failure is then certain (`nextLargestMissing_delete`).

* Since the shape stays, the facts the descent's stack records about the nodes it passed
  (`StackFits`) hold of the tree at every later step, and the indices `delete` computes from the
  stack stay in range.
* Each phase is then a lemma that it returns: `updateAncestorsAfterDelete_ok` once
  `find_next_largest_key` has returned, `stealFromLeftLeafSibling_ok`, `stealFromRightLeafSibling_ok`.

With the skeleton kept by every run (`TreeRun.skeleton`), after any run of calls `delete` returns
exactly when it does not meet that panic (`tree_run_delete_returns`), and a `delete` of a key no span
starts at returns the tree as it was (`tree_run_delete_absent`).
-/

namespace LittleKeyValueDb.LatchManager
set_option autoImplicit false
set_option linter.unusedSectionVars false

variable {K : Type} [LinearOrder K]

/-! ## The shape stays -/

/-- A node without its keys and spans: the numbers of keys and edges of an internal node, the
address and links of a leaf. -/
def Node.outline : Node K → (Nat × Nat) ⊕ (Nat × Option Nat × Option Nat)
  | .internal keys edges => .inl (keys.length, edges.length)
  | .leaf l => .inr l.links

/-- `n` and `n'` hold at every path the same kind of node: an internal node with as many keys and
edges, or a leaf with the same address and links. They differ only in their separator keys and the
spans of their leaves. -/
def SameShape (n n' : Node K) : Prop :=
  ∀ p, (n.subtree p).map Node.outline = (n'.subtree p).map Node.outline

section Shape
variable {n n' n'' : Node K}

theorem SameShape.refl (n : Node K) : SameShape n n := fun _ => rfl

theorem SameShape.trans (h₁ : SameShape n n') (h₂ : SameShape n' n'') : SameShape n n'' :=
  fun p => (h₁ p).trans (h₂ p)

theorem sameShape_leaf {l l' : LeafNode K} (h : l.links = l'.links) : SameShape (.leaf l) (.leaf l') := by
  rintro (_ | _)
  · simp [Node.outline, h]
  · rfl

theorem SameShape.internal {p : List Nat} {keys : List K} {edges : List (Option (Node K))} (hs : SameShape n n')
    (h : n.subtree p = some (.internal keys edges)) :
    ∃ keys' edges', n'.subtree p = some (.internal keys' edges') ∧ keys'.length = keys.length ∧
      edges'.length = edges.length := by
  have hp := hs p
  rw [h] at hp
  cases h' : n'.subtree p with
  | none => simp [h'] at hp
  | some x =>
    cases x with
    | leaf => simp [h', Node.outline] at hp
    | internal keys' edges' =>
      simp only [h', Option.map_some', Node.outline, Option.some_inj, Sum.inl.injEq, Prod.mk.injEq] at hp
      exact ⟨keys', edges', rfl, hp.1.symm, hp.2.symm⟩

theorem Node.SetsKeys.sameShape (h : n.SetsKeys n') : SameShape n n' := by
  obtain ⟨keys, keys', edges, rfl, rfl, hlen⟩ := h
  rintro (_ | _)
  · simp [Node.outline, hlen]
  · rfl

/-- **An edit at a path** keeps the shape when the rewrite keeps the shape of the node it
rewrites. -/
theorem Node.modify_sameShape {f : Node K → Except Fault (Node K)} :
    ∀ {q : List Nat} {n n' : Node K}, (∀ s s', n.subtree q = some s → f s = .ok s' → SameShape s s') →
      n.modify f q = .ok n' → SameShape n n'
  | [], n, _, hf, hm => hf n _ (Node.subtree_nil n) (by rwa [Node.modify_nil] at hm)
  | i :: q, .internal keys edges, _, hf, hm => by
    rcases Node.modify_cons hm with ⟨c, c', hc, hc', rfl⟩ | ⟨-, rfl⟩
    · have ih := Node.modify_sameShape (fun s s' hs => hf s s' (by rwa [Node.subtree_internal_cons hc])) hc'
      rintro (_ | ⟨j, p⟩)
      · simp [Node.outline]
      · by_cases hji : j = i
        · subst hji
          rw [Node.subtree_internal_cons hc, Node.subtree_set_cons hc]
          exact ih p
        · exact congrArg _ (Node.subtree_modify_of_ne (Ne.symm hji) (p := []) hm).symm
    · exact SameShape.refl _
  | _ :: _, .leaf _, _, _, hm => by
    cases hm
    exact SameShape.refl _

theorem Node.modify_setsKeys {f : Node K → Except Fault (Node K)} {path : List Nat}
    (hf : ∀ s s', f s = .ok s' → s.SetsKeys s') (hm : n.modify f path = .ok n') : SameShape n n' :=
  Node.modify_sameShape (fun s s' _ hs => (hf s s' hs).sameShape) hm

theorem Node.replaceLeaf_sameShape {path : List Nat} {l l' : LeafNode K} (hs : n.subtree path = some (.leaf l))
    (hl : l'.links = l.links) (hm : n.modify (fun _ => pure (.leaf l')) path = .ok n') : SameShape n n' :=
  Node.modify_sameShape (fun s _ hs' hf => by
    rw [hs, Option.some_inj] at hs'
    subst hs'
    cases hf
    exact sameShape_leaf hl.symm) hm

theorem Node.modifyLeaf_sameShape {g : LeafNode K → Except Fault (LeafNode K)} {path : List Nat}
    (hg : ∀ l l', g l = .ok l' → l'.links = l.links) (hm : n.modifyLeaf g path = .ok n') : SameShape n n' := by
  refine Node.modify_sameShape (fun s s' _ hf => ?_) hm
  obtain ⟨l, hl, hf'⟩ := bind_eq_ok.1 hf
  obtain ⟨l', hgl, hf''⟩ := bind_eq_ok.1 hf'
  rw [Node.asLeafNode_eq_ok] at hl
  subst hl
  cases hf''
  exact sameShape_leaf (hg l l' hgl).symm

theorem LeafNode.insertRange_links {l l' : LeafNode K} {range : Range K} (h : l.insertRange range = .ok l') :
    l'.links = l.links := by
  simp only [LeafNode.insertRange, bind_eq_ok, vecInsert_eq_ok, except_pure_eq_ok] at h
  obtain ⟨_, -, _, -, rfl⟩ := h
  rfl

theorem Node.insertRange_sameShape {path : List Nat} {range : Range K}
    (hm : n.modifyLeaf (·.insertRange range) path = .ok n') : SameShape n n' :=
  Node.modifyLeaf_sameShape (fun _ _ => LeafNode.insertRange_links) hm

theorem RepairStep.sameShape : RepairStep n n' → SameShape n n'
  | .setKeys hf hm => Node.modify_setsKeys hf hm
  | .moveSpan _ ⟨_, hsteal⟩ hsib _ h₂ h₃ =>
    (Node.replaceLeaf_sameShape hsib hsteal.2.2 h₂).trans (Node.insertRange_sameShape h₃)

theorem Repairs.sameShape (h : Repairs n n') : SameShape n n' := by
  induction h with
  | refl => exact SameShape.refl _
  | tail _ hs ih => exact ih.trans hs.sameShape

end Shape

/-- **`delete` changes only spans and separator keys.** Whatever the tree, the key and the passes, a
`delete` that returns leaves at every path the same kind of node as before: an internal node with as
many keys and edges where there was one, a leaf with the same address and links where there was a
leaf. It splits, merges, adds and drops no node, and relinks no leaf. -/
theorem delete_keeps_shape (fuel : Nat) (t t' : BTree K) (key : K) (h : t.delete fuel key = .ok t') :
    ∃ root root', t.root = some root ∧ t'.root = some root' ∧ SameShape root root' := by
  rcases BTree.delete_eq_ok h with ⟨ht, l, stack, hfind, -⟩ | ⟨root, _, l, leaf, root₁, root', hroot, rfl, hleaf, hr, h₁, hrep⟩
  · rw [ht]
    cases hroot : t.root with
    | none => exact absurd hfind (BTree.findLeafToDelete_root_none hroot)
    | some root => exact ⟨root, root, rfl, rfl, SameShape.refl _⟩
  · obtain ⟨_, _, hv⟩ := LeafNode.removeKey_removesAt hr
    exact ⟨root, root', hroot, rfl, (Node.replaceLeaf_sameShape hleaf hv.2.2 h₁).trans hrep.sameShape⟩

theorem delete_keeps_shape_emptying_leaf :
    borrowTree.delete 5 10 = .ok ⟨some (.internal [20] [some (.leaf ⟨0, [], [], none, some 1⟩),
      some (.leaf ⟨1, [20], [21], some 0, none⟩)]), 3⟩ ∧
    ∃ root root', borrowTree.root = some root ∧ (⟨some (.internal [20] [some (.leaf ⟨0, [], [], none, some 1⟩),
        some (.leaf ⟨1, [20], [21], some 0, none⟩)]), 3⟩ : BTree Nat).root = some root' ∧ SameShape root root' :=
  (fun h => ⟨h, delete_keeps_shape 5 _ _ 10 h⟩) rfl

/-! ## What the stack records -/

/-- Each entry of a `find_leaf_to_delete` stack names, at its path, an internal node with a key and
one more edge than keys, the edge taken there, and `Right` exactly at the last edge. -/
def StackFits (n : Node K) (stack : List (Nat × Direction × Node K)) : Prop :=
  ∀ j e, stack[j]? = some e → ∃ keys edges, n.subtree (stackPath stack j) = some (.internal keys edges) ∧
    keys ≠ [] ∧ edges.length = keys.length + 1 ∧ e.1 ≤ keys.length ∧ (e.2.1 = .right ↔ e.1 = keys.length)

section Stack
variable {n n' : Node K} {stack : List (Nat × Direction × Node K)}

theorem StackFits.sameShape (hs : StackFits n stack) (hk : SameShape n n') : StackFits n' stack := by
  intro j e he
  obtain ⟨keys, edges, hsub, hne, hlen, hi, hdir⟩ := hs j e he
  obtain ⟨keys', edges', hsub', hk', he'⟩ := hk.internal hsub
  exact ⟨keys', edges', hsub', List.ne_nil_of_length_pos (by rw [hk']; exact List.length_pos.2 hne),
    by rw [he', hk', hlen], by rw [hk']; exact hi, by rw [hk']; exact hdir⟩

theorem stackPath_append_of_le {e : Nat × Direction × Node K} {j : Nat} (hj : j ≤ stack.length) :
    stackPath (stack ++ [e]) j = stackPath stack j := by
  simp [stackPath, List.take_append_of_le_length hj]

theorem StackFits.push {k : K} {keys : List K} {edges : List (Option (Node K))} (hs : StackFits n stack)
    (hp : n.subtree (stack.map (·.1)) = some (.internal keys edges)) (hk : keys ≠ [])
    (hlen : edges.length = keys.length + 1) :
    StackFits n (stack ++ [(keyIndex keys k, if keyIndex keys k < keys.length then .left else .right,
      .internal keys edges)]) := by
  intro j e he
  rcases lt_or_ge j stack.length with hj | hj
  · rw [List.getElem?_append_left hj] at he
    rw [stackPath_append_of_le hj.le]
    exact hs j e he
  · obtain rfl : j = stack.length := by
      have := (List.getElem?_eq_some_iff.1 he).1
      simp only [List.length_append, List.length_singleton] at this
      omega
    rw [List.getElem?_concat_length, Option.some_inj] at he
    subst he
    have hi := keyIndex_le keys k
    refine ⟨keys, edges, by rwa [stackPath_append_of_le le_rfl, stackPath_length], hk, hlen, hi, ?_⟩
    by_cases hlt : keyIndex keys k < keys.length <;>
      simp only [hlt, if_true, if_false, reduceCtorEq, false_iff, true_iff] <;> omega

theorem StackFits.last {idx : Nat} {d : Direction} {parent : Node K} {init : List (Nat × Direction × Node K)}
    (hs : StackFits n (init ++ [(idx, d, parent)])) :
    ∃ keys edges, n.subtree (init.map (·.1)) = some (.internal keys edges) ∧ keys ≠ [] ∧
      edges.length = keys.length + 1 ∧ idx ≤ keys.length ∧ (d = .right ↔ idx = keys.length) := by
  simpa [stackPath] using hs init.length (idx, d, parent) (by simp)

/-- On a skeleton, the descent of `find_leaf_to_delete` returns a stack that fits the tree. -/
theorem Skeleton.findLeafToDeleteLoop_fits {root : Node K} {k : K} :
    ∀ {h fuel : Nat} {n : Node K} {next : Option (Node K)} {stack : List (Nat × Direction × Node K)},
      Skeleton h n → h < fuel → root.subtree (stack.map (·.1)) = some n → StackFits root stack →
      ∃ l stack', findLeafToDeleteLoop k fuel (some n) next stack = .ok (some (.leaf l), stack') ∧
        StackFits root stack'
  | 0, _ + 1, .leaf l, _, stack, _, _, _, hfit => ⟨l, stack, rfl, hfit⟩
  | _ + 1, _ + 1, .internal keys edges, _, stack, hn, hf, hp, hfit => by
    obtain ⟨c, hc, hcs⟩ := hn.child (keyIndex_le keys k)
    rw [findLeafToDeleteLoop_internal hn.1 hc]
    refine hcs.findLeafToDeleteLoop_fits (by omega) ?_ (hfit.push hp hn.1 hn.2.1)
    rw [List.map_append, Node.subtree_append, hp]
    simp [Node.subtree, hc]
  | _, 0, _, _, _, _, hf, _, _ => absurd hf (Nat.not_lt_zero _)
  | 0, _ + 1, .internal _ _, _, _, hn, _, _, _ => hn.elim
  | _ + 1, _ + 1, .leaf _, _, _, hn, _, _, _ => hn.elim

theorem Skeleton.findLeafToDelete_fits {t : BTree K} {root : Node K} {h fuel : Nat} (hroot : t.root = some root)
    (hs : Skeleton h root) (hf : h < fuel) (k : K) :
    ∃ l stack, t.findLeafToDelete fuel k = .ok (some (.leaf l), stack) ∧ StackFits root stack := by
  rw [BTree.findLeafToDelete, hroot]
  exact hs.findLeafToDeleteLoop_fits hf (Node.subtree_nil _) (fun _ _ he => nomatch he)

end Stack

/-! ## The leaf and its siblings -/

section Leaf
variable {order : Nat} {l l' : LeafNode K}

theorem LeafNode.removeKey_of_not_mem {key : K} (h : key ∉ l.startKeys) : l.removeKey key = .ok none := by
  have hidx : l.findKeyIdx key = none :=
    List.findIdx?_eq_none_iff.2 fun k hk => by
      simp only [decide_eq_false_iff_not]
      rintro rfl
      exact h hk
  simp only [LeafNode.removeKey, hidx]
  rfl

theorem Node.exists_span_of_mem {root : Node K} {path : List Nat} {key : K}
    (hleaf : root.subtree path = some (.leaf l)) (hl : l.startKeys.length = l.endKeys.length)
    (hk : key ∈ l.startKeys) : ∃ v, (key, v) ∈ root.spans := by
  obtain ⟨i, hi, rfl⟩ := List.getElem_of_mem hk
  have hi' : i < (l.startKeys.zip l.endKeys).length := by simp [← hl, hi]
  have hpair : (l.startKeys[i], l.endKeys[i]) ∈ l.entries := by
    simpa [LeafNode.entries, List.getElem_zip] using List.getElem_mem hi'
  exact ⟨_, Multiset.mem_coe.2 (List.mem_flatMap.2
    ⟨l, Node.mem_leaves_of_subtree hleaf (List.mem_singleton_self l), hpair⟩)⟩

theorem LeafNode.RemovesAt.length {i : Nat} {s e : K} (h : l.RemovesAt l' i s e) :
    l'.startKeys.length + 1 = l.startKeys.length := by
  obtain ⟨hs, hst⟩ := vecRemove_eq_ok.1 h.1
  have hi := (List.getElem?_eq_some_iff.1 hs).1
  rw [hst]
  simp only [List.length_append, List.length_take, List.length_drop]
  omega

theorem LeafNode.removeKey_ok (hl : l.startKeys.length = l.endKeys.length) (key : K) :
    ∃ r, l.removeKey key = .ok r := by
  unfold LeafNode.removeKey
  split
  · rename_i idx hidx
    have hi := (List.findIdx?_eq_some_iff_getElem.1 hidx).1
    rw [vecRemove_of_lt hi, vecRemove_of_lt (hl ▸ hi)]
    exact ⟨_, rfl⟩
  · exact ⟨none, rfl⟩

theorem LeafNode.hasSpareKey_iff : l.hasSpareKey order = true ↔ order / 2 < l.startKeys.length := by
  simp [LeafNode.hasSpareKey, hasSpareKeyLen]

theorem LeafNode.stealBiggestKey_ok (hl : l.startKeys.length = l.endKeys.length)
    (hspare : l.hasSpareKey order = true) : ∃ x, l.stealBiggestKey order = .ok x := by
  have hpos : 0 < l.startKeys.length := (Nat.zero_le _).trans_lt (LeafNode.hasSpareKey_iff.1 hspare)
  simp only [LeafNode.stealBiggestKey, hspare, Bool.not_true, Bool.false_eq_true, if_false, pure_bind,
    vecRemove_of_lt (show l.startKeys.length - 1 < l.startKeys.length by omega),
    vecRemove_of_lt (show l.startKeys.length - 1 < l.endKeys.length by omega)]
  exact ⟨_, rfl⟩

theorem LeafNode.stealSmallestKey_ok (hl : l.startKeys.length = l.endKeys.length)
    (hspare : l.hasSpareKey order = true) : ∃ x, l.stealSmallestKey order = .ok x := by
  have hpos : 0 < l.startKeys.length := (Nat.zero_le _).trans_lt (LeafNode.hasSpareKey_iff.1 hspare)
  simp only [LeafNode.stealSmallestKey, hspare, Bool.not_true, Bool.false_eq_true, if_false, pure_bind,
    vecRemove_of_lt hpos, vecRemove_of_lt (show 0 < l.endKeys.length by omega)]
  exact ⟨_, rfl⟩

theorem findRightSibling_ok {keys : List K} {edges : List (Option (Node K))} {idx : Nat}
    (hlen : edges.length = keys.length + 1) (hi : idx ≤ keys.length) :
    ∃ rso, findRightSibling (.internal keys edges) idx = .ok rso := by
  simp only [findRightSibling, usizeSub_of_le (show 1 ≤ edges.length by omega), pure_bind]
  split
  · exact ⟨none, rfl⟩
  · exact ⟨_, vecIndex_of_lt (by omega)⟩

theorem findLeftSibling_ok {keys : List K} {edges : List (Option (Node K))} {idx : Nat}
    (hlen : edges.length = keys.length + 1) (hi : idx ≤ keys.length) :
    ∃ lso, findLeftSibling (.internal keys edges) idx = .ok lso := by
  simp only [findLeftSibling]
  split
  · exact ⟨none, rfl⟩
  · exact ⟨_, vecIndex_of_lt (by omega)⟩

theorem findRightSibling_lt {keys : List K} {edges : List (Option (Node K))} {idx : Nat} {s : Node K}
    (h : findRightSibling (.internal keys edges) idx = .ok (some s)) : idx + 1 < edges.length := by
  have hs := findRightSibling_eq_ok h
  refine Nat.lt_of_not_le fun hge => ?_
  simp [Node.subtree, List.getElem?_eq_none hge] at hs

/-- `find_next_largest_key` returns, unless the leaf has no start key above the deleted one and the
right sibling is missing or empty. -/
theorem findNextLargestKey_ok_or (key : K) {rso : Option (Node K)} (hr : ∀ r ∈ rso, ∃ rl, r = .leaf rl) :
    (∃ next, findNextLargestKey key l rso = .ok next) ∨
      (l.findNextLargerKey key = none ∧ ∀ r ∈ rso, r.getLower = none) := by
  unfold findNextLargestKey
  split
  · rename_i idx hidx
    have hi := (List.findIdx?_eq_some_iff_getElem.1 hidx).1
    exact .inl ⟨_, vecIndex_of_lt hi⟩
  · rename_i hnone
    cases rso with
    | none => exact .inr ⟨hnone, fun r hr => by cases hr⟩
    | some r =>
      obtain ⟨rl, rfl⟩ := hr _ rfl
      cases hs : rl.startKeys with
      | nil => exact .inr ⟨hnone, fun r hr => by cases hr; simp [Node.getLower, hs]⟩
      | cons a _ => exact .inl ⟨a, by simp [unwrap, Node.asLeafNode, vecIndex, hs, pure, Except.pure]⟩

theorem findNextLargestKey_fails (key : K) {rso : Option (Node K)} (hnone : l.findNextLargerKey key = none)
    (hr : ∀ r ∈ rso, r.getLower = none) (next : K) : findNextLargestKey key l rso ≠ .ok next := by
  unfold findNextLargestKey
  rw [hnone]
  cases rso with
  | none => simp [bind, Except.bind, throw, throwThe, MonadExceptOf.throw]
  | some r =>
    cases r with
    | internal _ _ => simp [Node.asLeafNode, bind, Except.bind, pure, Except.pure, throw, throwThe, MonadExceptOf.throw]
    | leaf rl =>
      have hs : rl.startKeys = [] := by simpa [Node.getLower] using hr _ rfl
      simp [Node.asLeafNode, vecIndex, hs, throw, throwThe, MonadExceptOf.throw]

end Leaf

/-! ## The repairs return -/

theorem Node.modify_returns {f : Node K → Except Fault (Node K)} {s : Node K} {path : List Nat} {n : Node K}
    (hf : ∃ s', f s = .ok s') (hs : n.subtree path = some s) : ∃ n', n.modify f path = .ok n' :=
  let ⟨_, hf⟩ := hf
  (Node.modify_ok hf hs).imp fun _ h => h.1

theorem Node.modifyLeaf_ok {g : LeafNode K → Except Fault (LeafNode K)} {path : List Nat} {n : Node K}
    {l l' : LeafNode K} (hg : g l = .ok l') (hs : n.subtree path = some (.leaf l)) :
    ∃ n', n.modifyLeaf g path = .ok n' ∧ n'.subtree path = some (.leaf l') :=
  Node.modify_ok (by simp [Node.asLeafNode, hg]) hs

section Repairs
variable {order idx : Nat} {d : Direction} {parent : Node K} {init : List (Nat × Direction × Node K)}
  {stack : List (Nat × Direction × Node K)}

theorem updateAncestorAt_ok {root : Node K} {key next : K} {e : Nat × Nat × Direction × Node K}
    (hfit : StackFits root stack) (he : e ∈ stack.enum) :
    ∃ root', updateAncestorAt key next stack root e = .ok root' ∧ StackFits root' stack := by
  obtain ⟨j, idx, d, node⟩ := e
  obtain ⟨keys, edges, hsub, hne, -, -, hdir⟩ := hfit j _ (List.mem_enum_iff_getElem?.1 he)
  obtain ⟨root', h⟩ : ∃ root', updateAncestorAt key next stack root (j, idx, d, node) = .ok root' := by
    cases d with
    | left => exact ⟨root, rfl⟩
    | right =>
      have hidx : idx = keys.length := hdir.1 rfl
      have h1 : 1 ≤ idx := hidx ▸ List.length_pos.2 hne
      refine Node.modify_returns ?_ hsub
      simp only [Node.asInternalNode, pure_bind, usizeSub_of_le h1, vecIndex_of_lt (show idx - 1 < keys.length by omega)]
      split
      · rw [vecSet_of_lt _ (by omega)]
        exact ⟨_, rfl⟩
      · exact ⟨_, rfl⟩
  refine ⟨root', h, ?_⟩
  rcases updateAncestorAt_setsKeys h with rfl | ⟨f, path, hf, hm⟩
  · exact hfit
  · exact hfit.sameShape (Node.modify_setsKeys hf hm)

/-- Once `find_next_largest_key` has returned, `update_ancestors_after_delete` returns. -/
theorem updateAncestorsAfterDelete_ok {root : Node K} {key next : K} {leaf : LeafNode K} {rso : Option (Node K)}
    (hfit : StackFits root stack) (hnext : findNextLargestKey key leaf rso = .ok next) :
    ∃ root', updateAncestorsAfterDelete root key leaf stack rso = .ok root' := by
  obtain ⟨root', h, -⟩ : ∃ root', stack.enum.foldlM (updateAncestorAt key next stack) root = .ok root' ∧
      StackFits root' stack :=
    foldlM_ok (fun _ _ he hr => updateAncestorAt_ok hr he) hfit
  exact ⟨root', by rw [updateAncestorsAfterDelete, hnext, except_ok_bind]; exact h⟩

/-- The left borrow returns when the leaf and its left sibling are leaves with aligned vectors under
an internal parent. -/
theorem stealFromLeftLeafSibling_ok {root : Node K} {sl l : LeafNode K} {keys : List K}
    {edges : List (Option (Node K))} (hidx : idx ≠ 0) (hi : idx ≤ keys.length)
    (hparent : root.subtree (init.map (·.1)) = some (.internal keys edges))
    (hsib : root.subtree (init.map (·.1) ++ [idx - 1]) = some (.leaf sl)) (hsl : sl.startKeys.length = sl.endKeys.length)
    (hleaf : root.subtree (init.map (·.1) ++ [idx]) = some (.leaf l)) (hl : l.startKeys.length = l.endKeys.length) :
    ∃ res, stealFromLeftLeafSibling order root (.leaf sl) (init ++ [(idx, d, parent)]) = .ok res := by
  unfold stealFromLeftLeafSibling
  split
  · rename_i hspare
    obtain ⟨⟨sl', r⟩, hsteal⟩ := LeafNode.stealBiggestKey_ok hsl hspare
    obtain ⟨root₂, h₂, -⟩ := Node.modify_ok (f := fun _ => pure (.leaf sl')) rfl hsib
    obtain ⟨root₃, h₃, -⟩ := Node.modifyLeaf_ok (g := (·.insertRange r)) (l.insertRange_eq r hl)
      (by rw [Node.subtree_modify_of_ne (show idx - 1 ≠ idx by omega) h₂, hleaf])
    obtain ⟨keys₃, edges₃, hp₃, hk₃, -⟩ := ((Node.replaceLeaf_sameShape hsib
      (LeafNode.stealBiggestKey_removesAt hsteal).2.2 h₂).trans (Node.insertRange_sameShape h₃)).internal hparent
    obtain ⟨root₄, h₄⟩ := Node.modify_returns (f := (·.updateKeyAtIndex (idx - 1) r.startKey))
      ⟨_, by simp only [Node.updateKeyAtIndex, vecSet_of_lt _ (show idx - 1 < keys₃.length by omega)]; rfl⟩ hp₃
    simp only [stackPath_parent, stackPath_index, Node.asLeafNode, pure_bind, hsteal, except_ok_bind, h₂, h₃,
      usizeSub_of_le (show 1 ≤ idx by omega), h₄]
    exact ⟨_, rfl⟩
  · exact ⟨_, rfl⟩

theorem stealRightAncestorAt_ok {root : Node K} {key stolenKey x : K} {e : Nat × Nat × Direction × Node K}
    (hfit : StackFits root stack) (hlast : ∀ e ∈ stack.getLast?, e.2.1 = .left) (he : e ∈ stack.enum) :
    ∃ root', stealRightAncestorAt key stolenKey (some x) stack root e = .ok root' ∧ StackFits root' stack := by
  obtain ⟨j, idx, d, node⟩ := e
  have hj : stack[j]? = some (idx, d, node) := List.mem_enum_iff_getElem?.1 he
  obtain ⟨keys, edges, hsub, hne, -, hi, hdir⟩ := hfit j _ hj
  have hlastj : j = stack.length - 1 → d = .left := fun hjl =>
    hlast (idx, d, node) (by rw [List.getLast?_eq_getElem?, ← hjl, hj]; exact rfl)
  obtain ⟨root', h⟩ : ∃ root', stealRightAncestorAt key stolenKey (some x) stack root (j, idx, d, node) = .ok root' := by
    cases d with
    | left =>
      have hlt : idx < keys.length := lt_of_le_of_ne hi fun h => nomatch hdir.2 h
      simp only [stealRightAncestorAt, pure_bind]
      refine Node.modify_returns ?_ hsub
      simp only [Node.asInternalNode, pure_bind]
      split
      · exact ⟨_, by simp only [unwrap, Node.updateKeyAtIndex, vecSet_of_lt _ hlt, pure_bind]; rfl⟩
      · simp only [vecIndex_of_lt hlt, pure_bind]
        split
        · rw [vecSet_of_lt _ hlt]
          exact ⟨_, rfl⟩
        · exact ⟨_, rfl⟩
    | right =>
      have hidx : idx = keys.length := hdir.1 rfl
      have h1 : 1 ≤ idx := hidx ▸ List.length_pos.2 hne
      simp only [stealRightAncestorAt, usizeSub_of_le h1, pure_bind]
      refine Node.modify_returns ?_ hsub
      simp only [Node.asInternalNode, pure_bind]
      split
      · exact nomatch hlastj ‹_›
      · simp only [vecIndex_of_lt (show idx - 1 < keys.length by omega), pure_bind]
        split
        · rw [vecSet_of_lt _ (by omega)]
          exact ⟨_, rfl⟩
        · exact ⟨_, rfl⟩
  obtain ⟨f, path, hf, hm⟩ := stealRightAncestorAt_setsKeys h
  exact ⟨root', h, hfit.sameShape (Node.modify_setsKeys hf hm)⟩

/-- The right borrow returns when the leaf and its right sibling are leaves with aligned vectors, the
stack fits the tree and its last entry turned left. -/
theorem stealFromRightLeafSibling_ok {root : Node K} {key : K} {sl l : LeafNode K} (h2 : 2 ≤ order)
    (hfit : StackFits root (init ++ [(idx, .left, parent)]))
    (hsib : root.subtree (init.map (·.1) ++ [idx + 1]) = some (.leaf sl)) (hsl : sl.startKeys.length = sl.endKeys.length)
    (hleaf : root.subtree (init.map (·.1) ++ [idx]) = some (.leaf l)) (hl : l.startKeys.length = l.endKeys.length) :
    ∃ res, stealFromRightLeafSibling order root key (.leaf sl) (init ++ [(idx, .left, parent)]) = .ok res := by
  unfold stealFromRightLeafSibling
  split
  · rename_i hspare
    obtain ⟨⟨sl', r⟩, hsteal⟩ := LeafNode.stealSmallestKey_ok hsl hspare
    have hlen := (LeafNode.stealSmallestKey_removesAt hsteal).length
    obtain ⟨x, xs, hx⟩ := List.exists_cons_of_length_pos (show 0 < sl'.startKeys.length by
      have := LeafNode.hasSpareKey_iff.1 hspare
      omega)
    obtain ⟨root₂, h₂, -⟩ := Node.modify_ok (f := fun _ => pure (.leaf sl')) rfl hsib
    obtain ⟨root₃, h₃, -⟩ := Node.modifyLeaf_ok (g := (·.insertRange r)) (l.insertRange_eq r hl)
      (by rw [Node.subtree_modify_of_ne (show idx + 1 ≠ idx by omega) h₂, hleaf])
    have hfit₃ := hfit.sameShape ((Node.replaceLeaf_sameShape hsib (LeafNode.stealSmallestKey_removesAt hsteal).2.2
      h₂).trans (Node.insertRange_sameShape h₃))
    obtain ⟨root₄, h₄, -⟩ : ∃ root₄, (init ++ [(idx, Direction.left, parent)]).enum.foldlM
        (stealRightAncestorAt key r.startKey (some x) (init ++ [(idx, Direction.left, parent)])) root₃ = .ok root₄ ∧
        StackFits root₄ (init ++ [(idx, Direction.left, parent)]) :=
      foldlM_ok (fun _ _ he hr => stealRightAncestorAt_ok hr (by simp) he) hfit₃
    simp only [stackPath_parent, stackPath_index, Node.asLeafNode, pure_bind, hsteal, except_ok_bind, h₂, h₃,
      Node.getLower, hx, List.head?_cons, h₄]
    exact ⟨_, rfl⟩
  · exact ⟨_, rfl⟩

end Repairs

/-! ## `BTree::delete` -/

theorem Skeleton.eq_leaf {h : Nat} {n s : Node K} {l : LeafNode K} {p q : List Nat} (hn : Skeleton h n)
    (hl : n.subtree p = some (.leaf l)) (hs : n.subtree q = some s) (hpq : q.length = p.length) :
    ∃ sl, s = .leaf sl ∧ sl.startKeys.length = sl.endKeys.length := by
  have hs' := hn.subtree hs
  rw [hpq, (skeleton_leaf.1 (hn.subtree hl)).1] at hs'
  cases s with
  | leaf sl => exact ⟨sl, rfl, (skeleton_leaf.1 hs').2⟩
  | internal => exact hs'.elim

/-- `find_next_largest_key` has nothing to return to a `delete`: the leaf its descent reaches loses
a span and does not underflow, but holds no start key above the deleted one, and its right sibling,
if it has one, holds no span. -/
def NextLargestMissing (t : BTree K) (fuel : Nat) (key : K) : Prop :=
  ∃ l stack idx d parent leaf rso, t.findLeafToDelete fuel key = .ok (some (.leaf l), stack) ∧
    stack.getLast? = some (idx, d, parent) ∧ l.removeKey key = .ok (some leaf) ∧
    leaf.isUnderflow t.order = false ∧ leaf.findNextLargerKey key = none ∧
    findRightSibling parent idx = .ok rso ∧ ∀ r ∈ rso, r.getLower = none

section Delete
variable {t : BTree K} {fuel : Nat} {key : K}

/-- When `find_next_largest_key` has nothing to return, `delete` fails: `update_ancestors_after_delete`
unwraps the missing key. -/
theorem nextLargestMissing_delete (hm : NextLargestMissing t fuel key) (t' : BTree K) :
    t.delete fuel key ≠ .ok t' := by
  obtain ⟨l, stack, idx, d, parent, leaf, rso, hfind, hst, hr, hund, hnone, hrso, hget⟩ := hm
  intro h
  cases hroot : t.root with
  | none => exact BTree.findLeafToDelete_root_none hroot hfind
  | some root =>
    simp only [BTree.delete, hfind, except_ok_bind, hroot, Node.asLeafNode, pure_bind, hr] at h
    obtain ⟨root₁, -, h⟩ := bind_eq_ok.1 h
    simp only [hst, hrso, except_ok_bind] at h
    obtain ⟨lso, -, h⟩ := bind_eq_ok.1 h
    simp only [hund, Bool.not_false, if_true] at h
    obtain ⟨root₂, h₂, -⟩ := bind_eq_ok.1 h
    obtain ⟨next, hnext, -⟩ := bind_eq_ok.1 h₂
    exact findNextLargestKey_fails key hnone hget next hnext

/-- **Where `delete` fails.** On a skeleton, from order 2 on, a `delete` given more passes than the
height returns, unless `find_next_largest_key` has nothing to return. The descent, the removal from
the leaf, both borrows and the ancestor updates all return. -/
theorem BTree.delete_returns {root : Node K} {h : Nat} (h2 : 2 ≤ t.order) (hroot : t.root = some root)
    (hs : Skeleton h root) (hf : h < fuel) (key : K) :
    (∃ t', t.delete fuel key = .ok t') ∨ NextLargestMissing t fuel key := by
  obtain ⟨l, stack, hfind, hfit⟩ := hs.findLeafToDelete_fits hroot hf key
  obtain ⟨_, hl, hleaf, hlast⟩ := BTree.findLeafToDelete_path hroot hfind
  cases hl
  obtain ⟨r, hr⟩ := LeafNode.removeKey_ok (hs.leaf_aligned hleaf) key
  rw [BTree.delete, hfind, except_ok_bind]
  simp only [hroot, Node.asLeafNode, pure_bind, hr]
  cases r with
  | none => exact .inl ⟨t, rfl⟩
  | some leaf =>
  obtain ⟨_, v, hv⟩ := LeafNode.removeKey_removesAt hr
  obtain ⟨root₁, h₁, hsub₁⟩ := Node.modify_ok (f := fun _ => pure (.leaf leaf)) rfl hleaf
  have hs₁ := hs.replaceLeaf hleaf (hv.aligned (hs.leaf_aligned hleaf)) h₁
  have hk₁ := Node.replaceLeaf_sameShape hleaf hv.2.2 h₁
  simp only [stackPath_length, h₁, except_ok_bind]
  rcases hst : stack.getLast? with _ | ⟨idx, d, parent⟩
  · exact .inl ⟨_, rfl⟩
  obtain ⟨init, rfl⟩ := List.getLast?_eq_some_iff.1 hst
  simp only [List.map_append, List.map_singleton] at h₁ hsub₁
  -- the parent, as the stack records it, and its other children: leaves with aligned vectors
  obtain ⟨keys, edges, hp, -, hlen, hi, hdir⟩ := hfit.last
  obtain ⟨keys₁, edges₁, hp₁, -, -, hi₁, -⟩ := (hfit.sameShape hk₁).last
  obtain rfl : Node.internal keys edges = parent := by simpa [hp] using hlast _ hst
  have hsibling : ∀ {j : Nat} {s : Node K}, j ≠ idx → Node.subtree (.internal keys edges) [j] = some s →
      root₁.subtree (init.map (·.1) ++ [j]) = some s ∧ ∃ sl, s = .leaf sl ∧ sl.startKeys.length = sl.endKeys.length :=
    fun {j s} hj hs' => by
      have hsub : root₁.subtree (init.map (·.1) ++ [j]) = some s := by
        rw [Node.subtree_modify_of_ne (Ne.symm hj) h₁, Node.subtree_append, hp]
        exact hs'
      exact ⟨hsub, hs₁.eq_leaf hsub₁ hsub (by simp)⟩
  obtain ⟨rso, hrso⟩ := findRightSibling_ok hlen hi
  obtain ⟨lso, hlso⟩ := findLeftSibling_ok hlen hi
  simp only [hst, hrso, hlso, except_ok_bind]
  by_cases hund : leaf.isUnderflow t.order
  · -- the borrows: from the left sibling, then from the right one
    refine .inl ?_
    simp only [hund, Bool.not_true, Bool.false_eq_true, if_false]
    have hright : ∀ {root₂ rs : Node K}, rso = some rs → Repairs root₁ root₂ →
        (∃ l, root₂.subtree (init.map (·.1) ++ [idx]) = some (.leaf l)) →
        root₂.subtree (init.map (·.1) ++ [idx + 1]) = root₁.subtree (init.map (·.1) ++ [idx + 1]) →
        ∃ res, stealFromRightLeafSibling t.order root₂ key rs (init ++ [(idx, d, Node.internal keys edges)]) =
          .ok res := by
      rintro root₂ rs rfl hrep ⟨l₂, hl₂⟩ hsub₂
      have hrs := findRightSibling_eq_ok hrso
      obtain ⟨hsib, sl, rfl, hsl⟩ := hsibling (by omega) hrs
      obtain rfl : d = .left := by
        cases d
        · rfl
        · exact absurd (hdir.1 rfl) (by have := findRightSibling_lt hrso; omega)
      exact stealFromRightLeafSibling_ok h2 (hfit.sameShape (hk₁.trans hrep.sameShape))
        (hsub₂.trans hsib) hsl hl₂ ((hrep.skeleton hs₁).leaf_aligned hl₂)
    cases lso with
    | none =>
      cases rso with
      | none => exact ⟨_, rfl⟩
      | some rs =>
        obtain ⟨res, hres⟩ := hright rfl .refl ⟨leaf, hsub₁⟩ rfl
        simp only [pure_bind, Bool.not_false, if_true, hres, except_ok_bind]
        exact ⟨_, rfl⟩
    | some ls =>
      obtain ⟨hidx, hls⟩ := findLeftSibling_eq_ok hlso
      obtain ⟨hsib, sl, rfl, hsl⟩ := hsibling (by omega) hls
      obtain ⟨⟨root₂, b⟩, h₂⟩ : ∃ res, stealFromLeftLeafSibling t.order root₁ (.leaf sl)
          (init ++ [(idx, d, Node.internal keys edges)]) = .ok res :=
        stealFromLeftLeafSibling_ok hidx hi₁ hp₁ hsib hsl hsub₁ (hv.aligned (hs.leaf_aligned hleaf))
      obtain ⟨hrep₂, hl₂, hsub₂⟩ := stealFromLeftLeafSibling_repairs hidx hsib ⟨leaf, hsub₁⟩ h₂
      simp only [h₂, except_ok_bind, pure_bind, Bool.not_false, if_true]
      cases rso with
      | none => exact ⟨_, rfl⟩
      | some rs =>
        obtain ⟨res, hres⟩ := hright rfl hrep₂ hl₂ hsub₂
        simp only [hres, except_ok_bind]
        exact ⟨_, rfl⟩
  · -- no underflow: the ancestors are updated, once `find_next_largest_key` returns
    simp only [Bool.not_eq_true] at hund
    have hrleaf : ∀ r ∈ rso, ∃ rl, r = .leaf rl := fun r hr =>
      let ⟨_, sl, hsl, _⟩ := hsibling (by omega) (findRightSibling_eq_ok (Option.mem_def.1 hr ▸ hrso))
      ⟨sl, hsl⟩
    rcases findNextLargestKey_ok_or (l := leaf) key hrleaf with ⟨next, hnext⟩ | ⟨hnone, hget⟩
    · obtain ⟨root', hup⟩ := updateAncestorsAfterDelete_ok (hfit.sameShape hk₁) hnext
      exact .inl ⟨_, by simp only [hund, Bool.not_false, if_true, hup, except_ok_bind]; rfl⟩
    · exact .inr ⟨l, _, idx, d, _, leaf, rso, hfind, hst, hr, hund, hnone, hrso, hget⟩

end Delete

/-! ## After any run -/

/-- **After any run, `delete` fails only where `find_next_largest_key` does.** From order 3 on, on the
tree any run of calls builds, a `delete` given one pass more than there were calls returns exactly
when `find_next_largest_key` has a key to return. -/
theorem tree_run_delete_returns (order : Nat) (h3 : 3 ≤ order) (cs : List (Call K)) (t : BTree K)
    (hrun : TreeRun order cs t) (key : K) :
    (∃ t', t.delete (cs.length + 1) key = .ok t') ↔ ¬ NextLargestMissing t (cs.length + 1) key := by
  obtain ⟨root, h, hroot, hord, hs, hh⟩ := hrun.skeleton h3
  refine ⟨fun ⟨t', ht'⟩ hm => nextLargestMissing_delete hm t' ht', fun hm => ?_⟩
  exact (BTree.delete_returns (by omega) hroot hs (by omega) key).resolve_right hm

/-- **Deleting a key no span starts at changes nothing.** From order 3 on, after any run of calls, a
`delete` of a key at which no span of the tree starts returns the tree as it was. -/
theorem tree_run_delete_absent (order : Nat) (h3 : 3 ≤ order) (cs : List (Call K)) (t : BTree K)
    (hrun : TreeRun order cs t) (key : K) (habsent : ∀ v, (key, v) ∉ t.spans) :
    t.delete (cs.length + 1) key = .ok t := by
  obtain ⟨root, h, hroot, -, hs, hh⟩ := hrun.skeleton h3
  obtain ⟨l, stack, hfind, -⟩ := hs.findLeafToDelete_fits hroot (show h < cs.length + 1 by omega) key
  obtain ⟨_, hl, hleaf, -⟩ := BTree.findLeafToDelete_path hroot hfind
  cases hl
  have hnot : key ∉ l.startKeys := fun hk =>
    let ⟨v, hv⟩ := Node.exists_span_of_mem hleaf (hs.leaf_aligned hleaf) hk
    habsent v (by rwa [BTree.spans_eq hroot])
  rw [BTree.delete, hfind, except_ok_bind]
  simp only [hroot, Node.asLeafNode, pure_bind, LeafNode.removeKey_of_not_mem hnot]
  rfl

theorem tree_run_delete_absent_after_borrow :
    3 ≤ 3 ∧ TreeRun 3 borrowCalls borrowTree ∧ (∀ v, (15, v) ∉ borrowTree.spans) ∧
      borrowTree.delete (borrowCalls.length + 1) 15 = .ok borrowTree := by
  have habsent : ∀ v, (15, v) ∉ borrowTree.spans := fun v hv => by
    simp [borrowTree, BTree.spans, Node.spans, Node.entries, Node.leaves, Node.edgeLeaves, LeafNode.entries] at hv
  exact ⟨le_rfl, treeRun_borrow, habsent, tree_run_delete_absent 3 le_rfl _ _ treeRun_borrow 15 habsent⟩

theorem tree_run_delete_returns_after_borrow :
    3 ≤ 3 ∧ TreeRun 3 borrowCalls borrowTree ∧
      ((∃ t', borrowTree.delete (borrowCalls.length + 1) 10 = .ok t') ↔
        ¬ NextLargestMissing borrowTree (borrowCalls.length + 1) 10) :=
  ⟨le_rfl, treeRun_borrow, tree_run_delete_returns 3 le_rfl _ _ treeRun_borrow 10⟩

/-- The failure is reached: the last leaf keeps a span after losing its largest one, and has no
right sibling to take the next key from. -/
example : (BTree.new 3 : BTree Nat).callAll 4 [.insert ⟨5, 6⟩, .insert ⟨10, 11⟩, .insert ⟨20, 21⟩, .delete 20] =
    .error (.panic "called `Option::unwrap()` on a `None` value") := rfl

end LittleKeyValueDb.LatchManager
