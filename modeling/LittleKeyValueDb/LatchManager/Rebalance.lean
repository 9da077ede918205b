import LittleKeyValueDb.LatchManager.Delete
import LittleKeyValueDb.LatchManager.Invariant

/-! # Repairs of an underflowing node: `merge_leaf_node` and `steal_from_sibling`

No call of either is made yet (`delete` borrows between leaves only), so each is checked on its own:
for the node at `edge_idx` of its parent, with the parent rebuilt at its path.

What every repair keeps, whichever sibling it takes:
* a merge keeps the spans of the tree, and takes one key and one edge off the parent
  (`merge_leaf_node_keeps_spans`); a steal keeps the spans (`steal_from_sibling_keeps_spans`);
* at the first edge of the parent, where there is only a right sibling, both keep the order of the
  tree, separators included (`merge_leaf_node_first_child_ordered`,
  `steal_from_sibling_first_child_ordered`).

What the left branches break, on a tree with invariants (i)-(v):
* `merge_leaf_node`, left branch: the leaf takes in its left sibling's spans after its own, and
  every one of those is below the separator that every one of its own is at or above. Whenever both
  hold a span the merged leaf is unsorted (`merge_leaf_node_left_unsorted`).
* `steal_from_sibling`, left branch: the left sibling gives its last edge but keeps its last key,
  which also becomes the parent's separator, so it is left with as many edges as keys
  (`steal_from_left_sibling_keeps_key`).
-/

namespace LittleKeyValueDb.LatchManager
set_option autoImplicit false
set_option linter.unusedSectionVars false

variable {K : Type} [LinearOrder K]

theorem set_set_succ {α : Type} {l : List α} {i : Nat} (x y : α) (h : i + 1 < l.length) :
    (l.set i x).set (i + 1) y = l.take i ++ x :: y :: l.drop (i + 2) := by
  induction l generalizing i with
  | nil => simp at h
  | cons a l ih =>
    cases i with
    | zero => cases l with
      | nil => simp at h
      | cons b l => rfl
    | succ i => simp [ih (by simpa using h)]

/-! ## What each branch computes -/

section Spec
variable {keys : List K} {edges : List (Option (Node K))} {edgeIdx : Nat}

theorem mergeLeafNode_left {leaf ls : LeafNode K} (hidx : edgeIdx ≠ 0)
    (hls : edges[edgeIdx - 1]? = some (some (.leaf ls))) (hk : edgeIdx - 1 < keys.length) :
    mergeLeafNode leaf (.internal keys edges) edgeIdx = .ok (.internal (keys.eraseIdx (edgeIdx - 1))
      ((edges.set edgeIdx (some (.leaf ⟨leaf.addr, leaf.startKeys ++ ls.startKeys, leaf.endKeys ++ ls.endKeys,
        ls.leftPtr, leaf.rightPtr⟩))).eraseIdx (edgeIdx - 1))) := by
  have he := (List.getElem?_eq_some_iff.1 hls).1
  simp [mergeLeafNode, findLeftSibling, hidx, vecIndex, hls, Node.asLeafNode, Node.asInternalNode, vecRemove,
    List.getElem?_eq_getElem hk, List.getElem?_eq_getElem (by simpa using he : edgeIdx - 1 < (edges.set edgeIdx _).length),
    List.eraseIdx_eq_take_drop_succ, pure, Except.pure, bind, Except.bind]

theorem stealFromLeftInternalSibling_spare (keys : List K) (edges : List (Option (Node K))) (nk : List K)
    (ne : List (Option (Node K)))
    {order : Nat} {sk : List K} {se : List (Option (Node K))} (hspare : InternalNode.hasSpareKey order sk = true) (hidx : edgeIdx ≠ 0) (hk : edgeIdx - 1 < keys.length)
    (hse : se ≠ []) (hsk : sk ≠ []) :
    ∃ p e m, keys[edgeIdx - 1]? = some p ∧ se.getLast? = some e ∧ sk.getLast? = some m ∧
      stealFromLeftInternalSibling order (nk, ne) (sk, se) (.internal keys edges) edgeIdx =
        .ok (.internal (keys.set (edgeIdx - 1) m) ((edges.set edgeIdx (some (.internal (p :: nk) (e :: ne)))).set
          (edgeIdx - 1) (some (.internal sk se.dropLast))), true) := by
  have hse' : 0 < se.length := List.length_pos.2 hse
  have hsk' : 0 < sk.length := List.length_pos.2 hsk
  refine ⟨_, _, _, List.getElem?_eq_getElem hk,
    by rw [List.getLast?_eq_getElem?, List.getElem?_eq_getElem (Nat.sub_lt hse' Nat.one_pos)],
    by rw [List.getLast?_eq_getElem?, List.getElem?_eq_getElem (Nat.sub_lt hsk' Nat.one_pos)], ?_⟩
  simp [stealFromLeftInternalSibling, hspare, Node.asInternalNode, usizeSub, Nat.one_le_iff_ne_zero.2 hidx,
    vecIndex, vecRemove, vecSet, hk, List.getElem?_eq_getElem hk, List.getElem?_eq_getElem (Nat.sub_lt hse' Nat.one_pos),
    List.getElem?_eq_getElem (Nat.sub_lt hsk' Nat.one_pos), List.dropLast_eq_take, pure, Except.pure, bind, Except.bind,
    Nat.one_le_iff_ne_zero.2 (List.length_pos.2 hse).ne', Nat.one_le_iff_ne_zero.2 (List.length_pos.2 hsk).ne']

theorem stealFromSibling_left {order : Nat} {nk sk : List K} {ne se : List (Option (Node K))} {res : Node K}
    (hidx : edgeIdx ≠ 0) (hs : edges[edgeIdx - 1]? = some (some (.internal sk se)))
    (h : stealFromLeftInternalSibling order (nk, ne) (sk, se) (.internal keys edges) edgeIdx = .ok (res, true)) :
    stealFromSibling order (nk, ne) (.internal keys edges) edgeIdx = .ok (res, true) := by
  simp [stealFromSibling, findLeftSibling, hidx, vecIndex, hs, Node.asInternalNode, h, pure, Except.pure, bind,
    Except.bind]

theorem mergeLeafNode_eq_ok {leaf : LeafNode K} {parent' : Node K}
    (h : mergeLeafNode leaf (.internal keys edges) edgeIdx = .ok parent') :
    ∃ j s lp rp, (j + 1 = edgeIdx ∨ j = edgeIdx + 1) ∧ edges[j]? = some (some (.leaf s)) ∧
      min j edgeIdx < keys.length ∧
      parent' = .internal (keys.eraseIdx (min j edgeIdx)) ((edges.set edgeIdx (some (.leaf
        ⟨leaf.addr, leaf.startKeys ++ s.startKeys, leaf.endKeys ++ s.endKeys, lp, rp⟩))).eraseIdx j) := by
  obtain ⟨ls?, hfl, h⟩ := bind_eq_ok.1 h
  rcases ls? with _ | sib
  · obtain ⟨rs?, hfr, h⟩ := bind_eq_ok.1 h
    rcases rs? with _ | sib
    · exact absurd h (except_throw_ne_ok _ _)
    · simp only [bind_eq_ok, Node.asLeafNode_eq_ok, Node.asInternalNode, except_pure_eq_ok, Prod.exists,
        vecRemove_eq_ok, Prod.mk.injEq, exists_eq_left', ← List.eraseIdx_eq_take_drop_succ] at h
      obtain ⟨s, rfl, _, _, ⟨-, rfl⟩, _, _, ⟨hk, rfl⟩, rfl⟩ := h
      refine ⟨edgeIdx + 1, s, leaf.leftPtr, s.rightPtr, .inr rfl, Node.subtree_singleton.1 (findRightSibling_eq_ok hfr), ?_⟩
      rw [min_eq_right (Nat.le_succ _)]
      exact ⟨(List.getElem?_eq_some_iff.1 hk).1, rfl⟩
  · simp only [bind_eq_ok, Node.asLeafNode_eq_ok, Node.asInternalNode, except_pure_eq_ok, Prod.exists,
      vecRemove_eq_ok, Prod.mk.injEq, exists_eq_left', ← List.eraseIdx_eq_take_drop_succ] at h
    obtain ⟨hidx, hs⟩ := findLeftSibling_eq_ok hfl
    obtain ⟨s, rfl, _, _, ⟨-, rfl⟩, _, _, ⟨hk, rfl⟩, rfl⟩ := h
    refine ⟨edgeIdx - 1, s, s.leftPtr, leaf.rightPtr, .inl (by omega), Node.subtree_singleton.1 hs, ?_⟩
    rw [min_eq_left (Nat.sub_le _ _)]
    exact ⟨(List.getElem?_eq_some_iff.1 hk).1, rfl⟩

theorem stealFromLeftInternalSibling_eq_ok {order : Nat} {nk sk : List K} {ne se : List (Option (Node K))}
    {res : Node K} {b : Bool}
    (h : stealFromLeftInternalSibling order (nk, ne) (sk, se) (.internal keys edges) edgeIdx = .ok (res, b)) :
    (b = false ∧ res = .internal keys edges) ∨
    (b = true ∧ ∃ p e m, keys[edgeIdx - 1]? = some p ∧ se.getLast? = some e ∧ sk.getLast? = some m ∧
      res = .internal (keys.set (edgeIdx - 1) m) ((edges.set edgeIdx (some (.internal (p :: nk) (e :: ne)))).set
        (edgeIdx - 1) (some (.internal sk se.dropLast)))) := by
  unfold stealFromLeftInternalSibling at h
  split at h
  · simp only [bind_eq_ok, Node.asInternalNode, except_pure_eq_ok, Prod.exists, vecIndex_eq_ok, vecRemove_eq_ok,
      vecSet_eq_ok, usizeSub_eq_ok, Prod.mk.injEq, exists_eq_left', exists_eq_right_right] at h
    obtain ⟨_, ⟨-, rfl⟩, p, hp, _, ⟨hse, rfl⟩, e, _, ⟨he, rfl⟩, _, ⟨-, rfl⟩, m, hm, _, ⟨-, rfl⟩, rfl, rfl⟩ := h
    refine .inr ⟨rfl, p, e, m, hp, by rwa [List.getLast?_eq_getElem?], by rwa [List.getLast?_eq_getElem?], ?_⟩
    simp [List.dropLast_eq_take, Nat.sub_add_cancel hse]
  · simp at h
    exact .inl ⟨h.2, h.1.symm⟩

theorem stealFromRightInternalSibling_eq_ok {order : Nat} {nk sk : List K} {ne se : List (Option (Node K))}
    {res : Node K} {b : Bool}
    (h : stealFromRightInternalSibling order (nk, ne) (sk, se) (.internal keys edges) edgeIdx = .ok (res, b)) :
    (b = false ∧ res = .internal keys edges) ∨
    (b = true ∧ ∃ p m sk' e se', keys[edgeIdx]? = some p ∧ sk = m :: sk' ∧ se = e :: se' ∧
      res = .internal (keys.set edgeIdx m) ((edges.set edgeIdx (some (.internal (nk ++ [p]) (ne ++ [e])))).set
        (edgeIdx + 1) (some (.internal sk' se')))) := by
  unfold stealFromRightInternalSibling at h
  split at h
  · simp only [bind_eq_ok, Node.asInternalNode, except_pure_eq_ok, Prod.exists, vecIndex_eq_ok, vecRemove_eq_ok,
      vecSet_eq_ok, Prod.mk.injEq, exists_eq_left'] at h
    obtain ⟨p, hp, e, _, ⟨he, rfl⟩, m, _, ⟨hm, rfl⟩, _, ⟨-, rfl⟩, rfl, rfl⟩ := h
    rcases se with _ | ⟨e', se⟩ <;> rcases sk with _ | ⟨m', sk⟩ <;> simp at he hm
    subst he hm
    exact .inr ⟨rfl, p, m', sk, e', se, hp, rfl, rfl, by simp⟩
  · simp at h
    exact .inl ⟨h.2, h.1.symm⟩

theorem stealFromSibling_right {order : Nat} {nk : List K} {ne : List (Option (Node K))} {res : Node K} {b : Bool}
    (h : (do
      match ← findRightSibling (.internal keys edges) edgeIdx with
      | some rightRc => stealFromRightInternalSibling order (nk, ne) (← rightRc.asInternalNode) (.internal keys edges) edgeIdx
      | none => pure (.internal keys edges, false) : Except Fault (Node K × Bool)) = .ok (res, b)) :
    res = .internal keys edges ∨ ∃ sk se, edges[edgeIdx + 1]? = some (some (.internal sk se)) ∧
      stealFromRightInternalSibling order (nk, ne) (sk, se) (.internal keys edges) edgeIdx = .ok (res, b) := by
  obtain ⟨r?, hfr, h⟩ := bind_eq_ok.1 h
  rcases r? with _ | sib
  · exact .inl (Prod.mk.inj (Except.ok.inj h)).1.symm
  · obtain ⟨⟨sk, se⟩, hs, h⟩ := bind_eq_ok.1 h
    rw [Node.asInternalNode_eq_ok] at hs
    subst hs
    exact .inr ⟨sk, se, Node.subtree_singleton.1 (findRightSibling_eq_ok hfr), h⟩

/-- A call of `steal_from_sibling` that returned, read back: the parent as it was, a left steal that
happened, or what a right steal returned. -/
theorem stealFromSibling_eq_ok {order : Nat} {nk : List K} {ne : List (Option (Node K))} {res : Node K} {b : Bool}
    (h : stealFromSibling order (nk, ne) (.internal keys edges) edgeIdx = .ok (res, b)) :
    res = .internal keys edges ∨
    (∃ sk se, edgeIdx ≠ 0 ∧ edges[edgeIdx - 1]? = some (some (.internal sk se)) ∧
      stealFromLeftInternalSibling order (nk, ne) (sk, se) (.internal keys edges) edgeIdx = .ok (res, true)) ∨
    (∃ sk se, edges[edgeIdx + 1]? = some (some (.internal sk se)) ∧
      stealFromRightInternalSibling order (nk, ne) (sk, se) (.internal keys edges) edgeIdx = .ok (res, b)) := by
  obtain ⟨l?, hfl, h⟩ := bind_eq_ok.1 h
  rcases l? with _ | sib <;>
    simp only [bind_eq_ok, Node.asInternalNode_eq_ok, Prod.exists, except_pure_eq_ok, exists_eq_left'] at h
  · exact (stealFromSibling_right h).imp_right .inr
  · obtain ⟨sk, se, rfl, p', stolen, hleft, h⟩ := h
    obtain ⟨hidx, hs⟩ := findLeftSibling_eq_ok hfl
    cases stolen
    · obtain ⟨-, rfl⟩ | ⟨h', -⟩ := stealFromLeftInternalSibling_eq_ok hleft
      · exact (stealFromSibling_right h).imp_right .inr
      · cases h'
    · obtain ⟨rfl, -⟩ := Prod.mk.inj (Except.ok.inj h)
      exact .inr (.inl ⟨sk, se, hidx, Node.subtree_singleton.1 hs, hleft⟩)

end Spec

/-! ## Order at a path -/

section Path
variable {f : Node K → Except Fault (Node K)} {s : Node K}

/-- **An edit at a path keeps the order** when it keeps the order of the node it rewrites, within
whatever bounds and at whatever height that node has. -/
theorem Ordered.modify (hf : ∀ h lo hi s', Ordered h lo hi s → f s = .ok s' → Ordered h lo hi s') :
    ∀ {path : List Nat} {n n' : Node K} {h : Nat} {lo hi : Option K}, n.subtree path = some s →
      Ordered h lo hi n → n.modify f path = .ok n' → Ordered h lo hi n'
  | [], n, n', h, lo, hi, hs, ho, hm => by
    rw [Node.subtree_nil, Option.some_inj] at hs
    subst hs
    exact hf h lo hi n' ho (by rwa [Node.modify_nil] at hm)
  | i :: path, .internal keys edges, n', h + 1, lo, hi, hs, ho, hm => by
    rcases Node.modify_cons hm with ⟨c, c', hc, hc', rfl⟩ | ⟨hc, -⟩
    · rw [Node.subtree_internal_cons hc] at hs
      have hle : i ≤ keys.length := by
        have := (List.getElem?_eq_some_iff.1 hc).1
        rw [Chain.length ho] at this
        omega
      obtain ⟨c₀, hc₀, hoc, hctx⟩ := ho.focus hle
      obtain rfl : c₀ = c := by simpa [hc] using hc₀.symm
      have := hctx [] [some c'] (Ordered.modify hf hs hoc hc')
      simpa [List.set_eq_take_append_cons_drop, (List.getElem?_eq_some_iff.1 hc).1] using this
    · rcases he : edges[i]? with _ | _ | c
      all_goals simp [Node.subtree, he] at hs
      exact absurd he (hc c)
  | _ :: _, .leaf _, _, _, _, _, hs, _, _ => by cases hs
  | _ :: _, .internal _ _, _, 0, _, _, _, ho, _ => ho.elim

end Path

/-! ## Trees on fixed inputs -/

/-- Three leaves `[1]`, `[5]`, `[10]` under the separators `[5, 10]`. -/
def threeLeaves : Node Nat :=
  .internal [5, 10] [some (.leaf ⟨0, [1], [2], none, some 1⟩), some (.leaf ⟨1, [5], [6], some 0, some 2⟩),
    some (.leaf ⟨2, [10], [11], some 1, none⟩)]

/-- At order 3, the root `[20]` over the nodes `[5, 10]` and `[30]`. -/
def stealLeftTree : Node Nat :=
  .internal [20] [some (.internal [5, 10] [some (.leaf ⟨0, [1], [2], none, some 1⟩),
      some (.leaf ⟨1, [5], [6], some 0, some 2⟩), some (.leaf ⟨2, [10], [11], some 1, some 3⟩)]),
    some (.internal [30] [some (.leaf ⟨3, [20], [21], some 2, some 4⟩), some (.leaf ⟨4, [30], [31], some 3, none⟩)])]

/-- At order 3, the root `[20]` over the nodes `[5]` and `[30, 40]`. -/
def stealRightTree : Node Nat :=
  .internal [20] [some (.internal [5] [some (.leaf ⟨0, [1], [2], none, some 1⟩),
      some (.leaf ⟨1, [5], [6], some 0, some 2⟩)]),
    some (.internal [30, 40] [some (.leaf ⟨2, [20], [21], some 1, some 3⟩),
      some (.leaf ⟨3, [30], [31], some 2, some 4⟩), some (.leaf ⟨4, [40], [41], some 3, none⟩)])]

/-! ## What a merge keeps -/

section Merge
variable {keys : List K} {edges : List (Option (Node K))} {edgeIdx : Nat}

theorem spans_leaf_merged (leaf s : LeafNode K) (h : leaf.startKeys.length = leaf.endKeys.length) (a : Nat)
    (lp rp : Option Nat) :
    (Node.leaf ⟨a, leaf.startKeys ++ s.startKeys, leaf.endKeys ++ s.endKeys, lp, rp⟩).spans =
      (Node.leaf leaf).spans + (Node.leaf s).spans := by
  simp [LeafNode.entries, List.zip_append h]

theorem mergeLeafNode_spans {leaf : LeafNode K} {parent' : Node K} (hl : edges[edgeIdx]? = some (some (.leaf leaf)))
    (halign : leaf.startKeys.length = leaf.endKeys.length)
    (h : mergeLeafNode leaf (.internal keys edges) edgeIdx = .ok parent') :
    parent'.spans = edgeSpans edges ∧ ∃ keys' edges', parent' = .internal keys' edges' ∧
      keys'.length + 1 = keys.length ∧ edges'.length + 1 = edges.length := by
  obtain ⟨j, s, lp, rp, hj, hs, hk, rfl⟩ := mergeLeafNode_eq_ok h
  have hj' := (List.getElem?_eq_some_iff.1 hs).1
  refine ⟨edgeSpans_merge _ (by omega) hl hs (spans_leaf_merged _ _ halign _ _ _), _, _, rfl, ?_, ?_⟩
  · simp [List.length_eraseIdx, hk]; omega
  · simp [List.length_eraseIdx, hj']; omega

/-- **`merge_leaf_node` keeps the tree's spans.** For a leaf at `edge_idx` of an internal node at
`path`, whose start and end keys pair up, a merge with either sibling that returns, written back at
the path, keeps every span of the tree, and leaves the parent one key and one edge fewer. -/
theorem merge_leaf_node_keeps_spans {root root' : Node K} {path : List Nat} {leaf : LeafNode K}
    (hp : root.subtree path = some (.internal keys edges)) (hl : edges[edgeIdx]? = some (some (.leaf leaf)))
    (halign : leaf.startKeys.length = leaf.endKeys.length)
    (h : root.modify (mergeLeafNode leaf · edgeIdx) path = .ok root') :
    root'.spans = root.spans ∧ ∃ keys' edges', root'.subtree path = some (.internal keys' edges') ∧
      keys'.length + 1 = keys.length ∧ edges'.length + 1 = edges.length := by
  obtain ⟨s', hs', hsub, hsp⟩ := Node.modify_spans hp h
  obtain ⟨hsp', keys', edges', rfl, hk, he⟩ := mergeLeafNode_spans hl halign hs'
  exact ⟨add_right_cancel (by rw [hsp, hsp', spans_internal]), keys', edges', hsub, hk, he⟩

theorem merge_leaf_node_keeps_spans_three_leaves :
    ∃ root', threeLeaves.modify (mergeLeafNode ⟨2, [10], [11], some 1, none⟩ · 2) [] = .ok root' ∧
      root'.spans = threeLeaves.spans ∧
      ∃ keys' edges', root'.subtree [] = some (.internal keys' edges') ∧ keys'.length + 1 = 2 ∧
        edges'.length + 1 = 3 :=
  (fun h => ⟨_, h, merge_leaf_node_keeps_spans (Node.subtree_nil _) rfl rfl h⟩) rfl

theorem Ordered.leaf_merge {lo hi : Option K} {m : K} {l s : LeafNode K} (hl : Ordered 0 lo (some m) (.leaf l))
    (hs : Ordered 0 (some m) hi (.leaf s)) (a : Nat) (lp rp : Option Nat) :
    Ordered 0 lo hi (.leaf ⟨a, l.startKeys ++ s.startKeys, l.endKeys ++ s.endKeys, lp, rp⟩) := by
  obtain ⟨hlt, hls, hlb⟩ := hl
  obtain ⟨hst, hss, hsb⟩ := hs
  refine ⟨hlt.trans hst, List.pairwise_append.2 ⟨hls, hss, fun a ha b hb => (hlb a ha).lt_upper.trans_le
    (hsb b hb).lower_le⟩, fun k hk => ?_⟩
  rcases List.mem_append.1 hk with hk | hk
  · exact (hlb k hk).widen_hi hst
  · exact (hsb k hk).widen_lo hlt

theorem mergeLeafNode_first_ordered {h : Nat} {lo hi : Option K} {leaf : LeafNode K} {parent' : Node K}
    (ho : Ordered h lo hi (.internal keys edges)) (hl : edges[0]? = some (some (.leaf leaf)))
    (hm : mergeLeafNode leaf (.internal keys edges) 0 = .ok parent') : Ordered h lo hi parent' := by
  obtain ⟨j, s, lp, rp, hj, hs, hk, rfl⟩ := mergeLeafNode_eq_ok hm
  obtain rfl : j = 1 := by omega
  obtain ⟨m, hkm⟩ : ∃ m, keys[0]? = some m := ⟨_, List.getElem?_eq_getElem (by simpa using hk)⟩
  rcases h with _ | _ | h
  · exact ho.elim
  · obtain ⟨hpa, hpb, hctx⟩ := Chain.window ho hkm hl hs
    have := hctx [] [some _] (chain_nil.2 ⟨_, rfl, Ordered.leaf_merge hpa hpb leaf.addr lp rp⟩)
    rcases edges with _ | ⟨e, _ | ⟨e', edges⟩⟩
    all_goals simp at hs
    simpa [List.eraseIdx_zero] using this
  · exact (Chain.window ho hkm hl hs).1.elim

/-- **At the first edge, `merge_leaf_node` keeps the tree ordered.** For the leaf at edge 0 of an
internal node at `path`, the merge with its right sibling, written back at the path, keeps the
order of the whole tree, within the same bounds. -/
theorem merge_leaf_node_first_child_ordered {h : Nat} {lo hi : Option K} {root root' : Node K} {path : List Nat}
    {leaf : LeafNode K} (ho : Ordered h lo hi root) (hp : root.subtree path = some (.internal keys edges))
    (hl : edges[0]? = some (some (.leaf leaf))) (hm : root.modify (mergeLeafNode leaf · 0) path = .ok root') :
    Ordered h lo hi root' :=
  Ordered.modify (fun _ _ _ _ ho' hm' => mergeLeafNode_first_ordered ho' hl hm') hp ho hm

theorem merge_leaf_node_first_child_ordered_three_leaves :
    Ordered 1 none none threeLeaves ∧
    ∃ root', threeLeaves.modify (mergeLeafNode ⟨0, [1], [2], none, some 1⟩ · 0) [] = .ok root' ∧
      Ordered 1 none none root' :=
  ⟨by decide, (fun h => ⟨_, h, merge_leaf_node_first_child_ordered (by decide) (Node.subtree_nil _) rfl h⟩) rfl⟩

end Merge

/-! ## What a steal keeps -/

section Steal
variable {keys : List K} {edges : List (Option (Node K))} {edgeIdx : Nat}

theorem stealFromSibling_spans {order : Nat} {nk : List K} {ne : List (Option (Node K))} {res : Node K} {b : Bool}
    (hn : edges[edgeIdx]? = some (some (.internal nk ne)))
    (h : stealFromSibling order (nk, ne) (.internal keys edges) edgeIdx = .ok (res, b)) :
    res.spans = edgeSpans edges := by
  rcases stealFromSibling_eq_ok h with rfl | ⟨sk, se, hidx, hs, hl⟩ | ⟨sk, se, hs, hr⟩
  · rfl
  · rcases stealFromLeftInternalSibling_eq_ok hl with ⟨h', -⟩ | ⟨-, p, e, m, -, he, -, rfl⟩
    · cases h'
    · refine edgeSpans_set_set _ _ (by omega) hn hs ?_
      conv_rhs => rw [spans_internal sk, ← List.dropLast_append_getLast? _ he]
      simp only [spans_internal, edgeSpans_append, ← List.singleton_append (l := ne)]
      abel
  · rcases stealFromRightInternalSibling_eq_ok hr with ⟨-, rfl⟩ | ⟨-, p, m, sk', e, se', -, rfl, rfl, rfl⟩
    · rfl
    · refine edgeSpans_set_set _ _ (by omega) hn hs ?_
      simp only [spans_internal, edgeSpans_append, ← List.singleton_append (l := se')]
      abel

/-- **`steal_from_sibling` keeps the tree's spans.** For an internal node at `edge_idx` of an internal
node at `path`, whatever the steal did, from either sibling, the parent it returned, written back at
the path, keeps every span of the tree. -/
theorem steal_from_sibling_keeps_spans {order : Nat} {root root' parent' : Node K} {path : List Nat}
    {nk : List K} {ne : List (Option (Node K))} {b : Bool} (hp : root.subtree path = some (.internal keys edges))
    (hn : edges[edgeIdx]? = some (some (.internal nk ne)))
    (hst : stealFromSibling order (nk, ne) (.internal keys edges) edgeIdx = .ok (parent', b))
    (hm : root.modify (fun _ => pure parent') path = .ok root') : root'.spans = root.spans := by
  obtain ⟨s', hs', -, hsp⟩ := Node.modify_spans hp hm
  cases (except_pure_eq_ok _ _).1 hs'
  exact add_right_cancel (by rw [hsp, stealFromSibling_spans hn hst, spans_internal])

theorem steal_from_sibling_keeps_spans_order_three :
    ∃ parent' root', stealFromSibling 3 ([30], [some (.leaf ⟨3, [20], [21], some 2, some 4⟩),
        some (.leaf ⟨4, [30], [31], some 3, none⟩)]) stealLeftTree 1 = .ok (parent', true) ∧
      stealLeftTree.modify (fun _ => pure parent') [] = .ok root' ∧ root'.spans = stealLeftTree.spans :=
  (fun h₁ => (fun h₂ => ⟨_, _, h₁, h₂, steal_from_sibling_keeps_spans (Node.subtree_nil _) rfl h₁ h₂⟩) rfl) rfl

theorem stealFromRightInternalSibling_ordered {h : Nat} {lo hi : Option K} {order : Nat} {nk sk : List K}
    {ne se : List (Option (Node K))} {res : Node K} {b : Bool}
    (ho : Ordered h lo hi (.internal keys edges)) (hn : edges[edgeIdx]? = some (some (.internal nk ne)))
    (hs : edges[edgeIdx + 1]? = some (some (.internal sk se)))
    (hst : stealFromRightInternalSibling order (nk, ne) (sk, se) (.internal keys edges) edgeIdx = .ok (res, b)) :
    Ordered h lo hi res := by
  rcases stealFromRightInternalSibling_eq_ok hst with ⟨-, rfl⟩ | ⟨-, p, m, sk', e, se', hp, rfl, rfl, rfl⟩
  · exact ho
  rcases h with _ | _ | h
  · exact ho.elim
  · exact (Chain.window ho hp hn hs).1.elim
  · obtain ⟨hpa, hpb, hctx⟩ := Chain.window ho hp hn hs
    obtain ⟨c, ns, heq, hc, hrest⟩ := chain_cons.1 hpb
    obtain ⟨rfl, rfl⟩ := List.cons_eq_cons.1 heq
    have hnode : Ordered (h + 1) (lowerSep lo keys edgeIdx) (some m) (.internal (nk ++ [p]) (ne ++ [some c])) :=
      Chain.append hpa (chain_nil.2 ⟨c, rfl, hc⟩)
    have := hctx [m] _ (chain_cons.2 ⟨_, _, rfl, hnode, chain_nil.2 ⟨.internal sk' se', rfl, hrest⟩⟩)
    rw [set_set_succ _ _ (List.getElem?_eq_some_iff.1 hs).1, List.set_eq_take_append_cons_drop,
      if_pos (List.getElem?_eq_some_iff.1 hp).1]
    simpa using this

/-- **At the first edge, `steal_from_sibling` keeps the tree ordered.** For an internal node at edge 0
of an internal node at `path`, the steal, which can only take from the right sibling, written back at
the path, keeps the order of the whole tree, within the same bounds. -/
theorem steal_from_sibling_first_child_ordered {h order : Nat} {lo hi : Option K} {root root' parent' : Node K}
    {path : List Nat} {nk : List K} {ne : List (Option (Node K))} {b : Bool} (ho : Ordered h lo hi root)
    (hp : root.subtree path = some (.internal keys edges)) (hn : edges[0]? = some (some (.internal nk ne)))
    (hst : stealFromSibling order (nk, ne) (.internal keys edges) 0 = .ok (parent', b))
    (hm : root.modify (fun _ => pure parent') path = .ok root') : Ordered h lo hi root' := by
  refine Ordered.modify (fun h' lo' hi' s' ho' hs' => ?_) hp ho hm
  cases (except_pure_eq_ok _ _).1 hs'
  rcases stealFromSibling_eq_ok hst with rfl | ⟨-, -, hidx, -⟩ | ⟨sk, se, hs, hr⟩
  · exact ho'
  · exact absurd rfl hidx
  · exact stealFromRightInternalSibling_ordered ho' hn hs hr

theorem steal_from_sibling_first_child_ordered_order_three :
    Ordered 2 none none stealRightTree ∧
    ∃ parent' root', stealFromSibling 3 ([5], [some (.leaf ⟨0, [1], [2], none, some 1⟩),
        some (.leaf ⟨1, [5], [6], some 0, some 2⟩)]) stealRightTree 0 = .ok (parent', true) ∧
      stealRightTree.modify (fun _ => pure parent') [] = .ok root' ∧ Ordered 2 none none root' :=
  ⟨by decide, (fun h₁ => (fun h₂ => ⟨_, _, h₁, h₂,
    steal_from_sibling_first_child_ordered (by decide) (Node.subtree_nil _) rfl h₁ h₂⟩) rfl) rfl⟩

end Steal

/-! ## The left branches break the invariant -/

section Tree
variable {root : Node K} {path : List Nat} {keys : List K} {edges : List (Option (Node K))} {edgeIdx : Nat}

theorem mem_nodes_of_subtree_self (hp : root.subtree path = some (.internal keys edges)) :
    Node.internal keys edges ∈ root.nodes :=
  Node.mem_nodes_of_subtree hp (List.mem_cons_self _ _)

/-- **`merge_leaf_node` unsorts a leaf merged with its left sibling.** On a tree with invariants
(i)-(v), for a leaf at `edge_idx` of its parent with a left sibling leaf, both holding a span, the
merge returns, and the merged leaf holds the leaf's start keys, at or above the separator between
the two, before the sibling's, below it: the tree breaks (v). -/
theorem merge_leaf_node_left_unsorted {leaf ls : LeafNode K} (hinv : StructuralInvariant root)
    (hp : root.subtree path = some (.internal keys edges)) (hl : edges[edgeIdx]? = some (some (.leaf leaf)))
    (hidx : edgeIdx ≠ 0) (hls : edges[edgeIdx - 1]? = some (some (.leaf ls)))
    (hne : leaf.startKeys ≠ []) (hne' : ls.startKeys ≠ []) :
    ∃ parent' root', mergeLeafNode leaf (.internal keys edges) edgeIdx = .ok parent' ∧
      root.modify (fun _ => pure parent') path = .ok root' ∧ ¬ StructuralInvariant root' := by
  have hpm := mem_nodes_of_subtree_self hp
  have hlen := (hinv.internal_edges _ hpm).2.1
  have hi := (List.getElem?_eq_some_iff.1 hl).1
  have hk : edgeIdx - 1 < keys.length := by omega
  -- the separator between the two leaves bounds the leaf from below and the sibling from above
  have hle : ∀ k ∈ leaf.startKeys, keys[edgeIdx - 1] ≤ k := fun k hk' =>
    (hinv.separators keys edges hpm edgeIdx _ hl leaf (List.mem_singleton_self _) k hk').1 _
      (by simp [lowerSep, hidx, List.getElem?_eq_getElem hk])
  have hlt : ∀ k ∈ ls.startKeys, k < keys[edgeIdx - 1] := fun k hk' =>
    (hinv.separators keys edges hpm (edgeIdx - 1) _ hls ls (List.mem_singleton_self _) k hk').2 _
      (by simp [upperSep, List.getElem?_eq_getElem hk])
  obtain ⟨root', hmod, hsub⟩ := Node.modify_ok (f := fun _ => pure _) rfl hp
  refine ⟨_, root', mergeLeafNode_left hidx hls hk, hmod, fun hinv' => ?_⟩
  have hmem : (⟨leaf.addr, leaf.startKeys ++ ls.startKeys, leaf.endKeys ++ ls.endKeys, ls.leftPtr, leaf.rightPtr⟩ :
      LeafNode K) ∈ root'.leaves := by
    refine Node.mem_leaves_of_subtree hsub (Node.mem_edgeLeaves.2 ⟨Node.leaf _, ?_, List.mem_singleton_self _⟩)
    exact List.mem_eraseIdx_iff_getElem?.2 ⟨edgeIdx, by omega, List.getElem?_set_self hi⟩
  obtain ⟨a, ha⟩ := List.exists_mem_of_ne_nil _ hne
  obtain ⟨b, hb⟩ := List.exists_mem_of_ne_nil _ hne'
  have hab := (List.pairwise_append.1 (hinv'.leaves_sorted _ hmem).1).2.2 a ha b hb
  exact absurd ((hlt b hb).trans_le (hle a ha)) (not_lt.2 hab.le)

theorem merge_leaf_node_left_unsorted_three_leaves :
    StructuralInvariant threeLeaves ∧
    ∃ parent' root', mergeLeafNode ⟨2, [10], [11], some 1, none⟩ threeLeaves 2 = .ok parent' ∧
      threeLeaves.modify (fun _ => pure parent') [] = .ok root' ∧ ¬ StructuralInvariant root' :=
  ⟨by decide, merge_leaf_node_left_unsorted (by decide) rfl rfl (by decide) rfl (by simp) (by simp)⟩

/-- **`steal_from_sibling` leaves the left sibling with as many edges as keys.** On a tree with
invariants (i)-(v), for an internal node at `edge_idx` of its parent whose left sibling is an
internal node with a spare key, the steal happens and returns `true`, and the sibling, which gave
its last edge but kept its last key, breaks (i). -/
theorem steal_from_left_sibling_keeps_key {order : Nat} {nk sk : List K} {ne se : List (Option (Node K))}
    (hinv : StructuralInvariant root) (hp : root.subtree path = some (.internal keys edges))
    (hn : edges[edgeIdx]? = some (some (.internal nk ne))) (hidx : edgeIdx ≠ 0)
    (hs : edges[edgeIdx - 1]? = some (some (.internal sk se))) (hspare : InternalNode.hasSpareKey order sk = true) :
    ∃ parent' root', stealFromSibling order (nk, ne) (.internal keys edges) edgeIdx = .ok (parent', true) ∧
      root.modify (fun _ => pure parent') path = .ok root' ∧ ¬ StructuralInvariant root' := by
  have hpm := mem_nodes_of_subtree_self hp
  have hlen := (hinv.internal_edges _ hpm).2.1
  have hi := (List.getElem?_eq_some_iff.1 hn).1
  have hsm : some (Node.internal sk se) ∈ edges := List.mem_iff_getElem?.2 ⟨_, hs⟩
  obtain ⟨hsk, hslen, -⟩ :=
    hinv.internal_edges _ (Node.mem_nodes_of_subtree hp (Node.mem_nodes_of_child hsm (List.mem_cons_self _ _)))
  have hse : se ≠ [] := List.ne_nil_of_length_pos (by omega)
  obtain ⟨p, e, m, -, -, -, hsteal⟩ := stealFromLeftInternalSibling_spare keys edges nk ne hspare hidx (by omega) hse hsk
  obtain ⟨root', hmod, hsub⟩ := Node.modify_ok (f := fun _ => pure _) rfl hp
  refine ⟨_, root', stealFromSibling_left hidx hs hsteal, hmod, fun hinv' => ?_⟩
  have hmem : Node.internal sk se.dropLast ∈ root'.nodes := by
    refine Node.mem_nodes_of_subtree hsub (Node.mem_nodes_of_child (c := .internal sk se.dropLast) ?_
      (List.mem_cons_self _ _))
    exact List.mem_iff_getElem?.2 ⟨edgeIdx - 1, List.getElem?_set_self (by simp; omega)⟩
  have := (hinv'.internal_edges _ hmem).2.1
  simp only [List.length_dropLast] at this
  omega

theorem steal_from_left_sibling_keeps_key_order_three :
    StructuralInvariant stealLeftTree ∧ InternalNode.hasSpareKey 3 [5, 10] = true ∧
    ∃ parent' root', stealFromSibling 3 ([30], [some (.leaf ⟨3, [20], [21], some 2, some 4⟩),
        some (.leaf ⟨4, [30], [31], some 3, none⟩)]) stealLeftTree 1 = .ok (parent', true) ∧
      stealLeftTree.modify (fun _ => pure parent') [] = .ok root' ∧ ¬ StructuralInvariant root' :=
  ⟨by decide, rfl, steal_from_left_sibling_keeps_key (by decide) rfl rfl (by decide) rfl rfl⟩

end Tree

end LittleKeyValueDb.LatchManager
