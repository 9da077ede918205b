import LittleKeyValueDb.LatchManager.DeleteReturns

/-! # Every node stays below capacity

`has_capacity` lets a node hold at most `order - 1` keys: `insert` puts the span in, and splits a
leaf or an internal node that reaches `order` into two halves, each below `order` again.

`delete` takes a span out of a leaf and sets separators, which never adds a key, except where the
leaf borrows. A leaf borrows only when it underflows, so holds fewer than `order / 2` start keys,
and it then takes one span from its left sibling and, since `is_stolen` is never set from the left
borrow, one more from its right sibling: at most `order / 2 + 1` start keys, still below `order`
from order 3 on (`BTree.delete_capped`).

So from order 3 on, after every run of `insert` and `delete` calls, every node holds fewer than
`order` keys (`tree_run_capacity`).
-/

namespace LittleKeyValueDb.LatchManager
set_option autoImplicit false
set_option linter.unusedSectionVars false

variable {K : Type} [LinearOrder K]

/-- Every node of the subtree holds fewer than `order` keys: start keys in a leaf, separators in an
internal node. -/
def Capped (order : Nat) (n : Node K) : Prop := ∀ m ∈ n.nodes, m.getKeys.length < order

/-- What a frame of `insert` hands up is below capacity. -/
def ResultCapped (order : Nat) : InsertResult K → Prop
  | .fit n => Capped order n
  | .split l _ r => Capped order l ∧ Capped order r

section Capped
variable {order : Nat} {keys : List K} {edges : List (Option (Node K))} {l : LeafNode K}

@[simp] theorem capped_leaf : Capped order (.leaf l) ↔ l.startKeys.length < order := by
  simp [Capped, Node.nodes, Node.getKeys]

theorem capped_internal :
    Capped order (.internal keys edges) ↔ keys.length < order ∧ ∀ c, some c ∈ edges → Capped order c := by
  simp only [Capped, Node.nodes, List.mem_cons, forall_eq_or_imp, Node.getKeys, Node.mem_edgeNodes]
  exact and_congr_right fun _ => ⟨fun h c hc m hm => h m ⟨c, hc, hm⟩, fun h m ⟨c, hc, hm⟩ => h c hc m hm⟩

theorem Capped.child {c : Node K} (h : Capped order (.internal keys edges)) (hc : some c ∈ edges) :
    Capped order c :=
  (capped_internal.1 h).2 c hc

theorem Capped.set {c : Node K} (hn : Capped order (.internal keys edges)) (hc : Capped order c) (i : Nat) :
    Capped order (.internal keys (edges.set i (some c))) := by
  refine capped_internal.2 ⟨(capped_internal.1 hn).1, fun d hd => ?_⟩
  rcases List.mem_or_eq_of_mem_set hd with hd | hd
  · exact hn.child hd
  · cases hd
    exact hc

end Capped

/-! ## `insert` -/

section Insert
variable {order addr : Nat} {range : Range K}

theorem insertIntoLeaf_capped {l : LeafNode K} {res : InsertResult K} (h2 : 2 ≤ order)
    (hl : l.startKeys.length = l.endKeys.length) (hcap : l.startKeys.length < order)
    (h : insertIntoLeaf order range addr l = .ok res) : ResultCapped order res := by
  obtain ⟨m, hm⟩ := exists_withRange_median l range
  have hs := withRange_startKeys_length l range
  rw [insertIntoLeaf_eq hl hm] at h
  cases h
  split
  · simp only [ResultCapped, capped_leaf, hs]
    omega
  · simp only [ResultCapped, capped_leaf, LeafNode.lowerHalf, LeafNode.upperHalf, List.length_take,
      List.length_drop, hs]
    omega

theorem insertUp_capped {idx : Nat} {keys : List K} {edges : List (Option (Node K))} {res res' : InsertResult K}
    (hlen : edges.length = keys.length + 1) (hn : Capped order (.internal keys edges))
    (hres : ResultCapped order res) (hup : insertUp order keys edges idx res = .ok res') :
    ResultCapped order res' := by
  cases res with
  | fit c =>
    cases hup
    exact hn.set hres idx
  | split c m r =>
    obtain ⟨hc, hr⟩ := hres
    have hk := (capped_internal.1 hn).1
    have hp := keyIndex_le keys m
    set p := keyIndex keys m
    set keys' := keys.take p ++ m :: keys.drop p
    set edges' := (edges.set idx (some c)).take (p + 1) ++ some r :: (edges.set idx (some c)).drop (p + 1)
    have hk' : keys'.length = keys.length + 1 := by simp [keys']; omega
    have he' : edges'.length = keys'.length + 1 := by simp [edges']; omega
    have hedges : ∀ d, some d ∈ edges' → Capped order d := fun d hd => by
      rcases mem_of_mem_insertAt hd with hd | hd
      · exact (hn.set hc idx).child hd
      · cases hd
        exact hr
    obtain ⟨m', hm'⟩ : ∃ m', keys'[keys'.length / 2]? = some m' := ⟨_, List.getElem?_eq_getElem (by omega)⟩
    rw [insertUp_split_eq hlen, splitIfFull_eq he' hm'] at hup
    cases hup
    split
    · exact capped_internal.2 ⟨by omega, hedges⟩
    · exact ⟨capped_internal.2 ⟨by simp; omega, fun d hd => hedges d (List.mem_of_mem_take hd)⟩,
        capped_internal.2 ⟨by simp; omega, fun d hd => hedges d (List.mem_of_mem_drop hd)⟩⟩

theorem insertFrom_capped (h2 : 2 ≤ order) :
    ∀ {h fuel : Nat} {n : Node K} {next : Option (Node K)} {res : InsertResult K},
      Skeleton h n → Capped order n → insertFrom order range addr fuel n next = .ok res → ResultCapped order res
  | _, 0, _, _, _, _, _, hr => by cases hr
  | 0, _ + 1, .leaf _, _, _, hn, hcap, hr => insertIntoLeaf_capped h2 (skeleton_leaf.1 hn).2 (capped_leaf.1 hcap) hr
  | _ + 1, _ + 1, .internal keys _, _, _, hn, hcap, hr => by
    obtain ⟨c, hc, hcs⟩ := hn.child (keyIndex_le keys range.startKey)
    rw [insertFrom_internal hn.1 hc] at hr
    obtain ⟨resC, hrc, hup⟩ := bind_eq_ok.1 hr
    exact insertUp_capped hn.2.1 hcap (insertFrom_capped h2 hcs (hcap.child (List.mem_iff_getElem?.2 ⟨_, hc⟩)) hrc) hup
  | 0, _ + 1, .internal _ _, _, _, hn, _, _ => hn.elim
  | _ + 1, _ + 1, .leaf _, _, _, hn, _, _ => hn.elim

theorem InsertResult.toRoot_capped {res : InsertResult K} (h2 : 2 ≤ order) (hres : ResultCapped order res) :
    Capped order res.toRoot := by
  cases res with
  | fit n => exact hres
  | split l m r =>
    refine capped_internal.2 ⟨by simp; omega, fun c hc => ?_⟩
    simp only [List.mem_cons, Option.some_inj, List.mem_singleton, List.not_mem_nil, or_false] at hc
    rcases hc with rfl | rfl
    · exact hres.1
    · exact hres.2

end Insert

/-! ## `delete` -/

section Delete
variable {order : Nat}

/-- **An edit at a path keeps a property of trees** that every child of a node inherits and that
comes back when a child is replaced by one with the property, provided the rewrite keeps it at the
path. -/
theorem Node.modify_keeps {P : Node K → Prop} {f : Node K → Except Fault (Node K)}
    (hchild : ∀ {keys : List K} {edges : List (Option (Node K))} {c : Node K} {i : Nat},
      edges[i]? = some (some c) → P (.internal keys edges) → P c)
    (hset : ∀ {keys : List K} {edges : List (Option (Node K))} {c c' : Node K} {i : Nat},
      edges[i]? = some (some c) → P (.internal keys edges) → P c' →
      P (.internal keys (edges.set i (some c')))) :
    ∀ {p : List Nat} {n n' : Node K}, (∀ s s', n.subtree p = some s → f s = .ok s' → P s → P s') →
      P n → n.modify f p = .ok n' → P n'
  | [], n, _, hf, hn, hm => hf n _ (Node.subtree_nil n) (by rwa [Node.modify_nil] at hm) hn
  | i :: p, .internal keys edges, _, hf, hn, hm => by
    rcases Node.modify_cons hm with ⟨c, c', hc, hc', rfl⟩ | ⟨-, rfl⟩
    · refine hset hc hn (Node.modify_keeps hchild hset (fun s s' hs => hf s s' ?_) (hchild hc hn) hc')
      rwa [Node.subtree_internal_cons hc]
    · exact hn
  | _ :: _, .leaf _, _, _, hn, hm => by
    cases hm
    exact hn

theorem Node.modify_capped {f : Node K → Except Fault (Node K)} {p : List Nat} {n n' : Node K}
    (hf : ∀ s s', n.subtree p = some s → f s = .ok s' → Capped order s → Capped order s')
    (hn : Capped order n) (hm : n.modify f p = .ok n') : Capped order n' :=
  Node.modify_keeps (fun hc hn => hn.child (List.mem_iff_getElem?.2 ⟨_, hc⟩)) (fun _ hn hc' => hn.set hc' _) hf hn hm

theorem Node.SetsKeys.capped {s s' : Node K} (h : s.SetsKeys s') (hs : Capped order s) : Capped order s' := by
  obtain ⟨keys, keys', edges, rfl, rfl, hlen⟩ := h
  rw [capped_internal] at hs ⊢
  exact ⟨hlen ▸ hs.1, hs.2⟩

theorem Node.modify_setsKeys_capped {f : Node K → Except Fault (Node K)} {p : List Nat} {n n' : Node K}
    (hf : ∀ s s', f s = .ok s' → s.SetsKeys s') (hn : Capped order n) (hm : n.modify f p = .ok n') :
    Capped order n' :=
  Node.modify_capped (fun s s' _ hs => (hf s s' hs).capped) hn hm

theorem LeafNode.insertRange_length {l l' : LeafNode K} {range : Range K} (h : l.insertRange range = .ok l') :
    l'.startKeys.length = l.startKeys.length + 1 := by
  simp only [LeafNode.insertRange, bind_eq_ok, vecInsert_eq_ok, except_pure_eq_ok] at h
  obtain ⟨_, ⟨hi, rfl⟩, _, -, rfl⟩ := h
  simp only [List.length_append, List.length_take, List.length_cons, List.length_drop]
  omega

/-- A moved span keeps the tree below capacity when the leaf that takes it has room; that leaf
then holds one start key more. -/
theorem Node.moveSpan_capped {n n₂ n₃ : Node K} {pp : List Nat} {i j : Nat} {sl sl' l : LeafNode K} {r : Range K}
    (hij : i ≠ j) (hsteal : ∃ k, sl.RemovesAt sl' k r.startKey r.endKey)
    (hsib : n.subtree (pp ++ [i]) = some (.leaf sl)) (hleaf : n.subtree (pp ++ [j]) = some (.leaf l))
    (hroom : l.startKeys.length + 1 < order) (hn : Capped order n)
    (h₂ : n.modify (fun _ => pure (.leaf sl')) (pp ++ [i]) = .ok n₂)
    (h₃ : n₂.modifyLeaf (·.insertRange r) (pp ++ [j]) = .ok n₃) :
    Capped order n₃ ∧ ∃ l', n₃.subtree (pp ++ [j]) = some (.leaf l') ∧
      l'.startKeys.length = l.startKeys.length + 1 := by
  have hn₂ : Capped order n₂ := Node.modify_capped (fun s s' hs hf hcs => by
    rw [hsib, Option.some_inj] at hs
    subst hs
    cases hf
    obtain ⟨_, hk⟩ := hsteal
    have := hk.length
    rw [capped_leaf] at hcs ⊢
    omega) hn h₂
  have hleaf₂ : n₂.subtree (pp ++ [j]) = some (.leaf l) := by rw [Node.subtree_modify_of_ne hij h₂, hleaf]
  obtain ⟨l', hl', hsub₃, -⟩ := Node.modifyLeaf_spans hleaf₂ h₃
  refine ⟨Node.modify_capped (fun s s' hs hf _ => ?_) hn₂ h₃, l', hsub₃, LeafNode.insertRange_length hl'⟩
  rw [hleaf₂, Option.some_inj] at hs
  subst hs
  obtain ⟨_, hl, hf⟩ := bind_eq_ok.1 hf
  cases hl
  obtain ⟨l'', hl'', hf⟩ := bind_eq_ok.1 hf
  cases hf
  rw [capped_leaf, LeafNode.insertRange_length hl'']
  omega

theorem updateAncestorsAfterDelete_capped {root root' : Node K} {key : K} {leaf : LeafNode K}
    {stack : List (Nat × Direction × Node K)} {rightSibling : Option (Node K)} (hn : Capped order root)
    (h : updateAncestorsAfterDelete root key leaf stack rightSibling = .ok root') : Capped order root' := by
  obtain ⟨next, -, h⟩ := bind_eq_ok.1 h
  refine foldlM_invariant (P := Capped order) (fun r e r' he hr => ?_) h hn
  rcases updateAncestorAt_setsKeys he with rfl | ⟨f, path, hf, hm⟩
  · exact hr
  · exact Node.modify_setsKeys_capped hf hr hm

variable {idx : Nat} {d : Direction} {parent : Node K} {init : List (Nat × Direction × Node K)}

/-- **The left borrow** gives the leaf at most one start key, sets a separator, and leaves the right
sibling as it was. -/
theorem stealFromLeftLeafSibling_capped {root root' sib : Node K} {stolen : Bool} {l : LeafNode K}
    (hidx : idx ≠ 0) (hsib : root.subtree (init.map (·.1) ++ [idx - 1]) = some sib)
    (hleaf : root.subtree (init.map (·.1) ++ [idx]) = some (.leaf l)) (hroom : l.startKeys.length + 1 < order)
    (hn : Capped order root)
    (h : stealFromLeftLeafSibling order root sib (init ++ [(idx, d, parent)]) = .ok (root', stolen)) :
    Capped order root' ∧ (∃ l', root'.subtree (init.map (·.1) ++ [idx]) = some (.leaf l') ∧
      l'.startKeys.length ≤ l.startKeys.length + 1) ∧
      root'.subtree (init.map (·.1) ++ [idx + 1]) = root.subtree (init.map (·.1) ++ [idx + 1]) := by
  unfold stealFromLeftLeafSibling at h
  split at h
  · simp only [stackPath_parent, stackPath_index, bind_eq_ok, Prod.exists, except_pure_eq_ok, Prod.mk.injEq] at h
    obtain ⟨sl, hsl, sl', r, hsteal, root₂, h₂, root₃, h₃, k, -, root₄, h₄, rfl, -⟩ := h
    rw [Node.asLeafNode_eq_ok] at hsl
    subst hsl
    have hmoved := LeafNode.stealBiggestKey_removesAt hsteal
    obtain ⟨hn₃, l', hl'₃, hlen⟩ := Node.moveSpan_capped (by omega) ⟨_, hmoved⟩ hsib hleaf hroom hn h₂ h₃
    obtain ⟨-, -, hside⟩ := Node.moveSpan_spans (by omega) hmoved.entries hsib hleaf h₂ h₃
    obtain ⟨-, hsub₄⟩ := Node.modify_rekey (fun _ _ hs => (Node.updateKeyAtIndex_setsKeys hs).rekeys) h₄
    refine ⟨Node.modify_setsKeys_capped (fun _ _ hs => Node.updateKeyAtIndex_setsKeys hs) hn₃ h₄,
      ⟨l', by rw [hsub₄, hl'₃], hlen.le⟩, ?_⟩
    rw [hsub₄, hside _ (by omega) (by omega)]
  · cases h
    exact ⟨hn, ⟨l, hleaf, by omega⟩, rfl⟩

theorem stealFromRightLeafSibling_capped {root root' sib : Node K} {key : K} {stolen : Bool} {l : LeafNode K}
    (hsib : root.subtree (init.map (·.1) ++ [idx + 1]) = some sib)
    (hleaf : root.subtree (init.map (·.1) ++ [idx]) = some (.leaf l)) (hroom : l.startKeys.length + 1 < order)
    (hn : Capped order root)
    (h : stealFromRightLeafSibling order root key sib (init ++ [(idx, d, parent)]) = .ok (root', stolen)) :
    Capped order root' := by
  unfold stealFromRightLeafSibling at h
  split at h
  · simp only [stackPath_parent, stackPath_index, bind_eq_ok, Prod.exists, except_pure_eq_ok, Prod.mk.injEq] at h
    obtain ⟨sl, hsl, sl', r, hsteal, root₂, h₂, root₃, h₃, root₄, h₄, rfl, -⟩ := h
    rw [Node.asLeafNode_eq_ok] at hsl
    subst hsl
    refine foldlM_invariant (P := Capped order) (fun _ _ _ he hr => ?_) h₄
      (Node.moveSpan_capped (by omega) ⟨_, LeafNode.stealSmallestKey_removesAt hsteal⟩ hsib hleaf hroom hn h₂ h₃).1
    obtain ⟨f, path, hf, hm⟩ := stealRightAncestorAt_setsKeys he
    exact Node.modify_setsKeys_capped hf hr hm
  · cases h
    exact hn

end Delete

/-- **`delete` keeps every node below capacity**, from order 3 on: the leaf loses a span, and when it
underflows it takes back at most two. -/
theorem BTree.delete_capped {fuel : Nat} {t t' : BTree K} {key : K} {root : Node K} (h3 : 3 ≤ t.order)
    (hroot : t.root = some root) (hn : Capped t.order root) (h : t.delete fuel key = .ok t') :
    ∃ root', t'.root = some root' ∧ Capped t.order root' := by
  obtain ⟨⟨res, stack⟩, hfind, h⟩ := bind_eq_ok.1 h
  dsimp only at h
  obtain ⟨l, rfl, hleaf, hlast⟩ := BTree.findLeafToDelete_path hroot hfind
  rw [hroot] at h
  simp only [Node.asLeafNode, pure_bind, bind_eq_ok] at h
  obtain ⟨r, hr, h⟩ := h
  cases r with
  | none =>
    cases h
    exact ⟨root, hroot, hn⟩
  | some leaf =>
    obtain ⟨root₁, h₁, h⟩ := bind_eq_ok.1 h
    rw [stackPath_length] at h₁
    obtain ⟨_, _, hrm⟩ := LeafNode.removeKey_removesAt hr
    have hn₁ : Capped t.order root₁ := Node.modify_capped (fun s s' hs hf hcs => by
      rw [hleaf, Option.some_inj] at hs
      subst hs
      cases hf
      have := hrm.length
      rw [capped_leaf] at hcs ⊢
      omega) hn h₁
    obtain ⟨s₁, hs₁, hsub₁, -⟩ := Node.modify_spans hleaf h₁
    cases hs₁
    rcases hst : stack.getLast? with _ | ⟨idx, d, parent⟩
    · rw [hst] at h
      cases h
      exact ⟨root₁, rfl, hn₁⟩
    obtain ⟨init, rfl⟩ := List.getLast?_eq_some_iff.1 hst
    rw [hst] at h
    have hparent : root.subtree (init.map (·.1)) = some parent := by simpa using hlast _ hst
    rw [List.map_append, List.map_singleton] at h₁ hsub₁
    have hside : ∀ j, j ≠ idx → root₁.subtree (init.map (·.1) ++ [j]) = parent.subtree [j] := fun j hj => by
      rw [Node.subtree_modify_of_ne (Ne.symm hj) h₁, Node.subtree_append, hparent]
      rfl
    obtain ⟨rso, hrso, h⟩ := bind_eq_ok.1 h
    obtain ⟨lso, hlso, h⟩ := bind_eq_ok.1 h
    split at h
    · obtain ⟨root₂, h₂, h⟩ := bind_eq_ok.1 h
      cases h
      exact ⟨root₂, rfl, updateAncestorsAfterDelete_capped hn₁ h₂⟩
    rename_i hund
    simp only [Bool.not_false, if_true] at h
    have hsmall : leaf.startKeys.length < t.order / 2 := by
      simpa [LeafNode.isUnderflow, isUnderflowLen] using hund
    have hright : ∀ {root₂ rs : Node K} {l₂ : LeafNode K} {res : Node K × Bool}, rso = some rs →
        Capped t.order root₂ → root₂.subtree (init.map (·.1) ++ [idx]) = some (.leaf l₂) →
        l₂.startKeys.length ≤ leaf.startKeys.length + 1 →
        root₂.subtree (init.map (·.1) ++ [idx + 1]) = root₁.subtree (init.map (·.1) ++ [idx + 1]) →
        stealFromRightLeafSibling t.order root₂ key rs (init ++ [(idx, d, parent)]) = .ok res →
        Capped t.order res.1 := by
      rintro root₂ rs l₂ ⟨root₃, b⟩ rfl hn₂ hl₂ hlen hsub hsteal
      refine stealFromRightLeafSibling_capped ?_ hl₂ (by omega) hn₂ hsteal
      rw [hsub, hside _ (by omega), findRightSibling_eq_ok hrso]
    cases lso with
    | none =>
      cases rso with
      | none =>
        cases h
        exact ⟨root₁, rfl, hn₁⟩
      | some rs =>
        obtain ⟨res, hres, h⟩ := bind_eq_ok.1 h
        cases h
        exact ⟨res.1, rfl, hright rfl hn₁ hsub₁ (Nat.le_succ _) rfl hres⟩
    | some ls =>
      obtain ⟨hidx, hls⟩ := findLeftSibling_eq_ok hlso
      obtain ⟨⟨root₂, b⟩, h₂, h⟩ := bind_eq_ok.1 h
      obtain ⟨hn₂, ⟨l₂, hl₂, hlen₂⟩, hsub₂⟩ := stealFromLeftLeafSibling_capped hidx
        (by rw [hside _ (by omega), hls]) hsub₁ (by omega) hn₁ h₂
      cases rso with
      | none =>
        cases h
        exact ⟨root₂, rfl, hn₂⟩
      | some rs =>
        obtain ⟨res, hres, h⟩ := bind_eq_ok.1 h
        cases h
        exact ⟨res.1, rfl, hright rfl hn₂ hl₂ hlen₂ hsub₂ hres⟩

/-! ## Runs of calls -/

theorem BTree.call_capped {fuel h : Nat} {t t' : BTree K} {c : Call K} {root : Node K} (h3 : 3 ≤ t.order)
    (hroot : t.root = some root) (hs : Skeleton h root) (hn : Capped t.order root) (hc : t.call fuel c = .ok t') :
    ∃ root', t'.root = some root' ∧ Capped t.order root' := by
  cases c with
  | insert range =>
    obtain ⟨res, hres, rfl⟩ := (BTree.insert_eq_ok hroot).1 hc
    exact ⟨_, rfl, InsertResult.toRoot_capped (by omega) (insertFrom_capped (by omega) hs hn hres)⟩
  | delete key => exact BTree.delete_capped h3 hroot hn hc

/-- **Run lemma.** From order 3 on, a property of the root that every call keeps on a skeleton holds
after every run of calls. -/
theorem TreeRun.keeps {order : Nat} (h3 : 3 ≤ order) {Q : Node K → Prop} (hnew : Q (.leaf ⟨0, [], [], none, none⟩))
    (hcall : ∀ {fuel h : Nat} {t t' : BTree K} {c : Call K} {root : Node K}, t.order = order →
      t.root = some root → Skeleton h root → Q root → t.call fuel c = .ok t' → ∃ root', t'.root = some root' ∧ Q root')
    {cs : List (Call K)} {t : BTree K} (hrun : TreeRun order cs t) : ∃ root, t.root = some root ∧ Q root := by
  suffices ∃ root h, t.root = some root ∧ t.order = order ∧ Skeleton h root ∧ Q root from
    let ⟨root, _, hroot, _, _, hq⟩ := this
    ⟨root, hroot, hq⟩
  induction hrun with
  | new => exact ⟨_, 0, rfl, rfl, rfl, hnew⟩
  | call _ _ hc ih =>
    obtain ⟨root, h, hroot, hord, hs, hq⟩ := ih
    obtain ⟨root', h', hroot', hord', hs', -⟩ := BTree.call_skeleton (hord ▸ h3) hroot hs hc
    obtain ⟨root'', hroot'', hq'⟩ := hcall hord hroot hs hq hc
    rw [hroot', Option.some_inj] at hroot''
    subst hroot''
    exact ⟨root', h', hroot', hord'.trans hord, hs', hq'⟩

/-- **Capacity over every run.** From order 3 on, on every tree a run of `insert` and `delete` calls
builds from `BTree::new(order)`, whatever the keys, the passes given and the order of the calls,
every node holds fewer than `order` keys: a leaf fewer than `order` start keys, an internal node
fewer than `order` separators. -/
theorem tree_run_capacity (order : Nat) (h3 : 3 ≤ order) (cs : List (Call K)) (t : BTree K)
    (hrun : TreeRun order cs t) : ∃ root, t.root = some root ∧ ∀ m ∈ root.nodes, m.getKeys.length < order :=
  hrun.keeps h3 (capped_leaf.2 (by simp; omega)) fun hord hroot hs hn hc => by
    subst hord
    exact BTree.call_capped h3 hroot hs hn hc

theorem tree_run_capacity_after_borrow :
    3 ≤ 3 ∧ TreeRun 3 borrowCalls borrowTree ∧
      ∃ root, borrowTree.root = some root ∧ ∀ m ∈ root.nodes, m.getKeys.length < 3 :=
  ⟨le_rfl, treeRun_borrow, tree_run_capacity 3 le_rfl _ _ treeRun_borrow⟩

end LittleKeyValueDb.LatchManager
