import LittleKeyValueDb.LatchManager.Insert
import LittleKeyValueDb.LatchManager.Descent
import LittleKeyValueDb.LatchManager.Run

/-! # The shape every run of calls keeps

`delete` repairs an underflowing leaf only by borrowing from a sibling (`merge_leaf_node` and
`steal_from_sibling` are never called), so along runs that mix `insert` and `delete` the occupancy
bounds of `Shaped` are lost, and with them, by `update_ancestors_after_delete`, the separator bounds.
What stays is the skeleton, `Skeleton h n`: every leaf at height `h` with as many end keys as start
keys, every internal node with a separator and one more edge than separators, all set. It is what
the code's vector accesses and descents rely on.

* `insert`: on a skeleton, a frame hands up skeletons, and with more passes than the height it
  returns (`insertFrom_skeleton`, `insertFrom_returns`); a split root adds one level.
* `delete`: each edit of `BTree.delete_eq_ok` keeps the skeleton, the leaf losing its span and each
  `RepairStep`, so `delete` keeps it at the same height (`BTree.delete_skeleton`).
* Runs: from `BTree::new` every run of calls keeps a skeleton no higher than the number of calls
  (`TreeRun.skeleton`). So after any run `insert` returns, and both descents reach a leaf, given one
  pass more than there were calls.
-/

namespace LittleKeyValueDb.LatchManager
set_option autoImplicit false
set_option linter.unusedSectionVars false

variable {K : Type} [LinearOrder K]

/-! ## The skeleton -/

/-- See the module doc: leaves at height `h` with aligned vectors, internal nodes with a key and one
more edge than keys, all set. -/
def Skeleton : Nat → Node K → Prop
  | 0, .leaf l => l.startKeys.length = l.endKeys.length
  | h + 1, .internal keys edges => keys ≠ [] ∧ edges.length = keys.length + 1 ∧
      ∀ e ∈ edges, ∃ c, e = some c ∧ Skeleton h c
  | _, _ => False

instance Skeleton.instDecidable : ∀ h (n : Node K), Decidable (Skeleton h n)
  | 0, .leaf l => inferInstanceAs (Decidable (l.startKeys.length = l.endKeys.length))
  | h + 1, .internal keys edges =>
    have : ∀ e : Option (Node K), Decidable (∃ c, e = some c ∧ Skeleton h c) := fun
      | some c => have := Skeleton.instDecidable h c
        decidable_of_iff (Skeleton h c) ⟨fun hc => ⟨c, rfl, hc⟩, fun ⟨_, hc, hs⟩ => Option.some.inj hc ▸ hs⟩
      | none => isFalse fun ⟨_, hc, _⟩ => Option.noConfusion hc
    inferInstanceAs (Decidable (keys ≠ [] ∧ edges.length = keys.length + 1 ∧ ∀ e ∈ edges, _))
  | 0, .internal _ _ | _ + 1, .leaf _ => isFalse id

/-- What a frame of `insert` hands up is a skeleton at the height of the node it ran at. -/
def ResultSkeleton (h : Nat) : InsertResult K → Prop
  | .fit n => Skeleton h n
  | .split l _ r => Skeleton h l ∧ Skeleton h r

section Skeleton
variable {h : Nat} {keys : List K} {edges : List (Option (Node K))} {l : LeafNode K}

@[simp] theorem skeleton_leaf : Skeleton h (.leaf l) ↔ h = 0 ∧ l.startKeys.length = l.endKeys.length := by
  cases h <;> simp [Skeleton]

theorem Shaped.skeleton {order : Nat} : ∀ {h : Nat} {isRoot : Bool} {n : Node K}, Shaped order isRoot h n → Skeleton h n
  | 0, _, .leaf _, hn => hn.1
  | _ + 1, _, .internal _ _, hn =>
    ⟨hn.1, hn.2.2.2.1, fun e he => let ⟨c, hc, hs⟩ := hn.2.2.2.2 e he; ⟨c, hc, hs.skeleton⟩⟩
  | 0, _, .internal _ _, hn => hn.elim
  | _ + 1, _, .leaf _, hn => hn.elim

theorem Skeleton.of_mem {c : Node K} (hn : Skeleton (h + 1) (.internal keys edges)) (hc : some c ∈ edges) :
    Skeleton h c := by
  obtain ⟨c', hc', hs⟩ := hn.2.2 _ hc
  cases hc'
  exact hs

theorem Skeleton.child {i : Nat} (hn : Skeleton (h + 1) (.internal keys edges)) (hi : i ≤ keys.length) :
    ∃ c, edges[i]? = some (some c) ∧ Skeleton h c := by
  have hi' : i < edges.length := by rw [hn.2.1]; omega
  obtain ⟨c, hc, hs⟩ := hn.2.2 _ (List.getElem_mem hi')
  exact ⟨c, by rw [List.getElem?_eq_getElem hi', hc], hs⟩

theorem Skeleton.subtree : ∀ {path : List Nat} {h : Nat} {n s : Node K}, Skeleton h n →
    n.subtree path = some s → Skeleton (h - path.length) s
  | [], _, _, _, hn, hs => by
    rw [Node.subtree_nil, Option.some_inj] at hs
    exact hs ▸ hn
  | i :: path, _ + 1, .internal keys edges, _, hn, hs => by
    rcases hc : edges[i]? with _ | _ | c
    all_goals simp only [Node.subtree, hc, reduceCtorEq] at hs
    simpa using (hn.of_mem (List.mem_iff_getElem?.2 ⟨i, hc⟩)).subtree hs
  | _ :: _, 0, .leaf _, _, _, hs => by cases hs
  | _ :: _, 0, .internal _ _, _, hn, _ => hn.elim
  | _ :: _, _ + 1, .leaf _, _, hn, _ => hn.elim

theorem Skeleton.leaf_aligned {path : List Nat} {n : Node K} (hn : Skeleton h n) (hs : n.subtree path = some (.leaf l)) :
    l.startKeys.length = l.endKeys.length :=
  (skeleton_leaf.1 (hn.subtree hs)).2

/-! ### What the skeleton says of the tree -/

theorem Skeleton.edgesSet : ∀ {h : Nat} {n : Node K}, Skeleton h n → n.EdgesSet
  | _, .leaf _, _ => trivial
  | _ + 1, .internal _ _, hn => ⟨hn.1, hn.2.1, fun e he => let ⟨_, hc, _⟩ := hn.2.2 e he; hc ▸ rfl⟩
  | 0, .internal _ _, hn => hn.elim

theorem Skeleton.internalEdges : ∀ {h : Nat} {n : Node K}, Skeleton h n → InternalEdges n
  | 0, .leaf _, _ => by simp [InternalEdges, Node.nodes, Node.EdgesSet]
  | h + 1, .internal keys edges, hn => by
    intro m hm
    rcases List.mem_cons.1 hm with rfl | hm
    · exact hn.edgesSet
    obtain ⟨c, hc, hm⟩ := Node.mem_edgeNodes.1 hm
    exact (hn.of_mem hc).internalEdges m hm
  | 0, .internal _ _, hn => hn.elim
  | _ + 1, .leaf _, hn => hn.elim

theorem Skeleton.leaves : ∀ {h : Nat} {n : Node K}, Skeleton h n →
    ∀ l ∈ n.leaves, l.startKeys.length = l.endKeys.length
  | 0, .leaf _, hn => by simpa [Node.leaves] using hn
  | _ + 1, .internal _ edges, hn => by
    intro l hl
    obtain ⟨c, hc, hl⟩ := Node.mem_edgeLeaves.1 hl
    exact (hn.of_mem hc).leaves l hl
  | 0, .internal _ _, hn => hn.elim
  | _ + 1, .leaf _, hn => hn.elim

theorem Skeleton.leafDepths : ∀ {h : Nat} {n : Node K}, Skeleton h n → ∀ d ∈ n.leafDepths, d = h
  | 0, .leaf _, _ => by simp [Node.leafDepths]
  | _ + 1, .internal _ edges, hn => by
    intro d hd
    simp only [Node.leafDepths, List.mem_map] at hd
    obtain ⟨d, hd, rfl⟩ := hd
    obtain ⟨c, hc, hd⟩ := Node.mem_edgeLeafDepths.1 hd
    rw [(hn.of_mem hc).leafDepths d hd]
  | 0, .internal _ _, hn => hn.elim
  | _ + 1, .leaf _, hn => hn.elim

end Skeleton

/-! ## The descents -/

section Descents
variable {k : K}

theorem Skeleton.findLeafToAddLoop_ok : ∀ {h fuel : Nat} {n : Node K} {next : Option (Node K)} {stack : List (Node K)},
    Skeleton h n → h < fuel → ∃ l stack', findLeafToAddLoop k fuel (some n) next stack = .ok (some (.leaf l), stack')
  | 0, _ + 1, .leaf l, _, stack, _, _ => ⟨l, stack, rfl⟩
  | _ + 1, _ + 1, .internal keys _, _, _, hn, hf => by
    obtain ⟨c, hc, hcs⟩ := hn.child (keyIndex_le keys k)
    rw [findLeafToAddLoop_internal hn.1 hc]
    exact hcs.findLeafToAddLoop_ok (by omega)
  | _, 0, _, _, _, _, hf => absurd hf (Nat.not_lt_zero _)
  | 0, _ + 1, .internal _ _, _, _, hn, _ => hn.elim
  | _ + 1, _ + 1, .leaf _, _, _, hn, _ => hn.elim

theorem Skeleton.findLeafToDeleteLoop_ok : ∀ {h fuel : Nat} {n : Node K} {next : Option (Node K)}
    {stack : List (Nat × Direction × Node K)}, Skeleton h n → h < fuel →
      ∃ l stack', findLeafToDeleteLoop k fuel (some n) next stack = .ok (some (.leaf l), stack')
  | 0, _ + 1, .leaf l, _, stack, _, _ => ⟨l, stack, rfl⟩
  | _ + 1, _ + 1, .internal keys _, _, _, hn, hf => by
    obtain ⟨c, hc, hcs⟩ := hn.child (keyIndex_le keys k)
    rw [findLeafToDeleteLoop_internal hn.1 hc]
    exact hcs.findLeafToDeleteLoop_ok (by omega)
  | _, 0, _, _, _, _, hf => absurd hf (Nat.not_lt_zero _)
  | 0, _ + 1, .internal _ _, _, _, hn, _ => hn.elim
  | _ + 1, _ + 1, .leaf _, _, _, hn, _ => hn.elim

end Descents

/-! ## `insert` -/

section Insert
variable {order addr : Nat} {range : Range K}

theorem insertIntoLeaf_skeleton {l : LeafNode K} (hl : l.startKeys.length = l.endKeys.length) :
    ∃ res, insertIntoLeaf order range addr l = .ok res ∧ ResultSkeleton 0 res := by
  obtain ⟨m, hm⟩ := exists_withRange_median l range
  have hs := withRange_startKeys_length l range
  have he := withRange_endKeys_length l range hl
  refine ⟨_, insertIntoLeaf_eq hl hm, ?_⟩
  split
  · exact skeleton_leaf.2 ⟨rfl, by omega⟩
  · simp only [ResultSkeleton, skeleton_leaf, LeafNode.lowerHalf, LeafNode.upperHalf, List.length_take,
      List.length_drop, true_and]
    omega

theorem internalHalves_skeleton {h : Nat} {keys : List K} {edges : List (Option (Node K))}
    (hk : 3 ≤ keys.length) (he : edges.length = keys.length + 1)
    (hedges : ∀ e ∈ edges, ∃ c, e = some c ∧ Skeleton h c) :
    Skeleton (h + 1) (.internal (keys.take (keys.length / 2)) (edges.take (keys.length / 2 + 1))) ∧
      Skeleton (h + 1) (.internal (keys.drop (keys.length / 2 + 1)) (edges.drop (keys.length / 2 + 1))) := by
  have h₁ : keys.length / 2 ≤ keys.length := Nat.div_le_self _ _
  have h₂ : keys.length / 2 + 1 ≤ edges.length := by omega
  refine ⟨⟨?_, ?_, fun e he => hedges e (List.mem_of_mem_take he)⟩,
    ⟨?_, ?_, fun e he => hedges e (List.mem_of_mem_drop he)⟩⟩
  all_goals simp only [ne_eq, ← List.length_pos, List.length_take_of_le h₁, List.length_take_of_le h₂,
    List.length_drop] <;> omega

theorem insertUp_skeleton {h idx : Nat} {keys : List K} {edges : List (Option (Node K))} {res : InsertResult K}
    (h3 : 3 ≤ order) (hn : Skeleton (h + 1) (.internal keys edges)) (hres : ResultSkeleton h res) :
    ∃ res', insertUp order keys edges idx res = .ok res' ∧ ResultSkeleton (h + 1) res' := by
  obtain ⟨hk, hlen, hedges⟩ := hn
  cases res with
  | fit c => exact ⟨_, rfl, hk, by simpa using hlen, forall_edges_set hedges hres idx⟩
  | split c m r =>
    obtain ⟨hc, hr⟩ := hres
    have hp := keyIndex_le keys m
    set p := keyIndex keys m
    set keys' := keys.take p ++ m :: keys.drop p with hkeys'
    set edges' := (edges.set idx (some c)).take (p + 1) ++ some r :: (edges.set idx (some c)).drop (p + 1)
      with hedges'
    have hk' : keys'.length = keys.length + 1 := by simp [keys']; omega
    have he' : edges'.length = keys'.length + 1 := by simp [edges']; omega
    obtain ⟨m', hm'⟩ : ∃ m', keys'[keys'.length / 2]? = some m' := ⟨_, List.getElem?_eq_getElem (by omega)⟩
    have hmem := forall_edges_insertAt (forall_edges_set hedges hc idx) hr (p + 1)
    rw [insertUp_split_eq hlen, splitIfFull_eq he' hm']
    refine ⟨_, rfl, ?_⟩
    split
    · exact ⟨by simp [keys'], he', hmem⟩
    · exact internalHalves_skeleton (by omega) he' hmem

/-- **Shape of a frame.** A frame that returns on a skeleton hands up skeletons. -/
theorem insertFrom_skeleton (h3 : 3 ≤ order) :
    ∀ {h fuel : Nat} {n : Node K} {next : Option (Node K)} {res : InsertResult K},
      Skeleton h n → insertFrom order range addr fuel n next = .ok res → ResultSkeleton h res
  | _, 0, _, _, _, _, hr => by cases hr
  | 0, _ + 1, .leaf _, _, _, hn, hr => by
    obtain ⟨res, hres, hs⟩ := insertIntoLeaf_skeleton hn
    rw [insertFrom_leaf, hres] at hr
    cases hr
    exact hs
  | _ + 1, _ + 1, .internal keys _, _, _, hn, hr => by
    obtain ⟨c, hc, hcs⟩ := hn.child (keyIndex_le keys range.startKey)
    rw [insertFrom_internal hn.1 hc] at hr
    obtain ⟨resC, hrc, hup⟩ := bind_eq_ok.1 hr
    obtain ⟨res, hres, hs⟩ := insertUp_skeleton h3 hn (insertFrom_skeleton h3 hcs hrc)
    rw [hres] at hup
    cases hup
    exact hs
  | 0, _ + 1, .internal _ _, _, _, hn, _ => hn.elim
  | _ + 1, _ + 1, .leaf _, _, _, hn, _ => hn.elim

/-- **Termination of a frame.** On a skeleton, a frame with more passes than the height returns. -/
theorem insertFrom_returns (h3 : 3 ≤ order) :
    ∀ {h fuel : Nat} {n : Node K} {next : Option (Node K)},
      Skeleton h n → h < fuel → ∃ res, insertFrom order range addr fuel n next = .ok res
  | 0, _ + 1, .leaf _, _, hn, _ =>
    let ⟨res, hres, _⟩ := insertIntoLeaf_skeleton hn
    ⟨res, hres⟩
  | _ + 1, fuel + 1, .internal keys _, _, hn, hf => by
    obtain ⟨c, hc, hcs⟩ := hn.child (keyIndex_le keys range.startKey)
    obtain ⟨resC, hrc⟩ : ∃ res, insertFrom order range addr fuel c (some c) = .ok res :=
      insertFrom_returns h3 hcs (by omega)
    obtain ⟨res, hres, -⟩ := insertUp_skeleton h3 hn (insertFrom_skeleton h3 hcs hrc)
    exact ⟨res, by rw [insertFrom_internal hn.1 hc, hrc]; exact hres⟩
  | _, 0, _, _, _, hf => absurd hf (Nat.not_lt_zero _)
  | 0, _ + 1, .internal _ _, _, hn, _ => hn.elim
  | _ + 1, _ + 1, .leaf _, _, hn, _ => hn.elim

theorem InsertResult.toRoot_skeleton {h : Nat} {res : InsertResult K} (hs : ResultSkeleton h res) :
    Skeleton (res.rootHeight h) res.toRoot := by
  cases res with
  | fit n => exact hs
  | split l m r =>
    refine ⟨List.cons_ne_nil _ _, rfl, fun e he => ?_⟩
    simp only [List.mem_cons, List.mem_singleton, List.not_mem_nil, or_false] at he
    rcases he with rfl | rfl
    · exact ⟨l, rfl, hs.1⟩
    · exact ⟨r, rfl, hs.2⟩

end Insert

/-! ## `delete` -/

section Delete
variable {h : Nat}

theorem LeafNode.RemovesAt.aligned {l l' : LeafNode K} {i : Nat} {s e : K} (h : l.RemovesAt l' i s e)
    (hl : l.startKeys.length = l.endKeys.length) : l'.startKeys.length = l'.endKeys.length := by
  obtain ⟨hs, hst⟩ := vecRemove_eq_ok.1 h.1
  obtain ⟨-, hen⟩ := vecRemove_eq_ok.1 h.2.1
  have hi := (List.getElem?_eq_some_iff.1 hs).1
  rw [hst, hen]
  simp only [List.length_append, List.length_take, List.length_drop]
  omega

theorem LeafNode.insertRange_aligned {l l' : LeafNode K} {range : Range K}
    (hl : l.startKeys.length = l.endKeys.length) (h : l.insertRange range = .ok l') :
    l'.startKeys.length = l'.endKeys.length := by
  rw [l.insertRange_eq range hl] at h
  cases h
  rw [withRange_startKeys_length, withRange_endKeys_length _ _ hl, hl]

/-- **An edit at a path** keeps the skeleton when the rewrite keeps the node at the path a skeleton
at its height. -/
theorem Skeleton.modify {f : Node K → Except Fault (Node K)} :
    ∀ {path : List Nat} {h : Nat} {n n' : Node K},
      (∀ s s', n.subtree path = some s → Skeleton (h - path.length) s → f s = .ok s' →
        Skeleton (h - path.length) s') →
      Skeleton h n → n.modify f path = .ok n' → Skeleton h n'
  | [], _, n, _, hf, hn, hm => hf n _ (Node.subtree_nil n) hn (by rwa [Node.modify_nil] at hm)
  | i :: path, _ + 1, .internal keys edges, _, hf, hn, hm => by
    rcases Node.modify_cons hm with ⟨c, c', hc, hc', rfl⟩ | ⟨-, rfl⟩
    · have hcs' := (hn.of_mem (List.mem_iff_getElem?.2 ⟨i, hc⟩)).modify (fun s s' hs => by
        simpa [Node.subtree_internal_cons hc] using hf s s' (by rwa [Node.subtree_internal_cons hc])) hc'
      exact ⟨hn.1, by simpa using hn.2.1, forall_edges_set hn.2.2 hcs' i⟩
    · exact hn
  | _ :: _, 0, .leaf _, _, _, hn, hm => by
    cases hm
    exact hn
  | _ :: _, 0, .internal _ _, _, _, hn, _ => hn.elim
  | _ :: _, _ + 1, .leaf _, _, _, hn, _ => hn.elim

theorem Skeleton.setsKeys {s s' : Node K} (hs : Skeleton h s) (h' : s.SetsKeys s') : Skeleton h s' := by
  obtain ⟨keys, keys', edges, rfl, rfl, hlen⟩ := h'
  cases h with
  | zero => exact hs.elim
  | succ h => exact ⟨List.ne_nil_of_length_pos (hlen ▸ List.length_pos.2 hs.1), hlen ▸ hs.2.1, hs.2.2⟩

theorem Skeleton.replaceLeaf {path : List Nat} {n n' : Node K} {l l' : LeafNode K} (hn : Skeleton h n)
    (hs : n.subtree path = some (.leaf l)) (hl' : l'.startKeys.length = l'.endKeys.length)
    (hm : n.modify (fun _ => pure (.leaf l')) path = .ok n') : Skeleton h n' :=
  hn.modify (fun s s' hs' hsk hf => by
    rw [hs, Option.some_inj] at hs'
    subst hs'
    cases hf
    exact skeleton_leaf.2 ⟨(skeleton_leaf.1 hsk).1, hl'⟩) hm

theorem Skeleton.modifyLeaf {g : LeafNode K → Except Fault (LeafNode K)} {path : List Nat} {n n' : Node K}
    (hg : ∀ l l', l.startKeys.length = l.endKeys.length → g l = .ok l' → l'.startKeys.length = l'.endKeys.length)
    (hn : Skeleton h n) (hm : n.modifyLeaf g path = .ok n') : Skeleton h n' := by
  refine hn.modify (fun s s' _ hsk hf => ?_) hm
  obtain ⟨l, hl, hf'⟩ := bind_eq_ok.1 hf
  rw [Node.asLeafNode_eq_ok] at hl
  subst hl
  obtain ⟨l', hl', hf''⟩ := bind_eq_ok.1 hf'
  cases hf''
  obtain ⟨hd, hal⟩ := skeleton_leaf.1 hsk
  exact skeleton_leaf.2 ⟨hd, hg l l' hal hl'⟩

theorem RepairStep.skeleton {n n' : Node K} (hn : Skeleton h n) : RepairStep n n' → Skeleton h n'
  | .setKeys hf hm => hn.modify (fun _ _ _ hs hs' => hs.setsKeys (hf _ _ hs')) hm
  | .moveSpan _ ⟨_, hsteal⟩ hsib _ h₂ h₃ =>
    (hn.replaceLeaf hsib (hsteal.aligned (hn.leaf_aligned hsib)) h₂).modifyLeaf
      (fun _ _ hl h => LeafNode.insertRange_aligned hl h) h₃

theorem Repairs.skeleton {n n' : Node K} (hrep : Repairs n n') (hn : Skeleton h n) : Skeleton h n' := by
  induction hrep with
  | refl => exact hn
  | tail _ hs ih => exact RepairStep.skeleton ih hs

/-- **`delete` keeps the skeleton**, at the same height, whatever the tree and the key. -/
theorem BTree.delete_skeleton {fuel : Nat} {t t' : BTree K} {key : K} {root : Node K} (hroot : t.root = some root)
    (hs : Skeleton h root) (hdel : t.delete fuel key = .ok t') :
    ∃ root', t'.root = some root' ∧ t'.order = t.order ∧ Skeleton h root' := by
  rcases BTree.delete_eq_ok hdel with ⟨rfl, -⟩ | ⟨root₀, path, l, leaf, root₁, root', hroot₀, rfl, hleaf, hr, h₁, hrep⟩
  · exact ⟨root, hroot, rfl, hs⟩
  rw [hroot, Option.some_inj] at hroot₀
  subst hroot₀
  obtain ⟨_, _, hrm⟩ := LeafNode.removeKey_removesAt hr
  exact ⟨root', rfl, rfl, hrep.skeleton (hs.replaceLeaf hleaf (hrm.aligned (hs.leaf_aligned hleaf)) h₁)⟩

end Delete

/-! ## Runs of calls -/

section Runs
variable {order : Nat}

/-- **One call keeps a skeleton**: `insert` may add a level, `delete` keeps the height. -/
theorem BTree.call_skeleton {fuel h : Nat} {t t' : BTree K} {c : Call K} {root : Node K} (h3 : 3 ≤ t.order)
    (hroot : t.root = some root) (hs : Skeleton h root) (hc : t.call fuel c = .ok t') :
    ∃ root' h', t'.root = some root' ∧ t'.order = t.order ∧ Skeleton h' root' ∧ h' ≤ h + 1 := by
  cases c with
  | insert range =>
    obtain ⟨res, hres, rfl⟩ := (BTree.insert_eq_ok hroot).1 hc
    exact ⟨_, _, rfl, rfl, InsertResult.toRoot_skeleton (insertFrom_skeleton h3 hs hres),
      by cases res <;> simp [InsertResult.rootHeight]⟩
  | delete key =>
    obtain ⟨root', hroot', hord, hs'⟩ := BTree.delete_skeleton hroot hs hc
    exact ⟨root', h, hroot', hord, hs', Nat.le_succ h⟩

/-- Along a run of calls, whatever the keys, the root is a skeleton no higher than the number of
calls. -/
theorem TreeRun.skeleton (h3 : 3 ≤ order) {cs : List (Call K)} {t : BTree K} (hrun : TreeRun order cs t) :
    ∃ root h, t.root = some root ∧ t.order = order ∧ Skeleton h root ∧ h ≤ cs.length := by
  induction hrun with
  | new => exact ⟨_, 0, rfl, rfl, rfl, le_rfl⟩
  | call _ _ hc ih =>
    obtain ⟨root, h, hroot, hord, hs, hh⟩ := ih
    obtain ⟨root', h', hroot', hord', hs', hh'⟩ := BTree.call_skeleton (hord ▸ h3) hroot hs hc
    exact ⟨root', h', hroot', hord'.trans hord, hs', by simp; omega⟩

/-- **What every run keeps.** From order 3 on, on every tree a run of `insert` and `delete` calls
builds from `BTree::new(order)`, whatever the keys, the passes given and the order of the calls:
every internal node has a separator and one more edge than separators, all set; every leaf holds
as many end keys as start keys; and all leaves are at one depth, at most the number of calls. -/
theorem tree_run_skeleton (order : Nat) (h3 : 3 ≤ order) (cs : List (Call K)) (t : BTree K)
    (hrun : TreeRun order cs t) :
    ∃ root h, t.root = some root ∧ InternalEdges root ∧ (∀ l ∈ root.leaves, l.startKeys.length = l.endKeys.length) ∧
      (∀ d ∈ root.leafDepths, d = h) ∧ h ≤ cs.length := by
  obtain ⟨root, h, hroot, -, hs, hh⟩ := hrun.skeleton h3
  exact ⟨root, h, hroot, hs.internalEdges, hs.leaves, hs.leafDepths, hh⟩

/-- A run on a fixed input: three spans go in at order 3, then `delete 5` empties the first leaf,
which borrows the first span of its right sibling. -/
def borrowCalls : List (Call Nat) := [.insert ⟨5, 6⟩, .insert ⟨10, 11⟩, .insert ⟨20, 21⟩, .delete 5]

/-- The tree `borrowCalls` builds: the leaves `[10]` and `[20]` under the separator 20. -/
def borrowTree : BTree Nat :=
  ⟨some (.internal [20] [some (.leaf ⟨0, [10], [11], none, some 1⟩), some (.leaf ⟨1, [20], [21], some 0, none⟩)]), 3⟩

theorem treeRun_borrow : TreeRun 3 borrowCalls borrowTree :=
  TreeRun.new.callAll 2 rfl

theorem tree_run_skeleton_after_borrow :
    3 ≤ 3 ∧ TreeRun 3 borrowCalls borrowTree ∧
      ∃ root h, borrowTree.root = some root ∧ InternalEdges root ∧
        (∀ l ∈ root.leaves, l.startKeys.length = l.endKeys.length) ∧ (∀ d ∈ root.leafDepths, d = h) ∧
        h ≤ borrowCalls.length :=
  ⟨le_rfl, treeRun_borrow, tree_run_skeleton 3 le_rfl _ _ treeRun_borrow⟩

/-- **`insert` returns after any run.** From order 3 on, after every run of `insert` and `delete`
calls from `BTree::new(order)`, whatever the keys and the passes given, an `insert` of any span
returns, given one pass more than there were calls. -/
theorem tree_run_insert_returns (order : Nat) (h3 : 3 ≤ order) (cs : List (Call K)) (t : BTree K)
    (hrun : TreeRun order cs t) (range : Range K) : ∃ t', t.insert (cs.length + 1) range = .ok t' := by
  obtain ⟨root, h, hroot, hord, hs, hh⟩ := hrun.skeleton h3
  obtain ⟨res, hres⟩ : ∃ res, insertFrom order range root.freshAddr (cs.length + 1) root none = .ok res :=
    insertFrom_returns h3 hs (by omega)
  exact ⟨_, (BTree.insert_eq_ok hroot).2 ⟨res, by rw [hord]; exact hres, rfl⟩⟩

theorem tree_run_insert_returns_after_borrow :
    3 ≤ 3 ∧ TreeRun 3 borrowCalls borrowTree ∧ ∃ t', borrowTree.insert (borrowCalls.length + 1) ⟨30, 31⟩ = .ok t' :=
  ⟨le_rfl, treeRun_borrow, tree_run_insert_returns 3 le_rfl _ _ treeRun_borrow ⟨30, 31⟩⟩

/-- **Both descents reach a leaf after any run.** From order 3 on, after every run of `insert` and
`delete` calls from `BTree::new(order)`, whatever the keys and the passes given,
`find_leaf_to_add` and `find_leaf_to_delete` reach a leaf for every key, given one pass more than
there were calls: whatever fault a later call meets, it is not in the descent. -/
theorem tree_run_descents (order : Nat) (h3 : 3 ≤ order) (cs : List (Call K)) (t : BTree K)
    (hrun : TreeRun order cs t) (k : K) :
    (∃ l stack, t.findLeafToAdd (cs.length + 1) k = .ok (some (.leaf l), stack)) ∧
      ∃ l stack, t.findLeafToDelete (cs.length + 1) k = .ok (some (.leaf l), stack) := by
  obtain ⟨root, h, hroot, -, hs, hh⟩ := hrun.skeleton h3
  rw [BTree.findLeafToAdd, BTree.findLeafToDelete, hroot]
  exact ⟨hs.findLeafToAddLoop_ok (by omega), hs.findLeafToDeleteLoop_ok (by omega)⟩

theorem tree_run_descents_after_borrow :
    3 ≤ 3 ∧ TreeRun 3 borrowCalls borrowTree ∧
      (∃ l stack, borrowTree.findLeafToAdd (borrowCalls.length + 1) 15 = .ok (some (.leaf l), stack)) ∧
      ∃ l stack, borrowTree.findLeafToDelete (borrowCalls.length + 1) 15 = .ok (some (.leaf l), stack) :=
  ⟨le_rfl, treeRun_borrow, tree_run_descents 3 le_rfl _ _ treeRun_borrow 15⟩

end Runs

end LittleKeyValueDb.LatchManager
