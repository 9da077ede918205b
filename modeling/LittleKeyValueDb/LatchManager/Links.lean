import LittleKeyValueDb.LatchManager.Insert

/-! # The right links of the leaves

`split_node` puts the leaf it allocates between the leaf it splits and that leaf's right neighbour:
the leaf's `right_ptr` goes to the new leaf, and the new leaf takes the leaf's old `right_ptr`. So
along a run of `insert` the right links lead from each leaf to the next one, left to right, the last
leaf's being `None`, and no two leaves share an address (`insert_run_right_links`). The left links
do not follow: the old neighbour's `left_ptr` still names the leaf that split.

* `RightLinkedTo leaves e`: the right links of `leaves` lead from each to the next, and the last
  one's is `e`. It splits at any point of the list (`rightLinkedTo_append`).
* A frame of `insert` trades one leaf `l` below it for one or two leaves, the first at `l`'s
  address, linked to each other and on to where `l` linked (`LeavesStep`, `insertFrom_leaves`).
  The new leaf sits right after the one it split off because, in an ordered tree, `insert_node`
  puts the split's right half at the next edge.
* The new leaf's address, `freshAddr`, is above every address of the tree, so addresses stay
  distinct.
-/

namespace LittleKeyValueDb.LatchManager
set_option autoImplicit false
set_option linter.unusedSectionVars false

variable {K : Type} [LinearOrder K]

/-! ## Right links -/

/-- Where the right link of a leaf followed by `rest` leads, when the last leaf links to `e`. -/
def nextAddr (rest : List (LeafNode K)) (e : Option Nat) : Option Nat :=
  match rest with
  | [] => e
  | m :: _ => some m.addr

/-- The right links of `leaves` lead from each to the next, left to right, and the last one's is
`e`. -/
def RightLinkedTo : List (LeafNode K) → Option Nat → Prop
  | [], _ => True
  | l :: rest, e => l.rightPtr = nextAddr rest e ∧ RightLinkedTo rest e

instance RightLinkedTo.instDecidable : ∀ (leaves : List (LeafNode K)) (e : Option Nat),
    Decidable (RightLinkedTo leaves e)
  | [], _ => isTrue trivial
  | l :: rest, e =>
    have := RightLinkedTo.instDecidable rest e
    inferInstanceAs (Decidable (l.rightPtr = nextAddr rest e ∧ RightLinkedTo rest e))

section Links
variable {xs ys : List (LeafNode K)} {l : LeafNode K} {e : Option Nat}

@[simp] theorem rightLinkedTo_nil : RightLinkedTo ([] : List (LeafNode K)) e := trivial

@[simp] theorem rightLinkedTo_cons : RightLinkedTo (l :: xs) e ↔ l.rightPtr = nextAddr xs e ∧ RightLinkedTo xs e :=
  Iff.rfl

theorem nextAddr_append : nextAddr (xs ++ ys) e = nextAddr xs (nextAddr ys e) := by
  cases xs <;> rfl

theorem rightLinkedTo_append : RightLinkedTo (xs ++ ys) e ↔ RightLinkedTo xs (nextAddr ys e) ∧ RightLinkedTo ys e := by
  induction xs with
  | nil => simp
  | cons x xs ih => simp [ih, nextAddr_append, and_assoc]

theorem rightLinkedTo_none_iff :
    RightLinkedTo xs none ↔ ∀ i l, xs[i]? = some l → l.rightPtr = xs[i + 1]?.map LeafNode.addr := by
  induction xs with
  | nil => simp
  | cons x xs ih =>
    have hnext : nextAddr xs none = xs[0]?.map LeafNode.addr := by cases xs <;> simp [nextAddr]
    rw [rightLinkedTo_cons, hnext, ih]
    constructor
    · rintro ⟨hx, hxs⟩ (_ | i) l hi
      · simp only [List.getElem?_cons_zero, Option.some.injEq] at hi
        subst hi
        simpa using hx
      · simpa using hxs i l (by simpa using hi)
    · intro h
      exact ⟨by simpa using h 0 x (by simp), fun i l hi => by simpa using h (i + 1) l (by simpa using hi)⟩

end Links

/-! ## What a frame does to the leaves -/

/-- The leaves a frame of `insert` hands up, left to right. -/
def InsertResult.leaves : InsertResult K → List (LeafNode K)
  | .fit n => n.leaves
  | .split l _ r => l.leaves ++ r.leaves

/-- One leaf `l` gives way to `X`: one leaf at `l`'s address, or that leaf and a new one at `addr`,
linked to each other and on to where `l` linked. -/
def LeavesStep (addr : Nat) (before after : List (LeafNode K)) : Prop :=
  ∃ A B l X, before = A ++ l :: B ∧ after = A ++ X ++ B ∧
    (X.map LeafNode.addr = [l.addr] ∨ X.map LeafNode.addr = [l.addr, addr]) ∧ RightLinkedTo X l.rightPtr

section Step
variable {addr : Nat} {before after : List (LeafNode K)}

theorem LeavesStep.frame (h : LeavesStep addr before after) (P S : List (LeafNode K)) :
    LeavesStep addr (P ++ before ++ S) (P ++ after ++ S) := by
  obtain ⟨A, B, l, X, rfl, rfl, haddr, hX⟩ := h
  exact ⟨P ++ A, B ++ S, l, X, by simp, by simp, haddr, hX⟩

/-- **Step lemma.** A frame keeps the right links. -/
theorem LeavesStep.rightLinkedTo {e : Option Nat} (h : LeavesStep addr before after) (hb : RightLinkedTo before e) :
    RightLinkedTo after e := by
  obtain ⟨A, B, l, X, rfl, rfl, haddr, hX⟩ := h
  have hhead : nextAddr (X ++ B) e = some l.addr := by
    rcases X with _ | ⟨x, X⟩
    · rcases haddr with h | h <;> cases h
    · rcases haddr with h | h <;> simp_all [nextAddr]
  rw [rightLinkedTo_append, rightLinkedTo_cons] at hb
  rw [List.append_assoc, rightLinkedTo_append, hhead, rightLinkedTo_append, ← hb.2.1]
  exact ⟨hb.1, hX, hb.2.2⟩

/-- **Step lemma.** A frame keeps the addresses distinct, the new one being fresh. -/
theorem LeavesStep.nodup (h : LeavesStep addr before after) (hb : (before.map LeafNode.addr).Nodup)
    (hfresh : addr ∉ before.map LeafNode.addr) : (after.map LeafNode.addr).Nodup := by
  obtain ⟨A, B, l, X, rfl, rfl, haddr | haddr, -⟩ := h
  · simpa [haddr] using hb
  · have hmid : (A.map LeafNode.addr ++ [l.addr] ++ addr :: B.map LeafNode.addr).Perm
        (addr :: (A.map LeafNode.addr ++ [l.addr] ++ B.map LeafNode.addr)) := List.perm_middle
    have hperm : ((A ++ X ++ B).map LeafNode.addr).Perm (addr :: (A ++ l :: B).map LeafNode.addr) := by
      simpa [haddr] using hmid
    exact hperm.nodup_iff.2 (List.nodup_cons.2 ⟨hfresh, hb⟩)

end Step

/-! ## A frame of `insert` -/

section Frame
variable {order : Nat} {range : Range K} {addr : Nat}

theorem Node.edgeLeaves_eq_of_getElem? {edges : List (Option (Node K))} {i : Nat} {c : Node K}
    (h : edges[i]? = some (some c)) :
    Node.edgeLeaves edges = Node.edgeLeaves (edges.take i) ++ c.leaves ++ Node.edgeLeaves (edges.drop (i + 1)) := by
  obtain ⟨hi, hc⟩ := List.getElem?_eq_some_iff.1 h
  conv_lhs => rw [← List.take_append_drop i edges, List.drop_eq_getElem_cons hi, hc]
  simp [Node.edgeLeaves]

theorem splitInternal_edgeLeaves {keys lk rk : List K} {edges le re : List (Option (Node K))} {m : K}
    (h : splitInternal keys edges = .ok ((lk, le), (rk, re), m)) :
    Node.edgeLeaves le ++ Node.edgeLeaves re = Node.edgeLeaves edges := by
  simp only [splitInternal, bind_eq_ok, Prod.exists, vecSplitOff_eq_ok, vecInsert_eq_ok, vecRemove_eq_ok,
    except_pure_eq_ok, Prod.mk.injEq] at h
  obtain ⟨_, _, -, _, _, ⟨-, rfl, rfl⟩, _, ⟨-, rfl⟩, _, _, -, _, _, ⟨-, rfl⟩, ⟨-, rfl⟩, ⟨-, rfl⟩, -⟩ := h
  simp only [List.take_zero, List.drop_zero, List.nil_append, zero_add, List.drop_succ_cons]
  rw [← Node.edgeLeaves_append, List.take_append_drop]

theorem splitIfFull_leaves {keys : List K} {edges : List (Option (Node K))} {res : InsertResult K}
    (h : splitIfFull order keys edges = .ok res) : res.leaves = Node.edgeLeaves edges := by
  unfold splitIfFull at h
  split at h
  · cases h
    rfl
  · obtain ⟨⟨⟨lk, le⟩, ⟨rk, re⟩, m⟩, hs, h⟩ := bind_eq_ok.1 h
    cases h
    exact splitInternal_edgeLeaves hs

theorem insertUp_leaves {idx : Nat} {keys : List K} {edges : List (Option (Node K))} {c : Node K}
    {res res' : InsertResult K} (hlen : edges.length = keys.length + 1) (hc : edges[idx]? = some (some c))
    (hpos : ∀ c' m r, res = .split c' m r → keyIndex keys m = idx)
    (hup : insertUp order keys edges idx res = .ok res') :
    res'.leaves = Node.edgeLeaves (edges.take idx) ++ res.leaves ++ Node.edgeLeaves (edges.drop (idx + 1)) := by
  have hlt : idx < edges.length := (List.getElem?_eq_some_iff.1 hc).1
  cases res with
  | fit c' =>
    cases hup
    simp [InsertResult.leaves, Node.leaves, List.set_eq_take_append_cons_drop, hlt, Node.edgeLeaves]
  | split c' m r =>
    obtain ⟨htake, hdrop⟩ := take_drop_set (some c') hlt
    rw [insertUp_split_eq hlen, hpos _ _ _ rfl, htake, hdrop] at hup
    rw [splitIfFull_leaves hup]
    simp [InsertResult.leaves, Node.edgeLeaves]

theorem insertIntoLeaf_leaves {l : LeafNode K} {res : InsertResult K} (hlen : l.startKeys.length = l.endKeys.length)
    (h : insertIntoLeaf order range addr l = .ok res) : LeavesStep addr [l] res.leaves := by
  obtain ⟨m, hm⟩ := exists_withRange_median l range
  rw [insertIntoLeaf_eq hlen hm] at h
  cases h
  split_ifs
  · exact ⟨[], [], l, [l.withRange range], rfl, rfl, .inl rfl, ⟨rfl, trivial⟩⟩
  · exact ⟨[], [], l, [(l.withRange range).lowerHalf addr, (l.withRange range).upperHalf addr], rfl, rfl,
      .inr rfl, ⟨rfl, rfl, trivial⟩⟩

/-- **Leaves of a frame.** A frame that returns on a shaped, ordered node, for a start key within
the node's bounds and not yet below it, trades one leaf below the node as `LeavesStep` says. -/
theorem insertFrom_leaves (h3 : 3 ≤ order) :
    ∀ {h fuel : Nat} {isRoot : Bool} {lo hi : Option K} {n : Node K} {next : Option (Node K)}
      {res : InsertResult K}, Shaped order isRoot h n → Ordered h lo hi n → InBounds lo hi range.startKey →
      (∀ l ∈ n.leaves, range.startKey ∉ l.startKeys) →
      insertFrom order range addr fuel n next = .ok res → LeavesStep addr n.leaves res.leaves
  | _, 0, _, _, _, _, _, _, _, _, _, _, hr => by simp [insertFrom] at hr
  | 0, _ + 1, _, _, _, .leaf _, _, _, hs, _, _, _, hr => insertIntoLeaf_leaves hs.1 hr
  | h + 1, fuel + 1, _, lo, hi, .internal keys edges, _, _, hs, ho, hk, hfresh, hr => by
    obtain ⟨c, hc, hcs⟩ := hs.child (keyIndex_le keys range.startKey)
    rw [insertFrom_internal hs.1 hc] at hr
    obtain ⟨resC, hrc, hup⟩ := bind_eq_ok.1 hr
    obtain ⟨c', hc', hco⟩ := Chain.get ho hc
    cases hc'
    have hfreshC : ∀ l ∈ c.leaves, range.startKey ∉ l.startKeys := fun l hl =>
      hfresh l (Node.mem_edgeLeaves.2 ⟨c, List.mem_iff_getElem?.2 ⟨_, hc⟩, hl⟩)
    -- the child's split key falls between the separators around its edge
    have hpos : ∀ c' m r, resC = .split c' m r → keyIndex keys m = keyIndex keys range.startKey := by
      rintro c' m r rfl
      obtain ⟨hcm, hmr⟩ := insertFrom_ordered h3 hcs hco (inBounds_keyIndex keys hk) hfreshC hrc
      exact keyIndex_eq_of_inBounds (Chain.sorted (fun _ _ _ hc => hc.boundsLt) ho) (keyIndex_le _ _)
        (BoundsLt.inBounds hcm.boundsLt hmr.boundsLt)
    rw [insertUp_leaves hs.2.2.2.1 hc hpos hup]
    show LeavesStep addr (Node.edgeLeaves edges) _
    rw [Node.edgeLeaves_eq_of_getElem? hc]
    exact (insertFrom_leaves h3 hcs hco (inBounds_keyIndex keys hk) hfreshC hrc).frame _ _
  | 0, _ + 1, _, _, _, .internal _ _, _, _, hs, _, _, _, _ => hs.elim
  | _ + 1, _ + 1, _, _, _, .leaf _, _, _, hs, _, _, _, _ => hs.elim

end Frame

/-! ## Runs of `insert` -/

theorem InsertResult.toRoot_leaves (res : InsertResult K) : res.toRoot.leaves = res.leaves := by
  cases res <;> simp [InsertResult.toRoot, InsertResult.leaves, Node.leaves, Node.edgeLeaves]

theorem le_foldr_max {xs : List Nat} {x : Nat} (h : x ∈ xs) : x ≤ xs.foldr max 0 := by
  induction xs with
  | nil => cases h
  | cons y ys ih =>
    rcases List.mem_cons.1 h with rfl | h
    · exact le_max_left _ _
    · exact (ih h).trans (le_max_right _ _)

/-- The address a split allocates is above every address of the tree. -/
theorem Node.addr_lt_freshAddr {n : Node K} {l : LeafNode K} (hl : l ∈ n.leaves) : l.addr < n.freshAddr :=
  Nat.lt_succ_of_le ((le_max_left _ _).trans (le_foldr_max (List.mem_map_of_mem LeafNode.maxAddr hl)))

/-- The leaves have distinct addresses, and their right links lead from each to the next. -/
def LeavesLinked (leaves : List (LeafNode K)) : Prop :=
  (leaves.map LeafNode.addr).Nodup ∧ RightLinkedTo leaves none

section Runs
variable {order : Nat}

theorem InsertRun.leavesLinked (h3 : 3 ≤ order) {rs : List (Range K)} {t : BTree K} (hrun : InsertRun order rs t)
    (hd : (rs.map (·.startKey)).Nodup) : ∃ root, t.root = some root ∧ LeavesLinked root.leaves := by
  induction hrun with
  | new => exact ⟨_, rfl, by simp [LeavesLinked, Node.leaves, nextAddr]⟩
  | @insert rs t t' range fuel hrun hins ih =>
    rw [List.map_append, List.nodup_append] at hd
    obtain ⟨root, hroot, hnodup, hlinks⟩ := ih hd.1
    obtain ⟨root', h, hroot', hord, hs, ho⟩ := hrun.ordered h3 hd.1
    obtain rfl : root' = root := Option.some.inj (hroot'.symm.trans hroot)
    obtain ⟨res, hres, rfl⟩ := (BTree.insert_eq_ok hroot).1 hins
    rw [hord] at hres
    have hstep := insertFrom_leaves h3 hs ho ⟨nofun, nofun⟩
      (hrun.fresh hroot hs (k := range.startKey) fun hk => hd.2.2 hk (by simp)) hres
    refine ⟨_, rfl, ?_, ?_⟩ <;> rw [InsertResult.toRoot_leaves]
    · exact hstep.nodup hnodup fun ha =>
        let ⟨l, hl, hla⟩ := List.mem_map.1 ha
        (Node.addr_lt_freshAddr hl).ne hla
    · exact hstep.rightLinkedTo hlinks

end Runs

/-- **The right links.** From order 3 on, along every run of `insert` calls with distinct start keys
from `BTree::new(order)`, the leaves have distinct addresses, and the `right_ptr` of each leaf is
the address of the next leaf to its right, `None` for the last one. -/
theorem insert_run_right_links (order : Nat) (h3 : 3 ≤ order) (rs : List (Range K))
    (hd : (rs.map (·.startKey)).Nodup) (t : BTree K) (hrun : InsertRun order rs t) :
    ∃ root, t.root = some root ∧ (root.leaves.map LeafNode.addr).Nodup ∧
      ∀ i l, root.leaves[i]? = some l → l.rightPtr = root.leaves[i + 1]?.map LeafNode.addr := by
  obtain ⟨root, hroot, hnodup, hlinks⟩ := hrun.leavesLinked h3 hd
  exact ⟨root, hroot, hnodup, rightLinkedTo_none_iff.1 hlinks⟩

theorem insert_run_right_links_five_spans :
    3 ≤ 3 ∧ (([⟨5, 6⟩, ⟨10, 11⟩, ⟨20, 21⟩, ⟨1, 2⟩, ⟨6, 7⟩] : List (Range Nat)).map (·.startKey)).Nodup ∧
      InsertRun 3 [⟨5, 6⟩, ⟨10, 11⟩, ⟨20, 21⟩, ⟨1, 2⟩, ⟨6, 7⟩] fiveSpansTree ∧
      ∃ root, fiveSpansTree.root = some root ∧ (root.leaves.map LeafNode.addr).Nodup ∧
        ∀ i l, root.leaves[i]? = some l → l.rightPtr = root.leaves[i + 1]?.map LeafNode.addr :=
  ⟨le_rfl, by decide, insertRun_five_spans, insert_run_right_links 3 le_rfl _ (by decide) _ insertRun_five_spans⟩

end LittleKeyValueDb.LatchManager
