import LittleKeyValueDb.LatchManager.Capacity
import LittleKeyValueDb.LatchManager.Links

/-! # Each leaf keeps its start keys in order

`insert_range` puts a span's start key after every start key not greater than it (`keyIndex`), so a
leaf whose start keys are in non-decreasing order keeps them so. Every other edit of a leaf keeps a
sublist of its start keys: `remove_key`, `steal_smallest_key` and `steal_biggest_key` take one out,
`split_node` cuts the list in two. The leaf that borrows takes its new span through `insert_range`
as well.

So, unlike the separators, which `delete` leaves stale, the order inside each leaf survives every run
of `insert` and `delete` calls, whatever the keys, repeated ones included (`tree_run_leaves_sorted`).
-/

namespace LittleKeyValueDb.LatchManager
set_option autoImplicit false
set_option linter.unusedSectionVars false

variable {K : Type} [LinearOrder K]

/-- The start keys of a leaf are in non-decreasing order. -/
def LeafNode.StartKeysSorted (l : LeafNode K) : Prop := l.startKeys.Pairwise (· ≤ ·)

/-- Every leaf of the subtree has its start keys in non-decreasing order. -/
def LeavesSorted (n : Node K) : Prop := ∀ l ∈ n.leaves, l.StartKeysSorted

@[simp] theorem leavesSorted_leaf {l : LeafNode K} : LeavesSorted (.leaf l) ↔ l.StartKeysSorted := by
  simp [LeavesSorted, Node.leaves]

/-! ## The leaf edits -/

section Leaf
variable {l l' : LeafNode K}

/-- `insert_range`'s position, after every key not greater than the new one, keeps the order. -/
theorem pairwise_le_insertAt_keyIndex {xs : List K} (hs : xs.Pairwise (· ≤ ·)) (k : K) :
    (xs.take (keyIndex xs k) ++ k :: xs.drop (keyIndex xs k)).Pairwise (· ≤ ·) := by
  induction xs with
  | nil => simp [keyIndex_nil]
  | cons s ss ih =>
    obtain ⟨hs₁, hs₂⟩ := List.pairwise_cons.1 hs
    rw [keyIndex_cons]
    by_cases hks : k < s
    · simp only [hks, if_true, List.take_zero, List.drop_zero, List.nil_append]
      refine List.pairwise_cons.2 ⟨fun t ht => ?_, hs⟩
      rcases List.mem_cons.1 ht with rfl | ht
      · exact hks.le
      · exact hks.le.trans (hs₁ t ht)
    · simp only [hks, if_false, List.take_succ_cons, List.drop_succ_cons, List.cons_append]
      refine List.pairwise_cons.2 ⟨fun t ht => ?_, ih hs₂⟩
      rcases mem_of_mem_insertAt ht with ht | rfl
      · exact hs₁ t ht
      · exact not_lt.1 hks

theorem LeafNode.withRange_sorted (hl : l.StartKeysSorted) (range : Range K) : (l.withRange range).StartKeysSorted :=
  pairwise_le_insertAt_keyIndex hl range.startKey

theorem LeafNode.insertRange_sorted {range : Range K} (h : l.insertRange range = .ok l') (hl : l.StartKeysSorted) :
    l'.StartKeysSorted := by
  simp only [LeafNode.insertRange, bind_eq_ok, vecInsert_eq_ok, except_pure_eq_ok] at h
  obtain ⟨_, ⟨-, rfl⟩, _, -, rfl⟩ := h
  exact pairwise_le_insertAt_keyIndex hl range.startKey

theorem LeafNode.RemovesAt.sorted {i : Nat} {s e : K} (h : l.RemovesAt l' i s e) (hl : l.StartKeysSorted) :
    l'.StartKeysSorted := by
  obtain ⟨-, hst⟩ := vecRemove_eq_ok.1 h.1
  rw [LeafNode.StartKeysSorted, hst, ← List.eraseIdx_eq_take_drop_succ]
  exact hl.sublist (List.eraseIdx_sublist _ _)

end Leaf

theorem LeavesSorted.child {keys : List K} {edges : List (Option (Node K))} {c : Node K}
    (hn : LeavesSorted (.internal keys edges)) (hc : some c ∈ edges) : LeavesSorted c :=
  fun l hl => hn l (Node.mem_edgeLeaves.2 ⟨c, hc, hl⟩)

theorem edgeLeaves_sorted {edges edges' : List (Option (Node K))}
    (he : ∀ l ∈ Node.edgeLeaves edges, l.StartKeysSorted)
    (h : ∀ d, some d ∈ edges' → some d ∈ edges ∨ LeavesSorted d) : ∀ l ∈ Node.edgeLeaves edges', l.StartKeysSorted := by
  intro l hl
  obtain ⟨d, hd, hl⟩ := Node.mem_edgeLeaves.1 hl
  rcases h d hd with hd | hd
  · exact he l (Node.mem_edgeLeaves.2 ⟨d, hd, hl⟩)
  · exact hd l hl

theorem edgeLeaves_set_sorted {edges : List (Option (Node K))} {c : Node K} (i : Nat)
    (he : ∀ l ∈ Node.edgeLeaves edges, l.StartKeysSorted) (hc : LeavesSorted c) :
    ∀ l ∈ Node.edgeLeaves (edges.set i (some c)), l.StartKeysSorted :=
  edgeLeaves_sorted he fun d hd => by
    rcases List.mem_or_eq_of_mem_set hd with hd | hd
    · exact .inl hd
    · cases hd
      exact .inr hc

/-! ## `insert` -/

section Insert
variable {order addr : Nat} {range : Range K}

theorem insertIntoLeaf_sorted {l : LeafNode K} {res : InsertResult K} (hl : l.startKeys.length = l.endKeys.length)
    (hs : l.StartKeysSorted) (h : insertIntoLeaf order range addr l = .ok res) : ∀ l' ∈ res.leaves, l'.StartKeysSorted := by
  obtain ⟨m, hm⟩ := exists_withRange_median l range
  have hw := LeafNode.withRange_sorted hs range
  rw [insertIntoLeaf_eq hl hm] at h
  cases h
  split
  · simpa [InsertResult.leaves, Node.leaves] using hw
  · simp only [InsertResult.leaves, Node.leaves, List.singleton_append, List.forall_mem_cons]
    exact ⟨hw.sublist (List.take_sublist _ _), hw.sublist (List.drop_sublist _ _), nofun⟩

theorem insertUp_sorted {idx : Nat} {keys : List K} {edges : List (Option (Node K))} {res res' : InsertResult K}
    (hlen : edges.length = keys.length + 1) (he : ∀ l ∈ Node.edgeLeaves edges, l.StartKeysSorted)
    (hres : ∀ l ∈ res.leaves, l.StartKeysSorted) (hup : insertUp order keys edges idx res = .ok res') :
    ∀ l ∈ res'.leaves, l.StartKeysSorted := by
  cases res with
  | fit c =>
    cases hup
    exact edgeLeaves_set_sorted idx he hres
  | split c m r =>
    have hhalves : LeavesSorted c ∧ LeavesSorted r := by
      simpa [InsertResult.leaves, LeavesSorted, or_imp, forall_and] using hres
    rw [insertUp_split_eq hlen] at hup
    rw [splitIfFull_leaves hup]
    refine edgeLeaves_sorted (edgeLeaves_set_sorted idx he hhalves.1) fun d hd => ?_
    rcases mem_of_mem_insertAt hd with hd | hd
    · exact .inl hd
    · cases hd
      exact .inr hhalves.2

/-- **A frame hands up sorted leaves**, on a skeleton with sorted leaves. -/
theorem insertFrom_sorted :
    ∀ {h fuel : Nat} {n : Node K} {next : Option (Node K)} {res : InsertResult K},
      Skeleton h n → LeavesSorted n → insertFrom order range addr fuel n next = .ok res →
      ∀ l ∈ res.leaves, l.StartKeysSorted
  | _, 0, _, _, _, _, _, hr => by cases hr
  | 0, _ + 1, .leaf l, _, _, hn, hs, hr =>
    insertIntoLeaf_sorted (skeleton_leaf.1 hn).2 (leavesSorted_leaf.1 hs) hr
  | _ + 1, _ + 1, .internal keys _, _, _, hn, hs, hr => by
    obtain ⟨c, hc, hcs⟩ := hn.child (keyIndex_le keys range.startKey)
    rw [insertFrom_internal hn.1 hc] at hr
    obtain ⟨resC, hrc, hup⟩ := bind_eq_ok.1 hr
    exact insertUp_sorted hn.2.1 hs (insertFrom_sorted hcs (hs.child (List.mem_iff_getElem?.2 ⟨_, hc⟩)) hrc) hup
  | 0, _ + 1, .internal _ _, _, _, hn, _, _ => hn.elim
  | _ + 1, _ + 1, .leaf _, _, _, hn, _, _ => hn.elim

end Insert

/-! ## `delete` -/

section Delete
variable {n n' : Node K}

theorem Node.modify_leavesSorted {f : Node K → Except Fault (Node K)} {p : List Nat}
    (hf : ∀ s s', n.subtree p = some s → f s = .ok s' → LeavesSorted s → LeavesSorted s')
    (hn : LeavesSorted n) (hm : n.modify f p = .ok n') : LeavesSorted n' :=
  Node.modify_keeps (P := LeavesSorted) (fun hc hn => hn.child (List.mem_iff_getElem?.2 ⟨_, hc⟩))
    (fun _ hn hc' => edgeLeaves_set_sorted _ hn hc') hf hn hm

theorem Node.replaceLeaf_leavesSorted {path : List Nat} {l l' : LeafNode K} (hs : n.subtree path = some (.leaf l))
    (hl : l.StartKeysSorted → l'.StartKeysSorted) (hn : LeavesSorted n)
    (hm : n.modify (fun _ => pure (.leaf l')) path = .ok n') : LeavesSorted n' :=
  Node.modify_leavesSorted (fun s _ hs' hf h => by
    rw [hs, Option.some_inj] at hs'
    subst hs'
    cases hf
    exact leavesSorted_leaf.2 (hl (leavesSorted_leaf.1 h))) hn hm

theorem Node.modifyLeaf_leavesSorted {g : LeafNode K → Except Fault (LeafNode K)} {path : List Nat}
    (hg : ∀ l l', g l = .ok l' → l.StartKeysSorted → l'.StartKeysSorted) (hn : LeavesSorted n)
    (hm : n.modifyLeaf g path = .ok n') : LeavesSorted n' := by
  refine Node.modify_leavesSorted (fun s s' _ hf hs => ?_) hn hm
  obtain ⟨l, hl, hf'⟩ := bind_eq_ok.1 hf
  rw [Node.asLeafNode_eq_ok] at hl
  subst hl
  obtain ⟨l', hl', hf''⟩ := bind_eq_ok.1 hf'
  cases hf''
  exact leavesSorted_leaf.2 (hg l l' hl' (leavesSorted_leaf.1 hs))

theorem Node.SetsKeys.leaves (h : n.SetsKeys n') : n'.leaves = n.leaves := by
  obtain ⟨_, _, _, rfl, rfl, -⟩ := h
  rfl

/-- **Step lemma.** Each repair keeps the leaves sorted: a separator edit leaves them, and a moved
span leaves the lender with a sublist and goes into the borrower through `insert_range`. -/
theorem RepairStep.leavesSorted (hn : LeavesSorted n) : RepairStep n n' → LeavesSorted n'
  | .setKeys hf hm => Node.modify_leavesSorted (fun s s' _ hs h => by rwa [LeavesSorted, (hf s s' hs).leaves]) hn hm
  | .moveSpan _ ⟨_, hsteal⟩ hsib _ h₂ h₃ =>
    Node.modifyLeaf_leavesSorted (fun _ _ => LeafNode.insertRange_sorted)
      (Node.replaceLeaf_leavesSorted hsib hsteal.sorted hn h₂) h₃

theorem Repairs.leavesSorted (hrep : Repairs n n') (hn : LeavesSorted n) : LeavesSorted n' := by
  induction hrep with
  | refl => exact hn
  | tail _ hs ih => exact hs.leavesSorted ih

theorem BTree.delete_leavesSorted {fuel : Nat} {t t' : BTree K} {key : K} {root : Node K}
    (hroot : t.root = some root) (hn : LeavesSorted root) (h : t.delete fuel key = .ok t') :
    ∃ root', t'.root = some root' ∧ LeavesSorted root' := by
  rcases BTree.delete_eq_ok h with ⟨rfl, -⟩ | ⟨root₀, path, l, leaf, root₁, root', hroot₀, rfl, hleaf, hr, h₁, hrep⟩
  · exact ⟨root, hroot, hn⟩
  rw [hroot, Option.some_inj] at hroot₀
  subst hroot₀
  obtain ⟨_, _, hrm⟩ := LeafNode.removeKey_removesAt hr
  exact ⟨root', rfl, hrep.leavesSorted (Node.replaceLeaf_leavesSorted hleaf hrm.sorted hn h₁)⟩

end Delete

theorem BTree.call_leavesSorted {fuel h : Nat} {t t' : BTree K} {c : Call K} {root : Node K}
    (hroot : t.root = some root) (hs : Skeleton h root) (hn : LeavesSorted root) (hc : t.call fuel c = .ok t') :
    ∃ root', t'.root = some root' ∧ LeavesSorted root' := by
  cases c with
  | insert range =>
    obtain ⟨res, hres, rfl⟩ := (BTree.insert_eq_ok hroot).1 hc
    refine ⟨_, rfl, ?_⟩
    rw [LeavesSorted, InsertResult.toRoot_leaves]
    exact insertFrom_sorted hs hn hres
  | delete key => exact BTree.delete_leavesSorted hroot hn hc

/-- **Each leaf stays sorted over every run.** From order 3 on, on every tree a run of `insert` and
`delete` calls builds from `BTree::new(order)`, whatever the keys (repeated ones included), the
passes given and the order of the calls, the start keys of every leaf are in non-decreasing order. -/
theorem tree_run_leaves_sorted (order : Nat) (h3 : 3 ≤ order) (cs : List (Call K)) (t : BTree K)
    (hrun : TreeRun order cs t) : ∃ root, t.root = some root ∧ ∀ l ∈ root.leaves, l.startKeys.Pairwise (· ≤ ·) :=
  hrun.keeps h3 (leavesSorted_leaf.2 List.Pairwise.nil) fun _ hroot hs hn hc => BTree.call_leavesSorted hroot hs hn hc

theorem tree_run_leaves_sorted_after_borrow :
    3 ≤ 3 ∧ TreeRun 3 borrowCalls borrowTree ∧
      ∃ root, borrowTree.root = some root ∧ ∀ l ∈ root.leaves, l.startKeys.Pairwise (· ≤ ·) :=
  ⟨le_rfl, treeRun_borrow, tree_run_leaves_sorted 3 le_rfl _ _ treeRun_borrow⟩

end LittleKeyValueDb.LatchManager
