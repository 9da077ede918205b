import LittleKeyValueDb.LatchManager.Invariant
import LittleKeyValueDb.LatchManager.Spans

/-! # `insert` keeps the B+-tree invariant

`insertFrom` is one frame of `insert`: a pass of the descent at a node and, once the frame below
returns, a pass of the upward loop there. What each step returns is stated once
(`insertIntoLeaf_eq`, `insertUp_split_eq`, `splitIfFull_eq`, `insertFrom_internal`); each property
of a frame is then one induction on the height of the node:

* whatever the keys, on a `Shaped` node a frame returns once it has more passes than the height
  (`insertFrom_ok`), and what it returns is `Shaped` (`insertFrom_shaped`);
* for a start key within the node's bounds and not yet below it, what it returns is `Ordered`
  (`insertFrom_ordered`).

Over runs of `insert` from `BTree::new`, the frame lemmas give termination for every order from 3
on, the occupancy of the nodes below the root, and for distinct start keys the B+-tree invariant,
whose spans part is `InsertRun.spans`. Orders below 3, and the internal split at even orders, each have a run on a
fixed input that goes wrong.
-/

namespace LittleKeyValueDb.LatchManager
set_option autoImplicit false
set_option linter.unusedSectionVars false

variable {K : Type} [LinearOrder K]

/-! ## Lists -/

section Lists
variable {α : Type}

theorem mem_of_mem_insertAt {xs : List α} {n : Nat} {x e : α} (he : e ∈ xs.take n ++ x :: xs.drop n) :
    e ∈ xs ∨ e = x := by
  rcases List.mem_append.1 he with he | he
  · exact .inl (List.mem_of_mem_take he)
  · rcases List.mem_cons.1 he with rfl | he
    · exact .inr rfl
    · exact .inl (List.mem_of_mem_drop he)

theorem take_drop_set {l : List α} {i : Nat} (x : α) (hi : i < l.length) :
    (l.set i x).take (i + 1) = l.take i ++ [x] ∧ (l.set i x).drop (i + 1) = l.drop (i + 1) := by
  rw [List.set_eq_take_append_cons_drop, if_pos hi]
  have : (l.take i).length = i := by simp; omega
  constructor
  · rw [List.take_append_eq_append_take, List.take_of_length_le (by omega), this]; simp
  · rw [List.drop_append_eq_append_drop, List.drop_of_length_le (by omega), this]; simp

theorem pairwise_insertAt_keyIndex {xs : List K} {k : K} (hs : xs.Pairwise (· < ·)) (hk : k ∉ xs) :
    (xs.take (keyIndex xs k) ++ k :: xs.drop (keyIndex xs k)).Pairwise (· < ·) := by
  induction xs with
  | nil => simp [keyIndex_nil]
  | cons s ss ih =>
    obtain ⟨hs₁, hs₂⟩ := List.pairwise_cons.1 hs
    rw [keyIndex_cons]
    by_cases hks : k < s
    · simp only [hks, if_true, List.take_zero, List.drop_zero, List.nil_append]
      refine List.pairwise_cons.2 ⟨fun t ht => ?_, hs⟩
      rcases List.mem_cons.1 ht with rfl | ht
      · exact hks
      · exact hks.trans (hs₁ t ht)
    · have hsk : s < k := lt_of_le_of_ne (not_lt.1 hks) (fun h => hk (h ▸ List.mem_cons_self _ _))
      simp only [hks, if_false, List.take_succ_cons, List.drop_succ_cons, List.cons_append]
      refine List.pairwise_cons.2 ⟨fun t ht => ?_, ih hs₂ fun h => hk (List.mem_cons_of_mem _ h)⟩
      rcases mem_of_mem_insertAt ht with ht | rfl
      · exact hs₁ t ht
      · exact hsk

theorem lt_of_mem_take_of_le_of_mem_drop {xs : List K} {n : Nat} {m : K} (hs : xs.Pairwise (· < ·))
    (hm : xs[n]? = some m) : (∀ x ∈ xs.take n, x < m) ∧ ∀ x ∈ xs.drop n, m ≤ x := by
  obtain ⟨hn, rfl⟩ := List.getElem?_eq_some_iff.1 hm
  rw [← List.take_append_drop n xs, List.pairwise_append, List.drop_eq_getElem_cons hn] at hs
  rw [List.drop_eq_getElem_cons hn]
  refine ⟨fun x hx => hs.2.2 x hx _ (List.mem_cons_self _ _), fun x hx => ?_⟩
  rcases List.mem_cons.1 hx with rfl | hx
  · exact le_rfl
  · exact (List.pairwise_cons.1 hs.2.1).1 x hx |>.le

end Lists

/-! ## The leaf step -/

section Leaf
variable {order addr : Nat} {range : Range K} {l : LeafNode K}

theorem withRange_startKeys_length (l : LeafNode K) (range : Range K) :
    (l.withRange range).startKeys.length = l.startKeys.length + 1 := by
  have := keyIndex_le l.startKeys range.startKey
  simp [LeafNode.withRange]; omega

theorem withRange_endKeys_length (l : LeafNode K) (range : Range K) (hlen : l.startKeys.length = l.endKeys.length) :
    (l.withRange range).endKeys.length = l.endKeys.length + 1 := by
  have := keyIndex_le l.startKeys range.startKey
  simp [LeafNode.withRange]; omega

theorem mem_withRange_startKeys {k : K} (h : k ∈ (l.withRange range).startKeys) :
    k ∈ l.startKeys ∨ k = range.startKey :=
  mem_of_mem_insertAt h

/-- What the leaf step returns: the leaf with the span, split when full. The split point always
exists, since the leaf is not empty once the span is in. -/
theorem insertIntoLeaf_eq {m : K} (hlen : l.startKeys.length = l.endKeys.length)
    (hm : (l.withRange range).startKeys[(l.startKeys.length + 1) / 2]? = some m) :
    insertIntoLeaf order range addr l = pure (if l.startKeys.length + 1 < order
      then .fit (.leaf (l.withRange range))
      else .split (.leaf ((l.withRange range).lowerHalf addr)) m (.leaf ((l.withRange range).upperHalf addr))) := by
  have hs := withRange_startKeys_length l range
  have he := withRange_endKeys_length l range hlen
  by_cases hc : l.startKeys.length + 1 < order
  · simp [insertIntoLeaf, l.insertRange_eq range hlen, LeafNode.hasCapacity, hasCapacityLen, hs, hc]
  · simp [insertIntoLeaf, l.insertRange_eq range hlen, LeafNode.hasCapacity, hasCapacityLen, hs, hc,
      splitLeaf_eq (l.withRange range) addr (by omega) (by rwa [hs])]

theorem exists_withRange_median (l : LeafNode K) (range : Range K) :
    ∃ m, (l.withRange range).startKeys[(l.startKeys.length + 1) / 2]? = some m :=
  ⟨_, List.getElem?_eq_getElem (by rw [withRange_startKeys_length]; omega)⟩

end Leaf

/-! ## The internal step -/

section Internal
variable {order idx : Nat} {keys : List K} {edges : List (Option (Node K))}

theorem splitIfFull_eq {m : K} (hlen : edges.length = keys.length + 1) (hm : keys[keys.length / 2]? = some m) :
    splitIfFull order keys edges = pure (if keys.length < order then .fit (.internal keys edges)
      else .split (.internal (keys.take (keys.length / 2)) (edges.take (keys.length / 2 + 1))) m
        (.internal (keys.drop (keys.length / 2 + 1)) (edges.drop (keys.length / 2 + 1)))) := by
  by_cases hc : keys.length < order
  · simp [splitIfFull, InternalNode.hasCapacity, hasCapacityLen, hc]
  · simp [splitIfFull, InternalNode.hasCapacity, hasCapacityLen, hc, splitInternal_eq keys edges hlen hm]

theorem insertUp_split_eq {c r : Node K} {m : K} (hlen : edges.length = keys.length + 1) :
    insertUp order keys edges idx (.split c m r) = splitIfFull order
      (keys.take (keyIndex keys m) ++ m :: keys.drop (keyIndex keys m))
      ((edges.set idx (some c)).take (keyIndex keys m + 1) ++ some r ::
        (edges.set idx (some c)).drop (keyIndex keys m + 1)) := by
  simp [insertUp, insertNode_eq keys (edges.set idx (some c)) r m (by simpa using hlen)]

end Internal

/-! ## Edges all set -/

section Edges
variable {P : Node K → Prop} {edges : List (Option (Node K))}

theorem forall_edges_set {c : Node K} (hedges : ∀ e ∈ edges, ∃ c, e = some c ∧ P c) (hc : P c) (idx : Nat) :
    ∀ e ∈ edges.set idx (some c), ∃ c, e = some c ∧ P c := fun e he => by
  rcases List.mem_or_eq_of_mem_set he with he | rfl
  · exact hedges e he
  · exact ⟨c, rfl, hc⟩

theorem forall_edges_insertAt {r : Node K} (hedges : ∀ e ∈ edges, ∃ c, e = some c ∧ P c) (hr : P r) (p : Nat) :
    ∀ e ∈ edges.take p ++ some r :: edges.drop p, ∃ c, e = some c ∧ P c := fun e he => by
  rcases mem_of_mem_insertAt he with he | rfl
  · exact hedges e he
  · exact ⟨r, rfl, hr⟩

end Edges

/-! ## Shape and spans, whatever the keys -/

/-- What a frame hands up keeps the shape, at the height of the node it ran at. -/
def ResultShaped (order : Nat) (isRoot : Bool) (h : Nat) : InsertResult K → Prop
  | .fit n => Shaped order isRoot h n
  | .split l _ r => Shaped order false h l ∧ Shaped order false h r

section Shape
variable {order : Nat} {range : Range K} {addr : Nat}

theorem Shaped.child {h i : Nat} {isRoot : Bool} {keys : List K} {edges : List (Option (Node K))}
    (hn : Shaped order isRoot (h + 1) (.internal keys edges)) (hi : i ≤ keys.length) :
    ∃ c, edges[i]? = some (some c) ∧ Shaped order false h c := by
  have hi' : i < edges.length := by rw [hn.2.2.2.1]; omega
  obtain ⟨c, hc, hs⟩ := hn.2.2.2.2 _ (List.getElem_mem hi')
  exact ⟨c, by rw [List.getElem?_eq_getElem hi', hc], hs⟩

theorem leafHalves_shaped {l : LeafNode K} (h3 : 3 ≤ order) (hk : l.startKeys.length = order)
    (he : l.endKeys.length = l.startKeys.length) (a b : Nat) :
    Shaped order false 0 (.leaf (l.lowerHalf a)) ∧ Shaped order false 0 (.leaf (l.upperHalf b)) := by
  have h₁ : l.startKeys.length / 2 ≤ l.startKeys.length := Nat.div_le_self _ _
  have h₂ : l.startKeys.length / 2 ≤ l.endKeys.length := by omega
  simp only [Shaped, LeafNode.lowerHalf, LeafNode.upperHalf, List.length_take_of_le h₁,
    List.length_take_of_le h₂, List.length_drop, true_and, true_implies]
  omega

theorem internalHalves_shaped {h : Nat} {keys : List K} {edges : List (Option (Node K))} (h3 : 3 ≤ order)
    (hk : keys.length = order) (he : edges.length = keys.length + 1)
    (hedges : ∀ e ∈ edges, ∃ c, e = some c ∧ Shaped order false h c) :
    Shaped order false (h + 1) (.internal (keys.take (keys.length / 2)) (edges.take (keys.length / 2 + 1))) ∧
      Shaped order false (h + 1)
        (.internal (keys.drop (keys.length / 2 + 1)) (edges.drop (keys.length / 2 + 1))) := by
  have h₁ : keys.length / 2 ≤ keys.length := Nat.div_le_self _ _
  have h₂ : keys.length / 2 + 1 ≤ edges.length := by omega
  refine ⟨⟨?_, ?_, fun _ => ?_, ?_, fun e he => hedges e (List.mem_of_mem_take he)⟩,
    ⟨?_, ?_, fun _ => ?_, ?_, fun e he => hedges e (List.mem_of_mem_drop he)⟩⟩
  all_goals simp only [← List.length_pos, List.length_take_of_le h₁, List.length_take_of_le h₂,
    List.length_drop] <;> omega

theorem insertIntoLeaf_shaped {isRoot : Bool} {l : LeafNode K} (h3 : 3 ≤ order)
    (hl : Shaped order isRoot 0 (.leaf l)) :
    ∃ res, insertIntoLeaf order range addr l = .ok res ∧ ResultShaped order isRoot 0 res := by
  obtain ⟨hlen, hcap, hocc⟩ := hl
  obtain ⟨m, hm⟩ := exists_withRange_median l range
  have hs := withRange_startKeys_length l range
  have he := withRange_endKeys_length l range hlen
  refine ⟨_, insertIntoLeaf_eq hlen hm, ?_⟩
  by_cases hc : l.startKeys.length + 1 < order
  · rw [if_pos hc]
    exact ⟨by omega, by omega, fun h => by have := hocc h; omega⟩
  · rw [if_neg hc]
    exact leafHalves_shaped h3 (by omega) (by omega) _ _

theorem insertUp_shaped {h idx : Nat} {isRoot : Bool} {keys : List K} {edges : List (Option (Node K))}
    {res : InsertResult K} (h3 : 3 ≤ order) (hn : Shaped order isRoot (h + 1) (.internal keys edges))
    (hres : ResultShaped order false h res) :
    ∃ res', insertUp order keys edges idx res = .ok res' ∧ ResultShaped order isRoot (h + 1) res' := by
  obtain ⟨hk, hcap, hocc, hlen, hedges⟩ := hn
  cases res with
  | fit c => exact ⟨_, rfl, hk, hcap, hocc, by simpa using hlen, forall_edges_set hedges hres idx⟩
  | split c m r =>
    obtain ⟨hc, hr⟩ := hres
    have hp := keyIndex_le keys m
    set p := keyIndex keys m
    set keys' := keys.take p ++ m :: keys.drop p with hkeys'
    set edges' := (edges.set idx (some c)).take (p + 1) ++ some r :: (edges.set idx (some c)).drop (p + 1)
      with hedges'
    have hk' : keys'.length = keys.length + 1 := by simp [keys']; omega
    have he' : edges'.length = keys'.length + 1 := by simp [edges']; omega
    have hmem : ∀ e ∈ edges', ∃ c, e = some c ∧ Shaped order false h c :=
      forall_edges_insertAt (forall_edges_set hedges hc idx) hr (p + 1)
    obtain ⟨m', hm'⟩ : ∃ m', keys'[keys'.length / 2]? = some m' := ⟨_, List.getElem?_eq_getElem (by omega)⟩
    rw [insertUp_split_eq hlen, splitIfFull_eq he' hm']
    refine ⟨_, rfl, ?_⟩
    by_cases hfull : keys'.length < order
    · rw [if_pos hfull]
      exact ⟨by simp [keys'], hfull, fun h => by have := hocc h; omega, he', hmem⟩
    · rw [if_neg hfull]
      exact internalHalves_shaped h3 (by omega) he' hmem

/-- **Shape.** A frame that returns on a shaped node hands up shaped nodes. -/
theorem insertFrom_shaped (h3 : 3 ≤ order) :
    ∀ {h fuel : Nat} {isRoot : Bool} {n : Node K} {next : Option (Node K)} {res : InsertResult K},
      Shaped order isRoot h n → insertFrom order range addr fuel n next = .ok res → ResultShaped order isRoot h res
  | _, 0, _, _, _, _, _, hr => by cases hr
  | 0, _ + 1, _, .leaf _, _, _, hn, hr => by
    obtain ⟨res, hres, hs⟩ := insertIntoLeaf_shaped h3 hn
    rw [insertFrom_leaf, hres] at hr
    cases hr
    exact hs
  | h + 1, fuel + 1, _, .internal keys edges, _, _, hn, hr => by
    obtain ⟨c, hc, hcs⟩ := hn.child (keyIndex_le keys range.startKey)
    rw [insertFrom_internal hn.1 hc] at hr
    obtain ⟨resC, hrc, hup⟩ := bind_eq_ok.1 hr
    obtain ⟨res, hres, hs⟩ := insertUp_shaped h3 hn (insertFrom_shaped h3 hcs hrc)
    rw [hres] at hup
    cases hup
    exact hs
  | 0, _ + 1, _, .internal _ _, _, _, hn, _ => hn.elim
  | _ + 1, _ + 1, _, .leaf _, _, _, hn, _ => hn.elim

/-- **Termination of a frame.** On a shaped node, a frame with more passes than the node's height
returns. -/
theorem insertFrom_ok (h3 : 3 ≤ order) :
    ∀ {h fuel : Nat} {isRoot : Bool} {n : Node K} {next : Option (Node K)},
      Shaped order isRoot h n → h < fuel → ∃ res, insertFrom order range addr fuel n next = .ok res
  | 0, _ + 1, _, .leaf _, _, hn, _ => by
    obtain ⟨res, hres, -⟩ := insertIntoLeaf_shaped h3 hn
    exact ⟨res, hres⟩
  | h + 1, fuel + 1, _, .internal keys edges, _, hn, hf => by
    obtain ⟨c, hc, hcs⟩ := hn.child (keyIndex_le keys range.startKey)
    obtain ⟨resC, hrc⟩ : ∃ res, insertFrom order range addr fuel c (some c) = .ok res :=
      insertFrom_ok h3 hcs (by omega)
    obtain ⟨res, hres, -⟩ := insertUp_shaped h3 hn (insertFrom_shaped h3 hcs hrc)
    exact ⟨res, by rw [insertFrom_internal hn.1 hc, hrc]; exact hres⟩
  | _, 0, _, _, _, _, hf => absurd hf (Nat.not_lt_zero _)
  | 0, _ + 1, _, .internal _ _, _, hn, _ => hn.elim
  | _ + 1, _ + 1, _, .leaf _, _, hn, _ => hn.elim

end Shape

/-! ## Order, for a start key not yet in the tree -/

/-- What a frame hands up keeps the order within the bounds of the node it ran at, the split key
bounding the two halves. -/
def ResultOrdered (h : Nat) (lo hi : Option K) : InsertResult K → Prop
  | .fit n => Ordered h lo hi n
  | .split l m r => Ordered h lo (some m) l ∧ Ordered h (some m) hi r

section Order
variable {order : Nat} {range : Range K} {addr : Nat}

theorem insertIntoLeaf_ordered {lo hi : Option K} {l : LeafNode K} {res : InsertResult K} (h3 : 3 ≤ order)
    (hlen : l.startKeys.length = l.endKeys.length) (ho : Ordered 0 lo hi (.leaf l))
    (hk : InBounds lo hi range.startKey) (hfresh : range.startKey ∉ l.startKeys)
    (hr : insertIntoLeaf order range addr l = .ok res) : ResultOrdered 0 lo hi res := by
  obtain ⟨hlt, hsorted, hbounds⟩ := ho
  obtain ⟨m, hm⟩ := exists_withRange_median l range
  have hsorted' : (l.withRange range).startKeys.Pairwise (· < ·) := pairwise_insertAt_keyIndex hsorted hfresh
  have hbounds' : ∀ k ∈ (l.withRange range).startKeys, InBounds lo hi k := fun k hk' => by
    rcases mem_withRange_startKeys hk' with hk' | rfl
    · exact hbounds k hk'
    · exact hk
  rw [insertIntoLeaf_eq hlen hm] at hr
  cases hr
  by_cases hc : l.startKeys.length + 1 < order
  · simpa [hc, ResultOrdered, Ordered] using ⟨hlt, hsorted', hbounds'⟩
  · have hs := withRange_startKeys_length l range
    rw [← hs] at hm
    obtain ⟨hbelow, habove⟩ := lt_of_mem_take_of_le_of_mem_drop hsorted' hm
    have hmb := hbounds' m (List.mem_iff_getElem?.2 ⟨_, hm⟩)
    obtain ⟨x, hx⟩ := List.exists_mem_of_ne_nil ((l.withRange range).startKeys.take
      ((l.withRange range).startKeys.length / 2))
        (by rw [Ne, List.take_eq_nil_iff, not_or]; exact ⟨by omega, fun h => by simp [h] at hs⟩)
    simp only [hc, if_false, ResultOrdered, Ordered, LeafNode.lowerHalf, LeafNode.upperHalf]
    refine ⟨⟨fun a ha b hb => ?_, hsorted'.take, fun k hk => ⟨(hbounds' k (List.mem_of_mem_take hk)).1, ?_⟩⟩,
      ⟨fun a ha b hb => ?_, hsorted'.drop, fun k hk => ⟨?_, (hbounds' k (List.mem_of_mem_drop hk)).2⟩⟩⟩
    · cases hb
      exact ((hbounds' x (List.mem_of_mem_take hx)).1 a ha).trans_lt (hbelow x hx)
    · intro b hb
      rw [Option.mem_some_iff] at hb
      exact hb ▸ hbelow k hk
    · cases ha
      exact hmb.2 b hb
    · intro a ha
      rw [Option.mem_some_iff] at ha
      exact ha ▸ habove k hk

theorem insertUp_ordered {h idx : Nat} {lo hi : Option K} {keys : List K} {edges : List (Option (Node K))}
    {res res' : InsertResult K} (ho : Chain (Ordered h) lo keys edges hi) (hidx : idx ≤ keys.length)
    (hres : ResultOrdered h (lowerSep lo keys idx) (upperSep keys hi idx) res)
    (hup : insertUp order keys edges idx res = .ok res') : ResultOrdered (h + 1) lo hi res' := by
  obtain ⟨-, -, -, hctx⟩ := ho.focus hidx
  have hlen := ho.length
  have hlt : idx < edges.length := by omega
  cases res with
  | fit c =>
    cases hup
    simpa [ResultOrdered, Ordered, List.set_eq_take_append_cons_drop, hlt] using
      hctx [] [some c] (chain_nil.2 ⟨c, rfl, hres⟩)
  | split c m r =>
    obtain ⟨hc, hr⟩ := hres
    have hp : keyIndex keys m = idx := keyIndex_eq_of_inBounds (Chain.sorted (fun _ _ _ hc => hc.boundsLt) ho)
      hidx (BoundsLt.inBounds hc.boundsLt hr.boundsLt)
    obtain ⟨htake, hdrop⟩ := take_drop_set (some c) hlt
    rw [insertUp_split_eq hlen, hp, htake, hdrop] at hup
    set keys' := keys.take idx ++ m :: keys.drop idx
    set edges' := edges.take idx ++ [some c] ++ some r :: edges.drop (idx + 1)
    have hk' : keys'.length = keys.length + 1 := by simp [keys']; omega
    have he' : edges'.length = keys'.length + 1 := by simp [edges', hk']; omega
    obtain ⟨m', hm'⟩ : ∃ m', keys'[keys'.length / 2]? = some m' := ⟨_, List.getElem?_eq_getElem (by omega)⟩
    rw [splitIfFull_eq he' hm'] at hup
    cases hup
    have hchain : Chain (Ordered h) lo keys' edges' hi := by
      simpa [keys', edges'] using hctx [m] [some c, some r] (chain_cons.2 ⟨c, [some r], rfl, hc, chain_nil.2 ⟨r, rfl, hr⟩⟩)
    split_ifs
    · exact hchain
    · exact hchain.split hm'

/-- **Order.** A frame that returns on a node, for a start key within the node's bounds and not
yet below it, hands up ordered nodes. -/
theorem insertFrom_ordered (h3 : 3 ≤ order) :
    ∀ {h fuel : Nat} {isRoot : Bool} {lo hi : Option K} {n : Node K} {next : Option (Node K)}
      {res : InsertResult K}, Shaped order isRoot h n → Ordered h lo hi n → InBounds lo hi range.startKey →
      (∀ l ∈ n.leaves, range.startKey ∉ l.startKeys) →
      insertFrom order range addr fuel n next = .ok res → ResultOrdered h lo hi res
  | _, 0, _, _, _, _, _, _, _, _, _, _, hr => by simp [insertFrom] at hr
  | 0, _ + 1, _, _, _, .leaf l, _, _, hs, ho, hk, hfresh, hr =>
    insertIntoLeaf_ordered h3 hs.1 ho hk (hfresh l (by simp [Node.leaves])) (by rwa [insertFrom_leaf] at hr)
  | h + 1, fuel + 1, _, lo, hi, .internal keys edges, _, _, hs, ho, hk, hfresh, hr => by
    obtain ⟨c, hc, hcs⟩ := hs.child (keyIndex_le keys range.startKey)
    rw [insertFrom_internal hs.1 hc] at hr
    obtain ⟨resC, hrc, hup⟩ := bind_eq_ok.1 hr
    obtain ⟨c', hc', hco⟩ := Chain.get ho hc
    cases hc'
    have hfreshC : ∀ l ∈ c.leaves, range.startKey ∉ l.startKeys := fun l hl =>
      hfresh l (Node.mem_edgeLeaves.2 ⟨c, List.mem_iff_getElem?.2 ⟨_, hc⟩, hl⟩)
    exact insertUp_ordered ho (keyIndex_le _ _)
      (insertFrom_ordered h3 hcs hco (inBounds_keyIndex keys hk) hfreshC hrc) hup
  | 0, _ + 1, _, _, _, .internal _ _, _, _, hs, _, _, _, _ => hs.elim
  | _ + 1, _ + 1, _, _, _, .leaf _, _, _, hs, _, _, _, _ => hs.elim

end Order

/-! ## The root -/

/-- The height of the root after `insert`, from the height `h` of the old one. -/
def InsertResult.rootHeight (h : Nat) : InsertResult K → Nat
  | .fit _ => h
  | .split _ _ _ => h + 1

section Root
variable {order : Nat}

theorem InsertResult.toRoot_shaped {h : Nat} {res : InsertResult K} (h3 : 3 ≤ order)
    (hs : ResultShaped order true h res) : Shaped order true (res.rootHeight h) res.toRoot := by
  cases res with
  | fit n => exact hs
  | split l m r =>
    refine ⟨List.cons_ne_nil _ _, by simp; omega, nofun, rfl, fun e he => ?_⟩
    simp only [List.mem_cons, List.mem_singleton, List.not_mem_nil, or_false] at he
    rcases he with rfl | rfl
    · exact ⟨l, rfl, hs.1⟩
    · exact ⟨r, rfl, hs.2⟩

theorem InsertResult.toRoot_ordered {h : Nat} {res : InsertResult K} (ho : ResultOrdered h none none res) :
    Ordered (res.rootHeight h) none none res.toRoot := by
  cases res with
  | fit n => exact ho
  | split l m r => exact chain_cons.2 ⟨l, [some r], rfl, ho.1, chain_nil.2 ⟨r, rfl, ho.2⟩⟩

end Root

/-! ## Runs of `insert` -/

section Runs
variable {order : Nat}

theorem shaped_new (h3 : 3 ≤ order) : Shaped order true 0 (.leaf (⟨0, [], [], none, none⟩ : LeafNode K)) :=
  ⟨rfl, by simp; omega, nofun⟩

theorem InsertRun.shaped (h3 : 3 ≤ order) {rs : List (Range K)} {t : BTree K} (hrun : InsertRun order rs t) :
    ∃ root h, t.root = some root ∧ t.order = order ∧ Shaped order true h root ∧ h ≤ rs.length := by
  induction hrun with
  | new => exact ⟨_, 0, rfl, rfl, shaped_new h3, le_rfl⟩
  | insert _ _ hins ih =>
    obtain ⟨root, h, hroot, hord, hs, hh⟩ := ih
    obtain ⟨res, hres, rfl⟩ := (BTree.insert_eq_ok hroot).1 hins
    rw [hord] at hres
    refine ⟨_, _, rfl, hord, InsertResult.toRoot_shaped h3 (insertFrom_shaped h3 hs hres), ?_⟩
    cases res <;> simp [InsertResult.rootHeight] <;> omega

theorem InsertRun.exists (h3 : 3 ≤ order) (rs : List (Range K)) : ∃ t, InsertRun order rs t := by
  induction rs using List.reverseRecOn with
  | nil => exact ⟨_, .new⟩
  | append_singleton rs range ih =>
    obtain ⟨t, hrun⟩ := ih
    obtain ⟨root, h, hroot, hord, hs, hh⟩ := hrun.shaped h3
    obtain ⟨res, hres⟩ : ∃ res, insertFrom order range root.freshAddr (rs.length + 1) root none = .ok res :=
      insertFrom_ok h3 hs (by omega)
    exact ⟨_, hrun.insert (rs.length + 1) ((BTree.insert_eq_ok hroot).2 ⟨res, by rw [hord]; exact hres, rfl⟩)⟩

theorem InsertRun.fresh {rs : List (Range K)} {t : BTree K} {root : Node K} {h : Nat} {isRoot : Bool}
    (hrun : InsertRun order rs t) (hroot : t.root = some root) (hs : Shaped order isRoot h root) {k : K}
    (hk : k ∉ rs.map (·.startKey)) : ∀ l ∈ root.leaves, k ∉ l.startKeys := by
  have hsp : root.spans = (rangePairs rs : Multiset (K × K)) := (BTree.spans_eq hroot).symm.trans hrun.spans
  intro l hl hkl
  rw [← List.map_fst_zip _ _ (hs.leaves l hl).2.le] at hkl
  obtain ⟨p, hp, hpk⟩ := List.mem_map.1 hkl
  have hmem : p ∈ (rangePairs rs : Multiset (K × K)) := by
    rw [← hsp]
    exact Multiset.mem_coe.2 (List.mem_flatMap.2 ⟨l, hl, hp⟩)
  obtain ⟨r, hr, rfl⟩ := List.mem_map.1 (Multiset.mem_coe.1 hmem)
  exact hk (List.mem_map.2 ⟨r, hr, hpk⟩)

/-- Along a run of `insert` with distinct start keys, the root is also ordered. -/
theorem InsertRun.ordered (h3 : 3 ≤ order) {rs : List (Range K)} {t : BTree K} (hrun : InsertRun order rs t)
    (hd : (rs.map (·.startKey)).Nodup) :
    ∃ root h, t.root = some root ∧ t.order = order ∧ Shaped order true h root ∧ Ordered h none none root := by
  induction hrun with
  | new => exact ⟨_, 0, rfl, rfl, shaped_new h3, ⟨nofun, .nil, nofun⟩⟩
  | @insert rs t t' range fuel hrun hins ih =>
    rw [List.map_append, List.nodup_append] at hd
    obtain ⟨root, h, hroot, hord, hs, ho⟩ := ih hd.1
    obtain ⟨res, hres, rfl⟩ := (BTree.insert_eq_ok hroot).1 hins
    rw [hord] at hres
    have hfresh := hrun.fresh hroot hs (k := range.startKey) fun hk => hd.2.2 hk (by simp)
    exact ⟨_, _, rfl, hord, InsertResult.toRoot_shaped h3 (insertFrom_shaped h3 hs hres),
      InsertResult.toRoot_ordered (insertFrom_ordered h3 hs ho ⟨nofun, nofun⟩ hfresh hres)⟩

/-- **The B+-tree invariant.** From order 3 on, every sequence of `insert` calls with distinct
start keys runs from `BTree::new(order)`, and every tree it builds satisfies the B+-tree invariant
for the spans inserted. -/
theorem insert_run_bplus_invariant (order : Nat) (h3 : 3 ≤ order) (rs : List (Range K))
    (hd : (rs.map (·.startKey)).Nodup) :
    (∃ t, InsertRun order rs t) ∧
      ∀ t, InsertRun order rs t → ∃ root, t.root = some root ∧ BPlusInvariant order root rs := by
  refine ⟨InsertRun.exists h3 rs, fun t hrun => ?_⟩
  obtain ⟨root, h, hroot, -, hs, ho⟩ := hrun.ordered h3 hd
  exact ⟨root, hroot, bPlusInvariant_of hs ho (Multiset.coe_eq_coe.1 ((BTree.spans_eq hroot).symm.trans hrun.spans))⟩

theorem insert_run_bplus_invariant_three_spans :
    3 ≤ 3 ∧ (([⟨5, 6⟩, ⟨10, 11⟩, ⟨20, 21⟩] : List (Range Nat)).map (·.startKey)).Nodup ∧
      ((∃ t, InsertRun 3 [⟨5, 6⟩, ⟨10, 11⟩, ⟨20, 21⟩] t) ∧
        ∀ t, InsertRun 3 [⟨5, 6⟩, ⟨10, 11⟩, ⟨20, 21⟩] t →
          ∃ root, t.root = some root ∧ BPlusInvariant 3 root [⟨5, 6⟩, ⟨10, 11⟩, ⟨20, 21⟩]) :=
  ⟨le_rfl, by decide, insert_run_bplus_invariant 3 le_rfl _ (by decide)⟩

/-- **Occupancy.** From order 3 on, along every run of `insert`, whatever the keys, every node
below the root has fewer than `order` keys, a leaf at least `order / 2` and an internal node at
least `(order - 1) / 2`. -/
theorem insert_run_occupancy (order : Nat) (h3 : 3 ≤ order) (rs : List (Range K)) (t : BTree K)
    (hrun : InsertRun order rs t) : ∃ root, t.root = some root ∧ ∀ n ∈ root.descendants, Occupied order n := by
  obtain ⟨root, h, hroot, -, hs, -⟩ := hrun.shaped h3
  refine ⟨root, hroot, fun n hn => ?_⟩
  obtain ⟨h', hn'⟩ := hs.descendants n hn
  exact hn'.occupied

theorem insert_run_occupancy_three_spans :
    3 ≤ 3 ∧ InsertRun 3 [⟨5, 6⟩, ⟨10, 11⟩, ⟨20, 21⟩] threeSpansTree ∧
      ∃ root, threeSpansTree.root = some root ∧ ∀ n ∈ root.descendants, Occupied 3 n :=
  ⟨le_rfl, insertRun_three_spans, insert_run_occupancy 3 le_rfl _ _ insertRun_three_spans⟩

/-- At order 4, the spans `[k, k + 1)` for `k = 1, ..., 10` split the root: the right half keeps
`4 - 4 / 2 - 1 = 1` key, fewer than `4 / 2`, so `is_underflow` holds below the root. -/
theorem internal_split_underflows_at_order_four :
    ∃ t : BTree Nat, InsertRun 4 ((List.range' 1 10).map fun k => ⟨k, k + 1⟩) t ∧
      ∃ root, t.root = some root ∧ ∃ n ∈ root.descendants, n.isUnderflow 4 = true :=
  ⟨_, insertRun_order_four_one_to_ten, _, rfl,
    .internal [9] [some (.leaf ⟨3, [7, 8], [8, 9], some 2, some 4⟩), some (.leaf ⟨4, [9, 10], [10, 11], some 3, none⟩)],
    by simp [Node.descendants, Node.edgeNodes, Node.nodes], rfl⟩

/-- **Termination.** From order 3 on, along every run of `insert`, whatever the keys, the next call
returns within one pass more than the calls so far: the descent reaches a leaf within the tree's
height. -/
theorem insert_returns (order : Nat) (h3 : 3 ≤ order) (rs : List (Range K)) (t : BTree K)
    (hrun : InsertRun order rs t) (range : Range K) : ∃ t', t.insert (rs.length + 1) range = .ok t' := by
  obtain ⟨root, h, hroot, hord, hs, hh⟩ := hrun.shaped h3
  obtain ⟨res, hres⟩ : ∃ res, insertFrom order range root.freshAddr (rs.length + 1) root none = .ok res :=
    insertFrom_ok h3 hs (by omega)
  exact ⟨_, (BTree.insert_eq_ok hroot).2 ⟨res, by rw [hord]; exact hres, rfl⟩⟩

theorem insert_returns_after_three_spans :
    3 ≤ 3 ∧ InsertRun 3 [⟨5, 6⟩, ⟨10, 11⟩, ⟨20, 21⟩] threeSpansTree ∧
      ∃ t', threeSpansTree.insert 4 ⟨30, 31⟩ = .ok t' :=
  ⟨le_rfl, insertRun_three_spans, insert_returns 3 le_rfl _ _ insertRun_three_spans ⟨30, 31⟩⟩

theorem insertFrom_keyless {order addr : Nat} {range : Range K} (edges : List (Option (Node K))) :
    ∀ fuel, insertFrom order range addr fuel (.internal [] edges) (some (.internal [] edges)) = .error .outOfFuel
  | 0 => rfl
  | fuel + 1 => by simpa [insertFrom] using insertFrom_keyless edges fuel

theorem insertFrom_keyless_child {order addr : Nat} {range : Range K} {keys : List K}
    {edges es : List (Option (Node K))} {next : Option (Node K)} (hk : keys ≠ [])
    (hc : edges[keyIndex keys range.startKey]? = some (some (.internal [] es))) :
    ∀ fuel, insertFrom order range addr fuel (.internal keys edges) next = .error .outOfFuel
  | 0 => rfl
  | fuel + 1 => by rw [insertFrom_internal hk hc, insertFrom_keyless]; rfl

/-- At order 2, after spans at 1, 2 and 3, the internal split leaves the right node without keys,
and inserting at 4 descends into it and never returns. -/
theorem insert_order_two_never_returns :
    ∃ t : BTree Nat, InsertRun 2 [⟨1, 2⟩, ⟨2, 3⟩, ⟨3, 4⟩] t ∧ ∀ fuel, t.insert fuel ⟨4, 5⟩ = .error .outOfFuel := by
  refine ⟨_, (InsertRun.new.insertAll 3 rfl : InsertRun 2 ([] ++ [⟨1, 2⟩, ⟨2, 3⟩, ⟨3, 4⟩])
    ⟨some (.internal [3] [some (.internal [2] [some (.leaf ⟨0, [1], [2], none, some 1⟩),
      some (.leaf ⟨1, [2], [3], some 0, some 2⟩)]), some (.internal [] [some (.leaf ⟨2, [3], [4], some 1, none⟩)])]), 2⟩),
    fun fuel => ?_⟩
  simp only [BTree.insert]
  rw [insertFrom_keyless_child (List.cons_ne_nil _ _) rfl fuel]
  rfl

end Runs

end LittleKeyValueDb.LatchManager
