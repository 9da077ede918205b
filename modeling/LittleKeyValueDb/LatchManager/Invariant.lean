import LittleKeyValueDb.LatchManager.BTree

/-! # The B+-tree invariant

`BPlusInvariant` is the invariant the comments on `InternalNode` state ("one more edges than keys",
"order of 3 means each node can only store 2 keys", a key's left edge holds keys strictly less than
it), completed as a B+-tree over the spans held, read off the nodes of a tree: internal nodes with one more edge than keys, separators that bound the
start keys below each edge, leaves at one depth, sorted leaves, fewer than `order` keys per node,
and the spans read left to right. The proofs carry two height-indexed invariants instead:

* `Shaped order isRoot h n`: the leaves of `n` are all at depth `h`; an internal node has a key and
  one more edge than keys, all set; every node has fewer than `order` keys, and a node other than
  the root at least `order / 2` (a leaf) or `(order - 1) / 2` (an internal node) of them. No key is
  compared, so `insert` keeps it whatever the keys.
* `Ordered h lo hi n`: the start keys of `n` are strictly increasing and lie in `[lo, hi)`, and
  the keys of each internal node form a `Chain` with `lo < keys[0] < ... < hi` and child `i`
  within `[keys[i-1], keys[i])`. `insert` keeps it for a start key not yet in the tree.

A bound is an `Option`: `none` bounds nothing. `LeafChainLinked` states what the leaf links
`left_ptr` and `right_ptr` should be.
-/

namespace LittleKeyValueDb.LatchManager
set_option autoImplicit false
set_option linter.unusedSectionVars false

variable {K : Type} [LinearOrder K]

/-! ## Bounds -/

/-- `k` lies in `[lo, hi)`. -/
def InBounds (lo hi : Option K) (k : K) : Prop := (∀ a ∈ lo, a ≤ k) ∧ ∀ b ∈ hi, k < b

/-- `lo` lies below `hi`. -/
def BoundsLt (lo hi : Option K) : Prop := ∀ a ∈ lo, ∀ b ∈ hi, a < b

/-- The separator on the left of edge `i`: `keys[i-1]`, or `lo` for the first edge. -/
def lowerSep (lo : Option K) (keys : List K) (i : Nat) : Option K := if i = 0 then lo else keys[i - 1]?

/-- The separator on the right of edge `i`: `keys[i]`, or `hi` for the last edge. -/
def upperSep (keys : List K) (hi : Option K) (i : Nat) : Option K := keys[i]?.or hi

@[simp] theorem lowerSep_zero (lo : Option K) (keys : List K) : lowerSep lo keys 0 = lo := rfl

@[simp] theorem lowerSep_cons_succ (lo : Option K) (s : K) (ss : List K) (i : Nat) :
    lowerSep lo (s :: ss) (i + 1) = lowerSep (some s) ss i := by
  cases i <;> simp [lowerSep]

@[simp] theorem upperSep_nil (hi : Option K) (i : Nat) : upperSep [] hi i = hi := by
  simp [upperSep]

@[simp] theorem upperSep_cons_zero (s : K) (ss : List K) (hi : Option K) :
    upperSep (s :: ss) hi 0 = some s := by
  simp [upperSep]

@[simp] theorem upperSep_cons_succ (s : K) (ss : List K) (hi : Option K) (i : Nat) :
    upperSep (s :: ss) hi (i + 1) = upperSep ss hi i := by
  simp [upperSep]

section Bounds
variable {lo hi : Option K} {s k : K}

theorem BoundsLt.trans (h₁ : BoundsLt lo (some s)) (h₂ : BoundsLt (some s) hi) : BoundsLt lo hi :=
  fun a ha b hb => (h₁ a ha s rfl).trans (h₂ s rfl b hb)

theorem InBounds.lt_upper (h : InBounds lo (some s) k) : k < s := h.2 s rfl

theorem InBounds.lower_le (h : InBounds (some s) hi k) : s ≤ k := h.1 s rfl

theorem InBounds.widen_hi (h : InBounds lo (some s) k) (hs : BoundsLt (some s) hi) : InBounds lo hi k :=
  ⟨h.1, fun b hb => h.lt_upper.trans (hs s rfl b hb)⟩

theorem InBounds.widen_lo (h : InBounds (some s) hi k) (hs : BoundsLt lo (some s)) : InBounds lo hi k :=
  ⟨fun a ha => (hs a ha s rfl).le.trans h.lower_le, h.2⟩

theorem BoundsLt.inBounds (h₁ : BoundsLt lo (some s)) (h₂ : BoundsLt (some s) hi) : InBounds lo hi s :=
  ⟨fun a ha => (h₁ a ha s rfl).le, fun b hb => h₂ s rfl b hb⟩

theorem inBounds_keyIndex (keys : List K) (h : InBounds lo hi k) :
    InBounds (lowerSep lo keys (keyIndex keys k)) (upperSep keys hi (keyIndex keys k)) k := by
  induction keys generalizing lo with
  | nil => simpa [keyIndex_nil] using h
  | cons s ss ih =>
    rw [keyIndex_cons]
    by_cases hks : k < s
    · simp only [hks, if_true, lowerSep_zero, upperSep_cons_zero]
      exact ⟨h.1, by simpa using hks⟩
    · simp only [hks, if_false, lowerSep_cons_succ, upperSep_cons_succ]
      exact ih ⟨by simpa using not_lt.1 hks, h.2⟩

theorem keyIndex_eq_of_inBounds {keys : List K} {i : Nat} (hs : keys.Pairwise (· < ·))
    (hle : i ≤ keys.length) (hk : InBounds (lowerSep lo keys i) (upperSep keys hi i) k) :
    keyIndex keys k = i := by
  induction keys generalizing lo i with
  | nil => simp_all [keyIndex_nil]
  | cons s ss ih =>
    rw [keyIndex_cons]
    cases i with
    | zero =>
      simp only [lowerSep_zero, upperSep_cons_zero] at hk
      simp [hk.lt_upper]
    | succ i =>
      simp only [lowerSep_cons_succ, upperSep_cons_succ] at hk
      have hsk : s ≤ k := by
        rcases i with _ | j
        · exact hk.lower_le
        · have hj : j < ss.length := by simp at hle; omega
          have hjk : ss[j] ≤ k := hk.1 _ (by simp [lowerSep, List.getElem?_eq_getElem hj])
          exact ((List.pairwise_cons.1 hs).1 _ (List.getElem_mem hj)).le.trans hjk
      simp [not_lt.2 hsk, ih hs.of_cons (by simpa using hle) hk]

end Bounds

/-! ## Separator chains -/

/-- The separators of an internal node within `[lo, hi)`: with `b = lo :: keys ++ [hi]`, edge `i`
is set, to a child that satisfies `P` within `[b[i], b[i+1])`. -/
def Chain (P : Option K → Option K → Node K → Prop) :
    Option K → List K → List (Option (Node K)) → Option K → Prop
  | lo, [], [some n], hi => P lo hi n
  | lo, s :: ss, some n :: ns, hi => P lo (some s) n ∧ Chain P (some s) ss ns hi
  | _, _, _, _ => False

section Chain
variable {P : Option K → Option K → Node K → Prop} {lo hi : Option K} {keys : List K}
  {edges : List (Option (Node K))}

theorem chain_nil : Chain P lo [] edges hi ↔ ∃ n, edges = [some n] ∧ P lo hi n := by
  rcases edges with _ | ⟨_ | n, _ | ⟨e, es⟩⟩ <;> simp [Chain]

theorem chain_cons {s : K} {ss : List K} :
    Chain P lo (s :: ss) edges hi ↔
      ∃ n ns, edges = some n :: ns ∧ P lo (some s) n ∧ Chain P (some s) ss ns hi := by
  rcases edges with _ | ⟨_ | n, ns⟩ <;> simp [Chain, and_assoc]

theorem Chain.length (h : Chain P lo keys edges hi) : edges.length = keys.length + 1 := by
  induction keys generalizing lo edges with
  | nil => obtain ⟨n, rfl, -⟩ := chain_nil.1 h; rfl
  | cons s ss ih => obtain ⟨n, ns, rfl, -, h⟩ := chain_cons.1 h; simp [ih h]

theorem Chain.append {m : K} {ss : List K} {ns : List (Option (Node K))}
    (h₁ : Chain P lo keys edges (some m)) (h₂ : Chain P (some m) ss ns hi) :
    Chain P lo (keys ++ m :: ss) (edges ++ ns) hi := by
  induction keys generalizing lo edges with
  | nil => obtain ⟨n, rfl, hn⟩ := chain_nil.1 h₁; exact chain_cons.2 ⟨n, ns, rfl, hn, h₂⟩
  | cons t ts ih =>
    obtain ⟨n, ms, rfl, hn, h₁⟩ := chain_cons.1 h₁
    exact chain_cons.2 ⟨n, _, rfl, hn, ih h₁⟩

/-- Cutting a chain at separator `i`, as `split_node` cuts an internal node. -/
theorem Chain.split {i : Nat} {m : K} (h : Chain P lo keys edges hi) (hm : keys[i]? = some m) :
    Chain P lo (keys.take i) (edges.take (i + 1)) (some m) ∧
      Chain P (some m) (keys.drop (i + 1)) (edges.drop (i + 1)) hi := by
  induction keys generalizing lo edges i with
  | nil => simp at hm
  | cons s ss ih =>
    obtain ⟨n, ns, rfl, hn, h⟩ := chain_cons.1 h
    cases i with
    | zero =>
      obtain rfl : s = m := by simpa using hm
      exact ⟨chain_nil.2 ⟨n, rfl, hn⟩, by simpa using h⟩
    | succ i =>
      obtain ⟨h₁, h₂⟩ := ih h (by simpa using hm)
      exact ⟨chain_cons.2 ⟨n, _, rfl, hn, h₁⟩, by simpa using h₂⟩

/-- **Focus** on edge `i`: its child satisfies `P` within the separators around it, and replacing
that edge by any chain within the same bounds keeps the whole chain (the step of `insert`). -/
theorem Chain.focus {i : Nat} (h : Chain P lo keys edges hi) (hle : i ≤ keys.length) :
    ∃ c, edges[i]? = some (some c) ∧ P (lowerSep lo keys i) (upperSep keys hi i) c ∧
      ∀ ts ms, Chain P (lowerSep lo keys i) ts ms (upperSep keys hi i) →
        Chain P lo (keys.take i ++ ts ++ keys.drop i) (edges.take i ++ ms ++ edges.drop (i + 1)) hi := by
  induction keys generalizing lo edges i with
  | nil =>
    obtain ⟨n, rfl, hn⟩ := chain_nil.1 h
    obtain rfl : i = 0 := by simpa using hle
    exact ⟨n, by simp, by simpa using hn, fun ts ms h' => by simpa using h'⟩
  | cons s ss ih =>
    obtain ⟨n, ns, rfl, hn, h⟩ := chain_cons.1 h
    cases i with
    | zero =>
      refine ⟨n, by simp, by simpa using hn, fun ts ms h' => ?_⟩
      simp only [lowerSep_zero, upperSep_cons_zero] at h'
      simpa using h'.append h
    | succ i =>
      obtain ⟨c, hc, hp, hctx⟩ := ih h (by simpa using hle)
      refine ⟨c, by simpa using hc, by simpa using hp, fun ts ms h' => ?_⟩
      simpa using chain_cons.2 ⟨n, _, rfl, hn, hctx ts ms (by simpa using h')⟩

/-- **Window** on the children `a` and `b` at edges `i` and `i + 1`, and the separator `m` between
them: they satisfy `P` on either side of `m`, and replacing the three by any chain within the
separators around the two keeps the whole chain (the step of a merge or a rotation between
siblings). -/
theorem Chain.window {i : Nat} {m : K} {a b : Node K} (h : Chain P lo keys edges hi) (hm : keys[i]? = some m)
    (ha : edges[i]? = some (some a)) (hb : edges[i + 1]? = some (some b)) :
    P (lowerSep lo keys i) (some m) a ∧ P (some m) (upperSep keys hi (i + 1)) b ∧
      ∀ ts ms, Chain P (lowerSep lo keys i) ts ms (upperSep keys hi (i + 1)) →
        Chain P lo (keys.take i ++ ts ++ keys.drop (i + 1)) (edges.take i ++ ms ++ edges.drop (i + 2)) hi := by
  induction keys generalizing lo edges i with
  | nil => simp at hm
  | cons s ss ih =>
    obtain ⟨n, ns, rfl, hn, h⟩ := chain_cons.1 h
    cases i with
    | zero =>
      obtain rfl : s = m := by simpa using hm
      obtain rfl : n = a := by simpa using ha
      cases ss with
      | nil =>
        obtain ⟨b', rfl, hb'⟩ := chain_nil.1 h
        obtain rfl : b' = b := by simpa using hb
        exact ⟨hn, by simpa using hb', fun ts ms h' => by simpa using h'⟩
      | cons t ts' =>
        obtain ⟨b', ns', rfl, hb', h⟩ := chain_cons.1 h
        obtain rfl : b' = b := by simpa using hb
        refine ⟨hn, by simpa using hb', fun ts ms h' => ?_⟩
        simpa using (show Chain P lo ts ms (some t) by simpa using h').append h
    | succ i =>
      obtain ⟨hpa, hpb, hctx⟩ := ih h (by simpa using hm) (by simpa using ha) (by simpa using hb)
      refine ⟨by simpa using hpa, by simpa using hpb, fun ts ms h' => ?_⟩
      simpa using chain_cons.2 ⟨n, _, rfl, hn, hctx ts ms (by simpa using h')⟩

theorem Chain.get {i : Nat} {e : Option (Node K)} (h : Chain P lo keys edges hi) (he : edges[i]? = some e) :
    ∃ c, e = some c ∧ P (lowerSep lo keys i) (upperSep keys hi i) c := by
  have hle : i ≤ keys.length := by
    have := (List.getElem?_eq_some_iff.1 he).1
    rw [h.length] at this
    omega
  obtain ⟨c, hc, hp, -⟩ := h.focus hle
  exact ⟨c, by simpa [hc] using he.symm, hp⟩

theorem Chain.mem {e : Option (Node K)} (h : Chain P lo keys edges hi) (he : e ∈ edges) :
    ∃ c a b, e = some c ∧ P a b c := by
  obtain ⟨i, hi⟩ := List.mem_iff_getElem?.1 he
  obtain ⟨c, rfl, hp⟩ := h.get hi
  exact ⟨c, _, _, rfl, hp⟩

section Ordering
variable (hP : ∀ a b c, P a b c → BoundsLt a b)
include hP

theorem Chain.boundsLt (h : Chain P lo keys edges hi) : BoundsLt lo hi := by
  induction keys generalizing lo edges with
  | nil => obtain ⟨n, rfl, hn⟩ := chain_nil.1 h; exact hP _ _ _ hn
  | cons s ss ih => obtain ⟨n, ns, rfl, hn, h⟩ := chain_cons.1 h; exact (hP _ _ _ hn).trans (ih h)

theorem Chain.lt_of_mem {k : K} (h : Chain P lo keys edges hi) (hk : k ∈ keys) :
    BoundsLt lo (some k) ∧ BoundsLt (some k) hi := by
  induction keys generalizing lo edges with
  | nil => simp at hk
  | cons s ss ih =>
    obtain ⟨n, ns, rfl, hn, h⟩ := chain_cons.1 h
    rcases List.mem_cons.1 hk with rfl | hk
    · exact ⟨hP _ _ _ hn, h.boundsLt hP⟩
    · obtain ⟨h₁, h₂⟩ := ih h hk
      exact ⟨(hP _ _ _ hn).trans h₁, h₂⟩

theorem Chain.sorted (h : Chain P lo keys edges hi) : keys.Pairwise (· < ·) := by
  induction keys generalizing lo edges with
  | nil => exact .nil
  | cons s ss ih =>
    obtain ⟨n, ns, rfl, -, h⟩ := chain_cons.1 h
    exact .cons (fun k hk => (h.lt_of_mem hP hk).1 s rfl k rfl) (ih h)

end Ordering

/-- The start keys below a chain are sorted and within its bounds when those below each child are
within the child's. -/
theorem Chain.startKeys (hP : ∀ a b c, P a b c → BoundsLt a b ∧
      (c.leaves.flatMap LeafNode.startKeys).Pairwise (· < ·) ∧
      ∀ k ∈ c.leaves.flatMap LeafNode.startKeys, InBounds a b k)
    (h : Chain P lo keys edges hi) :
    ((Node.edgeLeaves edges).flatMap LeafNode.startKeys).Pairwise (· < ·) ∧
      ∀ k ∈ (Node.edgeLeaves edges).flatMap LeafNode.startKeys, InBounds lo hi k := by
  induction keys generalizing lo edges with
  | nil => obtain ⟨n, rfl, hn⟩ := chain_nil.1 h; simpa [Node.edgeLeaves] using (hP _ _ _ hn).2
  | cons s ss ih =>
    obtain ⟨n, ns, rfl, hn, h⟩ := chain_cons.1 h
    obtain ⟨hlt, hsorted, hbounds⟩ := hP _ _ _ hn
    obtain ⟨hsorted', hbounds'⟩ := ih h
    have hhi : BoundsLt (some s) hi := h.boundsLt fun a b c hc => (hP a b c hc).1
    simp only [Node.edgeLeaves, List.flatMap_append, List.pairwise_append, List.mem_append]
    refine ⟨⟨hsorted, hsorted', fun a ha b hb => (hbounds a ha).lt_upper.trans_le (hbounds' b hb).lower_le⟩, ?_⟩
    rintro k (hk | hk)
    · exact (hbounds k hk).widen_hi hhi
    · exact (hbounds' k hk).widen_lo hlt

end Chain

/-! ## The shape `insert` keeps -/

/-- See the module doc: leaves at depth `h`, internal nodes with a key and one more edge than keys,
and the occupancy bounds, relaxed at the root. -/
def Shaped (order : Nat) (isRoot : Bool) : Nat → Node K → Prop
  | 0, .leaf l => l.startKeys.length = l.endKeys.length ∧ l.startKeys.length < order ∧
      (isRoot = false → order / 2 ≤ l.startKeys.length)
  | h + 1, .internal keys edges => keys ≠ [] ∧ keys.length < order ∧
      (isRoot = false → (order - 1) / 2 ≤ keys.length) ∧ edges.length = keys.length + 1 ∧
      ∀ e ∈ edges, ∃ c, e = some c ∧ Shaped order false h c
  | _, _ => False

/-- A node other than the root holds at least `order / 2` start keys (a leaf) or `(order - 1) / 2`
separators (an internal node), and fewer than `order`. -/
def Occupied (order : Nat) : Node K → Prop
  | .leaf l => order / 2 ≤ l.startKeys.length ∧ l.startKeys.length < order
  | .internal keys _ => (order - 1) / 2 ≤ keys.length ∧ keys.length < order

section Shaped
variable {order : Nat}

theorem Shaped.getKeys_lt : ∀ {h : Nat} {isRoot : Bool} {n : Node K},
    Shaped order isRoot h n → n.getKeys.length < order
  | 0, _, .leaf _, hn => hn.2.1
  | _ + 1, _, .internal _ _, hn => hn.2.1
  | 0, _, .internal _ _, hn => hn.elim
  | _ + 1, _, .leaf _, hn => hn.elim

theorem Shaped.occupied : ∀ {h : Nat} {n : Node K}, Shaped order false h n → Occupied order n
  | 0, .leaf _, hn => ⟨hn.2.2 rfl, hn.2.1⟩
  | _ + 1, .internal _ _, hn => ⟨hn.2.2.1 rfl, hn.2.1⟩
  | 0, .internal _ _, hn => hn.elim
  | _ + 1, .leaf _, hn => hn.elim

/-- Every node below a shaped node is a shaped node other than the root. -/
theorem Shaped.descendants : ∀ {h : Nat} {isRoot : Bool} {n : Node K}, Shaped order isRoot h n →
    ∀ m ∈ n.descendants, ∃ h', Shaped order false h' m
  | 0, _, .leaf _, _ => by simp [Node.descendants]
  | h + 1, _, .internal _ edges, hn => by
    intro m hm
    obtain ⟨c, hc, hm⟩ := Node.mem_edgeNodes.1 hm
    obtain ⟨c', hc', hs⟩ := hn.2.2.2.2 _ hc
    cases hc'
    rw [Node.nodes_eq_cons] at hm
    rcases List.mem_cons.1 hm with rfl | hm
    · exact ⟨h, hs⟩
    · exact hs.descendants m hm
  | 0, _, .internal _ _, hn => hn.elim
  | _ + 1, _, .leaf _, hn => hn.elim

theorem Shaped.nodes {h : Nat} {isRoot : Bool} {n : Node K} (hn : Shaped order isRoot h n) :
    ∀ m ∈ n.nodes, ∃ isRoot' h', Shaped order isRoot' h' m := by
  intro m hm
  rw [Node.nodes_eq_cons] at hm
  rcases List.mem_cons.1 hm with rfl | hm
  · exact ⟨isRoot, h, hn⟩
  · obtain ⟨h', hs⟩ := hn.descendants m hm
    exact ⟨false, h', hs⟩

theorem Shaped.leafDepths : ∀ {h : Nat} {isRoot : Bool} {n : Node K}, Shaped order isRoot h n →
    ∀ d ∈ n.leafDepths, d = h
  | 0, _, .leaf _, _ => by simp [Node.leafDepths]
  | h + 1, _, .internal _ edges, hn => by
    intro d hd
    simp only [Node.leafDepths, List.mem_map] at hd
    obtain ⟨d, hd, rfl⟩ := hd
    obtain ⟨c, hc, hd⟩ := Node.mem_edgeLeafDepths.1 hd
    obtain ⟨c', hc', hs⟩ := hn.2.2.2.2 _ hc
    cases hc'
    rw [hs.leafDepths d hd]
  | 0, _, .internal _ _, hn => hn.elim
  | _ + 1, _, .leaf _, hn => hn.elim

theorem Shaped.leaves : ∀ {h : Nat} {isRoot : Bool} {n : Node K}, Shaped order isRoot h n →
    ∀ l ∈ n.leaves, Node.leaf l ∈ n.nodes ∧ l.startKeys.length = l.endKeys.length
  | 0, _, .leaf _, hn => by simpa [Node.leaves, Node.nodes] using hn.1
  | h + 1, _, .internal _ edges, hn => by
    intro l hl
    obtain ⟨c, hc, hl⟩ := Node.mem_edgeLeaves.1 hl
    obtain ⟨c', hc', hs⟩ := hn.2.2.2.2 _ hc
    cases hc'
    obtain ⟨hmem, hlen⟩ := hs.leaves l hl
    exact ⟨List.mem_cons_of_mem _ (Node.mem_edgeNodes.2 ⟨c, hc, hmem⟩), hlen⟩
  | 0, _, .internal _ _, hn => hn.elim
  | _ + 1, _, .leaf _, hn => hn.elim

end Shaped

/-! ## The order `insert` keeps -/

/-- See the module doc: sorted start keys within `[lo, hi)`, and a separator chain at each internal
node. -/
def Ordered : Nat → Option K → Option K → Node K → Prop
  | 0, lo, hi, .leaf l => BoundsLt lo hi ∧ l.startKeys.Pairwise (· < ·) ∧ ∀ k ∈ l.startKeys, InBounds lo hi k
  | h + 1, lo, hi, .internal keys edges => Chain (Ordered h) lo keys edges hi
  | _, _, _, _ => False

section Ordered

theorem Ordered.boundsLt : ∀ {h : Nat} {lo hi : Option K} {n : Node K}, Ordered h lo hi n → BoundsLt lo hi
  | 0, _, _, .leaf _, hn => hn.1
  | _ + 1, _, _, .internal _ _, hn => Chain.boundsLt (fun _ _ _ hc => hc.boundsLt) hn
  | 0, _, _, .internal _ _, hn => hn.elim
  | _ + 1, _, _, .leaf _, hn => hn.elim

/-- The start keys below an ordered node, read left to right, are sorted and within its bounds. -/
theorem Ordered.startKeys : ∀ {h : Nat} {lo hi : Option K} {n : Node K}, Ordered h lo hi n →
    (n.leaves.flatMap LeafNode.startKeys).Pairwise (· < ·) ∧
      ∀ k ∈ n.leaves.flatMap LeafNode.startKeys, InBounds lo hi k
  | 0, _, _, .leaf _, hn => by simpa [Node.leaves] using hn.2
  | _ + 1, _, _, .internal _ _, hn =>
    Chain.startKeys (fun _ _ _ hc => ⟨hc.boundsLt, hc.startKeys⟩) hn
  | 0, _, _, .internal _ _, hn => hn.elim
  | _ + 1, _, _, .leaf _, hn => hn.elim

theorem Ordered.nodes : ∀ {h : Nat} {lo hi : Option K} {n : Node K}, Ordered h lo hi n →
    ∀ m ∈ n.nodes, ∃ h' lo' hi', Ordered h' lo' hi' m
  | 0, _, _, .leaf _, hn => by simpa [Node.nodes] using ⟨_, _, _, hn⟩
  | h + 1, lo, hi, .internal keys edges, hn => by
    intro m hm
    rcases List.mem_cons.1 hm with rfl | hm
    · exact ⟨h + 1, lo, hi, hn⟩
    · obtain ⟨c, hc, hm⟩ := Node.mem_edgeNodes.1 hm
      obtain ⟨c', a, b, hc', ho⟩ := Chain.mem hn hc
      cases hc'
      exact ho.nodes m hm
  | 0, _, _, .internal _ _, hn => hn.elim
  | _ + 1, _, _, .leaf _, hn => hn.elim

end Ordered

/-! ## The invariant as the `InternalNode` comments state it -/

/-- Every start key stored below `edges[i]` of an internal node lies in `[keys[i-1], keys[i])`, a
missing separator bounding nothing: the `InternalNode` comment's rule that `find_leaf_to_delete`
and `find_leaf_to_add` rely on. -/
def SeparatorBounds (root : Node K) : Prop :=
  ∀ keys edges, Node.internal keys edges ∈ root.nodes → ∀ i c, edges[i]? = some (some c) →
    ∀ l ∈ c.leaves, ∀ k ∈ l.startKeys, InBounds (lowerSep none keys i) (upperSep keys none i) k

/-- At order 4, with spans `[k, k + 1)` for `k = 1, ..., 11`, deleting 7 empties nothing but
underflows the leaf `[7, 8]`; it borrows 9 from its right sibling, and the root separator, which was
7, becomes the borrowed 9 while the leaf still holds 8. The 8 then lies right of a separator above
it. -/
theorem delete_breaks_separator_bounds :
    ∃ t : BTree Nat, InsertRun 4 ((List.range' 1 11).map fun k => ⟨k, k + 1⟩) t ∧
      ∀ fuel, 3 ≤ fuel → ∃ t' root, t.delete fuel 7 = .ok t' ∧ t'.root = some root ∧ ¬ SeparatorBounds root := by
  refine ⟨_, (insertRun_order_four_one_to_ten.insertAll 3 rfl :
    InsertRun 4 ((List.range' 1 10).map (fun k => ⟨k, k + 1⟩) ++ [⟨11, 12⟩])
      ⟨some (.internal [7] [some (.internal [3, 5] [some (.leaf ⟨0, [1, 2], [2, 3], none, some 1⟩),
        some (.leaf ⟨1, [3, 4], [4, 5], some 0, some 2⟩), some (.leaf ⟨2, [5, 6], [6, 7], some 1, some 3⟩)]),
        some (.internal [9] [some (.leaf ⟨3, [7, 8], [8, 9], some 2, some 4⟩),
          some (.leaf ⟨4, [9, 10, 11], [10, 11, 12], some 3, none⟩)])]), 4⟩), fun fuel hf => ?_⟩
  obtain ⟨f, rfl⟩ : ∃ f, fuel = f + 3 := ⟨fuel - 3, by omega⟩
  refine ⟨⟨some (.internal [9] [some (.internal [3, 5] [some (.leaf ⟨0, [1, 2], [2, 3], none, some 1⟩),
      some (.leaf ⟨1, [3, 4], [4, 5], some 0, some 2⟩), some (.leaf ⟨2, [5, 6], [6, 7], some 1, some 3⟩)]),
      some (.internal [10] [some (.leaf ⟨3, [8, 9], [9, 10], some 2, some 4⟩),
        some (.leaf ⟨4, [10, 11], [11, 12], some 3, none⟩)])]), 4⟩, _, rfl, rfl, fun hsep => ?_⟩
  have h98 := (hsep [9] _ (List.mem_cons_self _ _) 1 _ rfl ⟨3, [8, 9], [9, 10], some 2, some 4⟩
    (by simp [Node.leaves, Node.edgeLeaves]) 8 (by simp)).1 9 (by simp [lowerSep])
  omega

/-- The B+-tree invariant of a tree whose root is `root`, holding the spans `ranges`. -/
structure BPlusInvariant (order : Nat) (root : Node K) (ranges : List (Range K)) : Prop where
  /-- Every internal node has a key, and one more edge than keys, all of them set. -/
  internal_edges : ∀ keys edges, Node.internal keys edges ∈ root.nodes →
    keys ≠ [] ∧ edges.length = keys.length + 1 ∧ ∀ e ∈ edges, e.isSome
  /-- The keys of an internal node strictly increase. -/
  keys_sorted : ∀ keys edges, Node.internal keys edges ∈ root.nodes → keys.Pairwise (· < ·)
  separators : SeparatorBounds root
  /-- All leaves are at the same depth. -/
  balanced : ∃ h, ∀ d ∈ root.leafDepths, d = h
  /-- Each leaf's start keys are sorted and as many as its end keys. -/
  leaves_sorted : ∀ l ∈ root.leaves, l.startKeys.Pairwise (· < ·) ∧ l.startKeys.length = l.endKeys.length
  /-- Every node has fewer than `order` keys. -/
  capacity : ∀ n ∈ root.nodes, n.getKeys.length < order
  /-- The leaves hold exactly the spans, each once ... -/
  entries_perm : root.entries.Perm (ranges.map fun r => (r.startKey, r.endKey))
  /-- ... sorted by start key. -/
  entries_sorted : root.entries.Pairwise (fun a b => a.1 < b.1)

theorem Ordered.separatorBounds {h : Nat} {lo hi : Option K} {root : Node K} (ho : Ordered h lo hi root) :
    SeparatorBounds root := by
  intro keys edges hmem i c hc l hl k hk
  obtain ⟨h', lo', hi', hn⟩ := ho.nodes _ hmem
  obtain ⟨h', rfl⟩ : ∃ h'', h' = h'' + 1 := by cases h' with | zero => exact hn.elim | succ h'' => exact ⟨h'', rfl⟩
  obtain ⟨c', hc', hoc⟩ := Chain.get hn hc
  cases hc'
  have hb := hoc.startKeys.2 k (List.mem_flatMap.2 ⟨l, hl, hk⟩)
  refine ⟨fun a ha => hb.1 a ?_, fun b hb' => hb.2 b ?_⟩
  · cases i <;> simp_all [lowerSep]
  · simp only [upperSep] at hb' ⊢
    cases hki : keys[i]? <;> simp_all

/-- The two invariants `insert` keeps, with the spans read off the leaves, give the B+-tree
invariant. -/
theorem bPlusInvariant_of {order h : Nat} {root : Node K} {ranges : List (Range K)}
    (hs : Shaped order true h root) (ho : Ordered h none none root)
    (hp : root.entries.Perm (ranges.map fun r => (r.startKey, r.endKey))) :
    BPlusInvariant order root ranges := by
  have hfst : root.entries.map Prod.fst = root.leaves.flatMap LeafNode.startKeys := by
    simp only [Node.entries, List.map_flatMap, LeafNode.entries]
    exact List.flatMap_congr fun l hl => List.map_fst_zip _ _ (hs.leaves l hl).2.le
  refine ⟨fun keys edges hmem => ?_, fun keys edges hmem => ?_, ho.separatorBounds, ⟨h, hs.leafDepths⟩,
    fun l hl => ?_, fun n hn => ?_, hp, ?_⟩
  · obtain ⟨r, h', hn⟩ := hs.nodes _ hmem
    cases h' with
    | zero => exact hn.elim
    | succ h' =>
      refine ⟨hn.1, hn.2.2.2.1, fun e he => ?_⟩
      obtain ⟨c, rfl, -⟩ := hn.2.2.2.2 e he
      rfl
  · obtain ⟨h', lo', hi', hn⟩ := ho.nodes _ hmem
    cases h' with
    | zero => exact hn.elim
    | succ h' => exact Chain.sorted (fun _ _ _ hc => hc.boundsLt) hn
  · obtain ⟨hmem, hlen⟩ := hs.leaves l hl
    obtain ⟨h', lo', hi', hn⟩ := ho.nodes _ hmem
    cases h' with
    | zero => exact ⟨hn.2.1, hlen⟩
    | succ h' => exact hn.elim
  · obtain ⟨r, h', hn⟩ := hs.nodes n hn
    exact hn.getKeys_lt
  · have hsorted := ho.startKeys.1
    rwa [← hfst, List.pairwise_map] at hsorted

/-- (i) at a node: an internal node has a key, and one more edge than keys, all of them set. -/
def Node.EdgesSet : Node K → Prop
  | .internal keys edges => keys ≠ [] ∧ edges.length = keys.length + 1 ∧ ∀ e ∈ edges, e.isSome
  | .leaf _ => True

/-- (ii) at a node: the keys of an internal node strictly increase. -/
def Node.KeysIncrease : Node K → Prop
  | .internal keys _ => keys.Pairwise (· < ·)
  | .leaf _ => True

/-- (iii) at a node: the start keys below each edge of an internal node lie between the separators
around the edge. -/
def Node.SeparatorsBound : Node K → Prop
  | .internal keys edges => ∀ e ∈ edges.enum, ∀ c ∈ e.2, ∀ l ∈ c.leaves, ∀ k ∈ l.startKeys,
      InBounds (lowerSep none keys e.1) (upperSep keys none e.1) k
  | .leaf _ => True

/-- (i) below `root`. -/
def InternalEdges (root : Node K) : Prop := ∀ n ∈ root.nodes, n.EdgesSet

/-- (ii) below `root`. -/
def KeysSorted (root : Node K) : Prop := ∀ n ∈ root.nodes, n.KeysIncrease

/-- Invariants (i)-(v) of the B+-tree invariant, those that involve neither `order` nor the spans
held: what the descents and the repairs of an underflowing node rely on. -/
structure StructuralInvariant (root : Node K) : Prop where
  internal_edges : InternalEdges root
  keys_sorted : KeysSorted root
  separators : SeparatorBounds root
  /-- All leaves are at the same depth. -/
  balanced : ∃ h, ∀ d ∈ root.leafDepths, d = h
  /-- Each leaf's start keys are sorted and as many as its end keys. -/
  leaves_sorted : ∀ l ∈ root.leaves, l.startKeys.Pairwise (· < ·) ∧ l.startKeys.length = l.endKeys.length

theorem separatorBounds_iff {root : Node K} : SeparatorBounds root ↔ ∀ n ∈ root.nodes, n.SeparatorsBound := by
  constructor
  · rintro h (_ | _) hn
    · rintro ⟨i, e⟩ he c rfl
      exact h _ _ hn i c (List.mem_enum_iff_getElem?.1 he)
    · trivial
  · intro h keys edges hn i c hc
    exact h _ hn (i, some c) (List.mem_enum_iff_getElem?.2 hc) c rfl

theorem balanced_iff {ds : List Nat} : (∃ h, ∀ d ∈ ds, d = h) ↔ ∀ d ∈ ds, d = ds.headD 0 := by
  refine ⟨fun ⟨h, hd⟩ d hm => ?_, fun hd => ⟨_, hd⟩⟩
  cases ds with
  | nil => simp at hm
  | cons d' ds => rw [hd d hm, List.headD_cons, hd d' (List.mem_cons_self _ _)]

theorem structuralInvariant_iff {root : Node K} : StructuralInvariant root ↔
    (∀ n ∈ root.nodes, n.EdgesSet) ∧ (∀ n ∈ root.nodes, n.KeysIncrease) ∧ (∀ n ∈ root.nodes, n.SeparatorsBound) ∧
      (∀ d ∈ root.leafDepths, d = root.leafDepths.headD 0) ∧
      ∀ l ∈ root.leaves, l.startKeys.Pairwise (· < ·) ∧ l.startKeys.length = l.endKeys.length := by
  rw [← separatorBounds_iff, ← balanced_iff]
  exact ⟨fun ⟨a, b, c, d, e⟩ => ⟨a, b, c, d, e⟩, fun ⟨a, b, c, d, e⟩ => ⟨a, b, c, d, e⟩⟩

instance (n : Node K) : Decidable n.EdgesSet :=
  match n with
  | .internal _ _ => inferInstanceAs (Decidable (_ ∧ _))
  | .leaf _ => instDecidableTrue

instance (n : Node K) : Decidable n.KeysIncrease :=
  match n with
  | .internal keys _ => inferInstanceAs (Decidable (keys.Pairwise _))
  | .leaf _ => instDecidableTrue

instance (lo hi : Option K) (k : K) : Decidable (InBounds lo hi k) := inferInstanceAs (Decidable (_ ∧ _))

instance (lo hi : Option K) : Decidable (BoundsLt lo hi) := inferInstanceAs (Decidable (∀ a ∈ lo, _))

instance Chain.instDecidable {P : Option K → Option K → Node K → Prop} [∀ a b n, Decidable (P a b n)] :
    ∀ lo keys edges hi, Decidable (Chain P lo keys edges hi)
  | lo, [], [some n], hi => inferInstanceAs (Decidable (P lo hi n))
  | lo, s :: ss, some n :: ns, hi =>
    have : Decidable (Chain P (some s) ss ns hi) := Chain.instDecidable (some s) ss ns hi
    inferInstanceAs (Decidable (P lo (some s) n ∧ Chain P (some s) ss ns hi))
  | _, [], [], _ | _, [], none :: _, _ | _, [], some _ :: _ :: _, _ | _, _ :: _, [], _
  | _, _ :: _, none :: _, _ => isFalse id

instance Ordered.instDecidable : ∀ h lo hi (n : Node K), Decidable (Ordered h lo hi n)
  | 0, lo, hi, .leaf _ => inferInstanceAs (Decidable (BoundsLt lo hi ∧ _ ∧ _))
  | h + 1, lo, hi, .internal keys edges =>
    have := Ordered.instDecidable h
    inferInstanceAs (Decidable (Chain (Ordered h) lo keys edges hi))
  | 0, _, _, .internal _ _ | _ + 1, _, _, .leaf _ => isFalse id

instance (n : Node K) : Decidable n.SeparatorsBound :=
  match n with
  | .internal _ _ => inferInstanceAs (Decidable (∀ e ∈ _, _))
  | .leaf _ => instDecidableTrue

instance (root : Node K) : Decidable (StructuralInvariant root) :=
  decidable_of_iff _ structuralInvariant_iff.symm

theorem BPlusInvariant.structural {order : Nat} {root : Node K} {ranges : List (Range K)}
    (h : BPlusInvariant order root ranges) : StructuralInvariant root := by
  refine ⟨fun n hn => ?_, fun n hn => ?_, h.separators, h.balanced, h.leaves_sorted⟩
  · cases n with
    | internal keys edges => exact h.internal_edges keys edges hn
    | leaf => trivial
  · cases n with
    | internal keys edges => exact h.keys_sorted keys edges hn
    | leaf => trivial

section Child
variable {keys : List K} {edges : List (Option (Node K))} {c : Node K}

theorem InternalEdges.child (h : InternalEdges (.internal keys edges)) (hc : some c ∈ edges) : InternalEdges c :=
  fun m hm => h m (Node.mem_nodes_of_child hc hm)

theorem KeysSorted.child (h : KeysSorted (.internal keys edges)) (hc : some c ∈ edges) : KeysSorted c :=
  fun m hm => h m (Node.mem_nodes_of_child hc hm)

end Child

/-! ## The leaf chain -/

/-- The `(left_ptr, right_ptr)` of each of the leaves at `addrs`, left to right, when they form a
doubly linked list whose first leaf follows `prev`. -/
def chainLinks (prev : Option Nat) : List Nat → List (Option Nat × Option Nat)
  | [] => []
  | [_] => [(prev, none)]
  | a :: b :: rest => (prev, some b) :: chainLinks (some a) (b :: rest)

/-- The leaves, left to right, are a doubly linked list: addresses name one leaf each, `right_ptr`
leads from each leaf to the next and ends at `None`, and `left_ptr` leads back. -/
def LeafChainLinked (leaves : List (LeafNode K)) : Prop :=
  (leaves.map LeafNode.addr).Nodup ∧
    leaves.map (fun l => (l.leftPtr, l.rightPtr)) = chainLinks none (leaves.map LeafNode.addr)

instance (leaves : List (LeafNode K)) : Decidable (LeafChainLinked leaves) :=
  inferInstanceAs (Decidable (_ ∧ _))

/-- At order 3, spans at 5, 10, 20, 1 and 6: the leaf `[1, 5]` splits while it has a right
neighbour, and that neighbour's `left_ptr` still names it instead of the new leaf. -/
theorem split_leaves_stale_left_ptr :
    ∃ t : BTree Nat, InsertRun 3 [⟨5, 6⟩, ⟨10, 11⟩, ⟨20, 21⟩, ⟨1, 2⟩, ⟨6, 7⟩] t ∧
      ∃ root, t.root = some root ∧ ¬ LeafChainLinked root.leaves :=
  ⟨_, insertRun_five_spans, _, rfl, by decide⟩

end LittleKeyValueDb.LatchManager
