import LittleKeyValueDb.LatchManager.Descent
import LittleKeyValueDb.LatchManager.Insert
import LittleKeyValueDb.LatchManager.Delete

/-! # Finding and deleting a span

With invariants (i)-(iii), the start key `k` of a span lies, at each internal node, between the
separators of the one edge towards the span's leaf, and that is the edge the route of `k` takes.
So the route's leaf is the only leaf with a span starting at `k` (`Route.leaf_of_mem`), and both
descents for `k` reach it, given more fuel than the route is long. `find_leaf_to_delete` returns
only with that much fuel (`findLeafToDeleteLoop_fuel`).

On every tree `insert` builds with distinct start keys this gives the lookup round trip: the leaf
both descents reach for an inserted span's start key holds that span (`insert_run_lookup`). A
`delete k` that returns removes exactly the span inserted with start key `k`, or, when no span was
inserted with start key `k`, leaves the tree as it was (`insert_run_delete`).
-/

namespace LittleKeyValueDb.LatchManager
set_option autoImplicit false
set_option linter.unusedSectionVars false

variable {K : Type} [LinearOrder K]

section Route
variable {k : K}

theorem Route.leaf_of_mem {n : Node K} {r : List (Nat × Node K)} {l : LeafNode K} (he : InternalEdges n)
    (hs : KeysSorted n) (hsep : ∀ m ∈ n.nodes, m.SeparatorsBound) (h : Route k n r l) :
    ∀ l' ∈ n.leaves, k ∈ l'.startKeys → l' = l := by
  induction h with
  | leaf l =>
    intro l' hl' _
    simpa [Node.leaves] using hl'
  | @internal keys edges i c r l hc hb _ ih =>
    intro l' hl' hk
    obtain ⟨c', hc', hl'c⟩ := Node.mem_edgeLeaves.1 (by simpa [Node.leaves] using hl')
    obtain ⟨j, hj⟩ := List.mem_iff_getElem?.1 hc'
    have hbj : InBounds (lowerSep none keys j) (upperSep keys none j) k :=
      hsep _ (List.mem_cons_self _ _) (j, some c') (List.mem_enum_iff_getElem?.2 hj) c' rfl l' hl'c k hk
    obtain rfl : j = i := (keyIndex_eq_of_route he hs hj hbj).symm.trans (keyIndex_eq_of_route he hs hc hb)
    obtain rfl : c' = c := Option.some.inj (Option.some.inj (hj.symm.trans hc))
    exact ih (he.child hc') (hs.child hc') (fun m hm => hsep m (Node.mem_nodes_of_child hc' hm)) l' hl'c hk

theorem findLeafToDeleteLoop_fuel {n : Node K} {r : List (Nat × Node K)} {l : LeafNode K} (he : InternalEdges n)
    (hs : KeysSorted n) (h : Route k n r l) :
    ∀ {fuel : Nat} {next : Option (Node K)} {stack : List (Nat × Direction × Node K)}
      {x : Option (Node K) × List (Nat × Direction × Node K)},
      findLeafToDeleteLoop k fuel (some n) next stack = .ok x → r.length < fuel := by
  induction h with
  | leaf l =>
    intro fuel next stack x hx
    cases fuel
    · simp [findLeafToDeleteLoop] at hx
    · simp
  | internal hc hb _ ih =>
    intro fuel next stack x hx
    cases fuel with
    | zero => simp [findLeafToDeleteLoop] at hx
    | succ fuel =>
      have hcm := List.mem_iff_getElem?.2 ⟨_, hc⟩
      rw [findLeafToDeleteLoop_internal (he _ (List.mem_cons_self _ _)).1
        (by rwa [keyIndex_eq_of_route he hs hc hb])] at hx
      simpa using ih (he.child hcm) (hs.child hcm) hx

theorem Route.length_mem_leafDepths {n : Node K} {r : List (Nat × Node K)} {l : LeafNode K} (h : Route k n r l) :
    r.length ∈ n.leafDepths := by
  induction h with
  | leaf => simp [Node.leafDepths]
  | internal hc _ _ ih =>
    simp only [Node.leafDepths, List.length_cons, List.mem_map]
    exact ⟨_, Node.mem_edgeLeafDepths.2 ⟨_, List.mem_iff_getElem?.2 ⟨_, hc⟩, ih⟩, rfl⟩

end Route

/-! ## Lookup -/

/-- **Lookup.** On a tree with invariants (i)-(v), for a span `(k, e)` the tree holds, there is a leaf
that holds it and is the only leaf with a span starting at `k`; both descents for `k` reach that
leaf given more fuel than the route of `k` is long, which is the depth of a leaf, and
`find_leaf_to_delete` returns only with such fuel. -/
theorem lookup_of_structural (t : BTree K) (root : Node K) (hroot : t.root = some root)
    (hinv : StructuralInvariant root) {k e : K} (hke : (k, e) ∈ root.entries) :
    ∃ (r : List (Nat × Node K)) (l : LeafNode K), r.length ∈ root.leafDepths ∧ (k, e) ∈ l.entries ∧
      (∀ l' ∈ root.leaves, k ∈ l'.startKeys → l' = l) ∧
      (∀ fuel x, t.findLeafToDelete fuel k = .ok x → r.length < fuel) ∧
      ∀ fuel, r.length < fuel → t.findLeafToAdd fuel k = .ok (some (.leaf l), r.map (·.2)) ∧
        ∃ stack, t.findLeafToDelete fuel k = .ok (some (.leaf l), stack) := by
  obtain ⟨r, l, hr⟩ := Route.exists_of_internalEdges k root hinv.internal_edges
  have hleaf := hr.leaf_of_mem hinv.internal_edges hinv.keys_sorted (separatorBounds_iff.1 hinv.separators)
  obtain ⟨l', hl', hke'⟩ := List.mem_flatMap.1 hke
  obtain rfl := hleaf l' hl' (List.of_mem_zip hke').1
  refine ⟨r, l', hr.length_mem_leafDepths, hke', hleaf, fun fuel x hx => ?_, fun fuel hf => ⟨?_, ?_⟩⟩
  · rw [BTree.findLeafToDelete, hroot] at hx
    exact findLeafToDeleteLoop_fuel hinv.internal_edges hinv.keys_sorted hr hx
  · simpa [BTree.findLeafToAdd, hroot] using (findLeafToAddLoop_route hinv.internal_edges hinv.keys_sorted hr hf :
      findLeafToAddLoop k fuel (some root) none [] = _)
  · exact ⟨_, by simpa [BTree.findLeafToDelete, hroot] using (findLeafToDeleteLoop_route hinv.internal_edges
      hinv.keys_sorted hr hf : findLeafToDeleteLoop k fuel (some root) none [] = _)⟩

/-! ## On the trees `insert` builds -/

section InsertRun
variable {order : Nat} {rs : List (Range K)} {t : BTree K}

theorem InsertRun.structural (h3 : 3 ≤ order) (hrun : InsertRun order rs t) (hd : (rs.map (·.startKey)).Nodup) :
    ∃ root, t.root = some root ∧ StructuralInvariant root ∧ root.spans = (rangePairs rs : Multiset (K × K)) := by
  obtain ⟨root, h, hroot, -, hs, ho⟩ := hrun.ordered h3 hd
  have hsp := (BTree.spans_eq hroot).symm.trans hrun.spans
  exact ⟨root, hroot, (bPlusInvariant_of hs ho (Multiset.coe_eq_coe.1 hsp)).structural, hsp⟩

theorem mem_entries_of_mem_rangePairs {root : Node K} {p : K × K}
    (hsp : root.spans = (rangePairs rs : Multiset (K × K))) (hp : p ∈ rangePairs rs) : p ∈ root.entries := by
  have : p ∈ root.spans := by rw [hsp]; exact Multiset.mem_coe.2 hp
  exact Multiset.mem_coe.1 this

/-- **Insert, then find.** From order 3 on, on every tree a run of `insert` with distinct start keys
builds, with all leaves at depth `h`, for each span inserted, both descents for its start key reach
one leaf given more fuel than `h`, and that leaf holds the span; `find_leaf_to_delete` returns only
with more fuel than `h`. -/
theorem insert_run_lookup (order : Nat) (h3 : 3 ≤ order) (rs : List (Range K)) (hd : (rs.map (·.startKey)).Nodup)
    (t : BTree K) (hrun : InsertRun order rs t) (range : Range K) (hr : range ∈ rs) :
    ∃ root h l, t.root = some root ∧ (∀ d ∈ root.leafDepths, d = h) ∧ (range.startKey, range.endKey) ∈ l.entries ∧
      (∀ fuel x, t.findLeafToDelete fuel range.startKey = .ok x → h < fuel) ∧
      ∀ fuel, h < fuel → (∃ stack, t.findLeafToAdd fuel range.startKey = .ok (some (.leaf l), stack)) ∧
        ∃ stack, t.findLeafToDelete fuel range.startKey = .ok (some (.leaf l), stack) := by
  obtain ⟨root, hroot, hinv, hsp⟩ := hrun.structural h3 hd
  obtain ⟨h, hdepth⟩ := hinv.balanced
  obtain ⟨r, l, hrd, hke, -, hfuel, hdesc⟩ := lookup_of_structural t root hroot hinv
    (mem_entries_of_mem_rangePairs hsp (List.mem_map_of_mem _ hr))
  obtain rfl := hdepth _ hrd
  exact ⟨root, _, l, hroot, hdepth, hke, hfuel, fun fuel hf => ⟨⟨_, (hdesc fuel hf).1⟩, (hdesc fuel hf).2⟩⟩

theorem insert_run_lookup_three_spans :
    3 ≤ 3 ∧ (([⟨5, 6⟩, ⟨10, 11⟩, ⟨20, 21⟩] : List (Range Nat)).map (·.startKey)).Nodup ∧
      InsertRun 3 [⟨5, 6⟩, ⟨10, 11⟩, ⟨20, 21⟩] threeSpansTree ∧
      (⟨20, 21⟩ : Range Nat) ∈ ([⟨5, 6⟩, ⟨10, 11⟩, ⟨20, 21⟩] : List (Range Nat)) ∧
      ∃ (root : Node Nat) (h : Nat) (l : LeafNode Nat), threeSpansTree.root = some root ∧ (∀ d ∈ root.leafDepths, d = h) ∧
        (20, 21) ∈ l.entries ∧ (∀ fuel x, threeSpansTree.findLeafToDelete fuel 20 = .ok x → h < fuel) ∧
        ∀ fuel, h < fuel → (∃ stack, threeSpansTree.findLeafToAdd fuel 20 = .ok (some (.leaf l), stack)) ∧
          ∃ stack, threeSpansTree.findLeafToDelete fuel 20 = .ok (some (.leaf l), stack) :=
  ⟨le_rfl, by decide, insertRun_three_spans, by decide,
    insert_run_lookup 3 le_rfl _ (by decide) _ insertRun_three_spans ⟨20, 21⟩ (by decide)⟩

/-- **Insert, then delete.** From order 3 on, on every tree a run of `insert` with distinct start
keys builds, a `delete k` that returns removes exactly the span inserted with start key `k`, and,
when no span was inserted with start key `k`, leaves the tree as it was. -/
theorem insert_run_delete (order : Nat) (h3 : 3 ≤ order) (rs : List (Range K)) (hd : (rs.map (·.startKey)).Nodup)
    (t : BTree K) (hrun : InsertRun order rs t) (key : K) (fuel : Nat) (t' : BTree K)
    (h : t.delete fuel key = .ok t') :
    (∀ range ∈ rs, range.startKey = key → t.spans = (key, range.endKey) ::ₘ t'.spans) ∧
      ((∀ range ∈ rs, range.startKey ≠ key) → t' = t) := by
  obtain ⟨root, hroot, hinv, hsp⟩ := hrun.structural h3 hd
  rcases BTree.delete_cases h with ⟨ht, l, stack, hfind, hnot⟩ | ⟨v, hv⟩
  · refine ⟨fun range hr hk => absurd ?_ hnot, fun _ => ht⟩
    obtain ⟨r, l', -, hke, -, hfuel, hdesc⟩ := lookup_of_structural t root hroot hinv
      (mem_entries_of_mem_rangePairs hsp (List.mem_map_of_mem _ hr))
    obtain ⟨stack', hfind'⟩ := (hdesc fuel (hfuel fuel _ (hk ▸ hfind))).2
    rw [hk, hfind] at hfind'
    cases hfind'
    exact hk ▸ (List.of_mem_zip hke).1
  · have hmem : (key, v) ∈ rangePairs rs := by
      rw [← Multiset.mem_coe, ← hrun.spans, hv]
      exact Multiset.mem_cons_self _ _
    obtain ⟨r₀, hr₀, hk₀⟩ := List.mem_map.1 hmem
    simp only [Prod.mk.injEq] at hk₀
    refine ⟨fun range hr hk => ?_, fun hnone => absurd hk₀.1 (hnone r₀ hr₀)⟩
    obtain rfl : r₀ = range := List.inj_on_of_nodup_map hd hr₀ hr (hk₀.1.trans hk.symm)
    rw [hv, hk₀.2]

theorem insert_run_delete_three_spans :
    3 ≤ 3 ∧ (([⟨5, 6⟩, ⟨10, 11⟩, ⟨20, 21⟩] : List (Range Nat)).map (·.startKey)).Nodup ∧
      InsertRun 3 [⟨5, 6⟩, ⟨10, 11⟩, ⟨20, 21⟩] threeSpansTree ∧
      ∃ t', threeSpansTree.delete 3 10 = .ok t' ∧
        ((∀ range ∈ ([⟨5, 6⟩, ⟨10, 11⟩, ⟨20, 21⟩] : List (Range Nat)), range.startKey = 10 →
          threeSpansTree.spans = (10, range.endKey) ::ₘ t'.spans) ∧
        ((∀ range ∈ ([⟨5, 6⟩, ⟨10, 11⟩, ⟨20, 21⟩] : List (Range Nat)), range.startKey ≠ 10) → t' = threeSpansTree)) :=
  ⟨le_rfl, by decide, insertRun_three_spans,
    (fun h => ⟨_, h, insert_run_delete 3 le_rfl _ (by decide) _ insertRun_three_spans 10 3 _ h⟩) rfl⟩

end InsertRun

end LittleKeyValueDb.LatchManager
