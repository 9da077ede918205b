import Mathlib.Data.List.Dedup
import LittleKeyValueDb.Storage.ScanRun

/-! # The range scan against the spec's walk

`rangeScanReference` walks the distinct user keys of the store in `[start_key, end_key]` and takes,
for each, the key's intent, or else its newest version at or below the read timestamp, until
`max_records_count` results are in. From a cursor at a key boundary, a pass of `scan` is one step of
that walk on the keys left from the cursor on (`pass_refines`), unless the key under the cursor has
versions newer than the read and neither an intent nor an older version. Otherwise
`seek_older_version` finds the version the walk takes, and the cursor ends just past that key.

So on a sorted store where no key of the range has only such versions, the scan returns exactly
what the walk does (`scan_refines_reference`). `scan_skips_key_after_newer_versions` is a scan of a
store where one key has them.
-/

namespace LittleKeyValueDb.Storage
open MVCCScanner
set_option autoImplicit false
set_option linter.unusedSectionVars false

variable {K T V U : Type} [LinearOrder K] [LinearOrder T]

/-! ## The walk's lookups on a sorted store -/

section Lookups
variable {store : List (MVCCKey K T × V)}

theorem SortedStore.eq_of_fst_eq (hs : SortedStore store) {a b : MVCCKey K T × V} (ha : a ∈ store)
    (hb : b ∈ store) (h : a.1 = b.1) : a = b := by
  induction store with
  | nil => simp at ha
  | cons c cs ih =>
    obtain ⟨hc, hcs⟩ := List.pairwise_cons.1 hs
    rcases List.mem_cons.1 ha with rfl | ha' <;> rcases List.mem_cons.1 hb with rfl | hb'
    · rfl
    · exact absurd h (ne_of_lt (hc b hb'))
    · exact absurd h.symm (ne_of_lt (hc a ha'))
    · exact ih hcs ha' hb'

theorem intentOf_eq_some (hs : SortedStore store) {u : K} {w : V} (h : (createIntentKey u, w) ∈ store) :
    intentOf store u = some w := by
  obtain ⟨c, hc⟩ : ∃ c, store.find? (fun e => e.1 = createIntentKey u) = some c := by
    cases hf : store.find? (fun e => e.1 = createIntentKey u) with
    | none => exact absurd (List.find?_eq_none.1 hf _ h) (by simp)
    | some c => exact ⟨c, rfl⟩
  have hck : c.1 = createIntentKey u := by simpa using List.find?_some hc
  rw [intentOf, hc, hs.eq_of_fst_eq (List.mem_of_find?_eq_some hc) h hck]
  rfl

theorem intentOf_eq_none {u : K} (h : ∀ w, (createIntentKey u, w) ∉ store) : intentOf store u = none := by
  rw [intentOf, List.find?_eq_none.2 fun c hc hck => h c.2 (by simpa using (of_decide_eq_true hck) ▸ hc)]
  rfl

/-- The fold of `newestVisible`, which keeps the entry with the greater timestamp and the earlier one
on a tie, ends on the entry with the greatest timestamp when no other entry has that timestamp. -/
theorem foldl_greatest {g : Option (T × V) → T × V → Option (T × V)} (hnone : ∀ x, g none x = some x)
    (hsome : ∀ y x, g (some y) x = if y.1 < x.1 then some x else some y) {t : T} {v : V} :
    ∀ (l : List (T × V)) (acc : Option (T × V)), (∀ x ∈ l, x.1 ≤ t ∧ (x.1 = t → x = (t, v))) →
      (∀ y, acc = some y → y.1 ≤ t ∧ (y.1 = t → y = (t, v))) → ((t, v) ∈ l ∨ acc = some (t, v)) →
      l.foldl g acc = some (t, v)
  | [], _, _, _, hin => by simpa using hin
  | x :: l, acc, hl, hacc, hin => by
    have hx := hl x (List.mem_cons_self _ _)
    refine foldl_greatest hnone hsome l (g acc x) (fun x' hx' => hl x' (List.mem_cons_of_mem _ hx')) ?_ ?_
    · intro y hy
      cases acc with
      | none => exact Option.some.inj (hnone x ▸ hy) ▸ hx
      | some y₀ =>
        rw [hsome] at hy
        split at hy
        · exact Option.some.inj hy ▸ hx
        · exact Option.some.inj hy ▸ hacc y₀ rfl
    · rcases hin with hin | rfl
      · rcases List.mem_cons.1 hin with rfl | hin
        · right
          cases acc with
          | none => exact hnone _
          | some y₀ =>
            rw [hsome]
            split
            · rfl
            · obtain ⟨hle, heq⟩ := hacc y₀ rfl
              rw [heq (le_antisymm hle (not_lt.1 ‹_›))]
        · exact .inl hin
      · exact .inr (by rw [hsome, if_neg (not_lt.2 hx.1)])

theorem newestVisible_eq_some (hs : SortedStore store) {u : K} {ts t : T} {v : V}
    (h : NewestVisible store u ts t v) : newestVisible store u ts = some (t, v) := by
  obtain ⟨hmem, hle, hmax⟩ := h
  have hvis : ∀ x : T × V, (∃ a ∈ store, (if a.1.key = u then a.1.timestamp.bind fun t =>
      if t ≤ ts then some (t, a.2) else none else none) = some x) ↔ (⟨u, some x.1⟩, x.2) ∈ store ∧ x.1 ≤ ts := by
    rintro ⟨t', v'⟩
    constructor
    · rintro ⟨⟨⟨k, _ | t''⟩, w⟩, ha, hx⟩ <;> simp only [Option.bind] at hx
      · split at hx <;> simp at hx
      · split at hx <;> [skip; simp at hx]
        split at hx <;> [skip; simp at hx]
        simp only [Option.some.injEq, Prod.mk.injEq] at hx
        obtain ⟨rfl, rfl⟩ := hx
        exact ⟨by rwa [← ‹k = u›], ‹_›⟩
    · rintro ⟨ha, hx⟩
      exact ⟨_, ha, by simp [hx]⟩
  unfold newestVisible
  refine foldl_greatest (fun _ => rfl) (fun _ _ => rfl) _ none (fun x hx => ?_) (by simp) (.inl ?_)
  · obtain ⟨hx, hxts⟩ := (hvis x).1 (List.mem_filterMap.1 hx)
    refine ⟨hmax x.1 x.2 hx hxts, fun hxt => ?_⟩
    have := hs.eq_of_fst_eq hx hmem (by rw [hxt])
    simp only [Prod.mk.injEq] at this
    exact Prod.ext hxt this.2
  · exact List.mem_filterMap.2 ((hvis (t, v)).2 ⟨hmem, hle⟩)

end Lookups

/-! ## The keys the walk visits -/

/-- The distinct user keys of `l` in `[lo, hi]`, as `rangeScanReference` lists those of the store. -/
def rangeKeys (lo hi : K) (l : List (MVCCKey K T × V)) : List K :=
  (l.map (·.1.key)).dedup.filter fun u => lo ≤ u ∧ u ≤ hi

theorem rangeScanReference_eq_foldl (decode : V → UncommittedValue U T V) (store : List (MVCCKey K T × V))
    (lo hi : K) (ts : T) (m : Nat) :
    rangeScanReference decode store lo hi ts m = (rangeKeys lo hi store).foldl (rangeScanStep decode store ts m) ([], []) :=
  rfl

section Keys
variable {lo hi : K}

theorem rangeKeys_append_of_lt (rest : List (MVCCKey K T × V)) :
    ∀ pre : List (MVCCKey K T × V), (∀ a ∈ pre, a.1.key < lo) → rangeKeys lo hi (pre ++ rest) = rangeKeys lo hi rest
  | [], _ => rfl
  | a :: pre, hpre => by
    have ih := rangeKeys_append_of_lt rest pre fun b hb => hpre b (List.mem_cons_of_mem _ hb)
    have hout : ¬ (lo ≤ a.1.key ∧ a.1.key ≤ hi) := fun h => absurd h.1 (not_le.2 (hpre a (List.mem_cons_self _ _)))
    unfold rangeKeys at ih ⊢
    rw [List.cons_append, List.map_cons]
    by_cases hm : a.1.key ∈ (pre ++ rest).map (·.1.key)
    · rw [List.dedup_cons_of_mem hm, ih]
    · rw [List.dedup_cons_of_not_mem hm, List.filter_cons_of_neg (by simpa using hout), ih]

theorem rangeKeys_eq_nil {l : List (MVCCKey K T × V)} (h : ∀ b ∈ l, hi < b.1.key) : rangeKeys lo hi l = [] := by
  unfold rangeKeys
  rw [List.filter_eq_nil_iff]
  intro u hu
  obtain ⟨b, hb, rfl⟩ := List.mem_map.1 (List.mem_dedup.1 hu)
  simpa using fun _ => h b hb

theorem dedup_keys_cons (e : MVCCKey K T × V) :
    ∀ r : List (MVCCKey K T × V), (∀ b ∈ r.dropWhile (·.1.key = e.1.key), b.1.key ≠ e.1.key) →
      ((e :: r).map (·.1.key)).dedup = e.1.key :: ((r.dropWhile (·.1.key = e.1.key)).map (·.1.key)).dedup
  | [], _ => by simp
  | b :: r, h => by
    by_cases hb : b.1.key = e.1.key
    · rw [List.dropWhile_cons_of_pos (by simpa using hb)] at h ⊢
      rw [List.map_cons, List.dedup_cons_of_mem (by simp [hb]), ← dedup_keys_cons e r h, List.map_cons,
        List.map_cons, hb]
    · rw [List.dropWhile_cons_of_neg (by simpa using hb)] at h ⊢
      rw [List.map_cons, List.dedup_cons_of_not_mem fun hm => ?_]
      obtain ⟨c, hc, hck⟩ := List.mem_map.1 hm
      exact h c hc hck

theorem rangeKeys_cons {e : MVCCKey K T × V} {r : List (MVCCKey K T × V)}
    (hfwd : ∀ b ∈ r.dropWhile (·.1.key = e.1.key), e.1.key < b.1.key) (hlo : lo ≤ e.1.key) (hhi : e.1.key ≤ hi) :
    rangeKeys lo hi (e :: r) = e.1.key :: rangeKeys lo hi (r.dropWhile (·.1.key = e.1.key)) := by
  unfold rangeKeys
  rw [dedup_keys_cons e r fun b hb => ne_of_gt (hfwd b hb), List.filter_cons_of_pos (by simp [hlo, hhi])]

theorem foldl_rangeScanStep_full (decode : V → UncommittedValue U T V) (store : List (MVCCKey K T × V)) (ts : T)
    (m : Nat) (acc : List (TxnIntent U K T × V) × List (MVCCKey K T × V)) (h : acc.2.length = m) :
    ∀ keys : List K, keys.foldl (rangeScanStep decode store ts m) acc = acc
  | [] => rfl
  | u :: keys => by
    rw [List.foldl_cons, rangeScanStep, if_pos h]
    exact foldl_rangeScanStep_full decode store ts m acc h keys

end Keys

/-! ## A pass is a step of the walk -/

/-- No user key of `[lo, hi]` has a version newer than `ts` and neither an intent nor a version at or
below `ts`. -/
def NoKeyOnlyNewer (store : List (MVCCKey K T × V)) (lo hi : K) (ts : T) : Prop :=
  ∀ k, lo ≤ k → k ≤ hi → ∀ t v, (⟨k, some t⟩, v) ∈ store → ts < t →
    (∃ w, (createIntentKey k, w) ∈ store) ∨ ∃ t' v', (⟨k, some t'⟩, v') ∈ store ∧ t' ≤ ts

theorem List.dropWhile_dropWhile_of_imp {α : Type} {p q : α → Bool} :
    ∀ l : List α, (∀ b ∈ l, p b → q b) → (l.dropWhile p).dropWhile q = l.dropWhile q
  | [], _ => rfl
  | b :: l, h => by
    by_cases hp : p b
    · rw [List.dropWhile_cons_of_pos hp, List.dropWhile_cons_of_pos (h b (List.mem_cons_self _ _) hp)]
      exact List.dropWhile_dropWhile_of_imp l fun c hc => h c (List.mem_cons_of_mem _ hc)
    · rw [List.dropWhile_cons_of_neg hp]

section Pass
variable (decode : V → UncommittedValue U T V) {s : MVCCScanner K T V U} {e : MVCCKey K T × V}
  {r : List (MVCCKey K T × V)}

/-- **A pass is one step of the walk.** From a cursor at a key boundary of a sorted store, on the
entry `e`, with room for a result: unless `e`'s key has only versions newer than the read and no
intent, a pass of the scan loop leaves the cursor just past `e`'s key and records what the walk's
step for that key records. -/
theorem pass_refines (hs : SortedStore s.it.store) (hb : AtKeyBoundary s.it.store s.it.rest)
    (hr : s.it.rest = e :: r) (hne : s.results.length ≠ s.maxRecordsCount)
    (hread : ∀ t v, (⟨e.1.key, some t⟩, v) ∈ s.it.store → s.timestamp < t →
      (∃ w, (createIntentKey e.1.key, w) ∈ s.it.store) ∨
        ∃ t' v', (⟨e.1.key, some t'⟩, v') ∈ s.it.store ∧ t' ≤ s.timestamp) :
    (s.getCurrentKey decode).1.advanceToNextKey.it.rest = r.dropWhile (·.1.key = e.1.key) ∧
      ((s.getCurrentKey decode).1.advanceToNextKey.foundIntents, (s.getCurrentKey decode).1.advanceToNextKey.results) =
        rangeScanStep decode s.it.store s.timestamp s.maxRecordsCount (s.foundIntents, s.results) e.1.key := by
  have hfirst := hb.le_of_key_eq hs hr
  have hafter := hb.head_lt hs hr
  have he : e ∈ s.it.store := hb.suffix.subset (hr ▸ List.mem_cons_self _ _)
  obtain ⟨⟨k, ts0⟩, v⟩ := e
  cases ts0 with
  | none =>
    rw [getCurrentKey_intent decode hr]
    exact ⟨advanceToNextKey_rest hr, by simp [rangeScanStep, hne, intentOf_eq_some hs he]⟩
  | some t =>
  have hnoIntent : ∀ w, (createIntentKey k, w) ∉ s.it.store := fun w hw =>
    absurd (hfirst _ hw rfl) (not_le.2 ((MVCCKey.lt_iff _ _).2 (.inr ⟨rfl, trivial⟩)))
  rcases le_or_lt t s.timestamp with hvis | hnew
  · rw [getCurrentKey_visible decode hr hvis]
    have hnv : NewestVisible s.it.store k s.timestamp t v :=
      ⟨he, hvis, fun t' v' h _ => (MVCCKey.some_le_some_iff k t t').1 (hfirst _ h rfl)⟩
    exact ⟨advanceToNextKey_rest hr, by
      simp [rangeScanStep, hne, intentOf_eq_none hnoIntent, newestVisible_eq_some hs hnv]⟩
  · obtain ⟨t', v', hmem', hle'⟩ := (hread t v he hnew).resolve_left fun ⟨w, hw⟩ => hnoIntent w hw
    rw [getCurrentKey_newer decode hr hnew]
    constructor
    · -- the seek lands on a version of `k` in `r`, and the advance skips the rest of `k`
      have hx : (⟨k, some t⟩ : MVCCKey K T) < ⟨k, some s.timestamp⟩ := (MVCCKey.lt_iff _ _).2 (.inr ⟨rfl, hnew⟩)
      have hb' : AtKeyBoundary s.it.store ((⟨k, some t⟩, v) :: r) := hr ▸ hb
      have hin : (⟨k, some t'⟩, v') ∈ s.it.store.dropWhile (·.1 < ⟨k, some s.timestamp⟩) :=
        (hs.mem_dropWhile_iff _ _).2 ⟨hmem', (MVCCKey.some_le_some_iff _ _ _).2 hle'⟩
      obtain ⟨c, r'', hcr⟩ := List.exists_cons_of_ne_nil (List.ne_nil_of_mem hin)
      have hck : c.1.key = k := by
        obtain ⟨-, hxc, -⟩ := hs.dropWhile_eq_cons hcr
        have hcv : c.1 ≤ ⟨k, some t'⟩ := by
          rcases hs.eq_or_lt_of_dropWhile hcr hmem' ((MVCCKey.some_le_some_iff _ _ _).2 hle') with h | h
          · rw [← h]
          · exact h.le
        exact le_antisymm (MVCCKey.key_le_of_le hcv) (MVCCKey.key_le_of_le hxc)
      rw [advanceToNextKey_rest (by rw [seekOlderVersion_it, MVCCIterator.seekGe_rest, hcr])]
      calc r''.dropWhile (·.1.key = c.1.key)
          = (c :: r'').dropWhile (·.1.key = k) := by rw [hck, List.dropWhile_cons_of_pos (by simp [hck])]
        _ = (r.dropWhile (·.1 < ⟨k, some s.timestamp⟩)).dropWhile (·.1.key = k) := by
          rw [← hcr, hb'.dropWhile_eq hx rfl]
        _ = r.dropWhile (·.1.key = k) := List.dropWhile_dropWhile_of_imp r fun b hb hlt => by
          have h₁ := MVCCKey.key_le_of_le (hafter b hb).le
          have h₂ := MVCCKey.key_le_of_le (of_decide_eq_true hlt).le
          exact decide_eq_true (le_antisymm h₂ h₁)
    · rcases (seekOlderVersion_single hs).2 with ⟨t₂, v₂, hnv, hres⟩ | ⟨hall, -⟩
      · rw [advanceToNextKey_results, advanceToNextKey_foundIntents, seekOlderVersion_foundIntents, hres]
        simp [rangeScanStep, hne, intentOf_eq_none hnoIntent, newestVisible_eq_some hs hnv]
      · exact absurd (hall t' v' hmem') (not_lt.2 hle')

end Pass

/-! ## Whole scans -/

section Run
variable (decode : V → UncommittedValue U T V) {s : MVCCScanner K T V U}

/-- **Step lemma.** A pass of the scan loop leaves unchanged what the walk over the keys from the
cursor on ends with. -/
theorem walk_pass {e : MVCCKey K T × V} {r : List (MVCCKey K T × V)} (hs : SortedStore s.it.store)
    (hb : AtKeyBoundary s.it.store s.it.rest) (hr : s.it.rest = e :: r) (hne : s.results.length ≠ s.maxRecordsCount)
    (hp : s.pastEnd e.1.key = false) (hcur : ∀ b ∈ s.it.rest, s.startKey ≤ b.1.key)
    (hread : NoKeyOnlyNewer s.it.store s.startKey (s.endKey.getD s.startKey) s.timestamp) :
    (rangeKeys s.startKey (s.endKey.getD s.startKey) (s.getCurrentKey decode).1.advanceToNextKey.it.rest).foldl
        (rangeScanStep decode s.it.store s.timestamp s.maxRecordsCount)
        ((s.getCurrentKey decode).1.advanceToNextKey.foundIntents, (s.getCurrentKey decode).1.advanceToNextKey.results) =
      (rangeKeys s.startKey (s.endKey.getD s.startKey) s.it.rest).foldl
        (rangeScanStep decode s.it.store s.timestamp s.maxRecordsCount) (s.foundIntents, s.results) := by
  have hlo := hcur e (hr ▸ List.mem_cons_self _ _)
  have hhi := (pastEnd_eq_false_iff e.1.key).1 hp
  obtain ⟨hrest, hstep⟩ := pass_refines decode hs hb hr hne (hread e.1.key hlo hhi)
  obtain ⟨-, -, hfwd⟩ := pass_cursor decode hs hb hr
  rw [hrest] at hfwd ⊢
  rw [hstep, hr, rangeKeys_cons hfwd hlo hhi, List.foldl_cons]

theorem walk_stopped (hs : SortedStore s.it.store) (hb : AtKeyBoundary s.it.store s.it.rest) (hstop : Stopped s) :
    (rangeKeys s.startKey (s.endKey.getD s.startKey) s.it.rest).foldl
      (rangeScanStep decode s.it.store s.timestamp s.maxRecordsCount) (s.foundIntents, s.results) =
      (s.foundIntents, s.results) := by
  rcases hstop with hfull | hnil | ⟨e, r, hr, hp⟩
  · exact foldl_rangeScanStep_full decode _ _ _ _ hfull _
  · rw [hnil]
    rfl
  · have hhi : s.endKey.getD s.startKey < e.1.key :=
      not_le.1 fun hle => by simp [(pastEnd_eq_false_iff _).2 hle] at hp
    rw [rangeKeys_eq_nil fun b hb' => ?_]
    · rfl
    rw [hr] at hb'
    rcases List.mem_cons.1 hb' with rfl | hb'
    · exact hhi
    · exact hhi.trans_le (MVCCKey.key_le_of_le (hb.head_lt hs hr b hb').le)

/-- **The scan is the spec's walk** on a sorted store where no key of the range has only versions
newer than the read and no intent: given one unit of fuel more than the store has entries, it returns
the found intents and the results of `rangeScanReference`. -/
theorem scan_refines_reference (store : List (MVCCKey K T × V)) (hs : SortedStore store) (startKey : K)
    (endKey : Option K) (ts : T) (m : Nat) (txn : Option (Txn U T)) (fuel : Nat)
    (hread : NoKeyOnlyNewer store startKey (endKey.getD startKey) ts) (hf : store.length < fuel) :
    ∃ s', (new (.new store) startKey endKey ts m txn).scan decode fuel = .ok s' ∧
      (s'.foundIntents, s'.results) = rangeScanReference decode store startKey (endKey.getD startKey) ts m := by
  have hcursor : ∀ b ∈ store.dropWhile (fun e => e.1 < createIntentKey startKey), startKey ≤ b.1.key :=
    fun b hb => MVCCKey.key_le_of_le ((hs.mem_dropWhile_iff _ b).1 hb).2
  have hbelow : rangeKeys startKey (endKey.getD startKey) store =
      rangeKeys startKey (endKey.getD startKey) (store.dropWhile (fun e => e.1 < createIntentKey startKey)) := by
    conv_lhs => rw [← List.takeWhile_append_dropWhile (fun e => decide (e.1 < createIntentKey startKey)) store]
    exact rangeKeys_append_of_lt _ _ fun a ha =>
      (lt_createIntentKey_iff _ _).1 (by simpa using List.mem_takeWhile_imp ha)
  obtain ⟨s', h⟩ : ∃ s', (new (.new store) startKey endKey ts m txn).scan decode fuel = .ok s' :=
    scanLoop_returns decode fuel _ hs (hs.atKeyBoundary_seekGe _)
    (lt_of_le_of_lt (List.dropWhile_suffix _).length_le hf)
  refine ⟨s', h, ?_⟩
  obtain ⟨⟨hs', hb', -, -, hwalk⟩, hstop⟩ := scanLoop_invariant decode
    (fun s => SortedStore s.it.store ∧ AtKeyBoundary s.it.store s.it.rest ∧ (∀ b ∈ s.it.rest, s.startKey ≤ b.1.key) ∧
      NoKeyOnlyNewer s.it.store s.startKey (s.endKey.getD s.startKey) s.timestamp ∧
      (rangeKeys s.startKey (s.endKey.getD s.startKey) s.it.rest).foldl
        (rangeScanStep decode s.it.store s.timestamp s.maxRecordsCount) (s.foundIntents, s.results) =
        rangeScanReference decode store startKey (endKey.getD startKey) ts m)
    (fun s e r ⟨hs, hb, hcur, hread, hwalk⟩ hr hne hp =>
      have hpass := pass_cursor decode hs hb hr
      ⟨by simpa using hs, by simpa using hpass.1,
        fun b hb' => by simpa using (hcur e (hr ▸ List.mem_cons_self _ _)).trans (hpass.2.2 b hb').le,
        by simpa using hread, by simpa using (walk_pass decode hs hb hr hne hp hcur hread).trans hwalk⟩)
    fuel _ s' h ⟨hs, hs.atKeyBoundary_seekGe _, hcursor, hread, by rw [rangeScanReference_eq_foldl, hbelow]; rfl⟩
  rw [← hwalk, walk_stopped decode hs' hb' hstop]

theorem scan_refines_reference_two_keys :
    SortedStore [((⟨1, some 5⟩ : MVCCKey ℕ ℕ), 10), (⟨1, some 3⟩, 11), (⟨2, none⟩, 7), (⟨2, some 1⟩, 20)] ∧
      NoKeyOnlyNewer [((⟨1, some 5⟩ : MVCCKey ℕ ℕ), 10), (⟨1, some 3⟩, 11), (⟨2, none⟩, 7), (⟨2, some 1⟩, 20)] 1 2 4 ∧
      [((⟨1, some 5⟩ : MVCCKey ℕ ℕ), 10), (⟨1, some 3⟩, 11), (⟨2, none⟩, 7), (⟨2, some 1⟩, 20)].length < 5 ∧
      ∃ s', (new (.new [((⟨1, some 5⟩ : MVCCKey ℕ ℕ), 10), (⟨1, some 3⟩, 11), (⟨2, none⟩, 7), (⟨2, some 1⟩, 20)])
          1 (some 2) 4 10 (none : Option (Txn ℕ ℕ))).scan (fun v => ⟨v, ⟨0, 0⟩⟩) 5 = .ok s' ∧
        (s'.foundIntents, s'.results) = rangeScanReference (fun (v : ℕ) => (⟨v, ⟨(0 : ℕ), (0 : ℕ)⟩⟩ : UncommittedValue ℕ ℕ ℕ))
          [((⟨1, some 5⟩ : MVCCKey ℕ ℕ), 10), (⟨1, some 3⟩, 11), (⟨2, none⟩, 7), (⟨2, some 1⟩, 20)] 1 2 4 10 := by
  have hread : NoKeyOnlyNewer [((⟨1, some 5⟩ : MVCCKey ℕ ℕ), 10), (⟨1, some 3⟩, 11), (⟨2, none⟩, 7),
      (⟨2, some 1⟩, 20)] 1 2 4 := by
    intro k _ _ t v hmem hnew
    simp at hmem
    rcases hmem with ⟨⟨rfl, rfl⟩, -⟩ | ⟨⟨-, rfl⟩, -⟩ | ⟨⟨-, rfl⟩, -⟩
    · exact .inr ⟨3, 11, by simp, by decide⟩
    all_goals exact absurd hnew (by decide)
  exact ⟨by decide, hread, by decide, scan_refines_reference _ _ (by decide) 1 (some 2) 4 10 none 5 hread (by decide)⟩

end Run

end LittleKeyValueDb.Storage
