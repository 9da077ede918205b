import LittleKeyValueDb.Storage.MVCCScanner

/-! # What a scan returns

On a store whose entries are strictly increasing in MVCC order:

* `SortedStore.mem_dropWhile_iff`: `seek_ge(x)` leaves the cursor on exactly the entries `≥ x`, in
  order, so every entry of a user key `k` is at or after the cursor of `seek_ge(intent(k))`.
* `scan_single_key`: a single-key get (`end_key = None`) stops within two passes of its loop,
  returns the intent of `k` when there is one, and otherwise the newest version of `k` at or below
  the scan timestamp; nothing of another key. Its first pass is `getCurrentKey_single`, and
  `seekOlderVersion_single` when every version of `k` is newer than the scan.
-/

namespace LittleKeyValueDb.Storage
open MVCCScanner
set_option autoImplicit false
set_option linter.unusedSectionVars false

variable {K T V U : Type} [LinearOrder K] [LinearOrder T]

/-- The store's entries are strictly increasing in MVCC order. -/
def SortedStore (store : List (MVCCKey K T × V)) : Prop := store.Pairwise (fun a b => a.1 < b.1)

instance (store : List (MVCCKey K T × V)) : Decidable (SortedStore store) :=
  inferInstanceAs (Decidable (store.Pairwise _))

/-! ## Seeking in a sorted store -/

section Sorted
variable {store : List (MVCCKey K T × V)}

theorem SortedStore.mem_dropWhile_iff (hs : SortedStore store) (x : MVCCKey K T) (e : MVCCKey K T × V) :
    e ∈ store.dropWhile (fun e => e.1 < x) ↔ e ∈ store ∧ x ≤ e.1 := by
  induction store with
  | nil => simp
  | cons a l ih =>
    rw [SortedStore, List.pairwise_cons] at hs
    rw [List.dropWhile_cons]
    by_cases ha : a.1 < x
    · simp only [ha, decide_True, if_true, ih hs.2, List.mem_cons]
      constructor
      · exact fun h => ⟨.inr h.1, h.2⟩
      · rintro ⟨rfl | h1, h2⟩
        · exact absurd ha (not_lt.2 h2)
        · exact ⟨h1, h2⟩
    · simp only [ha, decide_False, Bool.false_eq_true, if_false]
      refine ⟨fun h => ⟨h, ?_⟩, fun h => h.1⟩
      rcases List.mem_cons.1 h with rfl | h
      · exact not_lt.1 ha
      · exact (not_lt.1 ha).trans (hs.1 _ h).le

theorem SortedStore.dropWhile_eq_cons (hs : SortedStore store) {x : MVCCKey K T}
    {e : MVCCKey K T × V} {rest : List (MVCCKey K T × V)}
    (h : store.dropWhile (fun e => e.1 < x) = e :: rest) :
    e ∈ store ∧ x ≤ e.1 ∧ ∀ e' ∈ rest, e.1 < e'.1 := by
  have he := (hs.mem_dropWhile_iff x e).1 (h ▸ List.mem_cons_self e rest)
  have hp : (e :: rest).Pairwise (fun a b => a.1 < b.1) :=
    hs.sublist (h ▸ (List.dropWhile_suffix _).sublist)
  exact ⟨he.1, he.2, (List.pairwise_cons.1 hp).1⟩

theorem SortedStore.eq_or_lt_of_dropWhile (hs : SortedStore store) {x : MVCCKey K T}
    {e : MVCCKey K T × V} {rest : List (MVCCKey K T × V)}
    (h : store.dropWhile (fun e => e.1 < x) = e :: rest) {e' : MVCCKey K T × V} (he' : e' ∈ store)
    (hx : x ≤ e'.1) : e' = e ∨ e.1 < e'.1 := by
  have hm := (hs.mem_dropWhile_iff x e').2 ⟨he', hx⟩
  rw [h] at hm
  rcases List.mem_cons.1 hm with rfl | hm
  · exact .inl rfl
  · exact .inr ((hs.dropWhile_eq_cons h).2.2 e' hm)

end Sorted

/-! ## The second pass of a single-key get -/

theorem head_dropWhile_key_gt {k : K} {rest : List (MVCCKey K T × V)} (hr : ∀ e ∈ rest, k ≤ e.1.key) :
    ∀ e ∈ (rest.dropWhile (fun e => e.1.key = k)).head?, k < e.1.key := by
  intro e he
  have hne : (rest.dropWhile (fun e => e.1.key = k)) ≠ [] := by
    intro h; simp [h] at he
  have hk := List.head_dropWhile_not (fun e : MVCCKey K T × V => decide (e.1.key = k)) rest hne
  have heq : (rest.dropWhile (fun e => e.1.key = k)).head hne = e := by
    simpa [List.head?_eq_head hne] using he
  rw [heq] at hk
  exact lt_of_le_of_ne (hr e ((List.dropWhile_suffix _).subset (List.mem_of_mem_head? he)))
    (by simpa [eq_comm] using hk)

theorem scanLoop_stop_single (decode : V → UncommittedValue U T V) (s : MVCCScanner K T V U)
    (hend : s.endKey = none) (hk : ∀ e ∈ s.it.rest.head?, s.startKey < e.1.key) (fuel : Nat) :
    scanLoop decode (fuel + 1) s = pure s := by
  rcases hr : s.it.rest with _ | ⟨e, rest⟩
  · exact scanLoop_invalid decode fuel s hr
  · by_cases hm : s.results.length = s.maxRecordsCount
    · exact scanLoop_full decode fuel s hm
    · refine scanLoop_pastEnd decode fuel s e rest hr ?_
      simpa [pastEnd, hend] using hk e (by simp [hr])

/-! ## Single-key get -/

/-- `(k@t, v)` is the newest version of `k` at or below `ts`. -/
def NewestVisible (store : List (MVCCKey K T × V)) (k : K) (ts t : T) (v : V) : Prop :=
  (⟨k, some t⟩, v) ∈ store ∧ t ≤ ts ∧ ∀ t' v', (⟨k, some t'⟩, v') ∈ store → t' ≤ ts → t' ≤ t

/-- What a single-key get of `k` at `ts` returns: the intent of `k` if it has one, and otherwise the
newest version of `k` at or below `ts`, if any. -/
def SingleKeyGet (decode : V → UncommittedValue U T V) (store : List (MVCCKey K T × V)) (k : K) (ts : T)
    (s : MVCCScanner K T V U) : Prop :=
  (∃ v, (createIntentKey k, v) ∈ store ∧
      s.foundIntents = [(⟨(decode v).txnMetadata, k⟩, (decode v).value)] ∧ s.results = []) ∨
  ((∀ v, (createIntentKey k, v) ∉ store) ∧ s.foundIntents = [] ∧
    ((∃ t v, NewestVisible store k ts t v ∧ s.results = [(⟨k, some t⟩, v)]) ∨
     ((∀ t v, (⟨k, some t⟩, v) ∈ store → ts < t) ∧ s.results = [])))

section SingleKey
variable (decode : V → UncommittedValue U T V) {store : List (MVCCKey K T × V)} {k : K} {ts : T}

theorem singleKeyGet_absent {s : MVCCScanner K T V U} (hk : ∀ e ∈ store, e.1.key ≠ k)
    (hf : s.foundIntents = []) (hr : s.results = []) : SingleKeyGet decode store k ts s :=
  .inr ⟨fun _ h => hk _ h rfl, hf, .inr ⟨fun _ _ h => absurd rfl (hk _ h), hr⟩⟩

theorem scanLoop_two_passes {s : MVCCScanner K T V U} {e : MVCCKey K T × V}
    {rest : List (MVCCKey K T × V)} (hend : s.endKey = none) (hm : s.results.length ≠ s.maxRecordsCount)
    (h : s.it.rest = e :: rest) (hek : e.1.key = s.startKey)
    (hstop : ∀ e' ∈ (s.getCurrentKey decode).1.advanceToNextKey.it.rest.head?,
      (s.getCurrentKey decode).1.startKey < e'.1.key)
    (hend' : (s.getCurrentKey decode).1.endKey = none) (fuel : Nat) (hf : 2 ≤ fuel) :
    scanLoop decode fuel s = pure (s.getCurrentKey decode).1.advanceToNextKey := by
  obtain ⟨fuel, rfl⟩ : ∃ f, fuel = f + 1 + 1 := ⟨fuel - 2, by omega⟩
  rw [scanLoop_step decode _ s e rest hm h (by simp [pastEnd, hend, hek])]
  exact scanLoop_stop_single decode _ (by simpa using hend') (by simpa using hstop) fuel

theorem singleKeyGet_advanceToNextKey {s : MVCCScanner K T V U} (h : SingleKeyGet decode store k ts s) :
    SingleKeyGet decode store k ts s.advanceToNextKey := by
  simpa only [SingleKeyGet, advanceToNextKey_results, advanceToNextKey_foundIntents] using h

/-- `seek_older_version(k, ts)` on a sorted store: `results` gains the newest version of `k` at or
below `ts` when there is one, and once `k` is skipped the cursor is past `k`. -/
theorem seekOlderVersion_single {s : MVCCScanner K T V U} (hs : SortedStore s.it.store) :
    (∀ e ∈ (s.seekOlderVersion k ts).1.advanceToNextKey.it.rest.head?, k < e.1.key) ∧
      ((∃ t v, NewestVisible s.it.store k ts t v ∧
          (s.seekOlderVersion k ts).1.results = s.results ++ [(⟨k, some t⟩, v)]) ∨
        ((∀ t v, (⟨k, some t⟩, v) ∈ s.it.store → ts < t) ∧ (s.seekOlderVersion k ts).1.results = s.results)) := by
  have hge : ∀ t' v', (⟨k, some t'⟩, v') ∈ s.it.store → t' ≤ ts →
      (⟨k, some ts⟩ : MVCCKey K T) ≤ ⟨k, some t'⟩ := fun t' v' _ h => by
    rcases h.lt_or_eq with h | rfl
    · exact ((MVCCKey.lt_iff ⟨k, some ts⟩ ⟨k, some t'⟩).2 (.inr ⟨rfl, h⟩)).le
    · exact le_rfl
  rcases hd : s.it.store.dropWhile (fun e => e.1 < ⟨k, some ts⟩) with _ | ⟨⟨⟨k₂, ts₂⟩, v₂⟩, rest₂⟩
  · -- no entry at or above `(k, ts)`
    rw [seekOlderVersion_missed (by simp [hd])]
    refine ⟨by simp [advanceToNextKey, hd], .inr ⟨fun t' v' h => not_le.1 fun hle => ?_, rfl⟩⟩
    have := (hs.mem_dropWhile_iff _ _).2 ⟨h, hge t' v' h hle⟩
    simp [hd] at this
  obtain ⟨hmem₂, hle₂, hafter₂⟩ := hs.dropWhile_eq_cons hd
  have hk₂ : k ≤ k₂ := by simpa using MVCCKey.key_le_of_le hle₂
  have hstop : ∀ e ∈ (rest₂.dropWhile (fun e => e.1.key = k₂)).head?, k < e.1.key :=
    fun e he => lt_of_le_of_lt hk₂ (head_dropWhile_key_gt (fun e he => MVCCKey.key_le_of_le (hafter₂ e he).le) e he)
  rcases hk₂.lt_or_eq with hlt₂ | rfl
  · -- the seek passed `k`: no version of `k` is visible
    rw [seekOlderVersion_missed (by simp [hd, ne_of_gt hlt₂])]
    refine ⟨by rw [advanceToNextKey_rest (by simpa using hd)]; exact hstop,
      .inr ⟨fun t' v' h => not_le.1 fun hle => ?_, rfl⟩⟩
    rcases hs.eq_or_lt_of_dropWhile hd h (hge t' v' h hle) with h | h
    · simp only [Prod.mk.injEq, MVCCKey.mk.injEq] at h
      exact ne_of_gt hlt₂ h.1.1.symm
    · exact absurd (MVCCKey.key_le_of_le h.le) (not_le.2 hlt₂)
  -- the seek found the newest visible version of `k`
  cases ts₂ with
  | none => exact absurd hle₂ (not_le.2 ((MVCCKey.lt_iff _ _).2 (.inr ⟨rfl, trivial⟩)))
  | some t₂ =>
  have ht₂ : t₂ ≤ ts := by
    rcases hle₂.lt_or_eq with h | h
    · exact (by simpa [MVCCKey.lt_iff] using h : t₂ < ts).le
    · simp only [MVCCKey.mk.injEq, Option.some.injEq] at h
      exact h.2.ge
  rw [seekOlderVersion_found hd rfl]
  refine ⟨by rw [advanceToNextKey_rest (by simpa using hd)]; exact hstop,
    .inl ⟨t₂, v₂, ⟨hmem₂, ht₂, fun t' v' h hle => ?_⟩, rfl⟩⟩
  rcases hs.eq_or_lt_of_dropWhile hd h (hge t' v' h hle) with h | h
  · simp only [Prod.mk.injEq, MVCCKey.mk.injEq, Option.some.injEq] at h
    exact h.1.2.le
  · exact (by simpa [MVCCKey.lt_iff] using h : t' < t₂).le

/-- The first pass of a single-key get, on the first entry of its key at or after the key's intent:
the get's result is in place, and once the key is skipped the cursor is past it. -/
theorem getCurrentKey_single {s : MVCCScanner K T V U} (hs : SortedStore s.it.store) {ts0 : Option T}
    {v : V} {rest : List (MVCCKey K T × V)}
    (hd : s.it.store.dropWhile (fun e => e.1 < createIntentKey s.startKey) = (⟨s.startKey, ts0⟩, v) :: rest)
    (hcur : s.it.rest = (⟨s.startKey, ts0⟩, v) :: rest) (hr : s.results = []) (hf : s.foundIntents = []) :
    (∀ e ∈ (s.getCurrentKey decode).1.advanceToNextKey.it.rest.head?, s.startKey < e.1.key) ∧
      SingleKeyGet decode s.it.store s.startKey s.timestamp (s.getCurrentKey decode).1 := by
  obtain ⟨hmem, -, hafter⟩ := hs.dropWhile_eq_cons hd
  have hstop : ∀ s' : MVCCScanner K T V U, s'.it.rest = (⟨s.startKey, ts0⟩, v) :: rest →
      ∀ e ∈ s'.advanceToNextKey.it.rest.head?, s.startKey < e.1.key := fun s' hr' => by
    rw [advanceToNextKey_rest hr']
    exact head_dropWhile_key_gt fun e he => MVCCKey.key_le_of_le (hafter e he).le
  cases ts0 with
  | none =>
    rw [getCurrentKey_intent decode hcur]
    exact ⟨hstop _ hcur, .inl ⟨v, hmem, by simp [hf], hr⟩⟩
  | some t0 =>
  have hnoIntent : ∀ v', (createIntentKey s.startKey, v') ∉ s.it.store := fun v' hv' => by
    rcases hs.eq_or_lt_of_dropWhile hd hv' le_rfl with h | h
    · simp [createIntentKey] at h
    · exact absurd h (not_lt.2 (createIntentKey_le le_rfl))
  rcases le_or_lt t0 s.timestamp with hvis | hnew
  · -- the newest version is visible: the other versions are after the cursor, so older
    rw [getCurrentKey_visible decode hcur hvis]
    refine ⟨hstop _ hcur, .inr ⟨hnoIntent, hf, .inl ⟨t0, v, ⟨hmem, hvis, fun t' v' h _ => ?_⟩, by simp [hr]⟩⟩⟩
    rcases hs.eq_or_lt_of_dropWhile hd h (createIntentKey_le le_rfl) with h | h
    · simp only [Prod.mk.injEq, MVCCKey.mk.injEq, Option.some.injEq] at h
      exact h.1.2.le
    · exact (by simpa [MVCCKey.lt_iff] using h : t' < t0).le
  · -- every version is newer than the scan: seek to `(key, timestamp)`
    rw [getCurrentKey_newer decode hcur hnew]
    obtain ⟨hstop', hres⟩ := seekOlderVersion_single hs
    exact ⟨hstop', .inr ⟨hnoIntent, by simp [hf], by simpa [hr] using hres⟩⟩

/-- A single-key get stops within two passes and returns what `SingleKeyGet` says. -/
theorem scan_single_key (store : List (MVCCKey K T × V)) (hs : SortedStore store) (k : K) (ts : T)
    (m : Nat) (hm : 1 ≤ m) (txn : Option (Txn U T)) :
    ∃ s, (∀ fuel, 2 ≤ fuel → (new (.new store) k none ts m txn).scan decode fuel = .ok s) ∧
      SingleKeyGet decode store k ts s := by
  let s₁ : MVCCScanner K T V U :=
    { new (.new store) k none ts m txn with it := (MVCCIterator.new store).seekGe (createIntentKey k) }
  have hscan : ∀ fuel, (new (.new store) k none ts m txn).scan decode fuel = scanLoop decode fuel s₁ :=
    fun _ => rfl
  simp only [hscan]
  have hm₁ : s₁.results.length ≠ s₁.maxRecordsCount := by simp [s₁, new]; omega
  have hge : ∀ e ∈ store, k ≤ e.1.key → createIntentKey k ≤ e.1 := fun e _ h => createIntentKey_le h
  rcases hd : store.dropWhile (fun e => e.1 < createIntentKey k) with _ | ⟨⟨⟨k', ts0⟩, v⟩, rest⟩
  · -- nothing at or above `k`
    refine ⟨s₁, fun fuel hf => ?_, singleKeyGet_absent decode (fun e he hek => ?_) rfl rfl⟩
    · obtain ⟨f, rfl⟩ : ∃ f, fuel = f + 1 := ⟨fuel - 1, by omega⟩
      exact scanLoop_invalid decode f s₁ hd
    · have := (hs.mem_dropWhile_iff _ e).2 ⟨he, hge e he hek.ge⟩
      simp [hd] at this
  obtain ⟨-, hle, -⟩ := hs.dropWhile_eq_cons hd
  have hkk' : k ≤ k' := by simpa using MVCCKey.key_le_of_le hle
  rcases hkk'.lt_or_eq with hlt | rfl
  · -- the cursor is already past `k`
    refine ⟨s₁, fun fuel hf => ?_, singleKeyGet_absent decode (fun e he hek => ?_) rfl rfl⟩
    · obtain ⟨f, rfl⟩ : ∃ f, fuel = f + 1 := ⟨fuel - 1, by omega⟩
      exact scanLoop_pastEnd decode f s₁ _ rest hd (by simp [pastEnd, s₁, new, hlt])
    · rcases hs.eq_or_lt_of_dropWhile hd he (hge e he hek.ge) with rfl | h
      · exact absurd hek (ne_of_gt hlt)
      · exact absurd (hek ▸ MVCCKey.key_le_of_le h.le) (not_le.2 hlt)
  -- the cursor is on the first entry of `k`
  obtain ⟨hstop, hget⟩ := getCurrentKey_single decode (s := s₁) hs hd hd rfl rfl
  exact ⟨_, scanLoop_two_passes decode rfl hm₁ hd rfl (by simpa using hstop) (by simp [s₁, new]),
    singleKeyGet_advanceToNextKey decode hget⟩

theorem scan_single_key_intent_store :
    SortedStore [((⟨1, none⟩ : MVCCKey ℕ ℕ), 99), (⟨1, some 5⟩, 10), (⟨1, some 3⟩, 11), (⟨2, some 1⟩, 20)] ∧
      1 ≤ 1 ∧ ∃ s, (∀ fuel, 2 ≤ fuel →
        (new (.new [((⟨1, none⟩ : MVCCKey ℕ ℕ), 99), (⟨1, some 5⟩, 10), (⟨1, some 3⟩, 11), (⟨2, some 1⟩, 20)])
          1 none 4 1 (none : Option (Txn ℕ ℕ))).scan (fun v => ⟨v, ⟨0, 0⟩⟩) fuel = .ok s) ∧
        SingleKeyGet (fun v => ⟨v, ⟨0, 0⟩⟩)
          [((⟨1, none⟩ : MVCCKey ℕ ℕ), 99), (⟨1, some 5⟩, 10), (⟨1, some 3⟩, 11), (⟨2, some 1⟩, 20)] 1 4 s :=
  ⟨by decide, le_rfl, scan_single_key _ _ (by decide) 1 4 1 le_rfl none⟩

end SingleKey

/-! ## Range scans -/

section Range
variable (decode : V → UncommittedValue U T V)

/-- The intent stored for user key `u`, if any. -/
def intentOf (store : List (MVCCKey K T × V)) (u : K) : Option V :=
  (store.find? (fun e => e.1 = createIntentKey u)).map (·.2)

/-- The newest version of `u` at or below `ts`: the greatest such timestamp and its value. -/
def newestVisible (store : List (MVCCKey K T × V)) (u : K) (ts : T) : Option (T × V) :=
  (store.filterMap fun e =>
      if e.1.key = u then e.1.timestamp.bind fun t => if t ≤ ts then some (t, e.2) else none
      else none).foldl
    (fun acc x => match acc with
      | some y => if y.1 < x.1 then some x else some y
      | none => some x) none

/-- One user key of the spec's range scan (§4.1): nothing once `results` holds `m` entries; else the
key's intent, or else its newest visible version. -/
def rangeScanStep (store : List (MVCCKey K T × V)) (ts : T) (m : Nat)
    (acc : List (TxnIntent U K T × V) × List (MVCCKey K T × V)) (u : K) :
    List (TxnIntent U K T × V) × List (MVCCKey K T × V) :=
  if acc.2.length = m then acc
  else match intentOf store u with
    | some v => (acc.1 ++ [(⟨(decode v).txnMetadata, u⟩, (decode v).value)], acc.2)
    | none => match newestVisible store u ts with
      | some (t, v) => (acc.1, acc.2 ++ [(⟨u, some t⟩, v)])
      | none => acc

/-- The spec's range scan of `[startKey, endKey]`: `found_intents` and `results` after walking the
store's distinct user keys in the range, in the store's (ascending) order. -/
def rangeScanReference (store : List (MVCCKey K T × V)) (startKey endKey : K) (ts : T) (m : Nat) :
    List (TxnIntent U K T × V) × List (MVCCKey K T × V) :=
  ((store.map (·.1.key)).dedup.filter fun u => startKey ≤ u ∧ u ≤ endKey).foldl
    (rangeScanStep decode store ts m) ([], [])

/-- Key `1` has only a version newer than the scan timestamp and key `2` a visible one: `scan`
returns nothing, where the spec's walk returns the version of key `2`. After `seek_older_version`
misses, the cursor is already on key `2`, and `advance_to_next_key` skips it. -/
theorem scan_skips_key_after_newer_versions :
    ((new (.new [((⟨1, some 5⟩ : MVCCKey ℕ ℕ), 10), (⟨2, some 1⟩, 20)]) 1 (some 2) 3 10
        (none : Option (Txn ℕ ℕ))).scan (fun v => ⟨v, ⟨0, 0⟩⟩) 3).map (·.results) = .ok [] ∧
      (rangeScanReference (fun (v : ℕ) => (⟨v, ⟨(0 : ℕ), (0 : ℕ)⟩⟩ : UncommittedValue ℕ ℕ ℕ))
        [((⟨1, some 5⟩ : MVCCKey ℕ ℕ), 10), (⟨2, some 1⟩, 20)] 1 2 3 10).2 = [(⟨2, some 1⟩, 20)] :=
  ⟨rfl, rfl⟩

end Range

end LittleKeyValueDb.Storage
