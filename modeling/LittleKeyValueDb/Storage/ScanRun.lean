import LittleKeyValueDb.Storage.ScanSpec

/-! # Every range scan on a sorted store

`scan` from `MVCCScanner::new`, over any sorted store, for any range, timestamp, record limit and
transaction. Its loop keeps the cursor at a key boundary: every entry the cursor has left behind has
a smaller user key than every entry at or after it (`AtKeyBoundary`). From such a cursor one pass of
the loop (`get_current_key`, then `advance_to_next_key`)

* moves the cursor strictly forward and past the user key it was on (`pass_cursor`): the
  `seek_ge` of `seek_older_version` lands after the cursor, because everything before the cursor
  is below the key it seeks. So the scan returns within one pass more than the store has entries
  (`scan_returns`);
* records at most one thing for that key, and only what a read of it should see: its intent, or,
  when it has none, its newest version at or below the scan timestamp (`getCurrentKey_records`).

Hence everything a scan returns is right (`scan_sound`): each result is the newest visible
version of a user key in `[start_key, end_key]` that has no intent, the results are in increasing
key order and at most `max_records_count` of them, and each found intent is the intent of a user
key in the range. What a scan can miss is `scan_skips_key_after_newer_versions`.
-/

namespace LittleKeyValueDb.Storage
open MVCCScanner
set_option autoImplicit false
set_option linter.unusedSectionVars false

variable {K T V U : Type} [LinearOrder K] [LinearOrder T]

/-! ## The cursor -/

/-- The cursor `rest` of `store` is at a key boundary: every entry before it has a smaller user key
than every entry at or after it. -/
def AtKeyBoundary (store rest : List (MVCCKey K T × V)) : Prop :=
  ∃ pre, store = pre ++ rest ∧ ∀ a ∈ pre, ∀ b ∈ rest, a.1.key < b.1.key

section Cursor
variable {store : List (MVCCKey K T × V)}

theorem atKeyBoundary_nil (store : List (MVCCKey K T × V)) : AtKeyBoundary store [] :=
  ⟨store, by simp, by simp⟩

theorem AtKeyBoundary.suffix {rest : List (MVCCKey K T × V)} (h : AtKeyBoundary store rest) : rest <:+ store := by
  obtain ⟨pre, rfl, -⟩ := h
  exact List.suffix_append pre rest

theorem SortedStore.atKeyBoundary_seekGe (hs : SortedStore store) (k : K) :
    AtKeyBoundary store (store.dropWhile (fun e => e.1 < createIntentKey k)) := by
  refine ⟨_, (List.takeWhile_append_dropWhile _ _).symm, fun a ha b hb => ?_⟩
  have ha' : a.1.key < k := (lt_createIntentKey_iff _ _).1 (by simpa using List.mem_takeWhile_imp ha)
  exact ha'.trans_le (MVCCKey.key_le_of_le ((hs.mem_dropWhile_iff _ b).1 hb).2)

theorem lt_key_of_mem_dropWhile {k : K} :
    ∀ {r : List (MVCCKey K T × V)}, r.Pairwise (fun a b => a.1 < b.1) → (∀ e ∈ r, k ≤ e.1.key) →
      ∀ b ∈ r.dropWhile (fun e => e.1.key = k), k < b.1.key
  | [], _, _ => by simp
  | a :: r, hp, hk => by
    rw [List.pairwise_cons] at hp
    by_cases ha : a.1.key = k
    · simpa [ha] using lt_key_of_mem_dropWhile hp.2 fun e he => hk e (List.mem_cons_of_mem _ he)
    · have hka : k < a.1.key := lt_of_le_of_ne (hk a (List.mem_cons_self _ _)) (Ne.symm ha)
      simp only [List.dropWhile_cons, ha, decide_False, Bool.false_eq_true, if_false, List.mem_cons]
      rintro b (rfl | hb)
      · exact hka
      · exact hka.trans_le (MVCCKey.key_le_of_le (hp.1 b hb).le)

theorem SortedStore.atKeyBoundary_skip (hs : SortedStore store) {h : MVCCKey K T × V}
    {r : List (MVCCKey K T × V)} (hsuf : h :: r <:+ store) :
    AtKeyBoundary store (r.dropWhile (fun e => e.1.key = h.1.key)) ∧
      ∀ b ∈ r.dropWhile (fun e => e.1.key = h.1.key), h.1.key < b.1.key := by
  obtain ⟨pre, rfl⟩ := hsuf
  obtain ⟨-, hhr, hpre⟩ := List.pairwise_append.1 hs
  obtain ⟨hh, hr⟩ := List.pairwise_cons.1 hhr
  have hgt := lt_key_of_mem_dropWhile hr fun e he => MVCCKey.key_le_of_le (hh e he).le
  refine ⟨⟨pre ++ h :: r.takeWhile (fun e => e.1.key = h.1.key), by simp, fun a ha b hb => ?_⟩, hgt⟩
  refine lt_of_le_of_lt ?_ (hgt b hb)
  simp only [List.mem_append, List.mem_cons] at ha
  rcases ha with ha | rfl | ha
  · exact MVCCKey.key_le_of_le (hpre a ha h (List.mem_cons_self _ _)).le
  · exact le_rfl
  · exact (by simpa using List.mem_takeWhile_imp ha : a.1.key = h.1.key).le

theorem AtKeyBoundary.dropWhile_eq {e : MVCCKey K T × V} {r : List (MVCCKey K T × V)} {x : MVCCKey K T}
    (hb : AtKeyBoundary store (e :: r)) (hx : e.1 < x) (hk : x.key = e.1.key) :
    store.dropWhile (fun a => a.1 < x) = r.dropWhile (fun a => a.1 < x) := by
  obtain ⟨pre, rfl, hpre⟩ := hb
  rw [← List.singleton_append, ← List.append_assoc, List.dropWhile_append_of_pos]
  intro a ha
  rcases List.mem_append.1 ha with ha | ha
  · simpa using MVCCKey.lt_of_key_lt (hk ▸ hpre a ha e (List.mem_cons_self _ _))
  · simpa [List.mem_singleton.1 ha] using hx

end Cursor

/-! ## One pass of the loop -/

section Pass
variable (decode : V → UncommittedValue U T V) {s : MVCCScanner K T V U} {e : MVCCKey K T × V}
  {r : List (MVCCKey K T × V)}

theorem getCurrentKey_cursor (hb : AtKeyBoundary s.it.store s.it.rest)
    (hr : s.it.rest = e :: r) :
    ((s.getCurrentKey decode).1.it.rest = e :: r ∨ (s.getCurrentKey decode).1.it.rest <:+ r) ∧
      (s.getCurrentKey decode).1.it.rest <:+ s.it.store := by
  obtain ⟨⟨k, ts0⟩, v⟩ := e
  have hsuf : s.it.rest <:+ s.it.store := hb.suffix
  cases ts0 with
  | none => rw [getCurrentKey_intent decode hr]; exact ⟨.inl hr, hsuf⟩
  | some t =>
    rcases le_or_lt t s.timestamp with hvis | hnew
    · rw [getCurrentKey_visible decode hr hvis]; exact ⟨.inl hr, hsuf⟩
    · have hb' : AtKeyBoundary s.it.store ((⟨k, some t⟩, v) :: r) := hr ▸ hb
      rw [getCurrentKey_newer decode hr hnew, seekOlderVersion_it, MVCCIterator.seekGe_rest,
        hb'.dropWhile_eq (x := ⟨k, some s.timestamp⟩) ((MVCCKey.lt_iff _ _).2 (.inr ⟨rfl, hnew⟩)) rfl]
      exact ⟨.inr (List.dropWhile_suffix _), ((List.dropWhile_suffix _).trans (List.suffix_cons _ _)).trans
        (hr ▸ hsuf)⟩

/-- **A pass moves the cursor forward.** From a cursor at a key boundary of a sorted store, on the
entry `e`, a pass of the scan loop leaves the cursor at a key boundary, nearer the end, and past the
user key of `e`. -/
theorem pass_cursor (hs : SortedStore s.it.store) (hb : AtKeyBoundary s.it.store s.it.rest)
    (hr : s.it.rest = e :: r) :
    AtKeyBoundary s.it.store (s.getCurrentKey decode).1.advanceToNextKey.it.rest ∧
      (s.getCurrentKey decode).1.advanceToNextKey.it.rest.length < s.it.rest.length ∧
      ∀ b ∈ (s.getCurrentKey decode).1.advanceToNextKey.it.rest, e.1.key < b.1.key := by
  obtain ⟨hcur, hsuf⟩ := getCurrentKey_cursor decode hb hr
  set s₁ := (s.getCurrentKey decode).1
  have hs₁ : SortedStore s₁.it.store := by simpa [s₁] using hs
  rcases h₁ : s₁.it.rest with _ | ⟨h, r₁⟩
  · simp only [advanceToNextKey, h₁]
    exact ⟨by simpa [s₁] using atKeyBoundary_nil s₁.it.store, by simp [hr], by simp⟩
  rw [advanceToNextKey_rest h₁]
  obtain ⟨hb', hgt⟩ := hs₁.atKeyBoundary_skip (h₁ ▸ hsuf.trans (by simp [s₁]))
  -- the entry the cursor is on after `get_current_key` is `e`, or an entry after it
  have hle : e.1.key ≤ h.1.key ∧ r₁.length ≤ r.length := by
    rcases hcur with hc | hc
    · rw [h₁] at hc
      obtain ⟨rfl, rfl⟩ := List.cons_eq_cons.1 hc
      exact ⟨le_rfl, le_rfl⟩
    · rw [h₁] at hc
      have hhr : h ∈ r := hc.subset (List.mem_cons_self _ _)
      have hp := (List.pairwise_cons.1 (hs.sublist (hr ▸ hb.suffix).sublist)).1 h hhr
      have := hc.length_le
      exact ⟨MVCCKey.key_le_of_le hp.le, by simp at this; omega⟩
  refine ⟨by simpa [s₁] using hb', ?_, fun b hb'' => hle.1.trans_lt (hgt b hb'')⟩
  calc (r₁.dropWhile _).length ≤ r₁.length := (List.dropWhile_suffix _).length_le
    _ < s.it.rest.length := by rw [hr]; simp; omega

theorem AtKeyBoundary.head_lt (hs : SortedStore s.it.store) (hb : AtKeyBoundary s.it.store s.it.rest)
    (hr : s.it.rest = e :: r) : ∀ b ∈ r, e.1 < b.1 := by
  obtain ⟨pre, hpre, -⟩ := hb
  rw [hpre, hr] at hs
  exact (List.pairwise_cons.1 (List.pairwise_append.1 hs).2.1).1

theorem AtKeyBoundary.le_of_key_eq (hs : SortedStore s.it.store) (hb : AtKeyBoundary s.it.store s.it.rest)
    (hr : s.it.rest = e :: r) : ∀ a ∈ s.it.store, a.1.key = e.1.key → e.1 ≤ a.1 := by
  intro a ha hk
  have hafter := hb.head_lt hs hr
  obtain ⟨pre, hpre, hlt⟩ := hb
  rw [hpre, hr, List.mem_append, List.mem_cons] at ha
  rcases ha with ha | rfl | ha
  · exact absurd hk (ne_of_lt (hlt a ha e (hr ▸ List.mem_cons_self _ _)))
  · exact le_rfl
  · exact (hafter a ha).le

end Pass

/-! ## What a pass records -/

/-- What a scan may return for user key `k`: the newest version of `k` at or below `ts`, `k` having
no intent. -/
def SoundResult (store : List (MVCCKey K T × V)) (ts : T) (k : K) (x : MVCCKey K T × V) : Prop :=
  ∃ t, x.1 = ⟨k, some t⟩ ∧ NewestVisible store k ts t x.2 ∧ ∀ w, (createIntentKey k, w) ∉ store

/-- What a scan may record as the intent of user key `k`: the intent stored for `k`, decoded. -/
def SoundIntent (decode : V → UncommittedValue U T V) (store : List (MVCCKey K T × V)) (k : K)
    (i : TxnIntent U K T × V) : Prop :=
  ∃ w, (createIntentKey k, w) ∈ store ∧ i = (⟨(decode w).txnMetadata, k⟩, (decode w).value)

theorem SoundResult.key_eq {store : List (MVCCKey K T × V)} {ts : T} {k : K} {x : MVCCKey K T × V}
    (h : SoundResult store ts k x) : x.1.key = k := by
  obtain ⟨t, hx, -⟩ := h
  rw [hx]

theorem SoundIntent.key_eq {decode : V → UncommittedValue U T V} {store : List (MVCCKey K T × V)} {k : K}
    {i : TxnIntent U K T × V} (h : SoundIntent decode store k i) : i.1.key = k := by
  obtain ⟨w, -, rfl⟩ := h
  rfl

section Records
variable (decode : V → UncommittedValue U T V) {s : MVCCScanner K T V U} {e : MVCCKey K T × V}
  {r : List (MVCCKey K T × V)}

theorem getCurrentKey_records (hs : SortedStore s.it.store) (hb : AtKeyBoundary s.it.store s.it.rest)
    (hr : s.it.rest = e :: r) :
    ((s.getCurrentKey decode).1.results = s.results ∧
      ((s.getCurrentKey decode).1.foundIntents = s.foundIntents ∨
        ∃ i, SoundIntent decode s.it.store e.1.key i ∧
          (s.getCurrentKey decode).1.foundIntents = s.foundIntents ++ [i])) ∨
    ∃ x, SoundResult s.it.store s.timestamp e.1.key x ∧ (s.getCurrentKey decode).1.results = s.results ++ [x] ∧
      (s.getCurrentKey decode).1.foundIntents = s.foundIntents := by
  have hfirst := hb.le_of_key_eq hs hr
  have he : e ∈ s.it.store := hb.suffix.subset (hr ▸ List.mem_cons_self _ _)
  obtain ⟨⟨k, ts0⟩, v⟩ := e
  cases ts0 with
  | none =>
    rw [getCurrentKey_intent decode hr]
    exact .inl ⟨rfl, .inr ⟨_, ⟨v, he, rfl⟩, rfl⟩⟩
  | some t =>
  have hnoIntent : ∀ w, (createIntentKey k, w) ∉ s.it.store := fun w hw =>
    absurd (hfirst _ hw rfl) (not_le.2 ((MVCCKey.lt_iff _ _).2 (.inr ⟨rfl, trivial⟩)))
  rcases le_or_lt t s.timestamp with hvis | hnew
  · rw [getCurrentKey_visible decode hr hvis]
    refine .inr ⟨_, ⟨t, rfl, ⟨he, hvis, fun t' v' h _ => ?_⟩, hnoIntent⟩, rfl, rfl⟩
    exact (MVCCKey.some_le_some_iff k t t').1 (hfirst _ h rfl)
  · rw [getCurrentKey_newer decode hr hnew]
    rcases (seekOlderVersion_single hs).2 with ⟨t', v', hnv, hres⟩ | ⟨-, hres⟩
    · exact .inr ⟨_, ⟨t', rfl, hnv, hnoIntent⟩, hres, by simp⟩
    · exact .inl ⟨hres, .inl (by simp)⟩

end Records

/-! ## Whole scans -/

/-- A list a scan gathers: in increasing key order, each entry `sound` for its user key, the keys in
`[lo, hi]` and below every entry of the cursor `rest`. -/
def Gathered {α : Type} (key : α → K) (sound : K → α → Prop) (lo hi : K) (rest : List (MVCCKey K T × V))
    (l : List α) : Prop :=
  l.Pairwise (fun a b => key a < key b) ∧ ∀ a ∈ l, lo ≤ key a ∧ key a ≤ hi ∧ sound (key a) a ∧ ∀ b ∈ rest, key a < b.1.key

theorem Gathered.pass {α : Type} {key : α → K} {sound : K → α → Prop} {lo hi : K}
    {rest rest' : List (MVCCKey K T × V)} {e : MVCCKey K T × V} {l l' : List α}
    (h : Gathered key sound lo hi rest l) (he : e ∈ rest) (hfwd : ∀ b ∈ rest', e.1.key < b.1.key)
    (hlo : lo ≤ e.1.key) (hhi : e.1.key ≤ hi) (hkey : ∀ x, sound e.1.key x → key x = e.1.key)
    (hl : l' = l ∨ ∃ x, sound e.1.key x ∧ l' = l ++ [x]) :
    Gathered key sound lo hi rest' l' := by
  have hlt : ∀ a ∈ l, key a < e.1.key := fun a ha => (h.2 a ha).2.2.2 e he
  have hold : ∀ a ∈ l, lo ≤ key a ∧ key a ≤ hi ∧ sound (key a) a ∧ ∀ b ∈ rest', key a < b.1.key :=
    fun a ha => ⟨(h.2 a ha).1, (h.2 a ha).2.1, (h.2 a ha).2.2.1, fun b hb => (hlt a ha).trans (hfwd b hb)⟩
  rcases hl with rfl | ⟨x, hsx, rfl⟩
  · exact ⟨h.1, hold⟩
  refine ⟨List.pairwise_append.2 ⟨h.1, List.pairwise_singleton _ _, fun a ha b hb => ?_⟩, fun a ha => ?_⟩
  · rw [List.mem_singleton.1 hb, hkey x hsx]
    exact hlt a ha
  · rcases List.mem_append.1 ha with ha | ha
    · exact hold a ha
    · rw [List.mem_singleton.1 ha, hkey x hsx]
      exact ⟨hlo, hhi, hsx, hfwd⟩

/-- What a scan has gathered so far is right and below its cursor, the cursor is at or after the
start key, and the results are within the limit. -/
structure ScanSound (decode : V → UncommittedValue U T V) (s : MVCCScanner K T V U) : Prop where
  results : Gathered (fun x : MVCCKey K T × V => x.1.key) (SoundResult s.it.store s.timestamp) s.startKey
    (s.endKey.getD s.startKey) s.it.rest s.results
  intents : Gathered (fun i : TxnIntent U K T × V => i.1.key) (SoundIntent decode s.it.store) s.startKey
    (s.endKey.getD s.startKey) s.it.rest s.foundIntents
  cursor : ∀ b ∈ s.it.rest, s.startKey ≤ b.1.key
  bounded : s.results.length ≤ s.maxRecordsCount

/-- Where the scan loop stops: the results are full, the cursor is off the end, or its entry is past
the end. -/
def Stopped (s : MVCCScanner K T V U) : Prop :=
  s.results.length = s.maxRecordsCount ∨ s.it.rest = [] ∨ ∃ e r, s.it.rest = e :: r ∧ s.pastEnd e.1.key = true

section Run
variable (decode : V → UncommittedValue U T V)

/-- **Run lemma.** What every pass of the scan loop keeps, from a cursor on an entry that is not past
the end with room for a result, holds of what the loop returns; and the loop returns a stopped
scanner. -/
theorem scanLoop_invariant (P : MVCCScanner K T V U → Prop)
    (hstep : ∀ s e r, P s → s.it.rest = e :: r → s.results.length ≠ s.maxRecordsCount →
      s.pastEnd e.1.key = false → P (s.getCurrentKey decode).1.advanceToNextKey) :
    ∀ (fuel : Nat) (s s' : MVCCScanner K T V U), scanLoop decode fuel s = .ok s' → P s → P s' ∧ Stopped s'
  | 0, _, _, h, _ => nomatch h
  | fuel + 1, s, s', h, hP => by
    by_cases hm : s.results.length = s.maxRecordsCount
    · rw [scanLoop_full decode fuel s hm, except_pure_eq_ok] at h
      exact h ▸ ⟨hP, .inl hm⟩
    rcases hr : s.it.rest with _ | ⟨e, r⟩
    · rw [scanLoop_invalid decode fuel s hr, except_pure_eq_ok] at h
      exact h ▸ ⟨hP, .inr (.inl hr)⟩
    cases hp : s.pastEnd e.1.key
    · rw [scanLoop_step decode fuel s e r hm hr hp] at h
      exact scanLoop_invariant P hstep fuel _ s' h (hstep s e r hP hr hm hp)
    · rw [scanLoop_pastEnd decode fuel s e r hr hp, except_pure_eq_ok] at h
      exact h ▸ ⟨hP, .inr (.inr ⟨e, r, hr, hp⟩)⟩

/-- **Termination run lemma.** From a key boundary of a sorted store, the scan loop returns when its
fuel exceeds the entries left from the cursor on. -/
theorem scanLoop_returns : ∀ (fuel : Nat) (s : MVCCScanner K T V U), SortedStore s.it.store →
    AtKeyBoundary s.it.store s.it.rest → s.it.rest.length < fuel → ∃ s', scanLoop decode fuel s = .ok s'
  | 0, _, _, _, h => absurd h (Nat.not_lt_zero _)
  | fuel + 1, s, hs, hb, hf => by
    by_cases hm : s.results.length = s.maxRecordsCount
    · exact ⟨s, scanLoop_full decode fuel s hm⟩
    rcases hr : s.it.rest with _ | ⟨e, r⟩
    · exact ⟨s, scanLoop_invalid decode fuel s hr⟩
    cases hp : s.pastEnd e.1.key
    · obtain ⟨hb', hlt, -⟩ := pass_cursor decode hs hb hr
      rw [scanLoop_step decode fuel s e r hm hr hp]
      exact scanLoop_returns fuel _ (by simpa using hs) (by simpa using hb') (by omega)
    · exact ⟨s, scanLoop_pastEnd decode fuel s e r hr hp⟩

/-- **Every scan of a sorted store returns**, given one unit of fuel more than the store has entries:
each pass of the loop moves the cursor forward by at least one entry. -/
theorem scan_returns (s : MVCCScanner K T V U) (hs : SortedStore s.it.store) (fuel : Nat)
    (hf : s.it.store.length < fuel) : ∃ s', s.scan decode fuel = .ok s' :=
  scanLoop_returns decode fuel _ hs (hs.atKeyBoundary_seekGe _)
    (lt_of_le_of_lt (List.dropWhile_suffix _).length_le hf)

theorem scan_returns_two_keys :
    SortedStore [((⟨1, some 5⟩ : MVCCKey ℕ ℕ), 10), (⟨1, some 3⟩, 11), (⟨2, none⟩, 7), (⟨2, some 1⟩, 20)] ∧
      [((⟨1, some 5⟩ : MVCCKey ℕ ℕ), 10), (⟨1, some 3⟩, 11), (⟨2, none⟩, 7), (⟨2, some 1⟩, 20)].length < 5 ∧
      ∃ s', (new (.new [((⟨1, some 5⟩ : MVCCKey ℕ ℕ), 10), (⟨1, some 3⟩, 11), (⟨2, none⟩, 7), (⟨2, some 1⟩, 20)])
          1 (some 2) 4 10 (none : Option (Txn ℕ ℕ))).scan (fun v => ⟨v, ⟨0, 0⟩⟩) 5 = .ok s' :=
  ⟨by decide, by decide, scan_returns _ _ (by decide) 5 (by decide)⟩

/-- **Step lemma.** A pass of the scan loop keeps the scan sound. -/
theorem ScanSound.pass {s : MVCCScanner K T V U} {e : MVCCKey K T × V} {r : List (MVCCKey K T × V)}
    (hs : SortedStore s.it.store) (hb : AtKeyBoundary s.it.store s.it.rest) (h : ScanSound decode s)
    (hr : s.it.rest = e :: r) (hm : s.results.length ≠ s.maxRecordsCount) (hp : s.pastEnd e.1.key = false) :
    ScanSound decode (s.getCurrentKey decode).1.advanceToNextKey := by
  obtain ⟨-, -, hfwd⟩ := pass_cursor decode hs hb hr
  have he : e ∈ s.it.rest := hr ▸ List.mem_cons_self _ _
  have hlo := h.cursor e he
  have hhi := (pastEnd_eq_false_iff e.1.key).1 hp
  have hcursor : ∀ b ∈ (s.getCurrentKey decode).1.advanceToNextKey.it.rest, s.startKey ≤ b.1.key :=
    fun b hb => hlo.trans (hfwd b hb).le
  have hadd : ((s.getCurrentKey decode).1.results = s.results ∨
      ∃ x, SoundResult s.it.store s.timestamp e.1.key x ∧ (s.getCurrentKey decode).1.results = s.results ++ [x]) ∧
      ((s.getCurrentKey decode).1.foundIntents = s.foundIntents ∨
      ∃ i, SoundIntent decode s.it.store e.1.key i ∧ (s.getCurrentKey decode).1.foundIntents = s.foundIntents ++ [i]) := by
    rcases getCurrentKey_records decode hs hb hr with ⟨hres, hint⟩ | ⟨x, hx, hres, hint⟩
    · exact ⟨.inl hres, hint⟩
    · exact ⟨.inr ⟨x, hx, hres⟩, .inl hint⟩
  refine ⟨?_, ?_, ?_, ?_⟩ <;> simp only [advanceToNextKey_results, advanceToNextKey_foundIntents,
    advanceToNextKey_startKey, advanceToNextKey_endKey, advanceToNextKey_timestamp, advanceToNextKey_store,
    advanceToNextKey_maxRecordsCount, getCurrentKey_startKey, getCurrentKey_endKey, getCurrentKey_timestamp,
    getCurrentKey_store, getCurrentKey_maxRecordsCount]
  · exact h.results.pass he hfwd hlo hhi (fun _ hx => hx.key_eq) hadd.1
  · exact h.intents.pass he hfwd hlo hhi (fun _ hi => hi.key_eq) hadd.2
  · exact hcursor
  · rcases hadd.1 with hres | ⟨x, -, hres⟩
    · exact hres ▸ h.bounded
    · have := h.bounded
      rw [hres, List.length_append, List.length_singleton]
      omega

/-- **Everything a range scan returns is right.** Over a sorted store, each result of a scan of
`[startKey, endKey]` (of `startKey` alone when there is no end key) is the newest version at or
below the read timestamp of a user key in the range that has no intent; the results are in
increasing key order, so no key twice, and at most `m` of them; each found intent is the decoded
intent of a user key in the range, also in increasing key order. -/
theorem scan_sound (store : List (MVCCKey K T × V)) (hs : SortedStore store) (startKey : K)
    (endKey : Option K) (ts : T) (m : Nat) (txn : Option (Txn U T)) (fuel : Nat) (s' : MVCCScanner K T V U)
    (h : (new (.new store) startKey endKey ts m txn).scan decode fuel = .ok s') :
    (∀ x ∈ s'.results, startKey ≤ x.1.key ∧ x.1.key ≤ endKey.getD startKey ∧ SoundResult store ts x.1.key x) ∧
      s'.results.Pairwise (fun a b => a.1.key < b.1.key) ∧ s'.results.length ≤ m ∧
    (∀ i ∈ s'.foundIntents,
      startKey ≤ i.1.key ∧ i.1.key ≤ endKey.getD startKey ∧ SoundIntent decode store i.1.key i) ∧
      s'.foundIntents.Pairwise (fun a b => a.1.key < b.1.key) := by
  have hcursor : ∀ b ∈ store.dropWhile (fun e => e.1 < createIntentKey startKey), startKey ≤ b.1.key :=
    fun b hb => MVCCKey.key_le_of_le ((hs.mem_dropWhile_iff _ b).1 hb).2
  obtain ⟨⟨-, -, hsd, hst, hlo, hhi, hts, hm⟩, -⟩ := scanLoop_invariant decode
    (fun s => SortedStore s.it.store ∧ AtKeyBoundary s.it.store s.it.rest ∧ ScanSound decode s ∧
      s.it.store = store ∧ s.startKey = startKey ∧ s.endKey = endKey ∧ s.timestamp = ts ∧ s.maxRecordsCount = m)
    (fun s e r ⟨hs, hb, hsd, hst, hlo, hhi, hts, hm⟩ hr hne hp =>
      ⟨by simpa using hs, by simpa using (pass_cursor decode hs hb hr).1, hsd.pass decode hs hb hr hne hp,
        by simpa using hst, by simpa using hlo, by simpa using hhi, by simpa using hts, by simpa using hm⟩)
    fuel _ s' h ⟨hs, hs.atKeyBoundary_seekGe _, ⟨⟨.nil, by simp⟩, ⟨.nil, by simp⟩, hcursor, Nat.zero_le m⟩,
      rfl, rfl, rfl, rfl, rfl⟩
  subst hst hlo hhi hts hm
  refine ⟨fun x hx => ?_, hsd.results.1, hsd.bounded, fun i hi => ?_, hsd.intents.1⟩
  · obtain ⟨hlo, hhi, hsound, -⟩ := hsd.results.2 x hx
    exact ⟨hlo, hhi, hsound⟩
  · obtain ⟨hlo, hhi, hsound, -⟩ := hsd.intents.2 i hi
    exact ⟨hlo, hhi, hsound⟩

theorem scan_sound_two_keys :
    SortedStore [((⟨1, some 5⟩ : MVCCKey ℕ ℕ), 10), (⟨1, some 3⟩, 11), (⟨2, none⟩, 7), (⟨2, some 1⟩, 20)] ∧
      ∃ s', (new (.new [((⟨1, some 5⟩ : MVCCKey ℕ ℕ), 10), (⟨1, some 3⟩, 11), (⟨2, none⟩, 7), (⟨2, some 1⟩, 20)])
          1 (some 2) 4 10 (none : Option (Txn ℕ ℕ))).scan (fun v => ⟨v, ⟨0, 0⟩⟩) 5 = .ok s' ∧
        ((∀ x ∈ s'.results, 1 ≤ x.1.key ∧ x.1.key ≤ (some 2).getD 1 ∧
          SoundResult [((⟨1, some 5⟩ : MVCCKey ℕ ℕ), 10), (⟨1, some 3⟩, 11), (⟨2, none⟩, 7), (⟨2, some 1⟩, 20)] 4
            x.1.key x) ∧
          s'.results.Pairwise (fun a b => a.1.key < b.1.key) ∧ s'.results.length ≤ 10 ∧
        (∀ i ∈ s'.foundIntents, 1 ≤ i.1.key ∧ i.1.key ≤ (some 2).getD 1 ∧
          SoundIntent (fun (v : ℕ) => (⟨v, ⟨(0 : ℕ), (0 : ℕ)⟩⟩ : UncommittedValue ℕ ℕ ℕ))
            [((⟨1, some 5⟩ : MVCCKey ℕ ℕ), 10), (⟨1, some 3⟩, 11), (⟨2, none⟩, 7), (⟨2, some 1⟩, 20)] i.1.key i) ∧
          s'.foundIntents.Pairwise (fun a b => a.1.key < b.1.key)) :=
  ⟨by decide, (fun h => ⟨_, h, scan_sound _ _ (by decide) 1 (some 2) 4 10 none 5 _ h⟩) rfl⟩

end Run

end LittleKeyValueDb.Storage
