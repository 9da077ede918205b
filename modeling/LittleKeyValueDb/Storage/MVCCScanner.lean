import LittleKeyValueDb.Fault
import LittleKeyValueDb.Storage.Basic

/-! # `MVCCScanner` (`storage/mvcc_scanner.rs`)

The scanner's state and its four methods, as the source computes them:

* `scan`: seek to the intent key of `start_key`, then loop: stop once `results` holds
  `max_records_count` entries, once the iterator is invalid, or once the current user key is past
  `end_key` (past `start_key` when there is no `end_key`); otherwise `get_current_key` and
  `advance_to_next_key`. The loop is run with fuel; `Fault.outOfFuel` means it had not stopped.
* `get_current_key`: an intent is recorded in `found_intents` (the source has three branches, by
  whether the scanner's transaction wrote the intent; all three push the same entry); a version
  at or below the scan timestamp goes to `results`; a newer one sends the scanner to
  `seek_older_version`.
* `seek_older_version`: `seek_ge((key, timestamp))`, and the entry found is added when it has the
  same user key.
* `advance_to_next_key`: `next` until the user key changes.

`current_value_serialized::<UncommittedValue>()` decodes the bytes stored under an intent key; the
codec is not under `src/`, so it is the parameter `decode`. The `println!` in `scan` is dropped.
-/

namespace LittleKeyValueDb.Storage
set_option autoImplicit false
set_option linter.unusedSectionVars false

/-- `MVCCScanner`. -/
structure MVCCScanner (K T V U : Type) where
  it : MVCCIterator K T V
  txn : Option (Txn U T)
  startKey : K
  endKey : Option K
  timestamp : T
  foundIntents : List (TxnIntent U K T × V)
  maxRecordsCount : Nat
  results : List (MVCCKey K T × V)

namespace MVCCScanner

variable {K T V U : Type} [LinearOrder K] [LinearOrder T]
variable (decode : V → UncommittedValue U T V)

/-- `MVCCScanner::new`. -/
def new (it : MVCCIterator K T V) (startKey : K) (endKey : Option K) (timestamp : T)
    (maxRecordsCount : Nat) (transaction : Option (Txn U T)) : MVCCScanner K T V U where
  it := it
  txn := transaction
  startKey := startKey
  endKey := endKey
  timestamp := timestamp
  foundIntents := []
  maxRecordsCount := maxRecordsCount
  results := []

/-- `seek_older_version`: whether a version of `key` at or below `timestamp` was added. -/
def seekOlderVersion (s : MVCCScanner K T V U) (key : K) (timestamp : T) : MVCCScanner K T V U × Bool :=
  let s := { s with it := s.it.seekGe ⟨key, some timestamp⟩ }
  match s.it.rest with
  | (currentKey, currentValue) :: _ =>
    if currentKey.key = key then ({ s with results := s.results ++ [(currentKey, currentValue)] }, true)
    else (s, false)
  | [] => (s, false)

/-- `get_current_key`: whether a record was added to `results` for the current key. `scan` calls it
on a valid iterator only. -/
def getCurrentKey (s : MVCCScanner K T V U) : MVCCScanner K T V U × Bool :=
  match s.it.rest with
  | [] => (s, false)
  | (currentKey, currentValue) :: _ =>
    match currentKey.timestamp with
    | none =>
      let cv := decode currentValue
      ({ s with foundIntents := s.foundIntents ++ [(⟨cv.txnMetadata, currentKey.key⟩, cv.value)] }, false)
    | some keyTimestamp =>
      if s.timestamp > keyTimestamp then ({ s with results := s.results ++ [(currentKey, currentValue)] }, true)
      else if s.timestamp < keyTimestamp then s.seekOlderVersion currentKey.key s.timestamp
      else ({ s with results := s.results ++ [(currentKey, currentValue)] }, true)

/-- The loop of `advance_to_next_key`: `next`, and again while the user key is still `key`. -/
def skipKey (key : K) : List (MVCCKey K T × V) → List (MVCCKey K T × V)
  | [] => []
  | e :: rest => if key ≠ e.1.key then e :: rest else skipKey key rest

/-- `advance_to_next_key`. -/
def advanceToNextKey (s : MVCCScanner K T V U) : MVCCScanner K T V U :=
  match s.it.rest with
  | [] => s
  | (currentKey, _) :: rest => { s with it := { s.it with rest := skipKey currentKey.key rest } }

/-- Whether the scan has passed its last key: the end key, or the start key for a single-key get. -/
def pastEnd (s : MVCCScanner K T V U) (key : K) : Bool :=
  match s.endKey with
  | some endKey => key > endKey
  | none => key > s.startKey

/-- The loop of `scan`, given `fuel` passes. -/
def scanLoop : Nat → MVCCScanner K T V U → Except Fault (MVCCScanner K T V U)
  | 0, _ => throw .outOfFuel
  | fuel + 1, s =>
    if s.results.length = s.maxRecordsCount then pure s
    else match s.it.rest with
      | [] => pure s
      | (currentKey, _) :: _ =>
        if s.pastEnd currentKey.key then pure s
        else scanLoop fuel (s.getCurrentKey decode).1.advanceToNextKey

/-- `scan`. -/
def scan (fuel : Nat) (s : MVCCScanner K T V U) : Except Fault (MVCCScanner K T V U) :=
  scanLoop decode fuel { s with it := s.it.seekGe (createIntentKey s.startKey) }

/-! ## Field lemmas -/

@[simp] theorem new_results (it : MVCCIterator K T V) (startKey : K) (endKey : Option K) (timestamp : T)
    (m : Nat) (txn : Option (Txn U T)) : (new it startKey endKey timestamp m txn).results = [] := rfl

@[simp] theorem new_foundIntents (it : MVCCIterator K T V) (startKey : K) (endKey : Option K)
    (timestamp : T) (m : Nat) (txn : Option (Txn U T)) :
    (new it startKey endKey timestamp m txn).foundIntents = [] := rfl

theorem skipKey_eq_dropWhile (key : K) (l : List (MVCCKey K T × V)) :
    skipKey key l = l.dropWhile (fun e => e.1.key = key) := by
  induction l with
  | nil => rfl
  | cons e rest ih =>
    by_cases h : e.1.key = key
    · simp [skipKey, h, ih]
    · simp [skipKey, Ne.symm h, h]

/-! ## What each method does -/

section Methods
variable {s : MVCCScanner K T V U} {key : K} {v : V} {rest : List (MVCCKey K T × V)}

theorem getCurrentKey_intent (h : s.it.rest = (⟨key, none⟩, v) :: rest) :
    s.getCurrentKey decode =
      ({ s with foundIntents := s.foundIntents ++ [(⟨(decode v).txnMetadata, key⟩, (decode v).value)] },
        false) := by
  simp [getCurrentKey, h]

theorem getCurrentKey_visible {t : T} (h : s.it.rest = (⟨key, some t⟩, v) :: rest) (ht : t ≤ s.timestamp) :
    s.getCurrentKey decode = ({ s with results := s.results ++ [(⟨key, some t⟩, v)] }, true) := by
  rcases ht.lt_or_eq with ht | ht
  · simp [getCurrentKey, h, ht]
  · simp [getCurrentKey, h, ht]

theorem getCurrentKey_newer {t : T} (h : s.it.rest = (⟨key, some t⟩, v) :: rest) (ht : s.timestamp < t) :
    s.getCurrentKey decode = s.seekOlderVersion key s.timestamp := by
  simp [getCurrentKey, h, ht, not_lt.2 ht.le]

theorem seekOlderVersion_found {ts : T} {e : MVCCKey K T × V}
    (h : s.it.store.dropWhile (fun e => e.1 < ⟨key, some ts⟩) = e :: rest) (hk : e.1.key = key) :
    s.seekOlderVersion key ts =
      ({ s with it := s.it.seekGe ⟨key, some ts⟩, results := s.results ++ [e] }, true) := by
  simp [seekOlderVersion, h, hk]

theorem seekOlderVersion_missed {ts : T}
    (h : ∀ e ∈ (s.it.store.dropWhile (fun e => e.1 < ⟨key, some ts⟩)).head?, e.1.key ≠ key) :
    s.seekOlderVersion key ts = ({ s with it := s.it.seekGe ⟨key, some ts⟩ }, false) := by
  cases hd : s.it.store.dropWhile (fun e => e.1 < ⟨key, some ts⟩) with
  | nil => simp [seekOlderVersion, hd]
  | cons e r => simp_all [seekOlderVersion]

theorem advanceToNextKey_rest {e : MVCCKey K T × V} (h : s.it.rest = e :: rest) :
    s.advanceToNextKey.it.rest = rest.dropWhile (fun e' => e'.1.key = e.1.key) := by
  simp [advanceToNextKey, h, skipKey_eq_dropWhile]

@[simp] theorem advanceToNextKey_results : s.advanceToNextKey.results = s.results := by
  unfold advanceToNextKey; split <;> rfl

@[simp] theorem advanceToNextKey_foundIntents : s.advanceToNextKey.foundIntents = s.foundIntents := by
  unfold advanceToNextKey; split <;> rfl

@[simp] theorem advanceToNextKey_startKey : s.advanceToNextKey.startKey = s.startKey := by
  unfold advanceToNextKey; split <;> rfl

@[simp] theorem advanceToNextKey_endKey : s.advanceToNextKey.endKey = s.endKey := by
  unfold advanceToNextKey; split <;> rfl

@[simp] theorem advanceToNextKey_maxRecordsCount :
    s.advanceToNextKey.maxRecordsCount = s.maxRecordsCount := by
  unfold advanceToNextKey; split <;> rfl

@[simp] theorem seekOlderVersion_foundIntents {ts : T} :
    (s.seekOlderVersion key ts).1.foundIntents = s.foundIntents := by
  dsimp only [seekOlderVersion]; split <;> (try split) <;> rfl

@[simp] theorem seekOlderVersion_startKey {ts : T} : (s.seekOlderVersion key ts).1.startKey = s.startKey := by
  dsimp only [seekOlderVersion]; split <;> (try split) <;> rfl

@[simp] theorem seekOlderVersion_endKey {ts : T} : (s.seekOlderVersion key ts).1.endKey = s.endKey := by
  dsimp only [seekOlderVersion]; split <;> (try split) <;> rfl

@[simp] theorem advanceToNextKey_timestamp : s.advanceToNextKey.timestamp = s.timestamp := by
  unfold advanceToNextKey; split <;> rfl

@[simp] theorem advanceToNextKey_store : s.advanceToNextKey.it.store = s.it.store := by
  unfold advanceToNextKey; split <;> rfl

@[simp] theorem seekOlderVersion_it {ts : T} : (s.seekOlderVersion key ts).1.it = s.it.seekGe ⟨key, some ts⟩ := by
  dsimp only [seekOlderVersion]; split <;> (try split) <;> rfl

@[simp] theorem seekOlderVersion_timestamp {ts : T} : (s.seekOlderVersion key ts).1.timestamp = s.timestamp := by
  dsimp only [seekOlderVersion]; split <;> (try split) <;> rfl

@[simp] theorem seekOlderVersion_maxRecordsCount {ts : T} :
    (s.seekOlderVersion key ts).1.maxRecordsCount = s.maxRecordsCount := by
  dsimp only [seekOlderVersion]; split <;> (try split) <;> rfl

@[simp] theorem getCurrentKey_timestamp : (s.getCurrentKey decode).1.timestamp = s.timestamp := by
  unfold getCurrentKey; split <;> (try split) <;> (try split_ifs) <;> simp

@[simp] theorem getCurrentKey_maxRecordsCount :
    (s.getCurrentKey decode).1.maxRecordsCount = s.maxRecordsCount := by
  unfold getCurrentKey; split <;> (try split) <;> (try split_ifs) <;> simp

@[simp] theorem getCurrentKey_store : (s.getCurrentKey decode).1.it.store = s.it.store := by
  unfold getCurrentKey; split <;> (try split) <;> (try split_ifs) <;> simp

@[simp] theorem getCurrentKey_startKey : (s.getCurrentKey decode).1.startKey = s.startKey := by
  unfold getCurrentKey; split <;> (try split) <;> (try split_ifs) <;> simp

@[simp] theorem getCurrentKey_endKey : (s.getCurrentKey decode).1.endKey = s.endKey := by
  unfold getCurrentKey; split <;> (try split) <;> (try split_ifs) <;> simp

/-- A key is not past the end exactly when it is at most the end key, or, for a single-key read,
at most the start key. -/
theorem pastEnd_eq_false_iff (k : K) : s.pastEnd k = false ↔ k ≤ s.endKey.getD s.startKey := by
  unfold pastEnd
  cases s.endKey <;> simp

end Methods

/-! ## One pass of the loop -/

theorem scanLoop_succ (fuel : Nat) (s : MVCCScanner K T V U) :
    scanLoop decode (fuel + 1) s =
      if s.results.length = s.maxRecordsCount then pure s
      else match s.it.rest with
        | [] => pure s
        | (currentKey, _) :: _ =>
          if s.pastEnd currentKey.key then pure s
          else scanLoop decode fuel (s.getCurrentKey decode).1.advanceToNextKey := rfl

theorem scanLoop_full (fuel : Nat) (s : MVCCScanner K T V U) (h : s.results.length = s.maxRecordsCount) :
    scanLoop decode (fuel + 1) s = pure s := by
  simp [scanLoop_succ, h]

theorem scanLoop_invalid (fuel : Nat) (s : MVCCScanner K T V U) (h : s.it.rest = []) :
    scanLoop decode (fuel + 1) s = pure s := by
  simp [scanLoop_succ, h]

theorem scanLoop_pastEnd (fuel : Nat) (s : MVCCScanner K T V U) (e : MVCCKey K T × V)
    (rest : List (MVCCKey K T × V)) (h : s.it.rest = e :: rest) (hp : s.pastEnd e.1.key = true) :
    scanLoop decode (fuel + 1) s = pure s := by
  simp [scanLoop_succ, h, hp]

theorem scanLoop_step (fuel : Nat) (s : MVCCScanner K T V U) (e : MVCCKey K T × V)
    (rest : List (MVCCKey K T × V)) (hm : s.results.length ≠ s.maxRecordsCount)
    (h : s.it.rest = e :: rest) (hp : s.pastEnd e.1.key = false) :
    scanLoop decode (fuel + 1) s = scanLoop decode fuel (s.getCurrentKey decode).1.advanceToNextKey := by
  simp [scanLoop_succ, h, hp, hm]

end MVCCScanner

end LittleKeyValueDb.Storage
