import Mathlib.Order.WithBot
import Mathlib.Data.Prod.Lex
import Mathlib.Data.List.Sort

/-! # Versioned keys, intents and the store iterator

The scanner of `storage/mvcc_scanner.rs` reads the store through `MVCCIterator` and compares
`MVCCKey`s; neither `mvcc_key.rs` nor `mvcc_iterator.rs` is under `src/`, so both are modelled
from the spec (§3, §4.1, §6):

* `MVCCKey`: a user key and a version timestamp. The intent key of a user key sorts before all its
  versions; here its timestamp field is `none`, which is what `create_intent_key` builds and
  `is_intent_key` tests.
* The MVCC order: user key ascending, then the intent, then versions newest first. It is the
  lexicographic order on `(key, versionRank timestamp)`, and `MVCCKey.lt_iff` states it in the
  spec's words.
* `MVCCIterator`: a cursor over the store, a list of entries in MVCC order. `rest` is the list from
  the cursor on; `seek_ge` moves to the first entry not below its target, `next` one entry on.

Keys, timestamps, values and transaction ids are type parameters: the code only compares keys and
timestamps (`Key` is `Vec<u8>` and the HLC `Timestamp` a pair, both totally ordered).

`txn.rs` gives the records the scanner hands back: `TxnMetadata`, `TxnIntent`, `UncommittedValue`
and `Txn`.
-/

namespace LittleKeyValueDb.Storage
set_option autoImplicit false
set_option linter.unusedSectionVars false

/-! ## Transaction records (`txn.rs`) -/

/-- `TxnMetadata`. -/
structure TxnMetadata (U T : Type) where
  txnId : U
  writeTimestamp : T
  deriving DecidableEq, Repr

/-- `TxnIntent`: the envelope advertising a pending write. -/
structure TxnIntent (U K T : Type) where
  txnMeta : TxnMetadata U T
  key : K
  deriving DecidableEq, Repr

/-- `UncommittedValue`: what is stored under an intent key. -/
structure UncommittedValue (U T V : Type) where
  value : V
  txnMetadata : TxnMetadata U T
  deriving DecidableEq, Repr

/-- `Txn`, the in-memory transaction a scan may run for. -/
structure Txn (U T : Type) where
  txnId : U
  metadata : TxnMetadata U T
  readTimestamp : T
  deriving DecidableEq, Repr

/-! ## Versioned keys and their order -/

/-- `MVCCKey` (modelled from the spec: `mvcc_key.rs` is not under `src/`). The intent key has no
version timestamp. -/
structure MVCCKey (K T : Type) where
  key : K
  timestamp : Option T
  deriving DecidableEq, Repr

section Order
variable {K T : Type} [LinearOrder K] [LinearOrder T]

/-- `create_intent_key`. -/
def createIntentKey (key : K) : MVCCKey K T := ⟨key, none⟩

/-- `MVCCKey::is_intent_key`. -/
def MVCCKey.isIntentKey (k : MVCCKey K T) : Bool := k.timestamp.isNone

/-- Order of the versions of one user key: the intent first, then newer before older. -/
def VersionBefore : Option T → Option T → Prop
  | none, some _ => True
  | some a, some b => b < a
  | _, _ => False

@[simp] theorem versionBefore_none_some (t : T) : VersionBefore none (some t) := trivial

@[simp] theorem not_versionBefore_none (a : Option T) : ¬ VersionBefore a none := by
  cases a <;> exact id

@[simp] theorem versionBefore_some_some (a b : T) : VersionBefore (some a) (some b) ↔ b < a := Iff.rfl

/-- Where a version sorts among the versions of its key. -/
def versionRank : Option T → WithBot Tᵒᵈ
  | none => ⊥
  | some t => ((OrderDual.toDual t : Tᵒᵈ) : WithBot Tᵒᵈ)

theorem versionRank_lt_iff (a b : Option T) : versionRank a < versionRank b ↔ VersionBefore a b := by
  cases a <;> cases b <;> simp [versionRank, VersionBefore, WithBot.bot_lt_coe]

theorem versionRank_injective : Function.Injective (versionRank (T := T)) := by
  intro a b h
  cases a <;> cases b <;> simp_all [versionRank]

/-- The MVCC order as a lexicographic pair. -/
def MVCCKey.lexKey (a : MVCCKey K T) : K ×ₗ WithBot Tᵒᵈ := toLex (a.key, versionRank a.timestamp)

theorem MVCCKey.lexKey_injective : Function.Injective (MVCCKey.lexKey (K := K) (T := T)) := by
  rintro ⟨k, t⟩ ⟨k', t'⟩ h
  simp only [MVCCKey.lexKey, EmbeddingLike.apply_eq_iff_eq, Prod.mk.injEq] at h
  rw [h.1, versionRank_injective h.2]

instance : LinearOrder (MVCCKey K T) := LinearOrder.lift' MVCCKey.lexKey MVCCKey.lexKey_injective

/-- The spec's comparison: user key ascending, then the intent, then timestamp descending. -/
theorem MVCCKey.lt_iff (a b : MVCCKey K T) :
    a < b ↔ a.key < b.key ∨ a.key = b.key ∧ VersionBefore a.timestamp b.timestamp := by
  show a.lexKey < b.lexKey ↔ _
  simp only [MVCCKey.lexKey, Prod.Lex.lt_iff, versionRank_lt_iff]

theorem lt_createIntentKey_iff (a : MVCCKey K T) (k : K) : a < createIntentKey k ↔ a.key < k := by
  simp [MVCCKey.lt_iff, createIntentKey]

theorem MVCCKey.key_le_of_le {a b : MVCCKey K T} (h : a ≤ b) : a.key ≤ b.key := by
  rcases h.lt_or_eq with h | rfl
  · rcases (MVCCKey.lt_iff a b).1 h with h | ⟨h, -⟩
    · exact h.le
    · exact h.le
  · exact le_rfl

theorem MVCCKey.lt_of_key_lt {a b : MVCCKey K T} (h : a.key < b.key) : a < b :=
  (MVCCKey.lt_iff a b).2 (.inl h)

/-- Of two versions of one user key, the one sorting first is the newer. -/
theorem MVCCKey.some_le_some_iff (k : K) (t t' : T) :
    (⟨k, some t⟩ : MVCCKey K T) ≤ ⟨k, some t'⟩ ↔ t' ≤ t := by
  rw [le_iff_lt_or_eq, MVCCKey.lt_iff, le_iff_lt_or_eq]
  simp [eq_comm]

/-- The intent key of `k` is the least key of user key `k`. -/
theorem createIntentKey_le {k : K} {b : MVCCKey K T} (h : k ≤ b.key) : createIntentKey k ≤ b := by
  rcases h.lt_or_eq with h | h
  · exact (MVCCKey.lt_of_key_lt h).le
  · rcases b with ⟨_, _ | t⟩
    · simp_all [createIntentKey]
    · exact ((MVCCKey.lt_iff (createIntentKey k) _).2 (.inr ⟨h, trivial⟩)).le

end Order

/-! ## The iterator -/

/-- `MVCCIterator` (modelled from the spec: `mvcc_iterator.rs` is not under `src/`): the store's
entries in MVCC order and the entries from the cursor on. -/
structure MVCCIterator (K T V : Type) where
  store : List (MVCCKey K T × V)
  rest : List (MVCCKey K T × V)

section Iterator
variable {K T V : Type} [LinearOrder K] [LinearOrder T]

/-- An iterator positioned at the start of `store`. -/
def MVCCIterator.new (store : List (MVCCKey K T × V)) : MVCCIterator K T V := ⟨store, store⟩

/-- `seek_ge`: the cursor moves to the first entry not below `target`. -/
def MVCCIterator.seekGe (it : MVCCIterator K T V) (target : MVCCKey K T) : MVCCIterator K T V :=
  { it with rest := it.store.dropWhile (fun e => e.1 < target) }

/-- `valid`: the cursor is on an entry. -/
def MVCCIterator.valid (it : MVCCIterator K T V) : Bool := !it.rest.isEmpty

/-- `next`. -/
def MVCCIterator.next (it : MVCCIterator K T V) : MVCCIterator K T V := { it with rest := it.rest.tail }

@[simp] theorem MVCCIterator.seekGe_store (it : MVCCIterator K T V) (target : MVCCKey K T) :
    (it.seekGe target).store = it.store := rfl

@[simp] theorem MVCCIterator.seekGe_rest (it : MVCCIterator K T V) (target : MVCCKey K T) :
    (it.seekGe target).rest = it.store.dropWhile (fun e => e.1 < target) := rfl

end Iterator

end LittleKeyValueDb.Storage
