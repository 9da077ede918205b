import Mathlib.Data.List.Basic

/-! # Panics, fuel, and the `Vec` operations the models call

The Rust code reads and edits its node vectors with indexing, `Vec::insert`, `Vec::remove` and
`Vec::split_off`, and unwraps options; each of these panics on a bad index or a `None`. The models
run in `Except Fault`, so that a panic is a result of its own:

* `Fault.panic msg`: the call panics with `msg` (the `panic!` text, or the standard library's
  message for an index or an `unwrap`);
* `Fault.outOfFuel`: a loop did not stop within the passes it was given. A loop that stops is
  modelled with enough fuel; a loop that never stops runs out of every fuel.

`Vec<T>` is a `List`. Each operation comes with the lemma that states its result when the index is
in range, and the one that reads a call that returned back, so that later proofs never unfold it.
-/

namespace LittleKeyValueDb
set_option autoImplicit false

/-- Why a modelled call did not return. -/
inductive Fault where
  | panic (msg : String)
  | outOfFuel
  deriving DecidableEq, Repr

section Vec
variable {α β : Type}

/-- `v[index]`. -/
def vecIndex (v : List α) (index : Nat) : Except Fault α :=
  match v[index]? with
  | some a => pure a
  | none => throw (.panic "index out of bounds")

/-- `v[index] = element`. -/
def vecSet (v : List α) (index : Nat) (element : α) : Except Fault (List α) :=
  if index < v.length then pure (v.set index element) else throw (.panic "index out of bounds")

/-- `Vec::insert`. -/
def vecInsert (v : List α) (index : Nat) (element : α) : Except Fault (List α) :=
  if index ≤ v.length then pure (v.take index ++ element :: v.drop index)
  else throw (.panic "insertion index should be <= len")

/-- `Vec::remove`: the removed element and what is left. -/
def vecRemove (v : List α) (index : Nat) : Except Fault (α × List α) :=
  match v[index]? with
  | some a => pure (a, v.take index ++ v.drop (index + 1))
  | none => throw (.panic "removal index should be < len")

/-- `Vec::split_off`: the part kept in place and the part split off. -/
def vecSplitOff (v : List α) (index : Nat) : Except Fault (List α × List α) :=
  if index ≤ v.length then pure (v.take index, v.drop index)
  else throw (.panic "split index should be <= len")

/-- `a - b` on `usize`: panics below zero. -/
def usizeSub (a b : Nat) : Except Fault Nat :=
  if b ≤ a then pure (a - b) else throw (.panic "attempt to subtract with overflow")

/-- `Option::unwrap`. -/
def unwrap : Option α → Except Fault α
  | some a => pure a
  | none => throw (.panic "called `Option::unwrap()` on a `None` value")

theorem vecIndex_of_lt {v : List α} {index : Nat} (h : index < v.length) :
    vecIndex v index = pure v[index] := by
  simp [vecIndex, List.getElem?_eq_getElem h]

theorem vecIndex_eq_ok {v : List α} {index : Nat} {a : α} :
    vecIndex v index = .ok a ↔ v[index]? = some a := by
  unfold vecIndex
  cases v[index]? <;> simp [pure, Except.pure, throw, throwThe, MonadExceptOf.throw]

theorem vecSet_of_lt {v : List α} {index : Nat} (element : α) (h : index < v.length) :
    vecSet v index element = pure (v.set index element) := by
  simp [vecSet, h]

theorem vecInsert_of_le {v : List α} {index : Nat} (element : α) (h : index ≤ v.length) :
    vecInsert v index element = pure (v.take index ++ element :: v.drop index) := by
  simp [vecInsert, h]

theorem vecRemove_of_lt {v : List α} {index : Nat} (h : index < v.length) :
    vecRemove v index = pure (v[index], v.take index ++ v.drop (index + 1)) := by
  simp [vecRemove, List.getElem?_eq_getElem h]

theorem vecSplitOff_of_le {v : List α} {index : Nat} (h : index ≤ v.length) :
    vecSplitOff v index = pure (v.take index, v.drop index) := by
  simp [vecSplitOff, h]

theorem usizeSub_of_le {a b : Nat} (h : b ≤ a) : usizeSub a b = pure (a - b) := by
  simp [usizeSub, h]

/-! Read back: what an operation that returned was given and returned. -/

theorem vecInsert_eq_ok {v v' : List α} {index : Nat} {element : α} :
    vecInsert v index element = .ok v' ↔ index ≤ v.length ∧ v' = v.take index ++ element :: v.drop index := by
  by_cases h : index ≤ v.length <;> simp [vecInsert, h, pure, Except.pure, throw, throwThe, MonadExceptOf.throw, eq_comm]

theorem vecRemove_eq_ok {v v' : List α} {index : Nat} {a : α} :
    vecRemove v index = .ok (a, v') ↔ v[index]? = some a ∧ v' = v.take index ++ v.drop (index + 1) := by
  unfold vecRemove
  cases v[index]? <;> simp [pure, Except.pure, throw, throwThe, MonadExceptOf.throw, eq_comm]

theorem vecSplitOff_eq_ok {v l r : List α} {index : Nat} :
    vecSplitOff v index = .ok (l, r) ↔ index ≤ v.length ∧ l = v.take index ∧ r = v.drop index := by
  by_cases h : index ≤ v.length <;> simp [vecSplitOff, h, pure, Except.pure, throw, throwThe, MonadExceptOf.throw, eq_comm]

theorem vecSet_eq_ok {v v' : List α} {index : Nat} {element : α} :
    vecSet v index element = .ok v' ↔ index < v.length ∧ v' = v.set index element := by
  by_cases h : index < v.length <;> simp [vecSet, h, pure, Except.pure, throw, throwThe, MonadExceptOf.throw, eq_comm]

theorem usizeSub_eq_ok {a b c : Nat} : usizeSub a b = .ok c ↔ b ≤ a ∧ c = a - b := by
  by_cases h : b ≤ a <;> simp [usizeSub, h, pure, Except.pure, throw, throwThe, MonadExceptOf.throw, eq_comm]

@[simp] theorem unwrap_some (a : α) : unwrap (some a) = pure a := rfl

@[simp] theorem unwrap_none : unwrap (none : Option α) = throw (.panic "called `Option::unwrap()` on a `None` value") := rfl

end Vec

/-! ## Reading a bind back -/

section Bind
variable {ε α β : Type}

@[simp] theorem except_pure_eq_ok (a b : α) : (pure a : Except ε α) = .ok b ↔ a = b := by
  simp [pure, Except.pure]

@[simp] theorem except_throw_ne_ok (e : ε) (b : α) : (throw e : Except ε α) ≠ .ok b := by
  simp [throw, throwThe, MonadExceptOf.throw]

@[simp] theorem except_ok_bind (a : α) (f : α → Except ε β) : (Except.ok a : Except ε α) >>= f = f a := rfl

/-- A bind that returns: its first computation returned, and the rest returned from there. -/
theorem bind_eq_ok {x : Except ε α} {f : α → Except ε β} {b : β} :
    x >>= f = .ok b ↔ ∃ a, x = .ok a ∧ f a = .ok b := by
  cases x <;> simp [bind, Except.bind]

/-- A loop over a list that returns keeps what each of its passes keeps. -/
theorem foldlM_invariant {P : β → Prop} {f : β → α → Except ε β}
    (hf : ∀ b a b', f b a = .ok b' → P b → P b') :
    ∀ {xs : List α} {b b' : β}, xs.foldlM f b = .ok b' → P b → P b'
  | [], _, _, h, hb => by cases h; exact hb
  | a :: xs, b, _, h, hb => by
    obtain ⟨b₁, h₁, h₂⟩ := bind_eq_ok.1 h
    exact foldlM_invariant hf h₂ (hf b a b₁ h₁ hb)

/-- A loop over a list whose every pass returns while `P` holds returns, and keeps `P`. -/
theorem foldlM_ok {P : β → Prop} {f : β → α → Except ε β} :
    ∀ {xs : List α}, (∀ b a, a ∈ xs → P b → ∃ b', f b a = .ok b' ∧ P b') →
      ∀ {b : β}, P b → ∃ b', xs.foldlM f b = .ok b' ∧ P b'
  | [], _, _, hb => ⟨_, rfl, hb⟩
  | a :: _, hf, b, hb => by
    obtain ⟨b₁, h₁, hb₁⟩ := hf b a (List.mem_cons_self _ _) hb
    obtain ⟨b', h', hb'⟩ := foldlM_ok (fun b a ha => hf b a (List.mem_cons_of_mem _ ha)) hb₁
    exact ⟨b', by simp [List.foldlM_cons, h₁, h', bind, Except.bind], hb'⟩

end Bind

end LittleKeyValueDb
