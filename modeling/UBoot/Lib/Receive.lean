import Mathlib.Data.List.Basic
import Mathlib.Order.Defs.Unbundled

namespace UBoot.Lib.Receive

/-- A receiver that takes its input byte by byte: it waits for more (`none`), or it ends, with a
result or with an error, in a new state and with what is left of the input. Input that comes later
does not change what it has done. -/
structure Rx (σ α : Type) where
  run : σ → List UInt8 → Option (Option α × σ × List UInt8)
  later : ∀ {s s' : σ} {w rest : List UInt8} {a : Option α}, run s w = some (a, s', rest) →
    ∀ more, run s (w ++ more) = some (a, s', rest ++ more)

namespace Rx

variable {σ α β : Type}

protected def pure (a : α) : Rx σ α where
  run s w := some (some a, s, w)
  later h more := by
    cases h
    rfl

protected def bind (x : Rx σ α) (f : α → Rx σ β) : Rx σ β where
  run s w :=
    match x.run s w with
    | none => none
    | some (none, s, w) => some (none, s, w)
    | some (some a, s, w) => (f a).run s w
  later {s s' w rest b} h more := by
    split at h
    · cases h
    · next hx =>
      cases h
      rw [x.later hx]
    · next hx =>
      rw [x.later hx]
      exact (f _).later h more

instance : Monad (Rx σ) where
  pure := Rx.pure
  bind := Rx.bind

/-- The error exit. -/
def error : Rx σ α where
  run s w := some (none, s, w)
  later h more := by
    cases h
    rfl

def getc : Rx σ UInt8 where
  run s
    | [] => none
    | c :: w => some (some c, s, w)
  later {s s' w rest a} h more := by
    cases w with
    | nil => cases h
    | cons c w =>
      cases h
      rfl

def modify (f : σ → σ) : Rx σ Unit where
  run s w := some (some (), f s, w)
  later h more := by
    cases h
    rfl

def get : Rx σ σ where
  run s w := some (some s, s, w)
  later h more := by
    cases h
    rfl

variable {s s' s'' : σ} {w rest : List UInt8}

@[simp] theorem run_pure (a : α) : (pure a : Rx σ α).run s w = some (some a, s, w) := rfl

@[simp] theorem run_error : (error : Rx σ α).run s w = some (none, s, w) := rfl

@[simp] theorem run_getc_cons (c : UInt8) : (getc : Rx σ UInt8).run s (c :: w) =
    some (some c, s, w) := rfl

@[simp] theorem run_modify (f : σ → σ) : (modify f).run s w = some (some (), f s, w) := rfl

@[simp] theorem run_get : (get : Rx σ σ).run s w = some (some s, s, w) := rfl

theorem run_bind (x : Rx σ α) (f : α → Rx σ β) : (x >>= f).run s w =
    match x.run s w with
    | none => none
    | some (none, s, w) => some (none, s, w)
    | some (some a, s, w) => (f a).run s w := rfl

theorem run_bind_of_some {x : Rx σ α} {a : α} (f : α → Rx σ β)
    (h : x.run s w = some (some a, s', rest)) : (x >>= f).run s w = (f a).run s' rest := by
  rw [run_bind, h]

theorem run_bind_eq_some {x : Rx σ α} {f : α → Rx σ β} {b : Option β}
    (h : (x >>= f).run s w = some (b, s'', rest)) :
    (x.run s w = some (none, s'', rest) ∧ b = none) ∨
      ∃ a s' w', x.run s w = some (some a, s', w') ∧ (f a).run s' w' = some (b, s'', rest) := by
  rw [run_bind] at h
  split at h
  · cases h
  · next hx =>
    cases h
    exact Or.inl ⟨hx, rfl⟩
  · next hx => exact Or.inr ⟨_, _, _, hx, h⟩

/-- Every run takes a state to a related one. -/
def Keeps (r : σ → σ → Prop) (x : Rx σ α) : Prop :=
  ∀ s s' w rest a, x.run s w = some (a, s', rest) → r s s'

section Keeps

variable {r : σ → σ → Prop} [IsPreorder σ r]

theorem Keeps.pure (a : α) : Keeps r (pure a : Rx σ α) := by
  intro s s' w rest a h
  cases h
  exact refl_of r s

theorem Keeps.error : Keeps r (error : Rx σ α) := by
  intro s s' w rest a h
  cases h
  exact refl_of r s

theorem Keeps.getc : Keeps r (getc : Rx σ UInt8) := by
  intro s s' w rest a h
  cases w with
  | nil => cases h
  | cons c w =>
    cases h
    exact refl_of r s

omit [IsPreorder σ r] in
theorem Keeps.modify {f : σ → σ} (hf : ∀ s, r s (f s)) : Keeps r (modify f) := by
  intro s s' w rest a h
  cases h
  exact hf s

theorem Keeps.bind {x : Rx σ α} {f : α → Rx σ β} (hx : Keeps r x) (hf : ∀ a, Keeps r (f a)) :
    Keeps r (x >>= f) := by
  intro s s'' w rest b h
  obtain ⟨hx', -⟩ | ⟨a, s', w', hx', hf'⟩ := run_bind_eq_some h
  · exact hx s s'' w rest none hx'
  · exact trans_of r (hx s s' w w' (some a) hx') (hf a s' s'' w' rest b hf')

end Keeps

end Rx

end UBoot.Lib.Receive
