import UBoot.Lib.Loop

namespace UBoot.Lib.StateValue

open Loop

variable {σ ε α β : Type} {I : σ → Prop} {s s₀ : σ}

/-- Results that differ only in states of the invariant. -/
inductive Agree (I : σ → Prop) : Except ε (α × σ) → Except ε (α × σ) → Prop
  | ok (a : α) {s t : σ} (hs : I s) (ht : I t) : Agree I (.ok (a, s)) (.ok (a, t))
  | error (e : ε) : Agree I (.error e) (.error e)

/-- The value is the same from every state of the invariant, which is kept. -/
def Steady (I : σ → Prop) (x : StateT σ (Except ε) α) : Prop := ∀ s t, I s → I t → Agree I (x s) (x t)

def value (s : σ) (x : StateT σ (Except ε) α) : Except ε α := (x s).map Prod.fst

theorem Steady.pure (a : α) : Steady I (pure a : StateT σ (Except ε) α) := fun _ _ hs ht ↦ .ok a hs ht

theorem Steady.lift (x : Except ε α) : Steady I (liftM x : StateT σ (Except ε) α) := by
  intro s t hs ht
  cases x with
  | error e => exact .error e
  | ok a => exact .ok a hs ht

theorem Steady.of_ok {x : StateT σ (Except ε) α} {a : α} (h : ∀ s, I s → ∃ t, x s = .ok (a, t) ∧ I t) :
    Steady I x := by
  intro s t hs ht
  obtain ⟨s', hs', hIs⟩ := h s hs
  obtain ⟨t', ht', hIt⟩ := h t ht
  rw [hs', ht']
  exact .ok a hIs hIt

theorem Steady.bind {x : StateT σ (Except ε) α} {f : α → StateT σ (Except ε) β} (hx : Steady I x)
    (hf : ∀ a, Steady I (f a)) : Steady I (x >>= f) := by
  intro s t hs ht
  have hagree := hx s t hs ht
  change Agree I ((x s).bind fun p ↦ f p.1 p.2) ((x t).bind fun p ↦ f p.1 p.2)
  generalize x s = y, x t = z at hagree
  cases hagree with
  | ok a hs ht => exact hf a _ _ hs ht
  | error e => exact .error e

theorem ok_bind (a : α) (f : α → Except ε β) : (.ok a >>= f) = f a := rfl

theorem value_lift (x : Except ε α) : value s (liftM x : StateT σ (Except ε) α) = x := by
  cases x <;> rfl

theorem value_lift_bind (x : Except ε α) (f : α → StateT σ (Except ε) β) :
    value s (liftM x >>= f) = x >>= fun a ↦ value s (f a) := by
  cases x <;> rfl

/-- The values of steady computations compose without the states between them. -/
theorem value_bind {x : StateT σ (Except ε) α} {f : α → StateT σ (Except ε) β} (h₀ : I s₀)
    (hx : Steady I x) (hf : ∀ a, Steady I (f a)) :
    value s₀ (x >>= f) = value s₀ x >>= fun a ↦ value s₀ (f a) := by
  have hagree := hx s₀ s₀ h₀ h₀
  change ((x s₀).bind fun p ↦ f p.1 p.2).map Prod.fst =
    ((x s₀).map Prod.fst).bind fun a ↦ (f a s₀).map Prod.fst
  generalize x s₀ = y at hagree
  cases hagree with
  | error e => rfl
  | @ok a s _ hs _ =>
    change (f a s).map Prod.fst = (f a s₀).map Prod.fst
    have hrest := hf a s s₀ hs h₀
    generalize f a s = y, f a s₀ = z at hrest
    cases hrest <;> rfl

theorem map_ok_iff {x : Except ε α} {f : α → β} : (∃ r, x.map f = .ok r) ↔ ∃ r, x = .ok r := by
  cases x with
  | error e => exact ⟨nofun, nofun⟩
  | ok a => exact ⟨fun _ ↦ ⟨a, rfl⟩, fun _ ↦ ⟨f a, rfl⟩⟩

theorem bind_ok_iff {x : Except ε α} {f : α → Except ε β} :
    (∃ r, (x >>= f) = .ok r) ↔ ∃ a, x = .ok a ∧ ∃ r, f a = .ok r := by
  cases x with
  | error e => exact ⟨nofun, nofun⟩
  | ok a =>
    constructor
    · exact fun h ↦ ⟨a, rfl, h⟩
    · rintro ⟨_, ⟨⟩, h⟩
      exact h

theorem Steady.loop {e : ε} {body : α → StateT σ (Except ε) (α ⊕ β)} (h : ∀ a, Steady I (body a))
    (n : ℕ) (a : α) : Steady I (loop (liftM (Except.error e : Except ε β)) body n a) := by
  induction n generalizing a with
  | zero => exact .lift _
  | succ n ih =>
    refine .bind (h a) fun z ↦ ?_
    cases z with
    | inl b => exact ih b
    | inr r => exact .pure r

theorem value_loop {e : ε} {body : α → StateT σ (Except ε) (α ⊕ β)} (h₀ : I s₀)
    (h : ∀ a, Steady I (body a)) (n : ℕ) (a : α) :
    value s₀ (loop (liftM (Except.error e : Except ε β)) body n a) =
      loop (.error e) (fun a ↦ value s₀ (body a)) n a := by
  induction n generalizing a with
  | zero => rfl
  | succ n ih =>
    rw [Lib.Loop.loop, Lib.Loop.loop, value_bind h₀ (h a)]
    · refine congrArg _ (funext fun z ↦ ?_)
      cases z with
      | inl b => exact ih b
      | inr r => rfl
    · rintro (b | r)
      · exact .loop h n b
      · exact .pure r

end UBoot.Lib.StateValue
