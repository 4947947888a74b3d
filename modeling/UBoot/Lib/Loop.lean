import Mathlib.Data.Nat.Notation
import Mathlib.Logic.Relation

namespace UBoot.Lib.Loop

open Relation

variable {m : Type → Type} {ε α β : Type}

/-- A loop whose body goes on with a value or ends with a result. When the rounds are used up it is
`out`. -/
def loop [Monad m] (out : m β) (body : α → m (α ⊕ β)) : ℕ → α → m β
  | 0, _ => out
  | n + 1, a => body a >>= fun
    | .inl a => loop out body n a
    | .inr b => pure b

variable {e : ε} {body : α → Except ε (α ⊕ β)} {n : ℕ} {a b : α} {r r' : β}

/-- The body goes on from one value with another. -/
def Goes (body : α → Except ε (α ⊕ β)) (a b : α) : Prop := body a = .ok (.inl b)

/-- The body comes to a value from which it ends. -/
def Ends (body : α → Except ε (α ⊕ β)) (a : α) (r : β) : Prop :=
  ∃ b, ReflTransGen (Goes body) a b ∧ body b = .ok (.inr r)

theorem loop_goes (h : Goes body a b) : loop (.error e) body (n + 1) a = loop (.error e) body n b := by
  rw [loop, h]
  rfl

theorem loop_ends (h : body a = .ok (.inr r)) : loop (.error e) body (n + 1) a = .ok r := by
  rw [loop, h]
  rfl

theorem loop_cases (h : loop (.error e) body n a = .ok r) :
    ∃ k, n = k + 1 ∧
      ((∃ b, Goes body a b ∧ loop (.error e) body k b = .ok r) ∨ body a = .ok (.inr r)) := by
  cases n with
  | zero => cases h
  | succ n =>
    refine ⟨n, rfl, ?_⟩
    cases hbody : body a with
    | error e' =>
      rw [loop, hbody] at h
      cases h
    | ok z =>
      cases z with
      | inl b =>
        rw [loop_goes hbody] at h
        exact Or.inl ⟨b, hbody, h⟩
      | inr b =>
        rw [loop_ends hbody] at h
        cases h
        exact Or.inr rfl

theorem Ends.ok (h : Ends body a r) : ∃ N, ∀ n, N ≤ n → loop (.error e) body n a = .ok r := by
  obtain ⟨b, hreach, hb⟩ := h
  induction hreach using ReflTransGen.head_induction_on with
  | refl =>
    refine ⟨1, fun n hn ↦ ?_⟩
    obtain ⟨k, rfl⟩ := Nat.exists_eq_add_of_le' hn
    exact loop_ends hb
  | head hgoes _ ih =>
    obtain ⟨N, hN⟩ := ih
    refine ⟨N + 1, fun n hn ↦ ?_⟩
    obtain ⟨k, rfl⟩ := Nat.exists_eq_add_of_le' hn
    rw [← Nat.add_assoc, loop_goes hgoes]
    exact hN _ (Nat.le_add_left N k)

/-- Along a run that ends the body goes on from every value or gives the result. -/
theorem goes_or_ends (h : loop (.error e) body n a = .ok r) (hb : ReflTransGen (Goes body) a b) :
    (∃ c, Goes body b c) ∨ body b = .ok (.inr r) := by
  induction hb using ReflTransGen.head_induction_on generalizing n with
  | refl =>
    obtain ⟨k, -, ⟨c, hgoes, -⟩ | hend⟩ := loop_cases h
    · exact Or.inl ⟨c, hgoes⟩
    · exact Or.inr hend
  | head hgoes _ ih =>
    obtain ⟨k, rfl, ⟨c, hgoes', hrest⟩ | hend⟩ := loop_cases h
    · cases hgoes.symm.trans hgoes'
      exact ih hrest
    · cases hgoes.symm.trans hend

theorem body_ok (h : loop (.error e) body n a = .ok r) (hb : ReflTransGen (Goes body) a b) :
    ∃ z, body b = .ok z := by
  rcases goes_or_ends h hb with ⟨c, hgoes⟩ | hend
  · exact ⟨_, hgoes⟩
  · exact ⟨_, hend⟩

theorem Ends.unique (h : loop (.error e) body n a = .ok r) (hr : Ends body a r') : r' = r := by
  obtain ⟨b, hreach, hb⟩ := hr
  rcases goes_or_ends h hreach with ⟨c, hgoes⟩ | hend
  · cases hb.symm.trans hgoes
  · cases hb.symm.trans hend
    rfl

theorem acc_of_ok (h : loop (.error e) body n a = .ok r) : Acc (fun y x ↦ Goes body x y) a := by
  induction n generalizing a with
  | zero => cases h
  | succ n ih =>
    refine Acc.intro a fun b hgoes ↦ ?_
    obtain ⟨k, hk, ⟨c, hgoes', hrest⟩ | hend⟩ := loop_cases h
    · cases hk
      cases hgoes.symm.trans hgoes'
      exact ih hrest
    · cases hgoes.symm.trans hend

/-- A loop without an error that does not go on for ever has a result. -/
theorem ends_of_acc (h : Acc (fun y x ↦ Goes body x y) a)
    (hok : ∀ b, ReflTransGen (Goes body) a b → ∃ z, body b = .ok z) : ∃ r, Ends body a r := by
  induction h with
  | intro a _ ih =>
    obtain ⟨z, hz⟩ := hok a .refl
    cases z with
    | inl b =>
      obtain ⟨r, c, hreach, hc⟩ := ih b hz fun c hc ↦ hok c (.head hz hc)
      exact ⟨r, c, .head hz hreach, hc⟩
    | inr r => exact ⟨r, a, .refl, hz⟩

end UBoot.Lib.Loop
