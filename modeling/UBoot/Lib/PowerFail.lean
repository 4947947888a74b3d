import Mathlib.Data.List.Basic
import Mathlib.Tactic.Tauto

namespace UBoot.Lib.PowerFail

variable {Op σ : Type*} (run : Op → σ → σ) (torn : Op → σ → σ → Prop)

/-- A sequence of operations on a persistent state that is not interrupted. -/
def runAll (ops : List Op) (s : σ) : σ := ops.foldl (fun s o ↦ run o s) s

/-- The states a power failure may leave: any number of operations is complete, and the one in
progress may be torn. -/
inductive Cut : List Op → σ → σ → Prop
  | before (ops : List Op) (s : σ) : Cut ops s s
  | inside {o : Op} {ops : List Op} {s s' : σ} : torn o s s' → Cut (o :: ops) s s'
  | after {o : Op} {ops : List Op} {s s' : σ} : Cut ops (run o s) s' → Cut (o :: ops) s s'

variable {run torn}

@[simp] theorem runAll_nil (s : σ) : runAll run [] s = s := rfl

@[simp] theorem runAll_cons (o : Op) (ops : List Op) (s : σ) :
    runAll run (o :: ops) s = runAll run ops (run o s) := rfl

@[simp] theorem cut_nil_iff {s s' : σ} : Cut run torn [] s s' ↔ s' = s := by
  constructor
  · rintro ⟨⟩
    rfl
  · rintro rfl
    exact .before _ _

/-- A power failure comes before, inside or after the first operation. -/
theorem cut_cons_iff {o : Op} {ops : List Op} {s s' : σ} :
    Cut run torn (o :: ops) s s' ↔ s' = s ∨ torn o s s' ∨ Cut run torn ops (run o s) s' := by
  constructor
  · intro h
    cases h with
    | before => exact .inl rfl
    | inside ht => exact .inr (.inl ht)
    | after hc => exact .inr (.inr hc)
  · rintro (rfl | ht | hc)
    · exact .before _ _
    · exact .inside ht
    · exact .after hc

theorem runAll_append (ops ops' : List Op) (s : σ) :
    runAll run (ops ++ ops') s = runAll run ops' (runAll run ops s) := by
  simp [runAll]

theorem cut_append_iff {ops ops' : List Op} {s s' : σ} :
    Cut run torn (ops ++ ops') s s' ↔
      Cut run torn ops s s' ∨ Cut run torn ops' (runAll run ops s) s' := by
  induction ops generalizing s with
  | nil =>
    rw [List.nil_append, cut_nil_iff, runAll_nil]
    constructor
    · exact .inr
    · rintro (rfl | h)
      · exact .before _ _
      · exact h
  | cons o ops ih =>
    rw [List.cons_append, cut_cons_iff, cut_cons_iff, ih, runAll_cons]
    tauto

end UBoot.Lib.PowerFail
