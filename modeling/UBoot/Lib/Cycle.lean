import Mathlib.Data.Fintype.Card
import Mathlib.Data.Fintype.EquivFin
import Mathlib.Logic.Relation

namespace UBoot.Lib.Cycle

open Relation

variable {α : Type} {r link : α → α → Prop} {a x : α}

/-- No place that is reached from `a` leads back to itself by links. -/
def Acyclic (r link : α → α → Prop) (a : α) : Prop :=
  ∀ x, ReflTransGen r a x → ¬ TransGen link x x

theorem transGen_next (h : TransGen link x x) : ∃ y, link x y ∧ TransGen link y y := by
  obtain ⟨y, hxy, hyx⟩ := TransGen.head'_iff.mp h
  exact ⟨y, hxy, TransGen.tail'_iff.mpr ⟨x, hyx, hxy⟩⟩

/-- Among finitely many places every walk over the links ends. -/
theorem Acyclic.acc [Finite α] (h : Acyclic r link a) (hlink : ∀ x y, link x y → r x y)
    (hx : ReflTransGen r a x) : Acc (fun y x ↦ link x y) x := by
  let back : α → α → Prop := fun y x ↦ ReflTransGen r a x ∧ link x y
  have hreached : ∀ {x y}, TransGen back y x → ReflTransGen r a x := by
    intro x y hback
    obtain ⟨z, -, hzx⟩ := TransGen.tail'_iff.mp hback
    exact hzx.1
  have hirrefl : Std.Irrefl (TransGen back) := by
    refine ⟨fun x hback ↦ h x (hreached hback) ?_⟩
    exact transGen_swap.mp (TransGen.mono (fun _ _ h ↦ h.2) _ _ hback)
  have htrans : IsTrans α (TransGen back) := ⟨fun _ _ _ ↦ TransGen.trans⟩
  have hwf : WellFounded back :=
    Subrelation.wf TransGen.single (Finite.wellFounded_of_trans_of_irrefl (TransGen back))
  induction x using hwf.induction with
  | h x ih => exact Acc.intro x fun y hxy ↦ ih y ⟨hx, hxy⟩ (hx.tail (hlink x y hxy))

theorem acyclic_of_acc (h : Acc (fun y x ↦ link x y) a) : Acyclic link link a := by
  induction h with
  | intro a _ ih =>
    intro x hx hcycle
    rcases hx.cases_head with rfl | ⟨b, hlink, hb⟩
    · obtain ⟨y, hy, hcycle⟩ := transGen_next hcycle
      exact ih y hy y .refl hcycle
    · exact ih b hlink x hb hcycle

theorem acyclic_iff_acc [Finite α] : Acyclic link link a ↔ Acc (fun y x ↦ link x y) a :=
  ⟨fun h ↦ h.acc (fun _ _ hlink ↦ hlink) .refl, acyclic_of_acc⟩

theorem finite_uint32 : Finite UInt32 := Finite.of_injective UInt32.toFin fun _ _ ↦ UInt32.toFin_inj.mp

end UBoot.Lib.Cycle
