import UBoot.Lib.CString

namespace UBoot.Env.Layout

open Lib.CString

/-- The sign between the name and the value of an entry. -/
def eqSign : UInt8 := 0x3d

/-- A variable of the environment. Its entry `name=value` is non-empty, has no NUL and has its
first `=` right behind the name. -/
@[ext] structure Var where
  name : CStr
  value : CStr
  name_ok : ∀ c ∈ name, c ≠ 0 ∧ c ≠ eqSign
  value_ok : NulFree value

def Var.entry (v : Var) : CStr := v.name ++ eqSign :: v.value

/-- The name in a text `name` or `name=value`. -/
def entryName (e : CStr) : CStr := e.takeWhile (· != eqSign)

/-- The entries one after another, each with its NUL. -/
def block (vs : List Var) : List UInt8 := vs.flatMap (fun v ↦ v.entry ++ [0])

/-- The bytes of an environment up to and including its double NUL. -/
def image : List Var → List UInt8
  | [] => [0, 0]
  | v :: vs => block (v :: vs) ++ [0]

def Distinct (vs : List Var) : Prop := (vs.map Var.name).Nodup

def lookup (vs : List Var) (k : CStr) : Option CStr := (vs.find? (·.name == k)).map Var.value

def delete (vs : List Var) (k : CStr) : List Var := vs.eraseP (·.name == k)

def terminated : List CStr → List UInt8
  | [] => [0, 0]
  | e :: es => (e :: es).flatMap (· ++ [0]) ++ [0]

/-- The byte view of a well-formed environment: non-empty NUL-free entries that contain `=`, with
pairwise distinct names, closed by a double NUL inside the data area. -/
def Listing (d : List UInt8) (es : List CStr) : Prop :=
  (∀ e ∈ es, e ≠ [] ∧ NulFree e ∧ eqSign ∈ e) ∧ (es.map entryName).Nodup ∧ terminated es <+: d

def WellFormed (d : List UInt8) : Prop := ∃ es, Listing d es

theorem entryName_cons_ne {c : UInt8} (hc : c ≠ eqSign) (e : CStr) :
    entryName (c :: e) = c :: entryName e := by
  simp [entryName, hc]

theorem entryName_append {a : CStr} (ha : ∀ c ∈ a, c ≠ eqSign) (b : CStr) :
    entryName (a ++ b) = a ++ entryName b := by
  induction a with
  | nil => rfl
  | cons c a ih =>
    rw [List.cons_append, entryName_cons_ne (ha c (by simp)), ih (fun x hx ↦ ha x (by simp [hx])),
      List.cons_append]

theorem entryName_self {a : CStr} (ha : ∀ c ∈ a, c ≠ eqSign) : entryName a = a := by
  simpa [entryName] using entryName_append ha []

theorem entryName_eqSign (b : CStr) : entryName (eqSign :: b) = [] := by simp [entryName]

theorem entryName_append_eqSign (e b : CStr) : entryName (e ++ eqSign :: b) = entryName e := by
  induction e with
  | nil => exact entryName_eqSign b
  | cons c e ih =>
    by_cases hc : c = eqSign
    · subst hc
      simp only [List.cons_append, entryName_eqSign]
    · simp only [List.cons_append, entryName_cons_ne hc, ih]

theorem Var.entry_nulFree (v : Var) : NulFree v.entry := by
  intro c hc
  simp only [entry, List.mem_append, List.mem_cons] at hc
  obtain h | rfl | h := hc
  · exact (v.name_ok c h).1
  · decide
  · exact v.value_ok c h

theorem Var.entry_ne_nil (v : Var) : v.entry ≠ [] := by simp [entry]

theorem Var.entryName_entry (v : Var) : entryName v.entry = v.name := by
  rw [entry, entryName_append (fun c hc ↦ (v.name_ok c hc).2), entryName_eqSign, List.append_nil]

theorem Var.entry_injective : Function.Injective Var.entry := by
  intro u v h
  have hn : u.name = v.name := by rw [← u.entryName_entry, h, v.entryName_entry]
  refine Var.ext hn ?_
  rw [entry, entry, hn] at h
  simpa using List.append_cancel_left h

theorem exists_var {e : CStr} (hn : NulFree e) (he : eqSign ∈ e) :
    ∃ v : Var, v.entry = e ∧ v.name = entryName e := by
  obtain ⟨a, b, rfl, ha⟩ := List.eq_append_cons_of_mem he
  have hne : ∀ c ∈ a, c ≠ eqSign := fun c hc h ↦ ha (h ▸ hc)
  refine ⟨⟨a, b, fun c hc ↦ ⟨hn c (by simp [hc]), hne c hc⟩, fun c hc ↦ hn c (by simp [hc])⟩, rfl, ?_⟩
  rw [entryName_append hne, entryName_eqSign, List.append_nil]

@[simp] theorem block_nil : block [] = [] := rfl

@[simp] theorem block_cons (v : Var) (vs : List Var) :
    block (v :: vs) = v.entry ++ 0 :: block vs := by simp [block]

@[simp] theorem block_append (vs ws : List Var) : block (vs ++ ws) = block vs ++ block ws := by
  simp [block]

theorem block_inj {vs ws : List Var} {a b : List UInt8}
    (h : block vs ++ 0 :: a = block ws ++ 0 :: b) : vs = ws := by
  induction vs generalizing ws with
  | nil =>
    cases ws with
    | nil => rfl
    | cons w ws =>
      obtain ⟨c, e, he⟩ := List.exists_cons_of_ne_nil w.entry_ne_nil
      rw [block_cons, he] at h
      exact absurd (List.cons.inj h).1.symm (w.entry_nulFree c (by simp [he]))
  | cons v vs ih =>
    cases ws with
    | nil =>
      obtain ⟨c, e, he⟩ := List.exists_cons_of_ne_nil v.entry_ne_nil
      rw [block_cons, he] at h
      exact absurd (List.cons.inj h).1 (v.entry_nulFree c (by simp [he]))
    | cons w ws =>
      rw [block_cons, block_cons, List.append_assoc, List.append_assoc] at h
      obtain ⟨he, hr⟩ := append_nul_inj v.entry_nulFree w.entry_nulFree h
      rw [Var.entry_injective he, ih hr]

theorem image_of_ne_nil {vs : List Var} (h : vs ≠ []) : image vs = block vs ++ [0] := by
  cases vs with
  | nil => exact absurd rfl h
  | cons v vs => rfl

theorem exists_block_of_image {vs : List Var} {d : List UInt8} (h : image vs <+: d) :
    ∃ b, d = block vs ++ 0 :: b := by
  obtain ⟨b, rfl⟩ := h
  cases vs with
  | nil => exact ⟨0 :: b, by simp [image]⟩
  | cons v vs => exact ⟨b, by simp [image]⟩

theorem image_inj {vs ws : List Var} {d : List UInt8} (hv : image vs <+: d) (hw : image ws <+: d) :
    vs = ws := by
  obtain ⟨a, ha⟩ := exists_block_of_image hv
  obtain ⟨b, hb⟩ := exists_block_of_image hw
  exact block_inj (ha.symm.trans hb)

theorem terminated_map_entry (vs : List Var) : terminated (vs.map Var.entry) = image vs := by
  cases vs with
  | nil => rfl
  | cons v vs => simp [terminated, image, block, List.flatMap_map]

theorem exists_vars {es : List CStr} (h : ∀ e ∈ es, e ≠ [] ∧ NulFree e ∧ eqSign ∈ e) :
    ∃ vs : List Var, vs.map Var.entry = es ∧ vs.map Var.name = es.map entryName := by
  induction es with
  | nil => exact ⟨[], rfl, rfl⟩
  | cons e es ih =>
    obtain ⟨-, hn, he⟩ := h e (by simp)
    obtain ⟨v, hv, hvn⟩ := exists_var hn he
    obtain ⟨vs, hvs, hvsn⟩ := ih (fun x hx ↦ h x (by simp [hx]))
    exact ⟨v :: vs, by simp [hv, hvs], by simp [hvn, hvsn]⟩

/-- The byte view and the list of variables describe the same environments. -/
theorem listing_iff {d : List UInt8} {es : List CStr} :
    Listing d es ↔ ∃ vs : List Var, vs.map Var.entry = es ∧ Distinct vs ∧ image vs <+: d := by
  constructor
  · rintro ⟨hes, hnd, hd⟩
    obtain ⟨vs, rfl, hn⟩ := exists_vars hes
    exact ⟨vs, rfl, by rwa [Distinct, hn], by rwa [← terminated_map_entry]⟩
  · rintro ⟨vs, rfl, hnd, hd⟩
    refine ⟨?_, ?_, by rwa [terminated_map_entry]⟩
    · intro e he
      obtain ⟨v, -, rfl⟩ := List.mem_map.mp he
      exact ⟨v.entry_ne_nil, v.entry_nulFree, by simp [Var.entry]⟩
    · rw [List.map_map]
      simpa only [Distinct, Function.comp_def, Var.entryName_entry] using hnd

theorem wellFormed_iff {d : List UInt8} :
    WellFormed d ↔ ∃ vs : List Var, Distinct vs ∧ image vs <+: d := by
  constructor
  · rintro ⟨es, hes⟩
    obtain ⟨vs, -, h⟩ := listing_iff.mp hes
    exact ⟨vs, h⟩
  · rintro ⟨vs, h⟩
    exact ⟨_, listing_iff.mpr ⟨vs, rfl, h⟩⟩

theorem delete_of_forall_ne {vs : List Var} {k : CStr} (h : ∀ v ∈ vs, v.name ≠ k) :
    delete vs k = vs := by
  rw [delete, List.eraseP_of_forall_not]
  simpa using h

theorem delete_append_cons {vs ws : List Var} {v : Var} (h : ∀ u ∈ vs, u.name ≠ v.name) :
    delete (vs ++ v :: ws) v.name = vs ++ ws := by
  rw [delete, List.eraseP_append_right]
  · simp
  · simpa using h

theorem delete_eq_filter {vs : List Var} (h : Distinct vs) (k : CStr) :
    delete vs k = vs.filter (·.name != k) := by
  induction vs with
  | nil => rfl
  | cons v vs ih =>
    obtain ⟨hv, hvs⟩ := List.nodup_cons.mp h
    by_cases hk : v.name = k
    · subst hk
      have hne : ∀ u ∈ vs, (u.name != v.name) = true := by
        intro u hu
        simpa using fun hn ↦ hv (List.mem_map.mpr ⟨u, hu, hn⟩)
      simp [delete, List.filter_eq_self.mpr hne]
    · rw [List.filter_cons_of_pos (by simpa using hk), ← ih hvs]
      simp [delete, hk]

theorem length_remaining {vs : List Var} (h : Distinct vs) (k : CStr) :
    (((vs.map Var.entry).filter (entryName · != k)).flatMap (· ++ [0])).length =
      (block (delete vs k)).length := by
  have hp : (entryName · != k) ∘ Var.entry = (·.name != k) := by
    funext v
    rw [Function.comp_apply, Var.entryName_entry]
  rw [block, List.filter_map, List.flatMap_map, delete_eq_filter h, hp]

theorem lookup_append_of_forall_ne {vs ws : List Var} {k : CStr} (h : ∀ v ∈ vs, v.name ≠ k) :
    lookup (vs ++ ws) k = lookup ws k := by
  rw [lookup, List.find?_append, List.find?_eq_none.mpr (by simpa using h), Option.none_or, lookup]

theorem lookup_append_left {vs ws : List Var} {k : CStr} (h : ∀ v ∈ ws, v.name ≠ k) :
    lookup (vs ++ ws) k = lookup vs k := by
  have hw : ws.find? (·.name == k) = none := List.find?_eq_none.mpr (by simpa using h)
  rw [lookup, List.find?_append, hw, Option.or_none, lookup]

theorem lookup_eq_none {vs : List Var} {k : CStr} (h : ∀ v ∈ vs, v.name ≠ k) :
    lookup vs k = none := by
  rw [lookup, List.find?_eq_none.mpr (by simpa using h), Option.map_none]

theorem lookup_cons_self (v : Var) (vs : List Var) : lookup (v :: vs) v.name = some v.value := by
  simp [lookup]

theorem lookup_cons_ne {v : Var} {k : CStr} (h : v.name ≠ k) (vs : List Var) :
    lookup (v :: vs) k = lookup vs k := by
  simp [lookup, h]

theorem Distinct.delete {vs : List Var} (h : Distinct vs) (k : CStr) :
    Distinct (delete vs k) :=
  (h.sublist (List.eraseP_sublist.map _) : _)

theorem Distinct.delete_ne {vs : List Var} (h : Distinct vs) (k : CStr) :
    ∀ v ∈ Layout.delete vs k, v.name ≠ k := by
  induction vs with
  | nil => simp [Layout.delete]
  | cons v vs ih =>
    obtain ⟨hv, hvs⟩ := List.nodup_cons.mp h
    by_cases hk : v.name = k
    · subst hk
      intro u hu hn
      have hu' : u ∈ vs := by simpa [Layout.delete] using hu
      exact hv (List.mem_map.mpr ⟨u, hu', hn⟩)
    · intro u hu
      have hu' : u = v ∨ u ∈ Layout.delete vs k := by simpa [Layout.delete, hk] using hu
      obtain rfl | hu' := hu'
      · exact hk
      · exact ih hvs u hu'

theorem lookup_delete_ne {vs : List Var} {j k : CStr} (h : j ≠ k) :
    lookup (delete vs k) j = lookup vs j := by
  induction vs with
  | nil => rfl
  | cons v vs ih =>
    by_cases hk : v.name = k
    · subst hk
      have hd : delete ([] ++ v :: vs) v.name = [] ++ vs := delete_append_cons (by simp)
      rw [List.nil_append] at hd
      rw [hd, List.nil_append, lookup_cons_ne h.symm]
    · have hd : delete (v :: vs) k = v :: delete vs k := by simp [delete, hk]
      rw [hd]
      by_cases hj : v.name = j
      · subst hj
        rw [lookup_cons_self, lookup_cons_self]
      · rw [lookup_cons_ne hj, lookup_cons_ne hj, ih]

theorem Distinct.delete_append {vs : List Var} (h : Distinct vs) (v : Var) :
    Distinct (Layout.delete vs v.name ++ [v]) := by
  have hs := h.delete v.name
  rw [Distinct, List.map_append, List.nodup_append]
  refine ⟨hs, by simp, ?_⟩
  intro a ha b hb
  obtain ⟨u, hu, rfl⟩ := List.mem_map.mp ha
  obtain rfl : b = v.name := by simpa using hb
  exact h.delete_ne v.name u hu

end UBoot.Env.Layout
