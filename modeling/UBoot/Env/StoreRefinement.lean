import UBoot.Env.Store

namespace UBoot.Env.StoreRefinement

open Lib.CString Layout Nvedit SetenvSpec Store

/-- A call with the name `argv[1]` and the arguments behind it. -/
structure Call where
  name : CStr
  args : List CStr

structure Call.Plain (c : Call) : Prop where
  name_ne_nil : c.name ≠ []
  name_nulFree : NulFree c.name
  name_no_eq : eqSign ∉ c.name
  name_not_reserved : c.name ∉ reserved
  args_nulFree : ∀ a ∈ c.args, NulFree a

def Call.run (ca : ℕ → CStr → Bool) (c : Call) (g : Globals) : Option (ℕ × Globals) :=
  doSetenv ca g c.name (c.args.map some)

def runCalls (ca : ℕ → CStr → Bool) : List Call → Globals → Option Globals
  | [], g => some g
  | c :: cs, g => (c.run ca g).bind fun (_, g') ↦ runCalls ca cs g'

/-- The room a set needs: the entries with other names, the new entry and the double NUL. -/
def needed (es : List CStr) (c : Call) : ℕ :=
  ((es.filter (entryName · != c.name)).flatMap (· ++ [0])).length +
    (c.name.length + 1 + (joined c.args).length) + 2

/-- What a call with result `r` promises about `getenv` and about its result. -/
structure Effect (c : Call) (g : Globals) (r : ℕ) (g' : Globals) : Prop where
  set : c.args ≠ [] → r = 0 → getenv g' c.name = some (some (joined c.args))
  deleted : c.args = [] → getenv g' c.name = some none
  others : c.args = [] ∨ r = 0 → ∀ k, NulFree k → eqSign ∉ k → k ≠ c.name →
    getenv g' k = getenv g k
  refused : c.args ≠ [] → ∀ es, Listing g.env.data es → (r = 1 ↔ g.env.data.length < needed es c)

theorem entryName_plain {c : Call} (hc : c.Plain) : entryName c.name = c.name :=
  entryName_self (fun _ hx h ↦ hc.name_no_eq (h ▸ hx))

/-- Behind the deletion of an old definition, a plain call is `define`. -/
theorem run_plain {c : Call} (hc : c.Plain) (ca : ℕ → CStr → Bool) {g : Globals} {vs : List Var}
    (h : image vs <+: g.env.data) (hd : Distinct vs) :
    ∃ g₁ : Globals, g₁.env.data.length = g.env.data.length ∧
      image (delete vs c.name) <+: g₁.env.data ∧
      c.run ca g = define g₁ c.name (c.args.map some) := by
  obtain ⟨g₁, hlen, himage, hrun⟩ := doSetenv_free ca h hc.name_nulFree (c.args.map some) hd
    hc.name_not_reserved
  rw [entryName_plain hc] at himage
  exact ⟨g₁, hlen, himage, hrun⟩

theorem needed_eq {vs : List Var} (hd : Distinct vs) (c : Call) (w : Var)
    (hw : w.entry.length = c.name.length + 1 + (joined c.args).length) :
    needed (vs.map Var.entry) c = (block (delete vs c.name)).length + w.entry.length + 2 := by
  rw [needed, length_remaining hd, hw]

theorem getenv_name {g : Globals} {vs : List Var} (h : image vs <+: g.env.data) {k : CStr}
    (hk : NulFree k) (he : eqSign ∉ k) : getenv g k = some (lookup vs k) := by
  rw [getenv_image h hk, entryName_self (fun _ hx hh ↦ he (hh ▸ hx))]

theorem plain_step {c : Call} (hc : c.Plain) (ca : ℕ → CStr → Bool) {g : Globals}
    (hg : WellFormed g.env.data) :
    ∃ r g', c.run ca g = some (r, g') ∧ WellFormed g'.env.data ∧
      g'.env.data.length = g.env.data.length ∧ Effect c g r g' := by
  obtain ⟨vs, hd, h⟩ := wellFormed_iff.mp hg
  obtain ⟨g₁, hlen, h₁, hrun⟩ := run_plain hc ca h hd
  have hdel : ∀ v ∈ delete vs c.name, v.name ≠ c.name := hd.delete_ne c.name
  have hne (g' : Globals) (ws : List Var) (h' : image (delete vs c.name ++ ws) <+: g'.env.data)
      (hws : ∀ v ∈ ws, v.name = c.name) (k : CStr) (hk : NulFree k) (he : eqSign ∉ k)
      (hkn : k ≠ c.name) : getenv g' k = getenv g k := by
    rw [getenv_name h' hk he, getenv_name h hk he,
      lookup_append_left (fun v hv ↦ hws v hv ▸ hkn.symm), lookup_delete_ne hkn]
  by_cases ha : c.args = []
  · have hdef : define g₁ c.name (c.args.map some) = some (0, envCrcUpdate g₁) :=
      define_dropped g₁ c.name (by simp [ha])
    refine ⟨0, envCrcUpdate g₁, hrun.trans hdef, wellFormed_iff.mpr ⟨_, hd.delete _, h₁⟩, hlen, ?_⟩
    constructor
    · exact fun h' ↦ absurd ha h'
    · intro _
      rw [getenv_name (g := envCrcUpdate g₁) h₁ hc.name_nulFree hc.name_no_eq, lookup_eq_none hdel]
    · exact fun _ ↦ hne (envCrcUpdate g₁) [] (by simpa using h₁) (by simp)
    · exact fun h' ↦ absurd ha h'
  · obtain ⟨w, hw, hwn, hwv⟩ := exists_newVar hc.name_nulFree ha hc.args_nulFree
    rw [entryName_plain hc] at hwn
    have hwlen : w.entry.length = c.name.length + 1 + (joined c.args).length := by
      rw [Var.entry, hwn, hwv hc.name_no_eq]
      simp only [List.length_append, List.length_cons]
      omega
    have href {r : ℕ} (hr : r = 1 ↔ g.env.data.length <
        (block (delete vs c.name)).length + w.entry.length + 2) (es : List CStr)
        (hes : Listing g.env.data es) : r = 1 ↔ g.env.data.length < needed es c := by
      obtain ⟨us, rfl, -, hus⟩ := listing_iff.mp hes
      rw [image_inj hus h, needed_eq hd c w hwlen, hr]
    by_cases hfit : g₁.env.data.length < (block (delete vs c.name)).length + w.entry.length + 2
    · refine ⟨1, g₁, hrun.trans (define_overflow h₁ w ha hw hfit),
        wellFormed_iff.mpr ⟨_, hd.delete _, h₁⟩, hlen, ?_⟩
      constructor
      · exact fun _ h' ↦ absurd h' (by decide)
      · exact fun h' ↦ absurd h' ha
      · exact fun h' ↦ absurd h' (by simp [ha])
      · exact fun _ ↦ href (by rw [← hlen]; simp [hfit])
    · obtain ⟨g₂, hdef, hlen₂, h₂, -⟩ := define_set h₁ w ha hw (Nat.not_lt.mp hfit)
      refine ⟨0, g₂, hrun.trans hdef, wellFormed_iff.mpr ⟨_, hwn ▸ hd.delete_append w, h₂⟩,
        hlen₂.trans hlen, ?_⟩
      constructor
      · intro _ _
        rw [getenv_name h₂ hc.name_nulFree hc.name_no_eq, lookup_append_of_forall_ne hdel, ← hwn,
          lookup_cons_self, hwv hc.name_no_eq]
      · exact fun h' ↦ absurd h' ha
      · exact fun _ ↦ hne g₂ [w] h₂ (by simp [hwn])
      · exact fun _ ↦ href (by rw [← hlen]; simp [hfit])

theorem runCalls_wellFormed (ca : ℕ → CStr → Bool) {cs : List Call} (hcs : ∀ c ∈ cs, c.Plain)
    {g : Globals} (hg : WellFormed g.env.data) :
    ∃ g', runCalls ca cs g = some g' ∧ WellFormed g'.env.data ∧
      g'.env.data.length = g.env.data.length := by
  induction cs generalizing g with
  | nil => exact ⟨g, rfl, hg, rfl⟩
  | cons c cs ih =>
    obtain ⟨r, g₁, hrun, hg₁, hlen, -⟩ := plain_step (hcs c (by simp)) ca hg
    obtain ⟨g', hr, hg', hlen'⟩ := ih (fun x hx ↦ hcs x (by simp [hx])) hg₁
    exact ⟨g', by simp [runCalls, hrun, hr], hg', hlen'.trans hlen⟩

/-- The RAM environment refines the list of variables: after any calls with plain names and for any
further one, the store is well-formed, `getenv` sees exactly the change asked for, and a set is
refused exactly when its entry and the double NUL do not fit behind the remaining entries. -/
theorem setenv_refines (ca : ℕ → CStr → Bool) (g : Globals) (hg : WellFormed g.env.data)
    (cs : List Call) (hcs : ∀ c ∈ cs, c.Plain) :
    ∃ g', runCalls ca cs g = some g' ∧ WellFormed g'.env.data ∧
      g'.env.data.length = g.env.data.length ∧
      ∀ c : Call, c.Plain → ∃ r g'', c.run ca g' = some (r, g'') ∧ WellFormed g''.env.data ∧
        Effect c g' r g'' := by
  obtain ⟨g', hr, hg', hlen⟩ := runCalls_wellFormed ca hcs hg
  refine ⟨g', hr, hg', hlen, fun c hc ↦ ?_⟩
  obtain ⟨r, g'', hrun, hg'', -, he⟩ := plain_step hc ca hg'
  exact ⟨r, g'', hrun, hg'', he⟩

/-- The environment `a=1`, `b=2` in 24 bytes of data. -/
def twoVariables : Globals :=
  board (terminated [ascii "a=1", ascii "b=2"] ++ List.replicate 15 0)

theorem twoVariables_wellFormed : WellFormed twoVariables.env.data :=
  ⟨[ascii "a=1", ascii "b=2"], by decide, by decide, by decide⟩

theorem plain_of_decide (c : Call) (h : c.name ≠ [] ∧ NulFree c.name ∧ eqSign ∉ c.name ∧
    c.name ∉ reserved ∧ ∀ a ∈ c.args, NulFree a) : c.Plain :=
  ⟨h.1, h.2.1, h.2.2.1, h.2.2.2.1, h.2.2.2.2⟩

theorem setenv_refines_twoVariables :
    ∃ g', runCalls (fun _ _ ↦ false) [⟨ascii "a", [ascii "x", ascii "y"]⟩, ⟨ascii "b", []⟩]
        twoVariables = some g' ∧ WellFormed g'.env.data ∧
      g'.env.data.length = twoVariables.env.data.length ∧
      ∀ c : Call, c.Plain → ∃ r g'', c.run (fun _ _ ↦ false) g' = some (r, g'') ∧
        WellFormed g''.env.data ∧ Effect c g' r g'' :=
  setenv_refines _ _ twoVariables_wellFormed _ (by
    intro c hc
    simp only [List.mem_cons, List.not_mem_nil, or_false] at hc
    obtain rfl | rfl := hc
    · exact plain_of_decide _ (by decide)
    · exact plain_of_decide _ (by decide))

end UBoot.Env.StoreRefinement
