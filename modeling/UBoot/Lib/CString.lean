import Mathlib.Data.List.Basic
import Mathlib.Data.List.TakeWhile

namespace UBoot.Lib.CString

/-- A C string by value: its bytes without the terminating NUL. -/
abbrev CStr := List UInt8

def ascii (s : String) : CStr := s.toList.map (fun c ↦ UInt8.ofNat c.toNat)

/-- `*s`: the first byte of a string, the terminator when it is empty. -/
def first (s : CStr) : UInt8 := s.headD 0

/-- Store one byte of an object. `none` is an access outside the object. -/
def poke (d : List UInt8) (i : ℕ) (c : UInt8) : Option (List UInt8) :=
  if i < d.length then some (d.set i c) else none

/-- `for (nxt = p; *nxt; ++nxt);` as the distance `nxt - p` inside the object at `p`. -/
def strlen : List UInt8 → Option ℕ
  | [] => none
  | c :: cs => if c = 0 then some 0 else (strlen cs).map (· + 1)

/-- The string stored at the start of an object. -/
def load (d : List UInt8) : Option CStr := (strlen d).map d.take

/-- `while ((*p = *s++) != '\0') p++;` with the final value of `p`. -/
def store (d : List UInt8) (p : ℕ) : CStr → Option (List UInt8 × ℕ)
  | [] => (poke d p 0).map (·, p)
  | c :: s => (poke d p c).bind (fun d' ↦ store d' (p + 1) s)

def NulFree (s : CStr) : Prop := ∀ c ∈ s, c ≠ 0

instance (s : CStr) : Decidable (NulFree s) := List.decidableBAll (· ≠ 0) s

/-- `strncmp(s, t, strlen(t)) == 0`. -/
def hasPrefix (s t : CStr) : Bool := t.isPrefixOf s

/-- `strstr(s, t) != NULL`. -/
def contains (s t : CStr) : Bool := s.tails.any t.isPrefixOf

/-- `strchr (s, c)` as the distance from `s`. -/
def strchr (s : CStr) (c : UInt8) : Option ℕ := s.findIdx? (· == c)

/-- `if ((p = strchr (s, c)) != NULL) *p++ = '\0';` with the strings at `s` and `p`. -/
def cut (s : CStr) (c : UInt8) : Option (CStr × CStr) :=
  (strchr s c).map fun p ↦ (s.take p, s.drop (p + 1))

theorem NulFree.append {a b : CStr} (ha : NulFree a) (hb : NulFree b) : NulFree (a ++ b) :=
  List.forall_mem_append.mpr ⟨ha, hb⟩

theorem strchr_eq_none {s : CStr} {c : UInt8} : strchr s c = none ↔ c ∉ s := by
  rw [strchr, List.findIdx?_eq_none_iff]
  constructor
  · intro h hc
    exact absurd (h c hc) (by simp)
  · intro h x hx
    have hne : x ≠ c := fun hxc ↦ h (hxc ▸ hx)
    simpa using hne

theorem strchr_reverse_eq_none {s : CStr} {c : UInt8} : strchr s.reverse c = none ↔ c ∉ s := by
  rw [strchr_eq_none, List.mem_reverse]

theorem cut_eq_none {s : CStr} {c : UInt8} : cut s c = none ↔ c ∉ s := by
  rw [cut, Option.map_eq_none_iff, strchr_eq_none]

theorem cut_eq_some {s a b : CStr} {c : UInt8} :
    cut s c = some (a, b) ↔ s = a ++ c :: b ∧ c ∉ a := by
  induction s generalizing a with
  | nil => simp [cut, strchr]
  | cons x s ih =>
    by_cases hx : x = c
    · subst hx
      cases a with
      | nil => simp [cut, strchr, List.findIdx?_cons, eq_comm]
      | cons y a =>
        refine iff_of_false (by simp [cut, strchr, List.findIdx?_cons]) ?_
        rintro ⟨htext, hnot⟩
        obtain ⟨rfl, -⟩ := List.cons.inj htext
        exact hnot List.mem_cons_self
    · have hstep : cut (x :: s) c = (cut s c).map fun r ↦ (x :: r.1, r.2) := by
        rw [cut, cut, strchr, strchr, List.findIdx?_cons, if_neg (by simpa using hx)]
        cases s.findIdx? (· == c) <;> rfl
      rw [hstep]
      cases a with
      | nil =>
        refine iff_of_false (by simp) fun h ↦ ?_
        exact hx (List.cons.inj h.1).1
      | cons y a =>
        rw [Option.map_eq_some_iff]
        constructor
        · rintro ⟨r, hr, h⟩
          cases h
          obtain ⟨htext, hnot⟩ := ih.mp hr
          exact ⟨congrArg (x :: ·) htext, by simp [Ne.symm hx, hnot]⟩
        · rintro ⟨htext, hnot⟩
          obtain ⟨rfl, hrest⟩ := List.cons.inj htext
          rw [List.mem_cons, not_or] at hnot
          exact ⟨(a, b), ih.mpr ⟨hrest, hnot.2⟩, rfl⟩

theorem first_cons (c : UInt8) (s : CStr) : first (c :: s) = c := rfl

theorem peek_append (a b : List UInt8) (c : UInt8) : (a ++ c :: b)[a.length]? = some c := by
  simp

theorem poke_append (a b : List UInt8) (x c : UInt8) :
    poke (a ++ x :: b) a.length c = some (a ++ c :: b) := by
  simp [poke]

theorem poke_length {d d' : List UInt8} {i : ℕ} {c : UInt8} (h : poke d i c = some d') :
    d'.length = d.length := by
  unfold poke at h
  split at h
  · cases h
    simp
  · cases h

theorem strlen_append (s rest : List UInt8) (hs : NulFree s) :
    strlen (s ++ 0 :: rest) = some s.length := by
  induction s with
  | nil => simp [strlen]
  | cons c s ih =>
    have hc : c ≠ 0 := hs c (by simp)
    have ht : NulFree s := fun x hx ↦ hs x (by simp [hx])
    simp [strlen, hc, ih ht]

theorem append_nul_inj {s t a b : List UInt8} (hs : NulFree s) (ht : NulFree t)
    (h : s ++ 0 :: a = t ++ 0 :: b) : s = t ∧ a = b := by
  have hl := congrArg strlen h
  rw [strlen_append s a hs, strlen_append t b ht, Option.some_inj] at hl
  obtain ⟨hst, hab⟩ := List.append_inj h hl
  exact ⟨hst, (List.cons.inj hab).2⟩

theorem load_append (s rest : List UInt8) (hs : NulFree s) : load (s ++ 0 :: rest) = some s := by
  simp [load, strlen_append s rest hs]

/-- Copying a string with its terminator into the room behind `a`. -/
theorem store_append (a x : List UInt8) (s : CStr) (h : s.length < x.length) :
    store (a ++ x) a.length s =
      some (a ++ s ++ 0 :: x.drop (s.length + 1), a.length + s.length) := by
  induction s generalizing a x with
  | nil =>
    obtain _ | ⟨y, x⟩ := x
    · simp at h
    · simp [store, poke_append]
  | cons c s ih =>
    obtain _ | ⟨y, x⟩ := x
    · simp at h
    · have hs : s.length < x.length := by simpa using h
      have hr := ih (a ++ [c]) x hs
      simp only [List.length_append, List.length_cons, List.length_nil, List.append_assoc,
        List.cons_append, List.nil_append] at hr
      simp only [store, poke_append, Option.bind_some, hr, List.length_cons, List.drop_succ_cons,
        List.append_assoc, List.cons_append]
      congr 2
      omega

end UBoot.Lib.CString
