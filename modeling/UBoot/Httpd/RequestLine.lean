import UBoot.Httpd.Cgi

namespace UBoot.Httpd.RequestLine

open Lib.CString Cgi

def crlf : List UInt8 := [0x0d, 0x0a]

@[simp] theorem crlf_length : crlf.length = 2 := rfl

def EolFree (l : List UInt8) : Prop := ∀ c ∈ l, c ≠ 0x0a ∧ c ≠ 0x0d

instance (l : List UInt8) : Decidable (EolFree l) :=
  List.decidableBAll (fun c ↦ c ≠ 0x0a ∧ c ≠ 0x0d) l

theorem EolFree.append {l m : List UInt8} (hl : EolFree l) (hm : EolFree m) : EolFree (l ++ m) := by
  intro c hc
  rcases List.mem_append.mp hc with h | h
  · exact hl c h
  · exact hm c h

/-- A text of `get_request_line`: lines with their terminators, `\r\n` before and NULs after. -/
def lines (eol : List UInt8) (ls : List CStr) : List UInt8 := (ls.map (· ++ eol)).flatten

@[simp] theorem lines_nil (eol : List UInt8) : lines eol [] = [] := rfl

@[simp] theorem lines_cons (eol : List UInt8) (l : CStr) (ls : List CStr) :
    lines eol (l :: ls) = l ++ (eol ++ lines eol ls) := by
  simp [lines]

@[simp] theorem lines_append (eol : List UInt8) (ls ms : List CStr) :
    lines eol (ls ++ ms) = lines eol ls ++ lines eol ms := by
  simp [lines]

theorem lines_length (ls : List CStr) : (lines [0, 0] ls).length = (lines crlf ls).length := by
  simp [lines, crlf, Function.comp_def]

theorem two_mul_length_le_lines (ls : List CStr) : 2 * ls.length ≤ (lines crlf ls).length := by
  induction ls with
  | nil => simp
  | cons l ls ih =>
    simp only [lines_cons, List.length_append, crlf_length, List.length_cons]
    omega

theorem lines_eolFree {ls : List CStr} (h : ∀ l ∈ ls, EolFree l) : EolFree (lines [0, 0] ls) := by
  induction ls with
  | nil => simp [EolFree]
  | cons l ls ih =>
    rw [lines_cons]
    have ht : EolFree (lines [0, 0] ls) := ih (fun m hm ↦ h m (by simp [hm]))
    exact (h l (by simp)).append (EolFree.append (by decide) ht)

theorem findEol_append (pre l rest : List UInt8) (n : ℕ) (hl : EolFree l) :
    findEol (pre ++ (l ++ rest)) (l.length + n) pre.length =
      findEol (pre ++ (l ++ rest)) n (pre.length + l.length) := by
  induction l generalizing pre with
  | nil => simp
  | cons c l ih =>
    have hc := hl c (by simp)
    have hr := ih (pre ++ [c]) (fun x hx ↦ hl x (by simp [hx]))
    rw [show (c :: l).length + n = l.length + n + 1 by simp; omega, findEol]
    simp only [List.cons_append, List.append_assoc, List.nil_append, List.length_append,
      List.length_cons, List.length_nil, Nat.zero_add] at hr ⊢
    rw [peek_append, Option.bind_some, if_neg (by simp [hc]), hr]
    congr 1
    omega

theorem findEol_eol (pre l rest : List UInt8) (c : UInt8) (n : ℕ) (hl : EolFree l)
    (hc : c = 0x0a ∨ c = 0x0d) (hn : l.length < n) :
    findEol (pre ++ (l ++ c :: rest)) n pre.length = some (some (pre.length + l.length)) := by
  obtain ⟨m, rfl⟩ : ∃ m, n = l.length + (m + 1) := ⟨n - l.length - 1, by omega⟩
  rw [findEol_append pre l (c :: rest) (m + 1) hl, findEol, ← List.append_assoc,
    ← List.length_append, peek_append, Option.bind_some, if_pos hc]

theorem findEol_none (pre l rest : List UInt8) (hl : EolFree l) :
    findEol (pre ++ (l ++ rest)) l.length pre.length = some none := by
  simpa [findEol] using findEol_append pre l rest 0 hl

theorem getRequestLine_crlf (pre l rest : List UInt8) (len : ℕ) (hl : EolFree l)
    (hlen : pre.length + l.length + 2 ≤ len) :
    getRequestLine ⟨pre ++ (l ++ (crlf ++ rest)), len, pre.length⟩ =
      some (some pre.length,
        ⟨pre ++ (l ++ (0 :: 0 :: rest)), len, pre.length + l.length + 2⟩) := by
  have hf := findEol_eol pre l (0x0a :: rest) 0x0d (len - pre.length) hl (.inr rfl) (by omega)
  have h13 : (pre ++ (l ++ 0x0d :: 0x0a :: rest))[pre.length + l.length]? = some 0x0d := by
    rw [← List.append_assoc, ← List.length_append, peek_append]
  have h10 : (pre ++ (l ++ 0x0d :: 0x0a :: rest))[pre.length + l.length + 1]? = some 0x0a := by
    simp [Nat.add_assoc]
  simp only [crlf, List.cons_append, List.nil_append, getRequestLine, hf, Option.bind_some, h13,
    h10, true_and, if_pos (show pre.length + l.length + 1 < len by omega), Option.map_some,
    if_true, Option.some.injEq, Prod.mk.injEq, Request.mk.injEq, and_true]
  simp [List.set_append_right, Nat.add_assoc]

theorem getRequestLine_none (pre l rest : List UInt8) (hl : EolFree l) :
    getRequestLine ⟨pre ++ (l ++ rest), pre.length + l.length, pre.length⟩ =
      some (none, ⟨pre ++ (l ++ rest), pre.length + l.length, pre.length + l.length⟩) := by
  simp [getRequestLine, findEol_none pre l rest hl]

theorem lineAt_append (pre l rest : List UInt8) (hl : NulFree l) :
    lineAt (pre ++ (l ++ 0 :: rest)) pre.length = l := by
  unfold lineAt
  rw [List.drop_left, List.takeWhile_append_of_pos (fun c hc ↦ by simpa using hl c hc)]
  simp

theorem findEol_spec {a : List UInt8} {n idx e : ℕ} (h : findEol a n idx = some (some e)) :
    idx ≤ e ∧ e < idx + n ∧ e < a.length := by
  induction n generalizing idx with
  | zero => simp [findEol] at h
  | succ n ih =>
    obtain ⟨c, hc, h⟩ := Option.bind_eq_some_iff.mp h
    split_ifs at h with heol
    · obtain rfl : idx = e := by simpa using h
      exact ⟨le_rfl, by omega, (List.getElem?_eq_some_iff.mp hc).1⟩
    · obtain ⟨h1, h2, h3⟩ := ih h
      exact ⟨by omega, by omega, h3⟩

/-- `get_request_line` only writes NULs, one of them at the end of the line. -/
inductive LineRead (r r' : Request) : Prop
  | one (e : ℕ) (hi : r.requestIdx ≤ e) (hlen : e < r.requestLen) (hlt : e < r.appdata.length)
      (happ : r'.appdata = r.appdata.set e 0)
  | two (e : ℕ) (hi : r.requestIdx ≤ e) (hlen : e < r.requestLen) (hlt : e < r.appdata.length)
      (happ : r'.appdata = (r.appdata.set e 0).set (e + 1) 0)

theorem getRequestLine_spec {r r' : Request} {i : ℕ}
    (h : getRequestLine r = some (some i, r')) :
    i = r.requestIdx ∧ r'.requestLen = r.requestLen ∧ LineRead r r' := by
  obtain ⟨line, hf, h⟩ := Option.bind_eq_some_iff.mp h
  cases line with
  | none => simp at h
  | some e =>
    obtain ⟨h1, h2, h3⟩ := findEol_spec hf
    simp only at h
    split_ifs at h with hcr
    · obtain ⟨c, hc, h⟩ := Option.map_eq_some_iff.mp h
      split_ifs at h <;> obtain ⟨hi, rfl⟩ := Prod.mk.inj h
      · exact ⟨(Option.some.inj hi).symm, rfl, .two e h1 (by omega) h3 rfl⟩
      · exact ⟨(Option.some.inj hi).symm, rfl, .one e h1 (by omega) h3 rfl⟩
    · obtain ⟨hi, rfl⟩ := Prod.mk.inj (Option.some.inj h)
      exact ⟨(Option.some.inj hi).symm, rfl, .one e h1 (by omega) h3 rfl⟩

/-- A text without NULs that starts at `j` was there before a NUL was written. -/
theorem prefix_of_set {t a : List UInt8} (ht : NulFree t) {e j : ℕ}
    (h : t <+: (a.set e 0).drop j) : t <+: a.drop j := by
  rw [List.prefix_iff_getElem?] at h ⊢
  intro k hk
  have hset := h k hk
  rw [List.getElem?_drop, List.getElem?_set] at hset
  rw [List.getElem?_drop]
  split_ifs at hset with he hlt
  · have h0 : t[k] = 0 := (Option.some.inj hset).symm
    exact absurd h0 (ht _ (List.getElem_mem hk))
  · exact hset

theorem LineRead.prefix_mono {r r' : Request} (h : LineRead r r') {t : List UInt8}
    (ht : NulFree t) {len j : ℕ} (hp : t <+: (r'.appdata.take len).drop j) :
    t <+: (r.appdata.take len).drop j := by
  obtain ⟨e, -, -, -, happ⟩ | ⟨e, -, -, -, happ⟩ := h
  · rw [happ, List.take_set] at hp
    exact prefix_of_set ht hp
  · rw [happ, List.take_set, List.take_set] at hp
    exact prefix_of_set ht (prefix_of_set ht hp)

/-- A line starts with a text only if the packet has the text there. -/
theorem LineRead.prefix_of_line {r r' : Request} (h : LineRead r r') {t : List UInt8}
    (ht : NulFree t) (hp : t <+: lineAt r'.appdata r.requestIdx) :
    t <+: (r.appdata.take r.requestLen).drop r.requestIdx := by
  have hline : t <+: r'.appdata.drop r.requestIdx := hp.trans (List.takeWhile_prefix _)
  -- the NUL behind the line is not part of the text
  obtain ⟨e, hi, hlen, hnul⟩ : ∃ e, r.requestIdx ≤ e ∧ e < r.requestLen ∧
      r'.appdata[e]? = some 0 := by
    obtain ⟨e, hi, hlen, hlt, happ⟩ | ⟨e, hi, hlen, hlt, happ⟩ := h
    · exact ⟨e, hi, hlen, by simp [happ, hlt]⟩
    · refine ⟨e, hi, hlen, ?_⟩
      rw [happ, List.getElem?_set_ne (by omega)]
      simp [hlt]
  have hle : r.requestIdx + t.length ≤ e := by
    by_contra hlt
    have hk : e - r.requestIdx < t.length := by omega
    have h0 := List.prefix_iff_getElem?.mp hline (e - r.requestIdx) hk
    rw [List.getElem?_drop, show r.requestIdx + (e - r.requestIdx) = e by omega, hnul] at h0
    exact ht _ (List.getElem_mem hk) (Option.some.inj h0).symm
  apply h.prefix_mono ht
  rw [List.drop_take, List.prefix_take_iff]
  exact ⟨hline, by omega⟩

end UBoot.Httpd.RequestLine
