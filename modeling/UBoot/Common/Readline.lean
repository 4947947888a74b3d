import Mathlib.Data.Int.Basic
import Mathlib.Data.List.Induction
import UBoot.Common.Main

namespace UBoot.Common.Readline

open Lib.CString Main

def tab : UInt8 := 0x09

def space : UInt8 := 0x20

/-- `console_buffer` with the variables of `readline`; `p` is an index of it. -/
structure Line where
  buffer : List UInt8
  p : ℕ
  n : ℕ
  col : ℤ

/-- The column behind a character that is echoed. -/
def echo (col : ℤ) (c : UInt8) : ℤ := if c = tab then col + (8 - col % 8) else col + 1

/-- `delete_char`. `none` is an access outside the buffer. -/
def deleteChar (plen : ℤ) (s : Line) : Option Line :=
  if s.n = 0 then some s
  else if s.p = 0 then none
  else s.buffer[s.p - 1]?.map fun c ↦
    if c = tab then
      -- erases the line back to the prompt, and types what is left again
      { s with p := s.p - 1, n := s.n - 1,
               col := (s.buffer.take (s.p - 1)).foldl echo (min s.col plen) }
    else { s with p := s.p - 1, n := s.n - 1, col := s.col - 1 }

/-- `while ((n > 0) && (*p != ' '))`. Every turn takes one from `n`, so `n + 1` turns are enough. -/
def eraseWordLoop (plen : ℤ) : ℕ → Line → Option Line
  | 0, _ => none
  | fuel + 1, s =>
    if s.n = 0 then some s
    else s.buffer[s.p]?.bind fun c ↦
      if c = space then some s else (deleteChar plen s).bind (eraseWordLoop plen fuel)

/-- `readline` goes on, or returns a value and leaves the buffer. -/
inductive Turn
  | next (s : Line)
  | ret (value : ℤ) (buffer : List UInt8)

/-- The `switch` on a key. -/
def key (plen : ℤ) (s : Line) (c : UInt8) : Option Turn :=
  if c = 0x0d ∨ c = 0x0a then (poke s.buffer s.p 0).map (.ret s.p)
  else if c = 0 then some (.next s)
  else if c = 0x03 then (poke s.buffer 0 0).map (.ret (-1))
  else if c = 0x15 then some (.next { s with p := 0, n := 0, col := min s.col plen })
  else if c = 0x17 then
    ((deleteChar plen s).bind fun s ↦ eraseWordLoop plen (s.n + 1) s).map .next
  else if c = 0x08 ∨ c = 0x7f then (deleteChar plen s).map .next
  else if s.n < cfgCbsize - 2 then
    (poke s.buffer s.p c).map fun buffer ↦ .next ⟨buffer, s.p + 1, s.n + 1, echo s.col c⟩
  else some (.next s)

def keys (plen : ℤ) : Line → List UInt8 → Option Turn
  | s, [] => some (.next s)
  | s, c :: cs => (key plen s c).bind fun
    | .next s => keys plen s cs
    | .ret value buffer => some (.ret value buffer)

def promptLength (prompt : Option CStr) : ℤ := prompt.elim 0 fun s ↦ (s.length : ℤ)

/-- `readline(prompt)` on the keys that `getc` gives. -/
def readline (prompt : Option CStr) (buffer : List UInt8) (cs : List UInt8) : Option Turn :=
  keys (promptLength prompt) ⟨buffer, 0, 0, promptLength prompt⟩ cs

section Editor

/-- What the reference editor holds: a text, an entered text, or nothing behind a break. -/
inductive Edit
  | text (s : CStr)
  | entered (s : CStr)
  | broken

/-- The text in front of the last word, without the blank between them. -/
def dropWord (s : CStr) : CStr := ((s.reverse.dropWhile (· ≠ space)).drop 1).reverse

/-- One key of the reference editor. -/
def edit (s : CStr) (c : UInt8) : Edit :=
  if c = 0x0d ∨ c = 0x0a then .entered s
  else if c = 0 then .text s
  else if c = 0x03 then .broken
  else if c = 0x15 then .text []
  else if c = 0x17 then .text (dropWord s)
  else if c = 0x08 ∨ c = 0x7f then .text s.dropLast
  else if s.length < cfgCbsize - 2 then .text (s ++ [c])
  else .text s

def editor : CStr → List UInt8 → Edit
  | s, [] => .text s
  | s, c :: cs =>
    match edit s c with
    | .text s => editor s cs
    | done => done

/-- The width of a character at a column; a tab goes on to the next multiple of 8. -/
def charWidth (col : ℤ) (c : UInt8) : ℤ := if c = tab then (col / 8 + 1) * 8 - col else 1

/-- The width of a text that is shown from a column on. -/
def width (col : ℤ) : CStr → ℤ
  | [] => 0
  | c :: s => charWidth col c + width (col + charWidth col c) s

end Editor

/-- The variables of `readline` while the editor holds `s`. -/
structure Shows (plen : ℤ) (s : CStr) (l : Line) : Prop where
  buffer : ∃ rest, l.buffer = s ++ rest
  p : l.p = s.length
  n : l.n = s.length
  le : s.length ≤ cfgCbsize - 2
  col : l.col = plen + width plen s
  length : l.buffer.length = cfgCbsize

/-- What `readline` is to be where the reference editor is. -/
def Refines (plen : ℤ) : Turn → Edit → Prop
  | .next l, .text s => Shows plen s l
  | .ret value buffer, .entered s => value = s.length ∧ ∃ rest, buffer = s ++ 0 :: rest
  | .ret value _, .broken => value = -1
  | _, _ => False

theorem echo_eq (col : ℤ) (c : UInt8) : echo col c = col + charWidth col c := by
  rw [echo, charWidth]
  split_ifs
  · omega
  · rfl

theorem foldl_echo (col : ℤ) (s : CStr) : s.foldl echo col = col + width col s := by
  induction s generalizing col with
  | nil => exact (Int.add_zero col).symm
  | cons c s ih => rw [List.foldl_cons, echo_eq, ih, width, Int.add_assoc]

theorem width_append (col : ℤ) (s : CStr) (c : UInt8) :
    width col (s ++ [c]) = width col s + charWidth (col + width col s) c := by
  have h := foldl_echo col (s ++ [c])
  rw [List.foldl_append, List.foldl_cons, List.foldl_nil, echo_eq, foldl_echo col s] at h
  omega

theorem width_nonneg (col : ℤ) (s : CStr) : 0 ≤ width col s := by
  induction s generalizing col with
  | nil => exact Int.le_refl 0
  | cons c s ih =>
    have hchar : 0 ≤ charWidth col c := by
      rw [charWidth]
      split_ifs
      · omega
      · decide
    exact Int.add_nonneg hchar (ih _)

theorem dropWord_append (s : CStr) (c : UInt8) :
    dropWord (s ++ [c]) = if c = space then s else dropWord s := by
  rw [dropWord, List.reverse_append, List.reverse_singleton, List.singleton_append,
    List.dropWhile_cons]
  by_cases hc : c = space
  · simp [hc]
  · simp [hc, dropWord]

section Keys

variable {plen : ℤ} {s : CStr} {l : Line} {c : UInt8}

theorem Shows.min_col (h : Shows plen s l) : min l.col plen = plen := by
  have hwidth := width_nonneg plen s
  have hcol := h.col
  omega

/-- `delete_char` takes the last character away, and leaves it where `p` is then. -/
theorem Shows.deleteChar (h : Shows plen (s ++ [c]) l) :
    ∃ l', Readline.deleteChar plen l = some l' ∧ Shows plen s l' ∧ l'.buffer[l'.p]? = some c := by
  obtain ⟨rest, hbuffer⟩ := h.buffer
  have hp := h.p
  have hn := h.n
  have hle := h.le
  have hcol := h.col
  rw [List.length_append, List.length_singleton] at hp hn hle
  have hbuffer' : l.buffer = s ++ c :: rest := by rw [hbuffer, List.append_assoc]; rfl
  have hlast : l.buffer[l.p - 1]? = some c := by
    rw [hbuffer', hp, Nat.add_sub_cancel, peek_append]
  have htake : l.buffer.take (l.p - 1) = s := by
    rw [hbuffer', hp, Nat.add_sub_cancel, List.take_left]
  have hn0 : l.n ≠ 0 := by omega
  have hp0 : l.p ≠ 0 := by omega
  rw [width_append] at hcol
  rw [Readline.deleteChar, if_neg hn0, if_neg hp0, hlast, Option.map_some]
  refine ⟨_, rfl, ?_, ?_⟩
  · split_ifs with htab
    · refine ⟨⟨c :: rest, hbuffer'⟩, ?_, ?_, by omega, ?_, h.length⟩
      · exact (congrArg (· - 1) hp).trans (Nat.add_sub_cancel _ _)
      · exact (congrArg (· - 1) hn).trans (Nat.add_sub_cancel _ _)
      · rw [htake, h.min_col, foldl_echo]
    · refine ⟨⟨c :: rest, hbuffer'⟩, ?_, ?_, by omega, ?_, h.length⟩
      · exact (congrArg (· - 1) hp).trans (Nat.add_sub_cancel _ _)
      · exact (congrArg (· - 1) hn).trans (Nat.add_sub_cancel _ _)
      · rw [charWidth, if_neg htab] at hcol
        change l.col - 1 = _
        omega
  · split_ifs
    · exact hlast
    · exact hlast

theorem Shows.deleteChar_nil (h : Shows plen [] l) : Readline.deleteChar plen l = some l :=
  if_pos h.n

/-- The loop of `^W`, where `c` is the character that was deleted last. -/
theorem Shows.eraseWordLoop (h : Shows plen s l) (hc : l.buffer[l.p]? = some c) {fuel : ℕ}
    (hfuel : s.length < fuel) : ∃ l', Readline.eraseWordLoop plen fuel l = some l' ∧
      Shows plen (if c = space then s else dropWord s) l' := by
  induction s using List.reverseRecOn generalizing l c fuel with
  | nil =>
    obtain ⟨fuel, rfl⟩ := Nat.exists_eq_add_one_of_ne_zero (Nat.ne_of_gt hfuel)
    refine ⟨l, if_pos h.n, ?_⟩
    rw [show dropWord [] = [] from rfl, ite_self]
    exact h
  | append_singleton s d ih =>
    rw [List.length_append, List.length_singleton] at hfuel
    obtain ⟨fuel, rfl⟩ := Nat.exists_eq_add_one_of_ne_zero (Nat.ne_of_gt (Nat.zero_lt_of_lt hfuel))
    have hn := h.n
    rw [List.length_append, List.length_singleton] at hn
    have hn0 : l.n ≠ 0 := by omega
    rw [Readline.eraseWordLoop, if_neg hn0, hc, Option.bind_some]
    split_ifs
    · exact ⟨l, rfl, h⟩
    · obtain ⟨l₁, hdelete, h₁, hd⟩ := h.deleteChar
      obtain ⟨l₂, hloop, h₂⟩ := ih h₁ hd (Nat.lt_of_succ_lt_succ hfuel)
      refine ⟨l₂, ?_, ?_⟩
      · rw [hdelete, Option.bind_some, hloop]
      · rwa [dropWord_append]

theorem Shows.eraseWord (h : Shows plen s l) : ∃ l',
    ((Readline.deleteChar plen l).bind fun l ↦ Readline.eraseWordLoop plen (l.n + 1) l) = some l' ∧
      Shows plen (dropWord s) l' := by
  rcases List.eq_nil_or_concat' s with rfl | ⟨s, c, rfl⟩
  · refine ⟨l, ?_, h⟩
    rw [h.deleteChar_nil, Option.bind_some]
    exact if_pos h.n
  · obtain ⟨l₁, hdelete, h₁, hc⟩ := h.deleteChar
    obtain ⟨l₂, hloop, h₂⟩ := h₁.eraseWordLoop hc (Nat.lt_succ_self _)
    refine ⟨l₂, ?_, ?_⟩
    · rw [hdelete, Option.bind_some, h₁.n, hloop]
    · rwa [dropWord_append]

theorem Shows.backspace (h : Shows plen s l) :
    ∃ l', Readline.deleteChar plen l = some l' ∧ Shows plen s.dropLast l' := by
  rcases List.eq_nil_or_concat' s with rfl | ⟨s, c, rfl⟩
  · exact ⟨l, h.deleteChar_nil, h⟩
  · obtain ⟨l', hdelete, h', -⟩ := h.deleteChar
    refine ⟨l', hdelete, ?_⟩
    rwa [List.dropLast_concat]

theorem Shows.append (h : Shows plen s l) (hlt : s.length < cfgCbsize - 2) (c : UInt8) :
    ∃ buffer, poke l.buffer l.p c = some buffer ∧
      Shows plen (s ++ [c]) ⟨buffer, l.p + 1, l.n + 1, echo l.col c⟩ := by
  obtain ⟨rest, hbuffer⟩ := h.buffer
  have hlen := h.length
  rw [hbuffer, List.length_append] at hlen
  cases rest with
  | nil =>
    rw [List.length_nil] at hlen
    omega
  | cons x rest =>
    have hpoke : poke l.buffer l.p c = some (s ++ c :: rest) := by
      rw [hbuffer, h.p, poke_append]
    refine ⟨s ++ c :: rest, hpoke, ⟨rest, ?_⟩, ?_, ?_, ?_, ?_, ?_⟩
    · rw [List.append_assoc]
      rfl
    · rw [h.p, List.length_append, List.length_singleton]
    · rw [h.n, List.length_append, List.length_singleton]
    · rw [List.length_append, List.length_singleton]
      omega
    · rw [echo_eq, h.col, width_append, Int.add_assoc]
    · rw [poke_length hpoke, h.length]

theorem Shows.enter (h : Shows plen s l) :
    ∃ rest, poke l.buffer l.p 0 = some (s ++ 0 :: rest) := by
  obtain ⟨rest, hbuffer⟩ := h.buffer
  have hlen := h.length
  have hle := h.le
  rw [hbuffer, List.length_append] at hlen
  cases rest with
  | nil =>
    rw [List.length_nil, cfgCbsize] at hlen
    rw [cfgCbsize] at hle
    omega
  | cons x rest => exact ⟨rest, by rw [hbuffer, h.p, poke_append]⟩

theorem Shows.key (h : Shows plen s l) (c : UInt8) :
    ∃ turn, Readline.key plen l c = some turn ∧ Refines plen turn (edit s c) := by
  unfold Readline.key edit
  split_ifs with henter hnul hbreak hline hword hdelete hroom hroom' hroom'
  · obtain ⟨rest, hpoke⟩ := h.enter
    refine ⟨.ret l.p (s ++ 0 :: rest), by rw [hpoke]; rfl, ?_⟩
    exact ⟨congrArg Nat.cast h.p, rest, rfl⟩
  · exact ⟨.next l, rfl, h⟩
  · have hpoke : poke l.buffer 0 0 = some (l.buffer.set 0 0) := by
      rw [poke, h.length]
      rfl
    exact ⟨.ret (-1) (l.buffer.set 0 0), by rw [hpoke]; rfl, rfl⟩
  · refine ⟨.next { l with p := 0, n := 0, col := min l.col plen }, rfl, ?_⟩
    refine ⟨⟨l.buffer, rfl⟩, rfl, rfl, Nat.zero_le _, ?_, h.length⟩
    exact h.min_col.trans (Int.add_zero plen).symm
  · obtain ⟨l', herase, h'⟩ := h.eraseWord
    exact ⟨.next l', by rw [herase]; rfl, h'⟩
  · obtain ⟨l', hback, h'⟩ := h.backspace
    exact ⟨.next l', by rw [hback]; rfl, h'⟩
  · obtain ⟨buffer, hpoke, h'⟩ := h.append hroom' c
    exact ⟨.next ⟨buffer, l.p + 1, l.n + 1, echo l.col c⟩, by rw [hpoke]; rfl, h'⟩
  · exact absurd (h.n ▸ hroom) hroom'
  · exact absurd (h.n ▸ hroom') hroom
  · exact ⟨.next l, rfl, h⟩

theorem Shows.keys (h : Shows plen s l) (cs : List UInt8) :
    ∃ turn, Readline.keys plen l cs = some turn ∧ Refines plen turn (editor s cs) := by
  induction cs generalizing s l with
  | nil => exact ⟨_, rfl, h⟩
  | cons c cs ih =>
    obtain ⟨turn, hkey, hturn⟩ := h.key c
    rw [Readline.keys, hkey, Option.bind_some, editor]
    cases turn with
    | next l' =>
      cases hedit : edit s c with
      | text s' =>
        rw [hedit] at hturn
        exact ih hturn
      | entered s' => rw [hedit] at hturn; exact hturn.elim
      | broken => rw [hedit] at hturn; exact hturn.elim
    | ret value buffer =>
      cases hedit : edit s c with
      | text s' => rw [hedit] at hturn; exact hturn.elim
      | entered s' => exact ⟨.ret value buffer, rfl, by rwa [hedit] at hturn⟩
      | broken => exact ⟨.ret value buffer, rfl, by rwa [hedit] at hturn⟩

end Keys

/-- Whatever keys are typed, `readline` stays together with the reference editor. -/
theorem readline_refines (prompt : Option CStr) (buffer : List UInt8)
    (hbuffer : buffer.length = cfgCbsize) (cs : List UInt8) :
    ∃ turn, readline prompt buffer cs = some turn ∧
      Refines (promptLength prompt) turn (editor [] cs) := by
  have hstart : Shows (promptLength prompt) [] ⟨buffer, 0, 0, promptLength prompt⟩ :=
    ⟨⟨buffer, rfl⟩, rfl, rfl, Nat.zero_le _, (Int.add_zero _).symm, hbuffer⟩
  exact hstart.keys cs

/-- A word with a tab in it is erased, and then a tab. -/
def typed : List UInt8 := ascii "a b\tcd" ++ [0x17, tab, 0x7f] ++ ascii "x\n"

example : editor [] typed = .entered (ascii "ax") := by rfl

theorem readline_refines_typed :
    ∃ turn, readline (some (ascii "=> ")) (List.replicate cfgCbsize 0x55) typed = some turn ∧
      Refines 3 turn (editor [] typed) :=
  readline_refines (some (ascii "=> ")) (List.replicate cfgCbsize 0x55) List.length_replicate typed

end UBoot.Common.Readline
