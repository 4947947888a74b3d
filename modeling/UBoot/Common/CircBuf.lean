import UBoot.Lib.CString
import UBoot.Lib.Ring

namespace UBoot.Common.CircBuf

open Lib.CString
open Lib.Ring hiding next

/-- `circbuf_t`. The pointers are distances from `data`, which is the block of `malloc`. -/
structure Circbuf where
  size : ℕ
  totalsize : ℕ
  top : ℕ
  tail : ℕ
  data : List UInt8
  endPos : ℕ

/-- `buf_init`, with the block as `malloc` hands it out. -/
def bufInit (block : List UInt8) : Circbuf where
  size := 0
  totalsize := block.length
  top := 0
  tail := 0
  data := block
  endPos := block.length

/-- `p++` with the check against `buf->end`. -/
def Circbuf.next (buf : Circbuf) (p : ℕ) : ℕ := if p + 1 = buf.endPos then 0 else p + 1

def popLoop (buf : Circbuf) : ℕ → ℕ → Option (List UInt8 × ℕ)
  | 0, p => some ([], p)
  | n + 1, p => do
    let c ← buf.data[p]?
    let (dest, p) ← popLoop buf n (buf.next p)
    return (c :: dest, p)

/-- What is left in `dest`, of the length that is returned. -/
def bufPop (buf : Circbuf) (len : ℕ) : Option (List UInt8 × Circbuf) := do
  let len := if len > buf.size then buf.size else len
  let (dest, p) ← popLoop buf len buf.top
  return (dest, { buf with top := p, size := buf.size - len })

/-- One round of `buf_push`, with the local variable `p`. -/
def pushByte (s : Circbuf × ℕ) (c : UInt8) : Option (Circbuf × ℕ) := do
  let (buf, p) := s
  let data ← poke buf.data p c
  let buf := { buf with data := data }
  let p := buf.next p
  if buf.size < buf.totalsize then return ({ buf with size := buf.size + 1 }, p)
  else return ({ buf with top := buf.next buf.top }, p)

def bufPush (buf : Circbuf) (src : List UInt8) : Option Circbuf := do
  let (buf, p) ← src.foldlM pushByte (buf, buf.tail)
  return { buf with tail := p }

inductive Op where
  | push (src : List UInt8)
  | pop (len : ℕ)

/-- A call, with the bytes that all pops have returned. -/
def step (s : Circbuf × List UInt8) : Op → Option (Circbuf × List UInt8)
  | .push src => (bufPush s.1 src).map (·, s.2)
  | .pop len => (bufPop s.1 len).map fun r ↦ (r.2, s.2 ++ r.1)

/-- The same on a queue that drops its oldest byte when a push finds it full. -/
def refStep (cap : ℕ) (s : List UInt8 × List UInt8) : Op → List UInt8 × List UInt8
  | .push src => (src.foldl (enqueue cap) s.1, s.2)
  | .pop len => (s.1.drop len, s.2 ++ s.1.take len)

/-- A buffer with the bytes of a queue; `p` is the place of the next byte. -/
structure Rep (buf : Circbuf) (p : ℕ) (q : List UInt8) : Prop where
  totalsize : buf.totalsize = buf.data.length
  endPos : buf.endPos = buf.data.length
  size : buf.size = q.length
  place : p = (buf.top + buf.size) % buf.totalsize
  holds : Holds buf.data buf.top q

section Step

variable {buf : Circbuf} {p : ℕ} {q : List UInt8}

theorem Rep.next_eq (h : Rep buf p q) (k : ℕ) : buf.next k = Lib.Ring.next buf.data.length k := by
  rw [Circbuf.next, h.endPos]
  rfl

theorem Rep.place_lt (h : Rep buf p q) : p < buf.data.length := by
  rw [h.place, h.totalsize]
  exact Nat.mod_lt _ (Nat.zero_lt_of_lt h.holds.top_lt)

theorem Rep.pushByte (h : Rep buf p q) (c : UInt8) : ∃ buf' p',
    CircBuf.pushByte (buf, p) c = some (buf', p') ∧ buf'.totalsize = buf.totalsize ∧
      Rep buf' p' (enqueue buf.totalsize q c) := by
  have hlt := h.place_lt
  have hpush := h.holds.push c
  have hcell : (buf.top + q.length) % buf.data.length = p := by
    rw [h.place, h.size, h.totalsize]
  have hbehind : Lib.Ring.next buf.data.length p = (buf.top + buf.size + 1) % buf.data.length := by
    rw [Lib.Ring.next_eq_mod hlt, h.place, h.totalsize, Nat.mod_add_mod]
  rw [hcell] at hpush
  rw [CircBuf.pushByte, poke, if_pos hlt, Option.bind_eq_bind, Option.bind_some]
  have hnext (k : ℕ) : Circbuf.next { buf with data := buf.data.set p c } k =
      Lib.Ring.next buf.data.length k := h.next_eq k
  simp only [hnext]
  by_cases hroom : buf.size < buf.totalsize
  · have hroom' : q.length < buf.data.length := by rwa [← h.size, ← h.totalsize]
    rw [if_pos hroom]
    rw [if_pos hroom'] at hpush
    refine ⟨_, _, rfl, rfl, ?_, ?_, ?_, ?_, ?_⟩
    · rw [List.length_set, h.totalsize]
    · rw [List.length_set, h.endPos]
    · rw [enqueue, if_pos (h.totalsize ▸ hroom'), List.length_append, h.size]
      rfl
    · rw [hbehind, h.totalsize, Nat.add_assoc]
    · rw [h.totalsize]
      exact hpush
  · have hroom' : ¬ q.length < buf.data.length := by rwa [← h.size, ← h.totalsize]
    rw [if_neg hroom]
    rw [if_neg hroom'] at hpush
    refine ⟨_, _, rfl, rfl, ?_, ?_, ?_, ?_, ?_⟩
    · rw [List.length_set, h.totalsize]
    · rw [List.length_set, h.endPos]
    · have hpos : q ≠ [] := by
        rintro rfl
        exact hroom' (Nat.zero_lt_of_lt hlt)
      rw [enqueue, if_neg (h.totalsize ▸ hroom'), List.length_append, List.length_tail, h.size]
      have := List.length_pos_iff.mpr hpos
      simp
      omega
    · rw [hbehind, h.totalsize, Lib.Ring.next_eq_mod h.holds.top_lt, Nat.mod_add_mod]
      exact congrArg (· % buf.data.length) (Nat.add_right_comm buf.top buf.size 1)
    · rw [h.totalsize]
      exact hpush

theorem Rep.pushBytes (h : Rep buf p q) (src : List UInt8) : ∃ buf' p',
    src.foldlM CircBuf.pushByte (buf, p) = some (buf', p') ∧ buf'.totalsize = buf.totalsize ∧
      Rep buf' p' (src.foldl (enqueue buf.totalsize) q) := by
  induction src generalizing buf p q with
  | nil => exact ⟨buf, p, rfl, rfl, h⟩
  | cons c src ih =>
    obtain ⟨buf₁, p₁, hbyte, hcap, h₁⟩ := h.pushByte c
    obtain ⟨buf₂, p₂, hrest, hcap₂, h₂⟩ := ih h₁
    rw [hcap] at h₂
    refine ⟨buf₂, p₂, ?_, hcap₂.trans hcap, h₂⟩
    rw [List.foldlM_cons, hbyte]
    exact hrest

/-- Reading goes through the ring, and leaves the rest of the queue. -/
theorem popLoop_spec (buf : Circbuf) (hend : buf.endPos = buf.data.length) {top n : ℕ}
    {q : List UInt8} (h : Holds buf.data top q) (hn : n ≤ q.length) :
    ∃ p, popLoop buf n top = some (q.take n, p) ∧ p = (top + n) % buf.data.length ∧
      Holds buf.data p (q.drop n) := by
  induction n generalizing top q with
  | zero => exact ⟨top, rfl, (Nat.mod_eq_of_lt h.top_lt).symm, h⟩
  | succ n ih =>
    cases q with
    | nil => exact absurd hn (Nat.not_succ_le_zero n)
    | cons c q =>
      have hnext : buf.next top = Lib.Ring.next buf.data.length top := by
        rw [Circbuf.next, hend]
        rfl
      obtain ⟨p, hloop, hp, hrest⟩ := ih h.tail (Nat.le_of_succ_le_succ hn)
      refine ⟨p, ?_, ?_, hrest⟩
      · rw [popLoop, h.head, Option.bind_eq_bind, Option.bind_some, hnext, hloop]
        rfl
      · rw [hp, Lib.Ring.next_eq_mod h.top_lt, Nat.mod_add_mod]
        congr 1
        omega

theorem Rep.bufPop (h : Rep buf buf.tail q) (len : ℕ) : ∃ buf',
    CircBuf.bufPop buf len = some (q.take len, buf') ∧ buf'.totalsize = buf.totalsize ∧
      Rep buf' buf'.tail (q.drop len) := by
  have hcapped : (if len > buf.size then buf.size else len) = min len q.length := by
    rw [h.size]
    split_ifs <;> omega
  obtain ⟨p, hloop, hp, hrest⟩ := popLoop_spec buf h.endPos h.holds (Nat.min_le_right len q.length)
  have htake : q.take (min len q.length) = q.take len := by
    rw [← List.take_take, List.take_length]
  have hdrop : q.drop (min len q.length) = q.drop len := by
    rcases Nat.le_total len q.length with hle | hle
    · rw [Nat.min_eq_left hle]
    · rw [Nat.min_eq_right hle, List.drop_length, List.drop_eq_nil_of_le hle]
  rw [htake] at hloop
  rw [hdrop] at hrest
  rw [CircBuf.bufPop]
  simp only [hcapped, hloop, Option.bind_eq_bind, Option.bind_some]
  refine ⟨_, rfl, rfl, h.totalsize, h.endPos, ?_, ?_, hrest⟩
  · rw [List.length_drop, h.size]
    change q.length - min len q.length = q.length - len
    omega
  · rw [h.place]
    change (buf.top + buf.size) % buf.totalsize =
      (p + (buf.size - min len q.length)) % buf.totalsize
    rw [hp, h.totalsize, Nat.mod_add_mod, h.size]
    congr 1
    omega

end Step

/-- What the state of a run has in common with the queue. -/
structure Agrees (cap : ℕ) (s : Circbuf × List UInt8) (r : List UInt8 × List UInt8) : Prop where
  popped : s.2 = r.2
  totalsize : s.1.totalsize = cap
  rep : Rep s.1 s.1.tail r.1

theorem Agrees.step {cap : ℕ} {s : Circbuf × List UInt8} {r : List UInt8 × List UInt8}
    (h : Agrees cap s r) (op : Op) :
    ∃ s', CircBuf.step s op = some s' ∧ Agrees cap s' (refStep cap r op) := by
  cases op with
  | push src =>
    obtain ⟨buf, p, hpush, hcap, hrep⟩ := h.rep.pushBytes src
    rw [CircBuf.step, bufPush, hpush]
    rw [h.totalsize] at hrep hcap
    exact ⟨_, rfl, h.popped, hcap, hrep.totalsize, hrep.endPos, hrep.size, hrep.place, hrep.holds⟩
  | pop len =>
    obtain ⟨buf, hpop, hcap, hrep⟩ := h.rep.bufPop len
    rw [CircBuf.step, hpop]
    exact ⟨_, rfl, congrArg (· ++ r.1.take len) h.popped, hcap.trans h.totalsize, hrep⟩

theorem Agrees.run {cap : ℕ} {s : Circbuf × List UInt8} {r : List UInt8 × List UInt8}
    (h : Agrees cap s r) (ops : List Op) :
    ∃ s', ops.foldlM CircBuf.step s = some s' ∧ Agrees cap s' (ops.foldl (refStep cap) r) := by
  induction ops generalizing s r with
  | nil => exact ⟨s, rfl, h⟩
  | cons op ops ih =>
    obtain ⟨s₁, hstep, h₁⟩ := h.step op
    obtain ⟨s₂, hrest, h₂⟩ := ih h₁
    refine ⟨s₂, ?_, h₂⟩
    rw [List.foldlM_cons, hstep]
    exact hrest

/-- In every run on a block that is not empty, what is popped and what is held are those of the
queue, and the pointers stay inside of the block. -/
theorem circbuf_keeps_newest (block : List UInt8) (hblock : block ≠ []) (ops : List Op) :
    ∃ buf popped, ops.foldlM step (bufInit block, []) = some (buf, popped) ∧
      popped = (ops.foldl (refStep block.length) ([], [])).2 ∧
      buf.size = (ops.foldl (refStep block.length) ([], [])).1.length ∧
      buf.top < buf.endPos ∧ buf.tail < buf.endPos ∧
      buf.tail = (buf.top + buf.size) % block.length := by
  have hstart : Agrees block.length (bufInit block, []) ([], []) :=
    ⟨rfl, rfl, rfl, rfl, rfl, (Nat.zero_mod _).symm, Lib.Ring.holds_nil hblock⟩
  obtain ⟨⟨buf, popped⟩, hrun, h⟩ := hstart.run ops
  refine ⟨buf, popped, hrun, h.popped, h.rep.size, ?_, ?_, ?_⟩
  · rw [h.rep.endPos]
    exact h.rep.holds.top_lt
  · rw [h.rep.endPos]
    exact h.rep.place_lt
  · rw [← h.totalsize]
    exact h.rep.place

theorem circbuf_keeps_newest_three : ∃ buf popped,
    [Op.push [1, 2, 3, 4, 5], .pop 2, .push [6, 7], .pop 9].foldlM step (bufInit [0, 0, 0], []) =
        some (buf, popped) ∧ popped = [3, 4, 5, 6, 7] := by
  obtain ⟨buf, popped, hrun, hpopped, -⟩ := circbuf_keeps_newest [0, 0, 0] (by decide)
    [.push [1, 2, 3, 4, 5], .pop 2, .push [6, 7], .pop 9]
  exact ⟨buf, popped, hrun, hpopped⟩

end UBoot.Common.CircBuf
