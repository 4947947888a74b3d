import UBoot.Cpu.Ag7100

namespace UBoot.Httpd.ReceivePath

open Lib.Memory Cpu.Ag7100

/-- `UIP_BUFSIZE + 2`, the size of `uip_buf`. -/
def uipBufLen : ℕ := 1500 + 2

def uipEthtypeIp : ℕ := 0x0800

def uipEthtypeArp : ℕ := 0x0806

/-- The stack behind the main loop: what it makes of an IP or an ARP frame in `uip_buf`, with the
answer it leaves there, and of its ARP timer. -/
structure Uip (σ : Type) where
  ipInput : σ → Mem → ℕ → σ × Mem × ℕ
  arpInput : σ → Mem → ℕ → σ × Mem × ℕ
  arpTimer : σ → σ
  flashwrite : σ → Bool

structure Loop (σ : Type) where
  drv : Driver
  stack : σ
  arptimer : ℕ
  finishflag : Bool
  delivered : List (List UInt8)

/-- What one turn of the main loop meets: the frames that came in since the last one, as many as the
ring takes, and the answers of `ctrlc` and of the timer that `upgrade_cgi` started. -/
structure Turn where
  arrivals : List Frame
  arrivals_le : arrivals.length ≤ noOfRxFifos
  ctrlc : Bool
  timeUp : Bool

/-- The MAC stores the frames behind each other, from the descriptor the driver looks at next. -/
def arrive (fs : List Frame) (d : Driver) : Driver :=
  let frameAt := fun i ↦ fs[(i + noOfRxFifos - d.nextRx) % noOfRxFifos]?
  { d with
    fifoRx := fun i ↦
      (frameAt i).elim (d.fifoRx i) fun f ↦ ⟨false, BitVec.ofNat 12 (f.data.length + 4)⟩
    netRxPackets := fun i ↦
      (frameAt i).elim (d.netRxPackets i) fun f ↦ store (d.netRxPackets i) 0 (f.data ++ f.fcs) }

variable {σ : Type} (u : Uip σ)

/-- The switch on `BUF->type` over the frame in `uip_buf`. -/
def dispatch (l : Loop σ) : Loop σ :=
  let answer := fun r : σ × Mem × ℕ ↦
    { l with stack := r.1, drv := { l.drv with uipBuf := r.2.1, uipLen := r.2.2 } }
  if load16 l.drv.uipBuf 12 = uipEthtypeIp then answer (u.ipInput l.stack l.drv.uipBuf l.drv.uipLen)
  else if load16 l.drv.uipBuf 12 = uipEthtypeArp then
    answer (u.arpInput l.stack l.drv.uipBuf l.drv.uipLen)
  else l

/-- The second half of a turn, behind `eth_rx` and the tests that leave the loop. -/
def process (l : Loop σ) : Loop σ :=
  if l.drv.uipLen = 0 then
    if l.arptimer + 1 = 20 then { l with stack := u.arpTimer l.stack, arptimer := 0 }
    else { l with arptimer := l.arptimer + 1 }
  else
    dispatch u { l with delivered := l.delivered ++ [bytes l.drv.uipBuf 0 l.drv.uipLen] }

/-- One turn of `while(1)`; it is `none` where the loop is left. -/
def turn (l : Loop σ) (t : Turn) : Option (Loop σ) :=
  let drv := ag7100Recv { arrive t.arrivals l.drv with uipLen := 0 }
  if t.ctrlc then none
  else if l.finishflag then none
  else
    let finishflag := if u.flashwrite l.stack && t.timeUp then true else l.finishflag
    some (process u { l with drv := drv, finishflag := finishflag })

/-- The loop before its first turn, and between two of them: it runs in HTTP mode and the driver has
left nothing in the ring. -/
structure Idle (l : Loop σ) : Prop where
  httpdFlag : l.drv.httpdFlag = true
  pending : Pending l.drv []

theorem pending_arrive {d : Driver} (h : Pending d []) {fs : List Frame}
    (hfs : fs.length ≤ noOfRxFifos) : Pending (arrive fs d) fs := by
  refine ⟨h.nextRx_lt, hfs, ?_⟩
  intro j hj
  have hlt : d.nextRx < 8 := h.nextRx_lt
  have hj8 : j < 8 := hj
  have hempty := h.slots j hj
  have hindex : ((d.nextRx + j) % 8 + 8 - d.nextRx) % 8 = j := by omega
  change Holds (arrive fs d) ((d.nextRx + j) % 8) fs[j]?
  cases hget : fs[j]? with
  | none => simpa [Holds, arrive, noOfRxFifos, hindex, hget] using hempty
  | some f =>
    have hle := f.length_le
    have hbytes : bytes (store (d.netRxPackets ((d.nextRx + j) % 8)) 0 (f.data ++ f.fcs)) 0
        f.data.length = f.data :=
      (bytes_eq_append (bytes_store _ 0 (f.data ++ f.fcs))).1
    have hsize : (f.data.length + 4) % 4096 = f.data.length + 4 := Nat.mod_eq_of_lt (by omega)
    simp [Holds, arrive, noOfRxFifos, hindex, hget, hbytes, hsize]

/-- The frame that `ag7100_recv` leaves in `uip_buf`. -/
def lastFrame (t : Turn) : List (List UInt8) := (t.arrivals.getLast?.map (·.data)).toList

def frames (t : Turn) : List (List UInt8) := t.arrivals.map (·.data)

theorem dispatch_frame (l : Loop σ) :
    (dispatch u l).delivered = l.delivered ∧ (dispatch u l).drv.handoffs = l.drv.handoffs ∧
      (Idle l → Idle (dispatch u l)) := by
  unfold dispatch
  refine ⟨?_, ?_, ?_⟩
  · split_ifs <;> rfl
  · split_ifs <;> rfl
  · intro h
    obtain ⟨hflag, hlt, hle, hslots⟩ := h
    split_ifs
    · exact ⟨hflag, hlt, hle, hslots⟩
    · exact ⟨hflag, hlt, hle, hslots⟩
    · exact ⟨hflag, hlt, hle, hslots⟩

theorem process_drained {l : Loop σ} {d : Driver} {fs : List Frame} (h : Drained fs d l.drv)
    (hlen : d.uipLen = 0) (hflag : d.httpdFlag = true) :
    Idle (process u l) ∧ (process u l).drv.handoffs = l.drv.handoffs ∧
      (process u l).delivered = l.delivered ++ (fs.getLast?.map (·.data)).toList := by
  have hidle : Idle l := ⟨h.httpdFlag.trans hflag, h.pending⟩
  have huip := h.uipLen
  have hbuf := h.uipBuf
  cases hlast : fs.getLast? with
  | none =>
    have hzero : l.drv.uipLen = 0 := by
      rw [huip, hlast]
      exact hlen
    rw [process, if_pos hzero]
    split_ifs
    · exact ⟨⟨hidle.httpdFlag, hidle.pending⟩, rfl, by simp⟩
    · exact ⟨⟨hidle.httpdFlag, hidle.pending⟩, rfl, by simp⟩
  | some f =>
    have hlength : l.drv.uipLen = f.data.length := by
      rw [huip, hlast]
      rfl
    have hle := f.le_length
    rw [process, if_neg (by omega)]
    obtain ⟨hdelivered, hhandoffs, hkeeps⟩ := dispatch_frame u
      { l with delivered := l.delivered ++ [bytes l.drv.uipBuf 0 l.drv.uipLen] }
    refine ⟨hkeeps ⟨hidle.httpdFlag, hidle.pending⟩, hhandoffs, ?_⟩
    rw [hdelivered, hlength, hbuf f hlast]
    rfl

/-- What one turn does to the frames: each is copied, and the newest one gets through. -/
theorem turn_eq_some {l l' : Loop σ} {t : Turn} (hl : Idle l) (h : turn u l t = some l') :
    Idle l' ∧ l'.drv.handoffs = l.drv.handoffs ++ copies t.arrivals ∧
      l'.delivered = l.delivered ++ lastFrame t := by
  have hpend : Pending { arrive t.arrivals l.drv with uipLen := 0 } t.arrivals := by
    obtain ⟨hlt, hle, hslots⟩ := pending_arrive hl.pending t.arrivals_le
    exact ⟨hlt, hle, hslots⟩
  have hdrained := ag7100Recv_drained hpend hl.httpdFlag
  simp only [turn] at h
  split at h
  · cases h
  split at h
  · cases h
  obtain rfl := Option.some.inj h
  obtain ⟨hidle, hhandoffs, hdelivered⟩ := process_drained u
    (l := { l with drv := ag7100Recv _, finishflag := _ }) hdrained rfl hl.httpdFlag
  refine ⟨hidle, ?_, hdelivered⟩
  rw [hhandoffs, hdrained.handoffs]
  rfl

/-- The main loop over a run of turns. -/
def turns (ts : List Turn) (l : Loop σ) : Option (Loop σ) := ts.foldlM (turn u) l

theorem turns_eq_some {l l' : Loop σ} {ts : List Turn} (hl : Idle l) (h : turns u ts l = some l') :
    l'.drv.handoffs = l.drv.handoffs ++ ts.flatMap (fun t ↦ copies t.arrivals) ∧
      l'.delivered = l.delivered ++ ts.flatMap lastFrame := by
  induction ts generalizing l with
  | nil =>
    obtain rfl : l = l' := Option.some.inj h
    simp
  | cons t ts ih =>
    rw [turns, List.foldlM_cons] at h
    obtain ⟨m, hm, hrest⟩ := Option.bind_eq_some_iff.mp h
    obtain ⟨hidle, hhandoffs, hdelivered⟩ := turn_eq_some u hl hm
    obtain ⟨hhandoffs', hdelivered'⟩ := ih hidle hrest
    refine ⟨?_, ?_⟩
    · rw [hhandoffs', hhandoffs, List.flatMap_cons, List.append_assoc]
    · rw [hdelivered', hdelivered, List.flatMap_cons, List.append_assoc]

theorem lastFrame_length_le (t : Turn) : (lastFrame t).length ≤ (frames t).length := by
  rw [lastFrame, frames]
  cases t.arrivals with
  | nil => simp
  | cons f fs => simp [List.getLast?_eq_some_getLast]

theorem lastFrame_eq_frames_iff (t : Turn) : lastFrame t = frames t ↔ t.arrivals.length ≤ 1 := by
  rw [lastFrame, frames]
  match t.arrivals with
  | [] => simp
  | [f] => simp
  | f :: g :: fs => simp [List.getLast?_eq_some_getLast]

theorem flatMap_lastFrame_length_le (ts : List Turn) :
    (ts.flatMap lastFrame).length ≤ (ts.flatMap frames).length := by
  induction ts with
  | nil => exact Nat.le_refl _
  | cons t ts ih =>
    have ht := lastFrame_length_le t
    simp only [List.flatMap_cons, List.length_append]
    omega

/-- A turn that loses a frame is not made up for by the other turns. -/
theorem flatMap_lastFrame_eq_iff (ts : List Turn) :
    ts.flatMap lastFrame = ts.flatMap frames ↔ ∀ t ∈ ts, t.arrivals.length ≤ 1 := by
  induction ts with
  | nil => simp
  | cons t ts ih =>
    rw [List.forall_mem_cons, ← ih, ← lastFrame_eq_frames_iff]
    simp only [List.flatMap_cons]
    constructor
    · intro h
      have hlen := congrArg List.length h
      have ht := lastFrame_length_le t
      have hts := flatMap_lastFrame_length_le ts
      simp only [List.length_append] at hlen
      exact List.append_inj h (by omega)
    · rintro ⟨ht, hts⟩
      rw [ht, hts]

theorem mem_copies_iff {n : ℕ} {fs : List Frame} :
    Handoff.uipBuf n ∈ copies fs ↔ ∃ f ∈ fs, f.data.length = n := by
  simp [copies]

/-- The frames of a run all get through, and none of them is copied past the end of `uip_buf`, just
when never two frames wait for the driver and none of them is longer than the buffer. -/
theorem frames_delivered_iff {l l' : Loop σ} {ts : List Turn} (hl : Idle l)
    (hnew : l.drv.handoffs = [] ∧ l.delivered = []) (h : turns u ts l = some l') :
    (l'.delivered = ts.flatMap frames ∧
        ∀ n, Handoff.uipBuf n ∈ l'.drv.handoffs → n ≤ uipBufLen) ↔
      ∀ t ∈ ts, t.arrivals.length ≤ 1 ∧ ∀ f ∈ t.arrivals, f.data.length ≤ uipBufLen := by
  obtain ⟨hhandoffs, hdelivered⟩ := turns_eq_some u hl h
  rw [hnew.1, List.nil_append] at hhandoffs
  rw [hnew.2, List.nil_append] at hdelivered
  rw [hdelivered, hhandoffs, flatMap_lastFrame_eq_iff]
  have hcopies : (∀ n, Handoff.uipBuf n ∈ ts.flatMap (fun t ↦ copies t.arrivals) → n ≤ uipBufLen) ↔
      ∀ t ∈ ts, ∀ f ∈ t.arrivals, f.data.length ≤ uipBufLen := by
    constructor
    · intro hn t ht f hf
      apply hn
      exact List.mem_flatMap.mpr ⟨t, ht, mem_copies_iff.mpr ⟨f, hf, rfl⟩⟩
    · intro hf n hn
      obtain ⟨t, ht, hcopy⟩ := List.mem_flatMap.mp hn
      obtain ⟨f, hmem, rfl⟩ := mem_copies_iff.mp hcopy
      exact hf t ht f hmem
  rw [hcopies]
  constructor
  · rintro ⟨h₁, h₂⟩ t ht
    exact ⟨h₁ t ht, h₂ t ht⟩
  · intro hts
    exact ⟨fun t ht ↦ (hts t ht).1, fun t ht ↦ (hts t ht).2⟩

/-- A frame of the least length, of a type that is neither IP nor ARP. -/
def plainFrame (b : UInt8) : Frame where
  data := List.replicate 60 b
  fcs := [0, 0, 0, 0]
  fcs_length := rfl
  le_length := by simp
  length_le := by simp

def quietStack : Uip Unit where
  ipInput s m _ := (s, m, 0)
  arpInput s m _ := (s, m, 0)
  arpTimer s := s
  flashwrite _ := false

def freshLoop : Loop Unit where
  drv := ⟨fun _ ↦ ⟨true, 0⟩, 0, fun _ _ ↦ 0, true, fun _ ↦ 0, 0, []⟩
  stack := ()
  arptimer := 0
  finishflag := false
  delivered := []

theorem freshLoop_idle : Idle freshLoop where
  httpdFlag := rfl
  pending := ⟨by decide, by decide, fun _ _ ↦ rfl⟩

/-- A turn of the loop in which the given frames wait. -/
def turnOf (fs : List Frame) (h : fs.length ≤ noOfRxFifos) : Turn := ⟨fs, h, false, false⟩

theorem frames_delivered_three :
    ((turns quietStack [turnOf [plainFrame 1] (by decide), turnOf [] (by decide),
      turnOf [plainFrame 2] (by decide)] freshLoop).map fun l ↦ l.delivered) =
        some [List.replicate 60 1, List.replicate 60 2] := by
  obtain ⟨l, hl⟩ : ∃ l, turns quietStack [turnOf [plainFrame 1] (by decide),
      turnOf [] (by decide), turnOf [plainFrame 2] (by decide)] freshLoop = some l :=
    ⟨_, rfl⟩
  have hframes := (frames_delivered_iff quietStack freshLoop_idle ⟨rfl, rfl⟩ hl).mpr
    (by simp [turnOf, plainFrame, uipBufLen])
  rw [hl, Option.map_some, hframes.1]
  rfl

/-- Of two frames that wait together the first one is overwritten before the loop looks. -/
theorem frames_delivered_burst :
    ∃ t l, t.arrivals.length = 2 ∧ turns quietStack [t] freshLoop = some l ∧
      ¬ (l.delivered = [t].flatMap frames ∧
        ∀ n, Handoff.uipBuf n ∈ l.drv.handoffs → n ≤ uipBufLen) := by
  refine ⟨turnOf [plainFrame 1, plainFrame 2] (by decide), _, rfl, rfl, ?_⟩
  rintro ⟨hdelivered, -⟩
  exact absurd (congrArg List.length hdelivered) (by decide)

end UBoot.Httpd.ReceivePath
