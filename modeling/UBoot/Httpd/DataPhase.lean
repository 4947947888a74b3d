import UBoot.Httpd.Upload

namespace UBoot.Httpd.DataPhase

open Cgi Upload

/-- The state between the first part of an image and its end. -/
structure Entry (g : Vars) : Prop where
  packets : g.totalPackets = 3
  shift : g.shift = 0
  safari : g.supportSafari = false
  size : g.totalSize.toNat = g.bufferPtr
  pos : 0 < g.bufferPtr
  lt : g.bufferPtr < g.totalFilesize.toNat

/-- The result and the variables of the last call of `upgrade_cgi`, or of the first one with a
result other than 0. -/
def receive (b : Board) : List Delivery → Vars → Option (ℕ × Vars)
  | [], g => some (0, g)
  | d :: ds, g =>
    (upgradeCgi b d.uninit false d.packet g).bind fun (ret, _, g') ↦
      if ret = 0 then receive b ds g' else some (ret, g')

def joined (ds : List Delivery) : List UInt8 := (ds.map (·.data)).flatten

/-- What has been staged is what was there and the segments. -/
structure Gathered (g : Vars) (ds : List Delivery) (g' : Vars) : Prop where
  size : g'.totalSize.toNat = g'.bufferPtr
  bufferPtr : g'.bufferPtr = g.bufferPtr + (joined ds).length
  contents : staged g' g'.bufferPtr = staged g g.bufferPtr ++ joined ds
  filesize : g'.totalFilesize = g.totalFilesize

/-- Segments are gathered until one of them reaches the end of the image, and with that one the
completion branch is entered. -/
structure Gathers (b : Board) (g : Vars) (ds : List Delivery) : Prop where
  more : ∀ front, front <+: ds → g.bufferPtr + (joined front).length < g.totalFilesize.toNat →
    ∃ g', receive b front g = some (0, g') ∧ Gathered g front g'
  last : ∀ front d, front ++ [d] <+: ds →
    g.bufferPtr + (joined front).length < g.totalFilesize.toNat →
    g.totalFilesize.toNat ≤ g.bufferPtr + (joined (front ++ [d])).length →
    ∃ g', receive b (front ++ [d]) g = some (complete b g') ∧ Gathered g (front ++ [d]) g'

/-- The segment that reaches the end of the image does not take the count round. -/
def Counted (g : Vars) (ds : List Delivery) : Prop :=
  ∀ front d, front ++ [d] <+: ds → g.bufferPtr + (joined front).length < g.totalFilesize.toNat →
    g.bufferPtr + (joined (front ++ [d])).length < 2 ^ 32

section Receive

variable {b : Board} {g g' : Vars} {d : Delivery} {ds more : List Delivery}

theorem joined_append (ds more : List Delivery) : joined (ds ++ more) = joined ds ++ joined more := by
  rw [joined, List.map_append, List.flatten_append, joined, joined]

theorem joined_singleton (d : Delivery) : joined [d] = d.data := List.append_nil d.data

theorem receive_append (h : receive b ds g = some (0, g')) (more : List Delivery) :
    receive b (ds ++ more) g = receive b more g' := by
  induction ds generalizing g with
  | nil =>
    cases h
    rfl
  | cons d ds ih =>
    rw [receive, Option.bind_eq_some_iff] at h
    obtain ⟨⟨ret, appdata, g₁⟩, hcall, hrest⟩ := h
    dsimp only at hrest
    rw [List.cons_append, receive, hcall, Option.bind_some]
    dsimp only
    split_ifs at hrest ⊢ with hret
    · exact ih hrest
    · cases hrest
      exact absurd rfl hret

theorem receive_singleton (h : upgradeCgi b d.uninit false d.packet g = some (n, appdata, g')) :
    receive b [d] g = some (n, g') := by
  rw [receive, h, Option.bind_some]
  dsimp only
  split_ifs with hret
  · rw [hret]
    rfl
  · rfl

theorem Entry.staging (h : Entry g) (body : List UInt8) :
    Staging g.totalFilesize.toNat (staged g g.bufferPtr ++ body) g.bufferPtr g where
  packets := h.packets
  filesize := rfl
  size := h.size
  bufferPtr := rfl
  contents := (List.take_left' (staged_length g _)).symm
  shift := h.shift
  live := .inl h.pos.ne'

theorem staging_filesize {total k n : ℕ} {body rest : List UInt8}
    (h : Staging total body k g) (h' : Staging total rest n g') :
    g'.totalFilesize = g.totalFilesize :=
  UInt32.toNat_inj.mp (h'.filesize.trans h.filesize.symm)

theorem staging_receive {total k : ℕ} {body : List UInt8} (h : Staging total body k g)
    (ds : List Delivery) (tail : List UInt8) (hd : body.drop k = joined ds ++ tail)
    (ht : k + (joined ds).length < total) :
    ∃ g', receive b ds g = some (0, g') ∧ Staging total body (k + (joined ds).length) g' := by
  induction ds generalizing k g with
  | nil => exact ⟨g, rfl, h⟩
  | cons d ds ih =>
    have hj : joined (d :: ds) = d.data ++ joined ds := rfl
    have htotal : total < 2 ^ 32 := h.filesize ▸ g.totalFilesize.toNat_lt
    rw [hj, List.append_assoc] at hd
    rw [hj, List.length_append, ← Nat.add_assoc] at ht ⊢
    obtain ⟨g₁, hcall, h₁⟩ := Staging.more (b := b) h d _ hd (by omega) (by omega)
    have hdrop : body.drop (k + d.data.length) = joined ds ++ tail := by
      rw [← List.drop_drop, hd, List.drop_left]
    obtain ⟨g', hrec, h'⟩ := ih h₁ hdrop ht
    refine ⟨g', ?_, h'⟩
    rw [receive, hcall, Option.bind_some]
    exact hrec

/-- A segment that takes the count round is taken for one that does not reach the end. -/
theorem staging_wrap {total k : ℕ} {body : List UInt8} (h : Staging total body k g) (hk : k < total)
    (hd : d.data.length < 2 ^ 16) (hn : 2 ^ 32 ≤ k + d.data.length) :
    ∃ g', receive b [d] g = some (0, g') := by
  have htotal : total < 2 ^ 32 := h.filesize ▸ g.totalFilesize.toNat_lt
  have hlt : g.totalSize + UInt32.ofNat d.packet.datalen < g.totalFilesize := by
    rw [UInt32.lt_iff_toNat_lt, UInt32.toNat_add, h.size, h.filesize]
    rw [UInt32.toNat_ofNat_of_lt' (by change d.data.length < 2 ^ 32; omega)]
    change (k + d.data.length) % 2 ^ 32 < total
    omega
  have hcall := h.upgradeCgi_eq (b := b) d.uninit d.packet
  rw [dataPacket_stage hlt h.shift] at hcall
  exact ⟨_, receive_singleton hcall⟩

theorem staging_complete {total k : ℕ} {body : List UInt8} (h : Staging total body k g)
    (rest : List UInt8) (hd : body.drop k = d.data ++ rest) (hn : k + d.data.length < 2 ^ 32)
    (ht : total ≤ k + d.data.length) :
    ∃ g', receive b [d] g = some (complete b g') ∧
      g'.totalSize.toNat = g'.bufferPtr ∧ g'.bufferPtr = k + d.data.length ∧
      staged g' g'.bufferPtr = body.take (k + d.data.length) ∧
      g'.totalFilesize = g.totalFilesize := by
  have hsize : (g.totalSize + UInt32.ofNat d.packet.datalen).toNat = k + d.data.length := by
    rw [toNat_add_ofNat (by rw [h.size]; exact hn), h.size]
    rfl
  have hlt : ¬ g.totalSize + UInt32.ofNat d.packet.datalen < g.totalFilesize := by
    rw [UInt32.lt_iff_toNat_lt, hsize, h.filesize]
    omega
  let g' := stage d.packet { g with totalSize := g.totalSize + UInt32.ofNat d.packet.datalen }
  have hptr : g'.bufferPtr = k + d.data.length := by
    simp [g', stage, h.bufferPtr, Delivery.packet]
  have hcall := h.upgradeCgi_eq (b := b) d.uninit d.packet
  rw [dataPacket_complete hlt] at hcall
  refine ⟨g', receive_singleton hcall, ?_, hptr, ?_, rfl⟩
  · rw [hptr]
    exact hsize
  · rw [hptr]
    exact stage_staged h d rest hd rfl

end Receive

section

variable {b : Board} {g : Vars}

theorem Entry.more (h : Entry g) (front : List Delivery) (tail : List UInt8)
    (ht : g.bufferPtr + (joined front).length < g.totalFilesize.toNat) :
    ∃ g', receive b front g = some (0, g') ∧
      Staging g.totalFilesize.toNat (staged g g.bufferPtr ++ (joined front ++ tail))
        (g.bufferPtr + (joined front).length) g' :=
  staging_receive (h.staging (joined front ++ tail)) front tail
    (List.drop_left' (staged_length g _)) ht

theorem staged_joined (g : Vars) (front : List Delivery) (tail : List UInt8) :
    (staged g g.bufferPtr ++ (joined front ++ tail)).take (g.bufferPtr + (joined front).length) =
      staged g g.bufferPtr ++ joined front := by
  rw [← List.append_assoc]
  exact List.take_left' (by rw [List.length_append, staged_length])

theorem Entry.gathered (h : Entry g) (front : List Delivery)
    (ht : g.bufferPtr + (joined front).length < g.totalFilesize.toNat) :
    ∃ g', receive b front g = some (0, g') ∧ Gathered g front g' := by
  obtain ⟨g', hr, h'⟩ := h.more (b := b) front [] ht
  refine ⟨g', hr, h'.size.trans h'.bufferPtr.symm, h'.bufferPtr, ?_, ?_⟩
  · rw [h'.bufferPtr, h'.contents, staged_joined]
  · exact staging_filesize (h.staging []) h'

theorem Entry.completed (h : Entry g) (front : List Delivery) (d : Delivery)
    (ht : g.bufferPtr + (joined front).length < g.totalFilesize.toNat)
    (he : g.totalFilesize.toNat ≤ g.bufferPtr + (joined (front ++ [d])).length)
    (hn : g.bufferPtr + (joined (front ++ [d])).length < 2 ^ 32) :
    ∃ g', receive b (front ++ [d]) g = some (complete b g') ∧ Gathered g (front ++ [d]) g' := by
  obtain ⟨g₁, hr, h₁⟩ := h.more (b := b) front d.data ht
  have hj : joined (front ++ [d]) = joined front ++ d.data := by
    rw [joined_append, joined_singleton]
  have hlen : g.bufferPtr + (joined (front ++ [d])).length =
      g.bufferPtr + (joined front).length + d.data.length := by
    rw [hj, List.length_append, Nat.add_assoc]
  have hdrop : (staged g g.bufferPtr ++ (joined front ++ d.data)).drop
      (g.bufferPtr + (joined front).length) = d.data ++ [] := by
    rw [← List.append_assoc, List.append_nil]
    exact List.drop_left' (by rw [List.length_append, staged_length])
  rw [hlen] at he hn
  obtain ⟨g', hlast, hsize, hptr, hcontents, hfile⟩ := staging_complete (b := b) h₁ [] hdrop hn he
  refine ⟨g', by rw [receive_append hr, hlast], hsize, hptr.trans hlen.symm, ?_, ?_⟩
  · have hall := staged_joined g (front ++ [d]) []
    rwa [List.append_nil, hlen, hj, ← hcontents, ← hj] at hall
  · exact hfile.trans (staging_filesize (h.staging []) h₁)

theorem Entry.counted (h : Entry g) (front : List Delivery) (d : Delivery)
    (hd : d.data.length < 2 ^ 16)
    (ht : g.bufferPtr + (joined front).length < g.totalFilesize.toNat) {g' : Vars}
    (hlast : receive b (front ++ [d]) g = some (complete b g')) :
    g.bufferPtr + (joined (front ++ [d])).length < 2 ^ 32 := by
  by_contra! hn
  rw [joined_append, joined_singleton, List.length_append, ← Nat.add_assoc] at hn
  obtain ⟨g₁, hr, h₁⟩ := h.more (b := b) front [] ht
  obtain ⟨g₂, hw⟩ := staging_wrap (b := b) h₁ ht hd hn
  rw [receive_append hr, hw] at hlast
  have hret : complete b g' = (0, g₂) := (Option.some.inj hlast).symm
  exact complete_ne_zero b g' (congrArg Prod.fst hret)

end

/-- The segments are gathered as they should be if and only if the one that reaches the end of the
image does not take the 32-bit count round. A TCP segment has fewer than 2^16 bytes. -/
theorem data_phase_iff (b : Board) (g : Vars) (ds : List Delivery) (h : Entry g)
    (hlen : ∀ d ∈ ds, d.data.length < 2 ^ 16) : Gathers b g ds ↔ Counted g ds := by
  constructor
  · intro hg front d hp ht
    rcases Nat.lt_or_ge (g.bufferPtr + (joined (front ++ [d])).length) g.totalFilesize.toNat
      with hlt | he
    · exact hlt.trans g.totalFilesize.toNat_lt
    · obtain ⟨g', hlast, -⟩ := hg.last front d hp ht he
      exact h.counted front d (hlen d (hp.subset (by simp))) ht hlast
  · intro hc
    exact ⟨fun front _ ht ↦ h.gathered front ht,
      fun front d hp ht he ↦ h.completed front d ht he (hc front d hp ht)⟩

/-- Nothing but the first byte of an image that claims to have 2^32 - 1. -/
def oneByte : Vars :=
  { startUp fun _ ↦ 0 with
    totalPackets := 3, totalSize := 1, bufferPtr := 1, totalFilesize := 0xffffffff }

theorem oneByte_entry : Entry oneByte where
  packets := rfl
  shift := rfl
  safari := rfl
  size := rfl
  pos := by decide
  lt := by decide

/-- A segment of a size that is usual for an Ethernet. -/
def fullSegment : Delivery where
  data := List.replicate 1460 0
  stale := []
  uninit := ⟨0, 0⟩

theorem joined_fullSegments (n : ℕ) :
    (joined (List.replicate n fullSegment)).length = n * 1460 := by
  rw [joined, List.map_replicate, List.length_flatten, List.map_replicate, List.sum_replicate]
  change n * (List.replicate 1460 (0 : UInt8)).length = _
  rw [List.length_replicate]

theorem data_phase_iff_twoSegments :
    (∀ d ∈ [fullSegment, fullSegment], d.data.length < 2 ^ 16) ∧ Entry oneByte ∧
      (Gathers ⟨true, fun _ ↦ 0⟩ oneByte [fullSegment, fullSegment] ↔
        Counted oneByte [fullSegment, fullSegment]) := by
  have hlen : ∀ d ∈ [fullSegment, fullSegment], d.data.length < 2 ^ 16 := by
    intro d hd
    rw [List.mem_pair, or_self] at hd
    rw [hd]
    exact (List.length_replicate (n := 1460) (a := (0 : UInt8))).trans_lt (by decide)
  exact ⟨hlen, oneByte_entry, data_phase_iff _ _ _ oneByte_entry hlen⟩

/-- The segment behind which 2^32 bytes and more have come in does not complete the image. -/
theorem data_phase_goes_round :
    ¬ Gathers ⟨true, fun _ ↦ 0⟩ oneByte (List.replicate 2941759 fullSegment) := by
  intro hg
  have hsplit : List.replicate 2941758 fullSegment ++ [fullSegment] =
      List.replicate 2941759 fullSegment := List.replicate_succ'.symm
  have hptr : oneByte.bufferPtr = 1 := rfl
  have hfile : oneByte.totalFilesize.toNat = 2 ^ 32 - 1 := rfl
  have ht : oneByte.bufferPtr + (joined (List.replicate 2941758 fullSegment)).length <
      oneByte.totalFilesize.toNat := by
    rw [joined_fullSegments, hptr, hfile]
    omega
  have hsum : oneByte.bufferPtr +
      (joined (List.replicate 2941758 fullSegment ++ [fullSegment])).length = 4294968141 := by
    rw [hsplit, joined_fullSegments, hptr]
  have hprefix : List.replicate 2941758 fullSegment ++ [fullSegment] <+:
      List.replicate 2941759 fullSegment := by
    rw [hsplit]
  obtain ⟨g', hlast, -⟩ := hg.last _ fullSegment hprefix ht (by rw [hsum, hfile]; omega)
  have hlt := oneByte_entry.counted _ fullSegment
    ((List.length_replicate (n := 1460) (a := (0 : UInt8))).trans_lt (by decide)) ht hlast
  rw [hsum] at hlt
  omega

end UBoot.Httpd.DataPhase
