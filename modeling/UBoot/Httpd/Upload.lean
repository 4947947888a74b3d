import UBoot.Httpd.Appcall
import UBoot.Httpd.RequestLine

namespace UBoot.Httpd.Upload

open Lib.CString Cgi Appcall

/-- A TCP segment in `uip_buf`, with the bytes of earlier packets behind it and the
uninitialised locals of the call of `upgrade_cgi`. -/
structure Delivery where
  data : List UInt8
  stale : List UInt8
  uninit : Uninit

def Delivery.packet (d : Delivery) : Packet := ⟨d.data ++ d.stale, d.data.length⟩

/-- The results of `upgrade_cgi` on the segments behind the first, up to the first one that is
not 0. -/
def calls (b : Board) : List Delivery → Vars → List (Option (ℕ × Vars))
  | [], _ => []
  | d :: ds, g =>
    match upgradeCgi b d.uninit false d.packet g with
    | none => [none]
    | some (ret, _, g') => some (ret, g') :: if ret = 0 then calls b ds g' else []

/-- The results of `upgrade_cgi` on one POST to `/cgi/index`. The first segment is parsed by
`next_scriptstate`, where `u` are the uninitialised locals and the result is ignored, and
again by `httpd_appcall`. -/
def upload (b : Board) (u : Uninit) : List Delivery → Vars → List (Option (ℕ × Vars))
  | [], _ => []
  | d :: ds, g =>
    match upgradeCgi b u false ⟨terminateUrl 1 (d.data ++ d.stale), d.data.length⟩ g with
    | none => [none]
    | some (ret, appdata, g) =>
      some (ret, g) ::
        match upgradeCgi b d.uninit false ⟨appdata, d.data.length⟩ g with
        | none => [none]
        | some (ret, _, g) => some (ret, g) :: if ret = 0 then calls b ds g else []

/-- The first `n` bytes of the staging area. -/
def staged (g : Vars) (n : ℕ) : List UInt8 := (List.range n).map g.ptr

@[simp] theorem staged_length (g : Vars) (n : ℕ) : (staged g n).length = n := by
  simp [staged]

theorem staged_take (g : Vars) {m n : ℕ} (h : m ≤ n) : (staged g n).take m = staged g m := by
  rw [staged, ← List.map_take, List.take_range, Nat.min_eq_left h, staged]

theorem staged_congr {g g' : Vars} (h : g.ptr = g'.ptr) (n : ℕ) : staged g n = staged g' n := by
  rw [staged, staged, h]

theorem staged_memcpy (g g' : Vars) (dst : ℕ) (src : List UInt8)
    (h : g'.ptr = memcpy g.ptr dst src) :
    staged g' (dst + src.length) = staged g dst ++ src := by
  apply List.ext_getElem
  · simp
  · intro i hi _
    rw [staged_length] at hi
    by_cases hd : i < dst
    · simp [staged, h, memcpy, hd]
    · have hlt : i - dst < src.length := by omega
      simp [staged, h, memcpy, hd, List.getElem_append, hlt]

theorem complete_ptr (b : Board) (g : Vars) : (complete b g).2.ptr = g.ptr := by
  simp only [complete]
  split_ifs <;> rfl

theorem complete_filesize {b : Board} {g g' : Vars} (h : complete b g = (1, g')) :
    g'.totalFilesize = g.totalFilesize := by
  simp only [complete] at h
  split_ifs at h <;> cases h <;> rfl

theorem complete_ne_zero (b : Board) (g : Vars) : (complete b g).1 ≠ 0 := by
  simp only [complete]
  split_ifs <;> simp

section

variable {b : Board} {p : Packet} {g : Vars}

theorem dataPacket_stage (h : g.totalSize + UInt32.ofNat p.datalen < g.totalFilesize)
    (hs : g.shift = 0) :
    dataPacket b p g = (0, stage p { g with totalSize := g.totalSize + UInt32.ofNat p.datalen }) := by
  simp [dataPacket, h, hs]

theorem dataPacket_skip (h : g.totalSize + UInt32.ofNat p.datalen < g.totalFilesize)
    (hs : g.shift ≠ 0) : dataPacket b p g = (0, { g with shift := 0 }) := by
  have hback : g.totalSize + UInt32.ofNat p.datalen - UInt32.ofNat p.datalen = g.totalSize := by
    grind
  simp [dataPacket, h, hs, hback]

theorem dataPacket_complete (h : ¬ g.totalSize + UInt32.ofNat p.datalen < g.totalFilesize) :
    dataPacket b p g =
      complete b (stage p { g with totalSize := g.totalSize + UInt32.ofNat p.datalen }) := by
  simp [dataPacket, h]

end

/-- The data phase with the first `k` bytes of `body` staged, where the image has `total`
bytes. -/
structure Staging (total : ℕ) (body : List UInt8) (k : ℕ) (g : Vars) : Prop where
  packets : g.totalPackets = 3
  filesize : g.totalFilesize.toNat = total
  size : g.totalSize.toNat = k
  bufferPtr : g.bufferPtr = k
  contents : staged g k = body.take k
  shift : g.shift = 0
  live : k ≠ 0 ∨ g.supportSafari = true

section

variable {b : Board} {total k : ℕ} {body : List UInt8} {g : Vars}

theorem Staging.upgradeCgi_eq (h : Staging total body k g) (u : Uninit) (p : Packet) :
    upgradeCgi b u false p g =
      some ((dataPacket b p g).1, p.appdata, (dataPacket b p g).2) := by
  have hs : g.totalSize ≠ 0 ∨ g.supportSafari = true := by
    refine h.live.imp_left ?_
    rintro hk h0
    exact hk (by rw [← h.size, h0]; rfl)
  simp [upgradeCgi, upgradeBody, h.packets, hs]

theorem stage_staged (h : Staging total body k g) (d : Delivery) (rest : List UInt8)
    (hd : body.drop k = d.data ++ rest) {g' : Vars}
    (hg : g'.ptr = (stage d.packet g).ptr) :
    staged g' (k + d.data.length) = body.take (k + d.data.length) := by
  have hp : g'.ptr = memcpy g.ptr k d.data := by
    rw [hg]
    simp [stage, Delivery.packet, h.bufferPtr]
  rw [staged_memcpy g g' k d.data hp, h.contents, List.take_add, hd, List.take_left]

theorem toNat_add_ofNat {x : UInt32} {n : ℕ} (h : x.toNat + n < 2 ^ 32) :
    (x + UInt32.ofNat n).toNat = x.toNat + n := by
  have hn : n < 2 ^ 32 := by omega
  rw [UInt32.toNat_add, UInt32.toNat_ofNat_of_lt' (by simpa using hn), Nat.mod_eq_of_lt h]

/-- A segment that does not reach the end of the image is staged. -/
theorem Staging.more (h : Staging total body k g) (d : Delivery) (rest : List UInt8)
    (hd : body.drop k = d.data ++ rest) (hn : k + d.data.length < 2 ^ 32)
    (ht : k + d.data.length < total) :
    ∃ g', upgradeCgi b d.uninit false d.packet g = some (0, d.packet.appdata, g') ∧
      Staging total body (k + d.data.length) g' := by
  have hsize : (g.totalSize + UInt32.ofNat d.data.length).toNat = k + d.data.length := by
    rw [toNat_add_ofNat (by rw [h.size]; exact hn), h.size]
  have hlt : g.totalSize + UInt32.ofNat d.data.length < g.totalFilesize := by
    rw [UInt32.lt_iff_toNat_lt, hsize, h.filesize]
    exact ht
  let g' := stage d.packet { g with totalSize := g.totalSize + UInt32.ofNat d.data.length }
  have hr : dataPacket b d.packet g = (0, g') := dataPacket_stage hlt h.shift
  refine ⟨g', ?_, h.packets, h.filesize, hsize, ?_, ?_, h.shift, ?_⟩
  · rw [h.upgradeCgi_eq, hr]
  · simp [g', stage, h.bufferPtr, Delivery.packet]
  · exact stage_staged h d rest hd rfl
  · refine h.live.imp_left ?_
    intro h0
    omega

/-- The segment that reaches the end of the image enters the completion branch. -/
theorem Staging.last (h : Staging total body k g) (d : Delivery) (rest : List UInt8)
    (hd : body.drop k = d.data ++ rest) (hn : k + d.data.length < 2 ^ 32)
    (ht : total ≤ k + d.data.length) :
    ∃ g', upgradeCgi b d.uninit false d.packet g =
        some ((complete b g').1, d.packet.appdata, (complete b g').2) ∧
      g'.totalFilesize = g.totalFilesize ∧
      staged g' (k + d.data.length) = body.take (k + d.data.length) := by
  have hlt : ¬ g.totalSize + UInt32.ofNat d.data.length < g.totalFilesize := by
    rw [UInt32.lt_iff_toNat_lt, toNat_add_ofNat (by rw [h.size]; exact hn), h.filesize, h.size]
    omega
  let g' := stage d.packet { g with totalSize := g.totalSize + UInt32.ofNat d.data.length }
  have hr : dataPacket b d.packet g = complete b g' := dataPacket_complete hlt
  refine ⟨g', ?_, rfl, stage_staged h d rest hd rfl⟩
  rw [h.upgradeCgi_eq, hr]

theorem Staging.calls_append (h : Staging total body k g) (ds rest : List Delivery)
    (tail : List UInt8) (hd : body.drop k = (ds.map (·.data)).flatten ++ tail)
    (hk : k ≤ body.length) (hn : body.length < 2 ^ 32)
    (ht : k + ((ds.map (·.data)).flatten).length < total) :
    ∃ g', Staging total body (k + ((ds.map (·.data)).flatten).length) g' ∧
      ∀ x ∈ calls b rest g', x ∈ calls b (ds ++ rest) g := by
  induction ds generalizing k g with
  | nil => exact ⟨g, by simpa using h, fun x hx ↦ hx⟩
  | cons d ds ih =>
    have hd' : body.drop k = d.data ++ ((ds.map (·.data)).flatten ++ tail) := by
      rw [hd]
      simp
    have hlen : k + d.data.length ≤ body.length := by
      have := congrArg List.length hd'
      simp only [List.length_drop, List.length_append] at this
      omega
    simp only [List.map_cons, List.flatten_cons, List.length_append] at ht ⊢
    obtain ⟨g₁, hr, h₁⟩ := h.more (b := b) d _ hd' (by omega) (by omega)
    have hdrop : body.drop (k + d.data.length) = (ds.map (·.data)).flatten ++ tail := by
      rw [← List.drop_drop, hd', List.drop_left]
    obtain ⟨g', h', hx⟩ := ih h₁ hdrop hlen (by omega)
    refine ⟨g', by rwa [← Nat.add_assoc], fun x hm ↦ ?_⟩
    simp only [List.cons_append, calls, hr, if_true, List.mem_cons]
    exact .inr (hx x hm)

/-- Whatever way the rest of the body is cut, the image that is accepted is the one that was
sent. -/
theorem Staging.accepted {file tail : List UInt8} (h : Staging file.length (file ++ tail) k g)
    (ds : List Delivery) (hd : (file ++ tail).drop k = (ds.map (·.data)).flatten)
    (hk : k ≤ (file ++ tail).length) (hn : (file ++ tail).length < 2 ^ 32) {g' : Vars}
    (hg : some (1, g') ∈ calls b ds g) : staged g' g'.totalFilesize.toNat = file := by
  induction ds generalizing k g with
  | nil => simp [calls] at hg
  | cons d ds ih =>
    have hd' : (file ++ tail).drop k = d.data ++ (ds.map (·.data)).flatten := by
      rw [hd]
      simp
    have hlen : k + d.data.length ≤ (file ++ tail).length := by
      have := congrArg List.length hd'
      simp only [List.length_drop, List.length_append] at this hk ⊢
      omega
    by_cases ht : k + d.data.length < file.length
    · obtain ⟨g₁, hr, h₁⟩ := h.more (b := b) d _ hd' (by omega) ht
      have hdrop : (file ++ tail).drop (k + d.data.length) = (ds.map (·.data)).flatten := by
        rw [← List.drop_drop, hd', List.drop_left]
      simp only [calls, hr, if_true, List.mem_cons, Option.some.injEq, Prod.mk.injEq] at hg
      rcases hg with ⟨h0, -⟩ | hg
      · cases h0
      · exact ih h₁ hdrop hlen hg
    · obtain ⟨g₁, hr, hf, hs⟩ := h.last (b := b) d _ hd' (by omega) (by omega)
      simp only [calls, hr, if_neg (complete_ne_zero b g₁), List.mem_singleton] at hg
      have hc : complete b g₁ = (1, g') := (Option.some.inj hg).symm
      have hp : g'.ptr = g₁.ptr := by
        have := complete_ptr b g₁
        rwa [hc] at this
      have hfile : g'.totalFilesize.toNat = file.length := by
        rw [complete_filesize hc, hf, h.filesize]
      calc
        staged g' g'.totalFilesize.toNat = staged g₁ file.length := by
          rw [hfile, staged_congr hp]
        _ = (staged g₁ (k + d.data.length)).take file.length := (staged_take g₁ (by omega)).symm
        _ = file := by
          rw [hs, List.take_take, Nat.min_eq_left (by omega), List.take_left]

end

end UBoot.Httpd.Upload
