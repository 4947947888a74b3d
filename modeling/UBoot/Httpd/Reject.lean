import UBoot.Httpd.UpgradeFirmware

namespace UBoot.Httpd.Reject

open Lib.CString Cgi Appcall RequestLine Upload Multipart PartHeader Firefox Segmentation
open UpgradeFirmware

/-- The variables that `upgrade_firmware` reads beside the size of the image. -/
structure Target where
  startSector : ℕ
  endSector : ℕ
  flashBase : UInt32
  flashwrite : Bool
deriving DecidableEq

def target (g : Vars) : Target := ⟨g.startSector, g.endSector, g.flashBase, g.flashwrite⟩

theorem headerLine_target (appdata : List UInt8) (i : ℕ) (g : Vars) :
    target (headerLine appdata i g) = target g := by
  simp only [headerLine, userAgent]
  split_ifs <;> rfl

theorem headerLoop_target {n : ℕ} {r r' : Request} {g g' : Vars}
    (h : headerLoop n r g = some (r', g')) : target g' = target g := by
  induction n generalizing r g with
  | zero => simp [headerLoop] at h
  | succ n ih =>
    obtain ⟨⟨line, r₁⟩, -, h⟩ := Option.bind_eq_some_iff.mp h
    cases line with
    | none =>
      obtain ⟨-, rfl⟩ := Prod.mk.inj (Option.some.inj h)
      rfl
    | some i =>
      simp only at h
      split_ifs at h
      · obtain ⟨-, rfl⟩ := Prod.mk.inj (Option.some.inj h)
        rfl
      · obtain ⟨-, rfl⟩ := Prod.mk.inj (Option.some.inj h)
        rfl
      · rw [ih h, headerLine_target]

theorem stageFirst_target {datalen base : ℕ} {r : Request} {g g' : Vars} {a : List UInt8}
    (h : stageFirst datalen base r g = some (a, g')) : target g' = target g := by
  simp only [stageFirst] at h
  split at h
  · cases h
  · obtain ⟨-, rfl⟩ := Prod.mk.inj (Option.some.inj h)
    rfl

theorem firefoxBody_target {datalen i : ℕ} {r : Request} {g g' : Vars} {a : List UInt8}
    (h : firefoxBody datalen i r g = some (a, g')) : target g' = target g := by
  obtain ⟨⟨line, r₁⟩, -, h⟩ := Option.bind_eq_some_iff.mp h
  cases line with
  | none => cases h
  | some j =>
    simp only at h
    obtain ⟨⟨line₂, r₂⟩, -, h⟩ := Option.bind_eq_some_iff.mp h
    obtain ⟨⟨line₃, r₃⟩, -, h⟩ := Option.bind_eq_some_iff.mp h
    rw [stageFirst_target h]
    rfl

theorem boundaryLine_target (l : CStr) (g : Vars) : target (boundaryLine l g) = target g := by
  rw [boundaryLine_frame]
  rfl

theorem bodyLoop_target {datalen n : ℕ} {r : Request} {g g' : Vars} {a : List UInt8}
    (h : bodyLoop datalen n r g = some (a, g')) : target g' = target g := by
  induction n generalizing r g with
  | zero => simp [bodyLoop] at h
  | succ n ih =>
    obtain ⟨⟨line, r₁⟩, -, h⟩ := Option.bind_eq_some_iff.mp h
    cases line with
    | none =>
      obtain ⟨-, rfl⟩ := Prod.mk.inj (Option.some.inj h)
      rfl
    | some i =>
      simp only at h
      split_ifs at h
      · obtain ⟨-, rfl⟩ := Prod.mk.inj (Option.some.inj h)
        rfl
      · obtain ⟨-, rfl⟩ := Prod.mk.inj (Option.some.inj h)
        rfl
      · rw [ih h]
        rfl
      · exact firefoxBody_target h
      · exact ih h
      · rw [stageFirst_target h, boundaryLine_target]
      · rw [ih h, boundaryLine_target]

theorem findBoundary_target {datalen : ℕ} {a : List UInt8} {r : Option Request} {r' : Request}
    {g g' : Vars} (h : findBoundary datalen a r g = some (r', g')) : target g' = target g := by
  simp only [findBoundary] at h
  split at h
  · obtain ⟨-, rfl⟩ := Prod.mk.inj (Option.some.inj h)
    rfl
  · obtain ⟨r₁, -, h⟩ := Option.bind_eq_some_iff.mp h
    obtain ⟨⟨line, r₂⟩, -, h⟩ := Option.bind_eq_some_iff.mp h
    cases line with
    | none =>
      obtain ⟨-, rfl⟩ := Prod.mk.inj (Option.some.inj h)
      rfl
    | some i =>
      simp only at h
      split_ifs at h
      · obtain ⟨-, rfl⟩ := Prod.mk.inj (Option.some.inj h)
        rfl
      · obtain ⟨-, rfl⟩ := Prod.mk.inj (Option.some.inj h)
        rfl

theorem dataPacket_target {b : Board} {p : Packet} {g : Vars} (h : (dataPacket b p g).1 ≠ 1) :
    target (dataPacket b p g).2 = target g := by
  simp only [dataPacket, complete] at h ⊢
  split_ifs at h ⊢ <;> first | rfl | exact absurd rfl h

theorem upgradeBody_target {b : Board} {p : Packet} {r : Option Request} {g g' : Vars} {ret : ℕ}
    {a : List UInt8} (h : upgradeBody b p r g = some (ret, a, g')) (hret : ret ≠ 1) :
    target g' = target g := by
  simp only [upgradeBody] at h
  split_ifs at h
  · obtain ⟨⟨r₁, g₁⟩, hfind, h⟩ := Option.bind_eq_some_iff.mp h
    obtain ⟨⟨a₁, g₂⟩, hbody, h⟩ := Option.map_eq_some_iff.mp h
    simp only [Prod.mk.injEq] at h
    rw [← h.2.2, bodyLoop_target hbody, findBoundary_target hfind]
  · simp only [Option.some.injEq, Prod.mk.injEq] at h
    obtain ⟨rfl, -, rfl⟩ := h
    exact dataPacket_target hret
  · simp only [Option.some.injEq, Prod.mk.injEq] at h
    rw [h.2.2]

theorem upgradeCgi_target {b : Board} {u : Uninit} {p : Packet} {g g' : Vars} {ret : ℕ}
    {a : List UInt8} (h : upgradeCgi b u false p g = some (ret, a, g')) (hret : ret ≠ 1) :
    target g' = target g := by
  simp only [upgradeCgi, Bool.false_eq_true, if_false] at h
  split_ifs at h
  · obtain ⟨⟨r, g₁⟩, hl, h⟩ := Option.bind_eq_some_iff.mp h
    rw [upgradeBody_target h hret, ← headerLoop_target hl]
    rfl
  · exact upgradeBody_target h hret

theorem upgradeCgi_first_ret {b : Board} {u : Uninit} {p : Packet} {g g' : Vars} {ret : ℕ}
    {a : List UInt8} (h : upgradeCgi b u false p g = some (ret, a, g')) (hp : g.totalPackets = 0) :
    ret = 0 := by
  simp only [upgradeCgi, Bool.false_eq_true, if_false, if_pos hp] at h
  obtain ⟨⟨r, g₁⟩, hl, h⟩ := Option.bind_eq_some_iff.mp h
  have hle := headerLoop_packets (by omega) hl
  simp only [upgradeBody] at h
  split_ifs at h with h2 h3
  · obtain ⟨⟨r₁, g₁⟩, -, h⟩ := Option.bind_eq_some_iff.mp h
    obtain ⟨⟨a₁, g₂⟩, -, h⟩ := Option.map_eq_some_iff.mp h
    exact (congrArg Prod.fst h).symm
  · omega
  · exact (congrArg Prod.fst (Option.some.inj h)).symm

/-- What one call of `upgrade_cgi` shows. The bytes up to `buffer_ptr` are those of the upload
from the data phase on. -/
structure Observation where
  ret : ℕ
  totalFilesize : UInt32
  target : Target
  staged : List UInt8
deriving DecidableEq

def observe (result : ℕ × Vars) : Observation where
  ret := result.1
  totalFilesize := result.2.totalFilesize
  target := target result.2
  staged :=
    if result.2.totalPackets = 3 ∨ result.1 ≠ 0 then staged result.2 result.2.bufferPtr else []

def observations (results : List (Option (ℕ × Vars))) : List (Option Observation) :=
  results.map (Option.map observe)

/-- Two states of the data phase that no later segment tells apart. -/
structure Alike (g s : Vars) : Prop where
  packets : g.totalPackets = 3
  packets' : s.totalPackets = 3
  filesize : g.totalFilesize = s.totalFilesize
  size : g.totalSize = s.totalSize
  bufferPtr : g.bufferPtr = s.bufferPtr
  counted : g.totalSize.toNat = g.bufferPtr
  contents : ∀ k < g.bufferPtr, g.ptr k = s.ptr k
  shift : g.shift = 0 ↔ s.shift = 0
  safari : g.supportSafari = s.supportSafari
  target : target g = target s

theorem staged_eq {g s : Vars} {n : ℕ} (h : ∀ k < n, g.ptr k = s.ptr k) :
    staged g n = staged s n := by
  apply List.map_congr_left
  intro k hk
  exact h k (List.mem_range.mp hk)

theorem memcpy_agree {p q : ℕ → UInt8} {dst n : ℕ} {src : List UInt8}
    (h : ∀ k < dst, p k = q k) (hn : n ≤ src.length) :
    ∀ k < dst + n, memcpy p dst src k = memcpy q dst src k := by
  intro k hk
  simp only [memcpy]
  split
  · exact h k ‹_›
  · have hlt : k - dst < src.length := by omega
    simp [List.getElem?_eq_getElem hlt]

theorem strncmpEq_congr {n : ℕ} {p q t : ℕ → UInt8} (h : ∀ k < n, p k = q k) :
    strncmpEq n p t = strncmpEq n q t := by
  induction n generalizing p q t with
  | zero => rfl
  | succ n ih =>
    simp only [strncmpEq, h 0 (Nat.succ_pos n)]
    rw [ih fun k hk ↦ h (k + 1) (by omega)]

/-- The hardware ID of the image is among the bytes that the upload has staged, or it is not
compared. -/
def HwidStaged (b : Board) (filesize : UInt32) : Prop :=
  b.httpdNoHwid = true ∨ 0x400 + loaderHwidLen ≤ filesize.toNat

theorem complete_observe {b : Board} {g s : Vars} (h : Alike g s) (hb : HwidStaged b g.totalFilesize)
    (hle : g.totalFilesize.toNat ≤ g.bufferPtr) :
    observe (complete b g) = observe (complete b s) := by
  have hst := staged_eq h.contents
  have ht := h.target
  simp only [staged] at hst
  simp only [target, Target.mk.injEq] at ht
  have hloader : (!b.httpdNoHwid && !strncmpEq loaderHwidLen (fun k ↦ g.ptr (0x400 + k)) b.hwid) =
      (!b.httpdNoHwid && !strncmpEq loaderHwidLen (fun k ↦ s.ptr (0x400 + k)) b.hwid) := by
    rcases hb with hno | hw
    · simp [hno]
    · rw [strncmpEq_congr fun k hk ↦ h.contents _ (by omega)]
  have hkernel : ¬ g.totalFilesize ≤ 512 * 1024 →
      strncmpEq kernelHwidLen (fun k ↦ g.ptr (g.totalFilesize.toNat - hwidLen + k)) b.hwid =
      strncmpEq kernelHwidLen (fun k ↦ s.ptr (g.totalFilesize.toNat - hwidLen + k)) b.hwid := by
    intro hbig
    have hbig' : 512 * 1024 < g.totalFilesize.toNat := by
      simpa [UInt32.le_iff_toNat_le] using hbig
    refine strncmpEq_congr fun k hk ↦ h.contents _ ?_
    simp only [kernelHwidLen, hwidLen] at hk ⊢
    omega
  simp only [complete, ← h.filesize]
  by_cases hsmall : g.totalFilesize ≤ 512 * 1024
  · simp only [if_pos hsmall, hloader]
    split_ifs <;> simp [observe, target, staged, ht, h.packets, h.packets', ← h.bufferPtr, hst,
      h.filesize]
  · simp only [if_neg hsmall, hkernel hsmall]
    split_ifs <;> simp [observe, target, staged, ht, h.packets, h.packets', ← h.bufferPtr, hst,
      h.filesize]

section

variable {b : Board} {g s : Vars}

theorem Alike.stage (h : Alike g s) {p : Packet} (hp : p.datalen ≤ p.appdata.length)
    (hn : g.bufferPtr + p.datalen < 2 ^ 32) :
    Alike (stage p { g with totalSize := g.totalSize + UInt32.ofNat p.datalen })
      (stage p { s with totalSize := s.totalSize + UInt32.ofNat p.datalen }) where
  packets := h.packets
  packets' := h.packets'
  filesize := h.filesize
  size := congrArg (· + UInt32.ofNat p.datalen) h.size
  bufferPtr := congrArg (· + p.datalen) h.bufferPtr
  counted := by
    have hc := h.counted
    simp only [Cgi.stage]
    rw [toNat_add_ofNat (by omega), hc]
  contents := by
    simp only [Cgi.stage, ← h.bufferPtr]
    exact memcpy_agree h.contents (by simp [hp])
  shift := h.shift
  safari := h.safari
  target := h.target

theorem Alike.observe_eq (h : Alike g s) (ret : ℕ) : observe (ret, g) = observe (ret, s) := by
  simp only [observe, h.packets, h.packets', h.filesize, h.target, ← h.bufferPtr,
    staged_eq h.contents]

theorem Alike.dataPacket (h : Alike g s) {p : Packet} (hp : p.datalen ≤ p.appdata.length)
    (hn : g.bufferPtr + p.datalen < 2 ^ 32) (hb : HwidStaged b g.totalFilesize) :
    observe (dataPacket b p g) = observe (dataPacket b p s) ∧
      ((dataPacket b p g).1 = 0 → Alike (dataPacket b p g).2 (dataPacket b p s).2 ∧
        (dataPacket b p g).2.totalFilesize = g.totalFilesize ∧
        (dataPacket b p g).2.bufferPtr ≤ g.bufferPtr + p.datalen) := by
  have hst := h.stage hp hn
  have hlt_iff : s.totalSize + UInt32.ofNat p.datalen < s.totalFilesize ↔
      g.totalSize + UInt32.ofNat p.datalen < g.totalFilesize := by
    rw [h.size, h.filesize]
  by_cases hlt : g.totalSize + UInt32.ofNat p.datalen < g.totalFilesize
  · by_cases hs : g.shift = 0
    · rw [dataPacket_stage hlt hs, dataPacket_stage (hlt_iff.mpr hlt) (h.shift.mp hs)]
      exact ⟨hst.observe_eq 0, fun _ ↦ ⟨hst, rfl, le_rfl⟩⟩
    · rw [dataPacket_skip hlt hs, dataPacket_skip (hlt_iff.mpr hlt) (mt h.shift.mpr hs)]
      have hal : Alike { g with shift := 0 } { s with shift := 0 } :=
        ⟨h.packets, h.packets', h.filesize, h.size, h.bufferPtr, h.counted, h.contents, Iff.rfl,
          h.safari, h.target⟩
      exact ⟨hal.observe_eq 0, fun _ ↦ ⟨hal, rfl, Nat.le_add_right _ _⟩⟩
  · rw [dataPacket_complete hlt, dataPacket_complete (mt hlt_iff.mp hlt)]
    have hle : g.totalFilesize.toNat ≤ g.bufferPtr + p.datalen := by
      rw [UInt32.lt_iff_toNat_lt, toNat_add_ofNat (by rw [h.counted]; exact hn), h.counted] at hlt
      omega
    exact ⟨complete_observe hst hb hle, fun h0 ↦ absurd h0 (complete_ne_zero _ _)⟩

theorem Alike.upgradeCgi (h : Alike g s) {p : Packet} (hp : p.datalen ≤ p.appdata.length)
    (hn : g.bufferPtr + p.datalen < 2 ^ 32) (hb : HwidStaged b g.totalFilesize) (u : Uninit) :
    ∃ ret g' s', Cgi.upgradeCgi b u false p g = some (ret, p.appdata, g') ∧
      Cgi.upgradeCgi b u false p s = some (ret, p.appdata, s') ∧
      observe (ret, g') = observe (ret, s') ∧
      (ret = 0 → Alike g' s' ∧ g'.totalFilesize = g.totalFilesize ∧
        g'.bufferPtr ≤ g.bufferPtr + p.datalen) := by
  by_cases hlive : g.totalSize ≠ 0 ∨ g.supportSafari = true
  · obtain ⟨hobs, hnext⟩ := h.dataPacket hp hn hb
    have hret : (Cgi.dataPacket b p g).1 = (Cgi.dataPacket b p s).1 := congrArg Observation.ret hobs
    refine ⟨_, _, _, ?_, ?_, ?_, hnext⟩
    · simp only [Cgi.upgradeCgi, upgradeBody, h.packets, hlive]
      simp
    · have hlive' : s.totalSize ≠ 0 ∨ s.supportSafari = true := by
        rwa [← h.size, ← h.safari]
      simp only [Cgi.upgradeCgi, upgradeBody, h.packets', hlive', hret]
      simp
    · exact hobs.trans (by rw [hret])
  · refine ⟨0, g, s, ?_, ?_, h.observe_eq 0, fun _ ↦ ⟨h, rfl, Nat.le_add_right _ _⟩⟩
    · simp only [Cgi.upgradeCgi, upgradeBody, h.packets, hlive]
      simp
    · have hlive' : ¬ (s.totalSize ≠ 0 ∨ s.supportSafari = true) := by
        rwa [← h.size, ← h.safari]
      simp only [Cgi.upgradeCgi, upgradeBody, h.packets', hlive']
      simp

theorem Alike.calls (h : Alike g s) (ds : List Delivery)
    (hn : g.bufferPtr + ((ds.map (·.data)).flatten).length < 2 ^ 32)
    (hb : HwidStaged b g.totalFilesize) :
    observations (calls b ds g) = observations (calls b ds s) := by
  induction ds generalizing g s with
  | nil => rfl
  | cons d ds ih =>
    simp only [List.map_cons, List.flatten_cons, List.length_append] at hn
    obtain ⟨ret, g', s', hg, hs, hobs, hnext⟩ := h.upgradeCgi (b := b) (p := d.packet)
      (by simp [Delivery.packet]) (by simp only [Delivery.packet]; omega) hb d.uninit
    simp only [Upload.calls, hg, hs, observations, List.map_cons, Option.map_some, hobs]
    congr 1
    split
    · obtain ⟨hal, hsize, hptr⟩ := hnext ‹_›
      simp only [Delivery.packet] at hptr
      exact ih hal (by omega) (by rwa [hsize])
    · rfl

theorem begun_alike {total : ℕ} {y : List UInt8} (hg : Begun total y g) (hs : Begun total y s)
    (hn : y.length < 2 ^ 32) (hshift : g.shift = 0 ↔ s.shift = 0)
    (hsaf : g.supportSafari = s.supportSafari) (ht : target g = target s) : Alike g s where
  packets := hg.packets
  packets' := hs.packets
  filesize := hg.filesize.trans hs.filesize.symm
  size := hg.size.trans hs.size.symm
  bufferPtr := hg.bufferPtr.trans hs.bufferPtr.symm
  counted := by rw [hg.size, hg.bufferPtr, UInt32.toNat_ofNat_of_lt' (by simpa using hn)]
  contents := by
    rw [hg.bufferPtr]
    intro k hk
    have h : staged g y.length = staged s y.length := hg.contents.trans hs.contents.symm
    exact List.map_eq_map_iff.mp h k (List.mem_range.mpr hk)
  shift := hshift
  safari := hsaf
  target := ht

/-- Without the text `Content-Type:` the second loop does not read what is left of an earlier
upload. -/
theorem bodyLoop_appdata (datalen n : ℕ) {r : Request} (hff : g.supportFireFox = false)
    (hff' : s.supportFireFox = false) (hsaf : g.supportSafari = false)
    (hsaf' : s.supportSafari = false)
    (hno : ∀ j, ¬ ascii "Content-Type:" <+: (r.appdata.take r.requestLen).drop j) :
    (bodyLoop datalen n r g).map Prod.fst = (bodyLoop datalen n r s).map Prod.fst := by
  induction n generalizing r g s with
  | zero => rfl
  | succ n ih =>
    rw [bodyLoop, bodyLoop]
    cases hget : getRequestLine r with
    | none => rfl
    | some res =>
      obtain ⟨line, r₁⟩ := res
      cases line with
      | none => rfl
      | some i =>
        obtain ⟨rfl, hlen, hread⟩ := getRequestLine_spec hget
        have hct := notContentType_of_read hread hno
        simp only [Option.bind_some, hsaf, hsaf', hff, hff', hct, Bool.false_and, Bool.false_eq_true,
          if_false]
        split
        · rfl
        · have hb := boundaryLine_frame (lineAt r₁.appdata r.requestIdx)
          refine ih ?_ ?_ ?_ ?_ fun j hp ↦ ?_
          · rw [hb]; exact hff
          · rw [hb]; exact hff'
          · rw [hb]; exact hsaf
          · rw [hb]; exact hsaf'
          · rw [hlen] at hp
            exact hno j (hread.prefix_mono contentType_nulFree hp)

theorem Ready.observe_eq {f : Form} (hg : Ready f g) (hs : Ready f s)
    (ht : target g = target s) : observe (0, g) = observe (0, s) := by
  simp [observe, hg.packets, hs.packets, hg.filesize, hs.filesize, ht]

/-- Segments of the header show the same, and so does what comes behind them. -/
theorem Ready.observations {f : Form} (hg : Ready f g) (hs : Ready f s)
    (ht : target g = target s) {mids : List Delivery} (ds : List Delivery)
    (hmids : ∀ d ∈ mids, Quiet d.uninit ∧ contains d.data (ascii "Content-Type:") = false)
    (hds : ∀ g s, Ready f g → Ready f s → target g = target s →
      Reject.observations (calls b ds g) = Reject.observations (calls b ds s)) :
    Reject.observations (calls b (mids ++ ds) g) = Reject.observations (calls b (mids ++ ds) s) := by
  induction mids generalizing g s with
  | nil => exact hds g s hg hs ht
  | cons d mids ih =>
    obtain ⟨hq, hno⟩ := hmids d (by simp)
    have happ := bodyLoop_appdata d.packet.datalen (d.packet.datalen + 1)
      (r := ⟨d.packet.appdata, d.packet.datalen, 0⟩) (g := { g with shift := 0 })
      (s := { s with shift := 0 }) hg.firefox hs.firefox hg.safari hs.safari (notContained hno)
    have hstep : (upgradeCgi b d.uninit false d.packet g).isSome =
        (upgradeCgi b d.uninit false d.packet s).isSome := by
      have h := congrArg Option.isSome happ
      rw [upgradeCgi_second hg.packets (.inr hq), upgradeCgi_second hs.packets (.inr hq)]
      simpa only [Option.isSome_map] using h
    simp only [List.cons_append, calls]
    cases hr : upgradeCgi b d.uninit false d.packet g with
    | none =>
      rw [hr] at hstep
      rw [Option.isSome_eq_false_iff.mp hstep.symm |> Option.isNone_iff_eq_none.mp]
    | some res =>
      obtain ⟨ret, a, g₁⟩ := res
      rw [hr] at hstep
      obtain ⟨⟨ret', a', s₁⟩, hr'⟩ := Option.isSome_iff_exists.mp hstep.symm
      obtain ⟨rfl, hg₁⟩ := hg.step hq hno hr
      obtain ⟨rfl, hs₁⟩ := hs.step hq hno hr'
      have ht₁ : target g₁ = target s₁ := by
        rw [upgradeCgi_target hr (by decide), upgradeCgi_target hr' (by decide), ht]
      have hrest := ih hg₁ hs₁ ht₁ fun m hm ↦ hmids m (by simp [hm])
      simp only [hr', Reject.observations, List.map_cons, Option.map_some, if_true,
        Ready.observe_eq hg₁ hs₁ ht₁] at hrest ⊢
      rw [hrest]

/-- A state in which the upload of `f` can begin: the browser flags of another browser are not
set. -/
structure Fresh (f : Form) (g : Vars) : Prop where
  packets : g.totalPackets = 0
  firefox : g.supportFireFox = false ∨ f.browser = .firefox
  safari : g.supportSafari = false

end

section

variable {b : Board} {f : Form} {g s : Vars}

/-- The first call on a segment that holds the beginning of the file. -/
theorem Fresh.joined (hf : f.WellFormed) (hg : Fresh f g) (hs : Fresh f s)
    (ht : target g = target s) {d : Delivery} {y : List UInt8}
    (browser : f.browser = .internetExplorer ∨ f.browser = .opera ∨
      ∃ before l₀ mid referer, f.browser = .firefox ∧ Layout f before (l₀ :: mid) referer)
    (data : d.data = f.head ++ (f.part ++ y)) (size : d.data.length ≠ 1446)
    (hn : y.length < 2 ^ 32) (u : Uninit) :
    ∃ a g' s', d.data.length ≤ a.length ∧
      upgradeCgi b u false ⟨terminateUrl 1 (d.data ++ d.stale), d.data.length⟩ g =
        some (0, a, g') ∧
      upgradeCgi b u false ⟨terminateUrl 1 (d.data ++ d.stale), d.data.length⟩ s =
        some (0, a, s') ∧ Alike g' s' ∧ Begun f.file.length y g' := by
  have hhead := head_length f
  have hpart := part_length f
  have hlen := congrArg List.length data
  simp only [List.length_append] at hlen
  have hclear : ∀ blank : List UInt8, blank.length = 2 →
      d.data.length ≤ (clearedHead f blank ++ (y ++ d.stale)).length := by
    intro blank hb
    simp only [clearedHead, lines_cons, lines_nil, List.length_append, List.length_nil,
      List.length_cons, crlf_length, lines_length, hb] at hhead ⊢
    omega
  have hmk : ∀ {a : List UInt8} {g' s' : Vars},
      upgradeCgi b u false ⟨terminateUrl 1 (d.data ++ d.stale), d.data.length⟩ g =
        some (0, a, g') →
      upgradeCgi b u false ⟨terminateUrl 1 (d.data ++ d.stale), d.data.length⟩ s =
        some (0, a, s') → Begun f.file.length y g' → Begun f.file.length y s' → g'.shift ≠ 0 →
      s'.shift ≠ 0 → g'.supportSafari = false → s'.supportSafari = false → Alike g' s' := by
    intro a g' s' hcg hcs hbg hbs hsg hss hfg hfs
    refine begun_alike hbg hbs hn (by simp [hsg, hss]) (hfg.trans hfs.symm) ?_
    rw [upgradeCgi_target hcg (by decide), upgradeCgi_target hcs (by decide), ht]
  have hnot : f.browser = .internetExplorer ∨ f.browser = .opera → f.browser ≠ .firefox := by
    rintro (h | h) <;> simp [h]
  by_cases hb : f.browser = .internetExplorer ∨ f.browser = .opera
  · obtain ⟨g', hcg, hbg, hsg, hfg⟩ := firstCall_joined hf hb data size b u hg.packets
      (hg.firefox.resolve_right (hnot hb)) hg.safari
    obtain ⟨s', hcs, hbs, hss, hfs⟩ := firstCall_joined hf hb data size b u hs.packets
      (hs.firefox.resolve_right (hnot hb)) hs.safari
    exact ⟨_, g', s', hclear _ rfl, hcg, hcs, hmk hcg hcs hbg hbs hsg hss hfg hfs, hbg⟩
  · obtain ⟨before, l₀, mid, referer, hfox, hlay⟩ := (or_assoc.mpr browser).resolve_left hb
    obtain ⟨g', hcg, hbg, hsg, hfg⟩ := firstCall_firefox hf hfox hlay data size b u hg.packets
      hg.safari
    obtain ⟨s', hcs, hbs, hss, hfs⟩ := firstCall_firefox hf hfox hlay data size b u hs.packets
      hs.safari
    exact ⟨_, g', s', hclear _ rfl, hcg, hcs, hmk hcg hcs hbg hbs hsg hss hfg hfs, hbg⟩

end

/-- What of the last result decides the next upload. -/
def lastFlags (results : List (Option (ℕ × Vars))) : Option (ℕ × ℕ × Bool × Bool × UInt32) :=
  results.getLast?.bind fun r ↦ r.map fun (ret, g) ↦
    (ret, g.totalPackets, g.supportFireFox, g.supportSafari, g.totalSize)

theorem exists_last {results : List (Option (ℕ × Vars))} {ret packets : ℕ} {firefox safari : Bool}
    {size : UInt32} (h : lastFlags results = some (ret, packets, firefox, safari, size)) :
    ∃ g, results.getLast? = some (some (ret, g)) ∧ g.totalPackets = packets ∧
      g.supportFireFox = firefox ∧ g.supportSafari = safari ∧ g.totalSize = size := by
  obtain ⟨r, hr, h⟩ := Option.bind_eq_some_iff.mp h
  obtain ⟨⟨ret', g⟩, rfl, h⟩ := Option.map_eq_some_iff.mp h
  cases h
  exact ⟨g, hr, rfl, rfl, rfl, rfl⟩

end UBoot.Httpd.Reject
