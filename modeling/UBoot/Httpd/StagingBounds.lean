import Mathlib.Data.Int.Basic
import UBoot.Httpd.Segmentation

namespace UBoot.Httpd.StagingBounds

open Lib.CString Cgi Upload Segmentation

/-- `bufsize`, as `cgi_get_flash_buf` sets it. -/
def bufsize : ℕ := 16 * 1024 * 1024

/-- An access of the staging area, by its offset from `ptr`. The length of a `memcpy` is an `int`. -/
inductive Access
  | write (off : ℕ) (len : ℤ)
  | read (off : ℕ) (len : ℕ)
deriving DecidableEq

def Access.Inside : Access → Prop
  | write off len => 0 ≤ len ∧ off + len ≤ bufsize
  | read off len => off + len ≤ bufsize

instance : (a : Access) → Decidable a.Inside
  | .write _ _ => inferInstanceAs (Decidable (_ ∧ _))
  | .read _ _ => inferInstanceAs (Decidable (_ ≤ _))

/-- The request with which `firefoxBody` comes to its `memcpy`. -/
def firefoxCopy (r : Request) : Option Request :=
  (getRequestLine { r with requestIdx := r.requestIdx + 2 }).bind fun
    | (none, _) => none
    | (some _, r) => (getRequestLine r).bind fun (_, r) ↦ (getRequestLine r).map (·.2)

/-- The request with which the second loop comes to its `memcpy`, if it does. -/
def bodyCopy : ℕ → Request → Vars → Option Request
  | 0, _, _ => none
  | n + 1, r, g =>
    (getRequestLine r).bind fun
      | (none, _) => none
      | (some i, r') =>
        let line := lineAt r'.appdata i
        if g.supportSafari && g.contentLength == 0 then none
        else if line = [] then none
        else if g.supportFireFox then
          if hasPrefix line (ascii "POST /cgi/index") then bodyCopy n r' { g with shift := 1 }
          else if hasPrefix line (ascii "Content-Length:") then firefoxCopy r'
          else bodyCopy n r' g
        else
          let g := boundaryLine line g
          if hasPrefix line (ascii "Content-Type:") then some r' else bodyCopy n r' g

/-- A copy of the start of the file, behind the part header. -/
def copyFirst (datalen : ℕ) (r : Request) : Access :=
  .write 0 ((datalen : ℤ) - (r.requestIdx + 2))

/-- The bytes that the completion checks read for the hardware ID. -/
def hwidRead (g : Vars) : Access :=
  if g.totalFilesize ≤ 512 * 1024 then .read 0x400 hwidLen
  else .read (g.totalFilesize.toNat - hwidLen) hwidLen

def isSkipped (p : Packet) (g : Vars) : Bool :=
  g.totalSize + UInt32.ofNat p.datalen < g.totalFilesize && g.shift ≠ 0

def dataAccesses (p : Packet) (g : Vars) : List Access :=
  if g.totalSize + UInt32.ofNat p.datalen < g.totalFilesize then
    if g.shift ≠ 0 then [] else [.write g.bufferPtr p.datalen]
  else [.write g.bufferPtr p.datalen, hwidRead g]

/-- The accesses of `upgradeBody`. -/
def bodyAccesses (p : Packet) (r : Option Request) (g : Vars) : List Access :=
  if g.totalPackets = 2 then
    match findBoundary p.datalen p.appdata r g with
    | none => []
    | some (r, g) => (bodyCopy (p.datalen + 1) r g).toList.map (copyFirst p.datalen)
  else if (g.totalSize ≠ 0 ∨ g.supportSafari = true) ∧ g.totalPackets = 3 then dataAccesses p g
  else []

/-- The state before the part of `upgrade_cgi` behind its first `if`. -/
def beforeBody (u : Uninit) (p : Packet) (g : Vars) : Option (Packet × Option Request × Vars) :=
  if g.totalPackets = 0 then
    (headerLoop (p.datalen + 1) ⟨p.appdata, p.datalen, 0⟩ g).map fun (r, g) ↦
      ({ p with appdata := r.appdata }, some r, { g with totalPackets := g.totalPackets + 1 })
  else some (p, u.request p.appdata, g)

theorem upgradeCgi_eq (b : Board) (u : Uninit) (p : Packet) (g : Vars) :
    upgradeCgi b u false p g = (beforeBody u p g).bind fun (p, r, g) ↦ upgradeBody b p r g := by
  rw [upgradeCgi, beforeBody, if_neg (by simp)]
  split
  · cases headerLoop (p.datalen + 1) ⟨p.appdata, p.datalen, 0⟩ g <;> rfl
  · rfl

/-- What the second loop leaves, by the copy that the trace has of it. -/
def Staged (datalen : ℕ) : Option Request → Vars → Vars → Prop
  | some r, g, g' =>
    r.requestIdx + 2 ≤ datalen ∧ g'.bufferPtr = datalen - (r.requestIdx + 2) ∧
      g'.totalSize = UInt32.ofNat (datalen - (r.requestIdx + 2)) ∧
      g'.ptr = memcpy g.ptr 0
        ((r.appdata.drop (r.requestIdx + 2)).take (datalen - (r.requestIdx + 2)))
  | none, g, g' =>
    g'.bufferPtr = g.bufferPtr ∧ g'.ptr = g.ptr ∧
      (g'.totalPackets = g.totalPackets ∨ g'.totalSize = 0)

theorem Staged.congr {datalen : ℕ} {copy : Option Request} {g₁ g g' : Vars}
    (h : Staged datalen copy g₁ g') (hbuf : g₁.bufferPtr = g.bufferPtr) (hptr : g₁.ptr = g.ptr)
    (hpackets : g₁.totalPackets = g.totalPackets) : Staged datalen copy g g' := by
  cases copy with
  | none => simpa only [Staged, hbuf, hptr, hpackets] using h
  | some r => simpa only [Staged, hptr] using h

theorem stageFirst_staged {datalen base : ℕ} {r : Request} {g g' : Vars} {a : List UInt8}
    (h : stageFirst datalen base r g = some (a, g')) : Staged datalen (some r) g g' := by
  rw [stageFirst] at h
  split at h
  · cases h
  · rename_i hle
    obtain ⟨-, rfl⟩ := Prod.mk.inj (Option.some.inj h)
    exact ⟨by omega, rfl, rfl, rfl⟩

theorem firefoxBody_staged {datalen i : ℕ} {r : Request} {g g' : Vars} {a : List UInt8}
    (h : firefoxBody datalen i r g = some (a, g')) : Staged datalen (firefoxCopy r) g g' := by
  rw [firefoxBody] at h
  obtain ⟨⟨line, r₁⟩, h₁, h⟩ := Option.bind_eq_some_iff.mp h
  cases line with
  | none => cases h
  | some j =>
    obtain ⟨⟨l₂, r₂⟩, h₂, h⟩ := Option.bind_eq_some_iff.mp h
    obtain ⟨⟨l₃, r₃⟩, h₃, h⟩ := Option.bind_eq_some_iff.mp h
    have hcopy : firefoxCopy r = some r₃ := by
      simp only [firefoxCopy, h₁, Option.bind_some, h₂, h₃, Option.map_some]
    rw [hcopy]
    exact (stageFirst_staged h).congr rfl rfl rfl

theorem bodyLoop_staged {datalen n : ℕ} {r : Request} {g g' : Vars} {a : List UInt8}
    (h : bodyLoop datalen n r g = some (a, g')) : Staged datalen (bodyCopy n r g) g g' := by
  induction n generalizing r g with
  | zero => simp [bodyLoop] at h
  | succ n ih =>
    rw [bodyLoop] at h
    obtain ⟨⟨line, r'⟩, hget, h⟩ := Option.bind_eq_some_iff.mp h
    rw [bodyCopy, hget]
    cases line with
    | none =>
      obtain ⟨-, rfl⟩ := Prod.mk.inj (Option.some.inj h)
      exact ⟨rfl, rfl, .inl rfl⟩
    | some i =>
      simp only [Option.bind_some] at h ⊢
      split_ifs at h ⊢
      · obtain ⟨-, rfl⟩ := Prod.mk.inj (Option.some.inj h)
        exact ⟨rfl, rfl, .inr rfl⟩
      · obtain ⟨-, rfl⟩ := Prod.mk.inj (Option.some.inj h)
        exact ⟨rfl, rfl, .inl rfl⟩
      · exact (ih h).congr rfl rfl rfl
      · exact firefoxBody_staged h
      · exact ih h
      · apply (stageFirst_staged h).congr <;> rw [boundaryLine_frame]
      · apply (ih h).congr <;> rw [boundaryLine_frame]

/-- The first line that announces the file, unless an empty one comes before it; it is given by the
request behind it. -/
def announcement (firefox : Bool) : ℕ → Request → Option Request
  | 0, _ => none
  | n + 1, r =>
    match getRequestLine r with
    | some (some i, r') =>
      let line := lineAt r'.appdata i
      if line = [] then none
      else if hasPrefix line (if firefox then ascii "Content-Length:" else ascii "Content-Type:") then
        some r'
      else announcement firefox n r'
    | _ => none

/-- The end of the part header behind that line. Firefox has the rest of the HTTP header and the
part header behind it. -/
def partEnd (firefox : Bool) (r : Request) : Option Request :=
  if firefox then firefoxCopy r else some r

def readsSafari (g : Vars) : Bool := g.supportSafari && g.contentLength == 0

theorem boundaryLine_readsSafari {line : CStr} {g : Vars} (h : readsSafari g = false) :
    readsSafari (boundaryLine line g) = false := by
  have hdashes : ∀ n, 0 < n → hasPrefix line (dashes n) = true → line.length ≠ 0 := by
    intro n hn hp
    have hle := (List.isPrefixOf_iff_prefix.mp hp).length_le
    simp only [dashes, List.length_replicate] at hle
    omega
  unfold boundaryLine
  split_ifs with h₁ h₂ h₃
  · simp [readsSafari, hdashes 29 (by decide) h₁]
  · simp [readsSafari, hdashes 12 (by decide) h₂]
  · simp [readsSafari, hdashes 6 (by decide) h₃]
  · exact h

theorem notLength_of_post {line : CStr} (h : hasPrefix line (ascii "POST /cgi/index") = true) :
    hasPrefix line (ascii "Content-Length:") = false := by
  obtain ⟨t, rfl⟩ := List.isPrefixOf_iff_prefix.mp h
  rfl

theorem bodyCopy_eq {n : ℕ} {r : Request} {g : Vars} (h : readsSafari g = false) :
    bodyCopy n r g = (announcement g.supportFireFox n r).bind (partEnd g.supportFireFox) := by
  induction n generalizing r g with
  | zero => rfl
  | succ n ih =>
    rw [bodyCopy, announcement]
    cases hget : getRequestLine r with
    | none => rfl
    | some res =>
      obtain ⟨line, r'⟩ := res
      cases line with
      | none => rfl
      | some i =>
        have hsaf : (g.supportSafari && g.contentLength == 0) = false := h
        simp only [Option.bind_some, hsaf, Bool.false_eq_true, if_false]
        cases hff : g.supportFireFox with
        | true =>
          simp only [if_true]
          split_ifs with hnil hpost hlength hlength'
          · rfl
          · rw [notLength_of_post hpost] at hlength
            cases hlength
          · exact ih (g := { g with shift := 1, supportFireFox := true }) h
          · rfl
          · rw [ih h, hff]
        | false =>
          simp only [Bool.false_eq_true, if_false]
          split_ifs with hnil htype
          · rfl
          · rfl
          · have hff' : (boundaryLine (lineAt r'.appdata i) g).supportFireFox = false := by
              rw [boundaryLine_frame]
              exact hff
            rw [ih (boundaryLine_readsSafari h), hff']

theorem bodyCopy_safari {n : ℕ} {r : Request} {g : Vars} (h : readsSafari g = true) :
    bodyCopy n r g = none := by
  cases n with
  | zero => rfl
  | succ n =>
    have hsaf : (g.supportSafari && g.contentLength == 0) = true := h
    rw [bodyCopy]
    cases getRequestLine r with
    | none => rfl
    | some res =>
      obtain ⟨line, r'⟩ := res
      cases line with
      | none => rfl
      | some i => simp only [Option.bind_some, hsaf, if_true]

/-- The part header is whole in the packet that announces the file: at least two bytes follow the
last line that is read. -/
def partWhole (datalen : ℕ) (r : Request) (g : Vars) : Bool :=
  readsSafari g ||
    ((announcement g.supportFireFox (datalen + 1) r).bind (partEnd g.supportFireFox)).all
      fun r ↦ r.requestIdx + 2 ≤ datalen

theorem copyFirst_inside_iff {datalen : ℕ} (hlen : datalen < 2 ^ 16) (r : Request) (g : Vars) :
    (∀ a ∈ (bodyCopy (datalen + 1) r g).toList.map (copyFirst datalen), a.Inside) ↔
      partWhole datalen r g = true := by
  rw [partWhole]
  cases hsaf : readsSafari g with
  | true => simp [bodyCopy_safari hsaf]
  | false =>
    rw [← bodyCopy_eq hsaf]
    cases bodyCopy (datalen + 1) r g with
    | none => simp
    | some r₁ =>
      simp only [Option.toList_some, List.map_cons, List.map_nil, List.mem_singleton, forall_eq,
        copyFirst, Access.Inside, bufsize, Bool.false_or, Option.all_some, decide_eq_true_eq]
      omega

/-- The condition on a call, in the state behind its header loop. -/
def bodyFits (p : Packet) (r : Option Request) (g : Vars) : Bool :=
  if g.totalPackets = 2 then
    (findBoundary p.datalen p.appdata r g).all fun (r, g) ↦ partWhole p.datalen r g
  else if (g.totalSize ≠ 0 ∨ g.supportSafari = true) ∧ g.totalPackets = 3 then
    isSkipped p g || g.bufferPtr + p.datalen ≤ bufsize
  else true

/-- The bytes counted in the data phase are in the staging area. -/
structure Sized (g : Vars) : Prop where
  size : g.totalPackets = 3 → g.totalSize.toNat ≤ g.bufferPtr
  fill : g.bufferPtr ≤ bufsize

theorem findBoundary_frame {datalen : ℕ} {appdata : List UInt8} {r : Option Request} {r' : Request}
    {g g' : Vars} (h : findBoundary datalen appdata r g = some (r', g')) :
    g'.totalPackets = g.totalPackets ∧ g'.bufferPtr = g.bufferPtr ∧ g'.ptr = g.ptr := by
  rw [findBoundary] at h
  split at h
  · obtain ⟨-, rfl⟩ := Prod.mk.inj (Option.some.inj h)
    exact ⟨rfl, rfl, rfl⟩
  · obtain ⟨r₀, -, h⟩ := Option.bind_eq_some_iff.mp h
    obtain ⟨⟨line, r₁⟩, -, h⟩ := Option.bind_eq_some_iff.mp h
    cases line with
    | none =>
      obtain ⟨-, rfl⟩ := Prod.mk.inj (Option.some.inj h)
      exact ⟨rfl, rfl, rfl⟩
    | some i =>
      simp only at h
      split_ifs at h
      · obtain ⟨-, rfl⟩ := Prod.mk.inj (Option.some.inj h)
        exact ⟨rfl, rfl, rfl⟩
      · obtain ⟨-, rfl⟩ := Prod.mk.inj (Option.some.inj h)
        exact ⟨rfl, rfl, rfl⟩

theorem Staged.sized {datalen : ℕ} {copy : Option Request} {g g' : Vars}
    (h : Staged datalen copy g g') (hg : Sized g) (hp : g.totalPackets ≠ 3)
    (hlen : datalen < 2 ^ 16) : Sized g' := by
  cases copy with
  | none =>
    obtain ⟨hptr, -, hpackets⟩ := h
    refine ⟨?_, by rw [hptr]; exact hg.fill⟩
    intro h3
    rcases hpackets with hpackets | hsize
    · exact absurd (hpackets.symm.trans h3) hp
    · rw [hsize]
      exact Nat.zero_le _
  | some r =>
    obtain ⟨hle, hptr, hsize, -⟩ := h
    refine ⟨?_, ?_⟩
    · intro _
      rw [hsize, hptr, UInt32.toNat_ofNat']
      exact Nat.mod_le _ _
    · rw [hptr, bufsize]
      omega

theorem complete_sized {b : Board} {g : Vars} (h : Sized g) : Sized (complete b g).2 := by
  obtain ⟨hsize, hfill⟩ := h
  simp only [complete]
  split_ifs
  · exact ⟨hsize, hfill⟩
  · exact ⟨fun _ ↦ Nat.zero_le _, hfill⟩
  · exact ⟨hsize, hfill⟩
  · exact ⟨fun _ ↦ Nat.zero_le _, hfill⟩
  · exact ⟨hsize, hfill⟩

theorem stage_sized {p : Packet} {g : Vars} (h : Sized g) (h3 : g.totalPackets = 3)
    (hfit : g.bufferPtr + p.datalen ≤ bufsize) :
    Sized (stage p { g with totalSize := g.totalSize + UInt32.ofNat p.datalen }) := by
  refine ⟨?_, hfit⟩
  intro _
  have hsize := h.size h3
  have hmod : (g.totalSize + UInt32.ofNat p.datalen).toNat ≤ g.totalSize.toNat + p.datalen := by
    rw [UInt32.toNat_add, UInt32.toNat_ofNat']
    have h₁ := Nat.mod_le (g.totalSize.toNat + p.datalen % 2 ^ 32) (2 ^ 32)
    have h₂ := Nat.mod_le p.datalen (2 ^ 32)
    omega
  exact hmod.trans (Nat.add_le_add_right hsize _)

section

variable {b : Board} {p : Packet} {g : Vars}

/-- At the end of an upload as many bytes are staged as the file has. -/
theorem filesize_le (h : Sized g) (h3 : g.totalPackets = 3)
    (hfit : g.bufferPtr + p.datalen ≤ bufsize)
    (hend : ¬ g.totalSize + UInt32.ofNat p.datalen < g.totalFilesize) :
    g.totalFilesize.toNat ≤ bufsize := by
  have hle : g.totalFilesize.toNat ≤ (g.totalSize + UInt32.ofNat p.datalen).toNat := by
    rw [UInt32.lt_iff_toNat_lt] at hend
    omega
  have hsize := (stage_sized h h3 hfit).size h3
  exact hle.trans (hsize.trans hfit)

theorem dataAccesses_inside_iff (h : Sized g) (h3 : g.totalPackets = 3) :
    (∀ a ∈ dataAccesses p g, a.Inside) ↔
      (isSkipped p g || g.bufferPtr + p.datalen ≤ bufsize) = true := by
  have hwrite : (Access.write g.bufferPtr p.datalen).Inside ↔
      g.bufferPtr + p.datalen ≤ bufsize := by
    simp only [Access.Inside]
    omega
  have hread : ¬ g.totalSize + UInt32.ofNat p.datalen < g.totalFilesize →
      g.bufferPtr + p.datalen ≤ bufsize → (hwidRead g).Inside := by
    intro hend hle
    have hfile := filesize_le h h3 hle hend
    rw [hwidRead]
    split
    · decide
    · rename_i hlarge
      rw [UInt32.le_iff_toNat_le] at hlarge
      have h512 : (512 * 1024 : UInt32).toNat = 524288 := rfl
      simp only [Access.Inside, hwidLen]
      omega
  rw [dataAccesses]
  by_cases hlt : g.totalSize + UInt32.ofNat p.datalen < g.totalFilesize
  · by_cases hshift : g.shift = 0
    · simp [isSkipped, hlt, hshift, hwrite]
    · simp [isSkipped, hlt, hshift]
  · simp only [hlt, if_false, List.forall_mem_cons, hwrite, isSkipped, decide_false, Bool.false_and,
      Bool.false_or, decide_eq_true_eq]
    constructor
    · intro hall
      exact hall.1
    · intro hle
      refine ⟨hle, hread hlt hle, ?_⟩
      simp

theorem dataPacket_sized (h : Sized g) (h3 : g.totalPackets = 3)
    (hfit : (isSkipped p g || g.bufferPtr + p.datalen ≤ bufsize) = true) :
    Sized (dataPacket b p g).2 ∧
      ((dataPacket b p g).1 = 1 → (dataPacket b p g).2.totalFilesize.toNat ≤ bufsize) := by
  by_cases hlt : g.totalSize + UInt32.ofNat p.datalen < g.totalFilesize
  · by_cases hshift : g.shift = 0
    · have hle : g.bufferPtr + p.datalen ≤ bufsize := by simpa [isSkipped, hlt, hshift] using hfit
      rw [dataPacket_stage hlt hshift]
      exact ⟨stage_sized h h3 hle, by simp⟩
    · rw [dataPacket_skip hlt hshift]
      exact ⟨⟨h.size, h.fill⟩, by simp⟩
  · have hle : g.bufferPtr + p.datalen ≤ bufsize := by simpa [isSkipped, hlt] using hfit
    rw [dataPacket_complete hlt]
    refine ⟨complete_sized (stage_sized h h3 hle), ?_⟩
    intro hret
    have hfile := filesize_le h h3 hle hlt
    rw [complete_filesize (Prod.ext hret rfl)]
    exact hfile

theorem bodyAccesses_inside_iff {r : Option Request} (h : Sized g) (hlen : p.datalen < 2 ^ 16) :
    (∀ a ∈ bodyAccesses p r g, a.Inside) ↔ bodyFits p r g = true := by
  rw [bodyFits, bodyAccesses]
  split_ifs with h2 h3
  · cases findBoundary p.datalen p.appdata r g with
    | none => simp
    | some found =>
      obtain ⟨r', g'⟩ := found
      exact copyFirst_inside_iff hlen r' g'
  · exact dataAccesses_inside_iff h h3.2
  · simp

theorem upgradeBody_sized {r : Option Request} {ret : ℕ} {a : List UInt8} {g' : Vars}
    (h : Sized g) (hlen : p.datalen < 2 ^ 16) (hfit : bodyFits p r g = true)
    (hr : upgradeBody b p r g = some (ret, a, g')) :
    Sized g' ∧ (ret = 1 → g'.totalFilesize.toNat ≤ bufsize) := by
  rw [bodyFits] at hfit
  rw [upgradeBody] at hr
  split_ifs at hfit hr with h2 h3
  · obtain ⟨⟨r₁, g₁⟩, hfind, hr⟩ := Option.bind_eq_some_iff.mp hr
    obtain ⟨⟨a₂, g₂⟩, hbody, hr⟩ := Option.map_eq_some_iff.mp hr
    simp only [Prod.mk.injEq] at hr
    obtain ⟨rfl, -, rfl⟩ := hr
    obtain ⟨hpackets, hbuf, -⟩ := findBoundary_frame hfind
    have h₁ : Sized g₁ := by
      refine ⟨?_, by rw [hbuf]; exact h.fill⟩
      intro hthree
      omega
    exact ⟨(bodyLoop_staged hbody).sized h₁ (by omega) hlen, by simp⟩
  · obtain ⟨rfl, -, rfl⟩ := by simpa using hr
    exact dataPacket_sized h h3.2 hfit
  · simp only [Option.some.injEq, Prod.mk.injEq] at hr
    obtain ⟨rfl, -, rfl⟩ := hr
    exact ⟨h, by simp⟩

end

theorem headerLine_frame (appdata : List UInt8) (i : ℕ) (g : Vars) :
    (headerLine appdata i g).bufferPtr = g.bufferPtr ∧
      ((headerLine appdata i g).totalPackets = g.totalPackets ∨
        (headerLine appdata i g).totalPackets = 1) := by
  simp only [headerLine, userAgent]
  split_ifs <;> simp

theorem headerLoop_frame {n : ℕ} {r r' : Request} {g g' : Vars}
    (h : headerLoop n r g = some (r', g')) (hg : g.totalPackets ≤ 1) :
    g'.bufferPtr = g.bufferPtr ∧ g'.totalPackets ≤ 1 := by
  induction n generalizing r g with
  | zero => simp [headerLoop] at h
  | succ n ih =>
    rw [headerLoop] at h
    obtain ⟨⟨line, r₁⟩, -, h⟩ := Option.bind_eq_some_iff.mp h
    cases line with
    | none =>
      obtain ⟨-, rfl⟩ := Prod.mk.inj (Option.some.inj h)
      exact ⟨rfl, hg⟩
    | some i =>
      simp only at h
      split_ifs at h
      · obtain ⟨-, rfl⟩ := Prod.mk.inj (Option.some.inj h)
        exact ⟨rfl, hg⟩
      · obtain ⟨-, rfl⟩ := Prod.mk.inj (Option.some.inj h)
        exact ⟨rfl, hg⟩
      · obtain ⟨hbuf, hpackets⟩ := headerLine_frame r₁.appdata i g
        obtain ⟨hbuf', hle⟩ := ih h (by omega)
        exact ⟨hbuf'.trans hbuf, hle⟩

theorem beforeBody_sized {u : Uninit} {p p' : Packet} {r : Option Request} {g g' : Vars}
    (h : beforeBody u p g = some (p', r, g')) (hg : Sized g) :
    Sized g' ∧ p'.datalen = p.datalen := by
  rw [beforeBody] at h
  split_ifs at h with h0
  · obtain ⟨⟨r₁, g₁⟩, hloop, h⟩ := Option.map_eq_some_iff.mp h
    simp only [Prod.mk.injEq] at h
    obtain ⟨rfl, -, rfl⟩ := h
    obtain ⟨hbuf, hle⟩ := headerLoop_frame hloop (by omega)
    refine ⟨⟨?_, ?_⟩, rfl⟩
    · intro hthree
      have hthree' : g₁.totalPackets + 1 = 3 := hthree
      omega
    · exact hbuf.trans_le hg.fill
  · simp only [Option.some.injEq, Prod.mk.injEq] at h
    obtain ⟨rfl, -, rfl⟩ := h
    exact ⟨hg, rfl⟩

/-- A call of `upgrade_cgi` with what it finds; `uip_datalen()` has 16 bits. -/
structure Call where
  board : Board
  uninit : Uninit
  packet : Packet
  datalen_lt : packet.datalen < 2 ^ 16

/-- What happens to the staging area: a call of `upgrade_cgi`, or the main loop comes to its test
of `flashwrite`. -/
inductive Event
  | call (c : Call)
  | flash

/-- The variables, and whether the last call returned 1. -/
structure Server where
  vars : Vars
  accepted : Bool

def Server.step (s : Server) : Event → Option Server
  | .call c =>
    (upgradeCgi c.board c.uninit false c.packet s.vars).map fun (ret, _, g) ↦ ⟨g, ret = 1⟩
  | .flash => some s

/-- The accesses of an event. `upgrade_firmware` reads the whole image. -/
def Server.accesses (s : Server) : Event → List Access
  | .call c =>
    match beforeBody c.uninit c.packet s.vars with
    | none => []
    | some (p, r, g) => bodyAccesses p r g
  | .flash => if s.vars.flashwrite then [.read 0 s.vars.totalFilesize.toNat] else []

/-- The condition on a call. -/
def Server.fits (s : Server) : Event → Bool
  | .call c => (beforeBody c.uninit c.packet s.vars).all fun (p, r, g) ↦ bodyFits p r g
  | .flash => true

/-- No other call of `upgrade_cgi` comes between the one that accepts the image and
`upgrade_firmware`. -/
def Server.flashesAccepted (s : Server) : Event → Bool
  | .call _ => true
  | .flash => s.accepted || !s.vars.flashwrite

def Server.runAccesses (s : Server) : List Event → List Access
  | [] => []
  | e :: es => s.accesses e ++ (s.step e).elim [] fun s' ↦ s'.runAccesses es

/-- A condition on the events of a run, each in the state it comes to. -/
def Server.always (cond : Server → Event → Bool) (s : Server) : List Event → Bool
  | [] => true
  | e :: es => cond s e && (s.step e).all fun s' ↦ s'.always cond es

structure Bounded (s : Server) : Prop where
  sized : Sized s.vars
  image : s.accepted = true → s.vars.totalFilesize.toNat ≤ bufsize

variable {s s' : Server} {e : Event}

theorem Bounded.accesses_iff (h : Bounded s) (hflash : s.flashesAccepted e = true) :
    (∀ a ∈ s.accesses e, a.Inside) ↔ s.fits e = true := by
  cases e with
  | call c =>
    simp only [Server.accesses, Server.fits]
    cases hbefore : beforeBody c.uninit c.packet s.vars with
    | none => simp
    | some state =>
      obtain ⟨p, r, g⟩ := state
      obtain ⟨hsized, hlen⟩ := beforeBody_sized hbefore h.sized
      exact bodyAccesses_inside_iff hsized (by rw [hlen]; exact c.datalen_lt)
  | flash =>
    refine iff_of_true ?_ rfl
    intro a ha
    simp only [Server.accesses] at ha
    split_ifs at ha with hset
    · obtain rfl := List.mem_singleton.mp ha
      have haccepted : s.accepted = true := by simpa [Server.flashesAccepted, hset] using hflash
      have himage := h.image haccepted
      simpa [Access.Inside] using himage
    · simp at ha

theorem Bounded.step (h : Bounded s) (hfit : s.fits e = true) (hs : s.step e = some s') :
    Bounded s' := by
  cases e with
  | call c =>
    obtain ⟨⟨ret, a, g'⟩, hcgi, rfl⟩ := Option.map_eq_some_iff.mp hs
    rw [upgradeCgi_eq] at hcgi
    obtain ⟨⟨p, r, g⟩, hbefore, hbody⟩ := Option.bind_eq_some_iff.mp hcgi
    obtain ⟨hsized, hlen⟩ := beforeBody_sized hbefore h.sized
    have hbodyFits : bodyFits p r g = true := by simpa [Server.fits, hbefore] using hfit
    obtain ⟨hsized', himage⟩ :=
      upgradeBody_sized hsized (by rw [hlen]; exact c.datalen_lt) hbodyFits hbody
    exact ⟨hsized', fun haccepted ↦ himage (by simpa using haccepted)⟩
  | flash =>
    obtain rfl := Option.some.inj hs
    exact h

theorem Bounded.run_iff {es : List Event} (h : Bounded s)
    (hflash : s.always Server.flashesAccepted es = true) :
    (∀ a ∈ s.runAccesses es, a.Inside) ↔ s.always Server.fits es = true := by
  induction es generalizing s with
  | nil => simp [Server.runAccesses, Server.always]
  | cons e es ih =>
    simp only [Server.always, Bool.and_eq_true] at hflash ⊢
    rw [Server.runAccesses, List.forall_mem_append, h.accesses_iff hflash.1]
    apply and_congr_right
    intro hfit
    cases hstep : s.step e with
    | none => simp
    | some s' =>
      rw [hstep] at hflash
      exact ih (h.step hfit hstep) hflash.2

/-- Every access of a run stays inside the staging area, just when every call finds the part header
whole, or room for the packet. -/
theorem staging_inside_iff (ram : ℕ → UInt8) (es : List Event)
    (hflash : (Server.mk (startUp ram) false).always Server.flashesAccepted es = true) :
    (∀ a ∈ (Server.mk (startUp ram) false).runAccesses es, a.Inside) ↔
      (Server.mk (startUp ram) false).always Server.fits es = true := by
  apply Bounded.run_iff _ hflash
  refine ⟨⟨?_, Nat.zero_le _⟩, ?_⟩
  · intro h3
    exact absurd h3 (by simp [startUp])
  · intro haccepted
    cases haccepted

/-- A segment as a call of `upgrade_cgi`, on a board that does not check the hardware ID. -/
def callOf (d : Delivery) (h : d.data.length < 2 ^ 16) : Event :=
  .call ⟨noHwid, d.uninit, d.packet, h⟩

/-- The upload of a file of two bytes in three segments, and the start of the update. -/
def shortUpload : List Event :=
  let f := sampleForm (ascii "FW")
  [callOf ⟨f.head, [], idle⟩ (by decide +kernel),
    callOf ⟨f.part ++ ascii "F", [], idle⟩ (by decide +kernel),
    callOf ⟨ascii "W" ++ f.trailer, [], idle⟩ (by decide +kernel), .flash]

theorem staging_inside_short :
    (Server.mk (startUp fun _ ↦ 0) false).runAccesses shortUpload =
        [.write 0 1, .write 1 20, .read 0x400 24, .read 0 2] ∧
      ∀ a ∈ (Server.mk (startUp fun _ ↦ 0) false).runAccesses shortUpload, a.Inside :=
  ⟨by decide +kernel, (staging_inside_iff (fun _ ↦ 0) shortUpload (by decide +kernel)).mpr
    (by decide +kernel)⟩

/-- The same upload with a segment that ends behind the `Content-Type:` line. -/
def typeCut : List Event :=
  let f := sampleForm (ascii "FW")
  [callOf ⟨f.head, [], idle⟩ (by decide +kernel),
    callOf ⟨RequestLine.lines RequestLine.crlf [f.boundary, f.disposition, f.contentType], [], idle⟩
      (by decide +kernel)]

/-- The length of its `memcpy` is -2. -/
theorem staging_outside_typeCut :
    ¬ ∀ (ram : ℕ → UInt8) (es : List Event),
      ∀ a ∈ (Server.mk (startUp ram) false).runAccesses es, a.Inside := by
  intro hall
  have hmem : Access.write 0 (-2) ∈
      (Server.mk (startUp fun _ ↦ 0) false).runAccesses typeCut := by
    decide +kernel
  exact absurd (hall _ typeCut _ hmem) (by decide)

end UBoot.Httpd.StagingBounds
