import UBoot.Httpd.PartHeader

namespace UBoot.Httpd.UninitLocals

open Lib.CString Cgi PartHeader

/-- What a call of `upgrade_cgi` leaves: the value it returns, and the parser state with the staging
buffer. -/
def outcome (b : Board) (next : Bool) (p : Packet) (g : Vars) (u : Uninit) : Option (ℕ × Vars) :=
  (upgradeCgi b u next p g).map fun r ↦ (r.1, r.2.2)

/-- The locals that are not initialised have no influence. -/
def Deterministic (b : Board) (next : Bool) (p : Packet) (g : Vars) : Prop :=
  ∀ u u', outcome b next p g u = outcome b next p g u'

/-- The locals are assigned before they are read, or not read. -/
def Assigned (next : Bool) (g : Vars) : Prop :=
  next = true ∨ g.totalPackets ≠ 2 ∨ g.supportFireFox = true

instance (next : Bool) (g : Vars) : Decidable (Assigned next g) :=
  inferInstanceAs (Decidable (_ ∨ _ ∨ _))

theorem upgradeCgi_assigned (b : Board) {next : Bool} (p : Packet) {g : Vars} (h : Assigned next g)
    (u u' : Uninit) : upgradeCgi b u next p g = upgradeCgi b u' next p g := by
  cases next with
  | true => rfl
  | false =>
    by_cases hfirst : g.totalPackets = 0
    · simp only [upgradeCgi, if_pos hfirst, Bool.false_eq_true, if_false]
    · rcases h with h | h | h
      · cases h
      · simp only [upgradeCgi, upgradeBody, if_neg hfirst, if_neg h, Bool.false_eq_true, if_false]
      · by_cases htwo : g.totalPackets = 2
        · rw [upgradeCgi_second htwo (.inl h), upgradeCgi_second htwo (.inl h)]
        · simp only [upgradeCgi, upgradeBody, if_neg hfirst, if_neg htwo, Bool.false_eq_true,
            if_false]

/-- Locals that make `get_request_line` read the byte behind `uip_buf`. -/
def behind (p : Packet) : Uninit := ⟨p.appdata.length + 1, p.appdata.length⟩

theorem upgradeCgi_behind (b : Board) (p : Packet) {g : Vars} (htwo : g.totalPackets = 2)
    (hfirefox : g.supportFireFox = false) : upgradeCgi b (behind p) false p g = none := by
  have hzero : g.totalPackets ≠ 0 := by
    rw [htwo]
    decide
  have hrequest : (behind p).request p.appdata =
      some ⟨p.appdata, p.appdata.length + 1, p.appdata.length⟩ := by
    have hlt : ¬ ((p.appdata.length : ℤ) + 1 ≤ p.appdata.length) := by omega
    rw [Uninit.request, behind, if_neg hlt, if_pos (Int.natCast_nonneg _)]
    rfl
  have hline : getRequestLine ⟨p.appdata, p.appdata.length + 1, p.appdata.length⟩ = none := by
    simp [getRequestLine, findEol]
  simp only [upgradeCgi, Bool.false_eq_true, if_false, if_neg hzero, upgradeBody, if_pos htwo, hrequest,
    findBoundary, hfirefox, Option.bind_some, hline, Option.bind_none]

/-- Where a call returns at all, the locals have no influence exactly when they are assigned or not
read. -/
theorem upgrade_cgi_deterministic_iff (b : Board) (next : Bool) (p : Packet) (g : Vars)
    (hreturns : ∃ u, (upgradeCgi b u next p g).isSome = true) :
    Deterministic b next p g ↔ Assigned next g := by
  constructor
  · intro hdet
    by_contra hnot
    simp only [Assigned, not_or, not_not, Bool.not_eq_true] at hnot
    obtain ⟨rfl, htwo, hfirefox⟩ := hnot
    obtain ⟨u, hu⟩ := hreturns
    have hnone := hdet u (behind p)
    rw [outcome, outcome, upgradeCgi_behind b p htwo hfirefox, Option.map_none,
      Option.map_eq_none_iff] at hnone
    rw [hnone] at hu
    cases hu
  · intro h u u'
    rw [outcome, outcome, upgradeCgi_assigned b p h u u']

/-- The second packet of Internet Explorer: a line and a boundary. -/
def boundaryPacket : Packet := ⟨ascii "a\r\n----------\r\n", 15⟩

/-- The state in front of the second packet. -/
def second (firefox : Bool) : Vars :=
  { startUp fun _ ↦ 0 with totalPackets := 2, supportFireFox := firefox }

theorem upgrade_cgi_deterministic_firefox :
    Deterministic ⟨false, fun _ ↦ 0⟩ false boundaryPacket (second true) :=
  (upgrade_cgi_deterministic_iff ⟨false, fun _ ↦ 0⟩ false boundaryPacket (second true)
    ⟨⟨0, 0⟩, by decide +kernel⟩).mpr (.inr (.inr rfl))

/-- Locals left by an earlier call point at the boundary, inside the packet. -/
theorem upgrade_cgi_depends :
    (outcome ⟨false, fun _ ↦ 0⟩ false boundaryPacket (second false) ⟨0, 0⟩).map (·.2.shift) = some 0 ∧
      (outcome ⟨false, fun _ ↦ 0⟩ false boundaryPacket (second false) ⟨15, 3⟩).map (·.2.shift) =
        some 3 ∧
      ¬ Deterministic ⟨false, fun _ ↦ 0⟩ false boundaryPacket (second false) := by
  have hquiet : (outcome ⟨false, fun _ ↦ 0⟩ false boundaryPacket (second false) ⟨0, 0⟩).map
      (·.2.shift) = some 0 := by decide +kernel
  have hstale : (outcome ⟨false, fun _ ↦ 0⟩ false boundaryPacket (second false) ⟨15, 3⟩).map
      (·.2.shift) = some 3 := by decide +kernel
  refine ⟨hquiet, hstale, ?_⟩
  intro hdet
  rw [hdet ⟨0, 0⟩ ⟨15, 3⟩, hstale] at hquiet
  cases hquiet

end UBoot.Httpd.UninitLocals
