import Mathlib.Data.List.Infix
import UBoot.Net.Nfs

namespace UBoot.Net.NfsReplies

open Lib.CString Lib.Memory Nfs
open Tftp (NetState)

section Packets

theorem load32_rpcPkt {p : Packet} {i : ℕ} (h : i + 4 ≤ p.len) :
    load32 (rpcPkt p) i = load32 p.data i := by
  have hbyte (k : ℕ) (hk : k < p.len) : rpcPkt p k = p.data k := if_pos hk
  simp only [load32, load16, hbyte i (by omega), hbyte (i + 1) (by omega),
    hbyte (i + 2) (by omega), hbyte (i + 2 + 1) (by omega)]

theorem bytes_rpcPkt {p : Packet} {i n : ℕ} (h : i + n ≤ p.len) :
    bytes (rpcPkt p) i n = bytes p.data i n := by
  apply bytes_congr
  intro k _ hk
  exact if_pos (by omega)

end Packets

section Send

variable {s s' : Client}

/-- The call that belongs to the state of the client. -/
def Asks (s : Client) (call : Call) : Prop :=
  match s.nfsState with
  | .prclookupProgMount => call = .getport .mount
  | .prclookupProgNfs => call = .getport .nfs
  | .mount => ∃ path, load s.nfsPathBuff = some path ∧ call = .mount path
  | .umount => call = .umountall
  | .lookup => ∃ fname, load (s.nfsPathBuff.drop s.nfsFilename) = some fname ∧
      call = .lookup s.dirfh fname
  | .read => call = .read s.filefh s.nfsOffset s.nfsLen
  | .readlink => call = .readlink s.filefh

/-- `NfsSend` sends what belongs to the state; only an umount may send nothing. -/
theorem nfsSend_cases (h : nfsSend s = some s') :
    (∃ call, Asks s call ∧ s' = rpcReq call s) ∨ s.nfsState = .umount ∧ s' = s := by
  rw [nfsSend] at h
  unfold Asks
  cases hstate : s.nfsState with
  | mount | lookup =>
    rw [hstate] at h
    obtain ⟨text, htext, h⟩ := Option.bind_eq_some_iff.mp h
    cases h
    exact Or.inl ⟨_, ⟨text, htext, rfl⟩, rfl⟩
  | umount =>
    simp only [hstate] at h
    split_ifs at h
    · cases h
      exact Or.inr ⟨rfl, rfl⟩
    · cases h
      exact Or.inl ⟨_, rfl, rfl⟩
  | prclookupProgMount | prclookupProgNfs | read | readlink =>
    rw [hstate] at h
    cases h
    exact Or.inl ⟨_, rfl, rfl⟩

theorem nfsSend_nfsState (h : nfsSend s = some s') : s'.nfsState = s.nfsState := by
  obtain ⟨call, -, rfl⟩ | ⟨-, rfl⟩ := nfsSend_cases h
  · rfl
  · rfl

end Send

/-- The part of the client that a transfer is about. -/
structure SameTransfer (s s' : Client) : Prop where
  nfsState : s'.nfsState = s.nfsState
  dirfh : s'.dirfh = s.dirfh
  filefh : s'.filefh = s.filefh
  nfsPathBuff : s'.nfsPathBuff = s.nfsPathBuff
  nfsFilename : s'.nfsFilename = s.nfsFilename
  nfsOffset : s'.nfsOffset = s.nfsOffset
  mem : s'.mem = s.mem
  netState : s'.netState = s.netState

/-- A reply to an earlier call is ignored. -/
def Ignored (loadAddr : ℕ) (p : Packet) (s : Client) : Prop :=
  ∃ s', nfsHandler loadAddr p s = some s' ∧ SameTransfer s s'

/-- A reply to an earlier call, in any state but the last, moves the client on. -/
theorem stale_moves (loadAddr : ℕ) {p : Packet} {s : Client} (hlen : 4 ≤ p.len)
    (hid : replyId p.data ≠ s.rpcId) (hdest : p.dest = nfsOurPort)
    (hstate : s.nfsState ≠ .umount) :
    ∃ next, nfsHandler loadAddr p s = nfsSend next ∧ next.nfsState ≠ s.nfsState := by
  have hrpc : replyId (rpcPkt p) ≠ s.rpcId := by
    rw [replyId, load32_rpcPkt (by omega)]
    exact hid
  rw [nfsHandler, if_neg (not_not_intro hdest)]
  cases hs : s.nfsState with
  | umount => exact absurd hs hstate
  | prclookupProgMount => exact ⟨_, rfl, NfsState.noConfusion⟩
  | prclookupProgNfs => exact ⟨_, rfl, NfsState.noConfusion⟩
  | mount =>
    have hreply : nfsMountReply (rpcPkt p) s = none := if_pos hrpc
    exact ⟨{ s with nfsState := .umount }, by rw [mountReplied, hreply, Option.elim_none],
      NfsState.noConfusion⟩
  | lookup =>
    have hreply : nfsLookupReply (rpcPkt p) s = none := if_pos hrpc
    exact ⟨{ s with nfsState := .umount }, by rw [lookupReplied, hreply, Option.elim_none],
      NfsState.noConfusion⟩
  | readlink =>
    have hreply : nfsReadlinkReply (rpcPkt p) s = some none := if_pos hrpc
    refine ⟨{ s with nfsState := .umount }, ?_, NfsState.noConfusion⟩
    rw [readlinkReplied, hreply, Option.bind_eq_bind, Option.bind_some, Option.elim_none]
  | read =>
    have hreply : nfsReadReply loadAddr p s = (-1, s) := if_pos hid
    refine ⟨{ s with nfsState := .umount }, ?_, NfsState.noConfusion⟩
    rw [readReplied, hreply]
    dsimp only
    rw [if_neg (by decide), if_neg (by decide), if_neg (by decide)]

/-- A reply with another id than the last request is ignored only when it is for another port, or
when the transfer has failed. -/
theorem ignored_iff {loadAddr : ℕ} {p : Packet} {s : Client} (hlen : 4 ≤ p.len)
    (hid : replyId p.data ≠ s.rpcId) :
    Ignored loadAddr p s ↔
      p.dest ≠ nfsOurPort ∨ s.nfsState = .umount ∧ s.netState = .fail := by
  by_cases hdest : p.dest = nfsOurPort
  swap
  · refine iff_of_true ⟨s, if_pos hdest, ?_⟩ (Or.inl hdest)
    exact ⟨rfl, rfl, rfl, rfl, rfl, rfl, rfl, rfl⟩
  rw [or_iff_right (not_not_intro hdest)]
  by_cases hstate : s.nfsState = .umount
  · have hreply : nfsUmountallReply (rpcPkt p) s = none := by
      apply if_pos
      rw [replyId, load32_rpcPkt (by omega)]
      exact hid
    have hcase : nfsHandler loadAddr p s = umountReplied p s := by
      rw [nfsHandler, if_neg (not_not_intro hdest), hstate]
    have hhandler : nfsHandler loadAddr p s = some { s with netState := .fail } := by
      rw [hcase, umountReplied, hreply, Option.elim_none]
    constructor
    · rintro ⟨s', hs', hsame⟩
      rw [hhandler, Option.some_inj] at hs'
      subst hs'
      exact ⟨hstate, hsame.netState.symm⟩
    · rintro ⟨-, hfail⟩
      exact ⟨_, hhandler, rfl, rfl, rfl, rfl, rfl, rfl, rfl, hfail.symm⟩
  · refine iff_of_false ?_ (fun h ↦ hstate h.1)
    rintro ⟨s', hs', hsame⟩
    obtain ⟨next, hnext, hne⟩ := stale_moves loadAddr hlen hid hdest hstate
    rw [hnext] at hs'
    exact hne ((nfsSend_nfsState hs').symm.trans hsame.nfsState)

end UBoot.Net.NfsReplies
