import UBoot.Net.NfsReplies

namespace UBoot.Net.NfsTransfer

open Lib.CString Lib.Memory Nfs NfsReplies
open Tftp (NetState)

inductive Node
  | file (content : List UInt8)
  | link (target : List UInt8)
  | dir

/-- What a server exports. The sizes of version 2 of the protocol have 32 bits. -/
structure Server where
  mount : CStr → Option (List UInt8)
  lookup : List UInt8 → CStr → Option (List UInt8)
  node : List UInt8 → Option Node
  file_lt : ∀ fh content, node fh = some (.file content) → content.length < 4294967296

/-- What a reply without an error says. -/
def Result (srv : Server) (p : Packet) : Call → Prop
  | .getport _ => True
  | .umountall => True
  | .mount path => 28 + nfsFhsize ≤ p.len ∧ srv.mount path = some (bytes p.data 28 nfsFhsize)
  | .lookup dirfh fname =>
    28 + nfsFhsize ≤ p.len ∧ srv.lookup dirfh fname = some (bytes p.data 28 nfsFhsize)
  | .read filefh offset readlen => ∃ content, srv.node filefh = some (.file content) ∧
    ∃ n ≤ readlen, replyData p.data 18 = n ∧ offset + n ≤ content.length ∧
      bytes p.data 100 n = (content.drop offset).take n ∧ (n = 0 → content.length ≤ offset)
  | .readlink filefh => ∃ target, srv.node filefh = some (.link target) ∧
    replyData p.data 1 = target.length ∧ 32 + target.length ≤ p.len ∧
      bytes p.data 32 target.length = target ∧ target ≠ []

/-- An honest reply to a call: with the null verifier, and the error for a link or a directory only
when the file is none. -/
structure Answers (srv : Server) (p : Packet) (call : Call) : Prop where
  header : 12 ≤ p.len
  accepted : rstatus p.data = 0 → 24 ≤ p.len ∧ verifier p.data = 0
  status : rstatus p.data = 0 → astatus p.data = 0 → 28 ≤ p.len
  result : rstatus p.data = 0 → astatus p.data = 0 → replyData p.data 0 = 0 → Result srv p call
  error : ∀ filefh offset readlen, call = .read filefh offset readlen →
    rstatus p.data = 0 → astatus p.data = 0 → replyData p.data 0 < 2147483648 ∧
      (replyData p.data 0 = 21 ∨ replyData p.data 0 = 22 →
        ∀ content, srv.node filefh ≠ some (.file content))

/-- A reply to the call that was sent `age` calls before the last one. -/
structure ReplyTo (srv : Server) (s : Client) (p : Packet) (age : ℕ) (call : Call) : Prop where
  sent : s.requests[age]? = some call
  recent : age < 4294967296
  id : replyId p.data = (s.rpcId + 4294967296 - age) % 4294967296
  answers : Answers srv p call

/-- What can happen to the client: a reply to any call comes, in any order and any number of times, a
packet for another port, or the timeout. -/
inductive Step (srv : Server) (loadAddr : ℕ) (s : Client) : Client → Prop
  | reply {s' : Client} {p : Packet} {age : ℕ} {call : Call} : ReplyTo srv s p age call →
      nfsHandler loadAddr p s = some s' → Step srv loadAddr s s'
  | other {s' : Client} {p : Packet} : p.dest ≠ nfsOurPort →
      nfsHandler loadAddr p s = some s' → Step srv loadAddr s s'
  | timeout : Step srv loadAddr s (nfsTimeout s)

inductive Run (srv : Server) (loadAddr : ℕ) (s : Client) : Client → Prop
  | start : Run srv loadAddr s s
  | step {s' s'' : Client} : Run srv loadAddr s s' → Step srv loadAddr s' s'' →
      Run srv loadAddr s s''

/-- The file at the end of a path, behind the links on the way. -/
inductive Resolves (srv : Server) : List UInt8 → ℕ → List UInt8 → Prop
  | file {buff : List UInt8} {name : ℕ} {path fname dirfh filefh content : List UInt8} :
      load buff = some path → srv.mount path = some dirfh →
      load (buff.drop name) = some fname → srv.lookup dirfh fname = some filefh →
      srv.node filefh = some (.file content) → Resolves srv buff name content
  | link {buff buff' buff'' : List UInt8} {name name' : ℕ}
      {path fname dirfh filefh target content : List UInt8} :
      load buff = some path → srv.mount path = some dirfh →
      load (buff.drop name) = some fname → srv.lookup dirfh fname = some filefh →
      srv.node filefh = some (.link target) →
      readlinkPath buff target (first target) = some buff' → splitPath buff' = some (buff'', name') →
      Resolves srv buff'' name' content → Resolves srv buff name content

section Invariant

variable (srv : Server) (loadAddr : ℕ) (m₀ : Mem) (buff₀ : List UInt8) (name₀ : ℕ)

/-- The file is in memory, and nothing else has changed there. -/
def Stored (s : Client) : Prop :=
  ∃ content, Resolves srv buff₀ name₀ content ∧ s.mem = store m₀ loadAddr content ∧
    s.netBootFileXferSize = content.length

/-- Nothing is stored. -/
def Clean (s : Client) : Prop := s.mem = m₀ ∧ s.netBootFileXferSize = 0

/-- `dirfh` is the handle of the directory. -/
def Mounted (s : Client) : Prop :=
  ∃ path, load s.nfsPathBuff = some path ∧ srv.mount path = some s.dirfh

/-- `filefh` is the handle of the file. -/
def Found (s : Client) : Prop :=
  Mounted srv s ∧ ∃ fname, load (s.nfsPathBuff.drop s.nfsFilename) = some fname ∧
    srv.lookup s.dirfh fname = some s.filefh

/-- The first `nfs_offset` bytes of a file are in memory. -/
def Partial (s : Client) : Prop :=
  ∃ data, s.nfsOffset = data.length ∧ s.netBootFileXferSize = data.length ∧
    s.mem = store m₀ loadAddr data ∧
    (data = [] ∨ ∃ content, srv.node s.filefh = some (.file content) ∧ data <+: content)

def Progress (s : Client) : Prop :=
  match s.nfsState with
  | .prclookupProgMount | .prclookupProgNfs | .mount => Clean m₀ s
  | .lookup => Clean m₀ s ∧ Mounted srv s
  | .read => Partial srv loadAddr m₀ s ∧ Found srv s ∧ s.nfsLen = nfsReadSize
  | .readlink => Clean m₀ s ∧ Found srv s
  | .umount => s.nfsDownloadState = .success → Stored srv loadAddr m₀ buff₀ name₀ s

/-- The invariant but for the last request. -/
structure Ready (s : Client) : Prop where
  rpcId_lt : s.rpcId < 4294967296
  leads : ∀ content, Resolves srv s.nfsPathBuff s.nfsFilename content →
    Resolves srv buff₀ name₀ content
  progress : Progress srv loadAddr m₀ buff₀ name₀ s
  running : s.nfsState ≠ .umount → s.nfsDownloadState = .fail
  success : s.netState = .success → s.nfsState = .umount ∧ s.nfsDownloadState = .success

/-- What holds of the client at any time: the last request is the one its state asks for. -/
structure Inv (s : Client) : Prop extends Ready srv loadAddr m₀ buff₀ name₀ s where
  asked : s.nfsState ≠ .umount → ∃ call, s.requests[0]? = some call ∧ Asks s call

end Invariant

variable {srv : Server} {loadAddr : ℕ} {m₀ : Mem} {buff₀ : List UInt8} {name₀ : ℕ}
variable {s s' : Client} {p : Packet}

theorem Ready.send (h : Ready srv loadAddr m₀ buff₀ name₀ s) (hsend : nfsSend s = some s') :
    Inv srv loadAddr m₀ buff₀ name₀ s' := by
  obtain ⟨call, hasks, rfl⟩ | ⟨hstate, rfl⟩ := nfsSend_cases hsend
  · exact ⟨⟨Nat.mod_lt _ (by decide), h.leads, h.progress, h.running, h.success⟩,
      fun _ ↦ ⟨call, rfl, hasks⟩⟩
  · exact ⟨h, fun hne ↦ absurd hstate hne⟩

/-- A reply that the transfer goes on behind. -/
theorem Inv.ready {s₁ : Client} (h : Inv srv loadAddr m₀ buff₀ name₀ s) (hne : s.nfsState ≠ .umount)
    (hid : s₁.rpcId = s.rpcId) (hfail : s₁.nfsDownloadState = s.nfsDownloadState)
    (hnet : s₁.netState = s.netState)
    (hleads : ∀ content, Resolves srv s₁.nfsPathBuff s₁.nfsFilename content →
      Resolves srv buff₀ name₀ content)
    (hprogress : Progress srv loadAddr m₀ buff₀ name₀ s₁) :
    Ready srv loadAddr m₀ buff₀ name₀ s₁ := by
  refine ⟨?_, hleads, hprogress, fun _ ↦ hfail.trans (h.running hne), ?_⟩
  · rw [hid]
    exact h.rpcId_lt
  · intro hsuccess
    exact absurd (h.success (hnet.symm.trans hsuccess)).1 hne

theorem Inv.giveUp (h : Inv srv loadAddr m₀ buff₀ name₀ s) (hstate : s.nfsState ≠ .umount)
    (hsend : nfsSend { s with nfsState := .umount } = some s') :
    Inv srv loadAddr m₀ buff₀ name₀ s' := by
  have hfail := h.running hstate
  refine Ready.send ?_ hsend
  refine ⟨h.rpcId_lt, h.leads, ?_, fun hne ↦ absurd rfl hne, ?_⟩
  · intro hsuccess
    cases hfail.symm.trans hsuccess
  · intro hsuccess
    exact absurd (h.success hsuccess).1 hstate

theorem ReplyTo.answers_last {age : ℕ} {call : Call} (h : ReplyTo srv s p age call)
    (hinv : Inv srv loadAddr m₀ buff₀ name₀ s) (hstate : s.nfsState ≠ .umount)
    (hid : replyId p.data = s.rpcId) : ∃ call, Answers srv p call ∧ Asks s call := by
  obtain ⟨last, hlast, hasks⟩ := hinv.asked hstate
  have hlt := hinv.rpcId_lt
  have hrecent := h.recent
  have hage : age = 0 := by
    have := h.id
    omega
  subst hage
  have hcall : call = last := Option.some_inj.mp (h.sent.symm.trans hlast)
  exact ⟨call, h.answers, hcall ▸ hasks⟩

theorem Answers.result_rpcPkt {call : Call} (h : Answers srv p call)
    (hr : rstatus (rpcPkt p) = 0) (ha : astatus (rpcPkt p) = 0)
    (hd : replyData (rpcPkt p) 0 = 0) : Result srv p call := by
  have hheader := h.header
  rw [rstatus, load32_rpcPkt (by omega)] at hr
  have haccepted := (h.accepted hr).1
  rw [astatus, load32_rpcPkt (by omega)] at ha
  have hstatus := h.status hr ha
  rw [replyData, load32_rpcPkt (by omega)] at hd
  exact h.result hr ha hd

theorem replyId_rpcPkt {call : Call} (h : Answers srv p call) :
    replyId (rpcPkt p) = replyId p.data := by
  have hheader := h.header
  rw [replyId, load32_rpcPkt (by omega)]
  rfl

section Replies

variable {r : Mem}

theorem nfsMountReply_some (h : nfsMountReply r s = some s') :
    replyId r = s.rpcId ∧ (rstatus r = 0 ∧ astatus r = 0 ∧ replyData r 0 = 0) ∧
      s' = { s with fsMounted := true, dirfh := bytes r 28 nfsFhsize } := by
  rw [nfsMountReply] at h
  split_ifs at h with hid hok
  simp only [not_or, not_not] at hid hok
  exact ⟨hid, ⟨hok.1, hok.2.2.1, hok.2.2.2⟩, (Option.some_inj.mp h).symm⟩

theorem nfsLookupReply_some (h : nfsLookupReply r s = some s') :
    replyId r = s.rpcId ∧ (rstatus r = 0 ∧ astatus r = 0 ∧ replyData r 0 = 0) ∧
      s' = { s with filefh := bytes r 28 nfsFhsize } := by
  rw [nfsLookupReply] at h
  split_ifs at h with hid hok
  simp only [not_or, not_not] at hid hok
  exact ⟨hid, ⟨hok.1, hok.2.2.1, hok.2.2.2⟩, (Option.some_inj.mp h).symm⟩

theorem nfsReadlinkReply_some (h : nfsReadlinkReply r s = some (some s')) :
    replyId r = s.rpcId ∧ (rstatus r = 0 ∧ astatus r = 0 ∧ replyData r 0 = 0) ∧
      ∃ buff, readlinkPath s.nfsPathBuff (bytes r 32 (replyData r 1)) (r 32) = some buff ∧
        s' = { s with nfsPathBuff := buff } := by
  rw [nfsReadlinkReply] at h
  by_cases hid : replyId r = s.rpcId
  swap
  · rw [if_pos hid] at h
    cases h
  by_cases hok : rstatus r ≠ 0 ∨ verifier r ≠ 0 ∨ astatus r ≠ 0 ∨ replyData r 0 ≠ 0
  · rw [if_neg (not_not_intro hid), if_pos hok] at h
    cases h
  rw [if_neg (not_not_intro hid), if_neg hok] at h
  simp only [not_or, not_not] at hok
  obtain ⟨buff, hbuff, h⟩ := Option.bind_eq_some_iff.mp h
  refine ⟨hid, ⟨hok.1, hok.2.2.1, hok.2.2.2⟩, buff, hbuff, ?_⟩
  cases h
  rfl

end Replies

section Steps

variable {age : ℕ} {call : Call}

/-- A reply in the state of reading: an error, or the next bytes of the file. -/
theorem nfsReadReply_cases (h : ReplyTo srv s p age call)
    (hinv : Inv srv loadAddr m₀ buff₀ name₀ s) (hstate : s.nfsState = .read)
    (hlen : s.nfsLen = nfsReadSize) :
    (∃ rlen < 0, nfsReadReply loadAddr p s = (rlen, s) ∧
      (rlen = -nfserrIsdir ∨ rlen = -nfserrInval →
        ∀ content, srv.node s.filefh ≠ some (.file content))) ∨
    ∃ content n, srv.node s.filefh = some (.file content) ∧ s.nfsOffset + n ≤ content.length ∧
      (n = 0 → content.length ≤ s.nfsOffset) ∧ n ≤ nfsReadSize ∧
      nfsReadReply loadAddr p s =
        ((n : ℤ), storeBlock loadAddr ((content.drop s.nfsOffset).take n) s.nfsOffset s) := by
  have hne : s.nfsState ≠ .umount := by
    rw [hstate]
    exact NfsState.noConfusion
  by_cases hid : replyId p.data = s.rpcId
  swap
  · exact Or.inl ⟨-1, by decide, if_pos hid, fun h ↦ absurd h (by decide)⟩
  obtain ⟨call, hanswers, hasks⟩ := h.answers_last hinv hne hid
  simp only [Asks, hstate] at hasks
  have hread : nfsReadReply loadAddr p s = _ := if_neg (not_not_intro hid)
  by_cases hr : rstatus p.data ≠ 0 ∨ astatus p.data ≠ 0
  · have herror : rstatus p.data ≠ 0 ∨ verifier p.data ≠ 0 ∨ astatus p.data ≠ 0 ∨
        replyData p.data 0 ≠ 0 := hr.imp_right fun ha ↦ Or.inr (Or.inl ha)
    refine Or.inl ⟨-9999, by decide, ?_, fun h ↦ absurd h (by decide)⟩
    rw [hread, if_pos herror, if_pos hr]
  have hok : rstatus p.data = 0 ∧ astatus p.data = 0 := by
    rwa [not_or, not_not, not_not] at hr
  have hverifier := (hanswers.accepted hok.1).2
  by_cases hd : replyData p.data 0 = 0
  · obtain ⟨content, hnode, n, hn, hcount, hfits, hbytes, hlast⟩ :
        Result srv p (.read s.filefh s.nfsOffset s.nfsLen) :=
      hasks ▸ hanswers.result hok.1 hok.2 hd
    rw [hlen, nfsReadSize] at hn
    refine Or.inr ⟨content, n, hnode, hfits, hlast, hn, ?_⟩
    rw [hread, if_neg (by simp [hok, hverifier, hd]), hcount, hbytes,
      Int.bmod_eq_of_le (by omega) (by omega)]
  · obtain ⟨hlt, hkind⟩ := hanswers.error _ _ _ hasks hok.1 hok.2
    have hvalue : Int.bmod (-(replyData p.data 0 : ℤ)) 4294967296 = -(replyData p.data 0 : ℤ) :=
      Int.bmod_eq_of_le (by omega) (by omega)
    have herror : rstatus p.data ≠ 0 ∨ verifier p.data ≠ 0 ∨ astatus p.data ≠ 0 ∨
        replyData p.data 0 ≠ 0 := Or.inr (Or.inr (Or.inr hd))
    refine Or.inl ⟨_, ?_, by rw [hread, if_pos herror, if_neg hr], ?_⟩
    · rw [hvalue]
      omega
    · rw [hvalue, nfserrIsdir, nfserrInval]
      intro hdir
      exact hkind (by omega)

theorem Partial.storeBlock {content : List UInt8} {n : ℕ} (h : Partial srv loadAddr m₀ s)
    (hnode : srv.node s.filefh = some (.file content))
    (hfits : s.nfsOffset + n ≤ content.length) :
    (storeBlock loadAddr ((content.drop s.nfsOffset).take n) s.nfsOffset s).mem =
        store m₀ loadAddr (content.take (s.nfsOffset + n)) ∧
      (storeBlock loadAddr ((content.drop s.nfsOffset).take n) s.nfsOffset s).netBootFileXferSize =
        s.nfsOffset + n := by
  obtain ⟨data, hoffset, hsize, hmem, hdata⟩ := h
  have hprefix : data = content.take s.nfsOffset := by
    rcases hdata with rfl | ⟨content', hnode', hpre⟩
    · rw [hoffset]
      rfl
    · cases hnode.symm.trans hnode'
      rw [hoffset]
      exact List.prefix_iff_eq_take.mp hpre
  have hlen : ((content.drop s.nfsOffset).take n).length = n := by
    rw [List.length_take, List.length_drop]
    omega
  constructor
  · rw [Nfs.storeBlock]
    dsimp only
    rw [hmem, hoffset, store_store, ← hoffset, hprefix, ← List.take_add]
  · rw [Nfs.storeBlock]
    dsimp only
    rw [hlen, hsize, hoffset]
    split_ifs <;> omega

theorem rpcLookupReply_ports (prog : Prog) (r : Mem) (s : Client) : ∃ mountPort nfsPort,
    (rpcLookupReply prog r s).getD s =
      { s with nfsSrvMountPort := mountPort, nfsSrvNfsPort := nfsPort } := by
  unfold rpcLookupReply
  split_ifs
  · exact ⟨_, _, rfl⟩
  · exact ⟨_, _, rfl⟩
  · cases prog with
    | mount => exact ⟨_, _, rfl⟩
    | nfs => exact ⟨_, _, rfl⟩

variable (hinv : Inv srv loadAddr m₀ buff₀ name₀ s) (hreply : ReplyTo srv s p age call)
include hinv

/-- Whatever the reply is, the next port is asked for, and then the mount. -/
theorem inv_port {prog : Prog} {next : NfsState}
    (hstate : s.nfsState = .prclookupProgMount ∨ s.nfsState = .prclookupProgNfs)
    (hnext : next = .prclookupProgNfs ∨ next = .mount)
    (h : portReplied prog next p s = some s') : Inv srv loadAddr m₀ buff₀ name₀ s' := by
  obtain ⟨mountPort, nfsPort, hports⟩ := rpcLookupReply_ports prog (rpcPkt p) s
  rw [portReplied, hports] at h
  have hprogress := hinv.progress
  have hne : s.nfsState ≠ .umount := by
    rcases hstate with hstate | hstate <;> rw [hstate] <;> exact NfsState.noConfusion
  have hclean : Clean m₀ s := by
    rw [Progress] at hprogress
    rcases hstate with hstate | hstate <;> rwa [hstate] at hprogress
  refine Ready.send ?_ h
  refine hinv.ready hne rfl rfl rfl hinv.leads ?_
  rcases hnext with rfl | rfl
  · exact hclean
  · exact hclean

include hreply

theorem inv_mount (hstate : s.nfsState = .mount) (h : mountReplied p s = some s') :
    Inv srv loadAddr m₀ buff₀ name₀ s' := by
  have hne : s.nfsState ≠ .umount := by
    rw [hstate]
    exact NfsState.noConfusion
  rw [mountReplied] at h
  cases hmount : nfsMountReply (rpcPkt p) s with
  | none =>
    rw [hmount, Option.elim_none] at h
    exact hinv.giveUp hne h
  | some s₁ =>
  rw [hmount, Option.elim_some] at h
  obtain ⟨hid, ⟨hr, ha, hd⟩, rfl⟩ := nfsMountReply_some hmount
  rw [replyId_rpcPkt hreply.answers] at hid
  obtain ⟨call, hanswers, hasks⟩ := hreply.answers_last hinv hne hid
  simp only [Asks, hstate] at hasks
  obtain ⟨path, hpath, rfl⟩ := hasks
  obtain ⟨hlen, hdirfh⟩ := hanswers.result_rpcPkt hr ha hd
  have hclean : Clean m₀ s := by
    have hprogress := hinv.progress
    rwa [Progress, hstate] at hprogress
  refine Ready.send ?_ h
  refine hinv.ready hne rfl rfl rfl hinv.leads ⟨hclean, path, hpath, ?_⟩
  dsimp only
  rw [bytes_rpcPkt hlen]
  exact hdirfh

theorem inv_lookup (hstate : s.nfsState = .lookup) (h : lookupReplied p s = some s') :
    Inv srv loadAddr m₀ buff₀ name₀ s' := by
  have hne : s.nfsState ≠ .umount := by
    rw [hstate]
    exact NfsState.noConfusion
  rw [lookupReplied] at h
  cases hlookup : nfsLookupReply (rpcPkt p) s with
  | none =>
    rw [hlookup, Option.elim_none] at h
    exact hinv.giveUp hne h
  | some s₁ =>
  rw [hlookup, Option.elim_some] at h
  obtain ⟨hid, ⟨hr, ha, hd⟩, rfl⟩ := nfsLookupReply_some hlookup
  rw [replyId_rpcPkt hreply.answers] at hid
  obtain ⟨call, hanswers, hasks⟩ := hreply.answers_last hinv hne hid
  simp only [Asks, hstate] at hasks
  obtain ⟨fname, hfname, rfl⟩ := hasks
  obtain ⟨hlen, hfilefh⟩ := hanswers.result_rpcPkt hr ha hd
  have hprogress := hinv.progress
  rw [Progress, hstate] at hprogress
  obtain ⟨⟨hmem, hsize⟩, hmounted⟩ := hprogress
  refine Ready.send ?_ h
  refine hinv.ready hne rfl rfl rfl hinv.leads ⟨⟨[], rfl, hsize, ?_, Or.inl rfl⟩,
    ⟨hmounted, fname, hfname, ?_⟩, rfl⟩
  · dsimp only
    rw [hmem]
    funext k
    simp [Lib.Memory.store]
  · dsimp only
    rw [bytes_rpcPkt hlen]
    exact hfilefh

theorem inv_readlink (hstate : s.nfsState = .readlink) (h : readlinkReplied p s = some s') :
    Inv srv loadAddr m₀ buff₀ name₀ s' := by
  have hne : s.nfsState ≠ .umount := by
    rw [hstate]
    exact NfsState.noConfusion
  obtain ⟨reply, hlink, h⟩ := Option.bind_eq_some_iff.mp h
  cases reply with
  | none => exact hinv.giveUp hne h
  | some s₁ =>
  obtain ⟨⟨buff, name⟩, hsplit, h⟩ := Option.bind_eq_some_iff.mp h
  obtain ⟨hid, ⟨hr, ha, hd⟩, buff', hbuff', rfl⟩ := nfsReadlinkReply_some hlink
  rw [replyId_rpcPkt hreply.answers] at hid
  obtain ⟨call, hanswers, hasks⟩ := hreply.answers_last hinv hne hid
  simp only [Asks, hstate] at hasks
  subst hasks
  obtain ⟨target, hnode, hlen, hfits, hbytes, hnonempty⟩ := hanswers.result_rpcPkt hr ha hd
  have htarget : bytes (rpcPkt p) 32 (replyData (rpcPkt p) 1) = target := by
    rw [replyData, load32_rpcPkt (by omega), ← replyData, hlen, bytes_rpcPkt hfits, hbytes]
  have hfirst : rpcPkt p 32 = first target := by
    obtain ⟨c, rest, rfl⟩ := List.exists_cons_of_ne_nil hnonempty
    rw [replyData, load32_rpcPkt (by omega), ← replyData, hlen] at htarget
    exact apply_of_bytes htarget (i := 0) (by simp)
  rw [htarget, hfirst] at hbuff'
  have hprogress := hinv.progress
  rw [Progress, hstate] at hprogress
  obtain ⟨hclean, ⟨path, hpath, hdirfh⟩, fname, hfname, hfilefh⟩ := hprogress
  refine Ready.send ?_ h
  refine hinv.ready hne rfl rfl rfl ?_ hclean
  intro content hcontent
  exact hinv.leads content
    (.link hpath hdirfh hfname hfilefh hnode hbuff' hsplit hcontent)

/-- The next block is asked for, the link is read, or the transfer ends: with success only when the
whole file is there. -/
theorem inv_read (hstate : s.nfsState = .read) (h : readReplied loadAddr p s = some s') :
    Inv srv loadAddr m₀ buff₀ name₀ s' := by
  have hne : s.nfsState ≠ .umount := by
    rw [hstate]
    exact NfsState.noConfusion
  have hprogress := hinv.progress
  rw [Progress, hstate] at hprogress
  obtain ⟨hstored, hfound, hlen⟩ := hprogress
  rw [readReplied] at h
  obtain ⟨rlen, hneg, hread, hkind⟩ | ⟨content, n, hnode, hfits, hlast, hn, hread⟩ :=
    nfsReadReply_cases hreply hinv hstate hlen
  · rw [hread] at h
    dsimp only at h
    rw [if_neg (by omega)] at h
    split_ifs at h with hdir hzero
    · -- nothing is stored of what is no file
      have hclean : Clean m₀ s := by
        obtain ⟨data, -, hsize, hmem, rfl | ⟨content, hnode, -⟩⟩ := hstored
        · exact ⟨by rw [hmem]; funext k; simp [Lib.Memory.store], hsize⟩
        · exact absurd hnode (hkind hdir content)
      refine Ready.send ?_ h
      exact hinv.ready hne rfl rfl rfl hinv.leads ⟨hclean, hfound⟩
    · omega
    · exact hinv.giveUp hne h
  · obtain ⟨hmem, hsize⟩ := hstored.storeBlock hnode hfits
    rw [hread] at h
    dsimp only at h
    split_ifs at h with hpos hdir hzero
    · have hlt := srv.file_lt _ _ hnode
      have hoffset : (s.nfsOffset + (n : ℤ).toNat) % 4294967296 = s.nfsOffset + n := by omega
      refine Ready.send ?_ h
      refine hinv.ready hne rfl rfl rfl hinv.leads ?_
      rw [Progress, show (storeBlock loadAddr _ _ s).nfsState = .read from hstate]
      refine ⟨⟨content.take (s.nfsOffset + n), ?_, ?_, hmem, Or.inr ⟨content, hnode, ?_⟩⟩, hfound,
        hlen⟩
      · rw [List.length_take, Nat.min_eq_left hfits]
        exact hoffset
      · rw [List.length_take, Nat.min_eq_left hfits]
        exact hsize
      · exact List.take_prefix _ _
    · rw [nfserrIsdir, nfserrInval] at hdir
      omega
    · have hn0 : n = 0 := by omega
      subst hn0
      obtain ⟨⟨path, hpath, hdirfh⟩, fname, hfname, hfilefh⟩ := hfound
      have hwhole : content.take (s.nfsOffset + 0) = content :=
        List.take_of_length_le (hlast rfl)
      refine Ready.send ?_ h
      refine ⟨hinv.rpcId_lt, hinv.leads, fun _ ↦ ⟨content, ?_, ?_, ?_⟩,
        fun hne ↦ absurd rfl hne, fun _ ↦ ⟨rfl, rfl⟩⟩
      · exact hinv.leads content (.file hpath hdirfh hfname hfilefh hnode)
      · rw [hwhole] at hmem
        exact hmem
      · have := hlast rfl
        refine hsize.trans ?_
        omega
    · omega

omit hreply in
theorem inv_umount (hstate : s.nfsState = .umount) (h : umountReplied p s = some s') :
    Inv srv loadAddr m₀ buff₀ name₀ s' := by
  have hprogress := hinv.progress
  rw [Progress, hstate] at hprogress
  rw [umountReplied] at h
  cases hreply : nfsUmountallReply (rpcPkt p) s with
  | none =>
    rw [hreply, Option.elim_none, Option.some_inj] at h
    subst h
    refine ⟨⟨hinv.rpcId_lt, hinv.leads, ?_, fun hne ↦ absurd hstate hne,
      fun hsuccess ↦ by cases hsuccess⟩, fun hne ↦ absurd hstate hne⟩
    rw [Progress, hstate]
    exact hprogress
  | some s₁ =>
    rw [hreply, Option.elim_some, Option.some_inj] at h
    subst h
    rw [nfsUmountallReply] at hreply
    split_ifs at hreply
    cases hreply
    refine ⟨⟨hinv.rpcId_lt, hinv.leads, ?_, fun hne ↦ absurd hstate hne,
      fun hsuccess ↦ ⟨hstate, hsuccess⟩⟩, fun hne ↦ absurd hstate hne⟩
    rw [Progress, hstate]
    exact hprogress

theorem inv_reply (h : nfsHandler loadAddr p s = some s') : Inv srv loadAddr m₀ buff₀ name₀ s' := by
  by_cases hdest : p.dest = nfsOurPort
  swap
  · rw [nfsHandler, if_pos hdest, Option.some_inj] at h
    exact h ▸ hinv
  rw [nfsHandler, if_neg (not_not_intro hdest)] at h
  cases hstate : s.nfsState with
  | prclookupProgMount =>
    rw [hstate] at h
    exact inv_port hinv (Or.inl hstate) (Or.inl rfl) h
  | prclookupProgNfs =>
    rw [hstate] at h
    exact inv_port hinv (Or.inr hstate) (Or.inr rfl) h
  | mount =>
    rw [hstate] at h
    exact inv_mount hinv hreply hstate h
  | umount =>
    rw [hstate] at h
    exact inv_umount hinv hstate h
  | lookup =>
    rw [hstate] at h
    exact inv_lookup hinv hreply hstate h
  | read =>
    rw [hstate] at h
    exact inv_read hinv hreply hstate h
  | readlink =>
    rw [hstate] at h
    exact inv_readlink hinv hreply hstate h

end Steps

theorem Inv.step (hinv : Inv srv loadAddr m₀ buff₀ name₀ s) (h : Step srv loadAddr s s') :
    Inv srv loadAddr m₀ buff₀ name₀ s' := by
  cases h with
  | reply hreply h => exact inv_reply hinv hreply h
  | other hdest h =>
    rw [nfsHandler, if_pos hdest, Option.some_inj] at h
    exact h ▸ hinv
  | timeout =>
    exact ⟨⟨hinv.rpcId_lt, hinv.leads, hinv.progress, hinv.running,
      fun hsuccess ↦ by cases hsuccess⟩, hinv.asked⟩

theorem Inv.run (hinv : Inv srv loadAddr m₀ buff₀ name₀ s) (h : Run srv loadAddr s s') :
    Inv srv loadAddr m₀ buff₀ name₀ s' := by
  induction h with
  | start => exact hinv
  | step _ hstep ih => exact ih.step hstep

theorem nfsStart_inv {bootFile : CStr} {netOurIP : ℕ}
    (h : nfsStart bootFile netOurIP s = some s') :
    Inv srv loadAddr s.mem s'.nfsPathBuff s'.nfsFilename s' := by
  obtain ⟨⟨buff, _⟩, -, h⟩ := Option.bind_eq_some_iff.mp h
  obtain ⟨⟨buff, name⟩, -, h⟩ := Option.bind_eq_some_iff.mp h
  obtain ⟨call, hasks, rfl⟩ | ⟨hstate, -⟩ := nfsSend_cases h
  · exact ⟨⟨Nat.mod_lt _ (by decide), fun _ hcontent ↦ hcontent, ⟨rfl, rfl⟩, fun _ ↦ rfl,
      fun hsuccess ↦ by cases hsuccess⟩, fun _ ↦ ⟨call, rfl, hasks⟩⟩
  · cases hstate

/-- A reply to an earlier call is never ignored while the transfer goes on. But it cannot make a
transfer succeed with anything else than the file. -/
theorem replies_matched (srv : Server) (loadAddr : ℕ) (bootFile : CStr) (netOurIP : ℕ)
    {s s₀ s' c : Client} {p : Packet} (hstart : nfsStart bootFile netOurIP s = some s₀)
    (hrun : Run srv loadAddr s₀ s') (hlen : 4 ≤ p.len) (hid : replyId p.data ≠ c.rpcId) :
    (Ignored loadAddr p c ↔
      p.dest ≠ nfsOurPort ∨ c.nfsState = .umount ∧ c.netState = .fail) ∧
    (s'.netState = .success → Stored srv loadAddr s.mem s₀.nfsPathBuff s₀.nfsFilename s') := by
  refine ⟨ignored_iff hlen hid, fun hsuccess ↦ ?_⟩
  have hinv : Inv srv loadAddr s.mem s₀.nfsPathBuff s₀.nfsFilename s' := (nfsStart_inv hstart).run hrun
  obtain ⟨hstate, hdownload⟩ := hinv.success hsuccess
  have hprogress := hinv.progress
  rw [Progress, hstate] at hprogress
  exact hprogress hdownload

section Example

/-- A client before its first transfer. -/
def idle : Client where
  nfsState := .prclookupProgMount
  rpcId := 0
  fsMounted := false
  nfsOffset := 0
  nfsLen := 0
  dirfh := List.replicate nfsFhsize 0
  filefh := List.replicate nfsFhsize 0
  nfsSrvMountPort := 0
  nfsSrvNfsPort := 0
  nfsDownloadState := .fail
  netState := .cont
  nfsPathBuff := List.replicate 2048 0
  nfsFilename := 0
  mem := fun _ ↦ 0xff
  netBootFileXferSize := 0
  requests := []

/-- A server with one file, of one byte. -/
def oneFile : Server where
  mount _ := some (List.replicate nfsFhsize 7)
  lookup _ _ := some (List.replicate nfsFhsize 8)
  node _ := some (.file [0x41])
  file_lt := by
    intro _ content h
    cases h
    decide

/-- An accepted reply with these results. -/
def replyPacket (id : ℕ) (results : List UInt8) : Packet where
  dest := nfsOurPort
  len := 24 + results.length
  data := fun k ↦ (be32 id ++ be32 1 ++ List.replicate 16 0 ++ results).getD k 0
  stack := fun _ ↦ 0xff

def started : Client := (nfsStart (ascii "/a/b") 0 idle).getD idle

/-- The client after a reply to its last request. -/
def answered (s : Client) (results : List UInt8) : Client :=
  (nfsHandler 0x80060000 (replyPacket s.rpcId results) s).getD s

def portResult : List UInt8 := be32 635

def handleResult (c : UInt8) : List UInt8 := be32 0 ++ List.replicate nfsFhsize c

def dataResult (data : List UInt8) : List UInt8 :=
  be32 0 ++ List.replicate 68 0 ++ be32 data.length ++ data

def atMount : Client := answered (answered started portResult) portResult

def atLookup : Client := answered atMount (handleResult 7)

def atRead : Client := answered atLookup (handleResult 8)

def atEnd : Client := answered (answered atRead (dataResult [0x41])) (dataResult [])

/-- The reply to the mount comes once more: the client gives up. -/
theorem duplicate_not_ignored :
    atLookup.nfsState = .lookup ∧ (replyPacket atMount.rpcId (handleResult 7)).dest = nfsOurPort ∧
      replyId (replyPacket atMount.rpcId (handleResult 7)).data ≠ atLookup.rpcId ∧
      ¬ Ignored 0x80060000 (replyPacket atMount.rpcId (handleResult 7)) atLookup := by
  refine ⟨by decide +kernel, rfl, by decide +kernel, ?_⟩
  rintro ⟨s', hs', hsame⟩
  have hstate : (nfsHandler 0x80060000 (replyPacket atMount.rpcId (handleResult 7)) atLookup).map
      Client.nfsState = some .umount := by
    decide +kernel
  rw [hs', Option.map_some, Option.some_inj, hsame.nfsState] at hstate
  exact absurd hstate (by decide +kernel)

theorem eq_some_getD {α : Type} {o : Option α} (d : α) (h : o.isSome = true) :
    o = some (o.getD d) := by
  cases o with
  | none => cases h
  | some a => rfl

theorem answers_replyPacket {id : ℕ} {results : List UInt8} {call : Call}
    (hlen : 4 ≤ results.length) (hresult : Result oneFile (replyPacket id results) call)
    (hread : ∀ filefh offset readlen, call = .read filefh offset readlen →
      replyData (replyPacket id results).data 0 = 0) :
    Answers oneFile (replyPacket id results) call := by
  have hlength : (replyPacket id results).len = 24 + results.length := rfl
  have hverifier : verifier (replyPacket id results).data = 0 := by
    simp [verifier, load32, load16, replyPacket, be32, be16, List.replicate]
  refine ⟨by omega, fun _ ↦ ⟨by omega, hverifier⟩, fun _ _ ↦ by omega, fun _ _ _ ↦ hresult, ?_⟩
  intro filefh offset readlen hcall _ _
  rw [hread filefh offset readlen hcall]
  exact ⟨by decide, fun h ↦ absurd h (by decide)⟩

theorem step_answered {s : Client} {results : List UInt8} (call : Call)
    (hid : replyId (replyPacket s.rpcId results).data = (s.rpcId + 4294967296 - 0) % 4294967296)
    (hsent : s.requests[0]? = some call)
    (hsome : (nfsHandler 0x80060000 (replyPacket s.rpcId results) s).isSome = true)
    (hanswers : Answers oneFile (replyPacket s.rpcId results) call) :
    Step oneFile 0x80060000 s (answered s results) :=
  .reply ⟨hsent, by decide, hid, hanswers⟩ (eq_some_getD s hsome)

theorem run_oneFile : Run oneFile 0x80060000 started (answered atEnd portResult) := by
  have hport (s : Client) (prog : Prog) :
      Answers oneFile (replyPacket s.rpcId portResult) (.getport prog) :=
    answers_replyPacket (by decide) trivial fun _ _ _ h ↦ by cases h
  have hfirst : Step oneFile 0x80060000 started (answered started portResult) :=
    step_answered _ (by decide +kernel) (by decide +kernel) (by decide +kernel) (hport _ .mount)
  have hsecond : Step oneFile 0x80060000 (answered started portResult) atMount :=
    step_answered _ (by decide +kernel) (by decide +kernel) (by decide +kernel) (hport _ .nfs)
  have hmount : Step oneFile 0x80060000 atMount atLookup :=
    step_answered (.mount (ascii "/a")) (by decide +kernel) (by decide +kernel)
      (by decide +kernel) (answers_replyPacket (by decide) ⟨by decide, by decide +kernel⟩
        fun _ _ _ h ↦ by cases h)
  have hlookup : Step oneFile 0x80060000 atLookup atRead :=
    step_answered (.lookup (List.replicate nfsFhsize 7) (ascii "b"))
      (by decide +kernel) (by decide +kernel) (by decide +kernel)
      (answers_replyPacket (by decide) ⟨by decide, by decide +kernel⟩ fun _ _ _ h ↦ by cases h)
  have hread : Step oneFile 0x80060000 atRead (answered atRead (dataResult [0x41])) :=
    step_answered (.read (List.replicate nfsFhsize 8) 0 1024)
      (by decide +kernel) (by decide +kernel) (by decide +kernel)
      (answers_replyPacket (by decide) ⟨[0x41], rfl, 1, by decide, by decide +kernel, by decide,
        by decide +kernel, by decide⟩ fun _ _ _ _ ↦ by decide +kernel)
  have hend : Step oneFile 0x80060000 (answered atRead (dataResult [0x41])) atEnd :=
    step_answered (.read (List.replicate nfsFhsize 8) 1 1024)
      (by decide +kernel) (by decide +kernel) (by decide +kernel)
      (answers_replyPacket (by decide) ⟨[0x41], rfl, 0, by decide, by decide +kernel, by decide,
        by decide +kernel, by decide⟩ fun _ _ _ _ ↦ by decide +kernel)
  have humount : Step oneFile 0x80060000 atEnd (answered atEnd portResult) :=
    step_answered .umountall (by decide +kernel) (by decide +kernel)
      (by decide +kernel) (answers_replyPacket (by decide) trivial fun _ _ _ h ↦ by cases h)
  exact .step (.step (.step (.step (.step (.step (.step .start hfirst) hsecond) hmount) hlookup)
    hread) hend) humount

theorem replies_matched_oneFile :
    Run oneFile 0x80060000 started (answered atEnd portResult) ∧
      (answered atEnd portResult).netState = .success ∧
      Stored oneFile 0x80060000 idle.mem started.nfsPathBuff started.nfsFilename
        (answered atEnd portResult) ∧
      ¬ Ignored 0x80060000 (replyPacket atMount.rpcId (handleResult 7)) atLookup := by
  have hsuccess : (answered atEnd portResult).netState = .success := by decide +kernel
  have hstart : nfsStart (ascii "/a/b") 0 idle = some started :=
    eq_some_getD idle (by decide +kernel)
  obtain ⟨hignored, hstored⟩ := replies_matched oneFile 0x80060000 (ascii "/a/b") 0 hstart run_oneFile
    (show 4 ≤ (replyPacket atMount.rpcId (handleResult 7)).len by decide)
    (show replyId (replyPacket atMount.rpcId (handleResult 7)).data ≠ atLookup.rpcId by
      decide +kernel)
  refine ⟨run_oneFile, hsuccess, hstored hsuccess, ?_⟩
  rw [hignored]
  decide +kernel

end Example

end UBoot.Net.NfsTransfer
