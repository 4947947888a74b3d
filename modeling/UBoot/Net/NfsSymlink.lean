import UBoot.Net.NfsPath
import UBoot.Net.NfsReplies

namespace UBoot.Net.NfsSymlink

open Lib.CString Lib.Memory Nfs NfsReplies NfsPath
open Tftp (NetState)

/-- Where a link in a directory leads. -/
def resolve (dir target : CStr) : CStr :=
  if first target = slash then target else dir ++ slash :: target

/-- `nfs_path` and `nfs_filename`, which the requests to mount and to look up send, are the two parts
of a path. -/
structure Names (s : Client) (path : CStr) : Prop where
  slash_mem : slash ∈ path
  dir : load s.nfsPathBuff = some (dirOf path)
  file : load (s.nfsPathBuff.drop s.nfsFilename) = some (fileOf path)

/-- A reply without an error to the last request. -/
def Accepted (p : Packet) (s : Client) : Prop :=
  p.dest = nfsOurPort ∧ s.nfsState = .readlink ∧ replyId (rpcPkt p) = s.rpcId ∧
    rstatus (rpcPkt p) = 0 ∧ verifier (rpcPkt p) = 0 ∧ astatus (rpcPkt p) = 0 ∧
      replyData (rpcPkt p) 0 = 0

instance (p : Packet) (s : Client) : Decidable (Accepted p s) := by
  unfold Accepted
  infer_instance

/-- The target in a reply to a READLINK request. -/
def target (p : Packet) : CStr := bytes (rpcPkt p) 32 (replyData (rpcPkt p) 1)

/-- The path behind a packet. -/
def followed (path : CStr) (p : Packet) (s : Client) : CStr :=
  if Accepted p s then resolve (dirOf path) (target p) else path

/-- The target is a text that fits into the path buffer. -/
structure Fits (path : CStr) (p : Packet) (_ : Client) : Prop where
  nulFree : NulFree (target p)
  room : (resolve (dirOf path) (target p)).length < 2048

/-- An absolute target is not empty. Behind a relative one there is room for one byte more than its
NUL, and the byte that is left there from earlier paths is 0. -/
def Clear (path : CStr) (p : Packet) (s : Client) : Prop :=
  if rpcPkt p 32 = slash then target p ≠ []
  else (dirOf path).length + (target p).length + 2 < 2048 ∧
    (target p = [] ∨ s.nfsPathBuff[(dirOf path).length + 1 + (target p).length]? = some 0)

/-- After each packet the names that are requested next are those of the path. -/
def Follows (loadAddr : ℕ) : Client → CStr → List Packet → Prop
  | _, _, [] => True
  | s, path, p :: ps => ∃ s', nfsHandler loadAddr p s = some s' ∧ Names s' (followed path p s) ∧
      Follows loadAddr s' (followed path p s) ps

/-- Each link that is followed has a property. -/
def EachLink (loadAddr : ℕ) (P : CStr → Packet → Client → Prop) :
    Client → CStr → List Packet → Prop
  | _, _, [] => True
  | s, path, p :: ps => (Accepted p s → P path p s) ∧ ∀ s', nfsHandler loadAddr p s = some s' →
      EachLink loadAddr P s' (followed path p s) ps

section Buffer

variable {dir t rest : List UInt8}

/-- The path behind an absolute link. -/
theorem readlinkPath_absolute {buff : List UInt8} (hroom : t.length < buff.length) :
    readlinkPath buff t slash = some (t ++ 0 :: buff.drop (t.length + 1)) := by
  obtain ⟨x, hx⟩ : ∃ x, buff.drop t.length = x :: buff.drop (t.length + 1) :=
    ⟨_, List.drop_eq_getElem_cons hroom⟩
  have hwrite : write buff 0 t = some (t ++ buff.drop t.length) := by
    rw [write, if_pos (by omega), List.take_zero, List.nil_append, Nat.zero_add]
  have hslash : ¬ slash ≠ 0x2f := by decide
  rw [readlinkPath, if_neg hslash, hwrite, Option.bind_eq_bind, Option.bind_some, hx, poke_append]

theorem readlinkPath_split {c o x y : UInt8} {old front : List UInt8} (hc : c ≠ slash)
    (hfree : NulFree dir) (hold : 0 :: old = front ++ x :: y :: rest)
    (hlen : front.length = t.length) :
    readlinkPath (dir ++ 0 :: o :: old) t c = some ((dir ++ slash :: t) ++ x :: 0 :: rest) := by
  have hstore : store (dir ++ 0 :: o :: old) dir.length (ascii "/") =
      some ((dir ++ [slash]) ++ (front ++ x :: y :: rest), (dir ++ [slash]).length) := by
    have h := store_append dir (0 :: o :: old) (ascii "/")
      (Nat.succ_lt_succ (Nat.zero_lt_succ _))
    rw [← hold, List.length_append]
    exact h
  have hsplit : (dir ++ [slash]) ++ (front ++ x :: y :: rest) =
      ((dir ++ [slash]) ++ front) ++ x :: y :: rest := by simp
  have hfront : ((dir ++ [slash]) ++ front).length = (dir ++ [slash]).length + t.length := by
    rw [List.length_append, hlen]
  have hwrite : write ((dir ++ [slash]) ++ (front ++ x :: y :: rest)) (dir ++ [slash]).length t =
      some (((dir ++ [slash]) ++ t) ++ x :: y :: rest) := by
    have hroom : (dir ++ [slash]).length + t.length ≤
        ((dir ++ [slash]) ++ (front ++ x :: y :: rest)).length := by
      simp only [List.length_append, hlen]
      omega
    rw [write, if_pos hroom, List.take_left' rfl, hsplit, List.drop_left' hfront]
  have hend : ((dir ++ [slash]) ++ t) ++ x :: y :: rest =
      (((dir ++ [slash]) ++ t) ++ [x]) ++ y :: rest := by simp
  have hat : (dir ++ [slash]).length + t.length + 1 = (((dir ++ [slash]) ++ t) ++ [x]).length := by
    simp only [List.length_append, List.length_singleton]
  have hslash : c ≠ 0x2f := hc
  rw [readlinkPath, if_pos hslash, load_append _ _ hfree, Option.bind_eq_bind, Option.bind_some,
    hstore]
  dsimp only [Option.bind_eq_bind, Option.bind_some]
  rw [hwrite, Option.bind_some, hend, hat, poke_append]
  simp

/-- Behind a relative link: `x` is left from earlier paths. -/
theorem readlinkPath_relative {c : UInt8} (o : UInt8) {old : List UInt8} (hc : c ≠ slash)
    (hfree : NulFree dir) (hroom : t.length < old.length) :
    ∃ x, (0 :: old)[t.length]? = some x ∧ readlinkPath (dir ++ 0 :: o :: old) t c =
      some ((dir ++ slash :: t) ++ x :: 0 :: (0 :: old).drop (t.length + 2)) := by
  have hlt : t.length + 1 < (0 :: old).length := Nat.succ_lt_succ hroom
  have hold : 0 :: old = (0 :: old).take t.length ++ (0 :: old)[t.length] ::
      (0 :: old)[t.length + 1] :: (0 :: old).drop (t.length + 2) := by
    rw [← List.drop_eq_getElem_cons, ← List.drop_eq_getElem_cons, List.take_append_drop]
  have hfront : ((0 :: old).take t.length).length = t.length := by
    rw [List.length_take]
    omega
  exact ⟨_, List.getElem?_eq_getElem (Nat.lt_of_succ_lt hlt),
    readlinkPath_split hc hfree hold hfront⟩

theorem readlinkPath_full {c o : UInt8} {old : List UInt8} (hc : c ≠ slash) (hfree : NulFree dir)
    (hfull : old.length < t.length + 1) : readlinkPath (dir ++ 0 :: o :: old) t c = none := by
  have hstore : store (dir ++ 0 :: o :: old) dir.length (ascii "/") =
      some ((dir ++ [slash]) ++ 0 :: old, (dir ++ [slash]).length) := by
    have h := store_append dir (0 :: o :: old) (ascii "/")
      (Nat.succ_lt_succ (Nat.zero_lt_succ _))
    rw [List.length_append]
    exact h
  have hslash : c ≠ 0x2f := hc
  rw [readlinkPath, if_pos hslash, load_append _ _ hfree, Option.bind_eq_bind, Option.bind_some,
    hstore]
  dsimp only [Option.bind_eq_bind, Option.bind_some]
  rw [write]
  split_ifs with hroom
  · rw [Option.bind_some, poke, if_neg]
    simp only [List.length_append, List.length_take, List.length_drop, List.length_cons,
      List.length_nil] at hroom ⊢
    omega
  · rfl

end Buffer

section Step

variable (loadAddr : ℕ) {s s' : Client} {p : Packet} {path q : CStr}

theorem Names.unique (h : Names s path) (h' : Names s q) : path = q := by
  have hdir := Option.some.inj (h.dir.symm.trans h'.dir)
  have hfile := Option.some.inj (h.file.symm.trans h'.file)
  rw [← dirOf_append_fileOf h.slash_mem, ← dirOf_append_fileOf h'.slash_mem, hdir, hfile]

/-- `nfs_path` and `nfs_filename` are kept. -/
def SameNames (s s' : Client) : Prop :=
  s'.nfsPathBuff = s.nfsPathBuff ∧ s'.nfsFilename = s.nfsFilename

theorem SameNames.names (h : SameNames s s') (hnames : Names s path) : Names s' path := by
  refine ⟨hnames.slash_mem, ?_, ?_⟩
  · rw [h.1, hnames.dir]
  · rw [h.1, h.2, hnames.file]

theorem SameNames.trans {s₁ : Client} (h : SameNames s s₁) (h' : SameNames s₁ s') :
    SameNames s s' :=
  ⟨h'.1.trans h.1, h'.2.trans h.2⟩

theorem SameNames.setState {s₁ : Client} (h : SameNames s s₁) (next : NfsState) :
    SameNames s { s₁ with nfsState := next } :=
  h

/-- The request of the state is sent, except that an umount may send none. -/
theorem nfsSend_spec (h : Names s path) : ∃ s', nfsSend s = some s' ∧ SameNames s s' ∧
    (s.nfsState ≠ .umount → s'.nfsState = s.nfsState ∧ s'.rpcId = (s.rpcId + 1) % 4294967296) := by
  have hsent (call : Call) : SameNames s (rpcReq call s) ∧ (s.nfsState ≠ .umount →
      (rpcReq call s).nfsState = s.nfsState ∧ (rpcReq call s).rpcId = (s.rpcId + 1) % 4294967296) :=
    ⟨⟨rfl, rfl⟩, fun _ ↦ ⟨rfl, rfl⟩⟩
  rw [nfsSend]
  cases hstate : s.nfsState with
  | umount =>
    dsimp only
    split_ifs
    · exact ⟨_, rfl, ⟨rfl, rfl⟩, fun hne ↦ absurd rfl hne⟩
    · exact ⟨_, rfl, ⟨rfl, rfl⟩, fun hne ↦ absurd rfl hne⟩
  | mount =>
    rw [hstate] at hsent
    dsimp only
    rw [h.dir]
    exact ⟨_, rfl, hsent _⟩
  | lookup =>
    rw [hstate] at hsent
    dsimp only
    rw [h.file]
    exact ⟨_, rfl, hsent _⟩
  | prclookupProgMount | prclookupProgNfs | read | readlink =>
    rw [hstate] at hsent
    exact ⟨_, rfl, hsent _⟩

/-- A state with the names of `s` sends its request. -/
theorem sends (hnames : Names s path) {s₁ : Client} (hsame : SameNames s s₁) :
    ∃ s', nfsSend s₁ = some s' ∧ SameNames s s' := by
  obtain ⟨s', hsend, hsame', -⟩ := nfsSend_spec (hsame.names hnames)
  exact ⟨s', hsend, hsame.trans hsame'⟩

theorem rpcLookupReply_same (prog : Prog) (p : Packet) (s : Client) :
    SameNames s ((rpcLookupReply prog (rpcPkt p) s).getD s) ∧
      ((rpcLookupReply prog (rpcPkt p) s).getD s).rpcId = s.rpcId := by
  rw [rpcLookupReply.eq_def]
  split_ifs
  · exact ⟨⟨rfl, rfl⟩, rfl⟩
  · exact ⟨⟨rfl, rfl⟩, rfl⟩
  · cases prog <;> exact ⟨⟨rfl, rfl⟩, rfl⟩

theorem sends_elim (hnames : Names s path) {reply : Option Client} {next : Client → Client}
    (hreply : ∀ s₁ ∈ reply, SameNames s (next s₁)) :
    ∃ s', reply.elim (nfsSend { s with nfsState := .umount }) (fun s ↦ nfsSend (next s)) = some s' ∧
      SameNames s s' := by
  cases reply with
  | none =>
    rw [Option.elim_none]
    refine sends hnames ?_
    exact ⟨rfl, rfl⟩
  | some s₁ => exact sends hnames (hreply s₁ rfl)

theorem portReplied_sends (hnames : Names s path) (prog : Prog) (next : NfsState) (p : Packet) :
    ∃ s', portReplied prog next p s = some s' ∧ SameNames s s' := by
  have hsame := (rpcLookupReply_same prog p s).1
  exact sends hnames (hsame.setState next)

theorem mountReplied_sends (hnames : Names s path) (p : Packet) :
    ∃ s', mountReplied p s = some s' ∧ SameNames s s' := by
  rw [mountReplied]
  refine sends_elim hnames fun s₁ hreply ↦ ?_
  rw [nfsMountReply] at hreply
  split_ifs at hreply
  · cases hreply
  · cases hreply
  · cases hreply
    exact ⟨rfl, rfl⟩

theorem umountReplied_same (p : Packet) (s : Client) :
    ∃ s', umountReplied p s = some s' ∧ SameNames s s' := by
  rw [umountReplied, nfsUmountallReply]
  split_ifs <;> exact ⟨_, rfl, rfl, rfl⟩

theorem lookupReplied_sends (hnames : Names s path) (p : Packet) :
    ∃ s', lookupReplied p s = some s' ∧ SameNames s s' := by
  rw [lookupReplied]
  refine sends_elim hnames fun s₁ hreply ↦ ?_
  rw [nfsLookupReply] at hreply
  split_ifs at hreply
  · cases hreply
  · cases hreply
  · cases hreply
    exact ⟨rfl, rfl⟩

theorem readReplied_sends (hnames : Names s path) (p : Packet) :
    ∃ s', readReplied loadAddr p s = some s' ∧ SameNames s s' := by
  have hsame : SameNames s (nfsReadReply loadAddr p s).2 := by
    rw [nfsReadReply]
    split_ifs <;> exact ⟨rfl, rfl⟩
  rw [readReplied]
  cases hread : nfsReadReply loadAddr p s
  rw [hread] at hsame
  split_ifs <;>
  · refine sends hnames ?_
    exact hsame

/-- Without a path behind the link the directory is unmounted. -/
theorem readlinkReplied_sends (hnames : Names s path)
    (hreply : nfsReadlinkReply (rpcPkt p) s = some none) :
    ∃ s', readlinkReplied p s = some s' ∧ SameNames s s' := by
  rw [readlinkReplied, hreply, Option.bind_eq_bind, Option.bind_some, Option.elim_none]
  refine sends hnames ?_
  exact ⟨rfl, rfl⟩

/-- Any other packet leaves the names. -/
theorem nfsHandler_other (hnames : Names s path) (hother : ¬ Accepted p s) :
    ∃ s', nfsHandler loadAddr p s = some s' ∧ SameNames s s' := by
  rw [nfsHandler]
  split_ifs with hdest
  · exact ⟨s, rfl, rfl, rfl⟩
  cases hstate : s.nfsState with
  | prclookupProgMount => exact portReplied_sends hnames .mount .prclookupProgNfs p
  | prclookupProgNfs => exact portReplied_sends hnames .nfs .mount p
  | mount => exact mountReplied_sends hnames p
  | umount => exact umountReplied_same p s
  | lookup => exact lookupReplied_sends hnames p
  | read => exact readReplied_sends loadAddr hnames p
  | readlink =>
    refine readlinkReplied_sends hnames ?_
    rw [nfsReadlinkReply]
    split_ifs with hid herror
    · rfl
    · rfl
    · refine absurd ?_ hother
      push Not at hdest hid herror
      exact ⟨hdest, hstate, hid, herror⟩

/-- What `NfsHandler` does with the path behind a link. -/
def mountPath (s : Client) (buff : List UInt8) : Option Client := do
  let (buff, fname) ← splitPath buff
  nfsSend { s with nfsState := .mount, nfsPathBuff := buff, nfsFilename := fname }

theorem nfsHandler_accepted (h : Accepted p s) : nfsHandler loadAddr p s =
    (readlinkPath s.nfsPathBuff (target p) (rpcPkt p 32)).bind (mountPath s) := by
  obtain ⟨hdest, hstate, hid, hrstatus, hverifier, hastatus, hdata⟩ := h
  rw [nfsHandler, if_neg (not_not.mpr hdest), hstate]
  dsimp only
  rw [readlinkReplied, nfsReadlinkReply, if_neg (not_not.mpr hid), if_neg (by simp [*]), target]
  cases readlinkPath s.nfsPathBuff (bytes (rpcPkt p) 32 (replyData (rpcPkt p) 1)) (rpcPkt p 32) <;>
    rfl

/-- What is split and sent next are the names of the path in the buffer. -/
theorem split_names (rest : List UInt8) (hfree : NulFree q) (hslash : slash ∈ q)
    (next : List UInt8 → ℕ → Client) (hbuff : ∀ b f, (next b f).nfsPathBuff = b)
    (hname : ∀ b f, (next b f).nfsFilename = f) :
    ∃ s', ((splitPath (q ++ 0 :: rest)).bind fun r ↦ nfsSend (next r.1 r.2)) = some s' ∧
      Names s' q ∧ s'.nfsPathBuff.length = (q ++ 0 :: rest).length := by
  obtain ⟨a, b, rfl, hb⟩ := exists_split hslash
  have hfreeA : NulFree a := fun c hc ↦ hfree c (List.mem_append_left _ hc)
  have hfreeB : NulFree b := fun c hc ↦
    hfree c (List.mem_append_right _ (List.mem_cons_of_mem _ hc))
  have hcons : a ++ 0 :: (b ++ 0 :: rest) = (a ++ [0]) ++ (b ++ 0 :: rest) := by simp
  have hnames : Names (next (a ++ 0 :: (b ++ 0 :: rest)) (a.length + 1)) (a ++ slash :: b) := by
    refine ⟨hslash, ?_, ?_⟩
    · rw [hbuff, dirOf_append a hb]
      exact load_append _ _ hfreeA
    · rw [hbuff, hname, fileOf_append a hb, hcons,
        List.drop_left' (by rw [List.length_append]; rfl)]
      exact load_append _ _ hfreeB
  obtain ⟨s', hsend, hsame, -⟩ := nfsSend_spec hnames
  rw [splitPath_append hfree hb, Option.bind_some]
  refine ⟨s', hsend, hsame.names hnames, ?_⟩
  rw [hsame.1, hbuff]
  simp

theorem mountPath_names (rest : List UInt8) (hfree : NulFree q) (hslash : slash ∈ q) :
    ∃ s', mountPath s (q ++ 0 :: rest) = some s' ∧ Names s' q ∧
      s'.nfsPathBuff.length = (q ++ 0 :: rest).length :=
  split_names rest hfree hslash
    (fun b f ↦ { s with nfsState := .mount, nfsPathBuff := b, nfsFilename := f })
    (fun _ _ ↦ rfl) fun _ _ ↦ rfl

theorem first_target (h : target p ≠ []) : first (target p) = rpcPkt p 32 := by
  rw [target, bytes, first]
  rw [target, bytes] at h
  cases hlen : replyData (rpcPkt p) 1 with
  | zero =>
    rw [hlen] at h
    exact absurd rfl h
  | succ n =>
    rw [List.range_succ_eq_map]
    rfl

theorem accepted_absolute (h : Accepted p s) (hfits : Fits path p s)
    (hbuff : s.nfsPathBuff.length = 2048)
    (hc : rpcPkt p 32 = slash) (htarget : target p ≠ []) :
    ∃ s', nfsHandler loadAddr p s = some s' ∧ Names s' (resolve (dirOf path) (target p)) ∧
      s'.nfsPathBuff.length = 2048 := by
  have hfirst : first (target p) = slash := (first_target htarget).trans hc
  have hmem : slash ∈ target p := by
    obtain ⟨c, t, ht⟩ := List.exists_cons_of_ne_nil htarget
    rw [ht] at hfirst ⊢
    exact List.mem_cons.mpr (Or.inl hfirst.symm)
  have hroom := hfits.room
  rw [resolve, if_pos hfirst] at hroom ⊢
  rw [nfsHandler_accepted loadAddr h, hc, readlinkPath_absolute (hbuff ▸ hroom), Option.bind_some]
  obtain ⟨s', hmount, hnames, hlen⟩ := mountPath_names (s := s)
    (s.nfsPathBuff.drop ((target p).length + 1)) hfits.nulFree hmem
  refine ⟨s', hmount, hnames, ?_⟩
  rw [hlen, List.length_append, List.length_cons, List.length_drop, hbuff]
  omega

theorem resolve_relative (path : CStr) (hc : rpcPkt p 32 ≠ slash) :
    resolve (dirOf path) (target p) = dirOf path ++ slash :: target p := by
  rw [resolve, if_neg]
  by_cases htarget : target p = []
  · rw [htarget]
    decide
  · rwa [first_target htarget]

/-- The buffer before a relative link: behind the NUL of the directory stands the old file name. -/
theorem exists_old (hnames : Names s path) (hfits : Fits path p s) (hc : rpcPkt p 32 ≠ slash)
    (hbuff : s.nfsPathBuff.length = 2048) :
    NulFree (dirOf path) ∧ ∃ o old, s.nfsPathBuff = dirOf path ++ 0 :: o :: old ∧
      (dirOf path).length + old.length + 2 = 2048 ∧ (target p).length ≤ old.length := by
  have hroom := hfits.room
  obtain ⟨hfree, rest, hrest⟩ := exists_of_load hnames.dir
  have hlen := congrArg List.length hrest
  rw [hbuff, List.length_append, List.length_cons] at hlen
  rw [resolve_relative path hc, List.length_append, List.length_cons] at hroom
  cases rest with
  | nil =>
    rw [List.length_nil] at hlen
    omega
  | cons o old =>
    rw [List.length_cons] at hlen
    exact ⟨hfree, o, old, hrest, by omega, by omega⟩

/-- The byte behind a relative target once it is in the buffer. -/
theorem stale_iff {d t old : List UInt8} (o : UInt8) :
    (t = [] ∨ (d ++ 0 :: o :: old)[d.length + 1 + t.length]? = some 0) ↔
      (0 :: old)[t.length]? = some 0 := by
  cases t with
  | nil => exact iff_of_true (Or.inl rfl) rfl
  | cons c t =>
    have hget : (d ++ 0 :: o :: old)[d.length + 1 + (c :: t).length]? =
        (0 :: old)[(c :: t).length]? := by
      have hindex : d.length + 1 + (c :: t).length = d.length + (t.length + 2) := by
        rw [List.length_cons]
        omega
      rw [hindex, List.getElem?_append_right (Nat.le_add_right _ _), Nat.add_sub_cancel_left]
      rfl
    rw [hget]
    exact or_iff_right (List.cons_ne_nil c t)

theorem accepted_relative (h : Accepted p s) (hnames : Names s path) (hfits : Fits path p s)
    (hbuff : s.nfsPathBuff.length = 2048) (hc : rpcPkt p 32 ≠ slash)
    (hroom : (dirOf path).length + (target p).length + 2 < 2048) :
    ∃ s' x, nfsHandler loadAddr p s = some s' ∧ s'.nfsPathBuff.length = 2048 ∧
      ((target p = [] ∨ s.nfsPathBuff[(dirOf path).length + 1 + (target p).length]? = some 0) ↔
        x = 0) ∧
      Names s' (dirOf path ++ slash :: target p ++ if x = 0 then [] else [x]) := by
  obtain ⟨hfree, o, old, hold, hlen, -⟩ := exists_old hnames hfits hc hbuff
  have hfreeAll : NulFree (dirOf path ++ slash :: target p) :=
    NulFree.append hfree (List.forall_mem_cons.mpr ⟨by decide, hfits.nulFree⟩)
  have hmem : slash ∈ dirOf path ++ slash :: target p :=
    List.mem_append_right _ (List.mem_cons.mpr (Or.inl rfl))
  have hroom' : (target p).length < old.length := by omega
  obtain ⟨x, hx, hbuffer⟩ := readlinkPath_relative o hc hfree hroom'
  rw [nfsHandler_accepted loadAddr h, hold, hbuffer, Option.bind_some, stale_iff, hx,
    Option.some_inj]
  by_cases hx0 : x = 0
  · obtain ⟨s', hmount, hnames', hlen'⟩ := mountPath_names (s := s)
      (0 :: (0 :: old).drop ((target p).length + 2)) hfreeAll hmem
    refine ⟨s', x, ?_, ?_, Iff.rfl, ?_⟩
    · rw [hx0]
      exact hmount
    · rw [hlen', List.length_append, List.length_append, List.length_cons, List.length_cons,
        List.length_cons, List.length_drop, List.length_cons]
      omega
    · rwa [if_pos hx0, List.append_nil]
  · obtain ⟨s', hmount, hnames', hlen'⟩ := mountPath_names (s := s)
      ((0 :: old).drop ((target p).length + 2))
      (NulFree.append hfreeAll (List.forall_mem_singleton.mpr hx0)) (List.mem_append_left [x] hmem)
    refine ⟨s', x, ?_, ?_, Iff.rfl, ?_⟩
    · rw [List.append_assoc _ [x]] at hmount
      exact hmount
    · rw [hlen', List.length_append, List.length_append, List.length_append, List.length_singleton,
        List.length_cons, List.length_cons, List.length_drop, List.length_cons]
      omega
    · rwa [if_neg hx0]

/-- A reply that is clear leads to what the link names. -/
theorem accepted_clear (h : Accepted p s) (hnames : Names s path) (hfits : Fits path p s)
    (hbuff : s.nfsPathBuff.length = 2048) (hclear : Clear path p s) :
    ∃ s', nfsHandler loadAddr p s = some s' ∧ Names s' (resolve (dirOf path) (target p)) ∧
      s'.nfsPathBuff.length = 2048 := by
  rw [Clear] at hclear
  split_ifs at hclear with hc
  · exact accepted_absolute loadAddr h hfits hbuff hc hclear
  · obtain ⟨s', x, hs', hlen, hx, hnames'⟩ :=
      accepted_relative loadAddr h hnames hfits hbuff hc hclear.1
    rw [if_pos (hx.mp hclear.2), List.append_nil] at hnames'
    rw [resolve_relative path hc]
    exact ⟨s', hs', hnames', hlen⟩

/-- Any other reply does not. -/
theorem accepted_unclear (h : Accepted p s) (hnames : Names s path) (hfits : Fits path p s)
    (hbuff : s.nfsPathBuff.length = 2048) (hclear : ¬ Clear path p s)
    (hs' : nfsHandler loadAddr p s = some s') :
    ¬ Names s' (resolve (dirOf path) (target p)) := by
  rw [Clear] at hclear
  split_ifs at hclear with hc
  · have htarget : target p = [] := not_not.mp hclear
    have hroom : ([] : CStr).length < s.nfsPathBuff.length := by
      rw [hbuff]
      exact Nat.zero_lt_succ _
    have hnone : splitPath (([] : CStr) ++ 0 :: s.nfsPathBuff.drop 1) = none :=
      splitPath_noSlash (List.forall_mem_nil _) List.not_mem_nil _
    rw [nfsHandler_accepted loadAddr h, hc, htarget, readlinkPath_absolute hroom, Option.bind_some,
      mountPath, List.length_nil, Nat.zero_add, hnone] at hs'
    cases hs'
  · rw [resolve_relative path hc]
    by_cases hroom : (dirOf path).length + (target p).length + 2 < 2048
    · obtain ⟨s₁, x, hs₁, -, hx, hnames'⟩ :=
        accepted_relative loadAddr h hnames hfits hbuff hc hroom
      have hx0 : x ≠ 0 := fun hx0 ↦ hclear ⟨hroom, hx.mpr hx0⟩
      rw [if_neg hx0] at hnames'
      rw [Option.some.inj (hs'.symm.trans hs₁)]
      intro hresolved
      exact List.cons_ne_nil x [] (List.self_eq_append_right.mp (hresolved.unique hnames'))
    · obtain ⟨hfree, o, old, hold, hlen, -⟩ := exists_old hnames hfits hc hbuff
      rw [nfsHandler_accepted loadAddr h, hold, readlinkPath_full hc hfree (by omega)] at hs'
      cases hs'

theorem handler_clear (hnames : Names s path) (hbuff : s.nfsPathBuff.length = 2048)
    (hfits : Accepted p s → Fits path p s) (hclear : Accepted p s → Clear path p s) :
    ∃ s', nfsHandler loadAddr p s = some s' ∧ Names s' (followed path p s) ∧
      s'.nfsPathBuff.length = 2048 := by
  rw [followed]
  split_ifs with h
  · exact accepted_clear loadAddr h hnames (hfits h) hbuff (hclear h)
  · obtain ⟨s', hs', hsame⟩ := nfsHandler_other loadAddr hnames h
    exact ⟨s', hs', hsame.names hnames, by rw [hsame.1, hbuff]⟩

/-- A run from any state with the names of a path. -/
theorem follows_iff (ps : List Packet) (hnames : Names s path)
    (hbuff : s.nfsPathBuff.length = 2048) (hfits : EachLink loadAddr Fits s path ps) :
    Follows loadAddr s path ps ↔ EachLink loadAddr Clear s path ps := by
  induction ps generalizing s path with
  | nil => exact Iff.rfl
  | cons p ps ih =>
    obtain ⟨hfit, hrest⟩ := hfits
    constructor
    · rintro ⟨s', hs', hnames', hfollows⟩
      have hclear : Accepted p s → Clear path p s := by
        intro h
        by_contra hclear
        rw [followed, if_pos h] at hnames'
        exact accepted_unclear loadAddr h hnames (hfit h) hbuff hclear hs' hnames'
      refine ⟨hclear, fun s₁ hs₁ ↦ ?_⟩
      obtain ⟨s₂, hs₂, -, hlen⟩ := handler_clear loadAddr hnames hbuff hfit hclear
      cases hs'.symm.trans hs₁
      cases hs'.symm.trans hs₂
      exact (ih hnames' hlen (hrest s' hs')).mp hfollows
    · rintro ⟨hclear, hnext⟩
      obtain ⟨s', hs', hnames', hlen⟩ :=
        handler_clear loadAddr hnames hbuff hfit hclear
      exact ⟨s', hs', hnames', (ih hnames' hlen (hrest s' hs')).mpr (hnext s' hs')⟩

end Step

section Run

theorem EachLink.other {loadAddr : ℕ} {P : CStr → Packet → Client → Prop} {s s' : Client}
    {path : CStr} {p : Packet} {ps : List Packet} (hs' : nfsHandler loadAddr p s = some s')
    (hstate : s.nfsState ≠ .readlink) :
    EachLink loadAddr P s path (p :: ps) ↔ EachLink loadAddr P s' path ps := by
  have hother : ¬ Accepted p s := fun h ↦ hstate h.2.1
  rw [EachLink, followed, if_neg hother, and_iff_right fun h ↦ absurd h hother]
  refine ⟨fun h ↦ h s' hs', fun h s₁ hs₁ ↦ ?_⟩
  cases hs'.symm.trans hs₁
  exact h

theorem EachLink.last {loadAddr : ℕ} {P : CStr → Packet → Client → Prop} {s : Client}
    {path : CStr} {p : Packet} (h : Accepted p s) :
    EachLink loadAddr P s path [p] ↔ P path p s := by
  rw [EachLink]
  exact ⟨fun hp ↦ hp.1 h, fun hp ↦ ⟨fun _ ↦ hp, fun _ _ ↦ trivial⟩⟩

variable {bootFile : CStr} {netOurIP : ℕ} {s₀ s : Client}

/-- `NfsStart` leaves the names of its path. -/
theorem nfsStart_names (hfree : NulFree bootFile) (hlen : bootFile.length < 128)
    (hbuff : s₀.nfsPathBuff.length = 2048) (hstart : nfsStart bootFile netOurIP s₀ = some s) :
    Names s (startPath bootFile netOurIP) ∧ s.nfsPathBuff.length = 2048 := by
  obtain ⟨hpath, hpathLen⟩ := startPath_spec hfree hlen netOurIP
  have hstore := store_append [] s₀.nfsPathBuff (startPath bootFile netOurIP) (by omega)
  rw [List.nil_append, List.length_nil, Nat.zero_add, List.nil_append] at hstore
  rw [nfsStart, hstore, Option.bind_eq_bind, Option.bind_some] at hstart
  dsimp only at hstart
  by_cases hslash : slash ∈ startPath bootFile netOurIP
  · obtain ⟨s', hsend, hnames, hlen'⟩ := split_names
      (s₀.nfsPathBuff.drop ((startPath bootFile netOurIP).length + 1)) hpath hslash
      (fun b f ↦ { s₀ with
        nfsDownloadState := .fail
        nfsPathBuff := b
        nfsFilename := f
        nfsState := .prclookupProgMount
        netState := .cont
        netBootFileXferSize := 0 })
      (fun _ _ ↦ rfl) fun _ _ ↦ rfl
    cases hsend.symm.trans hstart
    refine ⟨hnames, ?_⟩
    rw [hlen', List.length_append, List.length_cons, List.length_drop, hbuff]
    omega
  · rw [splitPath_noSlash hpath hslash] at hstart
    cases hstart

/-- Over any packets, the names that are requested follow the links exactly when each link that is
followed is clear. -/
theorem nfs_symlink_iff (loadAddr : ℕ) (ps : List Packet) (hfree : NulFree bootFile)
    (hlen : bootFile.length < 128) (hbuff : s₀.nfsPathBuff.length = 2048)
    (hstart : nfsStart bootFile netOurIP s₀ = some s)
    (hfits : EachLink loadAddr Fits s (startPath bootFile netOurIP) ps) :
    Follows loadAddr s (startPath bootFile netOurIP) ps ↔
      EachLink loadAddr Clear s (startPath bootFile netOurIP) ps :=
  follows_iff loadAddr ps (nfsStart_names hfree hlen hbuff hstart).1
    (nfsStart_names hfree hlen hbuff hstart).2 hfits

/-- A reply without an error. -/
def reply (id : UInt8) (data : List UInt8) : Packet where
  dest := nfsOurPort
  len := 24 + data.length
  data := fun i ↦ ([0, 0, 0, id, 0, 0, 0, 1] ++ List.replicate 16 0 ++ data).getD i 0
  stack := fun _ ↦ 0

/-- The client at the start. -/
def idle : Client where
  nfsState := .umount
  rpcId := 0
  fsMounted := false
  nfsOffset := 0
  nfsLen := 0
  dirfh := []
  filefh := []
  nfsSrvMountPort := 0
  nfsSrvNfsPort := 0
  nfsDownloadState := .fail
  netState := .cont
  nfsPathBuff := List.replicate 2048 0
  nfsFilename := 0
  mem := fun _ ↦ 0
  netBootFileXferSize := 0
  requests := []

/-- The file is found to be a link to `x`. -/
def linkReplies : List Packet :=
  [reply 1 [0, 0, 2, 0], reply 2 [0, 0, 8, 1], reply 3 (List.replicate 36 0),
    reply 4 (List.replicate 36 0), reply 5 [0, 0, 0, 21],
    reply 6 [0, 0, 0, 0, 0, 0, 0, 1, 0x78]]

def started : Client :=
  { idle with
    rpcId := 1
    nfsState := .prclookupProgMount
    nfsPathBuff := ascii "/a" ++ 0 :: (ascii "bcde" ++ 0 :: List.replicate 2040 0)
    nfsFilename := 3
    requests := [.getport .mount] }

theorem started_eq : nfsStart (ascii "/a/bcde") 0 idle = some started := by
  have hstore := store_append [] (List.replicate 2048 0) (ascii "/a/bcde") (by
    rw [List.length_replicate]
    decide)
  have hsplit := splitPath_append (a := ascii "/a") (b := ascii "bcde") (by decide) (by decide)
    (List.replicate 2040 0)
  have hpath : startPath (ascii "/a/bcde") 0 = ascii "/a/bcde" := by decide
  rw [List.nil_append, List.nil_append, List.length_nil, List.drop_replicate] at hstore
  have hbuff : ascii "/a/bcde" ++ 0 :: List.replicate (2048 - ((ascii "/a/bcde").length + 1)) 0 =
      (ascii "/a" ++ slash :: ascii "bcde") ++ 0 :: List.replicate 2040 0 := rfl
  rw [nfsStart, hpath]
  change (Lib.CString.store (List.replicate 2048 0) 0 _).bind _ = _
  rw [hstore, Option.bind_some]
  dsimp only
  rw [hbuff, hsplit]
  rfl

theorem started_names : Names started (ascii "/a/bcde") := by
  have hpath : startPath (ascii "/a/bcde") 0 = ascii "/a/bcde" := by decide
  have h := (nfsStart_names (by decide) (by decide) List.length_replicate started_eq).1
  rwa [hpath] at h

/-- The next request is sent with the same names. -/
structure Moves (s : Client) (next : NfsState) (s' : Client) : Prop where
  nfsState : s'.nfsState = next
  rpcId : s'.rpcId = (s.rpcId + 1) % 4294967296
  same : SameNames s s'

theorem nfsSend_moves {path : CStr} (s₁ : Client) (hnames : Names s path) (hsame : SameNames s s₁)
    (hid : s₁.rpcId = s.rpcId) (hstate : s₁.nfsState ≠ .umount) :
    ∃ s', nfsSend s₁ = some s' ∧ Moves s s₁.nfsState s' := by
  obtain ⟨s', hsend, hsame', hmoved⟩ := nfsSend_spec (hsame.names hnames)
  obtain ⟨hnext, hreq⟩ := hmoved hstate
  rw [hid] at hreq
  exact ⟨s', hsend, hnext, hreq, hsame.trans hsame'⟩

theorem nfsSend_next {path : CStr} {s₁ : Client} {next : NfsState} (hnames : Names s path)
    (hsame : SameNames s s₁) (hid : s₁.rpcId = s.rpcId) (hnext : next ≠ .umount) :
    ∃ s', nfsSend { s₁ with nfsState := next } = some s' ∧ Moves s next s' :=
  nfsSend_moves _ hnames (hsame.setState next) hid hnext

theorem portReplied_moves {path : CStr} (hnames : Names s path) (prog : Prog) (next : NfsState)
    (hnext : next ≠ .umount) (p : Packet) :
    ∃ s', portReplied prog next p s = some s' ∧ Moves s next s' := by
  obtain ⟨hsame, hid⟩ := rpcLookupReply_same prog p s
  exact nfsSend_next hnames hsame hid hnext

/-- The link is reached with the names as `NfsStart` left them. -/
theorem linkReplies_iff (P : CStr → Packet → Client → Prop) (path : CStr) :
    ∃ s, s.nfsPathBuff = started.nfsPathBuff ∧ (EachLink 0 P started path linkReplies ↔
      P path (reply 6 [0, 0, 0, 0, 0, 0, 0, 1, 0x78]) s) := by
  have hn := started_names
  obtain ⟨s₁, h₁, hm₁⟩ := portReplied_moves hn .mount .prclookupProgNfs (by decide)
    (reply 1 [0, 0, 2, 0])
  obtain ⟨s₂, h₂, hm₂⟩ := portReplied_moves (hm₁.same.names hn) .nfs .mount (by decide)
    (reply 2 [0, 0, 8, 1])
  have hid₂ : s₂.rpcId = 3 := by
    rw [hm₂.rpcId, hm₁.rpcId]
    rfl
  obtain ⟨s₃, h₃, hm₃⟩ := nfsSend_moves { s₂ with
      fsMounted := true, dirfh := List.replicate 32 0, nfsState := .lookup }
    (hm₂.same.names (hm₁.same.names hn)) ⟨rfl, rfl⟩ rfl NfsState.noConfusion
  have hid₃ : s₃.rpcId = 4 := by
    rw [hm₃.rpcId, hid₂]
  obtain ⟨s₄, h₄, hm₄⟩ := nfsSend_moves { s₃ with
      filefh := List.replicate 32 0, nfsState := .read, nfsOffset := 0, nfsLen := nfsReadSize }
    (hm₃.same.names (hm₂.same.names (hm₁.same.names hn))) ⟨rfl, rfl⟩ rfl NfsState.noConfusion
  have hid₄ : s₄.rpcId = 5 := by
    rw [hm₄.rpcId, hid₃]
  obtain ⟨s₅, h₅, hm₅⟩ := nfsSend_moves { s₄ with nfsState := .readlink }
    (hm₄.same.names (hm₃.same.names (hm₂.same.names (hm₁.same.names hn)))) ⟨rfl, rfl⟩ rfl
    NfsState.noConfusion
  have hid₅ : s₅.rpcId = 6 := by
    rw [hm₅.rpcId, hid₄]
  have hstep₁ : nfsHandler 0 (reply 1 [0, 0, 2, 0]) started = some s₁ := h₁
  have hstep₂ : nfsHandler 0 (reply 2 [0, 0, 8, 1]) s₁ = some s₂ := by
    rw [nfsHandler, if_neg (by decide), hm₁.nfsState]
    exact h₂
  have hstep₃ : nfsHandler 0 (reply 3 (List.replicate 36 0)) s₂ = some s₃ := by
    rw [nfsHandler, if_neg (by decide), hm₂.nfsState]
    dsimp only
    rw [mountReplied, nfsMountReply, if_neg (by rw [hid₂]; decide), if_neg (by decide)]
    exact h₃
  have hstep₄ : nfsHandler 0 (reply 4 (List.replicate 36 0)) s₃ = some s₄ := by
    rw [nfsHandler, if_neg (by decide), hm₃.nfsState]
    dsimp only
    rw [lookupReplied, nfsLookupReply, if_neg (by rw [hid₃]; decide), if_neg (by decide)]
    exact h₄
  have hstep₅ : nfsHandler 0 (reply 5 [0, 0, 0, 21]) s₄ = some s₅ := by
    have hrlen : Int.bmod (-(replyData (reply 5 [0, 0, 0, 21]).data 0 : ℤ)) 4294967296 = -21 := by
      decide
    have hread : nfsReadReply 0 (reply 5 [0, 0, 0, 21]) s₄ = (-21, s₄) := by
      rw [nfsReadReply, if_neg (by rw [hid₄]; decide), if_pos (by decide), if_neg (by decide),
        hrlen]
    rw [nfsHandler, if_neg (by decide), hm₄.nfsState]
    dsimp only
    rw [readReplied, hread]
    dsimp only
    rw [if_neg (by decide), if_pos (by decide)]
    exact h₅
  refine ⟨s₅, ?_, ?_⟩
  · rw [hm₅.same.1, hm₄.same.1, hm₃.same.1, hm₂.same.1, hm₁.same.1]
  · have haccepted : Accepted (reply 6 [0, 0, 0, 0, 0, 0, 0, 1, 0x78]) s₅ :=
      ⟨rfl, hm₅.nfsState, by rw [hid₅]; decide, by decide, by decide, by decide, by decide⟩
    rw [linkReplies, EachLink.other hstep₁ (by decide),
      EachLink.other hstep₂ (by rw [hm₁.nfsState]; decide),
      EachLink.other hstep₃ (by rw [hm₂.nfsState]; decide),
      EachLink.other hstep₄ (by rw [hm₃.nfsState]; exact NfsState.noConfusion),
      EachLink.other hstep₅ (by rw [hm₄.nfsState]; exact NfsState.noConfusion),
      EachLink.last haccepted]

theorem linkReplies_fit : EachLink 0 Fits started (ascii "/a/bcde") linkReplies := by
  obtain ⟨s, -, h⟩ := linkReplies_iff Fits (ascii "/a/bcde")
  exact h.mpr ⟨by decide, by decide⟩

theorem nfs_symlink_iff_short :
    Follows 0 started (startPath (ascii "/a/bcde") 0) linkReplies ↔
      EachLink 0 Clear started (startPath (ascii "/a/bcde") 0) linkReplies :=
  nfs_symlink_iff 0 linkReplies (by decide) (by decide) List.length_replicate started_eq
    linkReplies_fit

/-- Behind a link to `x` the `c` of the file name that was requested before it is requested too. -/
theorem nfs_symlink_stale : nfsStart (ascii "/a/bcde") 0 idle = some started ∧
    EachLink 0 Fits started (ascii "/a/bcde") linkReplies ∧
    ¬ Follows 0 started (ascii "/a/bcde") linkReplies := by
  refine ⟨started_eq, linkReplies_fit, fun hfollows ↦ ?_⟩
  obtain ⟨s, hbuff, h⟩ := linkReplies_iff Clear (ascii "/a/bcde")
  have hlen : started.nfsPathBuff.length = 2048 := by
    rw [started, List.length_append, List.length_cons, List.length_append, List.length_cons,
      List.length_replicate]
    rfl
  have hclear := h.mp ((follows_iff 0 linkReplies started_names hlen linkReplies_fit).mp hfollows)
  rw [Clear, if_neg (by decide), hbuff] at hclear
  obtain ⟨-, htarget | hstale⟩ := hclear
  · exact absurd htarget (by decide)
  · exact absurd hstale (by decide)

end Run

end UBoot.Net.NfsSymlink
