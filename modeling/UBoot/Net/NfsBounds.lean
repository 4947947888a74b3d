import UBoot.Lib.ReadLog
import UBoot.Net.NfsSymlink

namespace UBoot.Net.NfsBounds

open Lib.CString Lib.Memory Lib.ReadLog Nfs NfsPath NfsSymlink

/-- `rstatus`, `verifier` and `astatus`, as far as `||` looks at them. -/
def rejects : Reader Bool := do
  let rstatus ← Reader.read32 8
  if rstatus ≠ 0 then return true
  else
    let verifier ← Reader.read32 12
    if verifier ≠ 0 then return true
    else
      let astatus ← Reader.read32 20
      return astatus ≠ 0

/-- The same with `data[0]` as the last operand. -/
def rejectsData : Reader Bool := do
  let rejected ← rejects
  if rejected then return true
  else
    let data ← Reader.read32 24
    return data ≠ 0

/-- A reply parser: the fields that are checked, the result when they are wrong, and the rest. -/
def parser {α : Type} (wrong : Reader Bool) (failed : α) (s : Client) (answer : Reader α) :
    Reader α := do
  let id ← Reader.read32 0
  if id ≠ s.rpcId then return failed
  else
    let rejected ← wrong
    if rejected then return failed else answer

def rpcLookupReads (prog : Prog) (s : Client) : Reader (Option Client) :=
  parser rejects none s do
    let port ← Reader.read32 24
    return some <| match prog with
      | .mount => { s with nfsSrvMountPort := port }
      | .nfs => { s with nfsSrvNfsPort := port }

def nfsMountReads (s : Client) : Reader (Option Client) :=
  parser rejectsData none s do
    let fh ← Reader.readBytes 28 nfsFhsize
    return some { s with fsMounted := true, dirfh := fh }

def nfsUmountallReads (s : Client) : Reader (Option Client) :=
  parser rejects none s
    (return some { s with fsMounted := false, dirfh := List.replicate nfsFhsize 0 })

def nfsLookupReads (s : Client) : Reader (Option Client) :=
  parser rejectsData none s do
    let fh ← Reader.readBytes 28 nfsFhsize
    return some { s with filefh := fh }

def nfsReadlinkReads (s : Client) : Reader (Option (Option Client)) :=
  parser rejectsData (some none) s do
    let rlen ← Reader.read32 28
    let c ← Reader.read 32
    let target ← Reader.readBytes 32 rlen
    return do
      let buff ← readlinkPath s.nfsPathBuff target c
      return some { s with nfsPathBuff := buff }

/-- `nfs_read_reply` looks at the fields again to see what was wrong. -/
def nfsReadReads (loadAddr : ℕ) (s : Client) : Reader (ℤ × Client) := do
  let id ← Reader.read32 0
  if id ≠ s.rpcId then return (-1, s)
  else
    let rejected ← rejectsData
    if rejected then
      let rstatus ← Reader.read32 8
      if rstatus ≠ 0 then return (-9999, s)
      else
        let astatus ← Reader.read32 20
        if astatus ≠ 0 then return (-9999, s)
        else
          let data ← Reader.read32 24
          return (Int.bmod (-(data : ℤ)) 4294967296, s)
    else
      let rlen ← Reader.read32 96
      let block ← Reader.readBytes 100 rlen
      return (Int.bmod rlen 4294967296, storeBlock loadAddr block s.nfsOffset s)

def sizeofRpc : ℕ := 2048

/-- How many bytes of a packet are copied into the local one. -/
def copied (p : Packet) (s : Client) : ℕ := if s.nfsState = .read then 100 else p.len

/-- What the parser of the state uses lies in the received bytes. -/
def UsesReceived (loadAddr : ℕ) (p : Packet) (s : Client) : Prop :=
  match s.nfsState with
  | .prclookupProgMount => (rpcLookupReads .mount s).Below (rpcPkt p) p.len
  | .prclookupProgNfs => (rpcLookupReads .nfs s).Below (rpcPkt p) p.len
  | .mount => (nfsMountReads s).Below (rpcPkt p) p.len
  | .umount => (nfsUmountallReads s).Below (rpcPkt p) p.len
  | .lookup => (nfsLookupReads s).Below (rpcPkt p) p.len
  | .readlink => (nfsReadlinkReads s).Below (rpcPkt p) p.len
  | .read => (nfsReadReads loadAddr s).Below p.data p.len

/-- `NfsHandler` copies, uses and stores no more than there is and than fits. -/
structure Bounded (loadAddr : ℕ) (p : Packet) (s : Client) : Prop where
  copies : copied p s ≤ sizeofRpc
  uses : UsesReceived loadAddr p s
  path : s.nfsState = .readlink → nfsReadlinkReply (rpcPkt p) s ≠ none

/-- Where the use of a reply ends, when it ends at `accepted` behind the three checked fields. -/
def checksEnd (r : Mem) (s : Client) (accepted : ℕ) : ℕ :=
  if replyId r ≠ s.rpcId then 4
  else if rstatus r ≠ 0 then 12
  else if verifier r ≠ 0 then 16
  else if astatus r ≠ 0 then 24
  else accepted

/-- How many bytes a reply needs. -/
def neededBytes (p : Packet) (s : Client) : ℕ :=
  match s.nfsState with
  | .prclookupProgMount | .prclookupProgNfs => checksEnd (rpcPkt p) s 28
  | .umount => checksEnd (rpcPkt p) s 24
  | .mount | .lookup =>
    checksEnd (rpcPkt p) s (if replyData (rpcPkt p) 0 ≠ 0 then 28 else 28 + nfsFhsize)
  | .readlink =>
    checksEnd (rpcPkt p) s
      (if replyData (rpcPkt p) 0 ≠ 0 then 28 else 32 + max 1 (replyData (rpcPkt p) 1))
  | .read =>
    if replyId p.data ≠ s.rpcId then 4
    else if rstatus p.data ≠ 0 then 12
    else if astatus p.data ≠ 0 then 24
    else if verifier p.data ≠ 0 ∨ replyData p.data 0 ≠ 0 then 28
    else 100 + replyData p.data 18

/-- There is room for a target, and for the byte that is cleared behind it. -/
def LinkRoom (p : Packet) (s : Client) : Prop :=
  if rpcPkt p 32 = slash then replyData (rpcPkt p) 1 < s.nfsPathBuff.length
  else ∃ dir, load s.nfsPathBuff = some dir ∧
    dir.length + replyData (rpcPkt p) 1 + 2 < s.nfsPathBuff.length

section Values

variable (r : Mem) (s : Client)

theorem value_replyId : (Reader.read32 0).value r = replyId r := Reader.value_read32 r 0

theorem value_rstatus : (Reader.read32 8).value r = rstatus r := Reader.value_read32 r 8

theorem value_verifier : (Reader.read32 12).value r = verifier r := Reader.value_read32 r 12

theorem value_astatus : (Reader.read32 20).value r = astatus r := Reader.value_read32 r 20

/-- `data[i]`, at the address that the readers have for it. -/
theorem value_replyData {off i : ℕ} (h : off = 24 + 4 * i) :
    (Reader.read32 off).value r = replyData r i := by
  rw [h]
  exact Reader.value_read32 r (24 + 4 * i)

theorem value_rejects :
    rejects.value r = true ↔ rstatus r ≠ 0 ∨ verifier r ≠ 0 ∨ astatus r ≠ 0 := by
  simp only [rejects, Reader.value_bind, Reader.value_ite, Reader.value_pure, value_rstatus,
    value_verifier, value_astatus]
  split_ifs with hrstatus hverifier
  · exact iff_of_true rfl (Or.inl hrstatus)
  · exact iff_of_true rfl (Or.inr (Or.inl hverifier))
  · rw [decide_eq_true_eq]
    exact ((or_iff_right hrstatus).trans (or_iff_right hverifier)).symm

theorem value_rejectsData : rejectsData.value r = true ↔
    rstatus r ≠ 0 ∨ verifier r ≠ 0 ∨ astatus r ≠ 0 ∨ replyData r 0 ≠ 0 := by
  have hdata := value_replyData r (show 24 = 24 + 4 * 0 from rfl)
  simp only [rejectsData, Reader.value_bind, Reader.value_ite, Reader.value_pure, hdata]
  split_ifs with h
  · refine iff_of_true rfl ?_
    obtain hfield | hfield | hfield := (value_rejects r).mp h
    · exact Or.inl hfield
    · exact Or.inr (Or.inl hfield)
    · exact Or.inr (Or.inr (Or.inl hfield))
  · rw [value_rejects, not_or, not_or] at h
    rw [decide_eq_true_eq]
    exact ((or_iff_right h.1).trans ((or_iff_right h.2.1).trans (or_iff_right h.2.2))).symm

theorem parser_value {α : Type} (wrong : Reader Bool) (failed : α) (answer : Reader α) :
    (parser wrong failed s answer).value r =
      if replyId r ≠ s.rpcId then failed
      else if wrong.value r then failed else answer.value r := by
  simp only [parser, Reader.value_bind, Reader.value_ite, Reader.value_pure, value_replyId]

theorem value_rpcLookupReads (prog : Prog) :
    (rpcLookupReads prog s).value r = rpcLookupReply prog r s := by
  simp only [rpcLookupReads, parser_value, value_rejects]
  rfl

theorem value_nfsMountReads : (nfsMountReads s).value r = nfsMountReply r s := by
  simp only [nfsMountReads, parser_value, value_rejectsData]
  rfl

theorem value_nfsUmountallReads : (nfsUmountallReads s).value r = nfsUmountallReply r s := by
  simp only [nfsUmountallReads, parser_value, value_rejects]
  rfl

theorem value_nfsLookupReads : (nfsLookupReads s).value r = nfsLookupReply r s := by
  simp only [nfsLookupReads, parser_value, value_rejectsData]
  rfl

theorem value_nfsReadlinkReads : (nfsReadlinkReads s).value r = nfsReadlinkReply r s := by
  have hrlen := value_replyData r (show 28 = 24 + 4 * 1 from rfl)
  rw [nfsReadlinkReads, nfsReadlinkReply]
  simp only [parser_value, value_rejectsData, Reader.value_bind, Reader.value_pure,
    Reader.value_read, Reader.value_readBytes, hrlen]

theorem value_nfsReadReads (loadAddr : ℕ) (p : Packet) :
    (nfsReadReads loadAddr s).value p.data = nfsReadReply loadAddr p s := by
  have herror (a b : ℤ × Client) :
      (if rstatus p.data ≠ 0 ∨ astatus p.data ≠ 0 then a else b) =
        if rstatus p.data ≠ 0 then a else if astatus p.data ≠ 0 then a else b :=
    ite_or _ _ _ _
  have hdata := value_replyData p.data (show 24 = 24 + 4 * 0 from rfl)
  have hrlen := value_replyData p.data (show 96 = 24 + 4 * 18 from rfl)
  simp only [nfsReadReads, nfsReadReply, Reader.value_bind, Reader.value_ite, Reader.value_pure,
    Reader.value_readBytes, value_replyId, value_rstatus, value_astatus, value_rejectsData, herror,
    hdata, hrlen]

end Values

section Below

variable {r : Mem} {s : Client} {len : ℕ}

theorem below_rejects : rejects.Below r len ↔
    (if rstatus r ≠ 0 then 12 else if verifier r ≠ 0 then 16 else 24) ≤ len := by
  simp only [rejects, Reader.below_bind, Reader.below_ite, Reader.below_read32, Reader.below_pure,
    and_true, implies_true, true_and, value_rstatus, value_verifier]
  split_ifs <;> simp [*] <;> omega

theorem below_rejectsData : rejectsData.Below r len ↔
    (if rstatus r ≠ 0 then 12 else if verifier r ≠ 0 then 16 else if astatus r ≠ 0 then 24
      else 28) ≤ len := by
  simp only [rejectsData, Reader.below_bind, Reader.below_ite, Reader.below_read32,
    Reader.below_pure, and_true, implies_true, true_and, below_rejects, value_rejects]
  split_ifs <;> simp [*]
  omega

theorem parser_below {α : Type} {wrong : Reader Bool} {failed : α} {answer : Reader α} :
    (parser wrong failed s answer).Below r len ↔
      4 ≤ len ∧ (replyId r = s.rpcId →
        wrong.Below r len ∧ (¬ wrong.value r = true → answer.Below r len)) := by
  simp only [parser, Reader.below_bind, Reader.below_ite, Reader.below_read32, Reader.below_pure,
    value_replyId, not_not, implies_true, true_and, Nat.zero_add]

/-- A parser that checks the three fields. -/
theorem below_parser_rejects {α : Type} {failed : α} {answer : Reader α} {a : ℕ} (ha : 24 ≤ a)
    (hanswer : 24 ≤ len → (answer.Below r len ↔ a ≤ len)) :
    (parser rejects failed s answer).Below r len ↔ checksEnd r s a ≤ len := by
  rw [parser_below, below_rejects, value_rejects, checksEnd]
  generalize replyId r = id, rstatus r = rstatus, verifier r = verifier, astatus r = astatus
  grind

/-- A parser that checks `data[0]` too. -/
theorem below_parser_rejectsData {α : Type} {failed : α} {answer : Reader α} {a : ℕ} (ha : 28 ≤ a)
    (hanswer : 28 ≤ len → (answer.Below r len ↔ a ≤ len)) :
    (parser rejectsData failed s answer).Below r len ↔
      checksEnd r s (if replyData r 0 ≠ 0 then 28 else a) ≤ len := by
  rw [parser_below, below_rejectsData, value_rejectsData, checksEnd]
  generalize replyId r = id, rstatus r = rstatus, verifier r = verifier, astatus r = astatus,
    replyData r 0 = data
  grind

theorem below_readlinkAnswer (h : 28 ≤ len) :
    (do
      let rlen ← Reader.read32 28
      let c ← Reader.read 32
      let target ← Reader.readBytes 32 rlen
      return do
        let buff ← readlinkPath s.nfsPathBuff target c
        return some { s with nfsPathBuff := buff } : Reader (Option (Option Client))).Below r len ↔
      32 + max 1 (replyData r 1) ≤ len := by
  have hrlen := value_replyData r (show 28 = 24 + 4 * 1 from rfl)
  simp only [Reader.below_bind, Reader.below_read32, Reader.below_read, Reader.below_readBytes,
    Reader.below_pure, and_true, hrlen]
  omega

theorem below_handleAnswer (f : List UInt8 → Client) :
    (do
      let fh ← Reader.readBytes 28 nfsFhsize
      return some (f fh) : Reader (Option Client)).Below r len ↔ 28 + nfsFhsize ≤ len := by
  simp only [Reader.below_bind, Reader.below_readBytes, Reader.below_pure, and_true, nfsFhsize]
  omega

theorem below_nfsReadReads (loadAddr : ℕ) :
    (nfsReadReads loadAddr s).Below r len ↔
      (if replyId r ≠ s.rpcId then 4
      else if rstatus r ≠ 0 then 12
      else if astatus r ≠ 0 then 24
      else if verifier r ≠ 0 ∨ replyData r 0 ≠ 0 then 28
      else 100 + replyData r 18) ≤ len := by
  have hrlen := value_replyData r (show 96 = 24 + 4 * 18 from rfl)
  simp only [nfsReadReads, Reader.below_bind, Reader.below_ite, Reader.below_read32,
    Reader.below_readBytes, Reader.below_pure, below_rejectsData, value_rejectsData, and_true,
    value_replyId, value_rstatus, value_astatus, hrlen]
  generalize replyId r = id, rstatus r = rstatus, verifier r = verifier, astatus r = astatus,
    replyData r 0 = data, replyData r 18 = rlen
  grind

/-- What is used lies in the packet exactly when it has the bytes that are needed. -/
theorem usesReceived_iff (loadAddr : ℕ) (p : Packet) (s : Client) :
    UsesReceived loadAddr p s ↔ neededBytes p s ≤ p.len := by
  rw [UsesReceived, neededBytes]
  cases s.nfsState with
  | prclookupProgMount | prclookupProgNfs =>
    refine below_parser_rejects (by decide) fun h ↦ ?_
    simp only [Reader.below_bind, Reader.below_read32, Reader.below_pure, and_true]
  | mount | lookup =>
    exact below_parser_rejectsData (by decide) fun _ ↦ below_handleAnswer _
  | umount => exact below_parser_rejects (le_refl _) fun h ↦ iff_of_true (Reader.below_pure _) h
  | readlink => exact below_parser_rejectsData (by omega) below_readlinkAnswer
  | read => exact below_nfsReadReads loadAddr

end Below

section Path

variable {t : List UInt8} {c : UInt8}

theorem readlinkPath_slash_iff {buff : List UInt8} :
    readlinkPath buff t slash ≠ none ↔ t.length < buff.length := by
  constructor
  · intro h
    by_contra hlen
    have hslash : ¬ slash ≠ 0x2f := by decide
    refine h ?_
    rw [readlinkPath, if_neg hslash, write]
    split_ifs with hroom
    · rw [Option.bind_eq_bind, Option.bind_some, poke, if_neg]
      simp only [List.length_append, List.length_take, List.length_drop]
      omega
    · rfl
  · intro hroom
    rw [readlinkPath_absolute hroom]
    exact Option.some_ne_none _

theorem readlinkPath_relative_iff {dir rest : List UInt8} (hc : c ≠ slash) (hfree : NulFree dir) :
    readlinkPath (dir ++ 0 :: rest) t c ≠ none ↔ t.length + 1 < rest.length := by
  cases rest with
  | nil =>
    have hstore : Lib.CString.store (dir ++ [0]) dir.length (ascii "/") = none := by
      have hascii : ascii "/" = [0x2f] := rfl
      rw [hascii, Lib.CString.store, poke_append, Option.bind_some, Lib.CString.store, poke,
        if_neg (by simp)]
      rfl
    have hslash : c ≠ 0x2f := hc
    refine iff_of_false (not_not.mpr ?_) (Nat.not_lt_zero _)
    rw [readlinkPath, if_pos hslash, load_append _ _ hfree, Option.bind_eq_bind, Option.bind_some,
      hstore]
    rfl
  | cons o old =>
    rw [List.length_cons, Nat.succ_lt_succ_iff]
    constructor
    · intro h
      by_contra hroom
      exact h (readlinkPath_full hc hfree (by omega))
    · intro hroom
      obtain ⟨x, -, hpath⟩ := readlinkPath_relative o hc hfree hroom
      rw [hpath]
      exact Option.some_ne_none _

theorem readlinkPath_iff (buff t : List UInt8) (c : UInt8) : readlinkPath buff t c ≠ none ↔
    if c = slash then t.length < buff.length
    else ∃ dir, load buff = some dir ∧ dir.length + t.length + 2 < buff.length := by
  split_ifs with hc
  · rw [hc, readlinkPath_slash_iff]
  · cases hload : load buff with
    | none =>
      have hslash : c ≠ 0x2f := hc
      refine iff_of_false (not_not.mpr ?_) ?_
      · rw [readlinkPath, if_pos hslash, hload]
        rfl
      · rintro ⟨dir, h, -⟩
        cases h
    | some dir =>
      obtain ⟨hfree, rest, rfl⟩ := exists_of_load hload
      rw [readlinkPath_relative_iff hc hfree, List.length_append, List.length_cons]
      constructor
      · intro hroom
        exact ⟨dir, rfl, by omega⟩
      · rintro ⟨dir', h, hroom⟩
        cases h
        omega

theorem pathInside_iff {p : Packet} {s : Client} (hdest : p.dest = nfsOurPort) :
    (s.nfsState = .readlink → nfsReadlinkReply (rpcPkt p) s ≠ none) ↔
      (Accepted p s → LinkRoom p s) := by
  by_cases h : Accepted p s
  · rw [imp_iff_right h.2.1, imp_iff_right h, LinkRoom]
    obtain ⟨-, -, hid, hrstatus, hverifier, hastatus, hdata⟩ := h
    rw [nfsReadlinkReply, if_neg (not_not.mpr hid), if_neg (by simp [*]), Option.bind_eq_bind, Ne,
      Option.bind_eq_none_iff]
    have hpath := readlinkPath_iff s.nfsPathBuff (bytes (rpcPkt p) 32 (replyData (rpcPkt p) 1))
      (rpcPkt p 32)
    rw [bytes_length] at hpath
    rw [← hpath, Ne, Option.eq_none_iff_forall_ne_some]
    refine not_congr (forall_congr' fun buff ↦ ?_)
    exact ⟨fun hnone heq ↦ Option.some_ne_none _ (hnone heq), fun hne heq ↦ absurd heq hne⟩
  · refine iff_of_true (fun hstate ↦ ?_) fun h' ↦ absurd h' h
    rw [nfsReadlinkReply]
    split_ifs with hid herror
    · exact Option.some_ne_none _
    · exact Option.some_ne_none _
    · push Not at hid herror
      exact absurd ⟨hdest, hstate, hid, herror⟩ h

end Path

/-- The copies, the uses and the stores of `NfsHandler` are bounded exactly when the packet is for
another port, or it fits into the local one, has the bytes that are needed, and a target has room in
the path. -/
theorem nfs_reply_bounds_iff (loadAddr : ℕ) (p : Packet) (s : Client) :
    (p.dest = nfsOurPort → Bounded loadAddr p s) ↔
      (p.dest = nfsOurPort → (s.nfsState ≠ .read → p.len ≤ sizeofRpc) ∧
        neededBytes p s ≤ p.len ∧ (Accepted p s → LinkRoom p s)) := by
  refine forall_congr' fun hdest ↦ ?_
  have hcopied : copied p s ≤ sizeofRpc ↔ (s.nfsState ≠ .read → p.len ≤ sizeofRpc) := by
    rw [copied]
    split_ifs with hread
    · exact iff_of_true (by decide) fun h ↦ absurd hread h
    · rw [imp_iff_right hread]
  rw [← hcopied, ← usesReceived_iff loadAddr, ← pathInside_iff hdest]
  exact ⟨fun h ↦ ⟨h.copies, h.uses, h.path⟩, fun h ↦ ⟨h.1, h.2.1, h.2.2⟩⟩

/-- A reply to READ that announces 1024 bytes and has none of them. -/
def emptyBlock : Packet where
  dest := nfsOurPort
  len := 100
  data := fun i ↦ if i = 3 then 5 else if i = 98 then 4 else 0
  stack := fun _ ↦ 0

/-- The block is taken from behind the packet. -/
theorem nfs_reply_bounds_emptyBlock :
    ¬ (emptyBlock.dest = nfsOurPort →
      Bounded 0 emptyBlock { idle with nfsState := .read, rpcId := 5 }) := by
  intro h
  exact absurd ((usesReceived_iff 0 _ _).mp (h rfl).uses) (by decide)

end UBoot.Net.NfsBounds
