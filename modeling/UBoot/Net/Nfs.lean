import UBoot.Lib.CString
import UBoot.Lib.Memory
import UBoot.LibGeneric.Vsprintf
import UBoot.Net.Tftp

namespace UBoot.Net.Nfs

open Lib.CString Lib.Memory LibGeneric.Vsprintf
open Tftp (NetState)

inductive NfsState
  | prclookupProgMount
  | prclookupProgNfs
  | mount
  | umount
  | lookup
  | read
  | readlink
deriving DecidableEq

inductive Prog
  | mount
  | nfs
deriving DecidableEq

/-- What a request asks for; the ports and credentials are left out. -/
inductive Call
  | getport (prog : Prog)
  | mount (path : CStr)
  | umountall
  | lookup (dirfh : List UInt8) (fname : CStr)
  | read (filefh : List UInt8) (offset readlen : ℕ)
  | readlink (filefh : List UInt8)
deriving DecidableEq

def nfsFhsize : ℕ := 32

def nfsReadSize : ℕ := 1024

def nfserrIsdir : ℤ := 21

def nfserrInval : ℤ := 22

def nfsOurPort : ℕ := 1000

/-- The variables of `nfs.c` and those of `net.c` it works on. `nfs_path` is the start of
`nfs_path_buff`, and `nfs_filename` an index into it. `requests` records what was sent, the last one
first. -/
structure Client where
  nfsState : NfsState
  rpcId : ℕ
  fsMounted : Bool
  nfsOffset : ℕ
  nfsLen : ℕ
  dirfh : List UInt8
  filefh : List UInt8
  nfsSrvMountPort : ℕ
  nfsSrvNfsPort : ℕ
  nfsDownloadState : NetState
  netState : NetState
  nfsPathBuff : List UInt8
  nfsFilename : ℕ
  mem : Mem
  netBootFileXferSize : ℕ
  requests : List Call

/-- A UDP packet as the handler gets it. `stack` is what is in `rpc_pkt` before it is copied there,
and behind the packet. -/
structure Packet where
  dest : ℕ
  len : ℕ
  data : Mem
  stack : Mem

/-- The last component of the path. A path without a slash is left in front of its first byte. -/
def basename (buff : List UInt8) : Option ℕ := do
  let path ← load buff
  let i ← path.reverse.findIdx? (· == 0x2f)
  return path.length - i

/-- `nfs_filename = basename (nfs_path); nfs_path = dirname (nfs_path);` -/
def splitPath (buff : List UInt8) : Option (List UInt8 × ℕ) := do
  let fname ← basename buff
  let buff ← poke buff (fname - 1) 0
  return (buff, fname)

def storeBlock (loadAddr : ℕ) (src : List UInt8) (offset : ℕ) (s : Client) : Client :=
  { s with
    mem := store s.mem (loadAddr + offset) src
    netBootFileXferSize :=
      if s.netBootFileXferSize < offset + src.length then offset + src.length
      else s.netBootFileXferSize }

def rpcReq (call : Call) (s : Client) : Client :=
  { s with rpcId := (s.rpcId + 1) % 4294967296, requests := call :: s.requests }

/-- `NfsSend` with the requests; `none` when a text in `nfs_path_buff` has no end. -/
def nfsSend (s : Client) : Option Client :=
  match s.nfsState with
  | .prclookupProgMount => some (rpcReq (.getport .mount) s)
  | .prclookupProgNfs => some (rpcReq (.getport .nfs) s)
  | .mount => do
    let path ← load s.nfsPathBuff
    return rpcReq (.mount path) s
  | .umount =>
    -- nothing mounted, nothing to umount
    if s.nfsSrvMountPort = 4294967295 ∨ s.fsMounted = false then some s
    else some (rpcReq .umountall s)
  | .lookup => do
    let fname ← load (s.nfsPathBuff.drop s.nfsFilename)
    return rpcReq (.lookup s.dirfh fname) s
  | .read => some (rpcReq (.read s.filefh s.nfsOffset s.nfsLen) s)
  | .readlink => some (rpcReq (.readlink s.filefh) s)

/-- `rpc_pkt` after `memcpy (&rpc_pkt, pkt, len)`. -/
def rpcPkt (p : Packet) : Mem := fun i ↦ if i < p.len then p.data i else p.stack i

section Fields

variable (r : Mem)

def replyId : ℕ := load32 r 0

def rstatus : ℕ := load32 r 8

def verifier : ℕ := load32 r 12

def astatus : ℕ := load32 r 20

def replyData (i : ℕ) : ℕ := load32 r (24 + 4 * i)

end Fields

/-- `rpc_lookup_reply`; the replies return `none` for -1. -/
def rpcLookupReply (prog : Prog) (r : Mem) (s : Client) : Option Client :=
  if replyId r ≠ s.rpcId then none
  else if rstatus r ≠ 0 ∨ verifier r ≠ 0 ∨ astatus r ≠ 0 then none
  else some <| match prog with
    | .mount => { s with nfsSrvMountPort := replyData r 0 }
    | .nfs => { s with nfsSrvNfsPort := replyData r 0 }

def nfsMountReply (r : Mem) (s : Client) : Option Client :=
  if replyId r ≠ s.rpcId then none
  else if rstatus r ≠ 0 ∨ verifier r ≠ 0 ∨ astatus r ≠ 0 ∨ replyData r 0 ≠ 0 then none
  else some { s with fsMounted := true, dirfh := bytes r 28 nfsFhsize }

def nfsUmountallReply (r : Mem) (s : Client) : Option Client :=
  if replyId r ≠ s.rpcId then none
  else if rstatus r ≠ 0 ∨ verifier r ≠ 0 ∨ astatus r ≠ 0 then none
  else some { s with fsMounted := false, dirfh := List.replicate nfsFhsize 0 }

def nfsLookupReply (r : Mem) (s : Client) : Option Client :=
  if replyId r ≠ s.rpcId then none
  else if rstatus r ≠ 0 ∨ verifier r ≠ 0 ∨ astatus r ≠ 0 ∨ replyData r 0 ≠ 0 then none
  else some { s with filefh := bytes r 28 nfsFhsize }

/-- `memcpy` into a buffer. -/
def write (buff : List UInt8) (off : ℕ) (src : List UInt8) : Option (List UInt8) :=
  if off + src.length ≤ buff.length then
    some (buff.take off ++ src ++ buff.drop (off + src.length))
  else none

/-- The path behind a link: a relative target goes behind the directory, and its NUL one byte further
than the text. -/
def readlinkPath (buff target : List UInt8) (c : UInt8) : Option (List UInt8) := do
  if c ≠ 0x2f then
    let path ← load buff
    let (buff, pathlen) ← Lib.CString.store buff path.length (ascii "/")
    let buff ← write buff pathlen target
    poke buff (pathlen + target.length + 1) 0
  else
    let buff ← write buff 0 target
    poke buff target.length 0

/-- The outer `none` is a path that does not fit. -/
def nfsReadlinkReply (r : Mem) (s : Client) : Option (Option Client) :=
  if replyId r ≠ s.rpcId then some none
  else if rstatus r ≠ 0 ∨ verifier r ≠ 0 ∨ astatus r ≠ 0 ∨ replyData r 0 ≠ 0 then some none
  else do
    let buff ← readlinkPath s.nfsPathBuff (bytes r 32 (replyData r 1)) (r 32)
    return some { s with nfsPathBuff := buff }

/-- `nfs_read_reply`, which copies the header from the packet whatever its length is. -/
def nfsReadReply (loadAddr : ℕ) (p : Packet) (s : Client) : ℤ × Client :=
  let r := p.data
  if replyId r ≠ s.rpcId then (-1, s)
  else if rstatus r ≠ 0 ∨ verifier r ≠ 0 ∨ astatus r ≠ 0 ∨ replyData r 0 ≠ 0 then
    if rstatus r ≠ 0 ∨ astatus r ≠ 0 then (-9999, s)
    else (Int.bmod (-(replyData r 0 : ℤ)) 4294967296, s)
  else
    (Int.bmod (replyData r 18) 4294967296,
      storeBlock loadAddr (bytes r 100 (replyData r 18)) s.nfsOffset s)

def nfsTimeout (s : Client) : Client := { s with netState := .fail }

section Handler

/-- `STATE_PRCLOOKUP_PROG_MOUNT_REQ` and `STATE_PRCLOOKUP_PROG_NFS_REQ`: what the reply is does not
matter. -/
def portReplied (prog : Prog) (next : NfsState) (p : Packet) (s : Client) : Option Client :=
  nfsSend { (rpcLookupReply prog (rpcPkt p) s).getD s with nfsState := next }

def mountReplied (p : Packet) (s : Client) : Option Client :=
  (nfsMountReply (rpcPkt p) s).elim (nfsSend { s with nfsState := .umount })
    fun s ↦ nfsSend { s with nfsState := .lookup }

def umountReplied (p : Packet) (s : Client) : Option Client :=
  (nfsUmountallReply (rpcPkt p) s).elim (some { s with netState := .fail })
    fun s ↦ some { s with netState := s.nfsDownloadState }

def lookupReplied (p : Packet) (s : Client) : Option Client :=
  (nfsLookupReply (rpcPkt p) s).elim (nfsSend { s with nfsState := .umount })
    fun s ↦ nfsSend { s with nfsState := .read, nfsOffset := 0, nfsLen := nfsReadSize }

def readlinkReplied (p : Packet) (s : Client) : Option Client := do
  let reply ← nfsReadlinkReply (rpcPkt p) s
  reply.elim (nfsSend { s with nfsState := .umount }) fun s ↦ do
    let (buff, fname) ← splitPath s.nfsPathBuff
    nfsSend { s with nfsState := .mount, nfsPathBuff := buff, nfsFilename := fname }

def readReplied (loadAddr : ℕ) (p : Packet) (s : Client) : Option Client :=
  let rlen := (nfsReadReply loadAddr p s).1
  let s := (nfsReadReply loadAddr p s).2
  if 0 < rlen then nfsSend { s with nfsOffset := (s.nfsOffset + rlen.toNat) % 4294967296 }
  else if rlen = -nfserrIsdir ∨ rlen = -nfserrInval then
    nfsSend { s with nfsState := .readlink }
  else if rlen = 0 then nfsSend { s with nfsState := .umount, nfsDownloadState := .success }
  else nfsSend { s with nfsState := .umount }

/-- `NfsHandler`, with one function for each case of its `switch`. -/
def nfsHandler (loadAddr : ℕ) (p : Packet) (s : Client) : Option Client :=
  if p.dest ≠ nfsOurPort then some s
  else match s.nfsState with
    | .prclookupProgMount => portReplied .mount .prclookupProgNfs p s
    | .prclookupProgNfs => portReplied .nfs .mount p s
    | .mount => mountReplied p s
    | .umount => umountReplied p s
    | .lookup => lookupReplied p s
    | .readlink => readlinkReplied p s
    | .read => readReplied loadAddr p s

end Handler

/-- The name that is used when there is no boot file. -/
def defaultFilename (netOurIP : ℕ) : CStr :=
  ascii "/nfsroot/" ++ numberHex 2 (netOurIP % 256) ++ numberHex 2 (netOurIP / 256 % 256) ++
    numberHex 2 (netOurIP / 65536 % 256) ++ numberHex 2 (netOurIP / 16777216 % 256) ++ ascii ".img"

/-- The path in `BootFile`: what is behind a colon, which ends the address of the server. -/
def startPath (bootFile : CStr) (netOurIP : ℕ) : CStr :=
  if first bootFile = 0 then defaultFilename netOurIP
  else if 0x3a ∈ bootFile then (bootFile.dropWhile (· != 0x3a)).drop 1
  else bootFile

/-- `NfsStart`, from whatever an earlier transfer has left; `NetLoop` has cleared the size. -/
def nfsStart (bootFile : CStr) (netOurIP : ℕ) (s : Client) : Option Client := do
  let (buff, _) ← Lib.CString.store s.nfsPathBuff 0 (startPath bootFile netOurIP)
  let (buff, fname) ← splitPath buff
  nfsSend { s with
    nfsDownloadState := .fail
    nfsPathBuff := buff
    nfsFilename := fname
    nfsState := .prclookupProgMount
    netState := .cont
    netBootFileXferSize := 0 }

end UBoot.Net.Nfs
