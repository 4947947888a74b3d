import UBoot.Lib.StringTable

namespace UBoot.Common.FtBuild

open Lib.CString Lib.Memory Lib.StringTable

/-- `_ALIGN(addr,size)`. -/
def align (addr size : ℕ) : ℕ := (addr + size - 1) / size * size

def ofDtHeader : ℕ := 0xd00dfeed

def ofDtBeginNode : ℕ := 1

def ofDtEndNode : ℕ := 2

def ofDtProp : ℕ := 3

def ofDtNop : ℕ := 4

def ofDtEnd : ℕ := 9

def enomem : ℤ := 12

def einval : ℤ := 22

/-- `struct ft_cxt`, with the memory its pointers go into. -/
structure FtCxt where
  mem : Mem
  bph : ℕ
  maxSize : ℕ
  overflow : Bool
  p : ℕ
  pstr : ℕ
  pres : ℕ
  pBegin : ℕ
  pstrBegin : ℕ
  presBegin : ℕ
  pAnchor : ℕ
  structSize : ℕ
  stringsSize : ℕ
  resSize : ℕ

def ftPutWord (cxt : FtCxt) (v : ℕ) : FtCxt :=
  if cxt.overflow then cxt
  else if cxt.pstr < cxt.p + 4 then { cxt with overflow := true }
  else { cxt with mem := store cxt.mem cxt.p (be32 v), p := cxt.p + 4 }

def ftPutBin (cxt : FtCxt) (data : List UInt8) : FtCxt :=
  let sz := data.length
  let p := align (cxt.p + sz) 4
  if cxt.overflow then cxt
  else if cxt.pstr < p then { cxt with overflow := true }
  else
    let mem := store cxt.mem cxt.p data
    let mem :=
      if sz % 4 ≠ 0 then store mem (cxt.p + sz) (List.replicate (4 - sz % 4) 0) else mem
    { cxt with mem, p }

def ftBeginNode (cxt : FtCxt) (name : CStr) : FtCxt :=
  ftPutBin (ftPutWord cxt ofDtBeginNode) (name ++ [0])

def ftEndNode (cxt : FtCxt) : FtCxt := ftPutWord cxt ofDtEndNode

def ftNop (cxt : FtCxt) : FtCxt := ftPutWord cxt ofDtNop

/-- The loop of `lookup_string`; `fuel` bounds the bytes of the table that are left. -/
def lookupLoop (cxt : FtCxt) (name : CStr) : ℕ → ℕ → Option (Option ℕ)
  | 0, _ => some none
  | fuel + 1, p =>
    if p < cxt.pstrBegin then do
      let s ← stringAt cxt.mem p
      if s = name then some (some (p - cxt.pBegin))
      else lookupLoop cxt name fuel (p + (s.length + 1))
    else some none

/-- The offset, or `none` for `-1`. -/
def lookupString (cxt : FtCxt) (name : CStr) : Option (Option ℕ) :=
  lookupLoop cxt name (cxt.pstrBegin - cxt.pstr) cxt.pstr

/-- The end of `ft_prop`. -/
def putProp (cxt : FtCxt) (off : ℕ) (data : List UInt8) : FtCxt :=
  ftPutBin (ftPutWord (ftPutWord (ftPutWord cxt ofDtProp) data.length) off) data

def ftProp (cxt : FtCxt) (name : CStr) (data : List UInt8) : Option FtCxt :=
  if cxt.overflow then some cxt
  else do
    let len := name.length + 1
    match ← lookupString cxt name with
    | some off => some (putProp cxt off data)
    | none =>
      if cxt.pstr < cxt.p + 12 + data.length + len then some { cxt with overflow := true }
      else
        let pstr := cxt.pstr - len
        let cxt := { cxt with pstr, mem := store cxt.mem pstr (name ++ [0]) }
        some (putProp cxt (pstr - cxt.pBegin) data)

def ftBegin (mem : Mem) (blob maxSize : ℕ) : FtCxt :=
  let presBegin := align (blob + 36) 8
  let header := [ofDtHeader, 0, 0, 0, presBegin - blob, 0x10, 0x10, 0, 0].flatMap be32
  { mem := store (store mem blob header) presBegin (List.replicate 16 0)
    bph := blob
    maxSize
    overflow := false
    p := 0
    pstr := 0
    pres := presBegin
    pBegin := 0
    pstrBegin := 0
    presBegin
    pAnchor := presBegin + 16
    structSize := 0
    stringsSize := 0
    resSize := 0 }

def be64 (n : ℕ) : List UInt8 := be32 (n / 4294967296) ++ be32 n

def ftAddRsvmap (cxt : FtCxt) (physaddr size : ℕ) : FtCxt :=
  let pres := cxt.pres + 16
  let mem := store cxt.mem cxt.pres (be64 physaddr ++ be64 size)
  { cxt with
    mem := store mem pres (List.replicate 16 0)
    pres
    resSize := pres + 16 - cxt.presBegin
    pAnchor := pres + 16 }

def ftBeginTree (cxt : FtCxt) : FtCxt :=
  { cxt with
    pBegin := cxt.pAnchor
    pstrBegin := cxt.bph + cxt.maxSize
    p := cxt.pAnchor
    pstr := cxt.bph + cxt.maxSize }

/-- The fixup of the strings in `ft_end_tree`. -/
def fixupLoop (off : ℕ) : ℕ → Mem → ℕ → Option (ℤ × Mem)
  | 0, _, _ => none
  | fuel + 1, mem, p =>
    let tag := load32 mem p
    if tag = ofDtEnd then some (0, mem)
    else if tag = ofDtBeginNode then do
      let n ← strlenAt mem (p + 4)
      fixupLoop off fuel mem (align (p + 4 + n + 1) 4)
    else if tag = ofDtEndNode ∨ tag = ofDtNop then fixupLoop off fuel mem (p + 4)
    else if tag ≠ ofDtProp then some (-einval, mem)
    else
      let sz := load32 mem (p + 4)
      let v := (load32 mem (p + 8) + 4294967296 - off) % 4294967296
      fixupLoop off fuel (store mem (p + 8) (be32 v)) (align (p + 12 + sz) 4)

def ftEndTree (cxt : FtCxt) : Option (ℤ × FtCxt) :=
  let cxt := ftPutWord cxt ofDtEnd
  if cxt.overflow then some (-enomem, cxt)
  else do
    let structSize := cxt.p - cxt.pBegin
    let stringsSize := cxt.pstrBegin - cxt.pstr
    let off := cxt.pstrBegin - cxt.pBegin - stringsSize
    let pstrBegin := cxt.pBegin + structSize
    let mem := store cxt.mem pstrBegin (bytes cxt.mem cxt.pstr stringsSize)
    let (rc, mem) ← fixupLoop off (4294967296 - cxt.pBegin) mem cxt.pBegin
    let cxt := { cxt with mem, structSize, stringsSize, pstrBegin }
    if rc ≠ 0 then some (rc, cxt)
    else
      let sz := pstrBegin + stringsSize - cxt.bph
      let sz1 := align sz 16
      let mem := store mem (cxt.bph + sz) (List.replicate (sz1 - sz) 0)
      -- `totalsize`, `off_dt_struct` and `off_dt_strings`
      let mem := store mem (cxt.bph + 4)
        (be32 sz1 ++ (be32 (cxt.pBegin - cxt.bph) ++ be32 (pstrBegin - cxt.bph)))
      some (0, { cxt with mem, pstr := pstrBegin + stringsSize })

/-- The loop of `ft_merge_blob`. -/
def mergeLoop (pStrings : ℕ) : ℕ → FtCxt → ℤ → ℕ → Option FtCxt
  | 0, _, _, _ => none
  | fuel + 1, cxt, depth, p =>
    let tag := load32 cxt.mem p
    if tag = ofDtEnd then some cxt
    else if tag = ofDtBeginNode then do
      let s ← stringAt cxt.mem (p + 4)
      let cxt := if 0 < depth then ftBeginNode cxt s else cxt
      mergeLoop pStrings fuel cxt (depth + 1) (align (p + 4 + s.length + 1) 4)
    else if tag = ofDtEndNode then
      let cxt := ftEndNode cxt
      if depth - 1 = 0 then some cxt else mergeLoop pStrings fuel cxt (depth - 1) (p + 4)
    else if tag = ofDtNop then mergeLoop pStrings fuel cxt depth (p + 4)
    else if tag ≠ ofDtProp then some cxt
    else do
      let sz := load32 cxt.mem (p + 4)
      let s ← stringAt cxt.mem (pStrings + load32 cxt.mem (p + 8))
      let t := p + 12
      let cxt ← ftProp cxt s (bytes cxt.mem t sz)
      mergeLoop pStrings fuel cxt depth (align (t + sz) 4)

def ftMergeBlob (cxt : FtCxt) (blob : ℕ) : Option FtCxt :=
  let pStruct := blob + load32 cxt.mem (blob + 8)
  let pStrings := blob + load32 cxt.mem (blob + 12)
  if load32 cxt.mem (cxt.p - 4) ≠ ofDtEndNode then some cxt
  else mergeLoop pStrings (4294967296 - pStruct) { cxt with p := cxt.p - 4 } 0 pStruct

def ftBacktrackNode (cxt : FtCxt) : FtCxt :=
  if load32 cxt.mem (cxt.p - 4) ≠ ofDtEndNode then cxt else { cxt with p := cxt.p - 4 }

def slash : UInt8 := 0x2f

/-- `strcat` into an array of `size` bytes; `none` is a store outside it. -/
def strcat (size : ℕ) (s t : CStr) : Option CStr :=
  if (s ++ t).length < size then some (s ++ t) else none

/-- The last `c` and what is in front of it; all of `s` without a `c`. -/
def strrchr (s : CStr) (c : UInt8) : Option ℕ :=
  (strchr s.reverse c).map fun i ↦ s.length - 1 - i

/-- `path` when a node ends. -/
def leavePath (path : CStr) : CStr :=
  let path := path.dropLast
  match strrchr path slash with
  | some ss => path.take (ss + 1)
  | none => path

/-- The loop of `ft_get_prop`; `none` is a store outside `path` or `prop`. -/
def getPropLoop (m : Mem) (pStrings version : ℕ) (propname : CStr) :
    ℕ → CStr → ℕ → Option (Option (ℕ × ℕ))
  | 0, _, _ => none
  | fuel + 1, path, p =>
    let tag := load32 m p
    if tag = ofDtEnd then some none
    else if tag = ofDtBeginNode then do
      let s ← stringAt m (p + 4)
      let path ← strcat 256 path s
      let path ← strcat 256 path [slash]
      getPropLoop m pStrings version propname fuel path (align (p + 4 + s.length + 1) 4)
    else if tag = ofDtEndNode then
      if path = [] then none
      else getPropLoop m pStrings version propname fuel (leavePath path) (p + 4)
    else if tag = ofDtNop then getPropLoop m pStrings version propname fuel path (p + 4)
    else if tag ≠ ofDtProp then some none
    else do
      let sz := load32 m (p + 4)
      let s ← stringAt m (pStrings + load32 m (p + 8))
      let t := if version < 0x10 ∧ 8 ≤ sz ∧ sz < 2147483648 then align (p + 12) 8 else p + 12
      let prop ← strcat 256 path s
      if prop = propname then some (some (t, sz))
      else getPropLoop m pStrings version propname fuel path (align (t + sz) 4)

/-- The address of the data and `*szp`. -/
def ftGetProp (m : Mem) (bphp : ℕ) (propname : CStr) : Option (Option (ℕ × ℕ)) :=
  let pStruct := bphp + load32 m (bphp + 8)
  let pStrings := bphp + load32 m (bphp + 12)
  getPropLoop m pStrings (load32 m (bphp + 20)) propname (4294967296 - pStruct) [] pStruct

inductive FtCall where
  | beginNode (name : CStr)
  | endNode
  | nop
  | prop (name : CStr) (data : List UInt8)

def FtCxt.call (cxt : FtCxt) : FtCall → Option FtCxt
  | .beginNode name => some (ftBeginNode cxt name)
  | .endNode => some (ftEndNode cxt)
  | .nop => some (ftNop cxt)
  | .prop name data => ftProp cxt name data

/-- A tree as it is asked for: the buffer, the reserved areas and the calls. -/
structure Tree where
  blob : ℕ
  maxSize : ℕ
  rsvmap : List (ℕ × ℕ)
  calls : List FtCall

/-- The calls up to the last one before `ft_end_tree`. -/
def Tree.opened (m : Mem) (t : Tree) : FtCxt :=
  ftBeginTree (t.rsvmap.foldl (fun cxt r ↦ ftAddRsvmap cxt r.1 r.2) (ftBegin m t.blob t.maxSize))

def Tree.built (m : Mem) (t : Tree) : Option FtCxt := t.calls.foldlM FtCxt.call (t.opened m)

def Tree.finished (m : Mem) (t : Tree) : Option (ℤ × FtCxt) := t.built m >>= ftEndTree

/-- With another blob merged at the end. -/
def Tree.merged (m : Mem) (t : Tree) (blob : ℕ) : Option (ℤ × FtCxt) := do
  let cxt ← t.built m
  let cxt ← ftMergeBlob cxt blob
  ftEndTree cxt

end UBoot.Common.FtBuild
