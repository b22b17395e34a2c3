import Xv6Filter.Fs.Types

namespace Xv6Filter.Fs
open Lib Function

/-- `balloc`: the first free block, marked and zeroed; 0 when there is none. -/
def balloc (fs : Fs) : Nat × Fs :=
  match (List.range fs.sb.size).find? (fun b => !fs.used b) with
  | none => (0, fs)
  | some b =>
    (b, (((fs.setUsed b true).logWrite (fs.bblock b)).setData b (fun _ => 0)).logWrite b)

def bfree (fs : Fs) (b : Nat) : Kern Fs :=
  if fs.used b = false then .error (.panic .freeingFreeBlock)
  else .ok ((fs.setUsed b false).logWrite (fs.bblock b))

def iupdate (fs : Fs) (ip : Ip) : Fs :=
  (fs.setDinode (fs.inode ip).inum (fs.inode ip).din).logWrite (fs.iblock (fs.inode ip).inum)

def iget (fs : Fs) (dev inum : Nat) : Kern (Ip × Fs) :=
  match (List.finRange ninode).find? (fun ip =>
      decide (0 < (fs.inode ip).ref ∧ (fs.inode ip).dev = dev ∧ (fs.inode ip).inum = inum)) with
  | some ip => .ok (ip, fs.setInode ip { fs.inode ip with ref := (fs.inode ip).ref + 1 })
  | none =>
    match (List.finRange ninode).find? (fun ip => decide ((fs.inode ip).ref = 0)) with
    | some ip => .ok (ip, fs.setInode ip
        { fs.inode ip with dev := dev, inum := inum, ref := 1, valid := false })
    | none => .error (.panic .igetNoInodes)

def idup (fs : Fs) (ip : Ip) : Fs :=
  fs.setInode ip { fs.inode ip with ref := (fs.inode ip).ref + 1 }

/-- `ialloc`: mark the first free inode with the type and reference it. -/
def ialloc (fs : Fs) (dev : Nat) (type : Short) : Kern (Option Ip × Fs) :=
  match ((List.range fs.sb.ninodes).drop 1).find? (fun n => decide ((fs.dinode n).type = tFree)) with
  | none => .ok (none, fs)
  | some n =>
    let fs := (fs.setDinode n { Dinode.zero with type := type }).logWrite (fs.iblock n)
    match fs.iget dev n with
    | .error why => .error why
    | .ok (ip, fs) => .ok (some ip, fs)

def ilock (fs : Fs) (ip : Ip) : Kern Fs :=
  let i := fs.inode ip
  if i.ref < 1 then .error (.panic .ilock)
  else if i.locked then .error .blocked
  else if i.valid then .ok (fs.setInode ip { i with locked := true })
  else if (fs.dinode i.inum).type = tFree then .error (.panic .ilockNoType)
  else .ok (fs.setInode ip { i with locked := true, valid := true, din := fs.dinode i.inum })

def iunlock (fs : Fs) (ip : Ip) : Kern Fs :=
  if (fs.inode ip).locked = false ∨ (fs.inode ip).ref < 1 then .error (.panic .iunlock)
  else .ok (fs.setInode ip { fs.inode ip with locked := false })

def itruncDirect (ip : Ip) (fs : Fs) (i : Nat) : Kern Fs :=
  let d := (fs.inode ip).din
  if d.addrs i = 0 then .ok fs
  else match fs.bfree (d.addrs i) with
    | .error why => .error why
    | .ok fs => .ok (fs.setDin ip { d with addrs := update d.addrs i 0 })

/-- One turn of the indirect loop in `itrunc`, over the entries of block `a`. -/
def itruncIndirect (a : Block) (fs : Fs) (j : Nat) : Kern Fs :=
  if word a j = 0 then .ok fs else fs.bfree (word a j)

def itrunc (fs : Fs) (ip : Ip) : Kern Fs := do
  let fs ← (List.range ndirect).foldlM (itruncDirect ip) fs
  let ind := (fs.inode ip).din.addrs ndirect
  let fs ← if ind = 0 then pure fs else do
    let fs ← (List.range nindirect).foldlM (itruncIndirect (fs.data ind)) fs
    let fs ← fs.bfree ind
    let d := (fs.inode ip).din
    pure (fs.setDin ip { d with addrs := update d.addrs ndirect 0 })
  pure ((fs.setDin ip { (fs.inode ip).din with size := 0 }).iupdate ip)

/-- `iput`: drop a reference; the last one to an inode without links frees it. -/
def iput (fs : Fs) (ip : Ip) : Kern Fs := do
  let i := fs.inode ip
  let fs ← if i.ref = 1 ∧ i.valid = true ∧ i.din.nlink = 0 then do
      if i.locked then throw .blocked
      let fs ← fs.itrunc ip
      let fs := (fs.setDin ip { (fs.inode ip).din with type := tFree }).iupdate ip
      pure (fs.setInode ip { fs.inode ip with valid := false })
    else pure fs
  pure (fs.setInode ip { fs.inode ip with ref := (fs.inode ip).ref - 1 })

def iunlockput (fs : Fs) (ip : Ip) : Kern Fs := do
  let fs ← fs.iunlock ip
  fs.iput ip

/-- The indirect half of `bmap`: entry `bn` of the block at `addr`. -/
def bmapIndirect (fs : Fs) (addr bn : Nat) : Nat × Fs :=
  let a := word (fs.data addr) bn
  if a = 0 then
    let (b, fs) := fs.balloc
    if b = 0 then (0, fs)
    else (b, (fs.setData addr (setWord (fs.data addr) bn b)).logWrite addr)
  else (a, fs)

/-- The disk block behind index `i` of `addrs`, allocated if it is missing. -/
def bmapDirect (fs : Fs) (ip : Ip) (i : Nat) : Nat × Fs :=
  let d := (fs.inode ip).din
  if d.addrs i = 0 then
    let (addr, fs) := fs.balloc
    if addr = 0 then (0, fs)
    else (addr, fs.setDin ip { d with addrs := update d.addrs i addr })
  else (d.addrs i, fs)

/-- `bmap`: the address of the `bn`th block, allocating if there is none; 0 if out of space. -/
def bmap (fs : Fs) (ip : Ip) (bn : Nat) : Kern (Nat × Fs) :=
  if bn < ndirect then .ok (fs.bmapDirect ip bn)
  else if bn - ndirect < nindirect then
    let (addr, fs) := fs.bmapDirect ip ndirect
    if addr = 0 then .ok (0, fs) else .ok (fs.bmapIndirect addr (bn - ndirect))
  else .error (.panic .bmapOutOfRange)

section Content

variable {M : Type}

/-- The loop of `readi`. `copyout mem tot bytes` is `either_copyout` to the
destination advanced by `tot`; it gives back the memory and whether it succeeded. -/
def readiLoop (copyout : M → Nat → List Byte → M × Bool) (ip : Ip) :
    Nat → Fs → M → Nat → Nat → Nat → Kern (Int × M × Fs)
  | 0, fs, mem, _, tot, _ => .ok (tot, mem, fs)
  | rounds + 1, fs, mem, off, tot, n =>
    if n ≤ tot then .ok (tot, mem, fs)
    else match fs.bmap ip (off / bsize) with
      | .error why => .error why
      | .ok (addr, fs) =>
        if addr = 0 then .ok (tot, mem, fs)
        else
          let m := min (n - tot) (bsize - off % bsize)
          match copyout mem tot (slice (fs.data addr) (off % bsize) m) with
          | (mem, false) => .ok (-1, mem, fs)
          | (mem, true) => readiLoop copyout ip rounds fs mem (off + m) (tot + m) n

def readi (copyout : M → Nat → List Byte → M × Bool) (fs : Fs) (mem : M) (ip : Ip)
    (off n : Nat) : Kern (Int × M × Fs) :=
  let size := (fs.inode ip).din.size
  if size < off ∨ (off + n) % 2 ^ 32 < off then .ok (0, mem, fs)
  else
    let n := if size < off + n then size - off else n
    readiLoop copyout ip n fs mem off 0 n

/-- The loop of `writei`, with the offset it reached. `copyin mem tot m` is
`either_copyin` of `m` bytes from the source advanced by `tot`: what arrived in
the buffer, which is only a first part when it fails. -/
def writeiLoop (copyin : M → Nat → Nat → M × List Byte × Bool) (ip : Ip) :
    Nat → Fs → M → Nat → Nat → Nat → Kern (Nat × Nat × M × Fs)
  | 0, fs, mem, off, tot, _ => .ok (tot, off, mem, fs)
  | rounds + 1, fs, mem, off, tot, n =>
    if n ≤ tot then .ok (tot, off, mem, fs)
    else match fs.bmap ip (off / bsize) with
      | .error why => .error why
      | .ok (addr, fs) =>
        if addr = 0 then .ok (tot, off, mem, fs)
        else
          let m := min (n - tot) (bsize - off % bsize)
          match copyin mem tot m with
          | (mem, xs, ok) =>
            let fs := fs.setData addr (splice (fs.data addr) (off % bsize) xs)
            if ok then writeiLoop copyin ip rounds (fs.logWrite addr) mem (off + m) (tot + m) n
            else .ok (tot, off, mem, fs)

def writei (copyin : M → Nat → Nat → M × List Byte × Bool) (fs : Fs) (mem : M) (ip : Ip)
    (off n : Nat) : Kern (Int × M × Fs) :=
  if (fs.inode ip).din.size < off ∨ (off + n) % 2 ^ 32 < off then .ok (-1, mem, fs)
  else if maxfile * bsize < (off + n) % 2 ^ 32 then .ok (-1, mem, fs)
  else match writeiLoop copyin ip n fs mem off 0 n with
    | .error why => .error why
    | .ok (tot, off, mem, fs) =>
      let d := (fs.inode ip).din
      let fs := if d.size < off then fs.setDin ip { d with size := off } else fs
      .ok (tot, mem, fs.iupdate ip)

end Content

def readiKernel (fs : Fs) (ip : Ip) (off n : Nat) : Kern (Int × List Byte × Fs) :=
  readi (fun mem _ bs => (mem ++ bs, true)) fs [] ip off n

def writeiKernel (fs : Fs) (ip : Ip) (src : List Byte) (off : Nat) : Kern (Int × Fs) :=
  match writei (fun (_ : Unit) tot m => ((), (src.drop tot).take m, true)) fs () ip off src.length with
  | .error why => .error why
  | .ok (r, _, fs) => .ok (r, fs)

end Xv6Filter.Fs
