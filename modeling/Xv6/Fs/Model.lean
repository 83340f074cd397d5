import Xv6.Lib.Prog
import Xv6.Fs.Layout

/-! Blocks, inodes and file contents: `fs.c` above the buffer cache.
`view` is the disk as `bread` shows it.  A store into a buffer changes the view at
once, whether or not the block is then passed to `log_write`. -/
namespace Xv6
namespace Fs

abbrev NINODE : ℕ := 50

instance : NeZero NINODE := ⟨by decide⟩

/-- Why an operation does not return: a `panic`; `deadlock`, a sleep lock its caller holds
already; `sleeps`, an event that only another process can bring about; `misuse`, an inode used without its lock, as a directory when it is none, or
through a null pointer. -/
inductive Panic
  | freeingFreeBlock | bmapRange | noInodes | noType | ilock | iunlock
  | dirlookupNotDir | dirlookupRead | dirlinkRead | isdirempty | unlinkNlink | unlinkWritei
  | filedup | fileclose | fileread | filewrite | initExiting
  | deadlock | sleeps | misuse
deriving DecidableEq, Repr

/-- `struct inode`; there is one device. -/
structure Inode where
  inum : ℕ
  ref : ℕ
  locked : Bool
  valid : Bool
  d : Dinode

structure State where
  view : ℕ → Block
  /-- Arguments of `log_write`, oldest first. -/
  logged : List ℕ
  itable : Fin NINODE → Inode

abbrev Op := Prog Panic State

def bread (b : ℕ) : Op Block := fun s => .ok (s.view b,s)

/-- Change the data of the buffer of block `b`. -/
def bstore (b : ℕ) (x : Block) : Op Unit := fun s =>
  .ok ((),{ s with view := Function.update s.view b x })

def logWrite (b : ℕ) : Op Unit := fun s => .ok ((),{ s with logged := s.logged ++ [b] })

def inode (ip : Fin NINODE) : Op Inode := fun s => .ok (s.itable ip,s)

def setInode (ip : Fin NINODE) (x : Inode) : Op Unit := fun s =>
  .ok ((),{ s with itable := Function.update s.itable ip x })

/-- Change the fields of `ip` that live on disk. -/
def setDinode (ip : Fin NINODE) (f : Dinode → Dinode) : Op Unit := do
  let x ← inode ip
  setInode ip { x with d := f x.d }

variable (sb : Superblock)

def bzero (bno : ℕ) : Op Unit := do
  bstore bno (Bytes.zero BSIZE)
  logWrite bno

/-- The inner loop of `balloc`: the first clear bit of the group that starts at block `b`. -/
def clearBitFrom (x : Block) (b : ℕ) : Option ℕ :=
  (List.range (min BPB (sb.size - b))).find? fun bi => !x.testBit bi

/-- The outer loop of `balloc` from group `g` on. -/
def ballocFrom : ℕ → ℕ → Op ℕ
  | 0, _ => pure 0
  | fuel+1, g =>
    if g*BPB < sb.size then do
      let x ← bread (BBLOCK sb (g*BPB))
      match clearBitFrom sb x (g*BPB) with
      | some bi => do
        bstore (BBLOCK sb (g*BPB)) (x.setBit bi)
        logWrite (BBLOCK sb (g*BPB))
        bzero (g*BPB + bi)
        pure (g*BPB + bi)
      | none => ballocFrom fuel (g+1)
    else pure 0

/-- Zero when the disk is full. -/
def balloc : Op ℕ := ballocFrom sb (sb.size/BPB + 1) 0

def bfree (b : ℕ) : Op Unit := do
  let x ← bread (BBLOCK sb b)
  if x.testBit (b % BPB) then do
    bstore (BBLOCK sb b) (x.clearBit (b % BPB))
    logWrite (BBLOCK sb b)
  else throw .freeingFreeBlock

def iupdate (ip : Fin NINODE) : Op Unit := do
  let x ← inode ip
  let y ← bread (IBLOCK sb x.inum)
  bstore (IBLOCK sb x.inum) (x.d.write y (dinodeOff x.inum))
  logWrite (IBLOCK sb x.inum)

/-- The table entry in use for `inum`. -/
def State.findEntry (s : State) (inum : ℕ) : Option (Fin NINODE) :=
  (List.finRange NINODE).find? fun i => decide (0 < (s.itable i).ref ∧ (s.itable i).inum = inum)

/-- The first table entry not in use. -/
def State.emptyEntry (s : State) : Option (Fin NINODE) :=
  (List.finRange NINODE).find? fun i => decide ((s.itable i).ref = 0)

def iget (inum : ℕ) : Op (Fin NINODE) := do
  let s ← get
  match s.findEntry inum with
  | some i => do
    setInode i { s.itable i with ref := (s.itable i).ref + 1 }
    pure i
  | none =>
    match s.emptyEntry with
    | some i => do
      setInode i { s.itable i with inum := inum, ref := 1, valid := false }
      pure i
    | none => throw .noInodes

/-- The loop of `ialloc` over the inode numbers still to try. -/
def iallocFrom (type : ℕ) : List ℕ → Op (Option (Fin NINODE))
  | [] => pure none
  | inum::rest => do
    let x ← bread (IBLOCK sb inum)
    if (Dinode.read x (dinodeOff inum)).type = 0 then do
      bstore (IBLOCK sb inum) ({ Dinode.blank with type := type % 2^16 }.write x (dinodeOff inum))
      logWrite (IBLOCK sb inum)
      let ip ← iget inum
      pure (some ip)
    else iallocFrom type rest

def ialloc (type : ℕ) : Op (Option (Fin NINODE)) :=
  iallocFrom sb type (List.range' 1 (sb.ninodes - 1))

def idup (ip : Fin NINODE) : Op (Fin NINODE) := do
  let x ← inode ip
  setInode ip { x with ref := x.ref + 1 }
  pure ip

def ilock (ip : Fin NINODE) : Op Unit := do
  let x ← inode ip
  if x.ref < 1 then throw .ilock
  else if x.locked then throw .deadlock
  else if x.valid then setInode ip { x with locked := true }
  else do
    let y ← bread (IBLOCK sb x.inum)
    let d := Dinode.read y (dinodeOff x.inum)
    setInode ip { x with locked := true, valid := true, d := d }
    if d.type = 0 then throw .noType else pure ()

def iunlock (ip : Fin NINODE) : Op Unit := do
  let x ← inode ip
  if x.locked = false ∨ x.ref < 1 then throw .iunlock
  else setInode ip { x with locked := false }

/-- `ip->addrs[k]`, allocated first if it is zero. -/
def addrOrAlloc (ip : Fin NINODE) (k : ℕ) : Op ℕ := do
  let x ← inode ip
  if x.d.addr k = 0 then do
    let addr ← balloc sb
    if addr = 0 then pure 0
    else do
      setDinode ip fun d => d.setAddr k addr
      pure addr
  else pure (x.d.addr k)

/-- `a[j]` of the indirect block `ind`, allocated first if it is zero. -/
def entryOrAlloc (ind j : ℕ) : Op ℕ := do
  let x ← bread ind
  if x.getLE (4*j) 4 = 0 then do
    let addr ← balloc sb
    if addr = 0 then pure 0
    else do
      let x ← bread ind
      bstore ind (x.setLE (4*j) 4 addr)
      logWrite ind
      pure addr
  else pure (x.getLE (4*j) 4)

def bmap (ip : Fin NINODE) (bn : ℕ) : Op ℕ :=
  if bn < NDIRECT then addrOrAlloc sb ip bn
  else if bn - NDIRECT < NINDIRECT then do
    let addr ← addrOrAlloc sb ip NDIRECT
    if addr = 0 then pure 0 else entryOrAlloc sb addr (bn - NDIRECT)
  else throw .bmapRange

/-- One round of the first loop of `itrunc`. -/
def truncDirect (ip : Fin NINODE) (i : ℕ) : Op Unit := do
  let x ← inode ip
  if x.d.addr i ≠ 0 then do
    bfree sb (x.d.addr i)
    setDinode ip fun d => d.setAddr i 0
  else pure ()

/-- One round of the second loop of `itrunc`. -/
def truncEntry (ind j : ℕ) : Op Unit := do
  let x ← bread ind
  if x.getLE (4*j) 4 ≠ 0 then bfree sb (x.getLE (4*j) 4) else pure ()

def truncIndirect (ip : Fin NINODE) : Op Unit := do
  let x ← inode ip
  if x.d.addr NDIRECT ≠ 0 then do
    (List.range NINDIRECT).forM (truncEntry sb (x.d.addr NDIRECT))
    bfree sb (x.d.addr NDIRECT)
    setDinode ip fun d => d.setAddr NDIRECT 0
  else pure ()

def itrunc (ip : Fin NINODE) : Op Unit := do
  (List.range NDIRECT).forM (truncDirect sb ip)
  truncIndirect sb ip
  setDinode ip fun d => { d with size := 0 }
  iupdate sb ip

/-- The branch of `iput` for the last reference to an inode without links. -/
def iputFree (ip : Fin NINODE) : Op Unit := do
  itrunc sb ip
  setDinode ip fun d => { d with type := 0 }
  iupdate sb ip
  let x ← inode ip
  setInode ip { x with valid := false }

def iput (ip : Fin NINODE) : Op Unit := do
  let x ← inode ip
  (if x.ref = 1 ∧ x.valid = true ∧ x.d.nlink = 0 then
    if x.locked then throw .deadlock else iputFree sb ip
  else pure ())
  let x ← inode ip
  setInode ip { x with ref := x.ref - 1 }

/-- The length of the next transfer of `readi` and `writei`. -/
def chunk (n tot off : ℕ) : ℕ := min (n - tot) (BSIZE - off % BSIZE)

/-- The loop of `readi`; `copyout` says which transfers to the destination succeed and
`acc` collects the bytes delivered. -/
def readLoop (ip : Fin NINODE) (copyout : ℕ → List UInt8 → Bool) (n : ℕ) :
    ℕ → ℕ → ℕ → List UInt8 → Op (ℤ × List UInt8)
  | 0, tot, _, acc => pure (tot,acc)
  | fuel+1, tot, off, acc =>
    if tot < n then do
      let addr ← bmap sb ip (off/BSIZE)
      if addr = 0 then pure (tot,acc)
      else do
        let x ← bread addr
        let xs := x.slice (off % BSIZE) (chunk n tot off)
        if copyout tot xs then
          readLoop ip copyout n fuel (tot + chunk n tot off) (off + chunk n tot off) (acc ++ xs)
        else pure (-1,acc)
    else pure (tot,acc)

/-- Return value and bytes delivered.  Every transfer moves at least one byte, so `n`
rounds are enough. -/
def readi (ip : Fin NINODE) (copyout : ℕ → List UInt8 → Bool) (off n : ℕ) :
    Op (ℤ × List UInt8) := do
  let x ← inode ip
  if x.d.size < off ∨ (off + n) % 2^32 < off then pure (0,[])
  else
    let n := if x.d.size < off + n then x.d.size - off else n
    readLoop sb ip copyout n n 0 off []

/-- The loop of `writei`; returns `tot` and `off`.  `copyin tot m` is what the source
yields for the transfer of `m` bytes at `tot`: the bytes copied into the buffer and
whether the copy succeeded. -/
def writeLoop (ip : Fin NINODE) (copyin : ℕ → ℕ → List UInt8 × Bool) (n : ℕ) :
    ℕ → ℕ → ℕ → Op (ℕ × ℕ)
  | 0, tot, off => pure (tot,off)
  | fuel+1, tot, off =>
    if tot < n then do
      let addr ← bmap sb ip (off/BSIZE)
      if addr = 0 then pure (tot,off)
      else do
        let x ← bread addr
        bstore addr (x.splice (off % BSIZE) (copyin tot (chunk n tot off)).1)
        if (copyin tot (chunk n tot off)).2 then do
          logWrite addr
          writeLoop ip copyin n fuel (tot + chunk n tot off) (off + chunk n tot off)
        else pure (tot,off)
    else pure (tot,off)

def writei (ip : Fin NINODE) (copyin : ℕ → ℕ → List UInt8 × Bool) (off n : ℕ) : Op ℤ := do
  let x ← inode ip
  if x.d.size < off ∨ (off + n) % 2^32 < off then pure (-1)
  else if MAXFILE*BSIZE < (off + n) % 2^32 then pure (-1)
  else do
    let r ← writeLoop sb ip copyin n n 0 off
    setDinode ip fun d => { d with size := if d.size < r.2 then r.2 else d.size }
    iupdate sb ip
    pure r.1

end Fs
end Xv6
