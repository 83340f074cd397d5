import Xv6.Names.Disk

/-! `mkfs.c`: the host program that writes the initial disk image.
Blocks and inodes are handed out by two counters.  The host is little-endian, and its calls
fail only where the image file ends or a file cannot be opened: any other failure makes the
program exit with status 1 as well. -/
namespace Xv6
namespace Mkfs

open Fs (Superblock Dinode NDIRECT MAXFILE IPB BPB IBLOCK dinodeOff)
open Names (Str Dirent DIRSIZ ROOTINO T_DIR T_FILE slash dot dotdot)

abbrev FSSIZE : ℕ := 2000
abbrev NINODES : ℕ := 200
abbrev FSMAGIC : ℕ := 0x10203040

abbrev nbitmap : ℕ := FSSIZE/BPB + 1
abbrev ninodeblocks : ℕ := NINODES/IPB + 1
abbrev nlog : ℕ := LOGBLOCKS + 1

/-- The number of metadata blocks: boot, super, log, inode and bitmap blocks. -/
abbrev nmeta : ℕ := 2 + nlog + ninodeblocks + nbitmap

/-- The number of data blocks. -/
abbrev nblocks : ℕ := FSSIZE - nmeta

def sb : Superblock where
  size := FSSIZE
  ninodes := NINODES
  nlog := nlog
  logstart := 2
  inodestart := 2 + nlog
  bmapstart := 2 + nlog + ninodeblocks

/-- Why the program does not reach `exit(0)`: an assertion fails, a file cannot be opened, or
a read of the image comes back short. -/
inductive Stop
  | rootino | slashInName | nameTooLong | maxfile | bitmap
  | openFile (path : Str)
  | read
deriving DecidableEq, Repr

/-- The image file, `len` blocks long and zero behind its end, and the two counters.  Neither
counter gets near `2^32`: what they number has to lie inside the image. -/
structure Host where
  img : ℕ → Block
  len : ℕ
  freeinode : ℕ
  freeblock : ℕ

/-- The image has just been created or truncated. -/
def Host.start : Host := ⟨fun _ => Bytes.zero BSIZE,0,1,0⟩

abbrev Op := Prog Stop Host

/-- `sec*BSIZE` is a 32-bit product. -/
def sector (sec : ℕ) : ℕ := sec % 2^22

def rsect (sec : ℕ) : Op Block := fun h =>
  if sector sec < h.len then .ok (h.img (sector sec),h) else .error .read

def wsect (sec : ℕ) (buf : Block) : Op Unit := fun h =>
  .ok ((),{ h with
    img := Function.update h.img (sector sec) buf
    len := max h.len (sector sec + 1) })

def winode (inum : ℕ) (ip : Dinode) : Op Unit := do
  let buf ← rsect (IBLOCK sb inum)
  wsect (IBLOCK sb inum) (ip.write buf (dinodeOff inum))

def rinode (inum : ℕ) : Op Dinode := do
  let buf ← rsect (IBLOCK sb inum)
  pure (Dinode.read buf (dinodeOff inum))

/-- `freeinode++` -/
def takeInode : Op ℕ := fun h => .ok (h.freeinode,{ h with freeinode := h.freeinode + 1 })

/-- `freeblock++` -/
def takeBlock : Op ℕ := fun h => .ok (h.freeblock,{ h with freeblock := h.freeblock + 1 })

def ialloc (type : ℕ) : Op ℕ := do
  let inum ← takeInode
  winode inum { Dinode.blank with type := type, nlink := 1 }
  pure inum

/-- The bitmap block with the first `used` bits set. -/
def bitmapBlock (used : ℕ) : Block :=
  (List.range used).foldl (fun buf i => buf.setBit i) (Bytes.zero BSIZE)

def balloc (used : ℕ) : Op Unit :=
  if used < BPB then wsect sb.bmapstart (bitmapBlock used) else throw .bitmap

/-- `din.addrs[k]`, taken first if it is zero. -/
def addrOrTake (din : Dinode) (k : ℕ) : Op Dinode :=
  if din.addr k = 0 then do
    let b ← takeBlock
    pure (din.setAddr k b)
  else pure din

/-- Entry `j` of the indirect block `ind`, taken first if it is zero. -/
def entryOrTake (ind j : ℕ) : Op ℕ := do
  let indirect ← rsect ind
  if indirect.getLE (4*j) 4 = 0 then do
    let b ← takeBlock
    wsect ind (indirect.setLE (4*j) 4 b)
    pure b
  else pure (indirect.getLE (4*j) 4)

/-- The block `x` of file block `fbn`, and the inode that leads to it. -/
def blockFor (din : Dinode) (fbn : ℕ) : Op (ℕ × Dinode) :=
  if fbn < NDIRECT then do
    let din ← addrOrTake din fbn
    pure (din.addr fbn,din)
  else do
    let din ← addrOrTake din NDIRECT
    let x ← entryOrTake (din.addr NDIRECT) (fbn - NDIRECT)
    pure (x,din)

/-- The length `n1` of the next transfer of `iappend`. -/
def piece (n off : ℕ) : ℕ := min n ((off/BSIZE + 1)*BSIZE - off)

/-- The loop of `iappend` on the bytes still to write; the inode and the offset behind them.
Every round writes at least one byte. -/
def appendLoop : ℕ → Dinode → ℕ → List UInt8 → Op (Dinode × ℕ)
  | 0, din, off, _ => pure (din,off)
  | fuel+1, din, off, p =>
    if 0 < p.length then
      if off/BSIZE < MAXFILE then do
        let r ← blockFor din (off/BSIZE)
        let buf ← rsect r.1
        wsect r.1 (buf.splice (off - off/BSIZE*BSIZE) (p.take (piece p.length off)))
        appendLoop fuel r.2 (off + piece p.length off) (p.drop (piece p.length off))
      else throw .maxfile
    else pure (din,off)

def iappend (inum : ℕ) (xp : List UInt8) : Op Unit := do
  let din ← rinode inum
  let r ← appendLoop xp.length din din.size xp
  winode inum { r.1 with size := r.2 }

/-- `struct superblock` in its block. -/
def superBlock : Block :=
  (Bytes.zero BSIZE).setWords 0 [FSMAGIC,sb.size,nblocks,sb.ninodes,sb.nlog,sb.logstart,
    sb.inodestart,sb.bmapstart]

/-- Zero all blocks, then write the superblock. -/
@[irreducible] def format : Op Unit := do
  modify fun h => { h with freeblock := nmeta }
  (List.range FSSIZE).forM fun i => wsect i (Bytes.zero BSIZE)
  wsect 1 superBlock

/-- The root directory with its first two entries. -/
def mkroot : Op ℕ := do
  let rootino ← ialloc T_DIR
  if rootino ≠ ROOTINO then throw .rootino
  else do
    iappend rootino (Dirent.bytes ⟨rootino,dot⟩)
    iappend rootino (Dirent.bytes ⟨rootino,dotdot⟩)
    pure rootino

/-- A new file with its entry in the root directory. -/
def create (rootino : ℕ) (name : Str) : Op ℕ := do
  let inum ← ialloc T_FILE
  iappend rootino (Dirent.bytes ⟨inum,name⟩)
  pure inum

/-- A command line argument and what the host finds there: nothing to open, or what the calls
of `read` return before the first that returns no bytes. -/
structure HostFile where
  path : Str
  reads : Option (List (List UInt8))
  /-- The argument ends at its first NUL. -/
  nul : 0 ∉ path
  /-- `read` returns at least one byte and at most `sizeof(buf)`. -/
  size : ∀ cs ∈ reads, ∀ xs ∈ cs, 0 < xs.length ∧ xs.length ≤ BSIZE

/-- `"user/"` -/
def userDir : Str := [117,115,101,114,slash]

/-- `'_'` -/
abbrev underscore : UInt8 := 95

/-- The argument without `"user/"` in front. -/
def stripDir (argv : Str) : Str := if argv.take 5 = userDir then argv.drop 5 else argv

/-- The name without a leading `'_'`. -/
def stripMark (name : Str) : Str := if name.head? = some underscore then name.drop 1 else name

/-- The name a file gets in the image. -/
def HostFile.shortname (f : HostFile) : Str := stripMark (stripDir f.path)

/-- One round of the loop over the arguments. -/
def addFile (rootino : ℕ) (f : HostFile) : Op Unit :=
  if slash ∈ stripDir f.path then throw .slashInName
  else
    match f.reads with
    | none => throw (.openFile f.path)
    | some cs =>
      if f.shortname.length ≤ DIRSIZ then do
        let inum ← create rootino f.shortname
        cs.forM (iappend inum)
      else throw .nameTooLong

/-- Round the size of the root directory up. -/
def fixRoot (rootino : ℕ) : Op Unit := do
  let din ← rinode rootino
  winode rootino { din with size := (din.size/BSIZE + 1)*BSIZE }

/-- What is left to do after the last file. -/
def finish (rootino : ℕ) : Op Unit := do
  fixRoot rootino
  let h ← get
  balloc h.freeblock

/-- `main`, from the opened image on, for the arguments behind the image. -/
def main (files : List HostFile) : Op Unit := do
  format
  let rootino ← mkroot
  files.forM (addFile rootino)
  finish rootino

end Mkfs
end Xv6
