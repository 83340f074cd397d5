import Xv6.Lib.Free
import Xv6.Fs.Model

/-! Directories, paths, open files and the system calls on them: the directory and path
layer of `fs.c`, `file.c`, `pipe.c`, `sysfile.c`, and `kfork`, `kexit` and `kwait` of `proc.c`.
The code is written over the inode operations it calls, so that it can be run over any
implementation of them.  A system call runs to its end before the next one starts; what
`kalloc` and the copies to and from user memory answer are inputs of the call. -/
namespace Xv6
namespace Names

open Function
open Fs (NINODE Panic)

abbrev NPROC : ℕ := 64
abbrev NOFILE : ℕ := 16
abbrev NFILE : ℕ := 100
abbrev NDEV : ℕ := 10
abbrev MAXPATH : ℕ := 128
abbrev DIRSIZ : ℕ := 14
abbrev PIPESIZE : ℕ := 512
abbrev CONSOLE : ℕ := 1
abbrev ROOTINO : ℕ := 1

scoped instance : NeZero NPROC := ⟨by decide⟩
scoped instance : NeZero NFILE := ⟨by decide⟩

abbrev T_DIR : ℕ := 1
abbrev T_FILE : ℕ := 2
abbrev T_DEVICE : ℕ := 3

abbrev O_RDONLY : ℕ := 0x000
abbrev O_WRONLY : ℕ := 0x001
abbrev O_RDWR : ℕ := 0x002
abbrev O_CREATE : ℕ := 0x200
abbrev O_TRUNC : ℕ := 0x400

/-- The characters of a string before its NUL. -/
abbrev Str := List UInt8

/-- `'/'` -/
abbrev slash : UInt8 := 47

def dot : Str := [46]
def dotdot : Str := [46,46]

/-- `struct dirent`; `name` ends at the first NUL or after `DIRSIZ` bytes. -/
structure Dirent where
  inum : ℕ
  name : Str
deriving DecidableEq, Repr

inductive FdType
  | none | pipe | inode | device
deriving DecidableEq, Repr

/-- `struct file`; a pipe is given by the address of its page. -/
structure File where
  type : FdType
  ref : ℕ
  readable : Bool
  writable : Bool
  pipe : Option ℕ
  ip : Option (Fin NINODE)
  off : ℕ
  major : UInt16
deriving DecidableEq, Repr

/-- What `fileinit` and `fileclose` leave behind. -/
def File.closed : File := ⟨.none,0,false,false,none,none,0,0⟩

/-- `struct pipe` without the bytes. -/
structure Pipe where
  nread : UInt32
  nwrite : UInt32
  readopen : Bool
  writeopen : Bool
deriving DecidableEq, Repr

/-- Between system calls a process that has not exited is `live`. -/
inductive ProcState
  | unused | live | zombie
deriving DecidableEq, Repr

/-- The part of `struct proc` that refers to files and other processes. -/
structure Proc where
  state : ProcState
  parent : Option (Fin NPROC)
  cwd : Option (Fin NINODE)
  ofile : Fin NOFILE → Option (Fin NFILE)

/-- The tables of processes and files, the pipes by the address of their pages, the pages
`kalloc` may hand out next, and `log.outstanding`. -/
structure Procs where
  proc : Fin NPROC → Proc
  ftable : Fin NFILE → File
  pipe : ℕ → Option Pipe
  free : List ℕ
  outstanding : ℤ

namespace Procs

def setProc (q : Procs) (p : Fin NPROC) (x : Proc) : Procs :=
  { q with proc := update q.proc p x }

def setCwd (q : Procs) (p : Fin NPROC) (c : Option (Fin NINODE)) : Procs :=
  q.setProc p { q.proc p with cwd := c }

def setOfile (q : Procs) (p : Fin NPROC) (fd : Fin NOFILE) (f : Option (Fin NFILE)) : Procs :=
  q.setProc p { q.proc p with ofile := update (q.proc p).ofile fd f }

def setFile (q : Procs) (f : Fin NFILE) (x : File) : Procs :=
  { q with ftable := update q.ftable f x }

def setPipe (q : Procs) (a : ℕ) (x : Option Pipe) : Procs :=
  { q with pipe := update q.pipe a x }

/-- The first file structure not in use. -/
def freeFile (q : Procs) : Option (Fin NFILE) :=
  (List.finRange NFILE).find? fun f => (q.ftable f).ref = 0

/-- The first descriptor `p` does not use. -/
def freeFd (q : Procs) (p : Fin NPROC) : Option (Fin NOFILE) :=
  (List.finRange NOFILE).find? fun fd => (q.proc p).ofile fd = none

/-- The first process slot not in use. -/
def freeProc (q : Procs) : Option (Fin NPROC) :=
  (List.finRange NPROC).find? fun p => (q.proc p).state = .unused

/-- `begin_op` when no other process is in the file system. -/
def begun (q : Procs) : Procs := { q with outstanding := q.outstanding + 1 }

/-- What `end_op` does to the count. -/
def ended (q : Procs) : Procs := { q with outstanding := q.outstanding - 1 }

end Procs

/-- The fields of a locked inode the name space looks at. -/
structure Stat where
  inum : ℕ
  type : ℕ
  major : UInt16
  minor : UInt16
  nlink : ℕ
deriving DecidableEq, Repr

/-- Operations on inodes. -/
inductive InodeCmd
  | iget (inum : ℕ)
  | idup (ip : Fin NINODE)
  | ilock (ip : Fin NINODE)
  | iunlock (ip : Fin NINODE)
  | iput (ip : Fin NINODE)
  | ialloc (type : ℕ)
  | itrunc (ip : Fin NINODE)
  /-- Read the fields of `ip`. -/
  | stat (ip : Fin NINODE)
  /-- `ip->size` of a directory. -/
  | size (ip : Fin NINODE)
  /-- Set three fields of `ip`, then `iupdate(ip)`. -/
  | iupdate (ip : Fin NINODE) (major minor : UInt16) (nlink : ℕ)
  /-- `readi` of the directory entry at offset `k*sizeof(de)`; `none` if it returns less
  than a whole one. -/
  | readi (ip : Fin NINODE) (k : ℕ)
  /-- `writei` of the directory entry at offset `k*sizeof(de)`; whether it wrote the whole
  one. -/
  | writei (ip : Fin NINODE) (k : ℕ) (de : Dirent)
  /-- `readi` of `n` bytes to user memory; `copyout` says which transfers succeed. -/
  | readu (ip : Fin NINODE) (copyout : ℕ → List UInt8 → Bool) (off n : ℕ)
  /-- `writei` of `n` bytes from user memory; `copyin` is what the transfers yield. -/
  | writeu (ip : Fin NINODE) (copyin : ℕ → ℕ → List UInt8 × Bool) (off n : ℕ)

/-- What an operation returns. -/
def InodeCmd.Result : InodeCmd → Type
  | .iget _ => Fin NINODE
  | .ialloc _ => Option (Fin NINODE)
  | .stat _ => Stat
  | .size _ => ℕ
  | .readi _ _ => Option Dirent
  | .writei _ _ _ => Bool
  | .readu _ _ _ _ | .writeu _ _ _ _ => ℤ
  | _ => Unit

inductive Cmd
  | inode (c : InodeCmd)
  | procs
  | setProcs (q : Procs)
  | panic (e : Panic)

def Cmd.Result : Cmd → Type
  | .inode c => c.Result
  | .procs => Procs
  | .setProcs _ => Unit
  | .panic _ => Empty

abbrev Code := Free Cmd Cmd.Result

def inode (c : InodeCmd) : Code c.Result := Free.command (Cmd.inode c)

def iget (inum : ℕ) : Code (Fin NINODE) := inode (.iget inum)
def idup (ip : Fin NINODE) : Code Unit := inode (.idup ip)
def ilock (ip : Fin NINODE) : Code Unit := inode (.ilock ip)
def iunlock (ip : Fin NINODE) : Code Unit := inode (.iunlock ip)
def iput (ip : Fin NINODE) : Code Unit := inode (.iput ip)
def ialloc (type : ℕ) : Code (Option (Fin NINODE)) := inode (.ialloc type)
def itrunc (ip : Fin NINODE) : Code Unit := inode (.itrunc ip)
def stat (ip : Fin NINODE) : Code Stat := inode (.stat ip)
def size (ip : Fin NINODE) : Code ℕ := inode (.size ip)
def iupdate (ip : Fin NINODE) (major minor : UInt16) (nlink : ℕ) : Code Unit :=
  inode (.iupdate ip major minor nlink)
def readi (ip : Fin NINODE) (k : ℕ) : Code (Option Dirent) := inode (.readi ip k)
def writei (ip : Fin NINODE) (k : ℕ) (de : Dirent) : Code Bool := inode (.writei ip k de)
def readu (ip : Fin NINODE) (copyout : ℕ → List UInt8 → Bool) (off n : ℕ) : Code ℤ :=
  inode (.readu ip copyout off n)
def writeu (ip : Fin NINODE) (copyin : ℕ → ℕ → List UInt8 × Bool) (off n : ℕ) : Code ℤ :=
  inode (.writeu ip copyin off n)

def procs : Code Procs := Free.command Cmd.procs
def setProcs (q : Procs) : Code Unit := Free.command (Cmd.setProcs q)
def panic {α : Type} (e : Panic) : Code α := .call (.panic e) fun r => Empty.elim r

def beginOp : Code Unit := do
  let q ← procs
  setProcs q.begun

def endOp : Code Unit := do
  let q ← procs
  setProcs q.ended

/-- `end_op(); return r` -/
def endWith {α : Type} (r : α) : Code α := do
  endOp
  pure r

/-- The inodes with the tables of files and processes. -/
structure Sys (σ : Type) where
  fs : σ
  ps : Procs

/-- Run code over an implementation of the inode operations. -/
def handle {σ : Type} (impl : (c : InodeCmd) → Prog Panic σ c.Result) :
    (c : Cmd) → Prog Panic (Sys σ) c.Result
  | .inode c => fun s =>
    match impl c s.fs with
    | .ok (r,t) => .ok (r,{ s with fs := t })
    | .error e => .error e
  | .procs => fun s => .ok (s.ps,s)
  | .setProcs q => fun s => .ok ((),{ s with ps := q })
  | .panic e => fun _ => .error e

def iunlockput (ip : Fin NINODE) : Code Unit := do
  iunlock ip
  iput ip

/-- The value of a `short` held in the low 16 bits of `v`. -/
def short (v : ℕ) : ℤ := if v % 2^16 < 2^15 then (v % 2^16 : ℕ) else (v % 2^16 : ℕ) - 2^16

/-- `ip->nlink++; iupdate(ip)` -/
def incNlink (ip : Fin NINODE) : Code Unit := do
  let st ← stat ip
  iupdate ip st.major st.minor ((st.nlink + 1) % 2^16)

/-- `ip->nlink--; iupdate(ip)` -/
def decNlink (ip : Fin NINODE) : Code Unit := do
  let st ← stat ip
  iupdate ip st.major st.minor ((st.nlink + 2^16 - 1) % 2^16)

/-! Directories.  Offsets into a directory are given as numbers of entries. -/

/-- `sizeof(struct dirent)` -/
abbrev DESIZE : ℕ := 16

/-- The number of rounds of `for(off = 0; off < size; off += sizeof(de))`. -/
def rounds (size : ℕ) : ℕ := (size + DESIZE - 1)/DESIZE

/-- The loop of `dirlookup` over `n` entries from `k` on; the inode found and its offset. -/
def lookupFrom (dp : Fin NINODE) (name : Str) : ℕ → ℕ → Code (Option (Fin NINODE × ℕ))
  | 0, _ => pure none
  | n+1, k => do
    match ← readi dp k with
    | none => panic .dirlookupRead
    | some de =>
      if de.inum ≠ 0 ∧ name = de.name then do
        let ip ← iget de.inum
        pure (some (ip,k))
      else lookupFrom dp name n (k+1)

def dirlookup (dp : Fin NINODE) (name : Str) : Code (Option (Fin NINODE × ℕ)) := do
  let st ← stat dp
  if st.type ≠ T_DIR then panic .dirlookupNotDir
  else do
    let sz ← size dp
    lookupFrom dp name (rounds sz) 0

/-- The second loop of `dirlink`: the first empty entry, or where the loop ends. -/
def emptyFrom (dp : Fin NINODE) : ℕ → ℕ → Code ℕ
  | 0, k => pure k
  | n+1, k => do
    match ← readi dp k with
    | none => panic .dirlinkRead
    | some de => if de.inum = 0 then pure k else emptyFrom dp n (k+1)

/-- Whether the entry was written; `de.inum` is a `ushort`. -/
def dirlink (dp : Fin NINODE) (name : Str) (inum : ℕ) : Code Bool := do
  match ← dirlookup dp name with
  | some (ip,_) => do
    iput ip
    pure false
  | none => do
    let sz ← size dp
    let k ← emptyFrom dp (rounds sz) 0
    writei dp k ⟨inum % 2^16,name.take DIRSIZ⟩

/-- The loop of `isdirempty` over `n` entries from `k` on. -/
def emptyDirFrom (dp : Fin NINODE) : ℕ → ℕ → Code Bool
  | 0, _ => pure true
  | n+1, k => do
    match ← readi dp k with
    | none => panic .isdirempty
    | some de => if de.inum ≠ 0 then pure false else emptyDirFrom dp n (k+1)

def isdirempty (dp : Fin NINODE) : Code Bool := do
  let sz ← size dp
  emptyDirFrom dp (rounds (sz - 2*DESIZE)) 2

/-! Paths. -/

/-- The next path element and the rest of the path, without leading slashes. -/
def skipelem (path : Str) : Option (Str × Str) :=
  let path := path.dropWhile (· = slash)
  if path = [] then none
  else some ((path.takeWhile (· ≠ slash)).take DIRSIZ,
    (path.dropWhile (· ≠ slash)).dropWhile (· = slash))

/-- The loop of `namex`.  Every element takes at least one character, so as many rounds as
the path is long are enough. -/
def namexFrom (nameiparent : Bool) : ℕ → Fin NINODE → Str → Code (Option (Fin NINODE × Str))
  | n, ip, path =>
    match n, skipelem path with
    | n+1, some (name,rest) => do
      ilock ip
      let st ← stat ip
      if st.type ≠ T_DIR then do
        iunlockput ip
        pure none
      else if nameiparent ∧ rest = [] then do
        iunlock ip
        pure (some (ip,name))
      else do
        match ← dirlookup ip name with
        | none => do
          iunlockput ip
          pure none
        | some (next,_) => do
          iunlockput ip
          namexFrom nameiparent n next rest
    | _, _ =>
      if nameiparent then do
        iput ip
        pure none
      else pure (some (ip,[]))

/-- `idup(myproc()->cwd)`; only a running process calls it, and that has a current directory. -/
def dupCwd (p : Fin NPROC) : Code (Fin NINODE) := do
  match ((← procs).proc p).cwd with
  | some ip => do
    idup ip
    pure ip
  | none => panic .misuse

/-- Where `namex` starts. -/
def namexStart (p : Fin NPROC) (path : Str) : Code (Fin NINODE) :=
  if path.head? = some slash then iget ROOTINO else dupCwd p

def namex (p : Fin NPROC) (path : Str) (nameiparent : Bool) :
    Code (Option (Fin NINODE × Str)) := do
  let ip ← namexStart p path
  namexFrom nameiparent path.length ip path

def namei (p : Fin NPROC) (path : Str) : Code (Option (Fin NINODE)) := do
  pure ((← namex p path false).map (·.1))

def nameiparent (p : Fin NPROC) (path : Str) : Code (Option (Fin NINODE × Str)) :=
  namex p path true

/-! Files and pipes. -/

def filealloc : Code (Option (Fin NFILE)) := do
  let q ← procs
  match q.freeFile with
  | some f => do
    setProcs (q.setFile f { File.closed with ref := 1 })
    pure (some f)
  | none => pure none

def filedup (f : Fin NFILE) : Code Unit := do
  let q ← procs
  if (q.ftable f).ref < 1 then panic .filedup
  else setProcs (q.setFile f { q.ftable f with ref := (q.ftable f).ref + 1 })

def pipeclose (a : ℕ) (writable : Bool) : Code Unit := do
  let q ← procs
  match q.pipe a with
  | none => panic .misuse
  | some pi =>
    let pi := if writable then { pi with writeopen := false } else { pi with readopen := false }
    if pi.readopen = false ∧ pi.writeopen = false then
      setProcs { q.setPipe a none with free := a :: q.free }
    else setProcs (q.setPipe a (some pi))

def fileclose (f : Fin NFILE) : Code Unit := do
  let q ← procs
  let ff := q.ftable f
  if ff.ref < 1 then panic .fileclose
  else if 1 < ff.ref then setProcs (q.setFile f { ff with ref := ff.ref - 1 })
  else do
    setProcs (q.setFile f File.closed)
    match ff.type, ff.pipe, ff.ip with
    | .pipe, some a, _ => pipeclose a ff.writable
    | .pipe, none, _ => panic .misuse
    | .inode, _, some ip | .device, _, some ip => do
      beginOp
      iput ip
      endOp
    | .inode, _, none | .device, _, none => panic .misuse
    | .none, _, _ => pure ()

/-- `kalloc`, which finds no page when `mem` is false. -/
def kalloc (mem : Bool) : Code (Option ℕ) := do
  let q ← procs
  match q.free with
  | a::rest =>
    if mem then do
      setProcs { q with free := rest }
      pure (some a)
    else pure none
  | [] => pure none

/-- The label `bad` of `pipealloc`; no page has been allocated there. -/
def pipeallocBad (f0 f1 : Option (Fin NFILE)) : Code (Option (Fin NFILE × Fin NFILE)) := do
  match f0 with
  | some f => fileclose f
  | none => pure ()
  match f1 with
  | some f => fileclose f
  | none => pure ()
  pure none

/-- The ends of the new pipe at `a`. -/
def readEnd (a : ℕ) : File := { File.closed with type := .pipe, ref := 1, readable := true, pipe := some a }
def writeEnd (a : ℕ) : File := { File.closed with type := .pipe, ref := 1, writable := true, pipe := some a }

def pipealloc (mem : Bool) : Code (Option (Fin NFILE × Fin NFILE)) := do
  match ← filealloc with
  | none => pipeallocBad none none
  | some f0 => do
    match ← filealloc with
    | none => pipeallocBad (some f0) none
    | some f1 => do
      match ← kalloc mem with
      | none => pipeallocBad (some f0) (some f1)
      | some a => do
        let q ← procs
        setProcs (((q.setPipe a (some ⟨0,0,true,true⟩)).setFile f0 (readEnd a)).setFile f1 (writeEnd a))
        pure (some (f0,f1))

/-- `p->ofile[fd] = f` -/
def setOfile (p : Fin NPROC) (fd : Fin NOFILE) (f : Option (Fin NFILE)) : Code Unit := do
  let q ← procs
  setProcs (q.setOfile p fd f)

def fdalloc (p : Fin NPROC) (f : Fin NFILE) : Code (Option (Fin NOFILE)) := do
  let q ← procs
  match q.freeFd p with
  | some fd => do
    setOfile p fd (some f)
    pure (some fd)
  | none => pure none

/-- The file behind descriptor `fd`, checked as `argfd` does. -/
def argfd (p : Fin NPROC) (fd : ℤ) : Code (Option (Fin NOFILE × Fin NFILE)) := do
  let q ← procs
  if h : 0 ≤ fd ∧ fd < NOFILE then
    pure (((q.proc p).ofile ⟨fd.toNat,by omega⟩).map fun f => (⟨fd.toNat,by omega⟩,f))
  else pure none

/-- `argstr`: a path with its NUL has to fit `MAXPATH` bytes. -/
def argstr (path : Str) : Option Str := if path.length < MAXPATH then some path else none

/-! System calls. -/

/-- The label `bad` of `sys_link`. -/
def linkBad (ip : Fin NINODE) : Code ℤ := do
  ilock ip
  decNlink ip
  iunlockput ip
  endWith (-1)

def sysLink (p : Fin NPROC) (old new : Str) : Code ℤ := do
  match argstr old, argstr new with
  | some old, some new => do
    beginOp
    match ← namei p old with
    | none => endWith (-1)
    | some ip => do
      ilock ip
      let st ← stat ip
      if st.type = T_DIR then do
        iunlockput ip
        endWith (-1)
      else do
        incNlink ip
        iunlock ip
        match ← nameiparent p new with
        | none => linkBad ip
        | some (dp,name) => do
          ilock dp
          if ← dirlink dp name st.inum then do
            iunlockput dp
            iput ip
            endWith 0
          else do
            iunlockput dp
            linkBad ip
  | _, _ => pure (-1)

/-- The label `bad` of `sys_unlink`. -/
def unlinkBad (dp : Fin NINODE) : Code ℤ := do
  iunlockput dp
  endWith (-1)

/-- `ip->type == T_DIR && !isdirempty(ip)` -/
def isFullDir (ip : Fin NINODE) (type : ℕ) : Code Bool :=
  if type = T_DIR then do
    let empty ← isdirempty ip
    pure !empty
  else pure false

/-- `sys_unlink` once entry `k` of `dp` is known to name `ip`. -/
def unlinkEntry (dp : Fin NINODE) (k : ℕ) (ip : Fin NINODE) : Code ℤ := do
  ilock ip
  let st ← stat ip
  if short st.nlink < 1 then panic .unlinkNlink
  else do
    if ← isFullDir ip st.type then do
      iunlockput ip
      unlinkBad dp
    else do
      if ← writei dp k ⟨0,[]⟩ then do
        (if st.type = T_DIR then decNlink dp else pure ())
        iunlockput dp
        decNlink ip
        iunlockput ip
        endWith 0
      else panic .unlinkWritei

def sysUnlink (p : Fin NPROC) (path : Str) : Code ℤ := do
  match argstr path with
  | none => pure (-1)
  | some path => do
    beginOp
    match ← nameiparent p path with
    | none => endWith (-1)
    | some (dp,name) => do
      ilock dp
      if name = dot ∨ name = dotdot then unlinkBad dp
      else do
        match ← dirlookup dp name with
        | none => unlinkBad dp
        | some (ip,k) => unlinkEntry dp k ip

/-- The label `fail` of `create`. -/
def createFail (dp ip : Fin NINODE) : Code (Option (Fin NINODE)) := do
  let st ← stat ip
  iupdate ip st.major st.minor 0
  iunlockput ip
  iunlockput dp
  pure none

/-- The entries `.` and `..` of a new directory. -/
def createDots (dp ip : Fin NINODE) (type : ℕ) : Code Bool :=
  if type = T_DIR then do
    let st ← stat ip
    if ← dirlink ip dot st.inum then do
      let up ← stat dp
      dirlink ip dotdot up.inum
    else pure false
  else pure true

/-- `create` from `ialloc` on: `dp` is locked and has no entry `name`. -/
def createNew (dp : Fin NINODE) (name : Str) (type : ℕ) (major minor : UInt16) :
    Code (Option (Fin NINODE)) := do
  match ← ialloc type with
  | none => do
    iunlockput dp
    pure none
  | some ip => do
    ilock ip
    iupdate ip major minor 1
    if ← createDots dp ip type then do
      let st ← stat ip
      if ← dirlink dp name st.inum then do
        (if type = T_DIR then incNlink dp else pure ())
        iunlockput dp
        pure (some ip)
      else createFail dp ip
    else createFail dp ip

/-- The inode returned is locked. -/
def create (p : Fin NPROC) (path : Str) (type : ℕ) (major minor : UInt16) :
    Code (Option (Fin NINODE)) := do
  match ← nameiparent p path with
  | none => pure none
  | some (dp,name) => do
    ilock dp
    match ← dirlookup dp name with
    | some (ip,_) => do
      iunlockput dp
      ilock ip
      let st ← stat ip
      if type = T_FILE ∧ (st.type = T_FILE ∨ st.type = T_DEVICE) then pure (some ip)
      else do
        iunlockput ip
        pure none
    | none => createNew dp name type major minor

/-- The inode `sys_open` opens, locked. -/
def openInode (p : Fin NPROC) (path : Str) (omode : ℕ) : Code (Option (Fin NINODE)) :=
  if omode &&& O_CREATE ≠ 0 then create p path T_FILE 0 0
  else do
    match ← namei p path with
    | none => pure none
    | some ip => do
      ilock ip
      let st ← stat ip
      if st.type = T_DIR ∧ omode ≠ O_RDONLY then do
        iunlockput ip
        pure none
      else pure (some ip)

/-- `f` as `sys_open` fills it in. -/
def openedFile (st : Stat) (ip : Fin NINODE) (omode : ℕ) : File where
  type := if st.type = T_DEVICE then .device else .inode
  ref := 1
  readable := omode &&& O_WRONLY = 0
  writable := omode &&& O_WRONLY ≠ 0 ∨ omode &&& O_RDWR ≠ 0
  pipe := none
  ip := some ip
  off := 0
  major := if st.type = T_DEVICE then st.major else 0

/-- `sys_open` once `ip` is known and locked. -/
def openFile (p : Fin NPROC) (ip : Fin NINODE) (omode : ℕ) : Code ℤ := do
  let st ← stat ip
  if st.type = T_DEVICE ∧ (short st.major.toNat < 0 ∨ NDEV ≤ short st.major.toNat) then do
    iunlockput ip
    endWith (-1)
  else do
    match ← filealloc with
    | none => do
      iunlockput ip
      endWith (-1)
    | some f => do
      match ← fdalloc p f with
      | none => do
        fileclose f
        iunlockput ip
        endWith (-1)
      | some fd => do
        let q ← procs
        setProcs (q.setFile f (openedFile st ip omode))
        (if omode &&& O_TRUNC ≠ 0 ∧ st.type = T_FILE then itrunc ip else pure ())
        iunlock ip
        endWith fd

def sysOpen (p : Fin NPROC) (path : Str) (omode : ℕ) : Code ℤ := do
  match argstr path with
  | none => pure (-1)
  | some path =>
    if path = [] then pure (-1)
    else do
      beginOp
      match ← openInode p path omode with
      | none => endWith (-1)
      | some ip => openFile p ip omode

/-- `sys_mkdir` and `sys_mknod` make an inode and let go of it. -/
def createAndPut (p : Fin NPROC) (path : Str) (type : ℕ) (major minor : UInt16) : Code ℤ := do
  beginOp
  match argstr path with
  | none => endWith (-1)
  | some path => do
    match ← create p path type major minor with
    | none => endWith (-1)
    | some ip => do
      iunlockput ip
      endWith 0

def sysMkdir (p : Fin NPROC) (path : Str) : Code ℤ := createAndPut p path T_DIR 0 0

/-- The arguments are `int`s, which `create` takes as `short`s. -/
def sysMknod (p : Fin NPROC) (path : Str) (major minor : ℤ) : Code ℤ :=
  createAndPut p path T_DEVICE (UInt16.ofInt major) (UInt16.ofInt minor)

/-- `iput(p->cwd)` -/
def putCwd (p : Fin NPROC) : Code Unit := do
  match ((← procs).proc p).cwd with
  | some ip => iput ip
  | none => panic .misuse

/-- `end_op(); p->cwd = c` -/
def endWithCwd (p : Fin NPROC) (c : Option (Fin NINODE)) : Code Unit := do
  endOp
  let q ← procs
  setProcs (q.setCwd p c)

def sysChdir (p : Fin NPROC) (path : Str) : Code ℤ := do
  beginOp
  match argstr path with
  | none => endWith (-1)
  | some path => do
    match ← namei p path with
    | none => endWith (-1)
    | some ip => do
      ilock ip
      let st ← stat ip
      if st.type ≠ T_DIR then do
        iunlockput ip
        endWith (-1)
      else do
        iunlock ip
        putCwd p
        endWithCwd p (some ip)
        pure 0

def sysDup (p : Fin NPROC) (fd : ℤ) : Code ℤ := do
  match ← argfd p fd with
  | none => pure (-1)
  | some (_,f) => do
    match ← fdalloc p f with
    | none => pure (-1)
    | some fd => do
      filedup f
      pure fd

def sysClose (p : Fin NPROC) (fd : ℤ) : Code ℤ := do
  match ← argfd p fd with
  | none => pure (-1)
  | some (fd,f) => do
    setOfile p fd none
    fileclose f
    pure 0

/-- One round of the loop of `kfork` over the descriptors. -/
def forkFile (p np : Fin NPROC) (fd : Fin NOFILE) : Code Unit := do
  match ((← procs).proc p).ofile fd with
  | some f => do
    filedup f
    setOfile np fd (some f)
  | none => pure ()

/-- The end of `kfork`: the child can run. -/
def forkLive (p np : Fin NPROC) (ip : Fin NINODE) : Code Unit := do
  let q ← procs
  setProcs (q.setProc np { q.proc np with state := .live, parent := some p, cwd := some ip })

/-- `kfork`; `mem` tells whether there is memory for the child.  The pid returned is left out. -/
def kfork (p : Fin NPROC) (mem : Bool) : Code ℤ := do
  match (← procs).freeProc with
  | none => pure (-1)
  | some np =>
    if mem then do
      (List.finRange NOFILE).forM (forkFile p np)
      let ip ← dupCwd p
      forkLive p np ip
      pure 0
    else pure (-1)

/-- The first process. -/
def initproc : Fin NPROC := 0

/-- One round of the loop of `kexit` over the descriptors. -/
def exitFile (p : Fin NPROC) (fd : Fin NOFILE) : Code Unit := do
  match ((← procs).proc p).ofile fd with
  | some f => do
    fileclose f
    setOfile p fd none
  | none => pure ()

/-- `reparent`, and the last lines of `kexit`. -/
def exitZombie (p : Fin NPROC) : Code Unit := do
  let q ← procs
  let q' := { q with proc := fun c =>
    if (q.proc c).parent = some p then { q.proc c with parent := some initproc } else q.proc c }
  setProcs (q'.setProc p { q'.proc p with state := .zombie })

def kexit (p : Fin NPROC) : Code Unit :=
  if p = initproc then panic .initExiting
  else do
    (List.finRange NOFILE).forM (exitFile p)
    beginOp
    putCwd p
    endWithCwd p none
    exitZombie p

/-- The files and the current directory are given back by `kexit`, not here. -/
def freeproc (c : Fin NPROC) : Code Unit := do
  let q ← procs
  setProcs (q.setProc c { q.proc c with state := .unused, parent := none })

/-- `kwait` of process `p`, which has been killed or not; `copy` tells whether the status can be
copied out.  The pid returned is left out. -/
def kwait (p : Fin NPROC) (killed copy : Bool) : Code ℤ := do
  let q ← procs
  let child := fun c => decide ((q.proc c).parent = some p)
  match (List.finRange NPROC).find? fun c => child c && decide ((q.proc c).state = .zombie) with
  | some c =>
    if copy then do
      freeproc c
      pure 0
    else pure (-1)
  | none =>
    if (List.finRange NPROC).any child = true ∧ killed = false then panic .sleeps else pure (-1)

/-! Reading and writing. -/

/-- The loop of `piperead` from round `i` on; `copyout i` tells whether byte `i` can be copied. -/
def pipereadFrom (a : ℕ) (copyout : ℕ → Bool) : ℕ → ℕ → Code ℤ
  | 0, i => pure i
  | n+1, i => do
    let q ← procs
    match q.pipe a with
    | none => panic .misuse
    | some pi =>
      if pi.nread = pi.nwrite then pure i
      else do
        setProcs (q.setPipe a (some { pi with nread := pi.nread + 1 }))
        if copyout i then pipereadFrom a copyout n (i+1) else pure i

/-- `piperead`, called by a process that has been killed or not. -/
def piperead (a : ℕ) (killed : Bool) (copyout : ℕ → Bool) (n : ℕ) : Code ℤ := do
  match (← procs).pipe a with
  | none => panic .misuse
  | some pi =>
    if pi.nread = pi.nwrite ∧ pi.writeopen = true then
      if killed then pure (-1) else panic .sleeps
    else pipereadFrom a copyout n 0

/-- The loop of `pipewrite` from byte `i` on, with `n` bytes to go. -/
def pipewriteFrom (a : ℕ) (killed : Bool) (copyin : ℕ → Bool) : ℕ → ℕ → Code ℤ
  | 0, i => pure i
  | n+1, i => do
    let q ← procs
    match q.pipe a with
    | none => panic .misuse
    | some pi =>
      if pi.readopen = false ∨ killed = true then pure (-1)
      else if pi.nwrite = pi.nread + UInt32.ofNat PIPESIZE then panic .sleeps
      else if copyin i then do
        setProcs (q.setPipe a (some { pi with nwrite := pi.nwrite + 1 }))
        pipewriteFrom a killed copyin n (i+1)
      else pure i

/-- What the environment of a call to `read`, `write` or `fstat` answers: whether the caller has
been killed, which user copies succeed, and what a device returns. -/
structure Io where
  killed : Bool
  copyByte : ℕ → Bool
  copyout : ℕ → List UInt8 → Bool
  copyin : ℕ → ℕ → List UInt8 × Bool
  device : ℤ

/-- Whether `devsw[major]` has functions to read and write. -/
def isDevice (major : UInt16) : Prop :=
  0 ≤ short major.toNat ∧ short major.toNat < NDEV ∧ short major.toNat = CONSOLE

instance (major : UInt16) : Decidable (isDevice major) := inferInstanceAs (Decidable (_ ∧ _ ∧ _))

/-- `f->off += r` -/
def advance (f : Fin NFILE) (r : ℤ) : Code Unit := do
  let q ← procs
  if 0 < r then setProcs (q.setFile f { q.ftable f with off := ((q.ftable f).off + r.toNat) % 2^32 })
  else pure ()

def fileread (f : Fin NFILE) (io : Io) (n : ℤ) : Code ℤ := do
  let ff := (← procs).ftable f
  if ff.readable = false ∨ n < 0 then pure (-1)
  else if n = 0 then pure 0
  else
    match ff.type with
    | .pipe =>
      match ff.pipe with
      | some a => piperead a io.killed io.copyByte n.toNat
      | none => panic .misuse
    | .device => if isDevice ff.major then pure io.device else pure (-1)
    | .inode =>
      match ff.ip with
      | none => pure (-1)
      | some ip => do
        ilock ip
        let r ← readu ip io.copyout ff.off n.toNat
        advance f r
        iunlock ip
        pure r
    | .none => panic .fileread

/-- `((MAXOPBLOCKS-1-1-2)/2)*BSIZE` -/
def maxWrite : ℕ := ((MAXOPBLOCKS-1-1-2)/2)*BSIZE

/-- The loop of `filewrite` over an inode, with `i` bytes written.  A round that does not end the
loop writes at least one byte, so `n` rounds are enough. -/
def filewriteFrom (f : Fin NFILE) (ip : Fin NINODE) (copyin : ℕ → ℕ → List UInt8 × Bool) (n : ℕ) :
    ℕ → ℕ → Code ℤ
  | 0, i => pure (if i = n then n else -1)
  | fuel+1, i =>
    if i < n then do
      let n1 := min (n - i) maxWrite
      beginOp
      ilock ip
      let off := ((← procs).ftable f).off
      let r ← writeu ip (fun tot m => copyin (i + tot) m) off n1
      advance f r
      iunlock ip
      endOp
      if r ≠ n1 then pure (if i = n then n else -1)
      else filewriteFrom f ip copyin n fuel (i + r.toNat)
    else pure (if i = n then n else -1)

def filewrite (f : Fin NFILE) (io : Io) (n : ℤ) : Code ℤ := do
  let ff := (← procs).ftable f
  if ff.writable = false ∨ n < 0 then pure (-1)
  else if n = 0 then pure 0
  else
    match ff.type with
    | .pipe =>
      match ff.pipe with
      | some a => pipewriteFrom a io.killed io.copyByte n.toNat 0
      | none => panic .misuse
    | .device => if isDevice ff.major then pure io.device else pure (-1)
    | .inode =>
      match ff.ip with
      | none => pure (-1)
      | some ip => filewriteFrom f ip io.copyin n.toNat n.toNat 0
    | .none => panic .filewrite

/-- `filestat`; `io.copyByte 0` tells whether the result can be copied out. -/
def filestat (f : Fin NFILE) (io : Io) : Code ℤ := do
  let ff := (← procs).ftable f
  match ff.type, ff.ip with
  | .inode, some ip | .device, some ip => do
    ilock ip
    let _ ← stat ip
    iunlock ip
    pure (if io.copyByte 0 then 0 else -1)
  | _, _ => pure (-1)

/-- The limit `sys_read` and `sys_write` put on a transfer. -/
abbrev MAXRW : ℕ := 1024*1024

def sysRead (p : Fin NPROC) (fd : ℤ) (io : Io) (n : ℤ) : Code ℤ := do
  if n < 0 ∨ MAXRW < n then pure (-1)
  else do
    match ← argfd p fd with
    | none => pure (-1)
    | some (_,f) => fileread f io n

def sysWrite (p : Fin NPROC) (fd : ℤ) (io : Io) (n : ℤ) : Code ℤ := do
  if n < 0 ∨ MAXRW < n then pure (-1)
  else do
    match ← argfd p fd with
    | none => pure (-1)
    | some (_,f) => filewrite f io n

def sysFstat (p : Fin NPROC) (fd : ℤ) (io : Io) : Code ℤ := do
  match ← argfd p fd with
  | none => pure (-1)
  | some (_,f) => filestat f io

/-- `fileclose(rf); fileclose(wf); return -1` -/
def pipeBad (rf wf : Fin NFILE) : Code ℤ := do
  fileclose rf
  fileclose wf
  pure (-1)

/-- `copy` tells whether both descriptors can be copied out. -/
def sysPipe (p : Fin NPROC) (mem copy : Bool) : Code ℤ := do
  match ← pipealloc mem with
  | none => pure (-1)
  | some (rf,wf) => do
    match ← fdalloc p rf with
    | none => pipeBad rf wf
    | some fd0 => do
      match ← fdalloc p wf with
      | none => do
        setOfile p fd0 none
        pipeBad rf wf
      | some fd1 =>
        if copy then pure 0
        else do
          setOfile p fd0 none
          setOfile p fd1 none
          pipeBad rf wf

end Names
end Xv6
