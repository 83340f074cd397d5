import Mathlib.Logic.Function.Basic
import Xv6.Lib.Machine
import Xv6.Names.Code

/-! Inodes as the name space sees them: every inode has its fields and, if it is a
directory, a list of entries.  Blocks are gone; whether a directory can grow is an input. -/
namespace Xv6
namespace Names

open Fs (NINODE Panic)

/-- An inode on disk; type 0 means free. -/
structure Node where
  type : ℕ
  major : UInt16
  minor : UInt16
  nlink : ℕ
  entries : List Dirent
deriving DecidableEq, Repr

def Node.free : Node := ⟨0,0,0,0,[]⟩

/-- An entry of the inode table. -/
structure Entry where
  inum : ℕ
  ref : ℕ
  locked : Bool
  valid : Bool
deriving DecidableEq, Repr

structure Store where
  node : ℕ → Node
  itable : Fin NINODE → Entry
  /-- Whether the next writes behind the end of a directory find room. -/
  luck : List Bool

namespace Store

def put (s : Store) (ip : Fin NINODE) (x : Entry) : Store :=
  { s with itable := Function.update s.itable ip x }

def setNode (s : Store) (i : ℕ) (x : Node) : Store :=
  { s with node := Function.update s.node i x }

/-- The inode behind a table entry. -/
def nodeOf (s : Store) (ip : Fin NINODE) : Node := s.node (s.itable ip).inum

def findEntry (s : Store) (inum : ℕ) : Option (Fin NINODE) :=
  (List.finRange NINODE).find? fun i => decide (0 < (s.itable i).ref ∧ (s.itable i).inum = inum)

def emptyEntry (s : Store) : Option (Fin NINODE) :=
  (List.finRange NINODE).find? fun i => decide ((s.itable i).ref = 0)

abbrev Op := Prog Panic Store

def iget (inum : ℕ) : Op (Fin NINODE) := fun s =>
  match s.findEntry inum with
  | some ip => .ok (ip,s.put ip { s.itable ip with ref := (s.itable ip).ref + 1 })
  | none =>
    match s.emptyEntry with
    | some ip => .ok (ip,s.put ip { s.itable ip with inum := inum, ref := 1, valid := false })
    | none => .error .noInodes

def idup (ip : Fin NINODE) : Op Unit := fun s =>
  .ok ((),s.put ip { s.itable ip with ref := (s.itable ip).ref + 1 })

def ilock (ip : Fin NINODE) : Op Unit := fun s =>
  let x := s.itable ip
  if x.ref < 1 then .error .ilock
  else if x.locked then .error .deadlock
  else if x.valid = false ∧ (s.nodeOf ip).type = 0 then .error .noType
  else .ok ((),s.put ip { x with locked := true, valid := true })

def iunlock (ip : Fin NINODE) : Op Unit := fun s =>
  let x := s.itable ip
  if x.locked = false ∨ x.ref < 1 then .error .iunlock
  else .ok ((),s.put ip { x with locked := false })

def iput (ip : Fin NINODE) : Op Unit := fun s =>
  let x := s.itable ip
  if x.ref = 1 ∧ x.valid = true ∧ (s.nodeOf ip).nlink = 0 then
    if x.locked then .error .deadlock
    else .ok ((),(s.setNode x.inum .free).put ip { x with ref := 0, valid := false })
  else .ok ((),s.put ip { x with ref := x.ref - 1 })

/-- The first free inode number. -/
def freeInum (n : ℕ) (s : Store) : Option ℕ :=
  (List.range' 1 (n - 1)).find? fun i => decide ((s.node i).type = 0)

def ialloc (n type : ℕ) : Op (Option (Fin NINODE)) := fun s =>
  match freeInum n s with
  | none => .ok (none,s)
  | some i =>
    match iget i (s.setNode i { Node.free with type := type % 2^16 }) with
    | .ok (ip,t) => .ok (some ip,t)
    | .error e => .error e

/-- Whether `ip` may be used through a locked, valid table entry. -/
def Held (s : Store) (ip : Fin NINODE) : Prop :=
  0 < (s.itable ip).ref ∧ (s.itable ip).locked = true ∧ (s.itable ip).valid = true

instance (s : Store) (ip : Fin NINODE) : Decidable (s.Held ip) :=
  inferInstanceAs (Decidable (_ ∧ _ ∧ _))

def itrunc (ip : Fin NINODE) : Op Unit := fun s =>
  if s.Held ip then .ok ((),s.setNode (s.itable ip).inum { s.nodeOf ip with entries := [] })
  else .error .misuse

def stat (ip : Fin NINODE) : Op Stat := fun s =>
  if s.Held ip then
    .ok (⟨(s.itable ip).inum,(s.nodeOf ip).type,(s.nodeOf ip).major,(s.nodeOf ip).minor,(s.nodeOf ip).nlink⟩,s)
  else .error .misuse

def iupdate (ip : Fin NINODE) (major minor : UInt16) (nlink : ℕ) : Op Unit := fun s =>
  if s.Held ip then
    .ok ((),s.setNode (s.itable ip).inum
      { s.nodeOf ip with major := major, minor := minor, nlink := nlink % 2^16 })
  else .error .misuse

def size (ip : Fin NINODE) : Op ℕ := fun s =>
  if s.Held ip ∧ (s.nodeOf ip).type = T_DIR then .ok (DESIZE*(s.nodeOf ip).entries.length,s)
  else .error .misuse

def readi (ip : Fin NINODE) (k : ℕ) : Op (Option Dirent) := fun s =>
  if s.Held ip ∧ (s.nodeOf ip).type = T_DIR then .ok ((s.nodeOf ip).entries[k]?,s) else .error .misuse

/-- The list with entry `k` replaced, or added if it is the next one. -/
def writeEntry (es : List Dirent) (k : ℕ) (de : Dirent) : List Dirent :=
  if k < es.length then es.set k de else es ++ [de]

/-- Overwriting an entry succeeds, adding one takes luck. -/
def writei (ip : Fin NINODE) (k : ℕ) (de : Dirent) : Op Bool := fun s =>
  if s.Held ip ∧ (s.nodeOf ip).type = T_DIR then
    let x := s.nodeOf ip
    let t := s.setNode (s.itable ip).inum { x with entries := writeEntry x.entries k de }
    if k < x.entries.length then .ok (true,t)
    else if k = x.entries.length ∧ s.luck.headD true then .ok (true,{ t with luck := s.luck.tail })
    else .ok (false,{ s with luck := s.luck.tail })
  else .error .misuse

/-- The inode operations, on a disk with `n` inodes.  The data of files is not kept here, and the
calls that change names do not ask for it. -/
def serve (n : ℕ) : (c : InodeCmd) → Op c.Result
  | .iget inum => iget inum
  | .idup ip => idup ip
  | .ilock ip => ilock ip
  | .iunlock ip => iunlock ip
  | .iput ip => iput ip
  | .ialloc type => ialloc n type
  | .itrunc ip => itrunc ip
  | .stat ip => stat ip
  | .size ip => size ip
  | .iupdate ip major minor nlink => iupdate ip major minor nlink
  | .readi ip k => readi ip k
  | .writei ip k de => writei ip k de
  | .readu _ _ _ _ => fun _ => .error .misuse
  | .writeu _ _ _ _ => fun _ => .error .misuse

end Store

/-- A system call by process `p` that looks at names or at references to inodes. -/
inductive Call
  | open (p : Fin NPROC) (path : Str) (omode : ℕ)
  | mkdir (p : Fin NPROC) (path : Str)
  | mknod (p : Fin NPROC) (path : Str) (major minor : ℤ)
  | link (p : Fin NPROC) (old new : Str)
  | unlink (p : Fin NPROC) (path : Str)
  | chdir (p : Fin NPROC) (path : Str)
  | dup (p : Fin NPROC) (fd : ℤ)
  | close (p : Fin NPROC) (fd : ℤ)
  | fork (p : Fin NPROC) (mem : Bool)
  | exit (p : Fin NPROC)
  | wait (p : Fin NPROC) (killed copy : Bool)

namespace Call

/-- The process that makes the call. -/
def proc : Call → Fin NPROC
  | .open p _ _ | .mkdir p _ | .mknod p _ _ _ | .link p _ _ | .unlink p _ | .chdir p _
  | .dup p _ | .close p _ | .fork p _ | .exit p | .wait p _ _ => p

def code : Call → Code ℤ
  | .open p path omode => sysOpen p path omode
  | .mkdir p path => sysMkdir p path
  | .mknod p path major minor => sysMknod p path major minor
  | .link p old new => sysLink p old new
  | .unlink p path => sysUnlink p path
  | .chdir p path => sysChdir p path
  | .dup p fd => sysDup p fd
  | .close p fd => sysClose p fd
  | .fork p mem => kfork p mem
  | .exit p => do
    kexit p
    pure 0
  | .wait p killed copy => kwait p killed copy

end Call
end Names
end Xv6
