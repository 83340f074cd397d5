import Xv6.Fs.Model
import Xv6.Lib.Count
import Xv6.Lib.Machine

/-! The inode table of `fs.c` for any number of processes.  Each critical section under
`itable.lock` is one step; what happens under the sleep lock of an inode is cut further, since
`ialloc` looks at the disk without it.  The references held, the directory entries and the
number of times an inode has been allocated are history and read by no step. -/
namespace Xv6
namespace Itable

open Function
open Fs (NINODE Dinode)

/-- Device and inode number. -/
abbrev Ino := ℕ × ℕ

/-- The fields of an inode, and which allocation of its number they belong to. -/
structure Copy where
  d : Dinode
  life : ℕ

/-- `struct inode`; `holder` has its sleep lock. -/
structure Entry (P : Type) where
  ino : Ino
  ref : ℕ
  holder : Option P
  valid : Bool
  copy : Copy

/-- A reference to a table entry, and the allocation of the inode it was made for. -/
abbrev Ref := Fin NINODE × ℕ

/-- Where a process stands: in `ilock`, with the sleep lock; in `iput`, freeing the inode; in
`ialloc`, about to look at an inode or to look up the one it has marked. -/
inductive Pc
  | idle
  | lock (ip : Fin NINODE)
  | trunc (ip : Fin NINODE) | free (ip : Fin NINODE) | release (ip : Fin NINODE) | drop (ip : Fin NINODE)
  | scan (dev type inum : ℕ) | enroll (i : Ino)
deriving DecidableEq

/-- The entry whose reference is being dropped. -/
def Pc.drops : Pc → Option (Fin NINODE)
  | .trunc ip | .free ip | .release ip | .drop ip => some ip
  | _ => none

/-- The entry whose sleep lock the operation has. -/
def Pc.locks : Pc → Option (Fin NINODE)
  | .lock ip | .trunc ip | .free ip | .release ip => some ip
  | _ => none

structure State (P : Type) where
  disk : Ino → Copy
  itable : Fin NINODE → Entry P
  pc : P → Pc
  refs : Multiset Ref
  named : Ino → ℕ

variable {P : Type}

namespace State

def put (s : State P) (ip : Fin NINODE) (x : Entry P) : State P :=
  { s with itable := update s.itable ip x }

def store (s : State P) (i : Ino) (c : Copy) : State P := { s with disk := update s.disk i c }

def withRefs (s : State P) (refs : Multiset Ref) : State P := { s with refs := refs }

@[grind =] theorem put_itable (s : State P) (ip : Fin NINODE) (x : Entry P) (jp : Fin NINODE) :
    (s.put ip x).itable jp = if jp = ip then x else s.itable jp := update_apply ..

@[grind =] theorem store_itable (s : State P) (i : Ino) (c : Copy) (jp : Fin NINODE) :
    (s.store i c).itable jp = s.itable jp := rfl

@[grind =] theorem put_pc (s : State P) (ip : Fin NINODE) (x : Entry P) (q : P) :
    (s.put ip x).pc q = s.pc q := rfl

@[grind =] theorem store_pc (s : State P) (i : Ino) (c : Copy) (q : P) :
    (s.store i c).pc q = s.pc q := rfl

@[grind =] theorem put_disk (s : State P) (ip : Fin NINODE) (x : Entry P) (j : Ino) :
    (s.put ip x).disk j = s.disk j := rfl

@[grind =] theorem store_disk (s : State P) (i : Ino) (c : Copy) (j : Ino) :
    (s.store i c).disk j = if j = i then c else s.disk j := update_apply ..

@[grind =] theorem put_refs (s : State P) (ip : Fin NINODE) (x : Entry P) :
    (s.put ip x).refs = s.refs := rfl

@[grind =] theorem store_refs (s : State P) (i : Ino) (c : Copy) : (s.store i c).refs = s.refs := rfl

@[grind =] theorem withRefs_itable (s : State P) (R : Multiset Ref) (jp : Fin NINODE) :
    (s.withRefs R).itable jp = s.itable jp := rfl

@[grind =] theorem withRefs_pc (s : State P) (R : Multiset Ref) (q : P) : (s.withRefs R).pc q = s.pc q := rfl

@[grind =] theorem withRefs_disk (s : State P) (R : Multiset Ref) (j : Ino) :
    (s.withRefs R).disk j = s.disk j := rfl

@[grind =] theorem withRefs_refs (s : State P) (R : Multiset Ref) : (s.withRefs R).refs = R := rfl

variable [DecidableEq P]

def goto (s : State P) (p : P) (l : Pc) : State P := { s with pc := update s.pc p l }

@[grind =] theorem goto_itable (s : State P) (p : P) (l : Pc) (jp : Fin NINODE) :
    (s.goto p l).itable jp = s.itable jp := rfl

@[grind =] theorem goto_pc (s : State P) (p : P) (l : Pc) (q : P) :
    (s.goto p l).pc q = if q = p then l else s.pc q := update_apply ..

@[grind =] theorem goto_disk (s : State P) (p : P) (l : Pc) (j : Ino) :
    (s.goto p l).disk j = s.disk j := rfl

@[grind =] theorem goto_refs (s : State P) (p : P) (l : Pc) : (s.goto p l).refs = s.refs := rfl

def findEntry (s : State P) (i : Ino) : Option (Fin NINODE) :=
  (List.finRange NINODE).find? fun ip => decide (0 < (s.itable ip).ref ∧ (s.itable ip).ino = i)

def emptyEntry (s : State P) : Option (Fin NINODE) :=
  (List.finRange NINODE).find? fun ip => decide ((s.itable ip).ref = 0)

def iget (s : State P) (i : Ino) : Option (State P) :=
  match s.findEntry i with
  | some ip =>
    some ((s.put ip { s.itable ip with ref := (s.itable ip).ref + 1 }).withRefs
      ((ip,(s.disk i).life) ::ₘ s.refs))
  | none =>
    match s.emptyEntry with
    | some ip =>
      some ((s.put ip { s.itable ip with ino := i, ref := 1, valid := false }).withRefs
        ((ip,(s.disk i).life) ::ₘ s.refs))
    | none => none

def idup (s : State P) (r : Ref) : State P :=
  (s.put r.1 { s.itable r.1 with ref := (s.itable r.1).ref + 1 }).withRefs (r ::ₘ s.refs)

/-- `ilock` up to the test of `valid`; a process waits for the lock. -/
def ilock (s : State P) (p : P) (ip : Fin NINODE) : Option (State P) :=
  if 0 < (s.itable ip).ref ∧ (s.itable ip).holder = none then
    some ((s.put ip { s.itable ip with holder := some p }).goto p (.lock ip))
  else none

/-- The rest of `ilock`. -/
def load (s : State P) (p : P) (ip : Fin NINODE) : Option (State P) :=
  if (s.itable ip).valid then some (s.goto p .idle)
  else if (s.disk (s.itable ip).ino).d.type = 0 then none
  else some ((s.put ip { s.itable ip with valid := true, copy := s.disk (s.itable ip).ino }).goto p .idle)

def iunlock (s : State P) (p : P) (ip : Fin NINODE) : Option (State P) :=
  if (s.itable ip).holder = some p ∧ 0 < (s.itable ip).ref then
    some (s.put ip { s.itable ip with holder := none })
  else none

/-- The first critical section of `iput`. -/
def iput (s : State P) (p : P) (r : Ref) : Option (State P) :=
  if (s.itable r.1).ref = 1 ∧ (s.itable r.1).valid = true ∧ (s.itable r.1).copy.d.nlink = 0 then
    if (s.itable r.1).holder = none then
      some (((s.put r.1 { s.itable r.1 with holder := some p }).goto p (.trunc r.1)).withRefs
        (s.refs.erase r))
    else none
  else some ((s.put r.1 { s.itable r.1 with ref := (s.itable r.1).ref - 1 }).withRefs (s.refs.erase r))

/-- `itrunc`, which ends in `iupdate`. -/
def itrunc (s : State P) (p : P) (ip : Fin NINODE) : State P :=
  let x := s.itable ip
  let c : Copy := { x.copy with d := { x.copy.d with size := 0, addrs := fun _ => 0 } }
  ((s.put ip { x with copy := c }).store x.ino c).goto p (.free ip)

/-- `ip->type = 0; iupdate(ip)`. -/
def freeInode (s : State P) (p : P) (ip : Fin NINODE) : State P :=
  let x := s.itable ip
  let c : Copy := { x.copy with d := { x.copy.d with type := 0 } }
  ((s.put ip { x with copy := c }).store x.ino c).goto p (.release ip)

/-- `ip->valid = 0; releasesleep(&ip->lock)`. -/
def releaseFreed (s : State P) (p : P) (ip : Fin NINODE) : State P :=
  (s.put ip { s.itable ip with valid := false, holder := none }).goto p (.drop ip)

/-- The last critical section of `iput`. -/
def dropFreed (s : State P) (p : P) (ip : Fin NINODE) : State P :=
  (s.put ip { s.itable ip with ref := (s.itable ip).ref - 1 }).goto p .idle

/-- One round of the loop of `ialloc`, on a disk with `n` inodes. -/
def scan (n : ℕ) (s : State P) (p : P) (dev type inum : ℕ) : State P :=
  if inum < n then
    if (s.disk (dev,inum)).d.type = 0 then
      (s.store (dev,inum) ⟨{ Dinode.blank with type := type % 2^16 },(s.disk (dev,inum)).life + 1⟩).goto p
        (.enroll (dev,inum))
    else s.goto p (.scan dev type (inum+1))
  else s.goto p .idle

/-- The next step of the operation that process `p` is in. -/
def advance (n : ℕ) (s : State P) (p : P) : Option (State P) :=
  match s.pc p with
  | .idle => none
  | .lock ip => s.load p ip
  | .trunc ip => some (s.itrunc p ip)
  | .free ip => some (s.freeInode p ip)
  | .release ip => some (s.releaseFreed p ip)
  | .drop ip => some (s.dropFreed p ip)
  | .scan dev type inum => some (s.scan n p dev type inum)
  | .enroll i => (s.goto p .idle).iget i

/-- Change the fields of an inode that `p` has locked. -/
def modify (s : State P) (p : P) (ip : Fin NINODE) (d : Dinode) : Option (State P) :=
  if (s.itable ip).holder = some p then
    some (s.put ip { s.itable ip with copy := { (s.itable ip).copy with d := d } })
  else none

def iupdate (s : State P) (p : P) (ip : Fin NINODE) : Option (State P) :=
  if (s.itable ip).holder = some p then some (s.store (s.itable ip).ino (s.itable ip).copy) else none

end State

variable [DecidableEq P]

inductive Event (P : Type)
  | iget (p : P) (i : Ino) | idup (p : P) (r : Ref) | ilock (p : P) (ip : Fin NINODE)
  | iunlock (p : P) (ip : Fin NINODE) | iput (p : P) (r : Ref) | ialloc (p : P) (dev type : ℕ)
  | modify (p : P) (ip : Fin NINODE) (d : Dinode) | iupdate (p : P) (ip : Fin NINODE)
  | advance (p : P) | enter (i : Ino) | remove (i : Ino)

/-- The process that starts an operation, which it does only when it is in none. -/
def Event.starts : Event P → Option P
  | .iget p _ | .idup p _ | .ilock p _ | .iunlock p _ | .iput p _ | .ialloc p _ _ | .modify p _ _
  | .iupdate p _ => some p
  | _ => none

def act (n : ℕ) (s : State P) : Event P → Option (State P)
  | .iget _ i => s.iget i
  | .idup _ r => some (s.idup r)
  | .ilock p ip => s.ilock p ip
  | .iunlock p ip => s.iunlock p ip
  | .iput p r => s.iput p r
  | .ialloc p dev type => some (s.goto p (.scan dev type 1))
  | .modify p ip d => s.modify p ip d
  | .iupdate p ip => s.iupdate p ip
  | .advance p => s.advance n p
  | .enter i => some { s with named := update s.named i (s.named i + 1) }
  | .remove i => some { s with named := update s.named i (s.named i - 1) }

def step (n : ℕ) (s : State P) (e : Event P) : Option (State P) :=
  if ∀ p, e.starts = some p → s.pc p = .idle then act n s e else none

end Itable
end Xv6
