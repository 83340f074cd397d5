import Xv6.Lib.Machine
import Xv6.Lib.Ring
import Mathlib.Data.Int.Notation

/-! Pipes: `pipe.c`, with the processes that read, write and close a pipe and those that kill
them.
`pi->lock` is explicit.  The loops are cut at the tests of `killed`, which looks at the process
without the pipe's lock, so that a kill may fall between any two of them; `sleep` releases the
lock and sleeps in one step. -/
namespace Xv6
namespace Pipes

open Function

abbrev PIPESIZE : ℕ := 512

scoped instance : NeZero PIPESIZE := ⟨by decide⟩

/-- The counters are `uint`. -/
abbrev UINT : ℕ := 2^32

/-- `struct pipe`: `buf` is `data` with the counters `nwrite` (`prod`) and `nread` (`cons`). -/
structure Pipe where
  buf : Ring PIPESIZE UInt8
  readopen : Bool
  writeopen : Bool

def Pipe.nread (pi : Pipe) : ℕ := pi.buf.cons

def Pipe.nwrite (pi : Pipe) : ℕ := pi.buf.prod

/-- `pi->nread == pi->nwrite`. -/
def Pipe.isEmpty (pi : Pipe) : Bool := pi.nread == pi.nwrite

/-- `pi->nwrite == pi->nread + PIPESIZE`. -/
def Pipe.isFull (pi : Pipe) : Bool := pi.nwrite == (pi.nread+PIPESIZE) % UINT

/-- Where a process is.  In `pipewrite`, `unsent` says that bytes were stored since the last
`wakeup(&pi->nread)`; it is not part of the code and no step depends on it. -/
inductive Pc
  /-- Outside the pipe, with the value the last call returned. -/
  | user (ret : ℤ)
  /-- At the head of the loop of `pipewrite`. -/
  | writeTest (i : ℕ) (unsent : Bool) (n : ℤ)
  /-- The reader is there and the process was not killed. -/
  | writeByte (i : ℕ) (unsent : Bool) (n : ℤ)
  /-- In `sleep(&pi->nwrite, &pi->lock)`, SLEEPING or made RUNNABLE. -/
  | writeSleep (i : ℕ) (n : ℤ) (sleeping : Bool)
  /-- At the head of the first loop of `piperead`. -/
  | readTest (n : ℤ)
  /-- The pipe is empty and the process was not killed. -/
  | readWait (n : ℤ)
  /-- In `sleep(&pi->nread, &pi->lock)`. -/
  | readSleep (n : ℤ) (sleeping : Bool)
  /-- At the head of the second loop of `piperead`. -/
  | readByte (i : ℕ) (n : ℤ)
  deriving DecidableEq

/-- `stored` and `removed` list the bytes behind each increment of `nwrite` and `nread`; no step
reads them. -/
structure State where
  pi : Pipe
  lock : Option ℕ
  freed : Bool
  pc : ℕ → Pc
  killed : ℕ → Bool
  stored : List UInt8
  removed : List UInt8

namespace State

/-- After `pipealloc`; `data` is whatever the page held. -/
def init (data : Fin PIPESIZE → UInt8) : State where
  pi := ⟨⟨data,0,0⟩,true,true⟩
  lock := none
  freed := false
  pc _ := .user 0
  killed _ := false
  stored := []
  removed := []

def setPc (s : State) (p : ℕ) (c : Pc) : State := { s with pc := update s.pc p c }

/-- `wakeup(&pi->nread)`. -/
def wakeupRead (s : State) : State :=
  { s with pc := fun q => match s.pc q with
    | .readSleep n _ => .readSleep n false
    | c => c }

/-- `wakeup(&pi->nwrite)`. -/
def wakeupWrite (s : State) : State :=
  { s with pc := fun q => match s.pc q with
    | .writeSleep i n _ => .writeSleep i n false
    | c => c }

/-- `release(&pi->lock)`, with the process at `c` then. -/
def leave (s : State) (p : ℕ) (c : Pc) : State := { s.setPc p c with lock := none }

/-- The next step of a process that holds the lock; `copy` is the byte its `copyin` gets, or
`none` when its `copyin` or `copyout` fails. -/
def run (s : State) (p : ℕ) (copy : Option UInt8) : Option State :=
  match s.pc p with
  | .writeTest i unsent n =>
    if i < n then
      if s.pi.readopen = false ∨ s.killed p = true then some (s.leave p (.user (-1)))
      else some (s.setPc p (.writeByte i unsent n))
    else some (s.wakeupRead.leave p (.user i))
  | .writeByte i _ n =>
    if s.pi.isFull then some (s.wakeupRead.leave p (.writeSleep i n true))
    else
      match copy with
      | none => some (s.wakeupRead.leave p (.user i))
      | some ch => some { s.setPc p (.writeTest (i+1) true n) with
          pi := { s.pi with buf := s.pi.buf.push UINT ch }
          stored := s.stored++[ch] }
  | .readTest n =>
    if s.pi.isEmpty ∧ s.pi.writeopen then
      if s.killed p then some (s.leave p (.user (-1))) else some (s.setPc p (.readWait n))
    else some (s.setPc p (.readByte 0 n))
  | .readWait n => some (s.leave p (.readSleep n true))
  | .readByte i n =>
    if i < n then
      match s.pi.buf.pop UINT with
      | none => some (s.wakeupWrite.leave p (.user i))
      | some (ch,buf) =>
        let s := { s with pi := { s.pi with buf }, removed := s.removed++[ch] }
        if copy.isSome then some (s.setPc p (.readByte (i+1) n))
        else some (s.wakeupWrite.leave p (.user i))
    else some (s.wakeupWrite.leave p (.user i))
  | _ => none

/-- `acquire(&pi->lock)` at the beginning of a call, and at the end of `sleep`. -/
def enter (s : State) (p : ℕ) (c : Pc) : Option State :=
  if s.lock = none ∧ s.freed = false then some { s.setPc p c with lock := some p } else none

def pipewrite (s : State) (p : ℕ) (n : ℤ) : Option State :=
  match s.pc p with
  | .user _ => s.enter p (.writeTest 0 false n)
  | _ => none

def piperead (s : State) (p : ℕ) (n : ℤ) : Option State :=
  match s.pc p with
  | .user _ => s.enter p (.readTest n)
  | _ => none

/-- Back from `sleep`. -/
def resume (s : State) (p : ℕ) : Option State :=
  match s.pc p with
  | .writeSleep i n false => s.enter p (.writeTest i false n)
  | .readSleep n false => s.enter p (.readTest n)
  | _ => none

def pipeclose (s : State) (writable : Bool) : Option State :=
  if s.lock = none ∧ s.freed = false then
    let s := if writable then { s.wakeupRead with pi := { s.pi with writeopen := false } }
      else { s.wakeupWrite with pi := { s.pi with readopen := false } }
    some { s with freed := !s.pi.readopen && !s.pi.writeopen }
  else none

def kkill (s : State) (p : ℕ) : State :=
  { s with
    killed := update s.killed p true
    pc := update s.pc p (match s.pc p with
      | .writeSleep i n _ => .writeSleep i n false
      | .readSleep n _ => .readSleep n false
      | c => c) }

/-- The slot is given to a new process, which has not been killed. -/
def renew (s : State) (p : ℕ) : Option State :=
  match s.pc p with
  | .user _ => some { s with killed := update s.killed p false }
  | _ => none

end State

inductive Event
  | pipewrite (p : ℕ) (n : ℤ)
  | piperead (p : ℕ) (n : ℤ)
  | run (p : ℕ) (copy : Option UInt8)
  | resume (p : ℕ)
  | pipeclose (writable : Bool)
  | kkill (p : ℕ)
  | renew (p : ℕ)

def State.step (s : State) : Event → Option State
  | .pipewrite p n => s.pipewrite p n
  | .piperead p n => s.piperead p n
  | .run p copy => s.run p copy
  | .resume p => s.resume p
  | .pipeclose writable => s.pipeclose writable
  | .kkill p => some (s.kkill p)
  | .renew p => s.renew p

end Pipes
end Xv6
