import Xv6.Lib.Machine
import Xv6.Log.Model
import Mathlib.Data.Finset.Card

/-! The `begin_op`/`log_write`/`end_op` protocol of `log.c` for any number of processes.
Each critical section under `log.lock` is one step.  `commit()` runs without the lock, so
each of its block writes is a step of its own.  The last four fields of the state record
the history of the operations and are read by no step. -/
namespace Xv6
namespace RedoLog

open Function

inductive Panic
  | tooBigATransaction | logWriteOutsideOfTrans | logCommitting
  deriving DecidableEq

/-- Where a process stands inside `commit()`. -/
inductive CommitPc
  | enter | writeLog (tail : ℕ) | writeHead | install (tail : ℕ) | clear | clearHead | leave
  deriving DecidableEq

/-- Where a process stands with respect to the log.  `asleep` is SLEEPING on `&log` inside
`begin_op`, `woken` is runnable there and about to test again. -/
inductive Pc
  | idle | woken | asleep | inOp | commit (at_ : CommitPc)
  deriving DecidableEq

/-- One operation: the process that runs it, the blocks it logged, whether it has ended. -/
structure Op where
  id : ℕ
  pid : ℕ
  blocks : List ℕ
  ended : Bool
  deriving DecidableEq

/-- One run of `commit()`: its operations, the home blocks copied to the log, those named
by the header written, and those installed. -/
structure Commit where
  ops : List Op
  logged : List ℕ
  header : List ℕ
  installed : List ℕ

structure State where
  outstanding : ℤ
  committing : Bool
  lh : LogHeader
  pc : ℕ → Pc
  panicked : Option Panic
  nextId : ℕ
  ops : List Op
  cur : Commit
  commits : List Commit

def noCommit : Commit := ⟨[],[],[],[]⟩

def init : State := ⟨0,false,⟨0,fun _ => 0⟩,fun _ => .idle,none,0,[],noCommit,[]⟩

/-- The block numbers in use, `block[0..n)`. -/
def LogHeader.logged (lh : LogHeader) : List ℕ := (List.range lh.n).map lh.block

/-- The first index that holds `b`, else `n`. -/
def LogHeader.search (lh : LogHeader) (b : ℕ) : ℕ :=
  ((List.range lh.n).find? fun i => lh.block i = b).getD lh.n

/-- The header update of `log_write`: absorb `b` or append it. -/
def LogHeader.logWrite (lh : LogHeader) (b : ℕ) : LogHeader :=
  ⟨if lh.search b = lh.n then lh.n+1 else lh.n,update lh.block (lh.search b) b⟩

/-- `wakeup(&log)`. -/
def wakeup (pc : ℕ → Pc) (q : ℕ) : Pc := if pc q = .asleep then .woken else pc q

def Op.record (p b : ℕ) (o : Op) : Op :=
  if o.pid = p ∧ o.ended = false then { o with blocks := o.blocks ++ [b] } else o

def Op.finish (p : ℕ) (o : Op) : Op :=
  if o.pid = p ∧ o.ended = false then { o with ended := true } else o

/-- The test of `begin_op`; a process that fails it sleeps and tests again when woken. -/
def beginOp (s : State) (p : ℕ) : State :=
  if s.committing = true then
    { s with pc := update s.pc p .asleep }
  else if (s.lh.n : ℤ) + (s.outstanding+1)*MAXOPBLOCKS > LOGBLOCKS then
    { s with pc := update s.pc p .asleep }
  else
    { s with
      outstanding := s.outstanding+1
      pc := update s.pc p .inOp
      nextId := s.nextId+1
      ops := s.ops ++ [⟨s.nextId,p,[],false⟩] }

/-- The first critical section of `end_op`. -/
def endOp (s : State) (p : ℕ) : State :=
  if s.committing = true then
    { s with outstanding := s.outstanding-1, panicked := some .logCommitting }
  else if s.outstanding-1 = 0 then
    { s with
      outstanding := s.outstanding-1
      committing := true
      pc := update s.pc p (.commit .enter)
      ops := s.ops.map (Op.finish p) }
  else
    { s with
      outstanding := s.outstanding-1
      pc := update (wakeup s.pc) p .idle
      ops := s.ops.map (Op.finish p) }

def logWrite (s : State) (p b : ℕ) : State :=
  if s.lh.n ≥ LOGBLOCKS then
    { s with panicked := some .tooBigATransaction }
  else if s.outstanding < 1 then
    { s with panicked := some .logWriteOutsideOfTrans }
  else
    { s with lh := s.lh.logWrite b, ops := s.ops.map (Op.record p b) }

/-- One step of `commit()` by process `p`; `leave` is the last critical section of `end_op`. -/
def commitStep (s : State) (p : ℕ) : CommitPc → State
  | .enter =>
    if s.lh.n > 0 then { s with pc := update s.pc p (.commit (.writeLog 0)) }
    else { s with pc := update s.pc p (.commit .leave) }
  | .writeLog tail =>
    if tail < s.lh.n then
      { s with
        cur := { s.cur with logged := s.cur.logged ++ [s.lh.block tail] }
        pc := update s.pc p (.commit (.writeLog (tail+1))) }
    else { s with pc := update s.pc p (.commit .writeHead) }
  | .writeHead =>
    { s with
      cur := { s.cur with header := s.lh.logged }
      pc := update s.pc p (.commit (.install 0)) }
  | .install tail =>
    if tail < s.lh.n then
      { s with
        cur := { s.cur with installed := s.cur.installed ++ [s.lh.block tail] }
        pc := update s.pc p (.commit (.install (tail+1))) }
    else { s with pc := update s.pc p (.commit .clear) }
  | .clear =>
    { s with
      lh := { s.lh with n := 0 }
      pc := update s.pc p (.commit .clearHead) }
  | .clearHead => { s with pc := update s.pc p (.commit .leave) }
  | .leave =>
    { s with
      committing := false
      pc := update (wakeup s.pc) p .idle
      ops := []
      cur := noCommit
      commits := s.commits ++ [{ s.cur with ops := s.ops }] }

/-- `kill p` is a `kkill` that makes a sleeper runnable. -/
inductive Event
  | beginOp (p : ℕ) | logWrite (p b : ℕ) | endOp (p : ℕ) | commit (p : ℕ) | kill (p : ℕ)

/-- Each process brackets its `log_write`s between one `begin_op` and one `end_op`; a
panic stops the machine. -/
def step (s : State) (e : Event) : Option State :=
  if s.panicked.isSome then none
  else match e with
  | .beginOp p => if s.pc p = .idle ∨ s.pc p = .woken then some (beginOp s p) else none
  | .logWrite p b => if s.pc p = .inOp then some (logWrite s p b) else none
  | .endOp p => if s.pc p = .inOp then some (endOp s p) else none
  | .commit p =>
    match s.pc p with
    | .commit c => some (commitStep s p c)
    | _ => none
  | .kill p =>
    if s.pc p = .asleep then some { s with pc := update s.pc p .woken } else none

end RedoLog
end Xv6
