import Xv6.Lib.Threads
import Mathlib.Data.List.FinRange
import Mathlib.Data.Int.Notation

/-! Scheduling, sleeping, forking, exiting and waiting: `proc.c` with the locks of
`spinlock.c`, on `m` CPUs with `n` process slots.
Each CPU has a scheduler thread and each slot the kernel thread of its process; a spinlock is
held by a CPU, so that `p->lock` passes with the CPU from the scheduler to the process and
back.  Writes between two lock operations are commands of their own.  Besides `wait_lock`,
there is one more lock `cond` with data of any kind, for processes and interrupts that wait for
a condition on the data and make it true.  Left out are the memory and the files of a process;
`kalloc`, `uvmcopy` and `copyout` fail whenever they like. -/
namespace Xv6.Sched

open Function (update update_apply)

variable {n m : ℕ} {δ α : Type}

inductive Lock (n : ℕ)
  /-- `p->lock`. -/
  | proc (p : Fin n)
  | wait
  | cond
  | pid
  deriving DecidableEq

/-- What a process may sleep on: a process (in `kwait`) or the condition. -/
inductive Chan (n : ℕ)
  | proc (p : Fin n)
  | cond
  deriving DecidableEq

/-- `enum procstate`. -/
inductive PState
  | unused
  | used
  | sleeping
  | runnable
  | running
  | zombie
  deriving DecidableEq

/-- The fields of `struct proc` that `p->lock` protects. -/
structure Pcb (n : ℕ) where
  state : PState
  chan : Option (Chan n)
  killed : Bool
  xstate : ℤ
  pid : ℕ

/-- What a process leaves when it becomes ZOMBIE. -/
structure Exit where
  birth : ℕ
  pid : ℕ
  xstate : ℤ
  deriving DecidableEq

/-- What a successful `kwait` returned and to whom; the status only if it was asked for. -/
structure Reaped (n : ℕ) where
  birth : ℕ
  pid : ℕ
  status : Option ℤ
  reaper : Fin n
  reaperBirth : ℕ

/-- The fields from `stale` on are history: no step of the code depends on them. -/
structure State (n m : ℕ) (δ : Type) where
  pcb : Fin n → Pcb n
  parent : Fin n → Option (Fin n)
  /-- The CPU that holds a lock. -/
  lock : Lock n → Option (Fin m)
  /-- The process whose kernel thread a CPU executes, if it is not in the scheduler. -/
  on : Fin m → Option (Fin n)
  /-- `c->proc`. -/
  proc : Fin m → Option (Fin n)
  nextpid : ℕ
  data : δ
  /-- The saved context is that of a process that exited. -/
  stale : Fin n → Bool
  /-- What a process in `sleep` is about to sleep on, once it has released the lock. -/
  drowsy : Fin n → Option (Chan n)
  /-- The process that a process in `kfork` is creating. -/
  embryo : Fin n → Option (Fin n)
  /-- Every process gets a number of its own; slots and pids can be used again. -/
  birth : Fin n → ℕ
  births : ℕ
  /-- Who created a process. -/
  creator : ℕ → Fin n × ℕ
  /-- The process that a process in `kwait` has freed and not yet reported. -/
  hand : Fin n → Option ℕ
  exits : List Exit
  returned : List (Reaped n)

/-- The possible results of `kwait`; only the first is a success. -/
inductive WaitResult (n : ℕ)
  | reaped (pid : ℕ) (status : Option ℤ)
  | copyFailed (child : Fin n)
  | noChild

inductive Panic
  | schedLock
  | schedLocks
  | schedRunning
  | schedInterruptible
  | initExiting
  | zombieExit
  deriving DecidableEq

inductive Cmd (n : ℕ) (δ : Type)
  | acquire (l : Lock n)
  | release (l : Lock n)
  /-- The `release(lk)` of `sleep(chan, lk)`. -/
  | doze (l : Lock n) (ch : Chan n)
  | holding (l : Lock n)
  | noff
  | intrGet
  | myproc
  | pcb (q : Fin n)
  | setState (q : Fin n) (state : PState)
  | setChan (q : Fin n) (ch : Option (Chan n))
  | setKilled (q : Fin n)
  | setXstate (q : Fin n) (x : ℤ)
  /-- `allocproc` takes a slot. -/
  | use (q : Fin n) (pid : ℕ)
  /-- Let the process start at `forkret`. -/
  | setContext (q : Fin n)
  | freeproc (q : Fin n)
  | parentOf (q : Fin n)
  | setParent (q : Fin n) (r : Fin n)
  | setProc (p : Option (Fin n))
  /-- From the scheduler to a process. -/
  | swtchTo (q : Fin n)
  /-- From a process to the scheduler of its CPU. -/
  | swtch
  | nextpid
  | setNextpid (k : ℕ)
  | data
  | setData (d : δ)
  /-- Whether a call that may fail does. -/
  | fails
  /-- `sleep` has returned. -/
  | slept (l : Lock n)
  /-- `kwait` returns. -/
  | waitRet (r : WaitResult n)
  | panic (why : Panic)

abbrev Cmd.Result : Cmd n δ → Type
  | .holding _ => Bool
  | .noff => ℕ
  | .intrGet => Bool
  | .myproc => Option (Fin n)
  | .pcb _ => Pcb n
  | .parentOf _ => Option (Fin n)
  | .nextpid => ℕ
  | .data => δ
  | .fails => Bool
  | .panic _ => Empty
  | _ => Unit

abbrev Code (n : ℕ) (δ α : Type) := Free (Cmd n δ) Cmd.Result α

/-- A scheduler or the kernel thread of a process. -/
abbrev Thread (n m : ℕ) := Fin m ⊕ Fin n

/-- What code does with the data under the lock `cond`. -/
inductive Act (δ : Type)
  | update (f : δ → δ)
  | wake

/-- What a process in user space may ask for. -/
inductive Call (δ : Type)
  | nop
  | fork
  | exit (status : ℤ)
  | wait (addr : ℕ)
  | kill (pid : ℕ)
  | setkilled
  | yield
  /-- Act under the lock `cond`, and then wait for the condition before each further part. -/
  | use (acts : List (Act δ)) (parts : List (List (Act δ)))

/-- What the code does not determine: the CPU a process is looked for on, failures, calls, and
interrupts (a device interrupt acts under the lock `cond`, a timer interrupt yields). -/
structure Input (m : ℕ) (δ : Type) where
  cpu : Fin m
  fails : Bool
  call : Call δ
  device : Option (List (Act δ))

/-- Where the endless loops and new processes start. -/
inductive Label (δ : Type)
  | scheduler
  | forkret
  | user
  /-- `for(;;)` in `kwait`. -/
  | waitLoop (addr : ℕ)
  /-- `while(!cond) sleep(chan, lk)` and what comes then; `unsent` if the condition was made
  true without a `wakeup` since. -/
  | await (parts : List (List (Act δ))) (unsent : Bool)

/-! The code. -/

def call (x : Cmd n δ) : Code n δ x.Result := Free.command x

def panic (why : Panic) : Code n δ α := .call (.panic why) fun e => e.elim

def slots (n : ℕ) : List (Fin n) := List.finRange n

/-- The body of the loop of `wakeup`. -/
def rouse (ch : Option (Chan n)) (q : Fin n) : Code n δ PUnit := do
  let me ← call .myproc
  if me ≠ some q then
    call (.acquire (.proc q))
    let b ← call (.pcb q)
    if b.state = .sleeping ∧ b.chan = ch then
      call (.setState q .runnable)
    call (.release (.proc q))

def wakeup (ch : Option (Chan n)) : Code n δ PUnit := (slots n).forM (rouse ch)

/-- The loop of `kkill`; false for `-1`. -/
def kkillFrom (pid : ℕ) : List (Fin n) → Code n δ Bool
  | [] => pure false
  | q::qs => do
    call (.acquire (.proc q))
    let b ← call (.pcb q)
    if b.pid = pid then
      call (.setKilled q)
      if b.state = .sleeping then
        call (.setState q .runnable)
      call (.release (.proc q))
      pure true
    else
      call (.release (.proc q))
      kkillFrom pid qs

def kkill (pid : ℕ) : Code n δ Bool := kkillFrom pid (slots n)

def setkilled (p : Fin n) : Code n δ Unit := do
  call (.acquire (.proc p))
  call (.setKilled p)
  call (.release (.proc p))

def killed (p : Fin n) : Code n δ Bool := do
  call (.acquire (.proc p))
  let b ← call (.pcb p)
  call (.release (.proc p))
  pure b.killed

def sched (p : Fin n) : Code n δ Unit := do
  if !(← call (.holding (.proc p))) then panic .schedLock else
  if (← call .noff) ≠ 1 then panic .schedLocks else
  if (← call (.pcb p)).state = .running then panic .schedRunning else
  if ← call .intrGet then panic .schedInterruptible else
  call .swtch

def yield (p : Fin n) : Code n δ Unit := do
  call (.acquire (.proc p))
  call (.setState p .runnable)
  sched p
  call (.release (.proc p))

def sleep (p : Fin n) (ch : Chan n) (l : Lock n) : Code n δ Unit := do
  call (.acquire (.proc p))
  call (.doze l ch)
  call (.setChan p (some ch))
  call (.setState p .sleeping)
  sched p
  call (.setChan p none)
  call (.release (.proc p))
  call (.acquire l)
  call (.slept l)

/-- The body of the loop of `scheduler`. -/
def visit (q : Fin n) : Code n δ PUnit := do
  call (.acquire (.proc q))
  let b ← call (.pcb q)
  if b.state = .runnable then
    call (.setState q .running)
    call (.setProc (some q))
    call (.swtchTo q)
    call (.setProc none)
  call (.release (.proc q))

def allocpid : Code n δ ℕ := do
  call (.acquire .pid)
  let pid ← call .nextpid
  call (.setNextpid (pid+1))
  call (.release .pid)
  pure pid

/-- `allocproc` from `found:` on. -/
def found (q : Fin n) : Code n δ (Option (Fin n)) := do
  let pid ← allocpid
  call (.use q pid)
  -- the trapframe
  if ← call .fails then
    call (.freeproc q)
    call (.release (.proc q))
    pure none
  -- the page table
  else if ← call .fails then
    call (.freeproc q)
    call (.release (.proc q))
    pure none
  else
    call (.setContext q)
    pure (some q)

/-- The loop of `allocproc`; the slot it returns is locked. -/
def allocFrom : List (Fin n) → Code n δ (Option (Fin n))
  | [] => pure none
  | q::qs => do
    call (.acquire (.proc q))
    let b ← call (.pcb q)
    if b.state = .unused then found q
    else
      call (.release (.proc q))
      allocFrom qs

def allocproc : Code n δ (Option (Fin n)) := allocFrom (slots n)

/-- The pid of the child, or none for `-1`. -/
def kfork (p : Fin n) : Code n δ (Option ℕ) := do
  match ← allocproc with
  | none => pure none
  | some np => do
    -- uvmcopy
    if ← call .fails then
      call (.freeproc np)
      call (.release (.proc np))
      pure none
    else
      let b ← call (.pcb np)
      call (.release (.proc np))
      call (.acquire .wait)
      call (.setParent np p)
      call (.release .wait)
      call (.acquire (.proc np))
      call (.setState np .runnable)
      call (.release (.proc np))
      pure (some b.pid)

/-- The body of the loop of `reparent`. -/
def handOver (initproc p q : Fin n) : Code n δ PUnit := do
  if (← call (.parentOf q)) = some p then
    call (.setParent q initproc)
    wakeup (some (.proc initproc))

def reparent (initproc p : Fin n) : Code n δ PUnit := (slots n).forM (handOver initproc p)

def kexit (initproc p : Fin n) (status : ℤ) : Code n δ α := do
  if p = initproc then panic .initExiting else
  call (.acquire .wait)
  reparent initproc p
  wakeup ((← call (.parentOf p)).map .proc)
  call (.acquire (.proc p))
  call (.setXstate p status)
  call (.setState p .zombie)
  call (.release .wait)
  sched p
  panic .zombieExit

/-- The scan of the table in `kwait`: its result, or whether the process has children. -/
def scan (p : Fin n) (addr : ℕ) : List (Fin n) → Bool → Code n δ (WaitResult n ⊕ Bool)
  | [], havekids => pure (.inr havekids)
  | q::qs, havekids => do
    if (← call (.parentOf q)) = some p then
      call (.acquire (.proc q))
      let b ← call (.pcb q)
      if b.state = .zombie then
        let failed ← if addr ≠ 0 then call .fails else pure false
        if failed then
          call (.release (.proc q))
          call (.release .wait)
          pure (.inl (.copyFailed q))
        else
          call (.freeproc q)
          call (.release (.proc q))
          call (.release .wait)
          pure (.inl (.reaped b.pid (if addr ≠ 0 then some b.xstate else none)))
      else
        call (.release (.proc q))
        scan p addr qs true
    else scan p addr qs havekids

/-- Once round the loop of `kwait`. -/
def waitRound (p : Fin n) (addr : ℕ) : Code n δ (Label δ) := do
  match ← scan p addr (slots n) false with
  | .inl r => do
    call (.waitRet r)
    pure .user
  | .inr havekids => do
    let stop ← if havekids then killed p else pure true
    if stop then
      call (.release .wait)
      call (.waitRet .noChild)
      pure .user
    else
      sleep p (.proc p) .wait
      pure (.waitLoop addr)

section Condition

variable (ready : δ → Bool)

/-- Work on the data; true if the condition was made true without a `wakeup` since. -/
def drive : List (Act δ) → Bool → Code n δ Bool
  | [], unsent => pure unsent
  | .wake::acts, _ => do
    wakeup (some .cond)
    drive acts false
  | .update f::acts, unsent => do
    let d ← call .data
    call (.setData (f d))
    drive acts (unsent || (!ready d && ready (f d)))

/-- End the work: call `wakeup` if that is still to be done, and release the lock. -/
def finish (unsent : Bool) : Code n δ Unit := do
  if unsent then wakeup (some .cond)
  call (.release .cond)

/-- The handler of a device interrupt. -/
def device (acts : List (Act δ)) : Code n δ Unit := do
  call (.acquire .cond)
  let unsent ← drive ready acts false
  finish unsent

/-- Test the condition; sleep, or go on. -/
def awaitRound (p : Fin n) (parts : List (List (Act δ))) (unsent : Bool) :
    Code n δ (Label δ) := do
  match parts with
  | [] => do
    finish unsent
    pure .user
  | acts::parts => do
    if ready (← call .data) then
      let unsent ← drive ready acts unsent
      pure (.await parts unsent)
    else
      sleep p .cond .cond
      pure (.await (acts::parts) false)

end Condition

/-! The machine. -/

/-- The locks, each once. -/
def locks (n : ℕ) : List (Lock n) := .wait::.cond::.pid::(slots n).map .proc

namespace State

variable (s : State n m δ)

/-- `noff` of a CPU: how many locks it holds. -/
def noff (c : Fin m) : ℕ := (locks n).countP fun l => s.lock l = some c

/-- Interrupts are enabled while no lock is held. -/
def intrGet (c : Fin m) : Bool := s.noff c = 0

def setLock (l : Lock n) (c : Option (Fin m)) : State n m δ :=
  { s with lock := update s.lock l c }

def setPcb (q : Fin n) (b : Pcb n) : State n m δ :=
  { s with pcb := update s.pcb q b }

/-- `p->state = state`, by the process `p` if it is not by a scheduler. -/
def setState (p : Option (Fin n)) (q : Fin n) (state : PState) : State n m δ :=
  { s.setPcb q { s.pcb q with state := state } with
    drowsy := update s.drowsy q none
    embryo := fun r => if p = some r ∧ s.embryo r = some q then none else s.embryo r
    exits := if state = .zombie then s.exits ++ [⟨s.birth q,(s.pcb q).pid,(s.pcb q).xstate⟩]
      else s.exits }

/-- Process `p` takes the slot `q`. -/
def use (p q : Fin n) (pid : ℕ) : State n m δ :=
  { s.setPcb q { s.pcb q with pid := pid, state := .used } with
    embryo := update s.embryo p (some q)
    birth := update s.birth q s.births
    births := s.births+1
    creator := update s.creator s.births (p,s.birth p) }

/-- Process `p` frees the slot `q`, in `kwait` if it was a ZOMBIE. -/
def freeproc (p q : Fin n) : State n m δ :=
  { s.setPcb q ⟨.unused,none,false,0,0⟩ with
    parent := update s.parent q none
    stale := update s.stale q true
    embryo := fun r => if p = r ∧ s.embryo r = some q then none else s.embryo r
    hand := if (s.pcb q).state = .zombie then update s.hand p (some (s.birth q))
      else s.hand }

/-- `kwait` returns the pid, and the status if it was copied out, to process `p`. -/
def deliver (p : Fin n) (pid : ℕ) (status : Option ℤ) : State n m δ :=
  { s with
    hand := update s.hand p none
    returned := s.returned ++ (s.hand p).toList.map fun b => ⟨b,pid,status,p,s.birth p⟩ }

variable {s} {l l' : Lock n} {q r : Fin n} {b : Pcb n}

@[grind =] theorem setLock_lock {c : Option (Fin m)} :
    (s.setLock l c).lock l' = if l' = l then c else s.lock l' :=
  update_apply ..

@[grind =] theorem setPcb_pcb : (s.setPcb q b).pcb r = if r = q then b else s.pcb r :=
  update_apply ..

@[grind =] theorem setState_pcb {p : Option (Fin n)} {state : PState} :
    (s.setState p q state).pcb r = if r = q then { s.pcb q with state := state } else s.pcb r :=
  setPcb_pcb

@[grind =] theorem setState_drowsy {p : Option (Fin n)} {state : PState} :
    (s.setState p q state).drowsy r = if r = q then none else s.drowsy r :=
  update_apply ..

end State

/-- The process that a thread belongs to. -/
def self : Thread n m → Option (Fin n)
  | .inl _ => none
  | .inr p => some p

/-- The CPU that a thread runs on. -/
def place (t : Thread n m) (w : Input m δ) (s : State n m δ) : Option (Fin m) :=
  match t with
  | .inl c => if s.on c = none then some c else none
  | .inr p => if s.on w.cpu = some p then some w.cpu else none

/-- A command on CPU `c`.  A lock that is held, a panic and a command that the thread does not
use stop it. -/
def act (t : Thread n m) (c : Fin m) (w : Input m δ) (s : State n m δ) :
    (x : Cmd n δ) → Option (x.Result × State n m δ)
  | .acquire l => if s.lock l = none then some ((),s.setLock l (some c)) else none
  | .release l => if s.lock l = some c then some ((),s.setLock l none) else none
  | .doze l ch =>
    match t with
    | .inr p =>
      if s.lock l = some c then
        some ((),{ s.setLock l none with drowsy := update s.drowsy p (some ch) })
      else none
    | .inl _ => none
  | .holding l => some (decide (s.lock l = some c),s)
  | .noff => some (s.noff c,s)
  | .intrGet => some (s.intrGet c,s)
  | .myproc => some (s.proc c,s)
  | .pcb q => some (s.pcb q,s)
  | .setState q state => some ((),s.setState (self t) q state)
  | .setChan q ch => some ((),s.setPcb q { s.pcb q with chan := ch })
  | .setKilled q => some ((),s.setPcb q { s.pcb q with killed := true })
  | .setXstate q x => some ((),s.setPcb q { s.pcb q with xstate := x })
  | .use q pid => (self t).map fun p => ((),s.use p q pid)
  | .setContext q => some ((),{ s with stale := update s.stale q false })
  | .freeproc q => (self t).map fun p => ((),s.freeproc p q)
  | .parentOf q => some (s.parent q,s)
  | .setParent q r => some ((),{ s with parent := update s.parent q (some r) })
  | .setProc p => some ((),{ s with proc := update s.proc c p })
  | .swtchTo q => some ((),{ s with on := update s.on c (some q) })
  | .swtch => (self t).map fun p => ((),{ s with
      on := update s.on c none
      stale := update s.stale p (decide ((s.pcb p).state = .zombie)) })
  | .nextpid => some (s.nextpid,s)
  | .setNextpid k => some ((),{ s with nextpid := k })
  | .data => some (s.data,s)
  | .setData d => some ((),{ s with data := d })
  | .fails => some (w.fails,s)
  | .slept _ => some ((),s)
  | .waitRet (.reaped pid status) => (self t).map fun p => ((),s.deliver p pid status)
  | .waitRet _ => some ((),s)
  | .panic _ => none

/-- What a process does with a call. -/
def syscall (initproc : Fin n) (ready : δ → Bool) (p : Fin n) : Call δ → Code n δ (Label δ)
  | .nop => pure .user
  | .fork => do
    let _ ← kfork p
    pure .user
  | .exit status => kexit initproc p status
  | .wait addr => do
    call (.acquire .wait)
    pure (.waitLoop addr)
  | .kill pid => do
    let _ ← kkill pid
    pure .user
  | .setkilled => do
    setkilled p
    pure .user
  | .yield => do
    yield p
    pure .user
  | .use acts parts => do
    call (.acquire .cond)
    let unsent ← drive ready acts false
    pure (.await parts unsent)

/-- Interrupts come at the start of each round. -/
def schedulerRound (ready : δ → Bool) (w : Input m δ) : Code n δ (Label δ) := do
  match w.device with
  | none => pure ()
  | some acts => device ready acts
  (slots n).forM visit
  pure .scheduler

/-- `forkret` as far as the process table goes. -/
def forkret (p : Fin n) : Code n δ (Label δ) := do
  call (.release (.proc p))
  pure .user

def code (initproc : Fin n) (ready : δ → Bool) (w : Input m δ) :
    Thread n m → Label δ → Code n δ (Label δ)
  | .inl _, .scheduler => schedulerRound ready w
  | .inr p, .forkret => forkret p
  | .inr p, .user => syscall initproc ready p w.call
  | .inr p, .waitLoop addr => waitRound p addr
  | .inr p, .await parts unsent => awaitRound ready p parts unsent
  | _, l => pure l

/-- The kernel, given `initproc` and the condition. -/
def kernel (initproc : Fin n) (ready : δ → Bool) :
    Threads (Thread n m) (Cmd n δ) Cmd.Result (Label δ) (Input m δ) (State n m δ) where
  exec t x w s := (place t w s).bind fun c => act t c w s x
  code t l w := code initproc ready w t l
  starts
    | .setContext q => some (.inr q,.forkret)
    | _ => none
  enabled t s :=
    match t with
    | .inl _ => false
    | .inr p => decide (∃ c, s.on c = some p ∧ s.intrGet c = true)
  handler t w :=
    match t,w.device with
    | .inr _,some acts => device ready acts
    | .inr p,none => yield p
    | .inl _,_ => pure ()

/-- After `userinit`: the first process is RUNNABLE, all other slots are UNUSED. -/
def boot (initproc : Fin n) (d : δ) : State n m δ where
  pcb q := if q = initproc then ⟨.runnable,none,false,0,1⟩ else ⟨.unused,none,false,0,0⟩
  parent _ := none
  lock _ := none
  on _ := none
  proc _ := none
  nextpid := 2
  data := d
  stale q := decide (q ≠ initproc)
  drowsy _ := none
  embryo _ := none
  birth _ := 0
  births := 1
  creator _ := (initproc,0)
  hand _ := none
  exits := []
  returned := []

abbrev Config (n m : ℕ) (δ : Type) :=
  Threads.Config (Thread n m) (Cmd n δ) Cmd.Result (Label δ) (State n m δ)

/-- Every CPU in its scheduler, and every process about to start. -/
def start (initproc : Fin n) (d : δ) : Config n m δ where
  st := boot initproc d
  prog
    | .inl _ => .pure .scheduler
    | .inr _ => .pure .forkret

/-- The states that the kernel reaches, for any interleaving of commands and interrupts. -/
def Reached (initproc : Fin n) (ready : δ → Bool) (d : δ) (x : Config n m δ) : Prop :=
  Reaches (kernel initproc ready).step (fun _ _ => True) (start initproc d) x

end Xv6.Sched
