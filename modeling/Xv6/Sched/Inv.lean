import Xv6.Sched.Model
import Mathlib.Data.Set.Insert

/-! What holds in every state of the kernel, what a thread has to ensure before each command,
and what it can rely on while the others run. -/
namespace Xv6.Sched

variable {n m : ℕ} {δ : Type}

/-- Created and not yet exited. -/
@[grind =] def PState.alive : PState → Bool
  | .sleeping => true
  | .runnable => true
  | .running => true
  | _ => false

/-- Thread `t` runs on CPU `c`. -/
def At (s : State n m δ) (t : Thread n m) (c : Fin m) : Prop :=
  match t with
  | .inl c' => c' = c ∧ s.on c = none
  | .inr p => s.on c = some p

namespace State

variable (s : State n m δ)

/-- Some CPU executes the kernel thread of `p`. -/
@[grind =] def Executing (p : Fin n) : Prop := ∃ c, s.on c = some p

/-- `p` sleeps on `ch`, or will before it gives up `p->lock`. -/
@[grind =] def Waiting (p : Fin n) (ch : Chan n) : Prop :=
  s.drowsy p = some ch ∨ (s.pcb p).state = .sleeping ∧ (s.pcb p).chan = some ch

@[grind =] def Alive (p : Fin n) : Prop := (s.pcb p).state.alive = true

@[grind =] def Zombie (p : Fin n) : Prop := (s.pcb p).state = .zombie

/-- The process with this number has exited. -/
def Exited (b : ℕ) : Prop := ∃ e ∈ s.exits, e.birth = b

/-- What `p->lock` protects, when it is free. -/
@[grind =] def Settled (p : Fin n) : Prop :=
  (s.Executing p ↔ (s.pcb p).state = .running) ∧ s.drowsy p = none

/-- If `p` sleeps in `kwait`, it has a child to wait for and none that has exited. -/
def Contented (p : Fin n) : Prop :=
  s.Waiting p (.proc p) → (∃ q, s.parent q = some p) ∧ ∀ q, s.parent q = some p → ¬s.Zombie q

/-- What `wait_lock` protects: nobody sleeps in `kwait` for nothing. -/
def Patient : Prop := ∀ p, s.Contented p

/-- The parent of a process created it, or is `initproc` and the creator has exited or is the
one process `x` that is just about to. -/
def Heirs (initproc : Fin n) (x : Option (Fin n × ℕ)) : Prop :=
  ∀ q r, s.parent q = some r → s.creator (s.birth q) = (r,s.birth r) ∨
    r = initproc ∧ (s.Exited (s.creator (s.birth q)).2 ∨ some (s.creator (s.birth q)) = x)

/-- What the lock `cond` protects: nobody waits for a condition that is true. -/
def Calm (ready : δ → Bool) : Prop := ∀ p, s.Waiting p .cond → ready s.data = false

/-- The locks that a thread's CPU holds. -/
def owns (t : Thread n m) : Set (Lock n) := {l | ∃ c, At s t c ∧ s.lock l = some c}

/-- Process `p` was just switched to. -/
def Dispatched (p : Fin n) : Prop :=
  s.Executing p ∧ s.owns (.inr p) = {.proc p} ∧ (s.pcb p).state = .running ∧ s.drowsy p = none

/-- Process `p` has just switched back to the scheduler of `c`. -/
def Back (c : Fin m) (p : Fin n) : Prop :=
  s.on c = none ∧ s.owns (.inl c) = {.proc p} ∧ ¬s.Executing p ∧ (s.pcb p).state ≠ .running ∧
    s.drowsy p = none ∧ s.proc c = some p

/-- What a process starts with. -/
def Fresh (p : Fin n) : Prop := s.Alive p → s.embryo p = none ∧ s.hand p = none

end State

/-- CPUs, processes and their locks. -/
structure Cpus (s : State n m δ) : Prop where
  one : ∀ {c c' p}, s.on c = some p → s.on c' = some p → c = c'
  proc : ∀ {c p}, s.on c = some p → s.proc c = some p
  free : ∀ p, s.lock (.proc p) = none → s.Settled p
  away : ∀ {c p}, s.on c = some p → s.lock (.proc p) ≠ some c →
    (s.pcb p).state = .running ∧ s.drowsy p = none
  awake : ∀ {p ch}, s.drowsy p = some ch → s.Executing p
  stale : ∀ {p}, s.stale p = true → ¬s.Executing p ∧ ¬s.Alive p

/-- Parents and children. -/
structure Family (initproc : Fin n) (s : State n m δ) : Prop where
  init : s.Alive initproc
  parent_alive : ∀ {q r}, s.parent q = some r → s.Alive r
  has_parent : ∀ {q}, s.Alive q ∨ s.Zombie q → q ≠ initproc → s.parent q ≠ none
  unused : ∀ {q}, (s.pcb q).state = .unused → s.parent q = none
  embryo : ∀ {p q}, s.embryo p = some q → (s.pcb q).state = .used ∧
    (s.parent q = none ∨ s.parent q = some p) ∧ s.creator (s.birth q) = (p,s.birth p)
  embryo_inj : ∀ {p p' q}, s.embryo p = some q → s.embryo p' = some q → p = p'
  idle : ∀ {p}, ¬s.Alive p → s.embryo p = none ∧ s.hand p = none
  kwait : ∀ {p q}, s.Waiting p (.proc q) → p = q

/-- Process `p`, with number `pb`, may take the result of the process with number `b`. -/
def State.MayReap (s : State n m δ) (initproc : Fin n) (b : ℕ) (p : Fin n) (pb : ℕ) : Prop :=
  s.creator b = (p,pb) ∨ p = initproc ∧ s.Exited (s.creator b).2

/-- Numbers of processes, exits and what `kwait` returned. -/
structure Ledger (initproc : Fin n) (s : State n m δ) : Prop where
  born : ∀ q, s.birth q < s.births
  birth_inj : ∀ {q q'}, (s.pcb q).state ≠ .unused → (s.pcb q').state ≠ .unused →
    s.birth q = s.birth q' → q = q'
  exits_nodup : (s.exits.map (·.birth)).Nodup
  exits_born : ∀ e ∈ s.exits, e.birth < s.births
  exited : ∀ {q}, (s.pcb q).state ≠ .unused → s.Exited (s.birth q) → s.Zombie q
  zombie : ∀ {q}, s.Zombie q → ⟨s.birth q,(s.pcb q).pid,(s.pcb q).xstate⟩ ∈ s.exits
  hand : ∀ {p b}, s.hand p = some b → s.Exited b ∧ s.MayReap initproc b p (s.birth p)
  hand_inj : ∀ {p p' b}, s.hand p = some b → s.hand p' = some b → p = p'
  hand_gone : ∀ {p q}, (s.pcb q).state ≠ .unused → s.hand p ≠ some (s.birth q)
  returned_nodup : (s.returned.map (·.birth)).Nodup
  returned_gone : ∀ {q}, (s.pcb q).state ≠ .unused → ∀ e ∈ s.returned, e.birth ≠ s.birth q
  returned_hand : ∀ {p}, ∀ e ∈ s.returned, s.hand p ≠ some e.birth
  returned : ∀ e ∈ s.returned, (∃ x, ⟨e.birth,e.pid,x⟩ ∈ s.exits ∧ ∀ y ∈ e.status, y = x) ∧
    s.MayReap initproc e.birth e.reaper e.reaperBirth

structure Inv (initproc : Fin n) (ready : δ → Bool) (s : State n m δ) : Prop where
  cpus : Cpus s
  family : Family initproc s
  wait : s.lock .wait = none → s.Patient ∧ s.Heirs initproc none
  cond : s.lock .cond = none → s.Calm ready
  ledger : Ledger initproc s

/-- The changes of `p->state` in the code: `wakeup` and `kkill`, `yield`, `sleep`, `kexit`,
`scheduler` and `kfork`. -/
inductive Changes (initproc : Fin n) (s : State n m δ) : Thread n m → Fin n → PState → Prop
  | wake {t q} (hs : (s.pcb q).state = .sleeping) (hx : ¬s.Executing q) :
      Changes initproc s t q .runnable
  | yield {p} (hs : (s.pcb p).state = .running) (hd : s.drowsy p = none) :
      Changes initproc s (.inr p) p .runnable
  | sleep {p} (hs : (s.pcb p).state = .running) (hd : s.drowsy p = (s.pcb p).chan) :
      Changes initproc s (.inr p) p .sleeping
  | exit {p} (hs : (s.pcb p).state = .running) (hd : s.drowsy p = none)
      (hw : .wait ∈ s.owns (.inr p)) (hi : p ≠ initproc) (he : s.embryo p = none)
      (hh : s.hand p = none) (hc : ∀ q, s.parent q ≠ some p) : Changes initproc s (.inr p) p .zombie
  | dispatch {c q} (hs : (s.pcb q).state = .runnable) (hx : ¬s.Executing q) :
      Changes initproc s (.inl c) q .running
  | fork {p q} (he : s.embryo p = some q) (hp : s.parent q = some p) (hst : s.stale q = false)
      (hx : ¬s.Executing q) : Changes initproc s (.inr p) q .runnable

/-- The uses of `freeproc`: for a process that could not be completed, and in `kwait`. -/
inductive Frees (initproc : Fin n) (s : State n m δ) : Fin n → Fin n → Prop
  | abort {p q} (he : s.embryo p = some q) (hp : s.parent q = none) : Frees initproc s p q
  | reap {p q} (hz : s.Zombie q) (hp : s.parent q = some p) (hw : .wait ∈ s.owns (.inr p))
      (hh : s.hand p = none) (hr : s.MayReap initproc (s.birth q) p (s.birth p)) :
      Frees initproc s p q

/-- The uses of `sleep`: in `kwait`, and for the condition. -/
inductive Dozes (initproc : Fin n) (ready : δ → Bool) (s : State n m δ) (p : Fin n) :
    Lock n → Chan n → Prop
  | wait (hp : s.Patient) (hh : s.Heirs initproc none) (hk : ∃ q, s.parent q = some p)
      (hz : ∀ q, s.parent q = some p → ¬s.Zombie q) : Dozes initproc ready s p .wait (.proc p)
  | cond (hc : s.Calm ready) (hr : ready s.data = false) : Dozes initproc ready s p .cond .cond

/-- The assignments to `np->parent`: in `kfork` and in `reparent`. -/
inductive Adopts (initproc : Fin n) (s : State n m δ) (p : Fin n) : Fin n → Fin n → Prop
  | fork {q} (he : s.embryo p = some q) (hp : s.parent q = none) : Adopts initproc s p q p
  | reparent {q} (hp : s.parent q = some p) (he : s.embryo p = none) :
      Adopts initproc s p q initproc

/-- The condition under which a lock may be released. -/
def Releasable (initproc : Fin n) (ready : δ → Bool) (s : State n m δ) : Lock n → Prop
  | .proc q => s.Settled q
  | .wait => s.Patient ∧ s.Heirs initproc none
  | .cond => s.Calm ready
  | .pid => True

/-- What a thread has to ensure before a command. -/
def Pre (initproc : Fin n) (ready : δ → Bool) (t : Thread n m) (s : State n m δ) : Cmd n δ → Prop
  | .acquire l => l ∉ s.owns t
  | .release l => l ∈ s.owns t ∧ Releasable initproc ready s l
  | .doze l ch => l ∈ s.owns t ∧ ∃ p, t = .inr p ∧ .proc p ∈ s.owns t ∧
      (s.pcb p).state = .running ∧ s.drowsy p = none ∧ Dozes initproc ready s p l ch
  | .setState q state => .proc q ∈ s.owns t ∧ Changes initproc s t q state
  | .setChan q _ => t = .inr q ∧ .proc q ∈ s.owns t ∧ (s.pcb q).state = .running
  | .setKilled q => .proc q ∈ s.owns t
  | .setXstate q _ => t = .inr q ∧ .proc q ∈ s.owns t ∧ (s.pcb q).state = .running
  | .use q _ => .proc q ∈ s.owns t ∧ (s.pcb q).state = .unused ∧ ¬s.Executing q ∧
      ∃ p, t = .inr p ∧ s.embryo p = none ∧ s.Alive p
  | .setContext q => .proc q ∈ s.owns t ∧ ¬s.Executing q ∧ ∃ p, t = .inr p ∧ s.embryo p = some q
  | .freeproc q => .proc q ∈ s.owns t ∧ ¬s.Executing q ∧ ∃ p, t = .inr p ∧ Frees initproc s p q
  | .setParent q r => .wait ∈ s.owns t ∧ ∃ p, t = .inr p ∧ Adopts initproc s p q r
  | .setProc _ => ∃ c, t = .inl c
  | .swtchTo q => (s.pcb q).state = .running ∧ s.drowsy q = none ∧ ¬s.Executing q ∧
      ∃ c, t = .inl c ∧ s.owns t = {.proc q} ∧ s.proc c = some q
  | .swtch => ∃ p, t = .inr p ∧ s.owns t = {.proc p} ∧ (s.pcb p).state ≠ .running ∧
      s.drowsy p = none
  | .setData _ => .cond ∈ s.owns t
  | .slept l => l ∈ s.owns t ∧ ∃ p, t = .inr p ∧ (s.pcb p).chan = none
  | .waitRet (.reaped pid status) => ∃ p b x, t = .inr p ∧ s.hand p = some b ∧
      ⟨b,pid,x⟩ ∈ s.exits ∧ ∀ y ∈ status, y = x
  | .waitRet (.copyFailed q) => ∃ p, t = .inr p ∧ s.parent q = some p ∧ s.Zombie q
  | .panic why => why = .initExiting
  | _ => True

/-- What the other threads leave to process `p` as long as it is alive. -/
structure Own (p : Fin n) (s s' : State n m δ) : Prop where
  alive : s'.Alive p
  birth : s'.birth p = s.birth p
  embryo : s'.embryo p = s.embryo p
  hand : s'.hand p = s.hand p
  chan : (s'.pcb p).chan = (s.pcb p).chan
  child : ∀ q, s.embryo p = some q → (s.stale q = false → s'.stale q = false) ∧
    s'.parent q = s.parent q
  zombie : ∀ q, s.parent q = some p → s.Zombie q → s'.parent q = some p ∧ s'.Zombie q

/-- What thread `t` keeps seeing while it holds the locks `L`. -/
structure Seen (initproc : Fin n) (t : Thread n m) (L : Set (Lock n)) (s s' : State n m δ) :
    Prop where
  held : ∀ q, .proc q ∈ L → s'.pcb q = s.pcb q ∧ s'.drowsy q = s.drowsy q ∧
    ∀ c, s'.on c = some q ↔ s.on c = some q
  parent : .wait ∈ L → ∀ q, s'.parent q = s.parent q
  zombie : .wait ∈ L → ∀ q, s'.Zombie q → s.Zombie q
  waiting : .wait ∈ L → ∀ p r, s'.Waiting p (.proc r) → s.Waiting p (.proc r)
  heirs : .wait ∈ L → ∀ x, s.Heirs initproc x → s'.Heirs initproc x
  data : .cond ∈ L → s'.data = s.data
  calm : .cond ∈ L → ∀ p, s'.Waiting p .cond → s.Waiting p .cond
  exits : ∀ e ∈ s.exits, e ∈ s'.exits
  proc : ∀ c, t = .inl c → s'.proc c = s.proc c
  own : ∀ p, t = .inr p → s.Alive p → Own p s s'

/-- How the state may change while thread `t` does nothing. -/
def View (initproc : Fin n) (t : Thread n m) (s s' : State n m δ) : Prop :=
  ((∃ c, At s t c) → (∃ c, At s' t c) ∧ s'.owns t = s.owns t ∧ Seen initproc t (s.owns t) s s') ∧
  match t with
  | .inl c => ∀ q, s.on c = some q → s'.on c = some q ∨ s'.Back c q
  | .inr p => ¬s.Executing p → (¬s'.Executing p ∨ s'.Dispatched p) ∧
      (s.stale p = true → s'.stale p = true ∧ ¬s'.Executing p) ∧
      (s.Alive p → Seen initproc t ∅ s s') ∧ (¬s.Alive p → s'.Fresh p)

/-- What holds at labels. -/
def AtLabel (initproc : Fin n) (ready : δ → Bool) (s : State n m δ) : Thread n m → Label δ → Prop
  | .inl c, .scheduler => s.on c = none ∧ s.owns (.inl c) = ∅ ∧ s.proc c = none
  | .inr p, .forkret => s.Fresh p ∧ (s.Executing p → s.Dispatched p)
  | .inr p, .user => s.Executing p ∧ s.owns (.inr p) = ∅ ∧ s.embryo p = none ∧ s.hand p = none
  | .inr p, .waitLoop _ => s.Executing p ∧ s.owns (.inr p) = {.wait} ∧ s.embryo p = none ∧
      s.hand p = none ∧ s.Patient ∧ s.Heirs initproc none
  | .inr p, .await _ unsent => s.Executing p ∧ s.owns (.inr p) = {.cond} ∧ s.embryo p = none ∧
      s.hand p = none ∧ (unsent = true ∨ s.Calm ready)
  | _, _ => False

/-- The proof rules of `Threads` at the kernel. -/
def logic (initproc : Fin n) (ready : δ → Bool) :
    Threads.Logic (Thread n m) (Cmd n δ) (Label δ) (State n m δ) where
  inv := Inv initproc ready
  runs t s := ∃ c, At s t c
  pre t x s := Pre initproc ready t s x
  view := View initproc
  label t l s := AtLabel initproc ready s t l

end Xv6.Sched
