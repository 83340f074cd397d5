import Xv6.Lib.Machine
import Xv6.Param
import Xv6.Sched.Model

/-! Pids and `kill`.
Here a call runs to its end before the next one starts.  Of `struct proc` only the state, the
pid, the killed flag and the parent are kept; sleeping, waking and scheduling are moves of their
own, since no channel is. -/
namespace Xv6.Pids

open Function (update update_eq_self update_idem update_of_ne update_self)
open Sched (PState)

abbrev NPROC : ℕ := 64

scoped instance : NeZero NPROC := ⟨by decide⟩

structure Proc where
  state : PState
  pid : ℤ
  killed : Bool
  parent : Option (Fin NPROC)

/-- What `freeproc` leaves, and what the table holds at boot. -/
def Proc.free : Proc := ⟨.unused,0,false,none⟩

structure State where
  proc : Fin NPROC → Proc
  /-- The word of the `int` variable `nextpid`. -/
  nextpid : ℕ
  /-- The calls of `allocpid` so far; no call looks at it. -/
  created : ℕ

def initproc : Fin NPROC := 0

namespace State

variable (s : State)

def set (p : Fin NPROC) (x : Proc) : State := { s with proc := update s.proc p x }

/-- `allocpid` -/
def allocpid : State := { s with nextpid := (s.nextpid + 1) % 2^32, created := s.created + 1 }

/-- The first slot `allocproc` can use. -/
def unused : Option (Fin NPROC) :=
  (List.finRange NPROC).find? fun p => decide ((s.proc p).state = .unused)

/-- The process that `allocproc` makes in slot `q`. -/
def allocproc (q : Fin NPROC) : State :=
  s.allocpid.set q { s.proc q with state := .used, pid := toInt32 s.nextpid }

def freeproc (q : Fin NPROC) : State := s.set q .free

/-- `kfork`; `copied` is false when there is not enough memory for the new process. -/
def kfork (p : Fin NPROC) (copied : Bool) : State :=
  match s.unused with
  | none => s
  | some q =>
    let t := s.allocproc q
    if copied then t.set q { t.proc q with state := .runnable, parent := some p }
    else t.freeproc q

def reparent (p : Fin NPROC) : State :=
  { s with proc := fun q =>
      if (s.proc q).parent = some p then { s.proc q with parent := some initproc } else s.proc q }

/-- `kexit`; `none` is the panic of `initproc`. -/
def kexit (p : Fin NPROC) : Option State :=
  if p = initproc then none
  else
    let t := s.reparent p
    some (t.set p { t.proc p with state := .zombie })

/-- `kwait`, until it returns or sleeps; `copied` is false when `copyout` fails. -/
def kwait (p : Fin NPROC) (copied : Bool) : State :=
  match (List.finRange NPROC).find? fun q =>
      decide ((s.proc q).parent = some p ∧ (s.proc q).state = .zombie) with
  | some q => if copied then s.freeproc q else s
  | none =>
    if (∀ q, (s.proc q).parent ≠ some p) ∨ (s.proc p).killed then s
    else s.set p { s.proc p with state := .sleeping }

def kkill (pid : ℤ) : ℤ × State :=
  match (List.finRange NPROC).find? fun q => decide ((s.proc q).pid = pid) with
  | none => (-1,s)
  | some q =>
    (0,s.set q { s.proc q with
      killed := true
      state := if (s.proc q).state = .sleeping then .runnable else (s.proc q).state })

def sysKill (pid : ℤ) : ℤ × State :=
  if pid = 1 then (-1,s)
  else if pid ≤ 0 ∨ 32768 < pid then (-1,s)
  else s.kkill pid

/-- After `userinit`. -/
def boot : State := set ⟨fun _ => .free,2,1⟩ initproc ⟨.runnable,1,false,none⟩

end State

/-- Where the moves of the scheduler and of `sleep` and `wakeup` may take a process. -/
def movable (st : PState) : Bool := st = .sleeping ∨ st = .runnable ∨ st = .running

inductive Event
  | fork (p : Fin NPROC) (copied : Bool)
  | exit (p : Fin NPROC)
  | wait (p : Fin NPROC) (copied : Bool)
  | kill (p : Fin NPROC) (pid : ℤ)
  | move (p : Fin NPROC) (state : PState)

/-- A process calls while it is RUNNING. -/
def step (s : State) : Event → Option State
  | .fork p copied => if (s.proc p).state = .running then some (s.kfork p copied) else none
  | .exit p => if (s.proc p).state = .running then s.kexit p else none
  | .wait p copied => if (s.proc p).state = .running then some (s.kwait p copied) else none
  | .kill p pid => if (s.proc p).state = .running then some (s.sysKill pid).2 else none
  | .move p state =>
    if movable (s.proc p).state ∧ movable state then some (s.set p { s.proc p with state := state })
    else none

/-- The states of a kernel that has made fewer than `2^31 - 1` processes. -/
def Run (s : State) : Prop := Reaches step (fun _ _ => True) .boot s ∧ s.created < 2^31 - 1

/-- The slot is in use. -/
def Alive (s : State) (q : Fin NPROC) : Prop := (s.proc q).state ≠ .unused

variable {s t : State} {p q : Fin NPROC}

@[simp] theorem State.set_self (s : State) (p : Fin NPROC) (x : Proc) : (s.set p x).proc p = x :=
  update_self ..

theorem State.set_other (s : State) {p q : Fin NPROC} (x : Proc) (h : q ≠ p) :
    (s.set p x).proc q = s.proc q := update_of_ne h ..

/-- Every process has a pid of its own, handed out by `allocpid`. -/
structure Numbered (s : State) : Prop where
  next : s.nextpid = s.created + 1
  bound : ∀ q, Alive s q → 1 ≤ (s.proc q).pid ∧ (s.proc q).pid ≤ s.created
  inj : ∀ q r, Alive s q → Alive s r → (s.proc q).pid = (s.proc r).pid → q = r
  free : ∀ q, ¬ Alive s q → (s.proc q).pid = 0

theorem boot_init : State.boot.proc initproc = ⟨.runnable,1,false,none⟩ := State.set_self ..

theorem boot_other (h : q ≠ initproc) : State.boot.proc q = .free := State.set_other _ _ h

theorem numbered_boot : Numbered .boot := by
  have hproc (q : Fin NPROC) (hq : Alive .boot q) : q = initproc := by
    by_contra hne
    rw [Alive,boot_other hne] at hq
    exact hq rfl
  refine ⟨rfl,fun q hq => ?_,fun q r hq hr _ => (hproc q hq).trans (hproc r hr).symm,fun q hq => ?_⟩
  · rw [hproc q hq,boot_init]
    decide
  · have hne : q ≠ initproc := by
      rintro rfl
      rw [Alive,boot_init] at hq
      exact hq PState.noConfusion
    rw [boot_other hne]
    rfl

/-- A change that keeps the pids and who is alive. -/
theorem Numbered.same (h : Numbered s) (hn : t.nextpid = s.nextpid) (hc : t.created = s.created)
    (hpid : ∀ q, (t.proc q).pid = (s.proc q).pid) (hal : ∀ q, Alive t q ↔ Alive s q) :
    Numbered t where
  next := by rw [hn,hc,h.next]
  bound q hq := by
    rw [hpid,hc]
    exact h.bound q ((hal q).mp hq)
  inj q r hq hr he := h.inj q r ((hal q).mp hq) ((hal r).mp hr) (by rwa [← hpid q,← hpid r])
  free q hq := (hpid q).trans (h.free q fun ha => hq ((hal q).mpr ha))

/-- One process changes and keeps its pid. -/
theorem Numbered.set (h : Numbered s) {x : Proc} (hpid : x.pid = (s.proc p).pid)
    (hal : x.state ≠ .unused ↔ Alive s p) : Numbered (s.set p x) := by
  refine h.same rfl rfl (fun q => ?_) fun q => ?_
  · by_cases hq : q = p
    · rw [hq,State.set_self,hpid]
    · rw [s.set_other x hq]
  · by_cases hq : q = p
    · rw [hq,Alive,State.set_self,hal]
    · rw [Alive,s.set_other x hq,Alive]

theorem Numbered.freeproc (h : Numbered s) (q : Fin NPROC) : Numbered (s.freeproc q) := by
  have hself : (s.freeproc q).proc q = .free := s.set_self q .free
  have hsame {r : Fin NPROC} (hne : r ≠ q) : (s.freeproc q).proc r = s.proc r :=
    s.set_other .free hne
  have hother {r : Fin NPROC} (hr : Alive (s.freeproc q) r) : r ≠ q := by
    rintro rfl
    rw [Alive,hself] at hr
    exact hr rfl
  have hold {r : Fin NPROC} (hr : Alive (s.freeproc q) r) : Alive s r := by
    have hne := hother hr
    rwa [Alive,hsame hne] at hr
  refine ⟨h.next,fun r hr => ?_,fun r r' hr hr' he => ?_,fun r hr => ?_⟩
  · rw [hsame (hother hr)]
    exact h.bound r (hold hr)
  · rw [hsame (hother hr),hsame (hother hr')] at he
    exact h.inj r r' (hold hr) (hold hr') he
  · by_cases hrq : r = q
    · rw [hrq,hself]
      rfl
    · rw [Alive,hsame hrq] at hr
      rw [hsame hrq]
      exact h.free r hr

/-- The pid of a new process is larger than all others. -/
theorem Numbered.allocproc (h : Numbered s) (hlt : s.created+1 < 2^31-1) (q : Fin NPROC) :
    Numbered (s.allocproc q) := by
  have hpid : toInt32 s.nextpid = s.created+1 := by
    rw [h.next,toInt32,Nat.mod_eq_of_lt (by omega),if_pos (by omega)]
    push_cast
    ring
  have hself : (s.allocproc q).proc q = { s.proc q with state := .used, pid := toInt32 s.nextpid } :=
    s.allocpid.set_self q _
  have hsame {r : Fin NPROC} (hne : r ≠ q) : (s.allocproc q).proc r = s.proc r :=
    s.allocpid.set_other _ hne
  have hold {r : Fin NPROC} (hne : r ≠ q) (hr : Alive (s.allocproc q) r) : Alive s r := by
    rwa [Alive,hsame hne] at hr
  have hnew : ((s.allocproc q).proc q).pid = s.created+1 := by rw [hself,← hpid]
  have hless {r : Fin NPROC} (hne : r ≠ q) (hr : Alive (s.allocproc q) r) :
      ((s.allocproc q).proc r).pid < s.created+1 := by
    rw [hsame hne]
    exact Int.lt_add_one_of_le (h.bound r (hold hne hr)).2
  have hcreated : (s.allocproc q).created = s.created+1 := rfl
  refine ⟨?_,fun r hr => ?_,fun r r' hr hr' he => ?_,fun r hr => ?_⟩
  · change (s.nextpid+1) % 2^32 = s.created+1+1
    rw [h.next,Nat.mod_eq_of_lt (by omega)]
  · rw [hcreated]
    push_cast
    by_cases hrq : r = q
    · rw [hrq,hnew]
      omega
    · have hb := (h.bound r (hold hrq hr)).1
      have hl := hless hrq hr
      rw [hsame hrq] at hl ⊢
      omega
  · by_cases hrq : r = q
    · by_contra hne
      have hl := hless (fun hrq' => hne (hrq.trans hrq'.symm)) hr'
      rw [← he,hrq,hnew] at hl
      exact lt_irrefl _ hl
    · by_cases hrq' : r' = q
      · have hl := hless hrq hr
        rw [he,hrq',hnew] at hl
        exact absurd hl (lt_irrefl _)
      · rw [hsame hrq,hsame hrq'] at he
        exact h.inj r r' (hold hrq hr) (hold hrq' hr') he
  · by_cases hrq : r = q
    · rw [Alive,hrq,hself] at hr
      exact absurd PState.noConfusion hr
    · rw [Alive,hsame hrq] at hr
      rw [hsame hrq]
      exact h.free r hr

/-- What `kfork` does: nothing, or it makes a process that stays or goes. -/
theorem Numbered.kfork (h : Numbered s) (p : Fin NPROC) (copied : Bool)
    (hlt : (s.kfork p copied).created < 2^31-1) : Numbered (s.kfork p copied) := by
  unfold State.kfork at hlt ⊢
  split at hlt
  · exact h
  · rename_i q hq
    have hcreated : s.created+1 < 2^31-1 := by
      cases copied <;> exact hlt
    have ht := h.allocproc hcreated q
    have halive : Alive (s.allocproc q) q := by
      rw [Alive,State.allocproc,State.set_self]
      exact PState.noConfusion
    dsimp only
    cases copied with
    | true => exact ht.set rfl (iff_of_true PState.noConfusion halive)
    | false => exact ht.freeproc q

theorem Numbered.reparent (h : Numbered s) (p : Fin NPROC) : Numbered (s.reparent p) := by
  have hcase (q : Fin NPROC) : ((s.reparent p).proc q).pid = (s.proc q).pid ∧
      ((s.reparent p).proc q).state = (s.proc q).state := by
    simp only [State.reparent]
    split <;> exact ⟨rfl,rfl⟩
  exact h.same rfl rfl (fun q => (hcase q).1) fun q => by rw [Alive,(hcase q).2,Alive]

theorem reparent_state (s : State) (p q : Fin NPROC) :
    ((s.reparent p).proc q).state = (s.proc q).state := by
  simp only [State.reparent]
  split <;> rfl

theorem alive_of_running (h : (s.proc p).state = .running) : Alive s p := by
  rw [Alive,h]
  exact PState.noConfusion

theorem Numbered.kkill (h : Numbered s) (pid : ℤ) : Numbered (s.kkill pid).2 := by
  unfold State.kkill
  split
  · exact h
  · rename_i q _
    refine h.set rfl ?_
    dsimp only
    split
    · rename_i hs
      exact iff_of_true PState.noConfusion (by rw [Alive,hs]; exact PState.noConfusion)
    · exact Iff.rfl

theorem Numbered.step {e : Event} (h : Numbered s) (hst : step s e = some t)
    (hlt : t.created < 2^31-1) : Numbered t := by
  cases e with
  | fork p copied =>
    simp only [Pids.step,Option.ite_none_right_eq_some,Option.some.injEq] at hst
    obtain ⟨-,rfl⟩ := hst
    exact h.kfork p copied hlt
  | exit p =>
    simp only [Pids.step,State.kexit,Option.ite_none_right_eq_some,Option.ite_none_left_eq_some,
      Option.some.injEq] at hst
    obtain ⟨hrun,-,rfl⟩ := hst
    refine (h.reparent p).set rfl (iff_of_true PState.noConfusion ?_)
    rw [Alive,reparent_state]
    exact alive_of_running hrun
  | wait p copied =>
    simp only [Pids.step,Option.ite_none_right_eq_some,Option.some.injEq] at hst
    obtain ⟨hrun,rfl⟩ := hst
    unfold State.kwait
    split
    · split
      · exact h.freeproc _
      · exact h
    · split
      · exact h
      · exact h.set rfl (iff_of_true PState.noConfusion (alive_of_running hrun))
  | kill p pid =>
    simp only [Pids.step,Option.ite_none_right_eq_some,Option.some.injEq] at hst
    obtain ⟨-,rfl⟩ := hst
    unfold State.sysKill
    split
    · exact h
    split
    · exact h
    · exact h.kkill pid
  | move p state =>
    simp only [Pids.step,Option.ite_none_right_eq_some,Option.some.injEq] at hst
    obtain ⟨hmov,rfl⟩ := hst
    refine h.set rfl (iff_of_true ?_ ?_)
    · rintro rfl
      exact absurd hmov.2 (by decide)
    · intro hu
      rw [hu] at hmov
      exact absurd hmov.1 (by decide)

theorem created_le {e : Event} (hst : step s e = some t) : s.created ≤ t.created := by
  cases e with
  | fork p copied =>
    simp only [Pids.step,Option.ite_none_right_eq_some,Option.some.injEq] at hst
    obtain ⟨-,rfl⟩ := hst
    unfold State.kfork
    split
    · exact le_rfl
    · cases copied <;> exact Nat.le_succ _
  | exit p =>
    simp only [Pids.step,State.kexit,Option.ite_none_right_eq_some,Option.ite_none_left_eq_some,
      Option.some.injEq] at hst
    obtain ⟨-,-,rfl⟩ := hst
    exact le_rfl
  | wait p copied =>
    simp only [Pids.step,Option.ite_none_right_eq_some,Option.some.injEq] at hst
    obtain ⟨-,rfl⟩ := hst
    unfold State.kwait
    split <;> split <;> exact le_rfl
  | kill p pid =>
    simp only [Pids.step,Option.ite_none_right_eq_some,Option.some.injEq] at hst
    obtain ⟨-,rfl⟩ := hst
    unfold State.sysKill State.kkill
    split
    · exact le_rfl
    split
    · exact le_rfl
    split <;> exact le_rfl
  | move p state =>
    simp only [Pids.step,Option.ite_none_right_eq_some,Option.some.injEq] at hst
    obtain ⟨-,rfl⟩ := hst
    exact le_rfl

theorem Run.numbered (h : Run s) : Numbered s := by
  refine h.1.invariant (P := fun s => s.created < 2^31-1 → Numbered s) (fun _ => numbered_boot)
    (fun a e b ha _ hst hlt => ?_) h.2
  exact (ha (lt_of_le_of_lt (created_le hst) hlt)).step hst hlt

/-- `sys_kill` with the pid of `q` does what it should. -/
def Kills (s : State) (q : Fin NPROC) : Prop :=
  (s.sysKill (s.proc q).pid).1 = 0 ∧ ((s.sysKill (s.proc q).pid).2.proc q).killed = true ∧
  ((s.sysKill (s.proc q).pid).2.proc q).state ≠ .sleeping ∧
  ∀ r ≠ q, ((s.sysKill (s.proc q).pid).2.proc r).killed = (s.proc r).killed

theorem Numbered.find_pid (h : Numbered s) (hq : Alive s q) :
    ((List.finRange NPROC).find? fun r => decide ((s.proc r).pid = (s.proc q).pid)) = some q := by
  have hpos := (h.bound q hq).1
  cases hf : (List.finRange NPROC).find? fun r => decide ((s.proc r).pid = (s.proc q).pid) with
  | none => exact absurd (List.find?_eq_none.mp hf q (List.mem_finRange q)) (by simp)
  | some r =>
    have hr : (s.proc r).pid = (s.proc q).pid := by simpa using List.find?_some hf
    have hal : Alive s r := by
      by_contra hno
      have := h.free r hno
      omega
    rw [h.inj r q hal hq hr]

theorem Numbered.kills_iff (h : Numbered s) (hq : Alive s q) (hne : (s.proc q).pid ≠ 1) :
    Kills s q ↔ (s.proc q).pid ≤ 32768 := by
  have hpos := (h.bound q hq).1
  by_cases hle : (s.proc q).pid ≤ 32768
  · refine iff_of_true ?_ hle
    have hkill : s.sysKill (s.proc q).pid = (0,s.set q { s.proc q with
        killed := true
        state := if (s.proc q).state = .sleeping then .runnable else (s.proc q).state }) := by
      rw [State.sysKill,if_neg hne,if_neg (by omega),State.kkill,h.find_pid hq]
    rw [Kills,hkill]
    refine ⟨rfl,by rw [State.set_self],?_,fun r hr => by rw [s.set_other _ hr]⟩
    rw [State.set_self]
    dsimp only
    split
    · exact PState.noConfusion
    · assumption
  · refine iff_of_false (fun hk => ?_) hle
    have hret := hk.1
    rw [State.sysKill,if_neg hne,if_pos (by omega)] at hret
    exact absurd hret (by norm_num)

/-- In every run with fewer than `2^31 - 1` processes made, the processes have different positive
pids; a process other than the first can be killed if and only if its pid is at most 32768. -/
theorem killable_iff_pid_small (s : State) (h : Run s) :
    (∀ q, Alive s q → 0 < (s.proc q).pid) ∧
    (∀ q r, Alive s q → Alive s r → (s.proc q).pid = (s.proc r).pid → q = r) ∧
    ∀ q, Alive s q → (s.proc q).pid ≠ 1 → (Kills s q ↔ (s.proc q).pid ≤ 32768) :=
  ⟨fun q hq => (h.numbered.bound q hq).1,h.numbered.inj,fun _ hq => h.numbered.kills_iff hq⟩

/-! Any number of processes can come and go. -/

/-- Only the first process is there, and `k` have been made. -/
def quiet (k : ℕ) : State := .set ⟨fun _ => .free,(k+1) % 2^32,k⟩ initproc ⟨.running,1,false,none⟩

/-- The first process has one child, the latest process made. -/
def withChild (k : ℕ) (st : PState) : State :=
  .set ⟨(quiet k).proc,(k+2) % 2^32,k+1⟩ 1 ⟨st,toInt32 ((k+1) % 2^32),false,some initproc⟩

theorem State.set_set (s : State) (p : Fin NPROC) (x y : Proc) : (s.set p x).set p y = s.set p y := by
  simp only [State.set,update_idem]

theorem step_fork (k : ℕ) : step (quiet k) (.fork initproc true) = some (withChild k .runnable) := by
  have hslot : (quiet k).unused = some 1 := rfl
  have hnext : ((k+1) % 2^32+1) % 2^32 = (k+2) % 2^32 := by rw [Nat.mod_add_mod]
  have hfork : (quiet k).kfork initproc true = withChild k .runnable := by
    rw [State.kfork,hslot]
    dsimp only
    rw [if_pos rfl,State.allocproc,State.set_self,State.set_set,withChild,← hnext]
    rfl
  have hrun : ((quiet k).proc initproc).state = .running := rfl
  rw [step,if_pos hrun,hfork]

theorem step_move (k : ℕ) : step (withChild k .runnable) (.move 1 .running) =
    some (withChild k .running) := by
  rw [withChild,step,State.set_self,if_pos ⟨rfl,rfl⟩,State.set_set]
  rfl

theorem withChild_parent (k : ℕ) (st : PState) (q : Fin NPROC) :
    ((withChild k st).proc q).parent ≠ some 1 := by
  rw [withChild]
  by_cases h1 : q = 1
  · rw [h1,State.set_self]
    exact (by decide : some initproc ≠ some 1)
  · rw [State.set_other _ _ h1]
    by_cases h0 : q = initproc
    · rw [h0]
      exact nofun
    · dsimp only [quiet]
      rw [State.set_other _ _ h0]
      exact nofun

theorem step_exit (k : ℕ) : step (withChild k .running) (.exit 1) = some (withChild k .zombie) := by
  have hrep : (withChild k .running).reparent 1 = withChild k .running := by
    have hproc : ∀ q, (if ((withChild k .running).proc q).parent = some 1 then
        { (withChild k .running).proc q with parent := some initproc }
        else (withChild k .running).proc q) = (withChild k .running).proc q := fun q =>
      if_neg (withChild_parent k .running q)
    rw [State.reparent,funext hproc]
  rw [step,State.kexit,hrep,withChild,State.set_self,if_pos rfl,if_neg (by decide)]
  dsimp only
  rw [State.set_self,State.set_set]
  rfl

theorem step_wait (k : ℕ) : step (withChild k .zombie) (.wait initproc true) =
    some (quiet (k+1)) := by
  have hfree : (quiet k).proc 1 = .free := rfl
  have hwait : (withChild k .zombie).kwait initproc true = (withChild k .zombie).freeproc 1 := rfl
  have hrun : ((withChild k .zombie).proc initproc).state = .running := rfl
  rw [step,if_pos hrun,hwait,State.freeproc,withChild,State.set_set,← hfree,State.set,
    update_eq_self]
  rfl

theorem reaches_quiet (k : ℕ) : Reaches step (fun _ _ => True) .boot (quiet (k+1)) := by
  induction k with
  | zero =>
    have hmove : step .boot (.move initproc .running) = some (quiet 1) := by
      rw [step,boot_init,if_pos (by decide),State.boot,State.set_set]
      rfl
    exact .tail (.refl _) trivial hmove
  | succ k ih =>
    exact (((ih.tail trivial (step_fork _)).tail trivial (step_move _)).tail trivial
      (step_exit _)).tail trivial (step_wait _)

theorem run_withChild {k : ℕ} (hk : k+2 < 2^31-1) : Run (withChild (k+1) .runnable) :=
  ⟨(reaches_quiet k).tail trivial (step_fork _),hk⟩

theorem withChild_child (k : ℕ) (st : PState) :
    (withChild k st).proc 1 = ⟨st,toInt32 ((k+1) % 2^32),false,some initproc⟩ := State.set_self ..

/-- The second process made is killed. -/
theorem killable_second : ∃ s, Run s ∧ (s.proc 1).pid = 2 ∧ Kills s 1 := by
  have hrun : Run (withChild 1 .runnable) := run_withChild (by norm_num)
  have hpid : ((withChild 1 .runnable).proc 1).pid = 2 := by
    rw [withChild_child]
    decide
  have halive : Alive (withChild 1 .runnable) 1 := by
    rw [Alive,withChild_child]
    exact PState.noConfusion
  refine ⟨_,hrun,hpid,((killable_iff_pid_small _ hrun).2.2 1 halive (by rw [hpid]; norm_num)).mpr ?_⟩
  rw [hpid]
  norm_num

/-- The process with pid 32769 is alive, and `sys_kill` refuses it. -/
theorem late_process_not_killable : ∃ s, Run s ∧ Alive s 1 ∧ (s.proc 1).pid = 32769 ∧
    (s.sysKill 32769).1 = -1 ∧ ¬ Kills s 1 := by
  have hrun : Run (withChild 32768 .runnable) := run_withChild (by norm_num)
  have hpid : ((withChild 32768 .runnable).proc 1).pid = 32769 := by
    rw [withChild_child]
    decide
  have halive : Alive (withChild 32768 .runnable) 1 := by
    rw [Alive,withChild_child]
    exact PState.noConfusion
  have hret : ((withChild 32768 .runnable).sysKill 32769).1 = -1 := by
    rw [State.sysKill,if_neg (by norm_num),if_pos (by norm_num)]
  refine ⟨_,hrun,halive,hpid,hret,fun hk => ?_⟩
  have h0 := hk.1
  rw [hpid,hret] at h0
  exact absurd h0 (by norm_num)

end Xv6.Pids
