import Xv6.Lib.Machine
import Mathlib.Logic.Function.Basic

/-! Sleep locks: `acquiresleep` and `releasesleep` of `sleeplock.c` with `sleep`, `wakeup` and
`kkill`, in any interleaving of any number of processes. -/
namespace Xv6.Sleeplock

open Function (update update_apply update_of_ne update_self)

/-- Where a process is.  From `testing` to `taken` and from `clearing` to the end of `waking` it has
the spinlock `lk->lk`; while `dozing` it has let go of it and still has its own `p->lock`. -/
inductive Pc (α : Type)
  | idle
  | acquiring
  | testing
  | dozing
  | sleeping
  | woken
  | taken
  | holding
  | releasing
  | clearing
  | waking (todo : List α)

/-- `struct sleeplock`, with the holder of its spinlock. -/
structure State (α : Type) where
  locked : Bool
  pid : ℕ
  lk : Option α
  pc : α → Pc α

inductive Event (α : Type)
  | acquiresleep (p : α)
  | acquire (p : α)
  | test (p : α)
  | sleep (p : α)
  | release (p : α)
  | releasesleep (p : α)
  | clear (p : α)
  | wakeup (p : α)
  | kkill (p : α)

section

variable {α : Type} [DecidableEq α]

/-- Does a process at this point have the spinlock? -/
def Pc.spins : Pc α → Bool
  | .testing | .taken | .clearing | .waking _ => true
  | _ => false

/-- Between `acquiresleep` and `releasesleep`. -/
def Pc.inside : Pc α → Bool
  | .holding | .releasing | .clearing => true
  | _ => false

/-- The lock is this process's, `taken` included. -/
def Pc.owns : Pc α → Bool
  | .taken => true
  | c => c.inside

def Pc.asleep : Pc α → Bool
  | .dozing | .sleeping => true
  | _ => false

namespace State

variable (procs : List α) (pid : α → ℕ) (s : State α)

def init : State α := ⟨false,0,none,fun _ => .idle⟩

def setPc (p : α) (c : Pc α) : State α := { s with pc := update s.pc p c }

/-- What `holdingsleep` computes under the spinlock. -/
def holdingsleep (p : α) : Bool := s.locked && s.pid == pid p

def step : Event α → Option (State α)
  | .acquiresleep p =>
    match s.pc p with
    | .idle => some (s.setPc p .acquiring)
    | _ => none
  | .acquire p =>
    if s.lk.isSome then none
    else
      match s.pc p with
      | .acquiring | .woken => some { s.setPc p .testing with lk := some p }
      | .releasing => some { s.setPc p .clearing with lk := some p }
      | _ => none
  | .test p =>
    match s.pc p with
    | .testing =>
      if s.locked then some { s.setPc p .dozing with lk := none }
      else some { s.setPc p .taken with locked := true, pid := pid p }
    | _ => none
  | .sleep p =>
    match s.pc p with
    | .dozing => some (s.setPc p .sleeping)
    | _ => none
  | .release p =>
    match s.pc p with
    | .taken => some { s.setPc p .holding with lk := none }
    | .waking [] => some { s.setPc p .idle with lk := none }
    | _ => none
  | .releasesleep p =>
    match s.pc p with
    | .holding => some (s.setPc p .releasing)
    | _ => none
  | .clear p =>
    match s.pc p with
    | .clearing => some { s.setPc p (.waking procs) with locked := false, pid := 0 }
    | _ => none
  | .wakeup p =>
    match s.pc p with
    | .waking (q::todo) =>
      match s.pc q with
      | .dozing => none
      | .sleeping => some ((s.setPc q .woken).setPc p (.waking todo))
      | _ => some (s.setPc p (.waking todo))
    | _ => none
  | .kkill p =>
    match s.pc p with
    | .sleeping => some (s.setPc p .woken)
    | _ => none

end State

structure Inv (pid : α → ℕ) (s : State α) : Prop where
  spins : ∀ p, s.lk = some p ↔ (s.pc p).spins = true
  owner : ∀ p, (s.pc p).owns = true → s.locked = true ∧ s.pid = pid p
  owned : s.locked = true → ∃ p, (s.pc p).owns = true
  asleep : ∀ q, (s.pc q).asleep = true → s.locked = true ∨ ∃ p todo, s.pc p = .waking todo ∧ q ∈ todo

variable {procs : List α} {pid : α → ℕ} {s t : State α} {p : α} {c : Pc α} {lk : Option α}

omit [DecidableEq α] in
theorem owns_of_inside (h : c.inside = true) : c.owns = true := by
  cases c <;> first | exact h | rfl

omit [DecidableEq α] in
theorem inv_init : Inv pid (State.init : State α) :=
  ⟨fun p => by simp [State.init,Pc.spins],nofun,nofun,nofun⟩

omit [DecidableEq α] in
/-- Processes have different pids, so the lock has one owner. -/
theorem Inv.unique (h : Inv pid s) (hpid : Function.Injective pid) {p q : α}
    (hp : (s.pc p).owns = true) (hq : (s.pc q).owns = true) : p = q :=
  hpid ((h.owner p hp).2.symm.trans (h.owner q hq).2)

/-- Process `p` moves from one point to another and may take the spinlock or let go of it; the
sleep lock stays with whom it is, and nobody asleep is passed over. -/
theorem Inv.move (h : Inv pid s) (hlk : lk = some p ↔ c.spins = true)
    (hothers : ∀ q, q ≠ p → (lk = some q ↔ s.lk = some q)) (howns : c.owns = (s.pc p).owns)
    (hasleep : c.asleep = true → s.locked = true ∨ (s.pc p).asleep = true)
    (htodo : ∀ todo q, s.pc p = .waking todo → q ∈ todo → (s.pc q).asleep = true →
      ∃ todo', c = .waking todo' ∧ q ∈ todo') : Inv pid { s.setPc p c with lk := lk } := by
  obtain ⟨hspins,howner,howned,hsleeper⟩ := h
  refine ⟨?_,?_,fun hl => ?_,fun q hq => ?_⟩
  · simp only [State.setPc,update_apply]
    grind
  · simp only [State.setPc,update_apply]
    grind
  · obtain ⟨q,hq⟩ := howned hl
    refine ⟨q,?_⟩
    simp only [State.setPc,update_apply]
    grind
  · simp only [State.setPc,update_apply] at hq ⊢
    have hold : s.locked = true ∨ (s.pc q).asleep = true := by grind
    obtain hl | hold := hold
    · exact .inl hl
    refine (hsleeper q hold).imp_right ?_
    rintro ⟨r,todo,hr,hmem⟩
    by_cases hrp : r = p
    · obtain ⟨todo',hc,hmem'⟩ := htodo todo q (hrp ▸ hr) hmem hold
      exact ⟨p,todo',by rw [if_pos rfl,hc],hmem'⟩
    · exact ⟨r,todo,by rw [if_neg hrp,hr],hmem⟩

theorem Inv.step (h : Inv pid s) (hpid : Function.Injective pid) (hall : ∀ p, p ∈ procs)
    {e : Event α} (hstep : s.step procs pid e = some t) : Inv pid t := by
  have hspins := h.spins
  cases e with
  | acquiresleep p | sleep p | releasesleep p | kkill p =>
    simp only [State.step] at hstep
    split at hstep
    · obtain rfl := Option.some.inj hstep
      refine h.move ?_ (fun _ _ => .rfl) ?_ ?_ ?_ <;> grind [Pc.spins,Pc.owns,Pc.inside,Pc.asleep]
    · cases hstep
  | acquire p =>
    simp only [State.step] at hstep
    split at hstep
    · cases hstep
    · split at hstep
      case h_4 => cases hstep
      all_goals
        obtain rfl := Option.some.inj hstep
        refine h.move ?_ ?_ ?_ ?_ ?_ <;> grind [Pc.spins,Pc.owns,Pc.inside,Pc.asleep]
  | test p =>
    simp only [State.step] at hstep
    split at hstep
    · rename_i hp
      split at hstep
      · obtain rfl := Option.some.inj hstep
        refine h.move ?_ ?_ ?_ ?_ ?_ <;> grind [Pc.spins,Pc.owns,Pc.inside,Pc.asleep]
      · obtain rfl := Option.some.inj hstep
        have howner := h.owner
        refine ⟨?_,?_,fun _ => ⟨p,?_⟩,fun _ _ => .inl rfl⟩ <;>
          simp only [State.setPc,update_apply] <;> grind [Pc.spins,Pc.owns]
    · cases hstep
  | release p =>
    simp only [State.step] at hstep
    split at hstep
    case h_3 => cases hstep
    all_goals
      obtain rfl := Option.some.inj hstep
      refine h.move ?_ ?_ ?_ ?_ ?_ <;> grind [Pc.spins,Pc.owns,Pc.inside,Pc.asleep]
  | clear p =>
    simp only [State.step] at hstep
    split at hstep
    · rename_i hp
      obtain rfl := Option.some.inj hstep
      have hunique (q : α) (hq : (s.pc q).owns = true) := h.unique hpid hq (q := p) (by rw [hp]; rfl)
      refine ⟨?_,?_,nofun,fun q _ => .inr ⟨p,procs,update_self ..,hall q⟩⟩ <;>
        simp only [State.setPc,update_apply] <;> grind [Pc.spins,Pc.owns,Pc.inside]
    · cases hstep
  | wakeup p =>
    simp only [State.step] at hstep
    split at hstep
    · rename_i q todo hp
      have hnext {u : State α} (hu : Inv pid u) (hpu : u.pc p = .waking (q::todo))
          (hq : (u.pc q).asleep = false) : Inv pid (u.setPc p (.waking todo)) := by
        have := hu.spins
        refine hu.move ?_ (fun _ _ => .rfl) ?_ ?_ ?_ <;> grind [Pc.spins,Pc.owns,Pc.inside,Pc.asleep]
      split at hstep
      · cases hstep
      · rename_i hq
        obtain rfl := Option.some.inj hstep
        have hne : p ≠ q := by
          rintro rfl
          cases hp.symm.trans hq
        have hwoken : Inv pid (s.setPc q .woken) := by
          refine h.move ?_ (fun _ _ => .rfl) ?_ ?_ ?_ <;> grind [Pc.spins,Pc.owns,Pc.inside,Pc.asleep]
        exact hnext hwoken ((update_of_ne hne ..).trans hp)
          (by simp [State.setPc,Pc.asleep])
      · obtain rfl := Option.some.inj hstep
        refine hnext h hp ?_
        grind [Pc.asleep]
    · cases hstep

/-- In every state reached: at most one process is between `acquiresleep` and `releasesleep`;
while the spinlock is free, `holdingsleep` is true for just that process, and whoever sleeps on
the lock waits for a process that has it. -/
theorem sleeplock_excludes (hpid : Function.Injective pid) (hall : ∀ p, p ∈ procs)
    (h : Reaches (State.step procs pid) (fun _ _ => True) .init s) :
    (∀ p q, (s.pc p).inside = true → (s.pc q).inside = true → p = q) ∧
    (s.lk = none → (∀ p, s.holdingsleep pid p = true ↔ (s.pc p).inside = true) ∧
      ∀ p, s.pc p = .sleeping → s.locked = true) := by
  have hinv : Inv pid s := h.invariant inv_init fun _ _ _ ha _ hst => ha.step hpid hall hst
  refine ⟨fun p q hp hq => hinv.unique hpid (owns_of_inside hp) (owns_of_inside hq),fun hfree => ?_⟩
  have hspins (p : α) : (s.pc p).spins ≠ true := fun hp => by
    rw [← hinv.spins,hfree] at hp
    cases hp
  refine ⟨fun p => ⟨fun hold => ?_,fun hp => ?_⟩,fun p hp => ?_⟩
  · simp only [State.holdingsleep,Bool.and_eq_true,beq_iff_eq] at hold
    obtain ⟨q,hq⟩ := hinv.owned hold.1
    obtain rfl : p = q := hpid (hold.2.symm.trans (hinv.owner q hq).2)
    cases hc : s.pc p <;> rw [hc] at hq <;> first | exact hq | exact absurd (by rw [hc]; rfl) (hspins p)
  · obtain ⟨hlocked,hown⟩ := hinv.owner p (owns_of_inside hp)
    simp [State.holdingsleep,hlocked,hown]
  · refine (hinv.asleep p (by rw [hp]; rfl)).resolve_right ?_
    rintro ⟨q,todo,hq,-⟩
    exact hspins q (by rw [hq]; rfl)

/-- Two processes: the second has gone to sleep because the first has the lock. -/
theorem sleeplock_excludes_second : ∃ s, runEvents (State.step [false,true] Bool.toNat)
    (fun _ _ => true) .init [.acquiresleep false,.acquire false,.test false,.release false,
      .acquiresleep true,.acquire true,.test true,.sleep true] = some s ∧
    s.holdingsleep Bool.toNat false = true ∧ s.locked = true := by
  obtain ⟨s,hs,hlk,hold,hpc⟩ : ∃ s, runEvents (State.step [false,true] Bool.toNat)
      (fun _ _ => true) .init [.acquiresleep false,.acquire false,.test false,.release false,
        .acquiresleep true,.acquire true,.test true,.sleep true] = some s ∧ s.lk = none ∧
      (s.pc false).inside = true ∧ s.pc true = .sleeping := ⟨_,rfl,rfl,rfl,rfl⟩
  have hpid : Function.Injective Bool.toNat := fun a b => by cases a <;> cases b <;> decide
  obtain ⟨-,hfree⟩ := sleeplock_excludes hpid (by decide)
    ((reaches_of_runEvents hs).mono fun _ _ _ => trivial)
  exact ⟨s,hs,((hfree hlk).1 false).mpr hold,(hfree hlk).2 true hpc⟩

end

end Xv6.Sleeplock
