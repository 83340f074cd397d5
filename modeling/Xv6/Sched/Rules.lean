import Xv6.Sched.Slots

/-! Rules for the code: what a thread knows is the set of locks it holds and what it keeps
seeing while it holds them. -/
namespace Xv6.Sched

open Threads

variable {n m : ℕ} {δ α β : Type} {initproc : Fin n} {ready : δ → Bool} {s s' u : State n m δ}
  {t : Thread n m} {c : Fin m} {p q : Fin n} {l : Lock n} {L L' : Set (Lock n)}

/-- A process that executes without its own lock is RUNNING. -/
theorem running_of_not_owns (h : Inv initproc ready s) (hx : s.Executing p)
    (hl : .proc p ∉ s.owns (.inr p)) : (s.pcb p).state = .running ∧ s.drowsy p = none := by
  obtain ⟨c,hc⟩ := hx
  rw [mem_owns (t := .inr p) h.cpus hc] at hl
  exact h.cpus.away hc hl

theorem alive_of_not_owns (h : Inv initproc ready s) (hx : s.Executing p)
    (hl : .proc p ∉ s.owns (.inr p)) : s.Alive p :=
  alive_of_running (running_of_not_owns h hx hl).1

theorem atLabel_stable (l : Label δ) :
    Stable (logic initproc ready) t fun s => AtLabel initproc ready s t l := by
  intro s s' hi hi' hl hv
  cases t with
  | inl c =>
    cases l with
    | scheduler =>
      obtain ⟨hon,hown,hpr⟩ := hl
      obtain ⟨⟨c',rfl,hon'⟩,ho,hs⟩ := hv.1 ⟨c,rfl,hon⟩
      exact ⟨hon',ho.trans hown,(hs.proc c rfl).trans hpr⟩
    | _ => exact hl
  | inr p =>
    cases l with
    | scheduler => exact hl
    | forkret =>
      obtain ⟨hf,hd⟩ := hl
      by_cases hx : s.Executing p
      · obtain ⟨hx',ho,hs⟩ := hv.1 hx
        have hown := hs.own p rfl (alive_of_running (hd hx).2.2.1)
        refine ⟨fun _ => ?_,fun hx' => hs.dispatched (hd hx) hx' ho⟩
        rw [hown.embryo, hown.hand]
        exact hf (alive_of_running (hd hx).2.2.1)
      · obtain ⟨h1,-,h3,h4⟩ := hv.2 hx
        refine ⟨?_,fun hx' => h1.resolve_left (not_not.mpr hx')⟩
        by_cases ha : s.Alive p
        · intro _
          have hown := (h3 ha).own p rfl ha
          rw [hown.embryo, hown.hand]
          exact hf ha
        · exact h4 ha
    | user =>
      obtain ⟨hx,ho,he,hh⟩ := hl
      obtain ⟨hx',ho',hs⟩ := hv.1 hx
      have hown := hs.own p rfl (alive_of_not_owns hi hx (by simp [ho]))
      exact ⟨hx',ho'.trans ho,hown.embryo.trans he,hown.hand.trans hh⟩
    | waitLoop addr =>
      obtain ⟨hx,ho,he,hh,hp,hr⟩ := hl
      obtain ⟨hx',ho',hs⟩ := hv.1 hx
      have hown := hs.own p rfl (alive_of_not_owns hi hx (by simp [ho]))
      have hw : .wait ∈ s.owns (.inr p) := by simp [ho]
      exact ⟨hx',ho'.trans ho,hown.embryo.trans he,hown.hand.trans hh,hs.patient hw hp,
        hs.heirs hw _ hr⟩
    | await parts unsent =>
      obtain ⟨hx,ho,he,hh,hc⟩ := hl
      obtain ⟨hx',ho',hs⟩ := hv.1 hx
      have hown := hs.own p rfl (alive_of_not_owns hi hx (by simp [ho]))
      exact ⟨hx',ho'.trans ho,hown.embryo.trans he,hown.hand.trans hh,
        hc.imp_right (hs.keepsCalm (by simp [ho]))⟩

/-- The commands of the kernel obey the rules of `Threads`. -/
theorem steps : Steps (kernel initproc ready) (logic (m := m) initproc ready) where
  refl _ _ := View.refl
  trans := View.trans
  runs h := by
    obtain ⟨c,hat,-⟩ := exec_cases h
    exact ⟨c,hat⟩
  keeps hi hp h := by
    obtain ⟨c,hat,hact⟩ := exec_cases h
    exact (act_kept hi hat hp hact).1
  frame hne hst hi hp h := by
    obtain ⟨c,hat,hact⟩ := exec_cases h
    obtain ⟨hi',hg⟩ := act_kept hi hat hp hact
    refine hg.view hi.cpus hi'.cpus hat hne ?_
    rintro p rfl hx
    rename_i x _ _ _ _
    cases x <;> simp only [Cmd.started, reduceCtorEq, Option.some.injEq] at hx
    subst hx
    exact hst .forkret rfl
  starts hi hp h hst := by
    obtain ⟨c,hat,hact⟩ := exec_cases h
    rename_i x w s a u l
    cases x <;> simp only [kernel, reduceCtorEq, Option.some.injEq, Prod.mk.injEq] at hst
    obtain ⟨rfl,rfl⟩ := hst
    obtain ⟨-,hx,p,rfl,he⟩ := hp
    obtain ⟨-,rfl⟩ := Prod.mk.inj (Option.some.inj hact)
    refine ⟨fun ha => ?_,fun hx' => absurd hx' hx⟩
    have hused := (hi.family.embryo he).1
    simp [State.Alive, hused, PState.alive] at ha
  label _ := atLabel_stable

abbrev Triple (initproc : Fin n) (ready : δ → Bool) (t : Thread n m) (P : State n m δ → Prop)
    (x : Code n δ α) (Q : α → State n m δ → Prop) : Prop :=
  Ensures (kernel initproc ready) (logic initproc ready) t P x Q

/-- Thread `t` runs and holds exactly the locks `L`. -/
def Held (t : Thread n m) (L : Set (Lock n)) (P : State n m δ → Prop) (s : State n m δ) : Prop :=
  (∃ c, At s t c) ∧ s.owns t = L ∧ P s

/-- `P` stays true as long as thread `t` holds the locks `L`. -/
def Kept (initproc : Fin n) (t : Thread n m) (L : Set (Lock n)) (P : State n m δ → Prop) : Prop :=
  ∀ s s', Seen initproc t L s s' → P s → P s'

/-- The lock that protects what is slept on. -/
def Chan.lock : Chan n → Lock n
  | .proc _ => .wait
  | .cond => .cond

namespace Kept

variable {P Q : State n m δ → Prop}

theorem mono (h : Kept initproc t L P) (hL : L ⊆ L') : Kept initproc t L' P :=
  fun s s' hs => h s s' (hs.mono hL)

theorem and (h : Kept initproc t L P) (h' : Kept initproc t L Q) :
    Kept initproc t L fun s => P s ∧ Q s :=
  fun s s' hs hp => ⟨h s s' hs hp.1,h' s s' hs hp.2⟩

theorem const (a : Prop) : Kept (m := m) (δ := δ) initproc t L fun _ => a := fun _ _ _ => id

theorem or (h : Kept initproc t L P) (h' : Kept initproc t L Q) :
    Kept initproc t L fun s => P s ∨ Q s :=
  fun s s' hs => Or.imp (h s s' hs) (h' s s' hs)

theorem imp {a : Prop} (h : a → Kept initproc t L P) : Kept initproc t L fun s => a → P s :=
  fun s s' hs hp ha => h ha s s' hs (hp ha)

theorem all {ι : Type} {P : ι → State n m δ → Prop} (h : ∀ i, Kept initproc t L (P i)) :
    Kept initproc t L fun s => ∀ i, P i s :=
  fun s s' hs hp i => h i s s' hs (hp i)

theorem pcb (R : Pcb n → Prop) (hq : .proc q ∈ L) :
    Kept (m := m) (δ := δ) initproc t L fun s => R (s.pcb q) := by
  intro s s' hs hr
  rwa [(hs.held q hq).1]

theorem drowsy (hq : .proc q ∈ L) :
    Kept (m := m) (δ := δ) initproc t L fun s => s.drowsy q = none :=
  fun _ _ hs h => (hs.held q hq).2.1.trans h

theorem notExecuting (hq : .proc q ∈ L) :
    Kept (m := m) (δ := δ) initproc t L fun s => ¬s.Executing q := by
  intro s s' hs h
  rwa [hs.executing_iff hq]

theorem parent (hl : .wait ∈ L) (a : Option (Fin n)) :
    Kept (m := m) (δ := δ) initproc t L fun s => s.parent q = a :=
  fun _ _ hs h => (hs.parent hl q).trans h

theorem releasable : ∀ {l : Lock n}, l ∈ L →
    Kept initproc t L fun s => Releasable (m := m) initproc ready s l
  | .proc _, hl => fun _ _ hs => hs.settled hl
  | .wait, hl => fun _ _ hs h => ⟨hs.patient hl h.1,hs.heirs hl _ h.2⟩
  | .cond, hl => fun _ _ hs => hs.keepsCalm hl
  | .pid, _ => fun _ _ _ => id

theorem notWaiting {ch : Chan n} (hl : ch.lock ∈ L) :
    Kept (m := m) (δ := δ) initproc t L fun s => ¬s.Waiting q ch := by
  intro s s' hs h hw
  cases ch with
  | proc r => exact h (hs.waiting hl q r hw)
  | cond => exact h (hs.calm hl q hw)

theorem proc {x : Option (Fin n)} : Kept (m := m) (δ := δ) initproc (.inl c) L
    fun s => s.proc c = x :=
  fun _ _ hs h => (hs.proc c rfl).trans h

theorem seen {s₀ : State n m δ} (hL : L' ⊆ L) : Kept initproc t L (Seen initproc t L' s₀) :=
  fun _ _ hs h => h.trans (hs.mono hL)

end Kept

section Held

variable {P Q : State n m δ → Prop}

theorem held_stable (h : Kept initproc t L P) :
    Stable (logic initproc ready) t (Held t L P) := by
  rintro s s' - - ⟨hat,hown,hp⟩ hv
  obtain ⟨hat',ho,hs⟩ := hv.1 hat
  rw [hown] at hs
  exact ⟨hat',ho.trans hown,h s s' hs hp⟩

theorem Held.imp (h : Held t L P s) (hpq : P s → Q s) : Held t L Q s := ⟨h.1,h.2.1,hpq h.2.2⟩

/-- A command that leaves the thread running. -/
theorem held_command {x : Cmd n δ} {Q : x.Result → State n m δ → Prop}
    (hP : Kept initproc t L P) (hQ : ∀ a, Kept initproc t L' (Q a))
    (hpre : ∀ s, Inv initproc ready s → Held t L P s → Pre initproc ready t s x)
    (hpost : ∀ s c w a u, Inv initproc ready s → At s t c → s.owns t = L → P s →
      act t c w s x = some (a,u) → Inv initproc ready u → At u t c ∧ u.owns t = L' ∧ Q a u) :
    Triple initproc ready t (Held t L P) (call x) fun a => Held t L' (Q a) := by
  refine Ensures.command steps (held_stable hP) (fun a => held_stable (hQ a))
    (fun s hi hp _ => hpre s hi hp) ?_
  rintro s w a u hi ⟨-,hown,hp⟩ he hi'
  obtain ⟨c,hat,hact⟩ := exec_cases he
  obtain ⟨h1,h2,h3⟩ := hpost s c w a u hi hat hown hp hact hi'
  exact ⟨⟨c,h1⟩,h2,h3⟩

/-- A command that only reads. -/
theorem held_read {x : Cmd n δ} {Q : x.Result → State n m δ → Prop} (hP : Kept initproc t L P)
    (hQ : ∀ a, Kept initproc t L (Q a))
    (hpre : ∀ s, Inv initproc ready s → Held t L P s → Pre initproc ready t s x)
    (hpost : ∀ s c w a u, Inv initproc ready s → At s t c → s.owns t = L → P s →
      act t c w s x = some (a,u) → u = s ∧ Q a s) :
    Triple initproc ready t (Held t L P) (call x) fun a => Held t L (Q a) := by
  refine held_command hP hQ hpre ?_
  intro s c w a u hi hat hown hp hact _
  obtain ⟨rfl,hq⟩ := hpost s c w a u hi hat hown hp hact
  exact ⟨hat,hown,hq⟩

/-! Locks. -/

theorem setLock_seen {x : Option (Fin m)} : Seen initproc t L s (s.setLock l x) where
  __ := (Seen.refl : Seen initproc t L s s)
  own _ _ ha := .same ha rfl rfl rfl

theorem owns_acquire (h : Cpus s) (hat : At s t c) :
    (s.setLock l (some c)).owns t = insert l (s.owns t) := by
  ext l'
  rw [Set.mem_insert_iff, mem_owns h hat]
  constructor
  · rintro ⟨c',hat',hl⟩
    obtain rfl : c = c' := hat.unique h hat'
    grind
  · intro hl
    refine ⟨c,hat,?_⟩
    grind

theorem owns_release (h : Cpus s) (hat : At s t c) (hown : s.owns t = insert l L) (hl : l ∉ L) :
    (s.setLock l none).owns t = L := by
  ext l'
  constructor
  · rintro ⟨c',hat',hl'⟩
    obtain rfl : c = c' := hat.unique h hat'
    have hne : l' ≠ l := by
      rintro rfl
      simp [State.setLock_lock] at hl'
    have hmem : l' ∈ s.owns t := (mem_owns h hat).mpr (by grind)
    rw [hown] at hmem
    exact hmem.resolve_left hne
  · intro hl'
    have hmem : l' ∈ s.owns t := by
      rw [hown]
      exact .inr hl'
    rw [mem_owns h hat] at hmem
    refine ⟨c,hat,?_⟩
    have hne : l' ≠ l := by
      rintro rfl
      exact hl hl'
    grind

/-- A lock comes with what it protects. -/
theorem acquire_rule (hP : Kept initproc t L P) (hl : l ∉ L) :
    Triple initproc ready t (Held t L P) (call (.acquire l))
      fun _ => Held t (insert l L) fun s => P s ∧ Releasable initproc ready s l := by
  refine held_command hP
    (fun _ => (hP.mono (Set.subset_insert ..)).and (.releasable (Set.mem_insert ..)))
    (fun s _ h => by rw [Pre, h.2.1]; exact hl) ?_
  intro s c w a u hi hat hown hp hact _
  simp only [act] at hact
  split at hact
  · rename_i hfree
    obtain ⟨-,rfl⟩ := Prod.mk.inj (Option.some.inj hact)
    refine ⟨hat,by rw [owns_acquire hi.cpus hat, hown],hP s _ setLock_seen hp,?_⟩
    refine Kept.releasable (L := {l}) rfl s _ (setLock_seen (t := t)) ?_
    cases l with
    | proc q => exact hi.cpus.free q hfree
    | wait => exact hi.wait hfree
    | cond => exact hi.cond hfree
    | pid => trivial
  · cases hact

theorem release_rule (hP : Kept initproc t L P) (hl : l ∉ L) :
    Triple initproc ready t (Held t (insert l L) fun s => P s ∧ Releasable initproc ready s l)
      (call (.release l)) fun _ => Held t L P := by
  refine held_command
    ((hP.mono (Set.subset_insert ..)).and (.releasable (Set.mem_insert ..))) (fun _ => hP)
    (fun s _ h => ⟨by rw [h.2.1]; exact Set.mem_insert ..,h.2.2.2⟩) ?_
  intro s c w a u hi hat hown hp hact _
  simp only [act] at hact
  split at hact
  · obtain ⟨-,rfl⟩ := Prod.mk.inj (Option.some.inj hact)
    exact ⟨hat,owns_release hi.cpus hat hown hl,hP s _ setLock_seen hp.1⟩
  · cases hact

theorem acquire_first (hP : Kept initproc t ∅ P) :
    Triple initproc ready t (Held t ∅ P) (call (.acquire l))
      fun _ => Held t {l} fun s => P s ∧ Releasable initproc ready s l := by
  rw [← LawfulSingleton.insert_empty_eq (β := Set (Lock n))]
  exact acquire_rule hP (Set.notMem_empty l)

theorem release_last (hP : Kept initproc t ∅ P) :
    Triple initproc ready t (Held t {l} fun s => P s ∧ Releasable initproc ready s l)
      (call (.release l)) fun _ => Held t ∅ P := by
  rw [← LawfulSingleton.insert_empty_eq (β := Set (Lock n))]
  exact release_rule hP (Set.notMem_empty l)

/-! Reading. -/

theorem pcb_rule (hP : Kept initproc t L P) (hq : .proc q ∈ L) :
    Triple initproc ready t (Held t L P) (call (.pcb q))
      fun b => Held t L fun s => P s ∧ s.pcb q = b := by
  refine held_read hP (fun b => hP.and (.pcb (· = b) hq)) (fun _ _ _ => trivial) ?_
  intro s c w b u _ _ _ hp hact
  obtain ⟨rfl,rfl⟩ := Prod.mk.inj (Option.some.inj hact)
  exact ⟨rfl,hp,rfl⟩

theorem parentOf_rule (hP : Kept initproc t L P) (hl : .wait ∈ L) :
    Triple initproc ready t (Held t L P) (call (.parentOf q))
      fun r => Held t L fun s => P s ∧ s.parent q = r := by
  refine held_read hP (fun r => hP.and (.parent hl r)) (fun _ _ _ => trivial) ?_
  intro s c w b u _ _ _ hp hact
  obtain ⟨rfl,rfl⟩ := Prod.mk.inj (Option.some.inj hact)
  exact ⟨rfl,hp,rfl⟩

theorem data_rule (hP : Kept initproc t L P) (hl : .cond ∈ L) :
    Triple initproc ready t (Held t L P) (call .data)
      fun d => Held t L fun s => P s ∧ s.data = d := by
  refine held_read hP (fun d => hP.and fun _ _ hs h => (hs.data hl).trans h)
    (fun _ _ _ => trivial) ?_
  intro s c w b u _ _ _ hp hact
  obtain ⟨rfl,rfl⟩ := Prod.mk.inj (Option.some.inj hact)
  exact ⟨rfl,hp,rfl⟩

theorem fails_rule (hP : Kept initproc t L P) :
    Triple initproc ready t (Held t L P) (call .fails) fun _ => Held t L P := by
  refine held_read hP (fun _ => hP) (fun _ _ _ => trivial) ?_
  intro s c w b u _ _ _ hp hact
  obtain ⟨rfl,rfl⟩ := Prod.mk.inj (Option.some.inj hact)
  exact ⟨rfl,hp⟩

/-- `myproc` is the process itself, and none in the scheduler. -/
theorem myproc_rule (hP : Kept initproc t L P) (hme : ∀ c s, t = .inl c → P s → s.proc c = none) :
    Triple initproc ready t (Held t L P) (call .myproc)
      fun me => Held t L fun s => P s ∧ me = self t := by
  refine held_read hP (fun me => hP.and (.const _)) (fun _ _ _ => trivial) ?_
  intro s c w me u hi hat _ hp hact
  obtain ⟨rfl,rfl⟩ := Prod.mk.inj (Option.some.inj hact)
  refine ⟨rfl,hp,?_⟩
  cases t with
  | inl i => exact hat.1 ▸ hme i s rfl hp
  | inr p => exact hi.cpus.proc hat

end Held

end Xv6.Sched
