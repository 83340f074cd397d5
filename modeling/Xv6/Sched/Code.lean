import Xv6.Sched.Rules

/-! The functions of `proc.c`, one by one: whatever the other threads do, every command comes
where it may, and the function ends as its caller expects. -/
namespace Xv6.Sched

open Threads
open Function (update update_self)

variable {n m : ℕ} {δ α β : Type} {initproc : Fin n} {ready : δ → Bool} {s s' u : State n m δ}
  {t : Thread n m} {c : Fin m} {p q : Fin n} {l : Lock n} {L L' : Set (Lock n)}
  {P Q : State n m δ → Prop} {ch : Option (Chan n)}

/-- Nobody waits on the channel `ch`. -/
def Awake (ch : Option (Chan n)) (q : Fin n) (s : State n m δ) : Prop :=
  ∀ ch', ch = some ch' → ¬s.Waiting q ch'

theorem Kept.awake (hch : ∀ ch', ch = some ch' → ch'.lock ∈ L) :
    Kept (m := m) (δ := δ) initproc t L (Awake ch q) :=
  .all fun ch' => .imp fun h => .notWaiting (hch ch' h)

theorem Kept.notWaiting_own (hq : .proc q ∈ L) (ch : Chan n) :
    Kept (m := m) (δ := δ) initproc t L fun s => ¬s.Waiting q ch := by
  intro s s' hs h
  obtain ⟨hb,hd,-⟩ := hs.held q hq
  rwa [State.Waiting, hb, hd]

theorem Kept.settled (hq : .proc q ∈ L) :
    Kept (m := m) (δ := δ) initproc t L (State.Settled · q) :=
  fun _ _ hs => hs.settled hq

theorem settled_kept : Kept (m := m) (δ := δ) initproc t (insert (.proc q) L) (State.Settled · q) :=
  .settled (Set.mem_insert ..)

/-- Weaken what is known while a set of locks is held. -/
theorem Ensures.weaken {x : Code n δ α} {F : α → State n m δ → Prop}
    (h : Triple initproc ready t (Held t L P) x F)
    (hQ : ∀ s, Inv initproc ready s → Held t L Q s → P s) :
    Triple initproc ready t (Held t L Q) x F :=
  h.mono (fun s hi hq => hq.imp fun _ => hQ s hi hq) fun _ _ _ => id

/-- `wakeup` and `kkill` make a process RUNNABLE that sleeps. -/
theorem wake_rule {b : Pcb n} (hP : Kept initproc t L P) (hq : .proc q ∉ L)
    (hb : b.state = .sleeping) :
    Triple initproc ready t
      (Held t (insert (.proc q) L) fun s => (P s ∧ s.Settled q) ∧ s.pcb q = b)
      (call (.setState q .runnable))
      fun _ => Held t (insert (.proc q) L) fun s =>
        (P s ∧ s.Settled q) ∧ ∀ ch, ¬s.Waiting q ch := by
  have hP' := hP.mono (Set.subset_insert (.proc q) L)
  have hx : ∀ s : State n m δ, s.Settled q → s.pcb q = b → (s.pcb q).state = .sleeping ∧
      ¬s.Executing q := by
    rintro s hs rfl
    refine ⟨hb,fun hx => ?_⟩
    rw [hs.1, hb] at hx
    cases hx
  refine held_command ((hP'.and settled_kept).and (.pcb (· = b) (Set.mem_insert ..)))
    (fun _ => (hP'.and settled_kept).and (.all fun ch => .notWaiting_own (Set.mem_insert ..) ch))
    (fun s _ h => ?_) ?_
  · obtain ⟨hs,hex⟩ := hx s h.2.2.1.2 h.2.2.2
    exact ⟨by rw [h.2.1]; exact Set.mem_insert ..,.wake hs hex⟩
  · rintro s c w a u hi hat hown ⟨⟨hp,hset⟩,hpcb⟩ hact _
    obtain ⟨-,rfl⟩ := Prod.mk.inj (Option.some.inj hact)
    obtain ⟨hs,hex⟩ := hx s hset hpcb
    have ha : s.Alive q := by simp [State.Alive, hs, PState.alive]
    refine ⟨hat,hown,⟨hP s _ (alive_seen hi.family hq ha rfl (by simp)) hp,?_⟩,fun ch hw => ?_⟩
    · refine ⟨⟨fun h => absurd h hex,fun h => ?_⟩,update_self ..⟩
      simp [State.setState_pcb] at h
    · unfold State.Waiting at hw
      grind

theorem rouse_rule (hP : Kept initproc t L P) (hme : ∀ c s, t = .inl c → P s → s.proc c = none)
    (hL : ∀ q, .proc q ∉ L) (hch : ∀ ch', ch = some ch' → ch'.lock ∈ L) (q : Fin n) :
    Triple initproc ready t (Held t L P) (rouse ch q)
      fun _ => Held t L fun s => P s ∧ Awake ch q s := by
  have hpost : Kept initproc t L fun s => P s ∧ Awake ch q s := hP.and (.awake hch)
  have hP' := hP.mono (Set.subset_insert (.proc q) L)
  refine (myproc_rule hP hme).bind steps fun me => ?_
  refine Ensures.assume (a := me = self t) (fun s _ h => h.2.2.2) fun hself => ?_
  split
  · refine (acquire_rule (hP.and (.const _)) (hL q)).bind steps fun _ => ?_
    refine (pcb_rule ((hP'.and (.const _)).and settled_kept) (Set.mem_insert ..)).bind steps
      fun b => ?_
    split
    · rename_i hb
      refine Ensures.bind steps (Ensures.weaken (wake_rule hP (hL q) hb.1)
        fun s _ h => ⟨⟨h.2.2.1.1.1,h.2.2.1.2⟩,h.2.2.2⟩) fun _ => ?_
      refine Ensures.weaken (release_rule hpost (hL q)) fun s _ h => ?_
      exact ⟨⟨h.2.2.1.1,fun ch' _ => h.2.2.2 ch'⟩,h.2.2.1.2⟩
    · rename_i hb
      refine Ensures.weaken (release_rule hpost (hL q)) fun s _ h => ?_
      obtain ⟨⟨⟨hp,-⟩,hset⟩,rfl⟩ := h.2.2
      refine ⟨⟨hp,fun ch' hch' hw => ?_⟩,hset⟩
      rcases hw with hw | hw
      · exact absurd (hset.2.symm.trans hw) (by simp)
      · exact hb (hch' ▸ hw)
  · rename_i hq
    rw [ne_eq, not_not] at hq
    cases t with
    | inl c => exact absurd (hq.symm.trans hself) (by simp [self])
    | inr p =>
      obtain rfl : p = q := Option.some.inj (hself.symm.trans hq)
      refine .pure (held_stable (hP.and (.const _))) fun s hi h => ?_
      have hrun := running_of_not_owns hi h.1 (by rw [h.2.1]; exact hL p)
      refine h.imp fun hp => ⟨hp.1,fun ch' _ hw => ?_⟩
      rcases hw with hw | ⟨hw,-⟩
      · exact absurd (hrun.2.symm.trans hw) (by simp)
      · exact absurd (hrun.1.symm.trans hw) (by simp)

/-- After `wakeup` nobody waits on the channel. -/
theorem wakeup_rule (hP : Kept initproc t L P) (hme : ∀ c s, t = .inl c → P s → s.proc c = none)
    (hL : ∀ q, .proc q ∉ L) (hch : ∀ ch', ch = some ch' → ch'.lock ∈ L) :
    Triple initproc ready t (Held t L P) (wakeup ch)
      fun _ => Held t L fun s => P s ∧ ∀ q, Awake ch q s := by
  have hall : ∀ done : List (Fin n), Kept initproc t L fun s => P s ∧ ∀ q ∈ done, Awake ch q s :=
    fun done => hP.and (.all fun q => .imp fun _ => .awake hch)
  have hround : ∀ (done : List (Fin n)) (q : Fin n), Triple initproc ready t
      (Held t L fun s => P s ∧ ∀ q ∈ done, Awake ch q s) (rouse ch q)
      fun _ => Held t L fun s => P s ∧ ∀ r ∈ done++[q], Awake ch r s := by
    intro done q
    refine (rouse_rule (hall done) (fun c s ht h => hme c s ht h.1) hL hch q).mono
      (fun _ _ => id) fun _ s _ h => h.imp fun h => ⟨h.1.1,fun r hr => ?_⟩
    rcases List.mem_append.mp hr with hr | hr
    · exact h.1.2 r hr
    · rw [List.mem_singleton.mp hr]
      exact h.2
  refine (Ensures.forM steps (fun done => held_stable (hall done)) hround (slots n) []).mono
    (fun s _ h => h.imp fun h => ⟨h,by simp⟩) fun _ s _ h => h.imp fun h => ⟨h.1,fun q => h.2 q ?_⟩
  simp [slots]

theorem setKilled_rule {A B : Pcb n → Prop} (hP : Kept initproc t L P) (hq : .proc q ∉ L)
    (hA : ∀ b, A b → B { b with killed := true }) :
    Triple initproc ready t
      (Held t (insert (.proc q) L) fun s => (P s ∧ s.Settled q) ∧ A (s.pcb q))
      (call (.setKilled q))
      fun _ => Held t (insert (.proc q) L) fun s => (P s ∧ s.Settled q) ∧ B (s.pcb q) := by
  have hmem : Lock.proc q ∈ insert (Lock.proc q) L := Set.mem_insert ..
  have hP' := hP.mono (Set.subset_insert (.proc q) L)
  refine held_command ((hP'.and settled_kept).and (.pcb A hmem))
    (fun _ => (hP'.and settled_kept).and (.pcb B hmem))
    (fun s _ h => by rw [Pre, h.2.1]; exact hmem) ?_
  rintro s c w a u hi hat hown ⟨⟨hp,hset⟩,hr⟩ hact _
  obtain ⟨-,rfl⟩ := Prod.mk.inj (Option.some.inj hact)
  refine ⟨hat,hown,⟨hP s _ (touch_seen hq rfl rfl) hp,?_⟩,?_⟩
  · exact ⟨by rw [State.setPcb_pcb, if_pos rfl]; exact hset.1,hset.2⟩
  · rw [State.setPcb_pcb, if_pos rfl]
    exact hA _ hr

theorem kkillFrom_rule {pid : ℕ} (hP : Kept initproc t L P) (hL : ∀ q, .proc q ∉ L)
    (qs : List (Fin n)) :
    Triple initproc ready t (Held t L P) (kkillFrom pid qs) fun _ => Held t L P := by
  induction qs with
  | nil => exact .pure (held_stable hP) fun _ _ => id
  | cons q qs ih =>
    have hP' := hP.mono (Set.subset_insert (.proc q) L)
    have hrelease : Triple initproc ready t
        (Held t (insert (.proc q) L) fun s => P s ∧ s.Settled q) (call (.release (.proc q)))
        fun _ => Held t L P := release_rule hP (hL q)
    refine (acquire_rule hP (hL q)).bind steps fun _ => ?_
    refine (pcb_rule (hP'.and settled_kept) (Set.mem_insert ..)).bind steps fun b => ?_
    split
    · refine Ensures.bind steps (setKilled_rule (A := (· = b))
        (B := (· = { b with killed := true })) hP (hL q) (by rintro _ rfl; rfl)) fun _ => ?_
      split
      · rename_i hb
        refine (wake_rule (b := { b with killed := true }) hP (hL q) hb).bind steps fun _ => ?_
        exact (Ensures.weaken hrelease fun s _ h => h.2.2.1).bind steps
          fun _ => .pure (held_stable hP) fun _ _ => id
      · exact (Ensures.weaken hrelease fun s _ h => h.2.2.1).bind steps
          fun _ => .pure (held_stable hP) fun _ _ => id
    · exact (Ensures.weaken hrelease fun s _ h => h.2.2.1).bind steps fun _ => ih

theorem setkilled_rule (hP : Kept initproc t L P) (hL : .proc p ∉ L) :
    Triple initproc ready t (Held t L P) (setkilled p) fun _ => Held t L P := by
  refine (acquire_rule hP hL).bind steps fun _ => ?_
  refine Ensures.bind steps (Ensures.weaken (setKilled_rule (A := fun _ => True)
    (B := fun _ => True) hP hL fun _ => id) fun s _ h => ⟨h.2.2,trivial⟩) fun _ => ?_
  exact Ensures.weaken (release_rule hP hL) fun s _ h => h.2.2.1

theorem killed_rule (hP : Kept initproc t L P) (hL : .proc p ∉ L) :
    Triple initproc ready t (Held t L P) (killed p) fun _ => Held t L P := by
  have hP' := hP.mono (Set.subset_insert (.proc p) L)
  refine (acquire_rule hP hL).bind steps fun _ => ?_
  refine (pcb_rule (hP'.and settled_kept) (Set.mem_insert ..)).bind steps fun b => ?_
  refine (Ensures.weaken (release_rule hP hL) fun s _ h => h.2.2.1).bind steps fun _ => ?_
  exact .pure (held_stable hP) fun _ _ => id

/-! Giving up the CPU. -/

theorem locks_nodup : (locks n).Nodup := by
  have hinj : Function.Injective (Lock.proc (n := n)) := fun _ _ h => Lock.proc.inj h
  simp [locks, slots, List.nodup_map_iff hinj, List.nodup_finRange]

theorem mem_locks (l : Lock n) : l ∈ locks n := by
  cases l <;> simp [locks, slots]

/-- A CPU that holds one lock has disabled interrupts once. -/
theorem noff_eq_one (h : ∀ l', s.lock l' = some c ↔ l' = l) : s.noff c = 1 := by
  have heq : s.noff c = (locks n).count l := by
    rw [State.noff, List.count]
    refine List.countP_congr fun l' _ => ?_
    simp [h]
  rw [heq]
  exact List.count_eq_one_of_mem locks_nodup (mem_locks l)

theorem panic_rule {why : Panic} {F : α → State n m δ → Prop}
    (h : ∀ s s', Inv initproc ready s → P s → Inv initproc ready s' → View initproc t s s' →
      (∃ c, At s' t c) → why = .initExiting) :
    Triple initproc ready t P (panic why) F := by
  intro s hi hp s' hi' hv hr
  exact ⟨h s s' hi hp hi' hv hr,fun w r => r.elim⟩

/-- The checks of `sched` pass. -/
theorem sched_rule {F : Unit → State n m δ → Prop} (hP : Kept initproc (.inr p) {.proc p} P)
    (hs : ∀ s, P s → (s.pcb p).state ≠ .running)
    (h : Triple initproc ready (.inr p) (Held (.inr p) {.proc p} P) (call .swtch) F) :
    Triple initproc ready (.inr p) (Held (.inr p) {.proc p} P) (sched p) F := by
  have hlock : ∀ {s : State n m δ} {c : Fin m}, Inv initproc ready s → At s (.inr p) c →
      s.owns (.inr p) = {.proc p} → ∀ l, s.lock l = some c ↔ l = .proc p := by
    intro s c hi hat hown l
    rw [← mem_owns hi.cpus hat, hown, Set.mem_singleton_iff]
  have hheld : Triple initproc ready (.inr p) (Held (.inr p) {.proc p} P)
      (call (.holding (.proc p))) fun a => Held (.inr p) {.proc p} fun s => P s ∧ a = true := by
    refine held_read hP (fun _ => hP.and (.const _)) (fun _ _ _ => trivial) ?_
    intro s c w a u hi hat hown hp hact
    obtain ⟨rfl,rfl⟩ := Prod.mk.inj (Option.some.inj hact)
    exact ⟨rfl,hp,decide_eq_true ((hlock hi hat hown _).mpr rfl)⟩
  have hnoff : Triple initproc ready (.inr p) (Held (.inr p) {.proc p} P)
      (call .noff) fun a => Held (.inr p) {.proc p} fun s => P s ∧ a = 1 := by
    refine held_read hP (fun _ => hP.and (.const _)) (fun _ _ _ => trivial) ?_
    intro s c w a u hi hat hown hp hact
    obtain ⟨rfl,rfl⟩ := Prod.mk.inj (Option.some.inj hact)
    exact ⟨rfl,hp,noff_eq_one (hlock hi hat hown)⟩
  have hintr : Triple initproc ready (.inr p) (Held (.inr p) {.proc p} P)
      (call .intrGet) fun a => Held (.inr p) {.proc p} fun s => P s ∧ a = false := by
    refine held_read hP (fun _ => hP.and (.const _)) (fun _ _ _ => trivial) ?_
    intro s c w a u hi hat hown hp hact
    obtain ⟨rfl,rfl⟩ := Prod.mk.inj (Option.some.inj hact)
    exact ⟨rfl,hp,by simp [State.intrGet, noff_eq_one (hlock hi hat hown)]⟩
  refine hheld.bind steps fun a => ?_
  refine Ensures.assume (fun s _ h => h.2.2.2) fun ha => ?_
  subst ha
  refine Ensures.weaken (P := P) ?_ fun s _ h => h.2.2.1
  refine hnoff.bind steps fun a => ?_
  refine Ensures.assume (fun s _ h => h.2.2.2) fun ha => ?_
  subst ha
  refine Ensures.weaken (P := P) ?_ fun s _ h => h.2.2.1
  refine (pcb_rule hP rfl).bind steps fun b => ?_
  refine Ensures.assume (a := b.state ≠ .running) (fun s _ h => h.2.2.2 ▸ hs s h.2.2.1) fun hb => ?_
  rw [if_neg hb]
  refine Ensures.weaken (P := P) ?_ fun s _ h => h.2.2.1
  refine hintr.bind steps fun a => ?_
  refine Ensures.assume (fun s _ h => h.2.2.2) fun ha => ?_
  subst ha
  exact Ensures.weaken h fun s _ h => h.2.2.1

/-- Process `p` has switched to the scheduler, and will find itself dispatched. -/
def Parked (p : Fin n) (P : State n m δ → Prop) (s : State n m δ) : Prop :=
  (s.Executing p → s.Dispatched p) ∧ s.Alive p ∧ P s

theorem parked_stable (hP : Kept initproc (.inr p) ∅ P) :
    Stable (logic initproc ready) (.inr p) (Parked p P) := by
  rintro s s' - - ⟨hd,ha,hp⟩ hv
  by_cases hx : s.Executing p
  · obtain ⟨hx',ho,hs⟩ := hv.1 hx
    exact ⟨fun hx' => hs.dispatched (hd hx) hx' ho,(hs.own p rfl ha).alive,
      hP s s' (hs.mono (Set.empty_subset _)) hp⟩
  · obtain ⟨h1,-,h3,-⟩ := hv.2 hx
    exact ⟨fun hx' => h1.resolve_left (not_not.mpr hx'),((h3 ha).own p rfl ha).alive,
      hP s s' (h3 ha) hp⟩

/-- When it goes on, it holds its lock and is RUNNING. -/
theorem parked_rule {x : Cmd n δ} {k : x.Result → Code n δ α} {F : α → State n m δ → Prop}
    (hP : Kept initproc (.inr p) ∅ P)
    (h : Triple initproc ready (.inr p)
      (Held (.inr p) {.proc p} fun s => (P s ∧ s.Settled p) ∧ (s.pcb p).state = .running)
      (call x >>= k) F) :
    Triple initproc ready (.inr p) (Parked p P) (call x >>= k) F := by
  refine Ensures.of_runs (parked_stable hP) ?_ h fun _ => View.refl
  intro s _ hp hx
  obtain ⟨-,hown,hs,hd⟩ := hp.1 hx
  exact ⟨hx,hown,⟨hp.2.2,⟨fun _ => hs,fun _ => hx⟩,hd⟩,hs⟩

theorem switched_seen (h : Family initproc s) :
    Seen initproc (.inr q) ∅ s (switched s c p) where
  __ := (Seen.refl : Seen initproc (.inr q) ∅ s s)
  held _ hq := absurd hq (Set.notMem_empty _)
  own r _ har := by
    refine ⟨har,rfl,rfl,rfl,rfl,fun r' he => ⟨fun hst => ?_,rfl⟩,fun _ hp hz => ⟨hp,hz⟩⟩
    by_cases hrp : r' = p
    · subst hrp
      simp [(h.embryo he).1]
    · rwa [switched_stale hrp]

/-- Ready to give up the CPU and come back. -/
def Leaving (p : Fin n) (P : State n m δ → Prop) (s : State n m δ) : Prop :=
  P s ∧ s.Alive p ∧ (s.pcb p).state ≠ .running ∧ s.drowsy p = none

theorem Kept.leaving (hP : Kept initproc (.inr p) ∅ P) :
    Kept initproc (.inr p) {.proc p} (Leaving p P) :=
  have hmem : Lock.proc p ∈ ({.proc p} : Set (Lock n)) := rfl
  (hP.mono (Set.empty_subset _)).and ((Kept.pcb (·.state.alive = true) hmem).and
    ((Kept.pcb (·.state ≠ .running) hmem).and (.drowsy hmem)))

theorem swtch_rule (hP : Kept initproc (.inr p) ∅ P) :
    Triple initproc ready (.inr p) (Held (.inr p) {.proc p} (Leaving p P)) (call .swtch)
      fun _ => Parked p P := by
  refine Ensures.command steps (held_stable (.leaving hP)) (fun _ => parked_stable hP) ?_ ?_
  · rintro s _ ⟨-,hown,-,-,hs,hd⟩ -
    exact ⟨p,rfl,hown,hs,hd⟩
  · rintro s w a u hi ⟨-,hown,hp,ha,-,-⟩ he -
    obtain ⟨c,hat,hact⟩ := exec_cases he
    obtain ⟨-,rfl⟩ := Prod.mk.inj (Option.some.inj hact)
    refine ⟨?_,ha,hP s _ (switched_seen hi.family) hp⟩
    rintro ⟨c',hc'⟩
    obtain ⟨h1,h2⟩ := switched_on.mp hc'
    exact absurd (hi.cpus.one h1 hat) h2

/-- `yield` returns to what it left, as far as the others keep it. -/
theorem yield_rule (hP : Kept initproc (.inr p) ∅ P) :
    Triple initproc ready (.inr p) (Held (.inr p) ∅ P) (yield p)
      fun _ => Held (.inr p) ∅ P := by
  have hmem : Lock.proc p ∈ ({.proc p} : Set (Lock n)) := rfl
  refine (acquire_first hP).bind steps fun _ => ?_
  refine Ensures.bind steps (Q := fun _ => Held (.inr p) {.proc p} (Leaving p P)) ?_ fun _ => ?_
  · refine held_command ((hP.mono (Set.empty_subset _)).and (.releasable hmem))
      (fun _ => .leaving hP) ?_ ?_
    · rintro s hi ⟨hx,hown,-,hs⟩
      exact ⟨by rw [hown]; rfl,.yield (hs.1.mp hx) hs.2⟩
    · rintro s c w a u hi hat hown ⟨hp,hs⟩ hact _
      obtain ⟨-,rfl⟩ := Prod.mk.inj (Option.some.inj hact)
      have ha := alive_of_running (hs.1.mp ⟨c,hat⟩)
      have hseen : Seen initproc (.inr p) ∅ s (s.setState (some p) p .runnable) :=
        alive_seen hi.family (Set.notMem_empty _) ha rfl (by simp)
      refine ⟨hat,hown,hP s _ hseen hp,(hseen.own p rfl ha).alive,?_,update_self ..⟩
      simp [State.setState_pcb, self]
  refine (sched_rule (.leaving hP) (fun s h => h.2.2.1) (swtch_rule hP)).bind steps fun _ => ?_
  exact parked_rule hP (Ensures.weaken (release_last hP) fun s _ h => h.2.2.1)

/-- A process that creates nobody and has nothing to report. -/
def Idle (p : Fin n) (s : State n m δ) : Prop :=
  s.Alive p ∧ s.embryo p = none ∧ s.hand p = none

theorem Kept.idle : Kept (m := m) (δ := δ) initproc (.inr p) L (Idle p) := by
  rintro s s' hs ⟨ha,he,hh⟩
  have hown := hs.own p rfl ha
  exact ⟨hown.alive,hown.embryo.trans he,hown.hand.trans hh⟩

theorem Kept.idle_chan : Kept (m := m) (δ := δ) initproc (.inr p) L
    fun s => Idle p s ∧ (s.pcb p).chan = none := by
  rintro s s' hs ⟨hi,hc⟩
  exact ⟨Kept.idle s s' hs hi,(hs.own p rfl hi.1).chan.trans hc⟩

section Sleep

variable {ch : Chan n}

theorem Kept.dozes (hl : l ∈ L) :
    Kept initproc (.inr p) L fun s => Dozes (m := m) initproc ready s p l ch := by
  intro s s' hs hd
  cases hd with
  | wait hp hh hk hz =>
    obtain ⟨q,hq⟩ := hk
    exact .wait (hs.patient hl hp) (hs.heirs hl _ hh) ⟨q,(hs.parent hl q).trans hq⟩
      fun r hr hzr => hz r ((hs.parent hl r).symm.trans hr) (hs.zombie hl r hzr)
  | cond hc hr => exact .cond (hs.keepsCalm hl hc) (by rw [hs.data hl]; exact hr)

/-- Between the `release` of `sleep` and the change of `p->state`. -/
def Drowsy (p : Fin n) (x : Option (Chan n) → Prop) (ch : Chan n) (s : State n m δ) : Prop :=
  Idle p s ∧ (s.pcb p).state = .running ∧ s.drowsy p = some ch ∧ x (s.pcb p).chan

theorem Kept.drowsing {x : Option (Chan n) → Prop} :
    Kept (m := m) (δ := δ) initproc (.inr p) {.proc p} (Drowsy p x ch) := by
  rintro s s' hs ⟨hi,hst,hd,hx⟩
  obtain ⟨hb,hd',-⟩ := hs.held p rfl
  exact ⟨Kept.idle s s' hs hi,by rwa [hb],hd'.trans hd,by rwa [hb]⟩

theorem doze_rule (hl : ∀ q, l ≠ .proc q) :
    Triple (m := m) initproc ready (.inr p)
      (Held (.inr p) (insert (.proc p) {l}) fun s =>
        (Idle p s ∧ Dozes initproc ready s p l ch) ∧ s.Settled p)
      (call (.doze l ch)) fun _ => Held (.inr p) {.proc p} (Drowsy p (fun _ => True) ch) := by
  have hmem : l ∈ insert (Lock.proc p) ({l} : Set (Lock n)) := .inr rfl
  refine held_command ((Kept.idle.and (.dozes hmem)).and settled_kept) (fun _ => .drowsing) ?_ ?_
  · rintro s hi ⟨hx,hown,⟨-,hd⟩,hs⟩
    refine ⟨by rw [hown]; exact hmem,p,rfl,by rw [hown]; exact .inl rfl,hs.1.mp hx,hs.2,hd⟩
  · rintro s c w a u hi hat hown ⟨⟨hidle,hd⟩,hs⟩ hact _
    have hlock : s.lock l = some c := by
      rw [← mem_owns hi.cpus hat, hown]
      exact hmem
    simp only [act, if_pos hlock] at hact
    obtain ⟨-,rfl⟩ := Prod.mk.inj (Option.some.inj hact)
    rw [Set.pair_comm] at hown
    have hnot : l ∉ ({.proc p} : Set (Lock n)) := hl p
    exact ⟨hat,owns_release hi.cpus hat hown hnot,hidle,hs.1.mp ⟨c,hat⟩,
      update_self ..,trivial⟩

theorem chan_rule {x : Option (Chan n) → Prop} :
    Triple (m := m) initproc ready (.inr p) (Held (.inr p) {.proc p} (Drowsy p x ch))
      (call (.setChan p (some ch)))
      fun _ => Held (.inr p) {.proc p} (Drowsy p (· = some ch) ch) := by
  refine held_command .drowsing (fun _ => .drowsing) ?_ ?_
  · rintro s - ⟨-,hown,-,hs,-,-⟩
    exact ⟨rfl,by rw [hown]; rfl,hs⟩
  · rintro s c w a u hi hat hown ⟨⟨ha,he,hh⟩,hs,hd,-⟩ hact _
    obtain ⟨-,rfl⟩ := Prod.mk.inj (Option.some.inj hact)
    refine ⟨hat,hown,⟨?_,he,hh⟩,?_,hd,?_⟩
    · rw [State.Alive, State.setPcb_pcb, if_pos rfl]
      exact ha
    · rw [State.setPcb_pcb, if_pos rfl]
      exact hs
    · rw [State.setPcb_pcb, if_pos rfl]

theorem asleep_rule :
    Triple (m := m) initproc ready (.inr p) (Held (.inr p) {.proc p} (Drowsy p (· = some ch) ch))
      (call (.setState p .sleeping))
      fun _ => Held (.inr p) {.proc p} (Leaving p (Idle p)) := by
  refine held_command .drowsing (fun _ => .leaving .idle) ?_ ?_
  · rintro s - ⟨-,hown,-,hs,hd,hc⟩
    exact ⟨by rw [hown]; rfl,.sleep hs (hd.trans hc.symm)⟩
  · rintro s c w a u hi hat hown ⟨hidle,hs,hd,hc⟩ hact _
    obtain ⟨-,rfl⟩ := Prod.mk.inj (Option.some.inj hact)
    have hseen : Seen initproc (.inr p) ∅ s (s.setState (some p) p .sleeping) :=
      alive_seen hi.family (Set.notMem_empty _) hidle.1 rfl fun _ => hd.trans hc.symm
    refine ⟨hat,hown,Kept.idle s _ hseen hidle,(hseen.own p rfl hidle.1).alive,?_,
      update_self ..⟩
    simp [State.setState_pcb, self]

theorem clear_rule :
    Triple (m := m) initproc ready (.inr p)
      (Held (.inr p) {.proc p} fun s => (Idle p s ∧ s.Settled p) ∧ (s.pcb p).state = .running)
      (call (.setChan p none))
      fun _ => Held (.inr p) {.proc p} fun s =>
        (Idle p s ∧ (s.pcb p).chan = none) ∧ s.Settled p := by
  have hmem : Lock.proc p ∈ ({.proc p} : Set (Lock n)) := rfl
  refine held_command ((Kept.idle.and (.settled hmem)).and (.pcb (·.state = .running) hmem))
    (fun _ => .and .idle_chan (.settled hmem)) ?_ ?_
  · rintro s - ⟨-,hown,-,hs⟩
    exact ⟨rfl,by rw [hown]; rfl,hs⟩
  · rintro s c w a u hi hat hown ⟨⟨⟨ha,he,hh⟩,hset⟩,hs⟩ hact _
    obtain ⟨-,rfl⟩ := Prod.mk.inj (Option.some.inj hact)
    refine ⟨hat,hown,⟨⟨?_,he,hh⟩,?_⟩,?_,hset.2⟩
    · rw [State.Alive, State.setPcb_pcb, if_pos rfl]
      exact ha
    · rw [State.setPcb_pcb, if_pos rfl]
    · rw [State.setPcb_pcb, if_pos rfl]
      exact hset.1

/-- `sleep` gives up the lock and returns with it. -/
theorem sleep_rule (hl : ∀ q, l ≠ .proc q) :
    Triple (m := m) initproc ready (.inr p)
      (Held (.inr p) {l} fun s => Idle p s ∧ Dozes initproc ready s p l ch) (sleep p ch l)
      fun _ => Held (.inr p) {l} fun s => Idle p s ∧ Releasable initproc ready s l := by
  have hnot : Lock.proc p ∉ ({l} : Set (Lock n)) := fun h => hl p h.symm
  refine (acquire_rule (Kept.idle.and (.dozes (Set.mem_singleton l))) hnot).bind steps fun _ => ?_
  refine (doze_rule hl).bind steps fun _ => ?_
  refine chan_rule.bind steps fun _ => ?_
  refine asleep_rule.bind steps fun _ => ?_
  refine (sched_rule (.leaving .idle) (fun s h => h.2.2.1) (swtch_rule .idle)).bind steps
    fun _ => ?_
  refine parked_rule .idle (clear_rule.bind steps fun _ => ?_)
  refine (release_last .idle_chan).bind steps fun _ => ?_
  refine (acquire_first .idle_chan).bind steps fun _ => ?_
  refine held_read (.and .idle_chan (.releasable (Set.mem_singleton l)))
    (fun _ => .and .idle (.releasable (Set.mem_singleton l))) ?_ ?_
  · rintro s - ⟨-,hown,⟨-,hc⟩,-⟩
    exact ⟨by rw [hown]; rfl,p,rfl,hc⟩
  · rintro s c w a u - - - ⟨⟨hidle,-⟩,hr⟩ hact
    obtain ⟨-,rfl⟩ := Prod.mk.inj (Option.some.inj hact)
    exact ⟨rfl,hidle,hr⟩

end Sleep

/-! The scheduler. -/

/-- Picked by the scheduler of `c` and not yet switched to. -/
def Chosen (c : Fin m) (q : Fin n) (x : Option (Fin n)) (s : State n m δ) : Prop :=
  s.proc c = x ∧ (s.pcb q).state = .running ∧ s.drowsy q = none ∧ ¬s.Executing q

theorem Kept.chosen {x : Option (Fin n)} :
    Kept (m := m) (δ := δ) initproc (.inl c) {.proc q} (Chosen c q x) :=
  have hmem : Lock.proc q ∈ ({.proc q} : Set (Lock n)) := rfl
  Kept.proc.and ((Kept.pcb (·.state = .running) hmem).and ((Kept.drowsy hmem).and
    (.notExecuting hmem)))

theorem choose_rule {b : Pcb n} (hb : b.state = .runnable) :
    Triple initproc ready (.inl c)
      (Held (.inl c) {.proc q} fun s => (s.proc c = none ∧ s.Settled q) ∧ s.pcb q = b)
      (call (.setState q .running)) fun _ => Held (.inl c) {.proc q} (Chosen c q none) := by
  have hmem : Lock.proc q ∈ ({.proc q} : Set (Lock n)) := rfl
  have hx : ∀ s : State n m δ, s.Settled q → s.pcb q = b → (s.pcb q).state = .runnable ∧
      ¬s.Executing q := by
    rintro s hs rfl
    refine ⟨hb,fun hx => ?_⟩
    rw [hs.1, hb] at hx
    cases hx
  refine held_command ((Kept.proc.and (.settled hmem)).and (.pcb (· = b) hmem))
    (fun _ => .chosen) ?_ ?_
  · rintro s - ⟨-,hown,⟨-,hset⟩,hpcb⟩
    obtain ⟨hs,hex⟩ := hx s hset hpcb
    exact ⟨by rw [hown]; rfl,.dispatch hs hex⟩
  · rintro s c' w a u hi hat hown ⟨⟨hpr,hset⟩,hpcb⟩ hact _
    obtain ⟨-,rfl⟩ := Prod.mk.inj (Option.some.inj hact)
    refine ⟨hat,hown,hpr,?_,update_self ..,(hx s hset hpcb).2⟩
    simp [State.setState_pcb]

theorem setProc_rule {x y : Option (Fin n)} {A : State n m δ → Prop}
    (hP : Kept initproc (.inl c) L fun s => s.proc c = y ∧ P s)
    (hA : Kept initproc (.inl c) L A)
    (h : ∀ s : State n m δ, P s → A { s with proc := update s.proc c x }) :
    Triple initproc ready (.inl c) (Held (.inl c) L fun s => s.proc c = y ∧ P s)
      (call (.setProc x)) fun _ => Held (.inl c) L fun s => s.proc c = x ∧ A s := by
  refine held_command hP (fun _ => Kept.proc.and hA) (fun _ _ _ => ⟨c,rfl⟩) ?_
  rintro s c' w a u hi ⟨rfl,hon⟩ hown ⟨-,hp⟩ hact _
  obtain ⟨-,rfl⟩ := Prod.mk.inj (Option.some.inj hact)
  exact ⟨⟨rfl,hon⟩,hown,update_self ..,h s hp⟩

/-- The scheduler of `c` has switched to `q`, or is back. -/
def Away (c : Fin m) (q : Fin n) (s : State n m δ) : Prop := s.on c = some q ∨ s.Back c q

theorem away_stable : Stable (logic (m := m) initproc ready) (.inl c) (Away c q) := by
  rintro s s' - - (hq | hb) hv
  · exact hv.2 q hq
  · obtain ⟨⟨c',rfl,hon⟩,ho,hs⟩ := hv.1 ⟨c,rfl,hb.1⟩
    exact .inr (hs.back hb hon ho)

theorem swtchTo_rule :
    Triple initproc ready (.inl c) (Held (.inl c) {.proc q} (Chosen c q (some q)))
      (call (.swtchTo q)) fun _ => Away c q := by
  refine Ensures.command steps (held_stable .chosen) (fun _ => away_stable) ?_ ?_
  · rintro s - ⟨-,hown,hpr,hs,hd,hx⟩ -
    exact ⟨hs,hd,hx,c,rfl,hown,hpr⟩
  · rintro s w a u hi - he -
    obtain ⟨c',⟨rfl,-⟩,hact⟩ := exec_cases he
    obtain ⟨-,rfl⟩ := Prod.mk.inj (Option.some.inj hact)
    exact .inl (update_self ..)

theorem away_rule {x : Cmd n δ} {k : x.Result → Code n δ α} {F : α → State n m δ → Prop}
    (h : Triple initproc ready (.inl c)
      (Held (.inl c) {.proc q} fun s => s.proc c = some q ∧ s.Settled q) (call x >>= k) F) :
    Triple initproc ready (.inl c) (Away c q) (call x >>= k) F := by
  refine Ensures.of_runs away_stable ?_ h fun _ => View.refl
  rintro s - (hq | ⟨hon,hown,hx,hs,hd,hpr⟩) ⟨c',rfl,hc⟩
  · exact absurd (hq.symm.trans hc) (by simp)
  · exact ⟨⟨c,rfl,hon⟩,hown,hpr,⟨fun h => absurd h hx,fun h => absurd h hs⟩,hd⟩

/-- The scheduler leaves a slot as it came. -/
theorem visit_rule : Triple initproc ready (.inl c) (Held (.inl c) ∅ fun s => s.proc c = none)
    (visit q) fun _ => Held (.inl c) ∅ fun s => s.proc c = none := by
  have hmem : Lock.proc q ∈ ({.proc q} : Set (Lock n)) := rfl
  refine (acquire_first .proc).bind steps fun _ => ?_
  refine (pcb_rule (Kept.proc.and (.releasable hmem)) hmem).bind steps fun b => ?_
  split
  · rename_i hb
    refine (choose_rule hb).bind steps fun _ => ?_
    refine (setProc_rule .chosen ((Kept.pcb (·.state = .running) hmem).and
      ((Kept.drowsy hmem).and (.notExecuting hmem))) fun s h => h).bind steps fun _ => ?_
    refine swtchTo_rule.bind steps fun _ => ?_
    refine away_rule (Ensures.bind steps (setProc_rule (Kept.proc.and (.settled hmem))
      (.settled hmem) fun s h => h) fun _ => ?_)
    exact release_last .proc
  · exact Ensures.weaken (release_last .proc) fun s _ h => h.2.2.1

end Xv6.Sched
