import Xv6.Sched.Calls

/-! What holds in every state that the kernel reaches: a process executes on one CPU at most,
no wakeup is lost, and every exit is reported once. -/
namespace Xv6.Sched

open Threads List

variable {n m : ℕ} {δ : Type} {initproc : Fin n} {ready : δ → Bool} {s s' : State n m δ}
  {t : Thread n m} {c : Fin m} {p q : Fin n}

/-- A process about to return to user space. -/
theorem user_rule :
    Triple (m := m) initproc ready (.inr p) (Held (.inr p) ∅ (Idle p)) (pure .user)
      fun l s => AtLabel initproc ready s (.inr p) l :=
  .pure (held_stable .idle) fun _ _ h => ⟨h.1,h.2.1,h.2.2.2⟩

theorem syscall_rule (x : Call δ) :
    Triple (m := m) initproc ready (.inr p) (fun s => AtLabel initproc ready s (.inr p) .user)
      (syscall initproc ready p x) fun l s => AtLabel initproc ready s (.inr p) l := by
  suffices h : Triple (m := m) initproc ready (.inr p) (Held (.inr p) ∅ (Idle p))
      (syscall initproc ready p x) fun l s => AtLabel initproc ready s (.inr p) l by
    refine h.mono (fun s hi hl => ?_) fun _ _ _ => id
    obtain ⟨hx,hown,he,hh⟩ := hl
    exact ⟨hx,hown,alive_of_not_owns hi hx (by simp [hown]),he,hh⟩
  cases x with
  | nop => exact user_rule
  | fork => exact kfork_rule.bind steps fun _ => user_rule
  | exit status => exact kexit_rule
  | wait addr =>
    refine (acquire_first .idle).bind steps fun _ => ?_
    refine .pure (held_stable (Kept.idle.and (.releasable (Set.mem_singleton _)))) ?_
    exact fun s _ h => ⟨h.1,h.2.1,h.2.2.1.2.1,h.2.2.1.2.2,h.2.2.2⟩
  | kill pid => exact (kkillFrom_rule .idle (by simp) (slots n)).bind steps fun _ => user_rule
  | setkilled => exact (setkilled_rule .idle (by simp)).bind steps fun _ => user_rule
  | yield => exact (yield_rule .idle).bind steps fun _ => user_rule
  | use acts parts =>
    refine (acquire_first .idle).bind steps fun _ => ?_
    refine Ensures.bind steps (Ensures.weaken (drive_rule .idle (by simp) acts false)
      fun s _ h => ⟨h.2.2.1,.inr h.2.2.2⟩) fun unsent => ?_
    refine .pure (held_stable (.working .idle (Set.mem_singleton _))) ?_
    exact fun s _ h => ⟨h.1,h.2.1,h.2.2.1.2.1,h.2.2.1.2.2,h.2.2.2⟩

theorem forkret_rule :
    Triple (m := m) initproc ready (.inr p) (fun s => AtLabel initproc ready s (.inr p) .forkret)
      (forkret p) fun l s => AtLabel initproc ready s (.inr p) l := by
  have hrest : Triple (m := m) initproc ready (.inr p)
      (Held (.inr p) {.proc p} fun s => Idle p s ∧ s.Settled p) (forkret p)
      fun l s => AtLabel initproc ready s (.inr p) l :=
    (release_last .idle).bind steps fun _ => user_rule
  refine Ensures.of_runs (atLabel_stable _) ?_ hrest fun _ => View.refl
  rintro s - ⟨hf,hd⟩ hx
  obtain ⟨-,hown,hs,hdr⟩ := hd hx
  have ha := alive_of_running hs
  exact ⟨hx,hown,⟨ha,hf ha⟩,⟨fun _ => hs,fun _ => hx⟩,hdr⟩

theorem schedulerRound_rule (w : Input m δ) :
    Triple initproc ready (.inl c) (fun s => AtLabel initproc ready s (.inl c) .scheduler)
      (schedulerRound ready w) fun l s => AtLabel initproc ready s (.inl c) l := by
  have hloop : Triple initproc ready (.inl c) (Held (.inl c) ∅ fun s => s.proc c = none)
      ((slots n).forM visit >>= fun _ => pure Label.scheduler)
      fun l s => AtLabel initproc ready s (.inl c) l := by
    refine Ensures.bind steps (Ensures.forM (P := fun _ => Held (.inl c) ∅ fun s => s.proc c = none)
      steps (fun _ => held_stable .proc) (fun _ _ => visit_rule) (slots n) []) fun _ => ?_
    refine .pure (held_stable .proc) ?_
    rintro s - ⟨⟨c',rfl,hon⟩,hown,hpr⟩
    exact ⟨hon,hown,hpr⟩
  suffices h : Triple initproc ready (.inl c) (Held (.inl c) ∅ fun s => s.proc c = none)
      (schedulerRound ready w) fun l s => AtLabel initproc ready s (.inl c) l by
    exact h.mono (fun s _ hl => ⟨⟨c,rfl,hl.1⟩,hl.2.1,hl.2.2⟩) fun _ _ _ => id
  unfold schedulerRound
  split
  · exact hloop
  · refine (device_rule .proc ?_ _).bind steps fun _ => hloop
    rintro c' s h hs
    obtain rfl := Sum.inl.inj h
    exact hs

theorem owns_empty (h : s.on c = some p) (hi : Cpus s) (hc : s.intrGet c = true) :
    s.owns (.inr p) = ∅ := by
  ext l
  rw [mem_owns (t := .inr p) hi h]
  have hnone := countP_eq_zero.mp (of_decide_eq_true hc) l (mem_locks l)
  simpa using hnone

/-- A thread that has run code of its own sees what the others keep. -/
theorem view_of_held (hx : s.Executing p) (ho : s.owns (.inr p) = ∅)
    (h : Held (.inr p) ∅ (Seen initproc (.inr p) ∅ s) s') : View initproc (.inr p) s s' :=
  ⟨fun _ => ⟨h.1,h.2.1.trans ho.symm,by rw [ho]; exact h.2.2⟩,fun hout => absurd hx hout⟩

/-- The kernel obeys the rules of `Threads`. -/
theorem sound : Sound (kernel initproc ready) (logic (m := m) initproc ready) where
  toSteps := steps
  code t l w := by
    cases t with
    | inl c =>
      cases l with
      | scheduler => exact schedulerRound_rule w
      | _ => exact fun s _ hs => hs.elim
    | inr p =>
      cases l with
      | scheduler => exact fun s _ hs => hs.elim
      | forkret => exact forkret_rule
      | user => exact syscall_rule w.call
      | waitLoop addr => exact waitRound_rule
      | await parts unsent => exact awaitRound_rule parts unsent
  handler t w s hi hen := by
    cases t with
    | inl c => cases hen
    | inr p =>
      obtain ⟨c,hon,hintr⟩ := of_decide_eq_true hen
      have ho := owns_empty hon hi.cpus hintr
      have hs : Held (.inr p) ∅ (Seen initproc (.inr p) ∅ s) s := ⟨⟨c,hon⟩,ho,.refl⟩
      have hkept : Kept initproc (.inr p) ∅ (Seen initproc (.inr p) ∅ s) := .seen le_rfl
      have hdo : Triple initproc ready (.inr p) (Held (.inr p) ∅ (Seen initproc (.inr p) ∅ s))
          ((kernel initproc ready).handler (.inr p) w)
          fun _ => Held (.inr p) ∅ (Seen initproc (.inr p) ∅ s) := by
        simp only [kernel]
        cases w.device with
        | some acts => exact device_rule hkept (by simp) acts
        | none => exact yield_rule hkept
      exact (hdo s hi hs).mono fun _ s' _ h => view_of_held ⟨c,hon⟩ ho h

/-! The first state. -/

theorem boot_state (d : δ) (q : Fin n) : ((boot (m := m) initproc d).pcb q).state
    = if q = initproc then .runnable else .unused := by
  by_cases h : q = initproc <;> simp [boot, h]

theorem boot_alive (d : δ) (q : Fin n) : (boot (m := m) initproc d).Alive q ↔ q = initproc := by
  rw [State.Alive, boot_state]
  split <;> simp_all [PState.alive]

theorem boot_not_zombie (d : δ) (q : Fin n) : ¬(boot (m := m) initproc d).Zombie q := by
  rw [State.Zombie, boot_state]
  split <;> simp

theorem boot_not_waiting (d : δ) (q : Fin n) (ch : Chan n) :
    ¬(boot (m := m) initproc d).Waiting q ch := by
  rintro (h | ⟨h,-⟩)
  · cases h
  · rw [boot_state] at h
    split at h <;> cases h

theorem boot_not_executing (d : δ) (q : Fin n) : ¬(boot (m := m) initproc d).Executing q := by
  rintro ⟨c,hc⟩
  cases hc

theorem boot_inv (d : δ) : Inv initproc ready (boot (m := m) initproc d) where
  cpus := {
    one := fun h => nomatch h
    proc := fun h => nomatch h
    free := by
      refine fun p _ => settled_of_not_executing (boot_not_executing d p) ?_ rfl
      rw [boot_state]
      split <;> simp
    away := fun h => nomatch h
    awake := fun h => nomatch h
    stale := by
      intro p hp
      refine ⟨boot_not_executing d p,fun ha => ?_⟩
      rw [boot_alive] at ha
      simp [boot, ha] at hp }
  family := {
    init := (boot_alive d _).mpr rfl
    parent_alive := fun h => nomatch h
    has_parent := by
      rintro q (hq | hq) hne
      · exact absurd ((boot_alive d q).mp hq) hne
      · exact absurd hq (boot_not_zombie d q)
    unused := fun _ => rfl
    embryo := fun h => nomatch h
    embryo_inj := fun h => nomatch h
    idle := fun _ => ⟨rfl,rfl⟩
    kwait := fun h => absurd h (boot_not_waiting d _ _) }
  wait _ := ⟨fun p h => absurd h (boot_not_waiting d _ _),fun _ _ h => nomatch h⟩
  cond _ p h := absurd h (boot_not_waiting d _ _)
  ledger := {
    born := fun _ => Nat.zero_lt_one
    birth_inj := by
      intro q q' hq hq' _
      rw [boot_state] at hq hq'
      grind
    exits_nodup := nodup_nil
    exits_born := fun e he => absurd he not_mem_nil
    exited := fun _ ⟨_,he,_⟩ => absurd he not_mem_nil
    zombie := fun h => absurd h (boot_not_zombie d _)
    hand := fun h => nomatch h
    hand_inj := fun h => nomatch h
    hand_gone := fun _ h => nomatch h
    returned_nodup := nodup_nil
    returned_gone := fun _ e he => absurd he not_mem_nil
    returned_hand := fun e he => absurd he not_mem_nil
    returned := fun e he => absurd he not_mem_nil }

theorem start_covered (d : δ) :
    Covered (kernel initproc ready) (logic (m := m) initproc ready) (start initproc d) := by
  refine ⟨boot_inv d,fun t => ?_⟩
  have hlabel : ∃ l, (start initproc d).prog t = .pure l ∧
      AtLabel initproc ready (boot initproc d) t l := by
    cases t with
    | inl c =>
      refine ⟨.scheduler,rfl,rfl,?_,rfl⟩
      ext l
      simp [State.owns, boot]
    | inr p =>
      exact ⟨.forkret,rfl,fun _ => ⟨rfl,rfl⟩,fun h => absurd h (boot_not_executing d p)⟩
  obtain ⟨l,hl,hat⟩ := hlabel
  rw [hl]
  exact fun s' hi hv => steps.label t l _ s' (boot_inv d) hi hat hv

/-- The kernel's rules hold in every state reached. -/
theorem Reached.covered {d : δ} {x : Config n m δ} (h : Reached initproc ready d x) :
    Covered (kernel initproc ready) (logic initproc ready) x :=
  covered_of_reaches sound h (start_covered d)

/-- What the code ensures before the next command of a CPU's scheduler or of a process. -/
theorem Reached.pre {d : δ} {x : Config n m δ} {a : Cmd n δ} {k : Cmd.Result a → Code n δ (Label δ)}
    (h : Reached initproc ready d x) (hp : x.prog t = .call a k) (hr : ∃ c, At x.st t c) :
    Pre initproc ready t x.st a :=
  h.covered.pre sound hp hr

theorem chan_waiting {ch : Chan n} (hs : (s.pcb p).state = .sleeping)
    (hc : (s.pcb p).chan = some ch) : s.Waiting p ch := .inr ⟨hs,hc⟩

section Results

variable {d : δ} {x : Config n m δ}

theorem one_cpu_per_process (h : Reached initproc ready d x) :
    (∀ c c' p, x.st.on c = some p → x.st.on c' = some p → c = c') ∧
    (∀ p, x.st.lock (.proc p) = none →
      ((∃ c, x.st.on c = some p) ↔ (x.st.pcb p).state = .running)) ∧
    -- the scheduler claims a process, and then switches to it
    (∀ c q k, x.prog (.inl c) = .call (.setState q .running) k → x.st.on c = none →
      x.st.lock (.proc q) = some c ∧ (x.st.pcb q).state = .runnable ∧
      ∀ c', x.st.on c' ≠ some q) ∧
    (∀ c q k, x.prog (.inl c) = .call (.swtchTo q) k → x.st.on c = none →
      x.st.lock (.proc q) = some c ∧ (x.st.pcb q).state = .running ∧
      ∀ c', x.st.on c' ≠ some q) ∧
    ∀ c p q k, x.prog (.inr p) = .call (.freeproc q) k → x.st.on c = some p →
      ∀ c', x.st.on c' ≠ some q := by
  have hinv := h.covered.1
  refine ⟨fun c c' p => hinv.cpus.one,fun p hl => (hinv.cpus.free p hl).1,?_,?_,?_⟩
  · intro c q k hp hc
    obtain ⟨⟨c',⟨rfl,-⟩,hl⟩,hch⟩ := h.pre hp ⟨c,rfl,hc⟩
    cases hch with
    | dispatch hs hx => exact ⟨hl,hs,fun c' h' => hx ⟨c',h'⟩⟩
  · intro c q k hp hc
    obtain ⟨hs,-,hx,-,-,hown,-⟩ := h.pre hp ⟨c,rfl,hc⟩
    have hmem : .proc q ∈ x.st.owns (.inl c) := by simp [hown]
    obtain ⟨c',⟨rfl,-⟩,hl⟩ := hmem
    exact ⟨hl,hs,fun c' h' => hx ⟨c',h'⟩⟩
  · intro c p q k hp hc c' h'
    exact (h.pre hp ⟨c,hc⟩).2.1 ⟨c',h'⟩

theorem no_lost_wakeup (h : Reached initproc ready d x) :
    (x.st.lock .cond = none → ∀ p, (x.st.pcb p).state = .sleeping →
      (x.st.pcb p).chan = some .cond → ready x.st.data = false) ∧
    ∀ c p l k, x.prog (.inr p) = .call (.slept l) k → x.st.on c = some p →
      x.st.lock l = some c ∧ (x.st.pcb p).chan = none := by
  have hinv := h.covered.1
  refine ⟨fun hl p hs hc => hinv.cond hl p (chan_waiting hs hc),?_⟩
  intro c p l k hp hc
  obtain ⟨⟨c',hc',hl⟩,p',hpp,hch⟩ := h.pre hp ⟨c,hc⟩
  obtain rfl := Sum.inr.inj hpp
  obtain rfl := hinv.cpus.one hc hc'
  exact ⟨hl,hch⟩

theorem exactly_once_reaping (h : Reached initproc ready d x) :
    -- at most one report of each exit, by the creator or by its heir
    (x.st.exits.map (·.birth)).Nodup ∧ (x.st.returned.map (·.birth)).Nodup ∧
    (∀ e ∈ x.st.returned, (∃ st, ⟨e.birth,e.pid,st⟩ ∈ x.st.exits ∧ ∀ y ∈ e.status, y = st) ∧
      x.st.MayReap initproc e.birth e.reaper e.reaperBirth) ∧
    (∀ c p q k, x.prog (.inr p) = .call (.freeproc q) k → x.st.on c = some p →
      (x.st.pcb q).state = .zombie → x.st.parent q = some p) ∧
    -- a child whose status could not be copied
    (∀ c p q k, x.prog (.inr p) = .call (.waitRet (.copyFailed q)) k → x.st.on c = some p →
      (x.st.pcb q).state = .zombie ∧ x.st.parent q = some p ∧
      ∀ e ∈ x.st.returned, e.birth ≠ x.st.birth q) ∧
    (∀ q, (x.st.pcb q).state ≠ .unused → (x.st.pcb q).state ≠ .used → q ≠ initproc →
      ∃ r, x.st.parent q = some r ∧ (x.st.pcb r).state ≠ .unused ∧
        (x.st.pcb r).state ≠ .zombie) ∧
    (x.st.lock .wait = none → ∀ p r, (x.st.pcb p).state = .sleeping →
      (x.st.pcb p).chan = some (.proc r) → p = r ∧ (∃ q, x.st.parent q = some p) ∧
        ∀ q, x.st.parent q = some p → (x.st.pcb q).state ≠ .zombie) := by
  have hinv := h.covered.1
  refine ⟨hinv.ledger.exits_nodup,hinv.ledger.returned_nodup,hinv.ledger.returned,?_,?_,?_,?_⟩
  · intro c p q k hp hc hz
    obtain ⟨-,-,p',hpp,hfree⟩ := h.pre hp ⟨c,hc⟩
    obtain rfl := Sum.inr.inj hpp
    cases hfree with
    | abort he _ =>
      have hused := (hinv.family.embryo he).1
      simp [hz] at hused
    | reap _ hpar => exact hpar
  · intro c p q k hp hc
    obtain ⟨p',hpp,hpar,hz⟩ := h.pre hp ⟨c,hc⟩
    obtain rfl := Sum.inr.inj hpp
    have hne : (x.st.pcb q).state ≠ .unused := by simp [show (x.st.pcb q).state = .zombie from hz]
    exact ⟨hz,hpar,hinv.ledger.returned_gone hne⟩
  · intro q hun hus hne
    have hq : x.st.Alive q ∨ x.st.Zombie q := by
      unfold State.Alive State.Zombie PState.alive
      cases hs : (x.st.pcb q).state <;> simp_all
    obtain ⟨r,hr⟩ := Option.ne_none_iff_exists'.mp (hinv.family.has_parent hq hne)
    have ha := hinv.family.parent_alive hr
    unfold State.Alive at ha
    refine ⟨r,hr,?_,?_⟩ <;> intro hs <;> rw [hs] at ha <;> cases ha
  · intro hl p r hs hc
    have hw := chan_waiting hs hc
    obtain rfl := hinv.family.kwait hw
    obtain ⟨hkid,hz⟩ := (hinv.wait hl).1 p hw
    exact ⟨rfl,hkid,hz⟩

end Results

/-! Runs of one CPU and two processes. -/

/-- Thread `t` takes `k` steps; in user space it makes the given call. -/
def turn (t : Thread 2 1) (k : ℕ) (call : Call Bool) :
    List (Event (Thread 2 1) (Input 1 Bool)) :=
  List.replicate k (.run t ⟨0,false,call,none⟩)

/-- The first process runs in user space. -/
theorem one_cpu_per_process_init : ∃ x : Config 2 1 Bool, Reached 0 id false x ∧
    x.st.on 0 = some 0 ∧ (x.st.pcb 0).state = .running := by
  have hrun : (runEvents (kernel 0 id).step (fun _ _ => true) (start 0 false)
      (turn (.inl 0) 6 .nop++turn (.inr 0) 2 .nop)).map
      (fun x : Config 2 1 Bool => decide (x.st.on 0 = some 0 ∧ x.st.lock (.proc 0) = none))
        = some true := by
    decide +kernel
  obtain ⟨x,hx,heq⟩ := Option.map_eq_some_iff.mp hrun
  obtain ⟨hon,hl⟩ := of_decide_eq_true heq
  have hr : Reached 0 id false x := (reaches_of_runEvents hx).mono fun _ _ _ => trivial
  exact ⟨x,hr,hon,((one_cpu_per_process hr).2.1 0 hl).mp ⟨0,hon⟩⟩

/-- The first process sleeps until the condition becomes true. -/
theorem no_lost_wakeup_waiter : ∃ x : Config 2 1 Bool, Reached 0 id false x ∧
    (x.st.pcb 0).state = .sleeping ∧ x.st.lock .cond = none ∧ x.st.data = false := by
  have hrun : (runEvents (kernel 0 id).step (fun _ _ => true) (start 0 false)
      (turn (.inl 0) 6 .nop++turn (.inr 0) 2 .nop++turn (.inr 0) 13 (.use [] [[]]))).map
      (fun x : Config 2 1 Bool => decide (x.st.lock .cond = none ∧
        (x.st.pcb 0).state = .sleeping ∧ (x.st.pcb 0).chan = some .cond)) = some true := by
    decide +kernel
  obtain ⟨x,hx,heq⟩ := Option.map_eq_some_iff.mp hrun
  obtain ⟨hl,hs,hc⟩ := of_decide_eq_true heq
  have hr : Reached 0 id false x := (reaches_of_runEvents hx).mono fun _ _ _ => trivial
  exact ⟨x,hr,hs,hl,(no_lost_wakeup hr).1 hl 0 hs hc⟩

/-- The first process forks, sleeps in `kwait`, and gets the status of its child. -/
theorem exactly_once_reaping_child : ∃ x : Config 2 1 Bool, Reached 0 id false x ∧
    ∃ e ∈ x.st.returned, e.status = some 7 ∧ x.st.MayReap 0 e.birth e.reaper e.reaperBirth := by
  have hrun : (runEvents (kernel 0 id).step (fun _ _ => true) (start 0 false)
      (turn (.inl 0) 6 .nop++turn (.inr 0) 2 .nop++turn (.inr 0) 23 .fork ++
        turn (.inr 0) 20 (.wait 8)++turn (.inl 0) 7 .nop++turn (.inr 1) 2 .nop ++
        turn (.inr 1) 20 (.exit 7)++turn (.inl 0) 8 .nop++turn (.inr 0) 15 .nop)).map
      (fun x : Config 2 1 Bool => x.st.returned.any fun e => e.status == some 7) = some true := by
    decide +kernel
  obtain ⟨x,hx,heq⟩ := Option.map_eq_some_iff.mp hrun
  obtain ⟨e,he,hstatus⟩ := any_eq_true.mp heq
  have hr : Reached 0 id false x := (reaches_of_runEvents hx).mono fun _ _ _ => trivial
  exact ⟨x,hr,e,he,by simpa using hstatus,((exactly_once_reaping hr).2.2.1 e he).2⟩

end Xv6.Sched
