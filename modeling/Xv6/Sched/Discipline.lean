import Xv6.Sched.Safe

/-! The discipline that every run of the kernel keeps: no check of `sched`, `acquire` and `release`
fails, the fields of a process are written under the lock that protects them, and a process goes
through its states as the code has them. -/
namespace Xv6.Sched

variable {n m : ℕ} {δ : Type} {initproc : Fin n} {ready : δ → Bool} {d : δ} {x : Config n m δ}
  {t : Thread n m} {c : Fin m}

theorem Reached.holds {l : Lock n} (h : Reached initproc ready d x) (hc : At x.st t c) :
    l ∈ x.st.owns t ↔ x.st.lock l = some c := mem_owns h.covered.1.cpus hc

/-- `sched` finds what it asks for, `acquire` is called without the lock and `release` with it; the
only panic left is that of `initproc` exiting. -/
theorem checks_never_fail (h : Reached initproc ready d x) (hc : At x.st t c) :
    (∀ why k, x.prog t = .call (.panic why) k → why = .initExiting) ∧
    (∀ l k, x.prog t = .call (.acquire l) k → x.st.lock l ≠ some c) ∧
    (∀ l k, x.prog t = .call (.release l) k → x.st.lock l = some c) ∧
    ∀ l ch k, x.prog t = .call (.doze l ch) k → x.st.lock l = some c :=
  ⟨fun _ _ hp => h.pre hp ⟨c,hc⟩,fun _ _ hp => (h.holds hc).not.mp (h.pre hp ⟨c,hc⟩),
    fun _ _ hp => (h.holds hc).mp (h.pre hp ⟨c,hc⟩).1,
    fun _ _ _ hp => (h.holds hc).mp (h.pre hp ⟨c,hc⟩).1⟩

/-- A sleeper is woken, a process itself yields, sleeps or exits (without children, and not as
`initproc`), the scheduler takes up a process that nobody executes, and a parent finishes `kfork`. -/
theorem state_changes (h : Reached initproc ready d x) (hc : At x.st t c) :
    ∀ q v k, x.prog t = .call (.setState q v) k →
      (x.st.pcb q).state = .sleeping ∧ v = .runnable ∨
      t = .inr q ∧ (x.st.pcb q).state = .running ∧ (v = .runnable ∨ v = .sleeping ∨
        v = .zombie ∧ q ≠ initproc ∧ ∀ r, x.st.parent r ≠ some q) ∨
      t = .inl c ∧ (x.st.pcb q).state = .runnable ∧ v = .running ∧ (∀ c', x.st.on c' ≠ some q) ∨
      ∃ p, t = .inr p ∧ (x.st.pcb q).state = .used ∧ v = .runnable ∧ x.st.parent q = some p := by
  intro q v k hp
  cases (h.pre hp ⟨c,hc⟩).2 with
  | wake hs _ => exact .inl ⟨hs,rfl⟩
  | yield hs _ => exact .inr (.inl ⟨rfl,hs,.inl rfl⟩)
  | sleep hs _ => exact .inr (.inl ⟨rfl,hs,.inr (.inl rfl)⟩)
  | exit hs _ _ hi _ _ hkids => exact .inr (.inl ⟨rfl,hs,.inr (.inr ⟨rfl,hi,hkids⟩)⟩)
  | dispatch hs hx =>
    obtain ⟨rfl,-⟩ := hc
    exact .inr (.inr (.inl ⟨rfl,hs,rfl,fun c' h' => hx ⟨c',h'⟩⟩))
  | fork he hpar =>
    exact .inr (.inr (.inr ⟨_,rfl,(h.covered.1.family.embryo he).1,rfl,hpar⟩))

/-- A process in user space is RUNNING on a CPU that holds no lock. -/
theorem user_holds_no_lock (h : Reached initproc ready d x) (p : Fin n)
    (hp : x.prog (.inr p) = .pure .user) :
    ∃ c, x.st.on c = some p ∧ (x.st.pcb p).state = .running ∧ ∀ l, x.st.lock l ≠ some c := by
  have hinv := h.covered.1
  have hdo := h.covered.2 (.inr p)
  rw [hp] at hdo
  obtain ⟨⟨c,hc⟩,hown,-⟩ := hdo x.st hinv (steps.refl _ _)
  have hfree (l : Lock n) : x.st.lock l ≠ some c := by
    rw [Ne,← h.holds (t := .inr p) hc,hown]
    exact Set.notMem_empty l
  exact ⟨c,hc,(hinv.cpus.away hc (hfree _)).1,hfree⟩

/-- One CPU `c` with two processes, after `k` steps of its scheduler and `j` of `initproc`. -/
def boots (initproc : Fin 2) (c : Fin 1) (k j : ℕ) : Option (Config 2 1 Bool) :=
  runEvents (kernel initproc id).step (fun _ _ => true) (start initproc false)
    (turn (.inl c) k .nop ++ turn (.inr initproc) j .nop)

theorem reached_boots {k j : ℕ} {x : Config 2 1 Bool} (h : boots 0 0 k j = some x) :
    Reached 0 id false x := (reaches_of_runEvents h).mono fun _ _ _ => trivial

theorem checks_never_fail_acquire : ∃ x l k, boots 0 0 1 0 = some x ∧
    x.prog (.inl 0) = .call (.acquire l) k ∧ x.st.lock l ≠ some 0 := by
  obtain ⟨x,hx,hon,l,k,hp⟩ : ∃ x, boots 0 0 1 0 = some x ∧ x.st.on 0 = none ∧
    ∃ l k, x.prog (.inl 0) = .call (.acquire l) k := ⟨_,rfl,rfl,_,_,rfl⟩
  exact ⟨x,l,k,hx,hp,(checks_never_fail (reached_boots hx) (t := .inl 0) ⟨rfl,hon⟩).2.1 l k hp⟩

theorem state_changes_dispatch : ∃ x k, boots 0 0 3 0 = some x ∧
    x.prog (.inl 0) = .call (.setState 0 .running) k ∧ (x.st.pcb 0).state = .runnable := by
  obtain ⟨x,hx,hon,k,hp⟩ : ∃ x, boots 0 0 3 0 = some x ∧ x.st.on 0 = none ∧
    ∃ k, x.prog (.inl 0) = .call (.setState 0 .running) k := ⟨_,rfl,rfl,_,rfl⟩
  have hchange : (x.st.pcb 0).state = .runnable ∧ x.st.on 0 ≠ some 0 := by
    simpa using state_changes (reached_boots hx) (t := .inl 0) ⟨rfl,hon⟩ 0 _ k hp
  exact ⟨x,k,hx,hp,hchange.1⟩

theorem user_holds_no_lock_first : ∃ x, boots 0 0 6 2 = some x ∧
    ∃ c, x.st.on c = some 0 ∧ ∀ l, x.st.lock l ≠ some c := by
  obtain ⟨x,hx,hp⟩ : ∃ x, boots 0 0 6 2 = some x ∧ x.prog (.inr 0) = .pure .user := ⟨_,rfl,rfl⟩
  obtain ⟨c,hc,-,hl⟩ := user_holds_no_lock (reached_boots hx) 0 hp
  exact ⟨x,hx,c,hc,hl⟩

end Xv6.Sched
