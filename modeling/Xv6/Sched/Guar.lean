import Xv6.Sched.Inv

/-! What a thread's command may change: only what is protected by locks that its CPU holds, and
of the other processes nothing they rely on.  From this, what the other threads see. -/
namespace Xv6.Sched

variable {n m : ℕ} {δ : Type} {initproc : Fin n} {s s' s'' : State n m δ} {t t' : Thread n m}
  {c c' : Fin m} {L L' : Set (Lock n)} {p q : Fin n} {l : Lock n}

theorem At.unique (h : Cpus s) (hat : At s t c) (hat' : At s t c') : c = c' := by
  cases t with
  | inl i => exact hat.1.symm.trans hat'.1
  | inr p => exact h.one hat hat'

theorem mem_owns (h : Cpus s) (hat : At s t c) : l ∈ s.owns t ↔ s.lock l = some c := by
  constructor
  · rintro ⟨c',hat',hl⟩
    rwa [hat.unique h hat']
  · exact fun hl => ⟨c,hat,hl⟩

/-- A CPU runs one thread. -/
theorem At.ne (hat : At s t c) (hat' : At s t' c') (hne : t' ≠ t) : c' ≠ c := by
  rintro rfl
  cases t with
  | inl i =>
    obtain ⟨rfl,hon⟩ := hat
    cases t' with
    | inl j => exact hne (congrArg Sum.inl hat'.1)
    | inr p => exact absurd (hon.symm.trans hat') (by simp)
  | inr p =>
    have hon : s.on c' = some p := hat
    cases t' with
    | inl j => exact absurd (hon.symm.trans hat'.2) (by simp)
    | inr p' => exact hne (congrArg Sum.inr (Option.some.inj (hat'.symm.trans hon)))

/-- What belongs to parents and children. -/
def State.kinPart (s : State n m δ) := (s.parent,s.embryo,s.birth,s.creator,s.hand)

namespace Own

theorem same (ha : s.Alive p) (hpcb : s'.pcb = s.pcb) (hstale : s'.stale = s.stale)
    (hsame : s'.kinPart = s.kinPart) : Own p s s' := by
  simp only [State.kinPart, Prod.mk.injEq] at hsame
  obtain ⟨hparent,hembryo,hbirth,-,hhand⟩ := hsame
  constructor <;> simp only [State.Alive, State.Zombie, hpcb, hstale, hparent, hembryo, hbirth,
    hhand]
  · exact ha
  · exact fun _ _ => ⟨id,trivial⟩
  · exact fun _ hq hz => ⟨hq,hz⟩

theorem refl (h : s.Alive p) : Own p s s :=
  ⟨h,rfl,rfl,rfl,rfl,fun _ _ => ⟨id,rfl⟩,fun _ hq hz => ⟨hq,hz⟩⟩

theorem trans (h : Own p s s') (h' : Own p s' s'') : Own p s s'' where
  alive := h'.alive
  birth := h'.birth.trans h.birth
  embryo := h'.embryo.trans h.embryo
  hand := h'.hand.trans h.hand
  chan := h'.chan.trans h.chan
  child q hq := by
    obtain ⟨hs,hp⟩ := h.child q hq
    obtain ⟨hs',hp'⟩ := h'.child q (h.embryo.trans hq)
    exact ⟨fun hst => hs' (hs hst),hp'.trans hp⟩
  zombie q hq hz := h'.zombie q (h.zombie q hq hz).1 (h.zombie q hq hz).2

end Own

namespace Seen

theorem refl : Seen initproc t L s s where
  held _ _ := ⟨rfl,rfl,fun _ => Iff.rfl⟩
  parent _ _ := rfl
  zombie _ _ := id
  waiting _ _ _ := id
  heirs _ _ := id
  data _ := rfl
  calm _ _ := id
  exits _ := id
  proc _ _ := rfl
  own _ _ ha := .refl ha

theorem trans (h : Seen initproc t L s s') (h' : Seen initproc t L s' s'') :
    Seen initproc t L s s'' where
  held q hq :=
    have ⟨hb,hd,ho⟩ := h.held q hq
    have ⟨hb',hd',ho'⟩ := h'.held q hq
    ⟨hb'.trans hb,hd'.trans hd,fun c => (ho' c).trans (ho c)⟩
  parent hl q := (h'.parent hl q).trans (h.parent hl q)
  zombie hl q hz := h.zombie hl q (h'.zombie hl q hz)
  waiting hl p r hw := h.waiting hl p r (h'.waiting hl p r hw)
  heirs hl x hx := h'.heirs hl x (h.heirs hl x hx)
  data hl := (h'.data hl).trans (h.data hl)
  calm hl p hw := h.calm hl p (h'.calm hl p hw)
  exits e he := h'.exits e (h.exits e he)
  proc c hc := (h'.proc c hc).trans (h.proc c hc)
  own p hp ha := (h.own p hp ha).trans (h'.own p hp (h.own p hp ha).alive)

/-- With fewer locks a thread sees less. -/
theorem mono (h : Seen initproc t L s s') (hL : L' ⊆ L) : Seen initproc t L' s s' where
  held q hq := h.held q (hL hq)
  parent hl := h.parent (hL hl)
  zombie hl := h.zombie (hL hl)
  waiting hl := h.waiting (hL hl)
  heirs hl := h.heirs (hL hl)
  data hl := h.data (hL hl)
  calm hl := h.calm (hL hl)
  exits := h.exits
  proc := h.proc
  own := h.own

theorem executing_iff (h : Seen initproc t L s s') (hq : .proc q ∈ L) :
    s'.Executing q ↔ s.Executing q :=
  exists_congr (h.held q hq).2.2

theorem settled (h : Seen initproc t L s s') (hq : .proc q ∈ L) (hs : s.Settled q) :
    s'.Settled q := by
  obtain ⟨hb,hd,-⟩ := h.held q hq
  exact ⟨by rw [h.executing_iff hq, hb]; exact hs.1,hd.trans hs.2⟩

theorem contented (h : Seen initproc t L s s') (hl : .wait ∈ L) (hp : s.Contented p) :
    s'.Contented p := by
  intro hw
  obtain ⟨⟨q,hq⟩,hz⟩ := hp (h.waiting hl p p hw)
  exact ⟨⟨q,(h.parent hl q).trans hq⟩,fun q' hq' hz' =>
    hz q' ((h.parent hl q').symm.trans hq') (h.zombie hl q' hz')⟩

theorem patient (h : Seen initproc t L s s') (hl : .wait ∈ L) (hp : s.Patient) : s'.Patient :=
  fun p => h.contented hl (hp p)

theorem keepsCalm {ready : δ → Bool} (h : Seen initproc t L s s') (hl : .cond ∈ L)
    (hc : s.Calm ready) : s'.Calm ready := by
  intro p hw
  rw [h.data hl]
  exact hc p (h.calm hl p hw)

/-- A process that was just dispatched stays so as long as it does nothing. -/
theorem dispatched (h : Seen initproc (.inr p) (s.owns (.inr p)) s s') (hd : s.Dispatched p)
    (hx : s'.Executing p) (ho : s'.owns (.inr p) = s.owns (.inr p)) : s'.Dispatched p := by
  obtain ⟨-,hown,hs,hdr⟩ := hd
  obtain ⟨hb,hd',-⟩ := h.held p (by rw [hown]; rfl)
  exact ⟨hx,ho.trans hown,by rw [hb]; exact hs,hd'.trans hdr⟩

/-- And a scheduler that a process has just switched back to. -/
theorem back (h : Seen initproc (.inl c) (s.owns (.inl c)) s s') (hb : s.Back c q)
    (hon : s'.on c = none) (ho : s'.owns (.inl c) = s.owns (.inl c)) : s'.Back c q := by
  obtain ⟨-,hown,hex,hst,hdr,hpr⟩ := hb
  have hmem : .proc q ∈ s.owns (.inl c) := by
    rw [hown]
    rfl
  obtain ⟨hb,hd,-⟩ := h.held q hmem
  refine ⟨hon,ho.trans hown,?_,?_,hd.trans hdr,(h.proc c rfl).trans hpr⟩
  · rwa [h.executing_iff hmem]
  · rwa [hb]

end Seen

/-- What a command of thread `t` on CPU `c` may change; `x` is the process it starts anew. -/
structure Guar (initproc : Fin n) (t : Thread n m) (c : Fin m) (x : Option (Fin n))
    (s s' : State n m δ) : Prop where
  lock : ∀ l c', c' ≠ c → (s'.lock l = some c' ↔ s.lock l = some c')
  on : ∀ c', c' ≠ c → s'.on c' = s.on c'
  proc : ∀ c', c' ≠ c → s'.proc c' = s.proc c'
  switch : s'.on c = s.on c ∨ (∃ q, s'.on c = some q ∧ t = .inl c ∧ s'.Dispatched q) ∨
    ∃ p, t = .inr p ∧ s'.Back c p
  pcb : ∀ q, s.lock (.proc q) ≠ some c → s'.pcb q = s.pcb q ∧ s'.drowsy q = s.drowsy q ∧
    (s'.on c = some q ↔ s.on c = some q)
  parent : s.lock .wait ≠ some c → ∀ q, s'.parent q = s.parent q
  zombie : s.lock .wait ≠ some c → ∀ q, s'.Zombie q → s.Zombie q
  waiting : s.lock .wait ≠ some c → ∀ p r, s'.Waiting p (.proc r) → s.Waiting p (.proc r)
  heirs : s.lock .wait ≠ some c → ∀ x, s.Heirs initproc x → s'.Heirs initproc x
  data : s.lock .cond ≠ some c → s'.data = s.data
  calm : s.lock .cond ≠ some c → ∀ p, s'.Waiting p .cond → s.Waiting p .cond
  exits : ∀ e ∈ s.exits, e ∈ s'.exits
  own : ∀ p, t ≠ .inr p → s.Alive p → Own p s s'
  stale : ∀ p, t ≠ .inr p → x ≠ some p → s.stale p = true → s'.stale p = true
  fresh : ∀ p, t ≠ .inr p → ¬s.Alive p → s'.Fresh p

namespace Guar

variable {x : Option (Fin n)}

theorem refl : Guar initproc t c x s s where
  lock _ _ _ := Iff.rfl
  on _ _ := rfl
  proc _ _ := rfl
  switch := .inl rfl
  pcb _ _ := ⟨rfl,rfl,Iff.rfl⟩
  parent _ _ := rfl
  zombie _ _ := id
  waiting _ _ _ := id
  heirs _ _ := id
  data _ := rfl
  calm _ _ := id
  exits _ := id
  own _ _ ha := .refl ha
  stale _ _ _ := id
  fresh _ _ hn ha := absurd ha hn

theorem seen (h : Guar initproc t c x s s') (hne : t' ≠ t)
    (hL : ∀ l ∈ L, s.lock l ≠ some c) (hc : ∀ i, t' = .inl i → i ≠ c) :
    Seen initproc t' L s s' where
  held q hq := by
    obtain ⟨hb,hd,ho⟩ := h.pcb q (hL _ hq)
    refine ⟨hb,hd,fun c' => ?_⟩
    by_cases hcc : c' = c
    · rw [hcc]
      exact ho
    · rw [h.on c' hcc]
  parent hl := h.parent (hL _ hl)
  zombie hl := h.zombie (hL _ hl)
  waiting hl := h.waiting (hL _ hl)
  heirs hl := h.heirs (hL _ hl)
  data hl := h.data (hL _ hl)
  calm hl := h.calm (hL _ hl)
  exits := h.exits
  proc i hi := h.proc i (hc i hi)
  own p hp := h.own p fun ht => hne (hp.trans ht.symm)

/-- A thread that runs goes on running, on the same CPU and with the same locks. -/
theorem view_running (hi : Cpus s) (hi' : Cpus s') (hat : At s t c)
    (h : Guar initproc t c x s s') (hne : t' ≠ t) (hat' : At s t' c') :
    At s' t' c' ∧ s'.owns t' = s.owns t' ∧ Seen initproc t' (s.owns t') s s' := by
  have hcc : c' ≠ c := hat.ne hat' hne
  have hat'' : At s' t' c' := by
    cases t' with
    | inl i => exact ⟨hat'.1,(h.on c' hcc).trans hat'.2⟩
    | inr p => exact (h.on c' hcc).trans hat'
  refine ⟨hat'',?_,h.seen hne ?_ ?_⟩
  · ext l
    rw [mem_owns hi' hat'', mem_owns hi hat']
    exact h.lock l c' hcc
  · intro l hl heq
    rw [mem_owns hi hat', heq] at hl
    exact hcc (Option.some.inj hl).symm
  · rintro i rfl
    rw [hat'.1]
    exact hcc

/-- What a command leaves to the other threads. -/
theorem view (hi : Cpus s) (hi' : Cpus s') (hat : At s t c) (h : Guar initproc t c x s s')
    (hne : t' ≠ t) (hx : ∀ p, t' = .inr p → x ≠ some p) : View initproc t' s s' := by
  refine ⟨?_,?_⟩
  · rintro ⟨c',hat'⟩
    obtain ⟨h1,h2,h3⟩ := h.view_running hi hi' hat hne hat'
    exact ⟨⟨c',h1⟩,h2,h3⟩
  cases t' with
  | inl i =>
    intro q hq
    by_cases hic : i = c
    · subst hic
      rcases h.switch with hsw | ⟨-,-,rfl,-⟩ | ⟨p,rfl,hb⟩
      · exact .inl (hsw.trans hq)
      · exact absurd rfl hne
      · obtain rfl : p = q := Option.some.inj (hat.symm.trans hq)
        exact .inr hb
    · exact .inl ((h.on i hic).trans hq)
  | inr p =>
    intro hout
    have ht : t ≠ .inr p := fun ht => hne ht.symm
    refine ⟨?_,fun hst => ?_,fun ha => ?_,h.fresh p ht⟩
    · by_cases hex : s'.Executing p
      · obtain ⟨c',hc'⟩ := hex
        by_cases hcc : c' = c
        · subst hcc
          rcases h.switch with hsw | ⟨q,hq,-,hd⟩ | ⟨_,-,hb⟩
          · exact absurd ⟨c',hsw.symm.trans hc'⟩ hout
          · obtain rfl : q = p := Option.some.inj (hq.symm.trans hc')
            exact .inr hd
          · exact absurd (hb.1.symm.trans hc') (by simp)
        · exact absurd ⟨c',(h.on c' hcc).symm.trans hc'⟩ hout
      · exact .inl hex
    · have hst' := h.stale p ht (hx p rfl) hst
      exact ⟨hst',(hi'.stale hst').1⟩
    · exact h.seen hne (by simp) (by simp)

end Guar

namespace View

theorem refl : View initproc t s s := by
  refine ⟨fun h => ⟨h,rfl,.refl⟩,?_⟩
  cases t with
  | inl c => exact fun q hq => .inl hq
  | inr p => exact fun hout => ⟨.inl hout,fun hst => ⟨hst,hout⟩,fun _ => .refl,fun ha ha' => absurd ha' ha⟩

theorem trans (h : View initproc t s s') (h' : View initproc t s' s'') :
    View initproc t s s'' := by
  refine ⟨fun hat => ?_,?_⟩
  · obtain ⟨hat1,ho1,hs1⟩ := h.1 hat
    obtain ⟨hat2,ho2,hs2⟩ := h'.1 hat1
    rw [ho1] at hs2
    exact ⟨hat2,ho2.trans ho1,hs1.trans hs2⟩
  cases t with
  | inl c =>
    intro q hq
    rcases h.2 q hq with hq' | hb
    · exact h'.2 q hq'
    · obtain ⟨⟨c',rfl,hon⟩,ho,hseen⟩ := h'.1 ⟨c,rfl,hb.1⟩
      exact .inr (hseen.back hb hon ho)
  | inr p =>
    intro hout
    obtain ⟨h1,h2,h3,h4⟩ := h.2 hout
    by_cases hex : s'.Executing p
    · -- dispatched in between: from there on `p` is running
      obtain ⟨hex'',ho,hseen⟩ := h'.1 hex
      have hd : s'.Dispatched p := h1.resolve_left (not_not.mpr hex)
      have hal : s'.Alive p := by simp [State.Alive, hd.2.2.1, PState.alive]
      refine ⟨.inr (hseen.dispatched hd hex'' ho),fun hst => absurd hex (h2 hst).2,
        fun ha => (h3 ha).trans (hseen.mono (Set.empty_subset _)),fun ha _ => ?_⟩
      have hown := hseen.own p rfl hal
      rw [hown.embryo, hown.hand]
      exact h4 ha hal
    · obtain ⟨h1',h2',h3',h4'⟩ := h'.2 hex
      refine ⟨h1',fun hst => h2' (h2 hst).1,fun ha => ?_,fun ha => ?_⟩
      · have hseen := h3 ha
        exact hseen.trans (h3' (hseen.own p rfl ha).alive)
      · by_cases hal : s'.Alive p
        · intro _
          have hown := (h3' hal).own p rfl hal
          rw [hown.embryo, hown.hand]
          exact h4 ha hal
        · exact h4' hal

end View

end Xv6.Sched
