import Xv6.Sched.Keeps

/-! The commands that take and free slots, change parents and return from `kwait` keep the
invariant and what the other threads rely on; so every command does. -/
namespace Xv6.Sched

open Function (update update_apply update_of_ne)

variable {n m : ℕ} {δ : Type} {initproc : Fin n} {ready : δ → Bool} {s u : State n m δ}
  {t : Thread n m} {c : Fin m} {p q : Fin n} {l : Lock n}

section Use

variable {pid : ℕ}

@[grind =] theorem use_pcb {r : Fin n} : (s.use p q pid).pcb r
    = if r = q then { s.pcb q with pid := pid, state := .used } else s.pcb r :=
  State.setPcb_pcb

@[grind =] theorem use_birth {r : Fin n} :
    (s.use p q pid).birth r = if r = q then s.births else s.birth r :=
  update_apply ..

theorem use_creator {b : ℕ} (h : b < s.births) : (s.use p q pid).creator b = s.creator b :=
  update_of_ne h.ne ..

theorem use_waiting (r : Fin n) (ch : Chan n) (h : (s.use p q pid).Waiting r ch) :
    s.Waiting r ch := by
  rcases h with h | h
  · exact .inl h
  · right
    grind

theorem use_heirs (h : Family initproc s) (hl : Ledger initproc s)
    (hs : (s.pcb q).state = .unused) {x : Option (Fin n × ℕ)} (hh : s.Heirs initproc x) :
    (s.use p q pid).Heirs initproc x := by
  intro r r' hr
  have hrq : r ≠ q := by
    rintro rfl
    exact absurd ((h.unused hs).symm.trans hr) (by simp)
  have hrq' : r' ≠ q := by
    rintro rfl
    have := h.parent_alive hr
    simp [State.Alive, hs, PState.alive] at this
  rw [use_birth, use_birth, if_neg hrq, if_neg hrq', use_creator (hl.born r)]
  exact hh r r' hr

theorem use_guar (h : Family initproc s) (hl : Ledger initproc s)
    (hlk : s.lock (.proc q) = some c) (hs : (s.pcb q).state = .unused) :
    Guar initproc (.inr p) c none s (s.use p q pid) := by
  have hne : ∀ r, s.Alive r → r ≠ q := by
    rintro r hr rfl
    simp [State.Alive, hs, PState.alive] at hr
  have hz : ∀ r, (s.use p q pid).Zombie r ↔ s.Zombie r := by
    unfold State.Zombie
    grind
  exact {
    (Guar.refl : Guar initproc (.inr p) c none s s) with
    switch := .inl rfl
    pcb := by
      intro r hr
      have hrq : r ≠ q := by
        rintro rfl
        exact hr hlk
      exact ⟨update_of_ne hrq ..,rfl,Iff.rfl⟩
    zombie := fun _ r => (hz r).mp
    waiting := fun _ r r' => use_waiting r _
    heirs := fun _ x => use_heirs h hl hs
    calm := fun _ r => use_waiting r _
    own := by
      intro r hr har
      have hrp : r ≠ p := fun h => hr (congrArg Sum.inr h.symm)
      have hrq := hne r har
      exact ⟨by rw [State.Alive, use_pcb, if_neg hrq]; exact har,by rw [use_birth, if_neg hrq],
        update_of_ne hrp ..,rfl,by rw [use_pcb, if_neg hrq],fun _ _ => ⟨id,rfl⟩,
        fun r' hp hzr => ⟨hp,(hz r').mpr hzr⟩⟩
    fresh := by
      intro r _ har har'
      rw [State.Alive, use_pcb] at har'
      split at har'
      · cases har'
      · exact absurd har' har }

theorem use_family (h : Family initproc s) (hl : Ledger initproc s)
    (hs : (s.pcb q).state = .unused) (hp : s.Alive p) : Family initproc (s.use p q pid) := by
  have hborn := hl.born
  obtain ⟨init,parent_alive,has_parent,unused,embryo,embryo_inj,idle,kwait⟩ := h
  refine ⟨?_,?_,?_,?_,?_,?_,?_,fun hr => kwait (use_waiting _ _ hr)⟩ <;>
    simp only [State.use, State.setPcb, State.Alive, State.Zombie, update_apply] <;> grind

theorem use_ledger (h : Ledger initproc s) (hf : Family initproc s)
    (hs : (s.pcb q).state = .unused) : Ledger initproc (s.use p q pid) := by
  -- numbers in the books are older than the new one
  have hhand : ∀ {r b}, s.hand r = some b → b < s.births ∧ r ≠ q := by
    intro r b hb
    obtain ⟨⟨e,he,heb⟩,-⟩ := h.hand hb
    have hidle := hf.idle (p := r)
    exact ⟨heb ▸ h.exits_born e he,by grind⟩
  have hret : ∀ e ∈ s.returned, e.birth < s.births := by
    intro e he
    obtain ⟨⟨y,hy,-⟩,-⟩ := h.returned e he
    exact h.exits_born _ hy
  obtain ⟨born,birth_inj,exits_nodup,exits_born,exited,zombie,hand,hand_inj,hand_gone,
    returned_nodup,returned_gone,returned_hand,returned⟩ := h
  constructor <;> simp only [State.Zombie, State.Exited, State.MayReap, State.use, State.setPcb,
    update_apply] <;> grind [State.Exited, State.MayReap]

theorem use_inv (h : Inv initproc ready s) (hlk : s.lock (.proc q) = some c)
    (hs : (s.pcb q).state = .unused) (hx : ¬s.Executing q) (hp : s.Alive p) :
    Inv initproc ready (s.use p q pid) where
  cpus := by
    obtain ⟨one,proc,free,away,awake,stale⟩ := h.cpus
    constructor <;> simp only [State.use, State.setPcb, update_apply] <;> grind
  family := use_family h.family h.ledger hs hp
  wait hf := ⟨(h.wait hf).1.congr (by grind) use_waiting rfl,
    use_heirs h.family h.ledger hs (h.wait hf).2⟩
  cond hf r hr := h.cond hf r (use_waiting _ _ hr)
  ledger := use_ledger h.ledger h.family hs

end Use

section Context

theorem setContext_guar : Guar initproc t c (some q) s
    { s with stale := update s.stale q false } where
  __ := (Guar.refl : Guar initproc t c (some q) s s)
  switch := .inl rfl
  own r _ har := by
    refine ⟨har,rfl,rfl,rfl,rfl,fun r' _ => ⟨fun hst => ?_,rfl⟩,fun _ hp hz => ⟨hp,hz⟩⟩
    simp only [update_apply, hst, ite_self]
  stale r _ hr hst := by
    have hrq : r ≠ q := fun he => hr (congrArg some he.symm)
    simpa only [update_of_ne hrq] using hst

theorem setContext_inv (h : Inv initproc ready s) :
    Inv initproc ready { s with stale := update s.stale q false } where
  cpus := ⟨h.cpus.one,h.cpus.proc,h.cpus.free,h.cpus.away,h.cpus.awake,by
    intro r hr
    simp only [update_apply] at hr
    split at hr
    · cases hr
    · exact h.cpus.stale hr⟩
  family := h.family.same rfl rfl rfl
  wait := h.wait
  cond := h.cond
  ledger := h.ledger.same rfl rfl

end Context

section Freeproc

@[grind =] theorem freeproc_pcb {r : Fin n} :
    (s.freeproc p q).pcb r = if r = q then ⟨.unused,none,false,0,0⟩ else s.pcb r :=
  State.setPcb_pcb

@[grind =] theorem freeproc_parent {r : Fin n} :
    (s.freeproc p q).parent r = if r = q then none else s.parent r :=
  update_apply ..

theorem freeproc_parent_some {r r' : Fin n} (h : (s.freeproc p q).parent r = some r') :
    s.parent r = some r' := by
  grind

theorem freeproc_waiting (r : Fin n) (ch : Chan n) (h : (s.freeproc p q).Waiting r ch) :
    s.Waiting r ch := by
  rcases h with h | h
  · exact .inl h
  · right
    grind

theorem freeproc_zombie (r : Fin n) : (s.freeproc p q).Zombie r ↔ r ≠ q ∧ s.Zombie r := by
  unfold State.Zombie
  grind

theorem freeproc_alive (r : Fin n) : (s.freeproc p q).Alive r ↔ r ≠ q ∧ s.Alive r := by
  unfold State.Alive
  grind [PState.alive]

theorem freeproc_hand {r : Fin n} {b : ℕ} (h : (s.freeproc p q).hand r = some b) :
    s.hand r = some b ∨ r = p ∧ s.Zombie q ∧ b = s.birth q := by
  simp only [State.freeproc] at h
  unfold State.Zombie
  grind

theorem freeproc_hand_of_ne {r : Fin n} (h : r ≠ p) : (s.freeproc p q).hand r = s.hand r := by
  simp only [State.freeproc]
  grind

theorem Frees.not_alive (h : Frees initproc s p q) (hf : Family initproc s) : ¬s.Alive q := by
  cases h with
  | abort he => simp [State.Alive, (hf.embryo he).1, PState.alive]
  | reap hz => exact not_alive_of_zombie hz

theorem Frees.alive (h : Frees initproc s p q) (hf : Family initproc s) : s.Alive p := by
  cases h with
  | abort he =>
    by_contra hn
    exact absurd (he.symm.trans (hf.idle hn).1) (by simp)
  | reap _ hp => exact hf.parent_alive hp

/-- Nobody else is creating the process that is freed. -/
theorem Frees.embryo (h : Frees initproc s p q) (hf : Family initproc s) {r : Fin n}
    (hr : s.embryo r = some q) : r = p := by
  cases h with
  | abort he => exact hf.embryo_inj hr he
  | reap hz =>
    rw [State.Zombie, (hf.embryo hr).1] at hz
    cases hz

theorem Frees.parent (h : Frees initproc s p q) (hw : .wait ∉ s.owns (.inr p)) :
    s.parent q = none := by
  cases h with
  | abort _ hp => exact hp
  | reap _ _ hw' => exact absurd hw' hw

/-- Only the parent of a ZOMBIE frees it. -/
theorem Frees.reaper (h : Frees initproc s p q) (hf : Family initproc s) (hz : s.Zombie q) :
    s.parent q = some p ∧ s.hand p = none ∧ s.MayReap initproc (s.birth q) p (s.birth p) := by
  cases h with
  | abort he =>
    rw [State.Zombie, (hf.embryo he).1] at hz
    cases hz
  | reap _ hp _ hh hr => exact ⟨hp,hh,hr⟩

theorem freeproc_parent_eq (h : Frees initproc s p q) (hw : .wait ∉ s.owns (.inr p)) :
    (s.freeproc p q).parent = s.parent := by
  funext r
  have := h.parent hw
  grind

theorem freeproc_heirs {x : Option (Fin n × ℕ)} (h : s.Heirs initproc x) :
    (s.freeproc p q).Heirs initproc x := by
  intro r r' hr
  exact h r r' (freeproc_parent_some hr)

theorem freeproc_guar (h : Inv initproc ready s) (hon : s.on c = some p)
    (hl : s.lock (.proc q) = some c) (hfr : Frees initproc s p q) :
    Guar initproc (.inr p) c none s (s.freeproc p q) := by
  have hmem : .wait ∈ s.owns (.inr p) ↔ s.lock .wait = some c := mem_owns (t := .inr p) h.cpus hon
  exact {
    (Guar.refl : Guar initproc (.inr p) c none s s) with
    switch := .inl rfl
    pcb := by
      intro r hr
      have hrq : r ≠ q := by
        rintro rfl
        exact hr hl
      exact ⟨update_of_ne hrq ..,rfl,Iff.rfl⟩
    parent := fun hw => congrFun (freeproc_parent_eq hfr (by rwa [hmem]))
    zombie := fun _ r hz => ((freeproc_zombie r).mp hz).2
    waiting := fun _ r r' => freeproc_waiting r _
    heirs := fun _ x => freeproc_heirs
    calm := fun _ r => freeproc_waiting r _
    own := by
      intro r hr har
      have hrp : r ≠ p := fun he => hr (congrArg Sum.inr he.symm)
      have hrq : r ≠ q := by
        rintro rfl
        exact hfr.not_alive h.family har
      refine ⟨(freeproc_alive r).mpr ⟨hrq,har⟩,rfl,if_neg fun he => hrp he.1.symm,
        freeproc_hand_of_ne hrp,by rw [freeproc_pcb, if_neg hrq],fun r' he => ?_,fun r' hp hz => ?_⟩
      · have hrq' : r' ≠ q := by
          rintro rfl
          exact hrp (hfr.embryo h.family he)
        refine ⟨fun hst => (update_of_ne hrq' ..).trans hst,?_⟩
        rw [freeproc_parent, if_neg hrq']
      · have hrq' : r' ≠ q := by
          rintro rfl
          have := (hfr.reaper h.family hz).1
          rw [this] at hp
          exact hrp (Option.some.inj hp).symm
        rw [freeproc_parent, if_neg hrq']
        exact ⟨hp,(freeproc_zombie r').mpr ⟨hrq',hz⟩⟩
    stale := by
      intro r _ _ hst
      simp only [State.freeproc, update_apply, hst, ite_self]
    fresh := fun r _ har har' => absurd ((freeproc_alive r).mp har').2 har }

theorem freeproc_family (h : Family initproc s) (hfr : Frees initproc s p q) :
    Family initproc (s.freeproc p q) := by
  have hq := hfr.not_alive h
  have hp := hfr.alive h
  have he : ∀ {r}, s.embryo r = some q → r = p := hfr.embryo h
  obtain ⟨init,parent_alive,has_parent,unused,embryo,embryo_inj,idle,kwait⟩ := h
  refine ⟨?_,?_,?_,?_,?_,?_,?_,fun hr => kwait (freeproc_waiting _ _ hr)⟩ <;>
    simp only [State.freeproc, State.setPcb, State.Alive, State.Zombie, update_apply] <;>
    grind

theorem freeproc_ledger (h : Ledger initproc s) (hf : Family initproc s)
    (hfr : Frees initproc s p q) (hu : (s.pcb q).state ≠ .unused) :
    Ledger initproc (s.freeproc p q) := by
  have hhand : ∀ {r b}, (s.freeproc p q).hand r = some b →
      s.hand r = some b ∨ r = p ∧ s.Zombie q ∧ b = s.birth q := freeproc_hand
  obtain ⟨born,birth_inj,exits_nodup,exits_born,exited,zombie,hand,hand_inj,hand_gone,
    returned_nodup,returned_gone,returned_hand,returned⟩ := h
  refine ⟨born,?_,exits_nodup,exits_born,fun hr hx => ?_,fun hz => ?_,fun hb => ?_,fun hb hb' => ?_,
    fun hr hb => ?_,returned_nodup,?_,fun e he hb => ?_,returned⟩
  · exact fun hr hr' => birth_inj (by grind) (by grind)
  · exact (freeproc_zombie _).mpr ⟨by grind,exited (by grind) hx⟩
  · obtain ⟨hrq,hz⟩ := (freeproc_zombie _).mp hz
    rw [freeproc_pcb, if_neg hrq]
    exact zombie hz
  · rcases hhand hb with hb | ⟨rfl,hz,rfl⟩
    · exact hand hb
    · exact ⟨⟨_,zombie hz,rfl⟩,(hfr.reaper hf hz).2.2⟩
  · grind
  · rcases hhand hb with ho | ⟨-,-,hbq⟩
    · exact hand_gone (by grind) ho
    · exact absurd (birth_inj (by grind) hu hbq) (by grind)
  · exact fun hr => returned_gone (by grind)
  · replace he : e ∈ s.returned := he
    grind

theorem freeproc_inv (h : Inv initproc ready s) (hon : s.on c = some p)
    (hl : s.lock (.proc q) = some c) (hx : ¬s.Executing q) (hfr : Frees initproc s p q) :
    Inv initproc ready (s.freeproc p q) := by
  have hu : (s.pcb q).state ≠ .unused := by
    cases hfr with
    | abort he =>
      rw [(h.family.embryo he).1]
      simp
    | reap hz =>
      rw [show (s.pcb q).state = .zombie from hz]
      simp
  refine ⟨?_,freeproc_family h.family hfr,fun hf => ⟨?_,freeproc_heirs (h.wait hf).2⟩,
    fun hf r hr => h.cond hf r (freeproc_waiting _ _ hr),freeproc_ledger h.ledger h.family hfr hu⟩
  · obtain ⟨one,proc,free,away,awake,stale⟩ := h.cpus
    constructor <;> simp only [State.freeproc, State.setPcb, update_apply] <;> grind
  · refine (h.wait hf).1.congr (fun r hz => ((freeproc_zombie r).mp hz).2) freeproc_waiting
      (freeproc_parent_eq hfr ?_)
    rw [mem_owns (t := .inr p) h.cpus hon, show s.lock .wait = none from hf]
    simp

end Freeproc

section Parents

variable {r : Fin n}

theorem Adopts.embryo (h : Adopts initproc s p q r) (hf : Family initproc s) {r' : Fin n}
    (hr : s.embryo r' = some q) : r' = p ∧ r = p := by
  cases h with
  | fork he => exact ⟨hf.embryo_inj hr he,rfl⟩
  | reparent hp he =>
    rcases (hf.embryo hr).2.1 with h | h
    · exact absurd (hp.symm.trans h) (by simp)
    · obtain rfl : p = r' := Option.some.inj (hp.symm.trans h)
      exact absurd (he.symm.trans hr) (by simp)

theorem setParent_guar (h : Family initproc s) (hw : s.lock .wait = some c)
    (ha : Adopts initproc s p q r) : Guar initproc (.inr p) c none s
      { s with parent := update s.parent q (some r) } where
  __ := (Guar.refl : Guar initproc (.inr p) c none s s)
  switch := .inl rfl
  parent hf := absurd hw hf
  heirs hf := absurd hw hf
  own r' hr har := by
    have hrp : r' ≠ p := fun he => hr (congrArg Sum.inr he.symm)
    refine ⟨har,rfl,rfl,rfl,rfl,fun q' he => ⟨id,?_⟩,fun q' hp hz => ⟨?_,hz⟩⟩
    · have hq : q' ≠ q := by
        rintro rfl
        exact hrp (ha.embryo h he).1
      exact update_of_ne hq ..
    · have hq : q' ≠ q := by
        rintro rfl
        cases ha with
        | fork _ hn => exact absurd (hn.symm.trans hp) (by simp)
        | reparent hp' => exact hrp (Option.some.inj (hp.symm.trans hp'))
      exact (update_of_ne hq ..).trans hp

theorem setParent_inv (h : Inv initproc ready s) (hw : s.lock .wait = some c)
    (ha : Adopts initproc s p q r) : Inv initproc ready
      { s with parent := update s.parent q (some r) } where
  cpus := h.cpus.congr (fun _ => rfl) rfl
  family := by
    have he : ∀ {r'}, s.embryo r' = some q → r' = p ∧ r = p := ha.embryo h.family
    obtain ⟨init,parent_alive,has_parent,unused,embryo,embryo_inj,idle,kwait⟩ := h.family
    refine ⟨init,?_,?_,?_,?_,embryo_inj,idle,kwait⟩ <;> simp only [update_apply] <;>
      grind [Adopts]
  wait hf := absurd (hw.symm.trans hf) (by simp)
  cond := h.cond
  ledger := h.ledger.same rfl rfl

end Parents

section Deliver

variable {pid b : ℕ} {status : Option ℤ} {x : ℤ}

theorem deliver_hand_of_ne {r : Fin n} (h : r ≠ p) :
    (s.deliver p pid status).hand r = s.hand r :=
  update_of_ne h ..

theorem deliver_guar : Guar initproc (.inr p) c none s (s.deliver p pid status) where
  __ := (Guar.refl : Guar initproc (.inr p) c none s s)
  switch := .inl rfl
  fresh _ _ hn ha := absurd ha hn
  own _ hr har := ⟨har,rfl,rfl,deliver_hand_of_ne fun he => hr (congrArg Sum.inr he.symm),rfl,
    fun _ _ => ⟨id,rfl⟩,fun _ hp hz => ⟨hp,hz⟩⟩

theorem deliver_inv (h : Inv initproc ready s) (hb : s.hand p = some b)
    (hx : ⟨b,pid,x⟩ ∈ s.exits) (hst : ∀ y ∈ status, y = x) :
    Inv initproc ready (s.deliver p pid status) where
  cpus := h.cpus.congr (fun _ => rfl) rfl
  family := { h.family with
    idle := by
      intro r hr
      have hidle := h.family.idle hr
      simp only [State.deliver, update_apply]
      grind }
  wait := h.wait
  cond := h.cond
  ledger := by
    obtain ⟨born,birth_inj,exits_nodup,exits_born,exited,zombie,hand,hand_inj,hand_gone,
      returned_nodup,returned_gone,returned_hand,returned⟩ := h.ledger
    constructor <;> simp only [State.Zombie, State.Exited, State.MayReap, State.deliver,
      update_apply, hb, Option.toList, List.map_cons, List.map_nil, List.map_append,
      List.nodup_append, List.mem_append, List.mem_singleton] <;> grind [State.Exited, State.MayReap]

end Deliver

/-- The process that a command starts anew. -/
def Cmd.started : Cmd n δ → Option (Fin n)
  | .setContext q => some q
  | _ => none

theorem setState_kept {state : PState} (h : Inv initproc ready s) (hat : At s t c)
    (hl : s.lock (.proc q) = some c) (hc : Changes initproc s t q state) :
    Inv initproc ready (s.setState (self t) q state) ∧
      Guar initproc t c none s (s.setState (self t) q state) := by
  have halive : ∀ {st : PState}, (s.pcb q).state = st → st.alive = true → s.Alive q := by
    rintro st rfl hst
    exact hst
  cases hc with
  | wake hs hx =>
    have ha := halive hs rfl
    exact ⟨alive_inv h hl ha (fun c' hc' => absurd ⟨c',hc'⟩ hx) rfl (by simp),
      alive_guar h.family hl ha rfl (by simp)⟩
  | yield hs hd =>
    have ha := halive hs rfl
    exact ⟨alive_inv h hl ha (fun c' hc' => h.cpus.one hc' hat) rfl (by simp),
      alive_guar h.family hl ha rfl (by simp)⟩
  | sleep hs hd =>
    have ha := halive hs rfl
    exact ⟨alive_inv h hl ha (fun c' hc' => h.cpus.one hc' hat) rfl fun _ => hd,
      alive_guar h.family hl ha rfl fun _ => hd⟩
  | exit hs hd hw hi he hh hc =>
    rw [mem_owns h.cpus hat] at hw
    exact ⟨exit_inv h hat hl hw hs hi he hh hc,exit_guar h.family hl hw hs⟩
  | dispatch hs hx =>
    have ha := halive hs rfl
    exact ⟨alive_inv h hl ha (fun c' hc' => absurd ⟨c',hc'⟩ hx) rfl (by simp),
      alive_guar h.family hl ha rfl (by simp)⟩
  | fork he hp hst hx => exact ⟨fork_inv h hl he hp hst hx,fork_guar h.family hl he⟩

/-- Every command keeps the invariant and changes only what it may. -/
theorem act_kept {w : Input m δ} {x : Cmd n δ} {a : x.Result} (h : Inv initproc ready s)
    (hat : At s t c) (hp : Pre initproc ready t s x) (hact : act t c w s x = some (a,u)) :
    Inv initproc ready u ∧ Guar initproc t c x.started s u := by
  have hmem : ∀ {l}, l ∈ s.owns t ↔ s.lock l = some c := mem_owns h.cpus hat
  have hall : ∀ {l'}, s.owns t = {l'} → ∀ l, s.lock l = some c ↔ l = l' := by
    intro l' hl' l
    rw [← hmem, hl', Set.mem_singleton_iff]
  have hread : u = s → Inv initproc ready u ∧ Guar initproc t c none s u := by
    rintro rfl
    exact ⟨h,.refl⟩
  cases x with
  | acquire l =>
    simp only [act] at hact
    split at hact
    · rename_i hl
      obtain ⟨-,rfl⟩ := Prod.mk.inj (Option.some.inj hact)
      exact ⟨acquire_inv h hl,acquire_guar hl⟩
    · cases hact
  | release l =>
    simp only [act] at hact
    split at hact
    · rename_i hl
      obtain ⟨-,rfl⟩ := Prod.mk.inj (Option.some.inj hact)
      exact ⟨release_inv h hp.2,release_guar hl⟩
    · cases hact
  | doze l ch =>
    obtain ⟨hl,p,rfl,hown,-,-,hd⟩ := hp
    rw [hmem] at hl hown
    simp only [act, if_pos hl] at hact
    obtain ⟨-,rfl⟩ := Prod.mk.inj (Option.some.inj hact)
    exact ⟨doze_inv h hat hown hd,doze_guar hl hown hd⟩
  | setState q state =>
    obtain ⟨-,rfl⟩ := Prod.mk.inj (Option.some.inj hact)
    exact setState_kept h hat (hmem.mp hp.1) hp.2
  | setChan q ch =>
    obtain ⟨rfl,hl,hs⟩ := hp
    obtain ⟨-,rfl⟩ := Prod.mk.inj (Option.some.inj hact)
    exact ⟨touch_inv h rfl (.inr hs) (.inl ⟨rfl,rfl⟩),
      touch_guar (hmem.mp hl) rfl (.inr ⟨rfl,hs⟩)⟩
  | setKilled q =>
    obtain ⟨-,rfl⟩ := Prod.mk.inj (Option.some.inj hact)
    exact ⟨touch_inv h rfl (.inl rfl) (.inl ⟨rfl,rfl⟩),touch_guar (hmem.mp hp) rfl (.inl rfl)⟩
  | setXstate q y =>
    obtain ⟨rfl,hl,hs⟩ := hp
    obtain ⟨-,rfl⟩ := Prod.mk.inj (Option.some.inj hact)
    exact ⟨touch_inv h rfl (.inl rfl) (.inr (by simp [State.Zombie, hs])),
      touch_guar (hmem.mp hl) rfl (.inl rfl)⟩
  | use q pid =>
    obtain ⟨hl,hs,hx,p,rfl,-,ha⟩ := hp
    obtain ⟨-,rfl⟩ := Prod.mk.inj (Option.some.inj hact)
    exact ⟨use_inv h (hmem.mp hl) hs hx ha,use_guar h.family h.ledger (hmem.mp hl) hs⟩
  | setContext q =>
    obtain ⟨-,rfl⟩ := Prod.mk.inj (Option.some.inj hact)
    exact ⟨setContext_inv h,setContext_guar⟩
  | freeproc q =>
    obtain ⟨hl,hx,p,rfl,hf⟩ := hp
    obtain ⟨-,rfl⟩ := Prod.mk.inj (Option.some.inj hact)
    exact ⟨freeproc_inv h hat (hmem.mp hl) hx hf,freeproc_guar h hat (hmem.mp hl) hf⟩
  | setParent q r =>
    obtain ⟨hw,p,rfl,ha⟩ := hp
    obtain ⟨-,rfl⟩ := Prod.mk.inj (Option.some.inj hact)
    exact ⟨setParent_inv h (hmem.mp hw) ha,setParent_guar h.family (hmem.mp hw) ha⟩
  | setProc y =>
    obtain ⟨c',rfl⟩ := hp
    obtain ⟨-,rfl⟩ := Prod.mk.inj (Option.some.inj hact)
    exact ⟨setProc_inv h hat.2,setProc_guar⟩
  | swtchTo q =>
    obtain ⟨hs,hd,hx,c',rfl,hown,hpr⟩ := hp
    obtain ⟨rfl,hon⟩ := hat
    obtain ⟨-,rfl⟩ := Prod.mk.inj (Option.some.inj hact)
    exact ⟨swtchTo_inv h hon ((hall hown _).mpr rfl) hs hx hpr,
      swtchTo_guar hon (hall hown) hs hd hx⟩
  | swtch =>
    obtain ⟨p,rfl,hown,hs,hd⟩ := hp
    obtain ⟨-,rfl⟩ := Prod.mk.inj (Option.some.inj hact)
    exact ⟨swtch_inv h hat ((hall hown _).mpr rfl) hd,swtch_guar h hat (hall hown) hs hd⟩
  | setNextpid k =>
    obtain ⟨-,rfl⟩ := Prod.mk.inj (Option.some.inj hact)
    exact ⟨setNextpid_inv h,setNextpid_guar⟩
  | setData d =>
    obtain ⟨-,rfl⟩ := Prod.mk.inj (Option.some.inj hact)
    exact ⟨setData_inv h (hmem.mp hp),setData_guar (hmem.mp hp)⟩
  | waitRet r =>
    cases r with
    | reaped pid status =>
      obtain ⟨p,b,y,rfl,hb,hy,hst⟩ := hp
      obtain ⟨-,rfl⟩ := Prod.mk.inj (Option.some.inj hact)
      exact ⟨deliver_inv h hb hy hst,deliver_guar⟩
    | copyFailed q => exact hread (Prod.mk.inj (Option.some.inj hact)).2.symm
    | noChild => exact hread (Prod.mk.inj (Option.some.inj hact)).2.symm
  | panic why => cases hact
  | holding l => exact hread (Prod.mk.inj (Option.some.inj hact)).2.symm
  | noff => exact hread (Prod.mk.inj (Option.some.inj hact)).2.symm
  | intrGet => exact hread (Prod.mk.inj (Option.some.inj hact)).2.symm
  | myproc => exact hread (Prod.mk.inj (Option.some.inj hact)).2.symm
  | pcb q => exact hread (Prod.mk.inj (Option.some.inj hact)).2.symm
  | parentOf q => exact hread (Prod.mk.inj (Option.some.inj hact)).2.symm
  | nextpid => exact hread (Prod.mk.inj (Option.some.inj hact)).2.symm
  | data => exact hread (Prod.mk.inj (Option.some.inj hact)).2.symm
  | fails => exact hread (Prod.mk.inj (Option.some.inj hact)).2.symm
  | slept l => exact hread (Prod.mk.inj (Option.some.inj hact)).2.symm

theorem at_of_place {w : Input m δ} (h : place t w s = some c) : At s t c := by
  cases t with
  | inl i =>
    simp only [place] at h
    split at h
    · rename_i hon
      obtain rfl := Option.some.inj h
      exact ⟨rfl,hon⟩
    · cases h
  | inr p =>
    simp only [place] at h
    split at h
    · rename_i hon
      obtain rfl := Option.some.inj h
      exact hon
    · cases h

theorem exec_cases {w : Input m δ} {x : Cmd n δ} {a : x.Result}
    (h : (kernel initproc ready).exec t x w s = some (a,u)) :
    ∃ c, At s t c ∧ act t c w s x = some (a,u) := by
  obtain ⟨c,hc,hact⟩ := Option.bind_eq_some_iff.mp h
  exact ⟨c,at_of_place hc,hact⟩

end Xv6.Sched
