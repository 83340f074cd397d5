import Xv6.Sched.Guar

/-! Every command keeps the invariant and what the other threads rely on. -/
namespace Xv6.Sched

open Function (update update_apply update_of_ne update_self)

variable {n m : ℕ} {δ : Type} {initproc : Fin n} {ready : δ → Bool} {s u : State n m δ}
  {t : Thread n m} {c : Fin m} {p q : Fin n} {l : Lock n} {L : Set (Lock n)}

/-- The same state, or two in which a process is alive. -/
def PState.Like (a b : PState) : Prop := a = b ∨ a.alive = true ∧ b.alive = true

namespace PState.Like

variable {a b : PState}

theorem alive_iff (h : a.Like b) : a.alive = true ↔ b.alive = true := by
  rcases h with rfl | ⟨ha,hb⟩
  · rfl
  · simp [ha, hb]

/-- The states in which a process is not alive are kept apart. -/
theorem eq_iff (h : a.Like b) {x : PState} (hx : x.alive = false) : a = x ↔ b = x := by
  rcases h with rfl | ⟨ha,hb⟩
  · rfl
  · constructor <;> rintro rfl <;> simp_all

end PState.Like

/-! What does not depend on most of the state. -/

/-- What `Cpus` depends on, besides the states of the processes. -/
def State.cpuPart (s : State n m δ) := (s.lock,s.on,s.proc,s.drowsy,s.stale)

/-- What `Ledger` depends on, besides what `p->lock` protects. -/
def State.bookPart (s : State n m δ) :=
  (s.birth,s.births,s.creator,s.hand,s.exits,s.returned)

theorem Cpus.congr (h : Cpus s) (hstate : ∀ p, (u.pcb p).state = (s.pcb p).state)
    (hsame : u.cpuPart = s.cpuPart) : Cpus u := by
  simp only [State.cpuPart, Prod.mk.injEq] at hsame
  obtain ⟨hlock,hon,hproc,hdrowsy,hstale⟩ := hsame
  constructor <;> simp only [State.Settled, State.Alive, State.Executing, hstate, hlock, hon, hproc,
    hdrowsy, hstale]
  · exact h.one
  · exact h.proc
  · exact h.free
  · exact h.away
  · exact h.awake
  · exact h.stale

theorem Family.congr (h : Family initproc s)
    (hstate : ∀ p, (u.pcb p).state.Like (s.pcb p).state)
    (hwaiting : ∀ p ch, u.Waiting p ch → s.Waiting p ch) (hsame : u.kinPart = s.kinPart) :
    Family initproc u := by
  simp only [State.kinPart, Prod.mk.injEq] at hsame
  obtain ⟨hparent,hembryo,hbirth,hcreator,hhand⟩ := hsame
  have halive : ∀ p, u.Alive p ↔ s.Alive p := fun p => (hstate p).alive_iff
  have hzombie : ∀ p, u.Zombie p ↔ s.Zombie p := fun p => (hstate p).eq_iff rfl
  have hunused : ∀ p, (u.pcb p).state = .unused ↔ (s.pcb p).state = .unused := fun p =>
    (hstate p).eq_iff rfl
  have hused : ∀ p, (u.pcb p).state = .used ↔ (s.pcb p).state = .used := fun p =>
    (hstate p).eq_iff rfl
  constructor <;> try simp only [halive, hzombie, hunused, hused, hparent, hembryo, hbirth,
    hcreator, hhand]
  · exact h.init
  · exact h.parent_alive
  · exact h.has_parent
  · exact h.unused
  · exact h.embryo
  · exact h.embryo_inj
  · exact h.idle
  · exact fun hw => h.kwait (hwaiting _ _ hw)

theorem Ledger.congr (h : Ledger initproc s)
    (hunused : ∀ p, (u.pcb p).state = .unused ↔ (s.pcb p).state = .unused)
    (hzombie : ∀ p, u.Zombie p ↔ s.Zombie p)
    (hexit : ∀ p, s.Zombie p → (u.pcb p).pid = (s.pcb p).pid ∧
      (u.pcb p).xstate = (s.pcb p).xstate) (hsame : u.bookPart = s.bookPart) :
    Ledger initproc u := by
  simp only [State.bookPart, Prod.mk.injEq] at hsame
  obtain ⟨hbirth,hbirths,hcreator,hhand,hexits,hreturned⟩ := hsame
  constructor <;> simp only [hzombie, hunused, State.Exited, State.MayReap, hbirth, hbirths,
    hcreator, hhand, hexits, hreturned, ne_eq]
  · exact h.born
  · exact h.birth_inj
  · exact h.exits_nodup
  · exact h.exits_born
  · exact h.exited
  · intro q hz
    rw [(hexit q hz).1, (hexit q hz).2]
    exact h.zombie hz
  · exact h.hand
  · exact h.hand_inj
  · exact h.hand_gone
  · exact h.returned_nodup
  · exact h.returned_gone
  · exact h.returned_hand
  · exact h.returned

theorem Family.same (h : Family initproc s) (hpcb : u.pcb = s.pcb) (hdrowsy : u.drowsy = s.drowsy)
    (hsame : u.kinPart = s.kinPart) : Family initproc u :=
  h.congr (fun p => .inl (by rw [hpcb])) (fun p ch hw => by
    rwa [State.Waiting, hpcb, hdrowsy] at hw) hsame

theorem Ledger.same (h : Ledger initproc s) (hpcb : u.pcb = s.pcb)
    (hsame : u.bookPart = s.bookPart) : Ledger initproc u :=
  h.congr (fun p => by rw [hpcb]) (fun p => by rw [State.Zombie, hpcb, State.Zombie])
    (fun p _ => by rw [hpcb]; exact ⟨rfl,rfl⟩) hsame

theorem State.Heirs.congr {x : Option (Fin n × ℕ)} (h : s.Heirs initproc x)
    (hparent : u.parent = s.parent) (hbirth : u.birth = s.birth)
    (hcreator : u.creator = s.creator) (hexits : ∀ e ∈ s.exits, e ∈ u.exits) :
    u.Heirs initproc x := by
  intro q r hq
  rw [hparent] at hq
  rw [hbirth, hcreator]
  rcases h q r hq with h | ⟨hr,⟨e,he,heb⟩ | hx⟩
  · exact .inl h
  · exact .inr ⟨hr,.inl ⟨e,hexits e he,heb⟩⟩
  · exact .inr ⟨hr,.inr hx⟩

/-- Less is waiting, and nothing new has exited. -/
theorem State.Patient.congr (h : s.Patient)
    (hzombie : ∀ q, u.Zombie q → s.Zombie q)
    (hwaiting : ∀ p ch, u.Waiting p ch → s.Waiting p ch) (hparent : u.parent = s.parent) :
    u.Patient := by
  intro p hw
  rw [hparent]
  obtain ⟨hk,hz⟩ := h p (hwaiting _ _ hw)
  exact ⟨hk,fun q hq hzq => hz q hq (hzombie q hzq)⟩

theorem setProc_guar {x : Option (Fin n)} :
    Guar initproc t c none s { s with proc := update s.proc c x } where
  __ := (Guar.refl : Guar initproc t c none s s)
  switch := .inl rfl
  own _ _ ha := .same ha rfl rfl rfl
  proc c' hc := by simp [update_of_ne hc]

theorem setData_guar {d : δ} (hc : s.lock .cond = some c) :
    Guar initproc t c none s { s with data := d } where
  __ := (Guar.refl : Guar initproc t c none s s)
  switch := .inl rfl
  own _ _ ha := .same ha rfl rfl rfl
  data h := absurd hc h

theorem setNextpid_guar {k : ℕ} : Guar initproc t c none s { s with nextpid := k } where
  __ := (Guar.refl : Guar initproc t c none s s)
  switch := .inl rfl
  own _ _ ha := .same ha rfl rfl rfl

theorem setLock_other {x : Option (Fin m)} (hl : s.lock l = none ∨ s.lock l = some c)
    (hx : x = none ∨ x = some c) (l' : Lock n) (c' : Fin m) (hc : c' ≠ c) :
    (s.setLock l x).lock l' = some c' ↔ s.lock l' = some c' := by
  grind

theorem acquire_guar (hl : s.lock l = none) :
    Guar initproc t c none s (s.setLock l (some c)) where
  __ := (Guar.refl : Guar initproc t c none s s)
  switch := .inl rfl
  own _ _ ha := .same ha rfl rfl rfl
  lock := setLock_other (.inl hl) (.inr rfl)

theorem release_guar (hl : s.lock l = some c) :
    Guar initproc t c none s (s.setLock l none) where
  __ := (Guar.refl : Guar initproc t c none s s)
  switch := .inl rfl
  own _ _ ha := .same ha rfl rfl rfl
  lock := setLock_other (.inr hl) (.inl rfl)

theorem setProc_inv {x : Option (Fin n)} (h : Inv initproc ready s) (hc : s.on c = none) :
    Inv initproc ready { s with proc := update s.proc c x } where
  cpus := { h.cpus with
    proc := by
      intro c' p hon
      have hne : c' ≠ c := by
        rintro rfl
        exact absurd (hc.symm.trans hon) (by simp)
      simpa [update_of_ne hne] using h.cpus.proc hon }
  family := h.family.same rfl rfl rfl
  wait := h.wait
  cond := h.cond
  ledger := h.ledger.same rfl rfl

theorem setData_inv {d : δ} (h : Inv initproc ready s) (hc : s.lock .cond = some c) :
    Inv initproc ready { s with data := d } where
  cpus := h.cpus.congr (fun _ => rfl) rfl
  family := h.family.same rfl rfl rfl
  wait := h.wait
  cond hf := absurd (hc.symm.trans hf) (by simp)
  ledger := h.ledger.same rfl rfl

theorem setNextpid_inv {k : ℕ} (h : Inv initproc ready s) :
    Inv initproc ready { s with nextpid := k } where
  cpus := h.cpus.congr (fun _ => rfl) rfl
  family := h.family.same rfl rfl rfl
  wait := h.wait
  cond := h.cond
  ledger := h.ledger.same rfl rfl

theorem acquire_inv (h : Inv initproc ready s) (hl : s.lock l = none) :
    Inv initproc ready (s.setLock l (some c)) where
  cpus := { h.cpus with
    free p hp := h.cpus.free p (by grind)
    away hon hp := h.cpus.away hon (by grind) }
  family := h.family.same rfl rfl rfl
  wait hw := h.wait (by grind)
  cond hc := h.cond (by grind)
  ledger := h.ledger.same rfl rfl

theorem release_inv (h : Inv initproc ready s) (hr : Releasable initproc ready s l) :
    Inv initproc ready (s.setLock l none) where
  cpus := by
    obtain ⟨one,proc,free,away,awake,stale⟩ := h.cpus
    constructor <;> simp only [State.setLock, State.Settled, State.Executing, State.Alive,
      update_apply] <;> grind [Releasable]
  family := h.family.same rfl rfl rfl
  wait hw := by
    have hwait := h.wait
    change s.Patient ∧ s.Heirs initproc none
    grind [Releasable]
  cond hc := by
    have hcond := h.cond
    change s.Calm ready
    grind [Releasable]
  ledger := h.ledger.same rfl rfl

section Doze

variable {ch : Chan n}

/-- The state after the `release` of `sleep`. -/
abbrev dozed (s : State n m δ) (p : Fin n) (l : Lock n) (ch : Chan n) : State n m δ :=
  { s.setLock l none with drowsy := update s.drowsy p (some ch) }

theorem dozed_waiting {r : Fin n} {ch' : Chan n} :
    (dozed s p l ch).Waiting r ch' → s.Waiting r ch' ∨ r = p ∧ ch' = ch := by
  rintro (h | h)
  · by_cases hr : r = p
    · subst hr
      simp only [update_self, Option.some.injEq] at h
      exact .inr ⟨rfl,h.symm⟩
    · simp only [update_of_ne hr] at h
      exact .inl (.inl h)
  · exact .inl (.inr h)

theorem doze_guar (hl : s.lock l = some c) (hp : s.lock (.proc p) = some c)
    (hd : Dozes initproc ready s p l ch) :
    Guar initproc (.inr p) c none s (dozed s p l ch) where
  __ := (Guar.refl : Guar initproc (.inr p) c none s s)
  switch := .inl rfl
  own _ _ ha := .same ha rfl rfl rfl
  lock := setLock_other (.inr hl) (.inl rfl)
  pcb q hq := by
    have hne : q ≠ p := by
      rintro rfl
      exact hq hp
    exact ⟨rfl,update_of_ne hne ..,Iff.rfl⟩
  waiting hw r r' h := by
    cases hd with
    | wait => exact absurd hl hw
    | cond =>
      rcases dozed_waiting h with h | ⟨-,h⟩
      · exact h
      · cases h
  calm hw r h := by
    cases hd with
    | cond => exact absurd hl hw
    | wait =>
      rcases dozed_waiting h with h | ⟨-,h⟩
      · exact h
      · cases h

theorem doze_inv (h : Inv initproc ready s) (hon : s.on c = some p) (hp : s.lock (.proc p) = some c)
    (hd : Dozes initproc ready s p l ch) : Inv initproc ready (dozed s p l ch) where
  cpus := by
    have hlp : ∀ q, l ≠ .proc q := by
      cases hd <;> simp
    obtain ⟨one,proc,free,away,awake,stale⟩ := h.cpus
    constructor <;> simp only [State.setLock, State.Settled, State.Executing, State.Alive,
      update_apply] <;> grind
  family := { h.family with
    kwait := by
      intro r r' hw
      rcases dozed_waiting hw with hold | ⟨rfl,hnew⟩
      · exact h.family.kwait hold
      · cases hd with
        | wait => exact (Chan.proc.inj hnew).symm
        | cond => cases hnew }
  wait hw := by
    cases hd with
    | wait hpat hh hk hz =>
      refine ⟨fun r hr => ?_,hh⟩
      rcases dozed_waiting hr with hr | ⟨rfl,-⟩
      · exact hpat r hr
      · exact ⟨hk,hz⟩
    | cond =>
      have hw' := h.wait (by simpa [dozed, State.setLock] using hw)
      refine ⟨fun r hr => ?_,hw'.2⟩
      rcases dozed_waiting hr with hr | ⟨-,hr⟩
      · exact hw'.1 r hr
      · cases hr
  cond hc r hr := by
    cases hd with
    | wait =>
      refine h.cond (by simpa [dozed, State.setLock] using hc) r ?_
      rcases dozed_waiting hr with hr | ⟨-,hr⟩
      · exact hr
      · cases hr
    | cond hcalm hready =>
      rcases dozed_waiting hr with hr | ⟨-,-⟩
      · exact hcalm r hr
      · exact hready
  ledger := h.ledger.same rfl rfl

end Doze

section Touch

variable {b : Pcb n}

theorem touch_waiting (hs : b.state = (s.pcb q).state)
    (hch : b.chan = (s.pcb q).chan ∨ (s.pcb q).state = .running) (r : Fin n) (ch : Chan n)
    (h : (s.setPcb q b).Waiting r ch) : s.Waiting r ch := by
  rcases h with h | ⟨h1,h2⟩
  · exact .inl h
  · right
    grind

/-- What a write of `killed` or `xstate` leaves to those who do not hold the lock. -/
theorem touch_seen (hl : .proc q ∉ L) (hs : b.state = (s.pcb q).state)
    (hch : b.chan = (s.pcb q).chan) : Seen initproc t L s (s.setPcb q b) := by
  have hst : ∀ r, ((s.setPcb q b).pcb r).state = (s.pcb r).state := by
    grind
  have hw := touch_waiting hs (.inl hch)
  exact {
    (Seen.refl : Seen initproc t L s s) with
    held := by
      intro r hr
      have hne : r ≠ q := by
        rintro rfl
        exact hl hr
      exact ⟨update_of_ne hne ..,rfl,fun _ => Iff.rfl⟩
    zombie := fun _ r hz => (hst r).symm.trans hz
    waiting := fun _ r r' => hw r _
    calm := fun _ r => hw r _
    own := by
      intro r hr ha
      exact ⟨by simpa [State.Alive, hst] using ha,rfl,rfl,rfl,by grind,fun _ _ => ⟨id,rfl⟩,
        fun r' hp hz => ⟨hp,(hst r').trans hz⟩⟩ }

/-- Fields other than `state` may be written by who holds `p->lock`; `chan` only by the process
itself, and what it leaves not after its exit. -/
theorem touch_guar (hl : s.lock (.proc q) = some c) (hs : b.state = (s.pcb q).state)
    (hch : b.chan = (s.pcb q).chan ∨ t = .inr q ∧ (s.pcb q).state = .running) :
    Guar initproc t c none s (s.setPcb q b) := by
  have hst : ∀ r, ((s.setPcb q b).pcb r).state = (s.pcb r).state := by
    grind
  have hw := touch_waiting hs (hch.imp_right And.right)
  exact {
    (Guar.refl : Guar initproc t c none s s) with
    switch := .inl rfl
    pcb := by
      intro r hr
      have hne : r ≠ q := by
        rintro rfl
        exact hr hl
      exact ⟨update_of_ne hne ..,rfl,Iff.rfl⟩
    zombie := fun _ r hz => (hst r).symm.trans hz
    waiting := fun _ r r' => hw r _
    calm := fun _ r => hw r _
    own := by
      intro r hr ha
      refine ⟨by simpa [State.Alive, hst] using ha,rfl,rfl,rfl,by grind,fun _ _ => ⟨id,rfl⟩,
        fun r' hp hz => ⟨hp,(hst r').trans hz⟩⟩
    fresh := by
      intro r _ ha ha'
      exact absurd (by simpa [State.Alive, hst] using ha') ha }

theorem touch_inv (h : Inv initproc ready s) (hs : b.state = (s.pcb q).state)
    (hch : b.chan = (s.pcb q).chan ∨ (s.pcb q).state = .running)
    (hx : b.pid = (s.pcb q).pid ∧ b.xstate = (s.pcb q).xstate ∨ ¬s.Zombie q) :
    Inv initproc ready (s.setPcb q b) := by
  have hst : ∀ r, ((s.setPcb q b).pcb r).state = (s.pcb r).state := by
    grind
  have hw := touch_waiting hs hch
  have hlike : ∀ r, ((s.setPcb q b).pcb r).state.Like (s.pcb r).state := fun r => .inl (hst r)
  refine ⟨h.cpus.congr hst rfl,h.family.congr hlike hw rfl,
    fun hf => ⟨(h.wait hf).1.congr ?_ hw rfl,(h.wait hf).2⟩,
    fun hf r hr => h.cond hf r (hw _ _ hr),h.ledger.congr ?_ ?_ ?_ rfl⟩
  · exact fun r hz => (hst r).symm.trans hz
  all_goals grind

end Touch

section SetState

variable {state : PState} {x : Option (Fin n)}

theorem setState_waiting (hs : state = .sleeping → s.drowsy q = (s.pcb q).chan)
    (r : Fin n) (ch : Chan n) (h : (s.setState x q state).Waiting r ch) : s.Waiting r ch := by
  unfold State.Waiting at h ⊢
  grind

theorem setState_pcb_of_ne {r : Fin n} (h : r ≠ q) : (s.setState x q state).pcb r = s.pcb r :=
  update_of_ne h ..

/-- No process being created is alive. -/
theorem Family.embryo_ne (h : Family initproc s) (ha : s.Alive q) (r : Fin n) :
    s.embryo r ≠ some q := by
  intro he
  have := (h.embryo he).1
  simp [State.Alive, this, PState.alive] at ha

theorem setState_embryo (h : Family initproc s) (ha : s.Alive q) :
    (s.setState x q state).embryo = s.embryo := by
  funext r
  exact if_neg fun hr => h.embryo_ne ha r hr.2

theorem setState_exits (h : state ≠ .zombie) : (s.setState x q state).exits = s.exits := if_neg h

theorem setState_like (ha : s.Alive q) (hst : state.alive = true) (r : Fin n) :
    ((s.setState x q state).pcb r).state.Like (s.pcb r).state := by
  by_cases hr : r = q
  · subst hr
    exact .inr ⟨by simpa [State.setState_pcb] using hst,ha⟩
  · rw [setState_pcb_of_ne hr]
    exact .inl rfl

theorem setState_pcb_guar (hl : s.lock (.proc q) = some c) (r : Fin n)
    (hr : s.lock (.proc r) ≠ some c) : (s.setState x q state).pcb r = s.pcb r ∧
      (s.setState x q state).drowsy r = s.drowsy r ∧
      ((s.setState x q state).on c = some r ↔ s.on c = some r) := by
  have hne : r ≠ q := by
    rintro rfl
    exact hr hl
  exact ⟨setState_pcb_of_ne hne,update_of_ne hne ..,Iff.rfl⟩

/-- A process that is alive may be given another state in which it is alive; this is seen only
by who holds its lock. -/
theorem alive_seen (h : Family initproc s) (hl : .proc q ∉ L) (ha : s.Alive q)
    (hst : state.alive = true) (hs : state = .sleeping → s.drowsy q = (s.pcb q).chan) :
    Seen initproc t L s (s.setState x q state) := by
  have hlike := setState_like (x := x) ha hst
  have hw := setState_waiting (x := x) hs
  have hex := setState_exits (s := s) (q := q) (x := x)
    (show state ≠ .zombie by rintro rfl; cases hst)
  exact {
    (Seen.refl : Seen initproc t L s s) with
    held := by
      intro r hr
      have hne : r ≠ q := by
        rintro rfl
        exact hl hr
      exact ⟨setState_pcb_of_ne hne,update_of_ne hne ..,fun _ => Iff.rfl⟩
    zombie := fun _ r hz => ((hlike r).eq_iff rfl).mp hz
    waiting := fun _ r r' => hw r _
    heirs := by
      intro _ x hh
      exact hh.congr rfl rfl rfl fun e he => by rwa [hex]
    calm := fun _ r => hw r _
    exits := by
      intro e he
      rwa [hex]
    own := by
      intro r hr har
      exact ⟨(hlike r).alive_iff.mpr har,rfl,congrFun (setState_embryo h ha) r,rfl,by grind,
        fun _ _ => ⟨id,rfl⟩,fun r' hp hz => ⟨hp,((hlike r').eq_iff rfl).mpr hz⟩⟩ }

theorem alive_guar (h : Family initproc s) (hl : s.lock (.proc q) = some c) (ha : s.Alive q)
    (hst : state.alive = true) (hs : state = .sleeping → s.drowsy q = (s.pcb q).chan) :
    Guar initproc t c none s (s.setState x q state) := by
  have hseen : ∀ t', Seen initproc t' {l | s.lock l ≠ some c} s (s.setState x q state) := fun t' =>
    alive_seen h (fun hq => hq hl) ha hst hs
  exact {
    (Guar.refl : Guar initproc t c none s s) with
    switch := .inl rfl
    pcb := setState_pcb_guar hl
    zombie := (hseen t).zombie
    waiting := (hseen t).waiting
    heirs := (hseen t).heirs
    calm := (hseen t).calm
    exits := (hseen t).exits
    own := fun r _ => (hseen (.inr r)).own r rfl
    fresh := fun r _ har har' => absurd ((setState_like ha hst r).alive_iff.mp har') har }

/-- Whoever changes the state of a process, itself or while it does not execute, leaves CPUs
and processes in order. -/
theorem setState_cpus (h : Cpus s) (hl : s.lock (.proc q) = some c)
    (hx : ∀ c', s.on c' = some q → c' = c)
    (hst : s.stale q = true → state.alive = false) : Cpus (s.setState x q state) := by
  obtain ⟨one,proc,free,away,awake,stale⟩ := h
  constructor <;> simp only [State.setState, State.setPcb, update_apply] <;> grind

theorem alive_inv (h : Inv initproc ready s)
    (hl : s.lock (.proc q) = some c) (ha : s.Alive q)
    (hx : ∀ c', s.on c' = some q → c' = c) (hst : state.alive = true)
    (hs : state = .sleeping → s.drowsy q = (s.pcb q).chan) :
    Inv initproc ready (s.setState x q state) := by
  have hlike := setState_like (x := x) ha hst
  have hw := setState_waiting (x := x) hs
  have hex := setState_exits (s := s) (q := q) (x := x)
    (show state ≠ .zombie by rintro rfl; cases hst)
  have hkin : (s.setState x q state).kinPart = s.kinPart := by
    rw [State.kinPart, setState_embryo h.family ha]
    rfl
  have hbook : (s.setState x q state).bookPart = s.bookPart := by
    rw [State.bookPart, hex]
    rfl
  refine ⟨setState_cpus h.cpus hl hx fun hq => absurd ha (h.cpus.stale hq).2,
    h.family.congr hlike hw hkin,fun hf => ⟨?_,?_⟩,
    fun hf r hr => h.cond hf r (hw _ _ hr),h.ledger.congr (fun r => (hlike r).eq_iff rfl)
      (fun r => (hlike r).eq_iff rfl) ?_ hbook⟩
  · exact (h.wait hf).1.congr (fun r => ((hlike r).eq_iff rfl).mp) hw rfl
  · exact (h.wait hf).2.congr rfl rfl rfl fun e he => by rwa [hex]
  · grind

theorem alive_of_running (h : (s.pcb p).state = .running) : s.Alive p := by
  simp [State.Alive, h, PState.alive]

theorem not_alive_of_zombie (h : s.Zombie p) : ¬s.Alive p := by
  simp [State.Alive, show (s.pcb p).state = .zombie from h, PState.alive]

/-- `kexit`: the state becomes ZOMBIE. -/
theorem exit_guar (h : Family initproc s) (hl : s.lock (.proc p) = some c)
    (hw : s.lock .wait = some c) (hs : (s.pcb p).state = .running) :
    Guar initproc (.inr p) c none s (s.setState (some p) p .zombie) where
  __ := (Guar.refl : Guar initproc (.inr p) c none s s)
  switch := .inl rfl
  pcb := setState_pcb_guar hl
  parent hf := absurd hw hf
  zombie hf := absurd hw hf
  waiting hf := absurd hw hf
  heirs hf := absurd hw hf
  calm _ r := setState_waiting (by simp) r _
  exits e he := List.mem_append_left _ he
  own r hr har := by
    have hne : r ≠ p := fun he => hr (congrArg Sum.inr he.symm)
    refine ⟨by rw [State.Alive, setState_pcb_of_ne hne]; exact har,rfl,
      congrFun (setState_embryo h (alive_of_running hs)) r,rfl,by rw [setState_pcb_of_ne hne],
      fun _ _ => ⟨id,rfl⟩,fun r' hp hz => ⟨hp,?_⟩⟩
    by_cases hrp : r' = p
    · subst hrp
      simp [State.Zombie, State.setState_pcb]
    · rwa [State.Zombie, setState_pcb_of_ne hrp]
  fresh r hr har har' := by
    have hne : r ≠ p := fun he => hr (congrArg Sum.inr he.symm)
    rw [State.Alive, setState_pcb_of_ne hne] at har'
    exact absurd har' har

theorem exit_family (h : Family initproc s) (hs : (s.pcb p).state = .running)
    (hi : p ≠ initproc) (he : s.embryo p = none) (hh : s.hand p = none)
    (hc : ∀ q, s.parent q ≠ some p) : Family initproc (s.setState (some p) p .zombie) := by
  have hemb := h.embryo_ne (alive_of_running hs)
  have hw : ∀ r ch, (s.setState (some p) p .zombie).Waiting r ch → s.Waiting r ch :=
    setState_waiting (by simp)
  obtain ⟨init,parent_alive,has_parent,unused,embryo,embryo_inj,idle,kwait⟩ := h
  refine ⟨?_,?_,?_,?_,?_,?_,?_,fun hq => kwait (hw _ _ hq)⟩ <;>
    simp only [State.Alive, State.Zombie, State.setState, State.setPcb, update_apply] <;>
    grind

theorem exit_ledger (h : Ledger initproc s) (hs : (s.pcb p).state = .running) :
    Ledger initproc (s.setState (some p) p .zombie) := by
  -- the number of a process that runs has not been used by an exit
  have hnew : ∀ e ∈ s.exits, e.birth ≠ s.birth p := by
    intro e he heb
    have hz : s.Zombie p := h.exited (by rw [hs]; simp) ⟨e,he,heb⟩
    rw [State.Zombie, hs] at hz
    cases hz
  obtain ⟨born,birth_inj,exits_nodup,exits_born,exited,zombie,hand,hand_inj,hand_gone,
    returned_nodup,returned_gone,returned_hand,returned⟩ := h
  constructor <;> simp only [State.Zombie, State.Exited, State.MayReap, State.setState, State.setPcb,
    update_apply, if_true, List.map_append, List.nodup_append, List.mem_append,
    List.mem_singleton] <;> grind [State.Exited, State.MayReap]

theorem exit_inv (h : Inv initproc ready s) (hon : s.on c = some p)
    (hl : s.lock (.proc p) = some c) (hw : s.lock .wait = some c)
    (hs : (s.pcb p).state = .running) (hi : p ≠ initproc) (he : s.embryo p = none)
    (hh : s.hand p = none) (hc : ∀ q, s.parent q ≠ some p) :
    Inv initproc ready (s.setState (some p) p .zombie) where
  cpus := setState_cpus h.cpus hl (fun c' hc' => h.cpus.one hc' hon) fun _ => rfl
  family := exit_family h.family hs hi he hh hc
  wait hf := absurd (hw.symm.trans hf) (by simp)
  cond hf r hr := h.cond hf r (setState_waiting (by simp) _ _ hr)
  ledger := exit_ledger h.ledger hs

/-- `kfork`: the child becomes RUNNABLE. -/
abbrev forked (s : State n m δ) (p q : Fin n) : State n m δ := s.setState (some p) q .runnable

theorem forked_embryo_of_ne {r : Fin n} (h : r ≠ p) : (forked s p q).embryo r = s.embryo r :=
  if_neg fun hr => h (Option.some.inj hr.1).symm

theorem fork_guar (h : Family initproc s) (hl : s.lock (.proc q) = some c)
    (he : s.embryo p = some q) : Guar initproc (.inr p) c none s (forked s p q) := by
  have hused : (s.pcb q).state = .used := (h.embryo he).1
  have hpcb : ∀ r, r ≠ q → (forked s p q).pcb r = s.pcb r := fun r hr => setState_pcb_of_ne hr
  have hw : ∀ r ch, (forked s p q).Waiting r ch → s.Waiting r ch := setState_waiting (by simp)
  have hz : ∀ r, (forked s p q).Zombie r ↔ s.Zombie r := by
    intro r
    by_cases hr : r = q
    · subst hr
      simp [State.Zombie, State.setState_pcb, hused]
    · rw [State.Zombie, hpcb r hr, State.Zombie]
  have hne : ∀ r, s.Alive r → r ≠ q := by
    rintro r hr rfl
    simp [State.Alive, hused, PState.alive] at hr
  exact {
    (Guar.refl : Guar initproc (.inr p) c none s s) with
    switch := .inl rfl
    pcb := setState_pcb_guar hl
    zombie := fun _ r => (hz r).mp
    waiting := fun _ r r' => hw r _
    calm := fun _ r => hw r _
    own := by
      intro r hr har
      have hrp : r ≠ p := fun h => hr (congrArg Sum.inr h.symm)
      exact ⟨by rw [State.Alive, hpcb r (hne r har)]; exact har,rfl,forked_embryo_of_ne hrp,rfl,
        by rw [hpcb r (hne r har)],fun _ _ => ⟨id,rfl⟩,fun r' hp hzr => ⟨hp,(hz r').mpr hzr⟩⟩
    fresh := by
      intro r hr har _
      rw [forked_embryo_of_ne fun h => hr (congrArg Sum.inr h.symm)]
      exact h.idle har }

theorem fork_inv (h : Inv initproc ready s) (hl : s.lock (.proc q) = some c)
    (he : s.embryo p = some q) (hp : s.parent q = some p) (hst : s.stale q = false)
    (hx : ¬s.Executing q) : Inv initproc ready (forked s p q) := by
  have hused : (s.pcb q).state = .used := (h.family.embryo he).1
  have hw : ∀ r ch, (forked s p q).Waiting r ch → s.Waiting r ch := setState_waiting (by simp)
  have hz : ∀ r, (forked s p q).Zombie r ↔ s.Zombie r := by
    grind
  refine ⟨setState_cpus h.cpus hl (fun c' hc' => absurd ⟨c',hc'⟩ hx) (by simp [hst]),?_,
    fun hf => ⟨(h.wait hf).1.congr (fun r => (hz r).mp) hw rfl,(h.wait hf).2⟩,
    fun hf r hr => h.cond hf r (hw _ _ hr),h.ledger.congr (by grind) hz (by grind) rfl⟩
  obtain ⟨init,parent_alive,has_parent,unused,embryo,embryo_inj,idle,kwait⟩ := h.family
  refine ⟨?_,?_,?_,?_,?_,?_,?_,fun hq => kwait (hw _ _ hq)⟩ <;>
    simp only [State.Alive, State.Zombie, State.setState, State.setPcb, update_apply] <;>
    grind

end SetState

section Switch

/-- The scheduler switches to a process. -/
theorem swtchTo_guar (hon : s.on c = none) (hown : ∀ l, s.lock l = some c ↔ l = .proc q)
    (hs : (s.pcb q).state = .running) (hd : s.drowsy q = none) (hx : ¬s.Executing q) :
    Guar initproc (.inl c) c none s { s with on := update s.on c (some q) } where
  __ := (Guar.refl : Guar initproc (.inl c) c none s s)
  own _ _ ha := .same ha rfl rfl rfl
  on c' hc := update_of_ne hc ..
  switch := by
    refine .inr (.inl ⟨q,update_self ..,rfl,⟨c,update_self ..⟩,?_,hs,hd⟩)
    ext l
    rw [Set.mem_singleton_iff, ← hown]
    constructor
    · rintro ⟨c',hc',hl⟩
      by_cases hcc : c' = c
      · rwa [← hcc]
      · exact absurd ⟨c',(update_of_ne hcc ..).symm.trans hc'⟩ hx
    · exact fun hl => ⟨c,update_self ..,hl⟩
  pcb r hr := by
    refine ⟨rfl,rfl,?_⟩
    have hrq : r ≠ q := by
      rintro rfl
      exact hr ((hown _).mpr rfl)
    simp [hon, hrq.symm]

theorem swtchTo_inv (h : Inv initproc ready s) (hon : s.on c = none)
    (hl : s.lock (.proc q) = some c) (hs : (s.pcb q).state = .running) (hx : ¬s.Executing q)
    (hp : s.proc c = some q) :
    Inv initproc ready { s with on := update s.on c (some q) } where
  cpus := by
    obtain ⟨one,proc,free,away,awake,stale⟩ := h.cpus
    constructor <;> simp only [State.Settled, State.Executing, State.Alive, update_apply] <;>
      grind
  family := h.family.same rfl rfl rfl
  wait := h.wait
  cond := h.cond
  ledger := h.ledger.same rfl rfl

/-- The state after a process has switched to the scheduler. -/
abbrev switched (s : State n m δ) (c : Fin m) (p : Fin n) : State n m δ :=
  { s with
    on := update s.on c none
    stale := update s.stale p (decide ((s.pcb p).state = .zombie)) }

theorem switched_on {c' : Fin m} {r : Fin n} :
    (switched s c p).on c' = some r ↔ s.on c' = some r ∧ c' ≠ c := by
  simp only [update_apply]
  grind

theorem switched_stale {r : Fin n} (hr : r ≠ p) : (switched s c p).stale r = s.stale r :=
  update_of_ne hr ..

theorem swtch_guar (h : Inv initproc ready s) (hon : s.on c = some p)
    (hown : ∀ l, s.lock l = some c ↔ l = .proc p) (hs : (s.pcb p).state ≠ .running)
    (hd : s.drowsy p = none) : Guar initproc (.inr p) c none s (switched s c p) where
  __ := (Guar.refl : Guar initproc (.inr p) c none s s)
  on c' hc := update_of_ne hc ..
  switch := by
    refine .inr (.inr ⟨p,rfl,update_self ..,?_,?_,hs,hd,h.cpus.proc hon⟩)
    · ext l
      rw [Set.mem_singleton_iff, ← hown]
      constructor
      · rintro ⟨c',hc',hl⟩
        rwa [hc'.1]
      · exact fun hl => ⟨c,⟨rfl,update_self ..⟩,hl⟩
    · rintro ⟨c',hc'⟩
      obtain ⟨h1,h2⟩ := switched_on.mp hc'
      exact h2 (h.cpus.one h1 hon)
  pcb r hr := by
    have hrp : r ≠ p := by
      rintro rfl
      exact hr ((hown _).mpr rfl)
    refine ⟨rfl,rfl,?_⟩
    rw [switched_on, hon]
    simp [hrp.symm]
  own r _ har := by
    refine ⟨har,rfl,rfl,rfl,rfl,fun r' he => ⟨fun hst => ?_,rfl⟩,fun _ hp hz => ⟨hp,hz⟩⟩
    by_cases hrp : r' = p
    · subst hrp
      simp [(h.family.embryo he).1]
    · rwa [switched_stale hrp]
  stale r hr _ hst := by
    rwa [switched_stale fun he => hr (congrArg Sum.inr he.symm)]

theorem swtch_inv (h : Inv initproc ready s) (hon : s.on c = some p)
    (hl : s.lock (.proc p) = some c) (hd : s.drowsy p = none) :
    Inv initproc ready (switched s c p) where
  cpus := by
    obtain ⟨one,proc,free,away,awake,stale⟩ := h.cpus
    constructor <;> simp only [State.Settled, State.Executing, State.Alive, update_apply] <;>
      grind
  family := h.family.same rfl rfl rfl
  wait := h.wait
  cond := h.cond
  ledger := h.ledger.same rfl rfl

end Switch

end Xv6.Sched
