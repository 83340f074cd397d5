import Xv6.Sched.Code

/-! The system calls `kfork`, `kexit` and `kwait`, the use of the condition, and with them the
rules of `Threads` for the whole kernel. -/
namespace Xv6.Sched

open Threads List
open Function (update update_apply update_self)

variable {n m : ℕ} {δ α : Type} {initproc : Fin n} {ready : δ → Bool} {s s' u : State n m δ}
  {t : Thread n m} {c : Fin m} {p q : Fin n} {l : Lock n} {L : Set (Lock n)}
  {P : State n m δ → Prop}

/-! `kfork`. -/

/-- Process `p` is creating `q`, whose parent is `x` so far. -/
def Making (p q : Fin n) (x : Option (Fin n)) (s : State n m δ) : Prop :=
  s.Alive p ∧ s.hand p = none ∧ s.embryo p = some q ∧ s.parent q = x

theorem Kept.making {x : Option (Fin n)} :
    Kept (m := m) (δ := δ) initproc (.inr p) L (Making p q x) := by
  rintro s s' hs ⟨ha,hh,he,hp⟩
  have hown := hs.own p rfl ha
  exact ⟨hown.alive,hown.hand.trans hh,hown.embryo.trans he,(hown.child q he).2.trans hp⟩

/-- `q` has been given a context. -/
def Made (p q : Fin n) (x : Option (Fin n)) (s : State n m δ) : Prop :=
  Making p q x s ∧ s.stale q = false

theorem Kept.made {x : Option (Fin n)} :
    Kept (m := m) (δ := δ) initproc (.inr p) L (Made p q x) := by
  rintro s s' hs ⟨hm,hst⟩
  exact ⟨Kept.making s s' hs hm,((hs.own p rfl hm.1).child q hm.2.2.1).1 hst⟩

theorem Making.used {x : Option (Fin n)} (h : Making p q x s) (hi : Inv initproc ready s) :
    (s.pcb q).state = .used :=
  (hi.family.embryo h.2.2.1).1

theorem Making.ne {x : Option (Fin n)} (h : Making p q x s) (hi : Inv initproc ready s) :
    p ≠ q := by
  rintro rfl
  have ha := h.1
  simp [State.Alive, h.used hi, PState.alive] at ha

/-- A slot that is not RUNNING is executed nowhere. -/
theorem State.Settled.not_executing (h : s.Settled q) (hs : (s.pcb q).state ≠ .running) :
    ¬s.Executing q :=
  fun hx => hs (h.1.mp hx)

theorem settled_of_not_executing (hx : ¬s.Executing q) (hs : (s.pcb q).state ≠ .running)
    (hd : s.drowsy q = none) : s.Settled q :=
  ⟨⟨fun h => absurd h hx,fun h => absurd h hs⟩,hd⟩

theorem allocpid_rule (hP : Kept initproc t L P) (hl : .pid ∉ L) :
    Triple initproc ready t (Held t L P) allocpid fun _ => Held t L P := by
  have hP' : Kept initproc t (insert .pid L) fun s => P s ∧ Releasable initproc ready s .pid :=
    (hP.mono (Set.subset_insert ..)).and (.releasable (Set.mem_insert ..))
  refine (acquire_rule hP hl).bind steps fun _ => ?_
  refine Ensures.bind steps (held_read hP' (fun _ => hP') (fun _ _ _ => trivial) ?_) fun pid => ?_
  · rintro s c w a u - - - hp hact
    obtain ⟨-,rfl⟩ := Prod.mk.inj (Option.some.inj hact)
    exact ⟨rfl,hp⟩
  refine Ensures.bind steps (held_command hP' (fun _ => hP') (fun _ _ _ => trivial) ?_) fun _ => ?_
  · rintro s c w a u - hat hown hp hact -
    obtain ⟨-,rfl⟩ := Prod.mk.inj (Option.some.inj hact)
    have hseen : Seen initproc t L s { s with nextpid := pid+1 } :=
      { (Seen.refl : Seen initproc t L s s) with
        own := fun _ _ ha => .same ha rfl rfl rfl }
    exact ⟨hat,hown,hP s _ hseen hp.1,trivial⟩
  exact (release_rule hP hl).bind steps fun _ => .pure (held_stable hP) fun _ _ => id

theorem use_rule {pid : ℕ} :
    Triple (m := m) initproc ready (.inr p)
      (Held (.inr p) {.proc q} fun s => (Idle p s ∧ s.Settled q) ∧ (s.pcb q).state = .unused)
      (call (.use q pid))
      fun _ => Held (.inr p) {.proc q} fun s => Making p q none s ∧ s.Settled q := by
  have hmem : Lock.proc q ∈ ({.proc q} : Set (Lock n)) := rfl
  refine held_command ((Kept.idle.and (.settled hmem)).and (.pcb (·.state = .unused) hmem))
    (fun _ => Kept.making.and (.settled hmem)) ?_ ?_
  · rintro s - ⟨-,hown,⟨hidle,hset⟩,hs⟩
    exact ⟨by rw [hown]; rfl,hs,hset.not_executing (by rw [hs]; simp),p,rfl,hidle.2.1,hidle.1⟩
  · rintro s c w a u hi hat hown ⟨⟨⟨ha,he,hh⟩,hset⟩,hs⟩ hact -
    obtain ⟨-,rfl⟩ := Prod.mk.inj (Option.some.inj hact)
    have hpq : p ≠ q := by
      rintro rfl
      simp [State.Alive, hs, PState.alive] at ha
    refine ⟨hat,hown,⟨?_,hh,update_self ..,hi.family.unused hs⟩,
      settled_of_not_executing (hset.not_executing (by rw [hs]; simp)) ?_ hset.2⟩
    · rw [State.Alive, use_pcb, if_neg hpq]
      exact ha
    · rw [use_pcb, if_pos rfl]
      simp

/-- Give the slot up again. -/
theorem abort_rule :
    Triple (m := m) initproc ready (.inr p)
      (Held (.inr p) {.proc q} fun s => Making p q none s ∧ s.Settled q) (call (.freeproc q))
      fun _ => Held (.inr p) {.proc q} fun s => Idle p s ∧ s.Settled q := by
  have hmem : Lock.proc q ∈ ({.proc q} : Set (Lock n)) := rfl
  refine held_command (Kept.making.and (.settled hmem)) (fun _ => Kept.idle.and (.settled hmem)) ?_ ?_
  · rintro s hi ⟨-,hown,hm,hset⟩
    exact ⟨by rw [hown]; rfl,hset.not_executing (by rw [hm.used hi]; simp),p,rfl,
      .abort hm.2.2.1 hm.2.2.2⟩
  · rintro s c w a u hi hat hown ⟨hm,hset⟩ hact -
    obtain ⟨-,rfl⟩ := Prod.mk.inj (Option.some.inj hact)
    have hused := hm.used hi
    refine ⟨hat,hown,⟨(freeproc_alive p).mpr ⟨hm.ne hi,hm.1⟩,if_pos ⟨rfl,hm.2.2.1⟩,?_⟩,
      settled_of_not_executing (hset.not_executing (by rw [hused]; simp)) ?_ hset.2⟩
    · simp only [State.freeproc, hused, reduceCtorEq, if_false]
      exact hm.2.1
    · rw [freeproc_pcb, if_pos rfl]
      simp

theorem setContext_rule :
    Triple (m := m) initproc ready (.inr p)
      (Held (.inr p) {.proc q} fun s => Making p q none s ∧ s.Settled q) (call (.setContext q))
      fun _ => Held (.inr p) {.proc q} fun s => Made p q none s ∧ s.Settled q := by
  have hmem : Lock.proc q ∈ ({.proc q} : Set (Lock n)) := rfl
  refine held_command (Kept.making.and (.settled hmem)) (fun _ => Kept.made.and (.settled hmem)) ?_ ?_
  · rintro s hi ⟨-,hown,hm,hset⟩
    exact ⟨by rw [hown]; rfl,hset.not_executing (by rw [hm.used hi]; simp),p,rfl,hm.2.2.1⟩
  · rintro s c w a u hi hat hown ⟨hm,hset⟩ hact -
    obtain ⟨-,rfl⟩ := Prod.mk.inj (Option.some.inj hact)
    exact ⟨hat,hown,⟨hm,update_self ..⟩,hset⟩

/-- What `allocproc` returns. -/
def Allocated (p : Fin n) : Option (Fin n) → State n m δ → Prop
  | none => Held (.inr p) ∅ (Idle p)
  | some q => Held (.inr p) {.proc q} fun s => Made p q none s ∧ s.Settled q

theorem found_rule :
    Triple (m := m) initproc ready (.inr p)
      (Held (.inr p) {.proc q} fun s => (Idle p s ∧ s.Settled q) ∧ (s.pcb q).state = .unused)
      (found q) (Allocated p) := by
  have hmem : Lock.proc q ∈ ({.proc q} : Set (Lock n)) := rfl
  have hfail : Triple (m := m) initproc ready (.inr p)
      (Held (.inr p) {.proc q} fun s => Making p q none s ∧ s.Settled q)
      (do
        call (.freeproc q)
        call (.release (.proc q))
        pure none) (Allocated p) := by
    refine abort_rule.bind steps fun _ => (release_last .idle).bind steps fun _ => ?_
    exact .pure (held_stable .idle) fun _ _ => id
  refine Ensures.bind steps (allocpid_rule ((Kept.idle.and (.settled hmem)).and
    (.pcb (·.state = .unused) hmem)) (by simp)) fun pid => ?_
  refine use_rule.bind steps fun _ => ?_
  refine (fails_rule (Kept.making.and (.settled hmem))).bind steps fun failed => ?_
  split
  · exact hfail
  refine (fails_rule (Kept.making.and (.settled hmem))).bind steps fun failed => ?_
  split
  · exact hfail
  refine setContext_rule.bind steps fun _ => ?_
  exact .pure (held_stable (Kept.made.and (.settled hmem))) fun _ _ => id

theorem allocFrom_rule (qs : List (Fin n)) :
    Triple (m := m) initproc ready (.inr p) (Held (.inr p) ∅ (Idle p)) (allocFrom qs)
      (Allocated p) := by
  induction qs with
  | nil => exact .pure (held_stable .idle) fun _ _ => id
  | cons q qs ih =>
    have hmem : Lock.proc q ∈ ({.proc q} : Set (Lock n)) := rfl
    refine (acquire_first .idle).bind steps fun _ => ?_
    refine (pcb_rule (Kept.idle.and (.releasable hmem)) hmem).bind steps fun b => ?_
    split
    · rename_i hb
      exact Ensures.weaken found_rule fun s _ h => ⟨h.2.2.1,by rw [h.2.2.2]; exact hb⟩
    · exact (Ensures.weaken (release_last .idle) fun s _ h => h.2.2.1).bind steps fun _ => ih

/-- A process that executes without its lock sleeps on nothing. -/
theorem not_waiting_of_not_owns (hi : Inv initproc ready s) (hx : s.Executing p)
    (hl : .proc p ∉ s.owns (.inr p)) (ch : Chan n) : ¬s.Waiting p ch := by
  obtain ⟨hs,hd⟩ := running_of_not_owns hi hx hl
  rintro (hw | ⟨hw,-⟩)
  · exact absurd (hd.symm.trans hw) (by simp)
  · exact absurd (hs.symm.trans hw) (by simp)

/-- Only who gets a child or loses one may have to be woken. -/
theorem contented_setParent {r r' : Fin n} (h : s.Contented r) (hne : r ≠ r')
    (hp : s.parent q ≠ some r) :
    ({ s with parent := update s.parent q (some r') } : State n m δ).Contented r := by
  have heq : ∀ q', update s.parent q (some r') q' = some r ↔ s.parent q' = some r := by
    intro q'
    rw [update_apply]
    grind
  intro hw
  obtain ⟨⟨q',hq'⟩,hz⟩ := h hw
  exact ⟨⟨q',(heq q').mpr hq'⟩,fun q'' hq'' => hz q'' ((heq q'').mp hq'')⟩

theorem setParent_rule :
    Triple (m := m) initproc ready (.inr p)
      (Held (.inr p) {.wait} fun s => Made p q none s ∧ Releasable initproc ready s .wait)
      (call (.setParent q p))
      fun _ => Held (.inr p) {.wait} fun s => Made p q (some p) s ∧
        Releasable initproc ready s .wait := by
  have hmem : Lock.wait ∈ ({.wait} : Set (Lock n)) := rfl
  refine held_command (Kept.made.and (.releasable hmem)) (fun _ => Kept.made.and (.releasable hmem))
    ?_ ?_
  · rintro s - ⟨-,hown,⟨hm,-⟩,-⟩
    exact ⟨by rw [hown]; rfl,p,rfl,.fork hm.2.2.1 hm.2.2.2⟩
  · rintro s c w a u hi hat hown ⟨⟨⟨ha,hh,he,hp⟩,hst⟩,hpat,hheirs⟩ hact -
    obtain ⟨-,rfl⟩ := Prod.mk.inj (Option.some.inj hact)
    refine ⟨hat,hown,⟨⟨ha,hh,he,update_self ..⟩,hst⟩,fun r => ?_,fun r r' hr => ?_⟩
    · by_cases hrp : r = p
      · subst hrp
        intro hw
        exact absurd hw (not_waiting_of_not_owns hi ⟨c,hat⟩ (by simp [hown]) _)
      · exact contented_setParent (hpat r) hrp (by simp [hp])
    · simp only [update_apply] at hr
      split at hr
      · rename_i hrq
        obtain rfl := Option.some.inj hr
        subst hrq
        exact .inl (hi.family.embryo he).2.2
      · exact hheirs r r' hr

theorem born_rule :
    Triple (m := m) initproc ready (.inr p)
      (Held (.inr p) {.proc q} fun s => Made p q (some p) s ∧ s.Settled q)
      (call (.setState q .runnable))
      fun _ => Held (.inr p) {.proc q} fun s => Idle p s ∧ s.Settled q := by
  have hmem : Lock.proc q ∈ ({.proc q} : Set (Lock n)) := rfl
  refine held_command (Kept.made.and (.settled hmem)) (fun _ => Kept.idle.and (.settled hmem)) ?_ ?_
  · rintro s hi ⟨-,hown,⟨hm,hst⟩,hset⟩
    exact ⟨by rw [hown]; rfl,
      .fork hm.2.2.1 hm.2.2.2 hst (hset.not_executing (by rw [hm.used hi]; simp))⟩
  · rintro s c w a u hi hat hown ⟨⟨hm,hst⟩,hset⟩ hact -
    obtain ⟨-,rfl⟩ := Prod.mk.inj (Option.some.inj hact)
    refine ⟨hat,hown,⟨?_,if_pos ⟨rfl,hm.2.2.1⟩,hm.2.1⟩,settled_of_not_executing
      (hset.not_executing (by rw [hm.used hi]; simp)) ?_ (update_self ..)⟩
    · rw [State.Alive, setState_pcb_of_ne (hm.ne hi)]
      exact hm.1
    · simp [State.setState_pcb]

theorem kfork_rule :
    Triple (m := m) initproc ready (.inr p) (Held (.inr p) ∅ (Idle p)) (kfork p)
      fun _ => Held (.inr p) ∅ (Idle p) := by
  refine (allocFrom_rule (slots n)).bind steps fun np => ?_
  cases np with
  | none => exact .pure (held_stable .idle) fun _ _ => id
  | some q =>
    have hmem : Lock.proc q ∈ ({.proc q} : Set (Lock n)) := rfl
    refine (fails_rule (Kept.made.and (.settled hmem))).bind steps fun failed => ?_
    split
    · refine (Ensures.weaken abort_rule fun s _ h => ⟨h.2.2.1.1,h.2.2.2⟩).bind steps fun _ => ?_
      refine (release_last .idle).bind steps fun _ => ?_
      exact .pure (held_stable .idle) fun _ _ => id
    refine (pcb_rule (Kept.made.and (.settled hmem)) hmem).bind steps fun b => ?_
    refine (Ensures.weaken (release_last .made) fun s _ h => h.2.2.1).bind steps fun _ => ?_
    refine (acquire_first .made).bind steps fun _ => ?_
    refine setParent_rule.bind steps fun _ => ?_
    refine (release_last .made).bind steps fun _ => ?_
    refine (acquire_first .made).bind steps fun _ => ?_
    refine born_rule.bind steps fun _ => ?_
    refine (release_last .idle).bind steps fun _ => ?_
    exact .pure (held_stable .idle) fun _ _ => id

/-! `kexit`. -/

/-- Process `p`, with number `b`, is in `kexit`; its children are being given to `initproc`. -/
def Exiting (initproc p : Fin n) (b : ℕ) (s : State n m δ) : Prop :=
  Idle p s ∧ s.birth p = b ∧ s.Heirs initproc (some (p,b))

theorem Kept.exiting {b : ℕ} (hl : .wait ∈ L) :
    Kept (m := m) (δ := δ) initproc (.inr p) L (Exiting initproc p b) := by
  rintro s s' hs ⟨hi,hb,hh⟩
  exact ⟨Kept.idle s s' hs hi,(hs.own p rfl hi.1).birth.trans hb,hs.heirs hl _ hh⟩

theorem Kept.contented (hl : .wait ∈ L) :
    Kept (m := m) (δ := δ) initproc t L fun s => s.Contented q :=
  fun _ _ hs => hs.contented hl

theorem Kept.notParent (hl : .wait ∈ L) (a : Option (Fin n)) :
    Kept (m := m) (δ := δ) initproc t L fun s => s.parent q ≠ a := by
  intro s s' hs h
  rwa [hs.parent hl q]

/-- Where `reparent` is: the slots in `done` have been dealt with. -/
def Bereft (initproc p : Fin n) (b : ℕ) (done : List (Fin n)) (s : State n m δ) : Prop :=
  Exiting initproc p b s ∧ s.Patient ∧ ∀ q ∈ done, s.parent q ≠ some p

theorem Kept.bereft {b : ℕ} {done : List (Fin n)} (hl : .wait ∈ L) :
    Kept (m := m) (δ := δ) initproc (.inr p) L (Bereft initproc p b done) :=
  (Kept.exiting hl).and ((Kept.all fun _ => .contented hl).and
    (.all fun _ => .imp fun _ => .notParent hl _))

/-- `initproc` has been given a child and not yet been woken. -/
def Given (initproc p : Fin n) (b : ℕ) (done : List (Fin n)) (s : State n m δ) : Prop :=
  Exiting initproc p b s ∧ (∀ r, r ≠ initproc → s.Contented r) ∧ ∀ q ∈ done, s.parent q ≠ some p

theorem Kept.given {b : ℕ} {done : List (Fin n)} (hl : .wait ∈ L) :
    Kept (m := m) (δ := δ) initproc (.inr p) L (Given initproc p b done) :=
  (Kept.exiting hl).and ((Kept.all fun _ => .imp fun _ => .contented hl).and
    (.all fun _ => .imp fun _ => .notParent hl _))

theorem give_rule {b : ℕ} {done : List (Fin n)} (hp : p ≠ initproc) :
    Triple (m := m) initproc ready (.inr p)
      (Held (.inr p) {.wait} fun s => Bereft initproc p b done s ∧ s.parent q = some p)
      (call (.setParent q initproc))
      fun _ => Held (.inr p) {.wait} (Given initproc p b (done++[q])) := by
  have hmem : Lock.wait ∈ ({.wait} : Set (Lock n)) := rfl
  refine held_command ((Kept.bereft hmem).and (.parent hmem _)) (fun _ => .given hmem) ?_ ?_
  · rintro s - ⟨-,hown,⟨⟨hidle,-⟩,-⟩,hq⟩
    exact ⟨by rw [hown]; rfl,p,rfl,.reparent hq hidle.2.1⟩
  · rintro s c w a u hi hat hown ⟨⟨⟨hidle,hb,hh⟩,hpat,hdone⟩,hq⟩ hact -
    obtain ⟨-,rfl⟩ := Prod.mk.inj (Option.some.inj hact)
    refine ⟨hat,hown,⟨hidle,hb,fun r r' hr => ?_⟩,fun r hr => ?_,fun r hr => ?_⟩
    · simp only [update_apply] at hr
      split at hr
      · rename_i hrq
        obtain rfl := Option.some.inj hr
        rw [hrq]
        rcases hh q p hq with h | ⟨h,-⟩
        · exact .inr ⟨rfl,.inr (by rw [h, hb])⟩
        · exact absurd h hp
      · exact hh r r' hr
    · by_cases hrp : r = p
      · subst hrp
        intro hw
        exact absurd hw (not_waiting_of_not_owns hi ⟨c,hat⟩ (by simp [hown]) _)
      · refine contented_setParent (hpat r) hr ?_
        rw [hq]
        exact fun h => hrp (Option.some.inj h).symm
    · simp only [update_apply]
      split
      · exact fun h => hp (Option.some.inj h).symm
      · rename_i hrq
        refine hdone r ((mem_append.mp hr).resolve_right fun h => hrq ?_)
        exact mem_singleton.mp h

theorem handOver_rule {b : ℕ} {done : List (Fin n)} (hp : p ≠ initproc) (q : Fin n) :
    Triple (m := m) initproc ready (.inr p) (Held (.inr p) {.wait} (Bereft initproc p b done))
      (handOver initproc p q)
      fun _ => Held (.inr p) {.wait} (Bereft initproc p b (done++[q])) := by
  have hmem : Lock.wait ∈ ({.wait} : Set (Lock n)) := rfl
  refine (parentOf_rule (.bereft hmem) hmem).bind steps fun r => ?_
  split
  · rename_i hr
    subst hr
    refine (give_rule hp).bind steps fun _ => ?_
    refine (wakeup_rule (.given hmem) (by simp) (by simp) ?_).mono (fun _ _ => id) ?_
    · rintro ch' h
      obtain rfl := Option.some.inj h
      exact hmem
    · rintro _ s - h
      refine h.imp fun h => ⟨h.1.1,fun r => ?_,h.1.2.2⟩
      by_cases hr : r = initproc
      · subst hr
        exact fun hw => absurd hw (h.2 r _ rfl)
      · exact h.1.2.1 r hr
  · rename_i hr
    refine .pure (held_stable ((Kept.bereft hmem).and (.parent hmem _))) ?_
    rintro s - h
    refine h.imp fun h => ⟨h.1.1,h.1.2.1,fun q' hq' => ?_⟩
    rcases mem_append.mp hq' with hq' | hq'
    · exact h.1.2.2 q' hq'
    · rw [mem_singleton.mp hq', h.2]
      exact hr

theorem reparent_rule {b : ℕ} (hp : p ≠ initproc) :
    Triple (m := m) initproc ready (.inr p) (Held (.inr p) {.wait} (Bereft initproc p b []))
      (reparent initproc p)
      fun _ => Held (.inr p) {.wait} (Bereft initproc p b (slots n)) :=
  Ensures.forM (P := fun done => Held (.inr p) {.wait} (Bereft initproc p b done)) steps
    (fun _ => held_stable (.bereft (Set.mem_singleton _))) (fun _ q => handOver_rule hp q)
    (slots n) []

/-- The parent has been woken; nothing is left but to become a ZOMBIE. -/
def Orphaned (initproc p : Fin n) (b : ℕ) (s : State n m δ) : Prop :=
  Bereft initproc p b (slots n) s ∧ ∀ r, s.parent p = some r → ¬s.Waiting r (.proc r)

theorem Kept.orphaned {b : ℕ} (hl : .wait ∈ L) :
    Kept (m := m) (δ := δ) initproc (.inr p) L (Orphaned initproc p b) := by
  refine (Kept.bereft hl).and fun s s' hs h r hr => ?_
  rw [hs.parent hl] at hr
  exact fun hw => h r hr (hs.waiting hl r r hw)

theorem zombie_rule {b : ℕ} (hp : p ≠ initproc) :
    Triple (m := m) initproc ready (.inr p)
      (Held (.inr p) (insert (.proc p) {.wait}) fun s => Orphaned initproc p b s ∧ s.Settled p)
      (call (.setState p .zombie))
      fun _ => Held (.inr p) (insert .wait {.proc p}) fun s =>
        (s.Zombie p ∧ s.drowsy p = none) ∧ Releasable initproc ready s .wait := by
  have hmem : Lock.wait ∈ insert (Lock.proc p) ({.wait} : Set (Lock n)) := .inr rfl
  have hown' : Lock.proc p ∈ insert Lock.wait ({.proc p} : Set (Lock n)) := .inr rfl
  refine held_command ((Kept.orphaned hmem).and settled_kept)
    (fun _ => ((Kept.pcb (·.state = .zombie) hown').and (.drowsy hown')).and
      (.releasable (Set.mem_insert ..))) ?_ ?_
  · rintro s - ⟨hx,hown,⟨⟨⟨hidle,-⟩,-,hdone⟩,-⟩,hset⟩
    exact ⟨by rw [hown]; exact .inl rfl,.exit (hset.1.mp hx) hset.2 (by rw [hown]; exact hmem) hp
      hidle.2.1 hidle.2.2 fun q => hdone q (by simp [slots])⟩
  · rintro s c w a u hi hat hown ⟨⟨⟨⟨hidle,hb,hh⟩,hpat,hdone⟩,hwake⟩,hset⟩ hact -
    obtain ⟨-,rfl⟩ := Prod.mk.inj (Option.some.inj hact)
    have hzp : (s.setState (some p) p .zombie).Zombie p := by
      simp [State.Zombie, State.setState_pcb]
    have hex : (s.setState (some p) p .zombie).Exited b :=
      ⟨⟨s.birth p,(s.pcb p).pid,(s.pcb p).xstate⟩,by simp [State.setState],hb⟩
    refine ⟨hat,hown.trans (Set.pair_comm ..),⟨hzp,update_self ..⟩,fun r hw => ?_,
      fun q r hq => ?_⟩
    · have hw' := setState_waiting (by simp) _ _ hw
      obtain ⟨hk,hz⟩ := hpat r hw'
      refine ⟨hk,fun q hq hzq => ?_⟩
      by_cases hqp : q = p
      · subst hqp
        exact hwake r hq hw'
      · rw [State.Zombie, setState_pcb_of_ne hqp] at hzq
        exact hz q hq hzq
    · rcases hh q r hq with h | ⟨hr,⟨e,he,heb⟩ | h⟩
      · exact .inl h
      · exact .inr ⟨hr,.inl ⟨e,by simp [State.setState, he],heb⟩⟩
      · refine .inr ⟨hr,.inl ?_⟩
        rw [show (s.setState (self (.inr p : Thread n m)) p .zombie).creator
          ((s.setState (self (.inr p : Thread n m)) p .zombie).birth q) = (p,b) from
          Option.some.inj h]
        exact hex

/-- After the last `swtch` a process never runs again. -/
theorem gone_stable : Stable (logic (m := m) initproc ready) (.inr p)
    fun s : State n m δ => s.stale p = true ∧ ¬s.Executing p :=
  fun _ _ _ _ h hv => (hv.2 h.2).2.1 h.1

theorem die_rule :
    Triple (m := m) initproc ready (.inr p)
      (Held (.inr p) {.proc p} fun s => s.Zombie p ∧ s.drowsy p = none)
      (call .swtch) fun _ s => s.stale p = true ∧ ¬s.Executing p := by
  have hmem : Lock.proc p ∈ ({.proc p} : Set (Lock n)) := rfl
  refine Ensures.command steps
    (held_stable ((Kept.pcb (·.state = .zombie) hmem).and (.drowsy hmem))) (fun _ => gone_stable)
    ?_ ?_
  · rintro s - ⟨-,hown,hz,hd⟩ -
    refine ⟨p,rfl,hown,?_,hd⟩
    rw [show (s.pcb p).state = .zombie from hz]
    simp
  · rintro s w a u hi ⟨-,hown,hz,-⟩ he -
    obtain ⟨c,hat,hact⟩ := exec_cases he
    obtain ⟨-,rfl⟩ := Prod.mk.inj (Option.some.inj hact)
    refine ⟨by simp [show (s.pcb p).state = .zombie from hz],?_⟩
    rintro ⟨c',hc'⟩
    obtain ⟨h1,h2⟩ := switched_on.mp hc'
    exact h2 (hi.cpus.one h1 hat)

theorem xstate_rule {b : ℕ} {x : ℤ} :
    Triple (m := m) initproc ready (.inr p)
      (Held (.inr p) (insert (.proc p) {.wait}) fun s => Orphaned initproc p b s ∧ s.Settled p)
      (call (.setXstate p x))
      fun _ => Held (.inr p) (insert (.proc p) {.wait}) fun s =>
        Orphaned initproc p b s ∧ s.Settled p := by
  have hmem : Lock.wait ∈ ({.wait} : Set (Lock n)) := rfl
  have hkept : Kept (m := m) (δ := δ) initproc (.inr p) (insert (.proc p) {.wait})
      fun s => Orphaned initproc p b s ∧ s.Settled p :=
    ((Kept.orphaned hmem).mono (Set.subset_insert ..)).and settled_kept
  refine held_command hkept (fun _ => hkept) ?_ ?_
  · rintro s - ⟨hx,hown,-,hset⟩
    exact ⟨rfl,by rw [hown]; exact .inl rfl,hset.1.mp hx⟩
  · rintro s c w a u - hat hown ⟨ho,hset⟩ hact -
    obtain ⟨-,rfl⟩ := Prod.mk.inj (Option.some.inj hact)
    refine ⟨hat,hown,Kept.orphaned hmem s _ (touch_seen (by simp) rfl rfl) ho,?_⟩
    exact ⟨by rw [State.setPcb_pcb, if_pos rfl]; exact hset.1,hset.2⟩

/-- The end of `kexit`. -/
theorem vanish_rule {F : α → State n m δ → Prop} :
    Triple (m := m) initproc ready (.inr p)
      (Held (.inr p) (insert .wait {.proc p}) fun s =>
        (s.Zombie p ∧ s.drowsy p = none) ∧ Releasable initproc ready s .wait)
      (do
        call (.release .wait)
        sched p
        panic .zombieExit) F := by
  have hself : Lock.proc p ∈ ({.proc p} : Set (Lock n)) := rfl
  have hz : Kept (m := m) (δ := δ) initproc (.inr p) {.proc p}
      fun s => s.Zombie p ∧ s.drowsy p = none :=
    (Kept.pcb (·.state = .zombie) hself).and (.drowsy hself)
  refine (release_rule hz (by simp)).bind steps fun _ => ?_
  refine (sched_rule hz (fun s h => ?_) die_rule).bind steps fun _ => ?_
  · rw [show (s.pcb p).state = .zombie from h.1]
    simp
  refine panic_rule fun s s' _ h _ hv hr => ?_
  exact absurd hr ((hv.2 h.2).2.1 h.1).2

theorem kexit_rule {status : ℤ} {F : α → State n m δ → Prop} :
    Triple (m := m) initproc ready (.inr p) (Held (.inr p) ∅ (Idle p))
      (kexit initproc p status) F := by
  unfold kexit
  split
  · exact panic_rule fun _ _ _ _ _ _ _ => rfl
  rename_i hp
  have hmem : Lock.wait ∈ ({.wait} : Set (Lock n)) := rfl
  refine (acquire_first .idle).bind steps fun _ => ?_
  refine Ensures.name (fun s => s.birth p) fun b => ?_
  refine Ensures.bind steps ((reparent_rule (b := b) hp).mono ?_ fun _ _ _ => id) fun _ => ?_
  · rintro s - ⟨h,hb⟩
    refine h.imp fun h => ⟨⟨h.1,hb,fun q r hq => ?_⟩,h.2.1,by simp⟩
    exact (h.2.2 q r hq).imp_right fun h => ⟨h.1,.inl (h.2.resolve_right (by simp))⟩
  refine (parentOf_rule (.bereft hmem) hmem).bind steps fun r => ?_
  refine (wakeup_rule ((Kept.bereft hmem).and (.parent hmem _)) (by simp) (by simp) ?_).bind steps
    fun _ => ?_
  · intro ch' h
    obtain ⟨r',-,rfl⟩ := Option.map_eq_some_iff.mp h
    exact hmem
  refine Ensures.bind steps (Ensures.weaken
    (acquire_rule (Kept.orphaned (b := b) hmem) (by simp)) ?_) fun _ => ?_
  · rintro s - ⟨-,-,⟨hb,hr⟩,hw⟩
    refine ⟨hb,fun r' hr' => hw r' _ ?_⟩
    rw [← hr, hr', Option.map_some]
  refine xstate_rule.bind steps fun _ => ?_
  exact (zombie_rule hp).bind steps fun _ => vanish_rule

/-! `kwait`. -/

/-- Where the scan of the table is. -/
def Scanning (initproc p : Fin n) (havekids : Bool) (done : List (Fin n)) (s : State n m δ) :
    Prop :=
  Idle p s ∧ (s.Patient ∧ s.Heirs initproc none) ∧ (havekids = true → ∃ q, s.parent q = some p) ∧
    ∀ q ∈ done, s.parent q = some p → ¬s.Zombie q

theorem Kept.scanning {havekids : Bool} {done : List (Fin n)} (hl : .wait ∈ L) :
    Kept (m := m) (δ := δ) initproc (.inr p) L (Scanning initproc p havekids done) := by
  rintro s s' hs ⟨hi,hr,hk,hz⟩
  refine ⟨Kept.idle s s' hs hi,⟨hs.patient hl hr.1,hs.heirs hl _ hr.2⟩,fun h => ?_,
    fun q hq hp hzq => ?_⟩
  · obtain ⟨q,hq⟩ := hk h
    exact ⟨q,(hs.parent hl q).trans hq⟩
  · exact hz q hq ((hs.parent hl q).symm.trans hp) (hs.zombie hl q hzq)

/-- A child has been freed, and its pid and status are to be returned. -/
def Reaping (p : Fin n) (pid : ℕ) (x : ℤ) (s : State n m δ) : Prop :=
  s.Alive p ∧ s.embryo p = none ∧ ∃ b, s.hand p = some b ∧ ⟨b,pid,x⟩ ∈ s.exits

theorem Kept.reaping {pid : ℕ} {x : ℤ} :
    Kept (m := m) (δ := δ) initproc (.inr p) L (Reaping p pid x) := by
  rintro s s' hs ⟨ha,he,b,hb,hx⟩
  have hown := hs.own p rfl ha
  exact ⟨hown.alive,hown.embryo.trans he,b,hown.hand.trans hb,hs.exits _ hx⟩

/-- A ZOMBIE child. -/
def Waitable (p q : Fin n) (s : State n m δ) : Prop :=
  Idle p s ∧ s.parent q = some p ∧ s.Zombie q

theorem Kept.waitable : Kept (m := m) (δ := δ) initproc (.inr p) L (Waitable p q) := by
  rintro s s' hs ⟨hi,hp,hz⟩
  exact ⟨Kept.idle s s' hs hi,(hs.own p rfl hi.1).zombie q hp hz⟩

/-- What the scan ends with. -/
def Scanned (initproc p : Fin n) : WaitResult n ⊕ Bool → State n m δ → Prop
  | .inl (.reaped pid status) => Held (.inr p) ∅ fun s => ∃ x, Reaping p pid x s ∧
      ∀ y ∈ status, y = x
  | .inl (.copyFailed q) => Held (.inr p) ∅ (Waitable p q)
  | .inl .noChild => fun _ => False
  | .inr havekids => Held (.inr p) {.wait} (Scanning initproc p havekids (slots n))

theorem reap_rule {havekids : Bool} {done : List (Fin n)} {b : Pcb n} (hb : b.state = .zombie) :
    Triple (m := m) initproc ready (.inr p)
      (Held (.inr p) (insert (.proc q) {.wait}) fun s =>
        ((Scanning initproc p havekids done s ∧ s.parent q = some p) ∧ s.Settled q) ∧ s.pcb q = b)
      (call (.freeproc q))
      fun _ => Held (.inr p) (insert (.proc q) {.wait}) fun s =>
        (Reaping p b.pid b.xstate s ∧ Releasable initproc ready s .wait) ∧ s.Settled q := by
  have hmem : Lock.wait ∈ insert (Lock.proc q) ({.wait} : Set (Lock n)) := .inr rfl
  have hq : Lock.proc q ∈ insert (Lock.proc q) ({.wait} : Set (Lock n)) := .inl rfl
  refine held_command ((((Kept.scanning hmem).and (.parent hmem _)).and (.settled hq)).and
    (.pcb (· = b) hq)) (fun _ => (Kept.reaping.and (.releasable hmem)).and (.settled hq)) ?_ ?_
  · rintro s hi ⟨-,hown,⟨⟨⟨hidle,hr,-⟩,hp⟩,hset⟩,rfl⟩
    refine ⟨by rw [hown]; exact hq,hset.not_executing (by rw [hb]; simp),p,rfl,
      .reap hb hp (by rw [hown]; exact hmem) hidle.2.2 ?_⟩
    exact (hr.2 q p hp).imp_right fun h => ⟨h.1,h.2.resolve_right (by simp)⟩
  · rintro s c w a u hi hat hown ⟨⟨⟨⟨⟨ha,he,hh⟩,hr,-⟩,hp⟩,hset⟩,rfl⟩ hact -
    obtain ⟨-,rfl⟩ := Prod.mk.inj (Option.some.inj hact)
    have hpq : p ≠ q := by
      rintro rfl
      exact not_alive_of_zombie hb ha
    refine ⟨hat,hown,⟨⟨(freeproc_alive p).mpr ⟨hpq,ha⟩,?_,s.birth q,?_,hi.ledger.zombie hb⟩,
      fun r hw => ?_,freeproc_heirs hr.2⟩,settled_of_not_executing
        (hset.not_executing (by rw [hb]; simp)) ?_ hset.2⟩
    · exact (if_neg (by simp [he])).trans he
    · simp [State.freeproc, hb]
    · have hrp : r ≠ p := by
        rintro rfl
        refine not_waiting_of_not_owns hi ⟨c,hat⟩ ?_ _ (freeproc_waiting _ _ hw)
        rw [hown]
        simp [hpq]
      obtain ⟨⟨q',hq'⟩,hz⟩ := hr.1 r (freeproc_waiting _ _ hw)
      refine ⟨⟨q',?_⟩,fun q'' hq'' hzq => ?_⟩
      · rw [freeproc_parent, if_neg]
        · exact hq'
        · rintro rfl
          exact hrp (Option.some.inj (hq'.symm.trans hp))
      · exact hz q'' (freeproc_parent_some hq'') ((freeproc_zombie q'').mp hzq).2
    · rw [freeproc_pcb, if_pos rfl]
      simp

/-- What is done with a ZOMBIE child. -/
theorem collect_rule {havekids : Bool} {done : List (Fin n)} {b : Pcb n}
    {status : Option ℤ} (failed : Bool) (hb : b.state = .zombie) (hstatus : ∀ y ∈ status, y = b.xstate) :
    Triple (m := m) initproc ready (.inr p)
      (Held (.inr p) (insert (.proc q) {.wait}) fun s =>
        ((Scanning initproc p havekids done s ∧ s.parent q = some p) ∧ s.Settled q) ∧ s.pcb q = b)
      (if failed then do
        call (.release (.proc q))
        call (.release .wait)
        pure (.inl (.copyFailed q))
      else do
        call (.freeproc q)
        call (.release (.proc q))
        call (.release .wait)
        pure (.inl (.reaped b.pid status)))
      (Scanned initproc p) := by
  have hmem : Lock.wait ∈ ({.wait} : Set (Lock n)) := rfl
  have hwait : Kept (m := m) (δ := δ) initproc (.inr p) {.wait}
      fun s => Waitable p q s ∧ Releasable initproc ready s .wait :=
    Kept.waitable.and (.releasable hmem)
  split
  · refine Ensures.bind steps (Ensures.weaken (release_rule hwait (by simp)) ?_) fun _ => ?_
    · rintro s - ⟨-,-,⟨⟨⟨hidle,hr,-⟩,hp⟩,hset⟩,rfl⟩
      exact ⟨⟨⟨hidle,hp,hb⟩,hr⟩,hset⟩
    refine (release_last .waitable).bind steps fun _ => ?_
    exact .pure (held_stable .waitable) fun _ _ => id
  · refine (reap_rule hb).bind steps fun _ => ?_
    refine (release_rule (Kept.reaping.and (.releasable hmem)) (by simp)).bind steps fun _ => ?_
    refine (release_last .reaping).bind steps fun _ => ?_
    refine .pure (held_stable .reaping) fun s _ h => ?_
    exact ⟨h.1,h.2.1,b.xstate,h.2.2,hstatus⟩

theorem scan_rule {addr : ℕ} (qs done : List (Fin n)) (havekids : Bool)
    (hdone : done++qs = slots n) :
    Triple (m := m) initproc ready (.inr p)
      (Held (.inr p) {.wait} (Scanning initproc p havekids done)) (scan p addr qs havekids)
      (Scanned initproc p) := by
  have hmem : Lock.wait ∈ ({.wait} : Set (Lock n)) := rfl
  induction qs generalizing done havekids with
  | nil =>
    rw [append_nil] at hdone
    subst hdone
    exact .pure (held_stable (.scanning hmem)) fun _ _ => id
  | cons q qs ih =>
    have hnext : (done++[q])++qs = slots n := by simpa using hdone
    have hkept : Kept (m := m) (δ := δ) initproc (.inr p) {.wait}
        fun s => Scanning initproc p havekids done s ∧ s.parent q = some p :=
      (Kept.scanning hmem).and (.parent hmem _)
    refine (parentOf_rule (.scanning hmem) hmem).bind steps fun r => ?_
    split
    · rename_i hr
      subst hr
      refine (acquire_rule hkept (by simp)).bind steps fun _ => ?_
      refine (pcb_rule ((hkept.mono (Set.subset_insert ..)).and settled_kept)
        (Set.mem_insert ..)).bind steps fun b => ?_
      split
      · rename_i hb
        split
        · refine Ensures.bind steps (fails_rule ?_) fun failed => collect_rule failed hb (by simp)
          exact ((hkept.mono (Set.subset_insert ..)).and settled_kept).and
            (.pcb (· = b) (Set.mem_insert ..))
        · exact collect_rule false hb (by simp)
      · rename_i hb
        have hrest := ih (done++[q]) true hnext
        refine Ensures.bind steps (Ensures.weaken
          (release_rule (Kept.scanning hmem) (by simp)) ?_) fun _ => hrest
        rintro s - ⟨-,-,⟨⟨⟨hidle,hr,-,hz⟩,hp⟩,hset⟩,rfl⟩
        refine ⟨⟨hidle,hr,fun _ => ⟨q,hp⟩,fun q' hq' hp' => ?_⟩,hset⟩
        rcases mem_append.mp hq' with hq' | hq'
        · exact hz q' hq' hp'
        · rw [mem_singleton.mp hq']
          exact hb
    · rename_i hr
      refine Ensures.weaken (ih (done++[q]) havekids hnext) ?_
      rintro s - ⟨-,-,⟨hidle,hrel,hk,hz⟩,hp⟩
      refine ⟨hidle,hrel,hk,fun q' hq' hp' => ?_⟩
      rcases mem_append.mp hq' with hq' | hq'
      · exact hz q' hq' hp'
      · rw [mem_singleton.mp hq', hp] at hp'
        exact absurd hp' hr

theorem waitRet_rule (r : WaitResult n) :
    Triple (m := m) initproc ready (.inr p) (Scanned initproc p (.inl r)) (call (.waitRet r))
      fun _ => Held (.inr p) ∅ (Idle p) := by
  cases r with
  | reaped pid status =>
    refine held_command (P := fun s => ∃ x, Reaping p pid x s ∧ ∀ y ∈ status, y = x) ?_
      (fun _ => .idle) ?_ ?_
    · rintro s s' hs ⟨x,hx,hy⟩
      exact ⟨x,Kept.reaping s s' hs hx,hy⟩
    · rintro s - ⟨-,-,x,⟨-,-,b,hb,hx⟩,hy⟩
      exact ⟨p,b,x,rfl,hb,hx,hy⟩
    · rintro s c w a u - hat hown ⟨x,⟨ha,he,-⟩,-⟩ hact -
      obtain ⟨-,rfl⟩ := Prod.mk.inj (Option.some.inj hact)
      exact ⟨hat,hown,ha,he,update_self ..⟩
  | copyFailed q =>
    refine held_read .waitable (fun _ => .idle) (fun s _ h => ⟨p,rfl,h.2.2.2⟩) ?_
    rintro s c w a u - - - hp hact
    obtain ⟨-,rfl⟩ := Prod.mk.inj (Option.some.inj hact)
    exact ⟨rfl,hp.1⟩
  | noChild => exact fun s _ hs => hs.elim

/-- After the scan: give up or sleep. -/
theorem waitEnd_rule {havekids : Bool} (addr : ℕ) (stop : Bool) (hstop : stop = false → havekids = true) :
    Triple (m := m) initproc ready (.inr p)
      (Held (.inr p) {.wait} (Scanning initproc p havekids (slots n)))
      (if stop then do
        call (.release .wait)
        call (.waitRet .noChild)
        pure .user
      else do
        sleep p (.proc p) .wait
        pure (.waitLoop addr)) fun l s => AtLabel initproc ready s (.inr p) l := by
  split
  · refine Ensures.bind steps (Ensures.weaken (release_last .idle)
      fun s _ h => ⟨h.2.2.1,h.2.2.2.1⟩) fun _ => ?_
    refine Ensures.bind steps (held_read .idle (fun _ => .idle) (fun _ _ _ => trivial) ?_)
      fun _ => .pure (held_stable .idle) fun s hi h => ⟨h.1,h.2.1,h.2.2.2⟩
    rintro s c w a u - - - hp hact
    obtain ⟨-,rfl⟩ := Prod.mk.inj (Option.some.inj hact)
    exact ⟨rfl,hp⟩
  · rename_i hs
    refine Ensures.bind steps (Ensures.weaken (sleep_rule (by simp)) ?_) fun _ => ?_
    · rintro s - ⟨-,-,hidle,hr,hk,hz⟩
      exact ⟨hidle,.wait hr.1 hr.2 (hk (hstop (by simpa using hs)))
        fun q => hz q (by simp [slots])⟩
    · refine .pure (held_stable (Kept.idle.and (.releasable (Set.mem_singleton _)))) fun s hi h => ?_
      exact ⟨h.1,h.2.1,h.2.2.1.2.1,h.2.2.1.2.2,h.2.2.2⟩

theorem waitRound_rule {addr : ℕ} :
    Triple (m := m) initproc ready (.inr p)
      (fun s => AtLabel initproc ready s (.inr p) (.waitLoop addr)) (waitRound p addr)
      fun l s => AtLabel initproc ready s (.inr p) l := by
  refine Ensures.bind steps ((scan_rule (slots n) [] false rfl).mono ?_ fun _ _ _ => id) fun r => ?_
  · rintro s hi ⟨hx,hown,he,hh,hr⟩
    have ha := alive_of_not_owns hi hx (by simp [hown])
    exact ⟨hx,hown,⟨ha,he,hh⟩,hr,by simp,by simp⟩
  cases r with
  | inl r =>
    refine (waitRet_rule r).bind steps fun _ => ?_
    exact .pure (held_stable .idle) fun s hi h => ⟨h.1,h.2.1,h.2.2.2⟩
  | inr havekids =>
    cases havekids with
    | true =>
      exact Ensures.bind steps (killed_rule (.scanning (Set.mem_singleton _)) (by simp))
        fun stop => waitEnd_rule addr stop fun _ => rfl
    | false => exact waitEnd_rule addr true (by simp)

/-! The condition. -/

/-- Working on the data under the lock `cond`. -/
def Working (ready : δ → Bool) (P : State n m δ → Prop) (unsent : Bool) (s : State n m δ) : Prop :=
  P s ∧ (unsent = true ∨ s.Calm ready)

theorem Kept.working {unsent : Bool} (hP : Kept initproc t L P) (hl : .cond ∈ L) :
    Kept initproc t L (Working ready P unsent) :=
  hP.and (.or (.const _) fun _ _ hs => hs.keepsCalm hl)

section Condition

variable (hP : Kept initproc t ∅ P) (hme : ∀ c s, t = .inl c → P s → s.proc c = none)

include hP hme

/-- After `wakeup` nobody waits for the condition. -/
theorem flush_rule {unsent : Bool} :
    Triple initproc ready t (Held t {.cond} (Working ready P unsent)) (wakeup (some .cond))
      fun _ => Held t {.cond} (Working ready P false) := by
  have hmem : Lock.cond ∈ ({.cond} : Set (Lock n)) := rfl
  refine (wakeup_rule (.working (hP.mono (Set.empty_subset _)) hmem)
    (fun c s ht h => hme c s ht h.1) (by simp) ?_).mono (fun _ _ => id) fun _ s _ h => ?_
  · intro ch' h
    obtain rfl := Option.some.inj h
    exact hmem
  · exact h.imp fun h => ⟨h.1.1,.inr fun q hw => absurd hw (h.2 q _ rfl)⟩

omit hme in
theorem setData_rule {unsent : Bool} {d : δ} (f : δ → δ) :
    Triple initproc ready t
      (Held t {.cond} fun s => Working ready P unsent s ∧ s.data = d) (call (.setData (f d)))
      fun _ => Held t {.cond} (Working ready P (unsent || (!ready d && ready (f d)))) := by
  have hmem : Lock.cond ∈ ({.cond} : Set (Lock n)) := rfl
  have hP' := hP.mono (Set.empty_subset {.cond})
  refine held_command ((Kept.working hP' hmem).and fun _ _ hs h => (hs.data hmem).trans h)
    (fun _ => .working hP' hmem) (fun s _ h => by rw [Pre, h.2.1]; rfl) ?_
  rintro s c w a u - hat hown ⟨⟨hp,hc⟩,rfl⟩ hact -
  obtain ⟨-,rfl⟩ := Prod.mk.inj (Option.some.inj hact)
  have hseen : Seen initproc t ∅ s { s with data := f s.data } :=
    { (Seen.refl : Seen initproc t ∅ s s) with
      data := fun h => absurd h (Set.notMem_empty _)
      own := fun _ _ ha => .same ha rfl rfl rfl }
  refine ⟨hat,hown,hP s _ hseen hp,?_⟩
  rcases hc with hc | hc
  · exact .inl (by simp [hc])
  · -- the condition was false for whoever waits; if it is true now, that is to be reported
    cases hnew : unsent || (!ready s.data && ready (f s.data)) with
    | true => exact .inl rfl
    | false =>
      refine .inr fun q hw => ?_
      have hold : ready s.data = false := hc q hw
      simp only [hold, Bool.not_false, Bool.true_and, Bool.or_eq_false_iff] at hnew
      exact hnew.2

theorem drive_rule (acts : List (Act δ)) (unsent : Bool) :
    Triple initproc ready t (Held t {.cond} (Working ready P unsent)) (drive ready acts unsent)
      fun unsent => Held t {.cond} (Working ready P unsent) := by
  have hmem : Lock.cond ∈ ({.cond} : Set (Lock n)) := rfl
  have hP' := hP.mono (Set.empty_subset {.cond})
  induction acts generalizing unsent with
  | nil => exact .pure (held_stable (.working hP' hmem)) fun _ _ => id
  | cons act acts ih =>
    cases act with
    | wake => exact (flush_rule hP hme).bind steps fun _ => ih false
    | update f =>
      refine (data_rule (.working hP' hmem) hmem).bind steps fun d => ?_
      exact (setData_rule hP f).bind steps fun _ => ih _

theorem finish_rule (unsent : Bool) :
    Triple initproc ready t (Held t {.cond} (Working ready P unsent)) (finish unsent)
      fun _ => Held t ∅ P := by
  have hrelease : Triple initproc ready t (Held t {.cond} (Working ready P false))
      (call (.release .cond)) fun _ => Held t ∅ P :=
    Ensures.weaken (release_last hP) fun s _ h => ⟨h.2.2.1,h.2.2.2.resolve_left (by simp)⟩
  cases unsent with
  | true => exact (flush_rule hP hme).bind steps fun _ => hrelease
  | false => exact hrelease

theorem device_rule (acts : List (Act δ)) :
    Triple initproc ready t (Held t ∅ P) (device ready acts) fun _ => Held t ∅ P := by
  refine (acquire_first hP).bind steps fun _ => ?_
  refine Ensures.bind steps (Ensures.weaken (drive_rule hP hme acts false)
    fun s _ h => ⟨h.2.2.1,.inr h.2.2.2⟩) fun unsent => ?_
  exact finish_rule hP hme unsent

end Condition

theorem awaitRound_rule (parts : List (List (Act δ))) (unsent : Bool) :
    Triple (m := m) initproc ready (.inr p)
      (fun s => AtLabel initproc ready s (.inr p) (.await parts unsent))
      (awaitRound ready p parts unsent) fun l s => AtLabel initproc ready s (.inr p) l := by
  have hmem : Lock.cond ∈ ({.cond} : Set (Lock n)) := rfl
  have hme : ∀ (c : Fin m) (s : State n m δ), (.inr p : Thread n m) = .inl c → Idle p s →
      s.proc c = none := by simp
  have hlabel : ∀ (parts : List (List (Act δ))) (unsent : Bool) (s : State n m δ),
      Held (.inr p) {.cond} (Working ready (Idle p) unsent) s →
      AtLabel initproc ready s (.inr p) (.await parts unsent) := fun _ _ s h =>
    ⟨h.1,h.2.1,h.2.2.1.2.1,h.2.2.1.2.2,h.2.2.2⟩
  suffices h : Triple (m := m) initproc ready (.inr p)
      (Held (.inr p) {.cond} (Working ready (Idle p) unsent)) (awaitRound ready p parts unsent)
      fun l s => AtLabel initproc ready s (.inr p) l by
    refine h.mono (fun s hi hl => ?_) fun _ _ _ => id
    obtain ⟨hx,hown,he,hh,hc⟩ := hl
    exact ⟨hx,hown,⟨alive_of_not_owns hi hx (by simp [hown]),he,hh⟩,hc⟩
  cases parts with
  | nil =>
    refine (finish_rule .idle hme unsent).bind steps fun _ => ?_
    exact .pure (held_stable .idle) fun s hi h => ⟨h.1,h.2.1,h.2.2.2⟩
  | cons acts parts =>
    refine (data_rule (.working .idle hmem) hmem).bind steps fun d => ?_
    split
    · refine Ensures.bind steps (Ensures.weaken (drive_rule .idle hme acts unsent)
        fun s _ h => h.2.2.1) fun unsent => ?_
      exact .pure (held_stable (.working .idle hmem)) fun s hi h => hlabel _ _ s h
    · rename_i hd
      refine Ensures.bind steps (Ensures.weaken (sleep_rule (by simp)) ?_) fun _ => ?_
      · rintro s - ⟨-,-,⟨hidle,-⟩,rfl⟩
        have hready : ready s.data = false := by simpa using hd
        exact ⟨hidle,.cond (fun _ _ => hready) hready⟩
      · refine .pure (held_stable (Kept.idle.and (.releasable hmem))) fun s hi h => ?_
        exact hlabel _ _ s (h.imp fun h => ⟨h.1,.inr h.2⟩)

end Xv6.Sched
