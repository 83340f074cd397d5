import Xv6.Pipes.Fifo

/-! Who may be asleep on a pipe.
A process sleeps only while the pipe has nothing for it, as long as no writer that has stored
bytes is killed before it gets to its next `wakeup`. -/
namespace Xv6
namespace Pipes

/-- The process is between `acquire` and `release` of `pi->lock`. -/
def Pc.active : Pc → Bool
  | .user _ | .writeSleep .. | .readSleep .. => false
  | _ => true

/-- Bytes were stored since the last `wakeup(&pi->nread)`. -/
def Pc.unsent : Pc → Bool
  | .writeTest _ unsent _ | .writeByte _ unsent _ => unsent
  | _ => false

/-- Bytes were removed since the process got the lock. -/
def Pc.took : Pc → Bool
  | .readByte i _ => 0 < i
  | _ => false

namespace State

/-- SLEEPING on `&pi->nread`. -/
def ReadSleeping (s : State) (p : ℕ) : Prop := ∃ n, s.pc p = .readSleep n true

/-- SLEEPING on `&pi->nwrite`. -/
def WriteSleeping (s : State) (p : ℕ) : Prop := ∃ i n, s.pc p = .writeSleep i n true

/-- While the lock is free, nobody sleeps on a pipe that could serve them. -/
def Served (s : State) : Prop := s.lock = none →
  (∀ p, s.ReadSleeping p → s.pi.nread = s.pi.nwrite ∧ s.pi.writeopen = true) ∧
  ∀ p, s.WriteSleeping p →
    s.pi.nwrite = (s.pi.nread+PIPESIZE) % UINT ∧ s.pi.readopen = true

/-- When `pipewrite` looks at `killed` with bytes stored since its last `wakeup(&pi->nread)`, and
a reader is asleep, then the process has not been killed. -/
def Spared (s : State) : Event → Prop
  | .run p _ => ∀ i n, s.pc p = .writeTest i true n → (i : ℤ) < n →
      (∃ q, s.ReadSleeping q) → s.killed p = false
  | _ => True

end State

/-- What holds between any two steps. -/
structure Inv (s : State) : Prop extends Fifo s where
  holder : ∀ p, (s.pc p).active = true → s.lock = some p
  unsent : ∀ p, (s.pc p).unsent = true → s.pi.readopen = true ∧ s.pi.isEmpty = false
  passed : ∀ p i b n, s.pc p = .writeByte i b n → s.pi.readopen = true
  waiting : ∀ p n, s.pc p = .readWait n → s.pi.isEmpty = true ∧ s.pi.writeopen = true
  readers : ∀ p, s.ReadSleeping p → (s.pi.isEmpty = true ∧ s.pi.writeopen = true) ∨
    ∃ q, (s.pc q).unsent = true
  writers : ∀ p, s.WriteSleeping p → (s.pi.isFull = true ∧ s.pi.readopen = true) ∨
    ∃ q, (s.pc q).took = true

section inv

variable {s t : State} {p : ℕ}

theorem active_of_unsent {c : Pc} (h : c.unsent = true) : c.active = true := by
  cases c <;> simp_all [Pc.unsent,Pc.active]

theorem active_of_took {c : Pc} (h : c.took = true) : c.active = true := by
  cases c <;> simp_all [Pc.took,Pc.active]

theorem inv_init (data : Fin PIPESIZE → UInt8) : Inv (.init data) := by
  refine ⟨fifo_init data,?_,?_,?_,?_,?_,?_⟩ <;>
    simp [State.init,Pc.active,Pc.unsent,State.ReadSleeping,State.WriteSleeping]

/-- The process that holds the lock is alone in the critical sections. -/
theorem Inv.alone (h : Inv s) (hp : (s.pc p).active = true) {q : ℕ}
    (hq : (s.pc q).active = true) : q = p :=
  Option.some.inj ((h.holder q hq).symm.trans (h.holder p hp))

/-- Nobody is in the critical sections while the lock is free. -/
theorem Inv.inactive (h : Inv s) (hfree : s.lock = none) (q : ℕ) : (s.pc q).active = false :=
  Bool.eq_false_iff.mpr fun ha => by
    rw [h.holder q ha] at hfree
    cases hfree

theorem Inv.quiet (h : Inv s) (hfree : s.lock = none) :
    (∀ p, s.ReadSleeping p → s.pi.isEmpty = true ∧ s.pi.writeopen = true) ∧
    ∀ p, s.WriteSleeping p → s.pi.isFull = true ∧ s.pi.readopen = true := by
  have hnone (q : ℕ) (hq : (s.pc q).active = true) : False := by
    rw [h.inactive hfree q] at hq
    cases hq
  exact ⟨fun p hp => (h.readers p hp).resolve_right fun ⟨q,hq⟩ => hnone q (active_of_unsent hq),
    fun p hp => (h.writers p hp).resolve_right fun ⟨q,hq⟩ => hnone q (active_of_took hq)⟩

theorem Inv.served (h : Inv s) : s.Served := by
  intro hfree
  obtain ⟨hr,hw⟩ := h.quiet hfree
  exact ⟨fun p hp => ⟨by simpa [Pipe.isEmpty] using (hr p hp).1,(hr p hp).2⟩,
    fun p hp => ⟨by simpa [Pipe.isFull] using (hw p hp).1,(hw p hp).2⟩⟩

/-- A reader that sleeps while `p` is in the pipe and has sent what it stored. -/
theorem Inv.reader (h : Inv s) (hp : (s.pc p).active = true) (hu : (s.pc p).unsent = false)
    {q : ℕ} (hq : s.ReadSleeping q) : s.pi.isEmpty = true ∧ s.pi.writeopen = true := by
  rcases h.readers q hq with hc | ⟨r,hr⟩
  · exact hc
  · rw [h.alone hp (active_of_unsent hr),hu] at hr
    cases hr

theorem Inv.writer (h : Inv s) (hp : (s.pc p).active = true) (hu : (s.pc p).took = false)
    {q : ℕ} (hq : s.WriteSleeping q) : s.pi.isFull = true ∧ s.pi.readopen = true := by
  rcases h.writers q hq with hc | ⟨r,hr⟩
  · exact hc
  · rw [h.alone hp (active_of_took hr),hu] at hr
    cases hr

/-- The same place, up to being woken. -/
inductive Follows : Pc → Pc → Prop
  | same (c : Pc) : Follows c c
  | read (n : ℤ) (b : Bool) : Follows (.readSleep n b) (.readSleep n false)
  | write (i : ℕ) (n : ℤ) (b : Bool) : Follows (.writeSleep i n b) (.writeSleep i n false)

theorem Follows.active {c d : Pc} (h : Follows c d) : d.active = c.active := by
  cases h <;> rfl

theorem Follows.readSleep {c : Pc} {n : ℤ} (h : Follows c (.readSleep n true)) :
    c = .readSleep n true := by
  cases h
  rfl

theorem Follows.writeSleep {c : Pc} {i : ℕ} {n : ℤ} (h : Follows c (.writeSleep i n true)) :
    c = .writeSleep i n true := by
  cases h
  rfl

theorem Follows.eq_of_active {c d : Pc} (h : Follows c d) (hd : d.active = true) : d = c := by
  cases h <;> first | rfl | cases hd

theorem wakeupRead_follows (s : State) (q : ℕ) : Follows (s.pc q) (s.wakeupRead.pc q) := by
  simp only [State.wakeupRead]
  split
  · rename_i n b heq
    rw [heq]
    exact .read n b
  · exact .same _

theorem wakeupWrite_follows (s : State) (q : ℕ) : Follows (s.pc q) (s.wakeupWrite.pc q) := by
  simp only [State.wakeupWrite]
  split
  · rename_i i n b heq
    rw [heq]
    exact .write i n b
  · exact .same _

theorem wakeupRead_awake (s : State) (q : ℕ) : ¬ s.wakeupRead.ReadSleeping q := by
  rintro ⟨n,hn⟩
  simp only [State.wakeupRead] at hn
  split at hn
  · cases hn
  · rename_i hne
    exact hne n true hn

theorem wakeupWrite_awake (s : State) (q : ℕ) : ¬ s.wakeupWrite.WriteSleeping q := by
  rintro ⟨i,n,hn⟩
  simp only [State.wakeupWrite] at hn
  split at hn
  · cases hn
  · rename_i hne
    exact hne i n true hn

/-- One process moves, alone in the critical sections before and after; the others are woken at
most. -/
theorem Inv.move (hfifo : Fifo t) (halone : ∀ q ≠ p, (t.pc q).active = false)
    (hlock : (t.pc p).active = true → t.lock = some p)
    (hunsent : (t.pc p).unsent = true → t.pi.readopen = true ∧ t.pi.isEmpty = false)
    (hpassed : ∀ i b n, t.pc p = .writeByte i b n → t.pi.readopen = true)
    (hwaiting : ∀ n, t.pc p = .readWait n → t.pi.isEmpty = true ∧ t.pi.writeopen = true)
    (hreaders : ∀ q, t.ReadSleeping q → (t.pi.isEmpty = true ∧ t.pi.writeopen = true) ∨
      (t.pc p).unsent = true)
    (hwriters : ∀ q, t.WriteSleeping q → (t.pi.isFull = true ∧ t.pi.readopen = true) ∨
      (t.pc p).took = true) : Inv t := by
  have hself {q : ℕ} (hq : (t.pc q).active = true) : q = p := by
    by_contra hne
    rw [halone q hne] at hq
    cases hq
  refine ⟨hfifo,fun q hq => ?_,fun q hq => ?_,fun q i b n hq => ?_,fun q n hq => ?_,
    fun q hq => (hreaders q hq).imp_right fun hu => ⟨p,hu⟩,
    fun q hq => (hwriters q hq).imp_right fun hu => ⟨p,hu⟩⟩
  · obtain rfl := hself hq
    exact hlock hq
  · obtain rfl := hself (active_of_unsent hq)
    exact hunsent hq
  · obtain rfl := hself (by rw [hq]; rfl)
    exact hpassed i b n hq
  · obtain rfl := hself (by rw [hq]; rfl)
    exact hwaiting n hq

theorem setPc_pc (s : State) (p q : ℕ) (c : Pc) :
    (s.setPc p c).pc q = if q = p then c else s.pc q := Function.update_apply ..

theorem setPc_readSleeping {u : State} {c : Pc} {q : ℕ} (h : (u.setPc p c).ReadSleeping q) :
    (∃ n, c = .readSleep n true) ∨ u.ReadSleeping q := by
  obtain ⟨n,hn⟩ := h
  rw [setPc_pc] at hn
  split at hn
  · exact .inl ⟨n,hn⟩
  · exact .inr ⟨n,hn⟩

theorem setPc_writeSleeping {u : State} {c : Pc} {q : ℕ} (h : (u.setPc p c).WriteSleeping q) :
    (∃ i n, c = .writeSleep i n true) ∨ u.WriteSleeping q := by
  obtain ⟨i,n,hn⟩ := h
  rw [setPc_pc] at hn
  split at hn
  · exact .inl ⟨i,n,hn⟩
  · exact .inr ⟨i,n,hn⟩

theorem Follows.reads {u : State} (hu : ∀ q, Follows (s.pc q) (u.pc q)) {q : ℕ}
    (h : u.ReadSleeping q) : s.ReadSleeping q := by
  obtain ⟨n,hn⟩ := h
  exact ⟨n,(hn ▸ hu q).readSleep⟩

theorem Follows.writes {u : State} (hu : ∀ q, Follows (s.pc q) (u.pc q)) {q : ℕ}
    (h : u.WriteSleeping q) : s.WriteSleeping q := by
  obtain ⟨i,n,hn⟩ := h
  exact ⟨i,n,(hn ▸ hu q).writeSleep⟩

/-- The holder of the lock goes on to `c`. -/
theorem Inv.advance (h : Inv s) (hp : (s.pc p).active = true) {c : Pc} (hc : c.active = true)
    (hunsent : c.unsent = true → s.pi.readopen = true ∧ s.pi.isEmpty = false)
    (hpassed : ∀ i b n, c = .writeByte i b n → s.pi.readopen = true)
    (hwaiting : ∀ n, c = .readWait n → s.pi.isEmpty = true ∧ s.pi.writeopen = true)
    (hsent : c.unsent = (s.pc p).unsent) (htook : c.took = (s.pc p).took) :
    Inv (s.setPc p c) := by
  have hself : (s.setPc p c).pc p = c := by rw [setPc_pc,if_pos rfl]
  refine Inv.move (p := p) ⟨h.held,h.nread,h.nwrite⟩ (fun q hq => ?_) (fun _ => h.holder p hp)
    ?_ ?_ ?_ (fun q hq => ?_) fun q hq => ?_
  · rw [setPc_pc,if_neg hq]
    exact Bool.eq_false_iff.mpr fun ha => hq (h.alone hp ha)
  · rw [hself]
    exact hunsent
  · rw [hself]
    exact hpassed
  · rw [hself]
    exact hwaiting
  · rw [hself,hsent]
    rcases setPc_readSleeping hq with ⟨n,rfl⟩ | hq
    · cases hc
    · rcases h.readers q hq with hr | ⟨r,hr⟩
      · exact .inl hr
      · rw [h.alone hp (active_of_unsent hr)] at hr
        exact .inr hr
  · rw [hself,htook]
    rcases setPc_writeSleeping hq with ⟨i,n,rfl⟩ | hq
    · cases hc
    · rcases h.writers q hq with hr | ⟨r,hr⟩
      · exact .inl hr
      · rw [h.alone hp (active_of_took hr)] at hr
        exact .inr hr

/-- The holder of the lock wakes others, releases the lock and is then at `c`. -/
theorem Inv.leave (h : Inv s) (hp : (s.pc p).active = true) {u : State} (hfifo : Fifo u)
    (hu : ∀ q, Follows (s.pc q) (u.pc q)) {c : Pc} (hc : c.active = false)
    (hr : (∃ n, c = .readSleep n true) ∨ (∃ q, u.ReadSleeping q) →
      u.pi.isEmpty = true ∧ u.pi.writeopen = true)
    (hw : (∃ i n, c = .writeSleep i n true) ∨ (∃ q, u.WriteSleeping q) →
      u.pi.isFull = true ∧ u.pi.readopen = true) : Inv (u.leave p c) := by
  have hpc (q : ℕ) : (u.leave p c).pc q = if q = p then c else u.pc q := setPc_pc u p q c
  have hself : (u.leave p c).pc p = c := by rw [hpc,if_pos rfl]
  refine Inv.move (p := p) ⟨hfifo.held,hfifo.nread,hfifo.nwrite⟩ (fun q hq => ?_) (fun ha => ?_)
    (fun ha => ?_) (fun i b n hn => ?_) (fun n hn => ?_)
    (fun q hq => .inl (hr ((setPc_readSleeping hq).imp_right fun h => ⟨q,h⟩)))
    fun q hq => .inl (hw ((setPc_writeSleeping hq).imp_right fun h => ⟨q,h⟩))
  · rw [hpc,if_neg hq,(hu q).active]
    exact Bool.eq_false_iff.mpr fun ha => hq (h.alone hp ha)
  · rw [hself,hc] at ha
    cases ha
  · rw [hself] at ha
    rw [active_of_unsent ha] at hc
    cases hc
  · rw [hself] at hn
    rw [hn] at hc
    cases hc
  · rw [hself] at hn
    rw [hn] at hc
    cases hc

/-- `pipewrite`, at the head of its loop. -/
theorem writeTest_inv (h : Inv s) {i : ℕ} {b : Bool} {n : ℤ} (hp : s.pc p = .writeTest i b n)
    {copy : Option UInt8} (hok : s.Spared (.run p copy)) (ht : s.run p copy = some t) : Inv t := by
  have hact : (s.pc p).active = true := by rw [hp]; rfl
  have htook : (s.pc p).took = false := by rw [hp]; rfl
  have hsame : ∀ q, Follows (s.pc q) (s.pc q) := fun q => .same _
  simp only [State.run,hp] at ht
  split at ht
  · rename_i hlt
    split at ht <;> obtain rfl := Option.some.inj ht
    · rename_i hexit
      refine h.leave hact h.toFifo hsame rfl ?_ ?_
      · rintro (⟨m,hm⟩ | ⟨q,hq⟩)
        · cases hm
        refine h.reader hact (Bool.eq_false_iff.mpr fun hu => ?_) hq
        have hopen := (h.unsent p hu).1
        rw [hp] at hu
        obtain rfl : b = true := hu
        rcases hexit with hclosed | hkilled
        · rw [hopen] at hclosed
          cases hclosed
        · have hlive := hok i n hp hlt ⟨q,hq⟩
          rw [hlive] at hkilled
          cases hkilled
      · rintro (⟨j,m,hm⟩ | ⟨q,hq⟩)
        · cases hm
        · exact h.writer hact htook hq
    · rename_i hstay
      refine h.advance hact rfl (fun hu => h.unsent p (by rw [hp]; exact hu)) (fun _ _ _ _ => ?_)
        (fun _ hm => nomatch hm) (by rw [hp]; rfl) (by rw [hp]; rfl)
      simpa using (not_or.mp hstay).1
  · obtain rfl := Option.some.inj ht
    refine h.leave (u := s.wakeupRead) hact ⟨h.held,h.nread,h.nwrite⟩ (wakeupRead_follows s) rfl ?_ ?_
    · rintro (⟨m,hm⟩ | ⟨q,hq⟩)
      · cases hm
      · exact absurd hq (wakeupRead_awake s q)
    · rintro (⟨j,m,hm⟩ | ⟨q,hq⟩)
      · cases hm
      · exact h.writer hact htook (Follows.writes (wakeupRead_follows s) hq)

theorem push_isEmpty {ch : UInt8} (h : Fifo s) (hroom : s.pi.isFull = false) :
    (Pipe.isEmpty { s.pi with buf := s.pi.buf.push UINT ch }) = false := by
  obtain ⟨xs,hx,-⟩ := h.held
  have hlt : xs.length < PIPESIZE := by
    have hne : ¬ s.pi.nwrite = (s.pi.nread+PIPESIZE) % UINT := by simpa [Pipe.isFull] using hroom
    have hfull := (hx.full_iff (by decide)).not.mp hne
    have := hx.size
    omega
  have hpush := hx.push (by decide) hlt ch
  have hne := (hpush.cons_eq_prod (by decide)).not.mpr (by simp)
  simpa [Pipe.isEmpty,Pipe.nread,Pipe.nwrite] using hne

/-- `pipewrite`, past its tests. -/
theorem writeByte_inv (h : Inv s) {i : ℕ} {b : Bool} {n : ℤ} (hp : s.pc p = .writeByte i b n)
    {copy : Option UInt8} (ht : s.run p copy = some t) : Inv t := by
  have hact : (s.pc p).active = true := by rw [hp]; rfl
  have htook : (s.pc p).took = false := by rw [hp]; rfl
  have hopen := h.passed p i b n hp
  have hfifo := h.toFifo.step (run_moves ht)
  simp only [State.run,hp] at ht
  have hwriters {c : Pc} (hc : (∃ i n, c = .writeSleep i n true) → s.pi.isFull = true) :
      (∃ i n, c = .writeSleep i n true) ∨ (∃ q, s.wakeupRead.WriteSleeping q) →
        s.pi.isFull = true ∧ s.pi.readopen = true := by
    rintro (hm | ⟨q,hq⟩)
    · exact ⟨hc hm,hopen⟩
    · exact h.writer hact htook (Follows.writes (wakeupRead_follows s) hq)
  have hreaders {c : Pc} (hc : ∀ n, c ≠ .readSleep n true) :
      (∃ n, c = .readSleep n true) ∨ (∃ q, s.wakeupRead.ReadSleeping q) →
        s.pi.isEmpty = true ∧ s.pi.writeopen = true := by
    rintro (⟨m,hm⟩ | ⟨q,hq⟩)
    · exact absurd hm (hc m)
    · exact absurd hq (wakeupRead_awake s q)
  split at ht
  · rename_i hfull
    obtain rfl := Option.some.inj ht
    exact h.leave (u := s.wakeupRead) hact ⟨h.held,h.nread,h.nwrite⟩ (wakeupRead_follows s) rfl
      (hreaders fun _ hc => by cases hc) (hwriters fun _ => hfull)
  · rename_i hroom
    split at ht <;> obtain rfl := Option.some.inj ht
    · exact h.leave (u := s.wakeupRead) hact ⟨h.held,h.nread,h.nwrite⟩ (wakeupRead_follows s) rfl
        (hreaders fun _ hc => by cases hc) (hwriters fun hc => by obtain ⟨_,_,hm⟩ := hc; cases hm)
    · rename_i ch
      have hpc (q : ℕ) : (s.setPc p (.writeTest (i+1) true n)).pc q =
          if q = p then .writeTest (i+1) true n else s.pc q := setPc_pc ..
      refine Inv.move (p := p) hfifo (fun q hq => ?_) (fun _ => h.holder p hact)
        (fun _ => ⟨hopen,push_isEmpty h.toFifo (by simpa using hroom)⟩) (fun j m k hm => ?_)
        (fun m hm => ?_) (fun q _ => .inr ?_) fun q hq => ?_
      · change ((s.setPc p _).pc q).active = false
        rw [hpc,if_neg hq]
        exact Bool.eq_false_iff.mpr fun ha => hq (h.alone hact ha)
      · change (s.setPc p _).pc p = _ at hm
        rw [hpc,if_pos rfl] at hm
        cases hm
      · change (s.setPc p _).pc p = _ at hm
        rw [hpc,if_pos rfl] at hm
        cases hm
      · change ((s.setPc p _).pc p).unsent = true
        rw [hpc,if_pos rfl]
        rfl
      · rcases setPc_writeSleeping hq with ⟨j,m,hm⟩ | hq
        · cases hm
        · exact absurd (h.writer hact htook hq).1 hroom

/-- The first loop of `piperead`. -/
theorem readTest_inv (h : Inv s) {n : ℤ} (hp : s.pc p = .readTest n ∨ s.pc p = .readWait n)
    {copy : Option UInt8} (ht : s.run p copy = some t) : Inv t := by
  have hact : (s.pc p).active = true := by rcases hp with hp | hp <;> rw [hp] <;> rfl
  have hunsent : (s.pc p).unsent = false := by rcases hp with hp | hp <;> rw [hp] <;> rfl
  have htook : (s.pc p).took = false := by rcases hp with hp | hp <;> rw [hp] <;> rfl
  have hsame : ∀ q, Follows (s.pc q) (s.pc q) := fun q => .same _
  have hwriters {c : Pc} (hc : ∀ i n, c ≠ .writeSleep i n true) :
      (∃ i n, c = .writeSleep i n true) ∨ (∃ q, s.WriteSleeping q) →
        s.pi.isFull = true ∧ s.pi.readopen = true := by
    rintro (⟨j,m,hm⟩ | ⟨q,hq⟩)
    · exact absurd hm (hc j m)
    · exact h.writer hact htook hq
  rcases hp with hp | hp
  · simp only [State.run,hp] at ht
    split at ht
    · rename_i hempty
      split at ht <;> obtain rfl := Option.some.inj ht
      · refine h.leave hact h.toFifo hsame rfl ?_ (hwriters fun _ _ hm => nomatch hm)
        rintro (⟨m,hm⟩ | ⟨q,hq⟩)
        · cases hm
        · exact h.reader hact hunsent hq
      · exact h.advance hact rfl (fun hu => nomatch hu) (fun _ _ _ hm => nomatch hm)
          (fun _ _ => hempty) hunsent.symm htook.symm
    · obtain rfl := Option.some.inj ht
      exact h.advance hact rfl (fun hu => nomatch hu) (fun _ _ _ hm => nomatch hm)
        (fun _ hm => nomatch hm) hunsent.symm htook.symm
  · simp only [State.run,hp] at ht
    obtain rfl := Option.some.inj ht
    exact h.leave hact h.toFifo hsame rfl (fun _ => h.waiting p n hp)
      (hwriters fun _ _ hm => nomatch hm)

/-- The second loop of `piperead`. -/
theorem readByte_inv (h : Inv s) {i : ℕ} {n : ℤ} (hp : s.pc p = .readByte i n)
    {copy : Option UInt8} (ht : s.run p copy = some t) : Inv t := by
  have hact : (s.pc p).active = true := by rw [hp]; rfl
  have hunsent : (s.pc p).unsent = false := by rw [hp]; rfl
  have hfifo := h.toFifo.step (run_moves ht)
  -- Nobody sleeps on `nwrite` once this process has left.
  have hdone {u : State} (hu : ∀ q, Follows (s.pc q) (u.pc q)) (hf : Fifo u) (j : ℕ)
      (hr : (∃ q, s.ReadSleeping q) → u.pi.isEmpty = true ∧ u.pi.writeopen = true)
      (hw : ∀ q, ¬ u.WriteSleeping q) : Inv (u.leave p (.user j)) := by
    refine h.leave hact hf hu rfl ?_ ?_
    · rintro (⟨m,hm⟩ | ⟨q,hq⟩)
      · cases hm
      · exact hr ⟨q,Follows.reads hu hq⟩
    · rintro (⟨k,m,hm⟩ | ⟨q,hq⟩)
      · cases hm
      · exact absurd hq (hw q)
  have hreader : (∃ q, s.ReadSleeping q) → s.pi.isEmpty = true ∧ s.pi.writeopen = true :=
    fun ⟨q,hq⟩ => h.reader hact hunsent hq
  simp only [State.run,hp] at ht
  split at ht
  · split at ht
    · obtain rfl := Option.some.inj ht
      exact hdone (u := s.wakeupWrite) (wakeupWrite_follows s) ⟨h.held,h.nread,h.nwrite⟩ i hreader
        (wakeupWrite_awake s)
    · rename_i ch buf hpop
      have hnone : ¬ ∃ q, s.ReadSleeping q := fun hq => by
        have hempty : s.pi.buf.cons = s.pi.buf.prod := by
          simpa [Pipe.isEmpty,Pipe.nread,Pipe.nwrite] using (hreader hq).1
        rw [Ring.pop,if_pos hempty] at hpop
        cases hpop
      split at ht <;> obtain rfl := Option.some.inj ht
      · have hpc (q : ℕ) : (s.setPc p (.readByte (i+1) n)).pc q =
            if q = p then .readByte (i+1) n else s.pc q := setPc_pc ..
        refine Inv.move (p := p) hfifo (fun q hq => ?_) (fun _ => h.holder p hact) (fun hu => ?_)
          (fun j b m hm => ?_) (fun m hm => ?_) (fun q hq => ?_) fun q hq => .inr ?_
        · change ((s.setPc p _).pc q).active = false
          rw [hpc,if_neg hq]
          exact Bool.eq_false_iff.mpr fun ha => hq (h.alone hact ha)
        · change ((s.setPc p _).pc p).unsent = true at hu
          rw [hpc,if_pos rfl] at hu
          cases hu
        · change (s.setPc p _).pc p = _ at hm
          rw [hpc,if_pos rfl] at hm
          cases hm
        · change (s.setPc p _).pc p = _ at hm
          rw [hpc,if_pos rfl] at hm
          cases hm
        · rcases setPc_readSleeping hq with ⟨m,hm⟩ | hq
          · cases hm
          · exact absurd ⟨q,hq⟩ hnone
        · change ((s.setPc p _).pc p).took = true
          rw [hpc,if_pos rfl]
          simp [Pc.took]
      · let u : State := { s with pi := { s.pi with buf := buf }, removed := s.removed++[ch] }
        exact hdone (u := u.wakeupWrite) (wakeupWrite_follows s)
          ⟨hfifo.held,hfifo.nread,hfifo.nwrite⟩ i (fun hq => absurd hq hnone) (wakeupWrite_awake u)
  · obtain rfl := Option.some.inj ht
    exact hdone (u := s.wakeupWrite) (wakeupWrite_follows s) ⟨h.held,h.nread,h.nwrite⟩ i hreader
      (wakeupWrite_awake s)

theorem run_inv (h : Inv s) {copy : Option UInt8} (hok : s.Spared (.run p copy))
    (ht : s.run p copy = some t) : Inv t := by
  cases hp : s.pc p with
  | writeTest i b n => exact writeTest_inv h hp hok ht
  | writeByte i b n => exact writeByte_inv h hp ht
  | readTest n => exact readTest_inv h (.inl hp) ht
  | readWait n => exact readTest_inv h (.inr hp) ht
  | readByte i n => exact readByte_inv h hp ht
  | user r => simp [State.run,hp] at ht
  | writeSleep i n b => simp [State.run,hp] at ht
  | readSleep n b => simp [State.run,hp] at ht

theorem enter_inv (h : Inv s) {c : Pc}
    (hc : (∃ i n, c = .writeTest i false n) ∨ ∃ n, c = .readTest n)
    (ht : s.enter p c = some t) : Inv t := by
  obtain ⟨hfree,-,rfl⟩ := enter_some ht
  have hnone := h.inactive hfree
  have hquiet := h.quiet hfree
  have hself : (s.setPc p c).pc p = c := by rw [setPc_pc,if_pos rfl]
  refine Inv.move (p := p) ⟨h.held,h.nread,h.nwrite⟩ (fun q hq => ?_) (fun _ => rfl) (fun hu => ?_)
    (fun i b n hm => ?_) (fun n hm => ?_) (fun q hq => .inl ?_) fun q hq => .inl ?_
  · change ((s.setPc p c).pc q).active = false
    rw [setPc_pc,if_neg hq]
    exact hnone q
  · change ((s.setPc p c).pc p).unsent = true at hu
    rw [hself] at hu
    rcases hc with ⟨i,n,rfl⟩ | ⟨n,rfl⟩ <;> cases hu
  · have heq := hself.symm.trans hm
    rcases hc with ⟨i,n,rfl⟩ | ⟨n,rfl⟩ <;> cases heq
  · have heq := hself.symm.trans hm
    rcases hc with ⟨i,n,rfl⟩ | ⟨n,rfl⟩ <;> cases heq
  · rcases setPc_readSleeping hq with ⟨n,heq⟩ | hq
    · rcases hc with ⟨i,n,rfl⟩ | ⟨n,rfl⟩ <;> cases heq
    · exact hquiet.1 q hq
  · rcases setPc_writeSleeping hq with ⟨j,m,heq⟩ | hq
    · rcases hc with ⟨i,n,rfl⟩ | ⟨n,rfl⟩ <;> cases heq
    · exact hquiet.2 q hq

/-- Nobody is in the critical sections. -/
theorem Inv.resting (hfifo : Fifo t) (hidle : ∀ q, (t.pc q).active = false)
    (hr : ∀ q, t.ReadSleeping q → t.pi.isEmpty = true ∧ t.pi.writeopen = true)
    (hw : ∀ q, t.WriteSleeping q → t.pi.isFull = true ∧ t.pi.readopen = true) : Inv t := by
  have hnone {q : ℕ} {c : Pc} (hq : t.pc q = c) (hc : c.active = true) : False := by
    rw [← hq,hidle q] at hc
    cases hc
  exact ⟨hfifo,fun q hq => (hnone rfl hq).elim,fun q hq => (hnone rfl (active_of_unsent hq)).elim,
    fun q i b n hq => (hnone hq rfl).elim,fun q n hq => (hnone hq rfl).elim,
    fun q hq => .inl (hr q hq),fun q hq => .inl (hw q hq)⟩

theorem pipeclose_inv (h : Inv s) {writable : Bool} (ht : s.pipeclose writable = some t) :
    Inv t := by
  unfold State.pipeclose at ht
  split at ht
  case isFalse => cases ht
  rename_i hc
  obtain rfl := Option.some.inj ht
  have hnone := h.inactive hc.1
  obtain ⟨hr,hw⟩ := h.quiet hc.1
  cases writable with
  | true =>
    exact .resting ⟨h.held,h.nread,h.nwrite⟩
      (fun q => (wakeupRead_follows s q).active.trans (hnone q))
      (fun q hq => absurd hq (wakeupRead_awake s q))
      fun q hq => hw q (Follows.writes (wakeupRead_follows s) hq)
  | false =>
    exact .resting ⟨h.held,h.nread,h.nwrite⟩
      (fun q => (wakeupWrite_follows s q).active.trans (hnone q))
      (fun q hq => hr q (Follows.reads (wakeupWrite_follows s) hq))
      fun q hq => absurd hq (wakeupWrite_awake s q)

theorem kkill_follows (s : State) (p q : ℕ) : Follows (s.pc q) ((s.kkill p).pc q) := by
  by_cases hq : q = p
  · subst hq
    simp only [State.kkill,Function.update_self]
    split
    · rename_i i n b heq
      rw [heq]
      exact .write i n b
    · rename_i n b heq
      rw [heq]
      exact .read n b
    · exact .same _
  · simp only [State.kkill,Function.update_of_ne hq]
    exact .same _

/-- Being woken changes nothing else. -/
theorem Inv.follow (h : Inv s) (hpi : t.pi = s.pi) (hlock : t.lock = s.lock)
    (hstored : t.stored = s.stored) (hremoved : t.removed = s.removed)
    (hpc : ∀ q, Follows (s.pc q) (t.pc q)) : Inv t := by
  have hkeep {q : ℕ} (hq : (t.pc q).active = true) : t.pc q = s.pc q := (hpc q).eq_of_active hq
  have hback {q : ℕ} (hq : (s.pc q).active = true) : t.pc q = s.pc q :=
    hkeep ((hpc q).active.trans hq)
  refine ⟨h.toFifo.step (.nothing (by rw [hpi]) hstored hremoved),fun q hq => ?_,fun q hq => ?_,
    fun q i b n hq => ?_,fun q n hq => ?_,fun q hq => ?_,fun q hq => ?_⟩
  · rw [hlock]
    exact h.holder q (hkeep hq ▸ hq)
  · rw [hpi]
    exact h.unsent q (hkeep (active_of_unsent hq) ▸ hq)
  · rw [hpi]
    exact h.passed q i b n ((hkeep (by rw [hq]; rfl)).symm.trans hq)
  · rw [hpi]
    exact h.waiting q n ((hkeep (by rw [hq]; rfl)).symm.trans hq)
  · rw [hpi]
    refine (h.readers q (Follows.reads hpc hq)).imp_right fun ⟨r,hr⟩ => ⟨r,?_⟩
    rw [hback (active_of_unsent hr)]
    exact hr
  · rw [hpi]
    refine (h.writers q (Follows.writes hpc hq)).imp_right fun ⟨r,hr⟩ => ⟨r,?_⟩
    rw [hback (active_of_took hr)]
    exact hr

theorem step_inv {e : Event} (h : Inv s) (hok : s.Spared e) (ht : s.step e = some t) : Inv t := by
  cases e with
  | pipewrite p n =>
    simp only [State.step,State.pipewrite] at ht
    split at ht
    · exact enter_inv h (.inl ⟨_,_,rfl⟩) ht
    · cases ht
  | piperead p n =>
    simp only [State.step,State.piperead] at ht
    split at ht
    · exact enter_inv h (.inr ⟨_,rfl⟩) ht
    · cases ht
  | run p copy => exact run_inv h hok ht
  | resume p =>
    simp only [State.step,State.resume] at ht
    split at ht
    · exact enter_inv h (.inl ⟨_,_,rfl⟩) ht
    · exact enter_inv h (.inr ⟨_,rfl⟩) ht
    · cases ht
  | pipeclose writable => exact pipeclose_inv h ht
  | kkill p =>
    obtain rfl := Option.some.inj ht
    exact h.follow rfl rfl rfl rfl (kkill_follows s p)
  | renew p =>
    simp only [State.step,State.renew] at ht
    split at ht
    · obtain rfl := Option.some.inj ht
      exact h.follow rfl rfl rfl rfl fun q => .same _
    · cases ht

/-- A writer that leaves because it was killed forgets the reader it should have woken. -/
theorem Inv.stranded {e : Event} (h : Inv s) (hno : ¬ s.Spared e) (ht : s.step e = some t) :
    ¬ t.Served := by
  cases e with
  | run p copy =>
    simp only [State.Spared,not_forall] at hno
    obtain ⟨i,n,hp,hlt,⟨q,m,hq⟩,hkilled⟩ := hno
    simp only [State.step,State.run,hp] at ht
    rw [if_pos hlt,if_pos (.inr (by simpa using hkilled))] at ht
    obtain rfl := Option.some.inj ht
    intro hserved
    have hne : q ≠ p := by
      rintro rfl
      rw [hp] at hq
      cases hq
    have hsleep : (s.leave p (.user (-1))).ReadSleeping q :=
      ⟨m,by rw [show (s.leave p _).pc q = _ from setPc_pc s p q _,if_neg hne,hq]⟩
    have heq : s.pi.nread = s.pi.nwrite := ((hserved rfl).1 q hsleep).1
    have hempty := (h.unsent p (by rw [hp]; rfl)).2
    simp [Pipe.isEmpty,heq] at hempty
  | _ => exact absurd trivial hno

end inv

/-- In a run in which no writer with unsent bytes and a sleeping reader is found killed, nobody
sleeps on a pipe that could serve them; and one step that breaks the condition strands a
reader. -/
theorem no_stranded_sleeper (data : Fin PIPESIZE → UInt8) (s : State)
    (hr : Reaches State.step State.Spared (.init data) s) :
    s.Served ∧ ∀ e t, s.step e = some t → (t.Served ↔ s.Spared e) := by
  have hinv : Inv s := hr.invariant (inv_init data) fun _ _ _ ha hok hst => step_inv ha hok hst
  refine ⟨hinv.served,fun e t ht => ⟨fun hserved => ?_,fun hok => (step_inv hinv hok ht).served⟩⟩
  by_contra hno
  exact hinv.stranded hno ht hserved

/-- A check that is stronger than the condition: no writer with unsent bytes runs at all. -/
def careful (s : State) : Event → Bool
  | .run p _ => (s.pc p).unsent = false
  | _ => true

theorem spared_of_careful {s : State} {e : Event} (h : careful s e = true) : s.Spared e := by
  cases e with
  | run p copy =>
    intro i n hp
    simp [careful,hp,Pc.unsent] at h
  | _ => trivial

/-- A reader falls asleep on the empty pipe. -/
theorem no_stranded_sleeper_reader : ∃ s,
    Reaches State.step State.Spared (.init fun _ => 0) s ∧ s.ReadSleeping 1 ∧
    s.pi.nread = s.pi.nwrite ∧ s.pi.writeopen = true := by
  have hrun : (runEvents State.step careful (.init fun _ => 0)
      [.piperead 1 1,.run 1 none,.run 1 none]).map
      (fun s => decide (s.lock = none ∧ s.pc 1 = .readSleep 1 true)) = some true := by
    decide +kernel
  obtain ⟨s,hs,heq⟩ := Option.map_eq_some_iff.mp hrun
  obtain ⟨hlock,hpc⟩ := of_decide_eq_true heq
  have hr : Reaches State.step State.Spared (.init fun _ => 0) s :=
    (reaches_of_runEvents hs).mono fun _ _ => spared_of_careful
  exact ⟨s,hr,⟨1,hpc⟩,((no_stranded_sleeper _ s hr).1 hlock).1 1 ⟨1,hpc⟩⟩

/-- Process 1 sleeps on the empty pipe.  Process 0 stores a byte, is killed, and leaves. -/
theorem killed_writer_strands_reader : ∃ s, PipeRun (fun _ => 0) s ∧ s.lock = none ∧
    s.ReadSleeping 1 ∧ s.pi.nread ≠ s.pi.nwrite := by
  have hrun : (runEvents State.step (fun _ _ => true) (.init fun _ => 0)
      [.piperead 1 1,.run 1 none,.run 1 none,.pipewrite 0 2,.run 0 none,.run 0 (some 7),.kkill 0,
        .run 0 none]).map
      (fun s => decide (s.lock = none ∧ s.pc 1 = .readSleep 1 true ∧ s.pi.nread = 0 ∧
        s.pi.nwrite = 1)) = some true := by
    decide +kernel
  obtain ⟨s,hs,heq⟩ := Option.map_eq_some_iff.mp hrun
  obtain ⟨hlock,hpc,hr,hw⟩ := of_decide_eq_true heq
  refine ⟨s,(reaches_of_runEvents hs).mono fun _ _ _ => trivial,hlock,⟨1,hpc⟩,?_⟩
  rw [hr,hw]
  decide

end Pipes
end Xv6
