import Xv6.Pipes.Model

/-! A pipe is a bounded queue, also when its counters wrap. -/
namespace Xv6
namespace Pipes

variable {s t : State} {e : Event}

/-- The bytes that have been stored and not yet removed are in the buffer, in order. -/
structure Fifo (s : State) : Prop where
  held : ∃ xs, s.pi.buf.Holds UINT xs ∧ s.stored = s.removed++xs
  nread : s.pi.nread = s.removed.length % UINT
  nwrite : s.pi.nwrite = s.stored.length % UINT

theorem fifo_init (data : Fin PIPESIZE → UInt8) : Fifo (.init data) :=
  ⟨⟨[],Ring.holds_nil rfl (show 0 < UINT by decide),rfl⟩,rfl,rfl⟩

/-- What a step can do to the data of the pipe. -/
inductive Moves (s t : State) : Prop
  | nothing (buf : t.pi.buf = s.pi.buf) (stored : t.stored = s.stored)
      (removed : t.removed = s.removed)
  | store (ch : UInt8) (room : s.pi.isFull = false) (buf : t.pi.buf = s.pi.buf.push UINT ch)
      (stored : t.stored = s.stored++[ch]) (removed : t.removed = s.removed)
  | remove (ch : UInt8) (next : s.pi.buf.pop UINT = some (ch,t.pi.buf))
      (stored : t.stored = s.stored) (removed : t.removed = s.removed++[ch])

theorem run_moves {p : ℕ} {copy : Option UInt8} (h : s.run p copy = some t) : Moves s t := by
  unfold State.run at h
  split at h
  · split at h
    · split at h <;> obtain rfl := Option.some.inj h <;> exact .nothing rfl rfl rfl
    · obtain rfl := Option.some.inj h
      exact .nothing rfl rfl rfl
  · split at h
    · obtain rfl := Option.some.inj h
      exact .nothing rfl rfl rfl
    · rename_i hroom
      split at h <;> obtain rfl := Option.some.inj h
      · exact .nothing rfl rfl rfl
      · exact .store _ (by simpa using hroom) rfl rfl rfl
  · split at h
    · split at h <;> obtain rfl := Option.some.inj h <;> exact .nothing rfl rfl rfl
    · obtain rfl := Option.some.inj h
      exact .nothing rfl rfl rfl
  · obtain rfl := Option.some.inj h
    exact .nothing rfl rfl rfl
  · split at h
    · split at h
      · obtain rfl := Option.some.inj h
        exact .nothing rfl rfl rfl
      · rename_i ch buf hpop
        dsimp only at h
        split at h <;> obtain rfl := Option.some.inj h <;> exact .remove ch hpop rfl rfl
    · obtain rfl := Option.some.inj h
      exact .nothing rfl rfl rfl
  · cases h

theorem enter_some {p : ℕ} {c : Pc} (h : s.enter p c = some t) :
    s.lock = none ∧ s.freed = false ∧ t = { s.setPc p c with lock := some p } := by
  unfold State.enter at h
  split at h
  · rename_i hc
    exact ⟨hc.1,hc.2,(Option.some.inj h).symm⟩
  · cases h

/-- The ways into a critical section. -/
theorem step_enter (h : s.step e = some t)
    (he : (∃ p n, e = .pipewrite p n) ∨ (∃ p n, e = .piperead p n) ∨ ∃ p, e = .resume p) :
    ∃ p c, s.enter p c = some t := by
  rcases he with ⟨p,n,rfl⟩ | ⟨p,n,rfl⟩ | ⟨p,rfl⟩
  · simp only [State.step,State.pipewrite] at h
    split at h
    · exact ⟨p,_,h⟩
    · cases h
  · simp only [State.step,State.piperead] at h
    split at h
    · exact ⟨p,_,h⟩
    · cases h
  · simp only [State.step,State.resume] at h
    split at h
    · exact ⟨p,_,h⟩
    · exact ⟨p,_,h⟩
    · cases h

theorem step_moves (h : s.step e = some t) : Moves s t := by
  have hin (he : (∃ p n, e = .pipewrite p n) ∨ (∃ p n, e = .piperead p n) ∨ ∃ p, e = .resume p) :
      Moves s t := by
    obtain ⟨p,c,hent⟩ := step_enter h he
    obtain ⟨-,-,rfl⟩ := enter_some hent
    exact .nothing rfl rfl rfl
  cases e with
  | pipewrite p n => exact hin (.inl ⟨p,n,rfl⟩)
  | piperead p n => exact hin (.inr (.inl ⟨p,n,rfl⟩))
  | resume p => exact hin (.inr (.inr ⟨p,rfl⟩))
  | run p copy => exact run_moves h
  | pipeclose writable =>
    simp only [State.step,State.pipeclose] at h
    split at h
    · obtain rfl := Option.some.inj h
      cases writable <;> exact .nothing rfl rfl rfl
    · cases h
  | kkill p =>
    obtain rfl := Option.some.inj h
    exact .nothing rfl rfl rfl
  | renew p =>
    simp only [State.step,State.renew] at h
    split at h
    · obtain rfl := Option.some.inj h
      exact .nothing rfl rfl rfl
    · cases h

theorem Fifo.step (h : Fifo s) (hm : Moves s t) : Fifo t := by
  obtain ⟨⟨xs,hx,hs⟩,hr,hw⟩ := h
  have hdvd : PIPESIZE ∣ UINT := by decide
  cases hm with
  | nothing buf stored removed =>
    refine ⟨⟨xs,buf ▸ hx,by rw [stored,removed,hs]⟩,?_,?_⟩
    · rw [Pipe.nread,buf,removed]
      exact hr
    · rw [Pipe.nwrite,buf,stored]
      exact hw
  | store ch room buf stored removed =>
    have hlt : xs.length < PIPESIZE := by
      have hne : ¬ s.pi.nwrite = (s.pi.nread+PIPESIZE) % UINT := by simpa [Pipe.isFull] using room
      have hfull := (hx.full_iff (by decide)).not.mp hne
      have := hx.size
      omega
    refine ⟨⟨xs++[ch],buf ▸ hx.push hdvd hlt ch,?_⟩,?_,?_⟩
    · rw [stored,removed,hs,List.append_assoc]
    · rw [Pipe.nread,buf,removed]
      exact hr
    · rw [Pipe.nwrite,buf,stored,List.length_append]
      change (s.pi.nwrite+1) % UINT = (s.stored.length+1) % UINT
      rw [hw,Nat.mod_add_mod]
  | remove ch next stored removed =>
    obtain ⟨ys,rfl,hy⟩ := hx.pop hdvd next
    refine ⟨⟨ys,hy,by rw [stored,removed,hs,List.append_assoc]; rfl⟩,?_,?_⟩
    · unfold Ring.pop at next
      split at next
      · cases next
      · rw [Pipe.nread,← (Prod.mk.inj (Option.some.inj next)).2,removed,List.length_append]
        change (s.pi.nread+1) % UINT = (s.removed.length+1) % UINT
        rw [hr,Nat.mod_add_mod]
    · unfold Ring.pop at next
      split at next
      · cases next
      · rw [Pipe.nwrite,← (Prod.mk.inj (Option.some.inj next)).2,stored]
        exact hw

/-- The states of a pipe that any number of processes use in any way. -/
abbrev PipeRun (data : Fin PIPESIZE → UInt8) (s : State) : Prop :=
  Reaches State.step (fun _ _ => True) (.init data) s

theorem pipeRun_fifo {data : Fin PIPESIZE → UInt8} {ok : State → Event → Prop}
    (hr : Reaches State.step ok (.init data) s) : Fifo s :=
  hr.invariant (fifo_init data) fun _ _ _ ha _ hst => ha.step (step_moves hst)

/-- The counters count the bytes stored and removed, at most `PIPESIZE` bytes are in between,
and the bytes come out as they went in. -/
theorem pipe_fifo (data : Fin PIPESIZE → UInt8) (s : State) (hr : PipeRun data s) :
    s.pi.nread = s.removed.length % UINT ∧ s.pi.nwrite = s.stored.length % UINT ∧
    (s.pi.nwrite+UINT-s.pi.nread) % UINT ≤ PIPESIZE ∧
    ∀ (k : ℕ) (ch : UInt8), s.removed[k]? = some ch → s.stored[k]? = some ch := by
  obtain ⟨⟨xs,hx,hs⟩,hnr,hnw⟩ := pipeRun_fifo hr
  refine ⟨hnr,hnw,?_,fun k ch hk => ?_⟩
  · rw [Pipe.nwrite,Pipe.nread,hx.pending (by decide)]
    exact hx.size
  · obtain ⟨hlt,-⟩ := List.getElem?_eq_some_iff.mp hk
    rw [hs,List.getElem?_append_left hlt,hk]

/-- Process 0 writes two bytes; process 1 takes one of them. -/
theorem pipe_fifo_one_byte : ∃ s, PipeRun (fun _ => 0) s ∧ s.stored = [7,8] ∧ s.removed = [7] ∧
    ∀ (k : ℕ) (ch : UInt8), s.removed[k]? = some ch → s.stored[k]? = some ch := by
  have hrun : (runEvents State.step (fun _ _ => true) (.init fun _ => 0)
      [.pipewrite 0 2,.run 0 none,.run 0 (some 7),.run 0 none,.run 0 (some 8),.run 0 none,
        .piperead 1 1,.run 1 none,.run 1 (some 0),.run 1 none]).map
      (fun s => decide (s.stored = [7,8] ∧ s.removed = [7])) = some true := by
    decide +kernel
  obtain ⟨s,hs,heq⟩ := Option.map_eq_some_iff.mp hrun
  obtain ⟨hst,hre⟩ := of_decide_eq_true heq
  have hr : PipeRun (fun _ => 0) s := (reaches_of_runEvents hs).mono fun _ _ _ => trivial
  exact ⟨s,hr,hst,hre,(pipe_fifo _ s hr).2.2.2⟩

end Pipes
end Xv6
