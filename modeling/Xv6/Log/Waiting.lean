import Xv6.Log.GroupCommit

/-! Who may be asleep in `begin_op`.
Log space becomes free when an operation ends and when a commit empties the log, and both end
with a wakeup; in between, the space can only shrink. -/
namespace Xv6
namespace RedoLog

open Function

/-- The second test of `begin_op`. -/
def Lacking (s : State) : Prop := (s.lh.n : ℤ) + (s.outstanding+1)*MAXOPBLOCKS > LOGBLOCKS

/-- Between commits the log of no operation is empty, and who sleeps finds no space. -/
structure Waiting (s : State) : Prop where
  empty : s.committing = false → s.outstanding = 0 → s.lh.n = 0
  lacking : s.committing = false → ∀ p, s.pc p = .asleep → Lacking s

variable {s t : State} {p : ℕ}

theorem Waiting.one_le (h : Waiting s) (hi : Inv s) (hc : s.committing = false) (hl : Lacking s) :
    1 ≤ s.outstanding := by
  have hcount := hi.count
  by_contra hlt
  have hz : s.outstanding = 0 := by omega
  have hn := h.empty hc hz
  rw [Lacking,hz,hn] at hl
  exact absurd hl (by decide)

theorem wakeup_not_asleep (pc : ℕ → Pc) (q : ℕ) : wakeup pc q ≠ .asleep := by
  unfold wakeup
  split <;> simp_all

theorem update_wakeup_not_asleep (pc : ℕ → Pc) (p q : ℕ) :
    update (wakeup pc) p .idle q ≠ .asleep := by
  by_cases hq : q = p
  · simp [hq]
  · rw [update_of_ne hq]
    exact wakeup_not_asleep pc q

/-- Who sleeps after a process was put elsewhere did so before. -/
theorem asleep_of_update {pc : ℕ → Pc} {q : ℕ} {c : Pc} (hc : c ≠ .asleep)
    (hq : update pc p c q = .asleep) : pc q = .asleep := by
  by_cases hqp : q = p
  · rw [hqp,update_self] at hq
    exact absurd hq hc
  · rwa [update_of_ne hqp] at hq

theorem Waiting.beginOp (h : Waiting s) (hi : Inv s) : Waiting (beginOp s p) := by
  unfold RedoLog.beginOp
  split
  · rename_i hc
    exact ⟨fun hf => absurd (hf.symm.trans hc) (by decide),
      fun hf => absurd (hf.symm.trans hc) (by decide)⟩
  · rename_i hc
    split
    · rename_i hl
      exact ⟨h.empty,fun _ _ _ => hl⟩
    · refine ⟨fun _ hz => ?_,fun hf q hq => ?_⟩
      · have hcount := hi.count
        simp only at hz
        omega
      · have hl := h.lacking hf q (asleep_of_update (by decide) hq)
        unfold Lacking at hl ⊢
        simp only [MAXOPBLOCKS] at hl ⊢
        omega

theorem Waiting.logWrite (h : Waiting s) (b : ℕ) : Waiting (logWrite s p b) := by
  unfold RedoLog.logWrite
  split
  · exact ⟨h.empty,h.lacking⟩
  split
  · exact ⟨h.empty,h.lacking⟩
  · rename_i hout
    refine ⟨fun _ hz => ?_,fun hc q hq => ?_⟩
    · simp only at hz
      omega
    · have hl := h.lacking hc q hq
      have hn : s.lh.n ≤ (s.lh.logWrite b).n := by
        unfold LogHeader.logWrite
        dsimp only
        split <;> omega
      unfold Lacking at hl ⊢
      simp only [MAXOPBLOCKS] at hl ⊢
      omega

theorem Waiting.endOp (hi : Inv s) (hp : s.pc p = .inOp) : Waiting (endOp s p) := by
  unfold RedoLog.endOp
  split
  · rename_i hc
    exact absurd hp (hi.not_inOp hc p)
  split
  · exact ⟨(nomatch ·),(nomatch ·)⟩
  · rename_i hz
    exact ⟨fun _ h0 => absurd h0 hz,fun _ q hq => absurd hq (update_wakeup_not_asleep _ p q)⟩

theorem Waiting.commitStep (h : Inv s) {c : CommitPc} (hp : s.pc p = .commit c) :
    Waiting (commitStep s p c) := by
  obtain ⟨hc,hph⟩ := h.commit p c hp
  have hopen {u : State} (hu : u.committing = s.committing) : Waiting u :=
    ⟨fun hf => absurd (hf.symm.trans (hu.trans hc)) (by decide),
      fun hf => absurd (hf.symm.trans (hu.trans hc)) (by decide)⟩
  cases c with
  | leave =>
    exact ⟨fun _ _ => hph.1,fun _ q hq => absurd hq (update_wakeup_not_asleep _ p q)⟩
  | enter | writeLog t | install t =>
    refine hopen ?_
    simp only [RedoLog.commitStep]
    split <;> rfl
  | writeHead | clear | clearHead => exact hopen rfl

theorem Waiting.step {e : Event} (h : Waiting s) (hi : Inv s) (hst : step s e = some t) :
    Waiting t := by
  unfold RedoLog.step at hst
  split at hst
  · cases hst
  cases e with
  | beginOp p =>
    simp only [Option.ite_none_right_eq_some,Option.some.injEq] at hst
    obtain ⟨-,rfl⟩ := hst
    exact h.beginOp hi
  | logWrite p b =>
    simp only [Option.ite_none_right_eq_some,Option.some.injEq] at hst
    obtain ⟨-,rfl⟩ := hst
    exact h.logWrite b
  | endOp p =>
    simp only [Option.ite_none_right_eq_some,Option.some.injEq] at hst
    obtain ⟨hp,rfl⟩ := hst
    exact .endOp hi hp
  | commit p =>
    dsimp only at hst
    split at hst
    · rename_i c hp
      obtain rfl := Option.some.inj hst
      exact .commitStep hi hp
    · cases hst
  | kill p =>
    simp only [Option.ite_none_right_eq_some,Option.some.injEq] at hst
    obtain ⟨-,rfl⟩ := hst
    exact ⟨h.empty,fun hc q hq => h.lacking hc q (asleep_of_update (by decide) hq)⟩

/-- In every state of every interleaving in which no commit runs, a process that is asleep in
`begin_op` still finds no space for its operation, and there is an operation whose end will
wake it. -/
theorem sleeper_lacks_space (s : State) (hr : Reaches step (fun _ _ => True) init s)
    (hc : s.committing = false) (p : ℕ) (hp : s.pc p = .asleep) :
    (s.lh.n : ℤ) + (s.outstanding+1)*MAXOPBLOCKS > LOGBLOCKS ∧ 1 ≤ s.outstanding := by
  have hall : Inv s ∧ Waiting s := by
    refine hr.invariant (P := fun s => Inv s ∧ Waiting s) ⟨Inv.init,fun _ _ => rfl,fun _ p hp => ?_⟩ ?_
    · exact nomatch hp
    · rintro a e b ⟨hi,h⟩ - hst
      exact ⟨hi.step hst,h.step hi hst⟩
  have hl := hall.2.lacking hc p hp
  exact ⟨hl,hall.2.one_le hall.1 hc hl⟩

/-- Three operations in progress reserve the whole log; a fourth process has to wait. -/
theorem sleeper_lacks_space_fourth : ∃ s : State, s.committing = false ∧ s.pc 3 = .asleep ∧
    s.outstanding = 3 ∧ (s.lh.n : ℤ) + (s.outstanding+1)*MAXOPBLOCKS > LOGBLOCKS := by
  have hrun : ((runEvents step (fun _ _ => true) init
      [.beginOp 0,.beginOp 1,.beginOp 2,.beginOp 3]).map fun s =>
        decide (s.committing = false ∧ s.pc 3 = .asleep ∧ s.outstanding = 3)) = some true := by
    decide +kernel
  obtain ⟨s,hs,heq⟩ := Option.map_eq_some_iff.mp hrun
  obtain ⟨hc,hp,ho⟩ := of_decide_eq_true heq
  have hr := (reaches_of_runEvents hs).mono fun _ _ _ => trivial
  exact ⟨s,hc,hp,ho,(sleeper_lacks_space s hr hc 3 hp).1⟩

end RedoLog
end Xv6
