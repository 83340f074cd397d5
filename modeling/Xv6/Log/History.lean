import Xv6.Log.Crash

/-! Histories of the redo log: transactions that are committed one after the other, with crashes
in between. -/
namespace Xv6
namespace RedoLog

open List

/-- `ts` are the transactions of which the header reached the disk, each with the contents its
blocks had in the cache, and `d` is the disk when none is under way. -/
inductive History (start : ℕ) (d₀ : Disk) : List (Log × (ℕ → Block)) → Disk → Prop
  | boot : History start d₀ [] d₀
  | commit {ts d} {log : Log} (view : ℕ → Block) : History start d₀ ts d → log.start = start →
      Transaction log →
      History start d₀ (ts ++ [(log,view)]) (applyWrites (commitIssued log ⟨view,d,[]⟩) d)
  /-- The machine stops after `k` block writes, and it may stop again while it recovers. -/
  | crash {ts ts' d dk} {log : Log} (view : ℕ → Block) (k : ℕ) : History start d₀ ts d →
      log.start = start → Transaction log →
      Reboots start (applyWrites ((commitIssued log ⟨view,d,[]⟩).take k) d) dk →
      ¬ HeaderReached start ((commitIssued log ⟨view,d,[]⟩).take k) ∧ ts' = ts ∨
        HeaderReached start ((commitIssued log ⟨view,d,[]⟩).take k) ∧ ts' = ts ++ [(log,view)] →
      History start d₀ ts' (recovered start dk)

/-- The blocks after the transactions `ts`, outside the log. -/
def contents (ts : List (Log × (ℕ → Block))) (home : ℕ → Block) : ℕ → Block :=
  ts.foldl (fun home t => afterTxn t.1 home t.2) home

theorem contents_append (ts : List (Log × (ℕ → Block))) (log : Log) (view home : ℕ → Block) :
    contents (ts++[(log,view)]) home = afterTxn log (contents ts home) view := by
  rw [contents,foldl_append]
  rfl

section commit

variable {log : Log} {view home : ℕ → Block} {d d' : Disk}

theorem Clean.afterTxn (h : Clean log.start (afterTxn log d view) d')
    (hd : Clean log.start home d) : Clean log.start (RedoLog.afterTxn log home view) d' := by
  refine ⟨h.empty,fun b hb => ?_⟩
  rw [h.eq b hb,RedoLog.afterTxn,RedoLog.afterTxn,hd.eq b hb]

theorem commit_done (h : Transaction log) (view : ℕ → Block) (hempty : headN (d log.start) = 0) :
    Clean log.start (afterTxn log d view) (applyWrites (commitIssued log ⟨view,d,[]⟩) d) := by
  rcases Nat.eq_zero_or_pos log.lh.n with hn | hn
  · rw [commitIssued_empty hn]
    refine ⟨hempty,fun b _ => (if_neg ?_).symm⟩
    rintro ⟨i,hi,-⟩
    omega
  · rw [commitIssued_eq h hn,commitWrites,applyWrites_append,applyWrites_cons]
    exact (headWrite_committed h view d).finish _ _

/-- The disk after a crash in `commit` and after recovery. -/
theorem commit_crashed (h : Transaction log) (d : Dev) (hempty : headN (d.disk log.start) = 0)
    {k : ℕ} {dk : Disk}
    (hr : Reboots log.start (applyWrites ((commitIssued log d).take k) d.disk) dk) :
    ¬ HeaderReached log.start ((commitIssued log d).take k) ∧
      Clean log.start d.disk (recovered log.start dk) ∨
    HeaderReached log.start ((commitIssued log d).take k) ∧
      Clean log.start (afterTxn log d.disk d.view) (recovered log.start dk) := by
  rcases Nat.eq_zero_or_pos log.lh.n with hn | hn
  · rw [commitIssued_empty hn] at hr ⊢
    refine .inl ⟨?_,recovered_clean (hr.clean ⟨by simpa using hempty,by simp⟩)⟩
    rintro ⟨w,hw,-⟩
    simp at hw
  · rcases commit_crash h hn d hempty k with ⟨hno,hc⟩ | ⟨hhead,hc | hc⟩
    · exact .inl ⟨hno,recovered_clean (hr.clean hc)⟩
    · refine .inr ⟨hhead,?_⟩
      rcases hr.committed h hc with hc' | hc'
      · exact recovered_committed h hc'
      · exact recovered_clean hc'
    · exact .inr ⟨hhead,recovered_clean (hr.clean hc)⟩

end commit

/-- However often the machine stops and wherever, the disk holds the effect of just those
transactions whose header was written, in their order, and the log is empty. -/
theorem history_kept {start : ℕ} {d₀ d : Disk} {ts : List (Log × (ℕ → Block))}
    (hempty : headN (d₀ start) = 0) (h : History start d₀ ts d) :
    headN (d start) = 0 ∧ ∀ b, ¬ InLog start b → d b = contents ts d₀ b := by
  suffices hclean : Clean start (contents ts d₀) d from ⟨hclean.empty,hclean.eq⟩
  induction h with
  | boot => exact ⟨hempty,fun _ _ => rfl⟩
  | commit view _ hs ht ih =>
    subst hs
    rw [contents_append]
    exact (commit_done ht view ih.empty).afterTxn ih
  | crash view k _ hs ht hr hts ih =>
    subst hs
    rcases commit_crashed ht ⟨view,_,[]⟩ ih.empty hr with ⟨hno,hc⟩ | ⟨hhead,hc⟩
    · obtain ⟨-,rfl⟩ := hts.resolve_right fun hh => hno hh.1
      exact ⟨hc.empty,fun b hb => (hc.eq b hb).trans (ih.eq b hb)⟩
    · obtain ⟨-,rfl⟩ := hts.resolve_left fun hh => hh.1 hhead
      rw [contents_append]
      exact hc.afterTxn ih

theorem history_kept_oneBlock : ∃ d, History 2 oneBlockDev.disk [(oneBlock,oneBlockDev.view)] d ∧
    d 50 = oneBlockDev.view 50 := by
  have ht : Transaction oneBlock :=
    ⟨by decide,by simp [oneBlock],by simp [InLog,oneBlock,LOGBLOCKS,MAXOPBLOCKS]⟩
  have h : History 2 oneBlockDev.disk ([]++[(oneBlock,oneBlockDev.view)]) _ :=
    .commit oneBlockDev.view .boot rfl ht
  have hlog : ¬ InLog 2 50 := by simp [InLog,LOGBLOCKS,MAXOPBLOCKS]
  exact ⟨_,h,(history_kept (by simp [oneBlockDev,headN,toInt32]) h).2 50 hlog⟩

end RedoLog
end Xv6
