import Xv6.Lib.Writes
import Xv6.Log.Model
import Mathlib.Tactic.Push

/-! Crash recovery of the redo log.
The block layer is taken as a plain map `view` from block numbers to contents over a
disk that changes only by `bwrite`.  The disk performs block writes one at a time in
issue order, so a crash leaves the effect of an initial segment of the issued writes. -/
namespace Xv6
namespace RedoLog

open Function List

abbrev Disk := ℕ → Block

/-- `view b` is what `bread` of block `b` finds, `issued` the block writes so far. -/
structure Dev where
  view : ℕ → Block
  disk : Disk
  issued : List (ℕ × Block)

/-- After a reboot no buffer is cached, so every `bread` goes to the disk. -/
def Dev.boot (disk : Disk) : Dev := ⟨disk,disk,[]⟩

def viewOps : BlockOps (StateM Dev) ℕ where
  bread b := pure b
  data b := do return (← get).view b
  setData b x := modify fun d => { d with view := update d.view b x }
  bwrite b := modify fun d =>
    { d with disk := update d.disk b (d.view b), issued := d.issued ++ [(b,d.view b)] }
  brelse _ := pure ()
  bunpin _ := pure ()

/-- Store blocks and write them through to the disk. -/
def Dev.write (d : Dev) (ws : List (ℕ × Block)) : Dev :=
  ⟨applyWrites ws d.view,applyWrites ws d.disk,d.issued ++ ws⟩

@[simp] theorem Dev.write_nil (d : Dev) : d.write [] = d := by
  simp [Dev.write]

theorem Dev.write_write (d : Dev) (ws vs : List (ℕ × Block)) :
    (d.write ws).write vs = d.write (ws++vs) := by
  simp [Dev.write,applyWrites_append]

/-- The block numbers `[start, start+LOGBLOCKS]` of the on-disk log. -/
def InLog (start b : ℕ) : Prop := start ≤ b ∧ b ≤ start+LOGBLOCKS

/-- The transaction of an in-memory header: at most `LOGBLOCKS` block numbers of type
`uint`, all of them outside the log. -/
structure Transaction (log : Log) : Prop where
  le : log.lh.n ≤ LOGBLOCKS
  lt : ∀ i < log.lh.n, log.lh.block i < 2^32
  home : ∀ i < log.lh.n, ¬ InLog log.start (log.lh.block i)

/-- Home block `b` belongs to the transaction. -/
def Logged (log : Log) (b : ℕ) : Prop := ∃ i < log.lh.n, log.lh.block i = b

/-- The writes of `write_log`. -/
def logWrites (log : Log) (view : ℕ → Block) (is : List ℕ) : List (ℕ × Block) :=
  is.map fun i => (log.start+i+1,view (log.lh.block i))

/-- The writes of `install_trans`. -/
def homeWrites (log : Log) (view : ℕ → Block) (is : List ℕ) : List (ℕ × Block) :=
  is.map fun i => (log.lh.block i,view (log.start+i+1))

theorem run_writeHead (log : Log) (d : Dev) :
    (writeHead viewOps log).run d =
      pure ((),d.write [(log.start,encodeHead log.lh (d.view log.start))]) := by
  simp [writeHead,viewOps,Dev.write]

theorem run_readHead (log : Log) (d : Dev) :
    (readHead viewOps log).run d =
      pure ({ log with lh := decodeHead log.lh (d.view log.start) },d) := by
  simp [readHead,viewOps]

theorem run_logBlock (log : Log) (i : ℕ) (d : Dev) :
    (logBlock viewOps log i).run d =
      pure ((),d.write [(log.start+i+1,d.view (log.lh.block i))]) := by
  simp [logBlock,viewOps,Dev.write]

theorem run_installBlock (log : Log) (recovering : Bool) (i : ℕ) (d : Dev) :
    (installBlock viewOps log recovering i).run d =
      pure ((),d.write [(log.lh.block i,d.view (log.start+i+1))]) := by
  cases recovering <;> simp [installBlock,viewOps,Dev.write]

theorem Transaction.ne_log {log : Log} (h : Transaction log) {i j : ℕ} (hi : i < log.lh.n)
    (hj : j < log.lh.n) : log.lh.block i ≠ log.start+j+1 := by
  intro he
  have hle := h.le
  apply h.home i hi
  rw [he]
  exact ⟨by omega,by omega⟩

/-- A loop whose rounds each write one block, with a value that no other round changes,
issues those writes in order. -/
theorem run_forM_write (body : ℕ → StateM Dev Unit) (dst src : ℕ → ℕ) (is : List ℕ)
    (hbody : ∀ i d, (body i).run d = pure ((),d.write [(dst i,d.view (src i))]))
    (hne : ∀ i ∈ is, ∀ j ∈ is, src i ≠ dst j) (d : Dev) :
    (is.forM body).run d = pure ((),d.write (is.map fun i => (dst i,d.view (src i)))) := by
  induction is generalizing d with
  | nil => simp
  | cons i is ih =>
    have hsrc (j : ℕ) (hj : j ∈ is) :
        (d.write [(dst i,d.view (src i))]).view (src j) = d.view (src j) := by
      simp [Dev.write,update_of_ne (hne j (by simp [hj]) i (by simp))]
    have hmap : (is.map fun j => (dst j,(d.write [(dst i,d.view (src i))]).view (src j))) =
        is.map fun j => (dst j,d.view (src j)) := by
      apply map_congr_left
      intro j hj
      rw [hsrc j hj]
    have hr := ih (fun a ha b hb => hne a (by simp [ha]) b (by simp [hb]))
      (d.write [(dst i,d.view (src i))])
    rw [hmap,Dev.write_write] at hr
    simp only [forM_eq_forM] at hr ⊢
    simp only [forM_cons,StateT.run_bind,hbody,pure_bind,hr]
    simp

theorem run_writeLog {log : Log} (h : Transaction log) (d : Dev) :
    (writeLog viewOps log).run d =
      pure ((),d.write (logWrites log d.view (range log.lh.n))) := by
  apply run_forM_write _ (fun i => log.start+i+1) log.lh.block _ (run_logBlock log)
  intro i hi j hj
  exact h.ne_log (mem_range.mp hi) (mem_range.mp hj)

theorem run_installTrans {log : Log} (h : Transaction log) (recovering : Bool) (d : Dev) :
    (installTrans viewOps log recovering).run d =
      pure ((),d.write (homeWrites log d.view (range log.lh.n))) := by
  apply run_forM_write _ log.lh.block (fun i => log.start+i+1) _ (run_installBlock log recovering)
  intro i hi j hj
  exact (h.ne_log (mem_range.mp hj) (mem_range.mp hi)).symm

/-- The writes of a whole commit: log blocks, header, home blocks, cleared header. -/
def commitWrites (log : Log) (view : ℕ → Block) : List (ℕ × Block) :=
  logWrites log view (List.range log.lh.n) ++
    ((log.start,encodeHead log.lh (view log.start)) ::
      ((List.range log.lh.n).map (fun i => (log.lh.block i,view (log.lh.block i))) ++
        [(log.start,encodeHead log.clear.lh (encodeHead log.lh (view log.start)))]))

theorem logWrites_ne_start (log : Log) (view : ℕ → Block) (is : List ℕ) :
    ∀ w ∈ logWrites log view is, w.1 ≠ log.start := by
  intro w hw
  obtain ⟨i,-,rfl⟩ := mem_map.mp hw
  simp only
  omega

theorem Transaction.ne_start {log : Log} (h : Transaction log) {i : ℕ} (hi : i < log.lh.n) :
    log.lh.block i ≠ log.start := by
  intro he
  apply h.home i hi
  rw [he]
  exact ⟨le_refl _,by omega⟩

/-- The log block of round `i` holds the new contents of the `i`-th home block. -/
theorem applyWrites_logWrites (log : Log) (view d : ℕ → Block) {i n : ℕ} (hi : i < n) :
    applyWrites (logWrites log view (range n)) d (log.start+i+1) =
      view (log.lh.block i) := by
  apply applyWrites_of_mem
  · exact ⟨_,mem_map.mpr ⟨i,mem_range.mpr hi,rfl⟩,rfl⟩
  · intro w hw he
    obtain ⟨j,-,rfl⟩ := mem_map.mp hw
    have hj : j = i := by simp only at he; omega
    rw [hj]

theorem run_commit {log : Log} (h : Transaction log) (hn : 0 < log.lh.n) (d : Dev) :
    (commit viewOps log).run d = pure (log.clear,d.write (commitWrites log d.view)) := by
  have hstart : applyWrites (logWrites log d.view (range log.lh.n)) d.view log.start =
      d.view log.start :=
    applyWrites_of_not_mem _ _ (logWrites_ne_start log d.view _)
  have hhome : homeWrites log
      (d.write (logWrites log d.view (range log.lh.n) ++
        [(log.start,encodeHead log.lh (d.view log.start))])).view (range log.lh.n) =
      (range log.lh.n).map (fun i => (log.lh.block i,d.view (log.lh.block i))) := by
    apply map_congr_left
    intro i hi
    have hne : log.start+i+1 ≠ log.start := by omega
    simp only [Dev.write,applyWrites_append,applyWrites_cons,applyWrites_nil,
      update_of_ne hne,applyWrites_logWrites log _ _ (mem_range.mp hi)]
  have hclear : (d.write (logWrites log d.view (range log.lh.n) ++
      (log.start,encodeHead log.lh (d.view log.start)) ::
      (range log.lh.n).map (fun i => (log.lh.block i,d.view (log.lh.block i))))).view
        log.start = encodeHead log.lh (d.view log.start) := by
    simp only [Dev.write,applyWrites_append,applyWrites_cons]
    rw [applyWrites_of_not_mem]
    · simp
    · intro w hw
      obtain ⟨i,hi,rfl⟩ := mem_map.mp hw
      exact h.ne_start (mem_range.mp hi)
  have hview : (d.write (logWrites log d.view (range log.lh.n))).view log.start =
      d.view log.start := hstart
  have hcs : log.clear.start = log.start := rfl
  simp only [commit,gt_iff_lt,hn,if_true,StateT.run_bind,run_writeLog h,run_writeHead,
    run_installTrans h,pure_bind,Dev.write_write,hview,hhome,hcs,StateT.run_pure]
  simp [commitWrites,hclear]

/-- Result and final state of a routine. -/
def exec {α : Type} (c : StateM Dev α) (d : Dev) : α × Dev := Id.run (c.run d)

/-- The block writes `commit` issues, in order. -/
def commitIssued (log : Log) (d : Dev) : List (ℕ × Block) :=
  (exec (commit viewOps log) { d with issued := [] }).2.issued

/-- The block writes `recover_from_log` issues after a reboot from `disk`. -/
def recoverIssued (start : ℕ) (disk : Disk) : List (ℕ × Block) :=
  (exec (recoverFromLog viewOps (Log.boot start)) (Dev.boot disk)).2.issued

/-- The disk once `recover_from_log` has completed after a reboot from `disk`. -/
def recovered (start : ℕ) (disk : Disk) : Disk :=
  (exec (recoverFromLog viewOps (Log.boot start)) (Dev.boot disk)).2.disk

/-- Any number of reboots, each crashing between two block writes of its recovery. -/
inductive Reboots (start : ℕ) : Disk → Disk → Prop
  | refl (d) : Reboots start d d
  | crash {d d'} (j : ℕ) : Reboots start d d' →
      Reboots start d (applyWrites ((recoverIssued start d').take j) d')

/-- The header write with `n > 0` is among the writes `ws`. -/
def HeaderReached (start : ℕ) (ws : List (ℕ × Block)) : Prop :=
  ∃ w ∈ ws, w.1 = start ∧ 0 < headN w.2

/-- No transaction is pending and the home blocks are those of `home`. -/
structure Clean (start : ℕ) (home : ℕ → Block) (d : Disk) : Prop where
  empty : headN (d start) = 0
  eq : ∀ b, ¬ InLog start b → d b = home b

/-- The header names the transaction, the log holds its new contents, and only home
blocks of the transaction may differ from `old`. -/
structure Committed (log : Log) (old new : ℕ → Block) (d : Disk) : Prop where
  head : headN (d log.start) = log.lh.n
  block : ∀ i < log.lh.n, headBlock (d log.start) i = log.lh.block i
  logged : ∀ i < log.lh.n, d (log.start+i+1) = new (log.lh.block i)
  other : ∀ b, ¬ InLog log.start b → ¬ Logged log b → d b = old b

instance (log : Log) (b : ℕ) : Decidable (Logged log b) :=
  inferInstanceAs (Decidable (∃ i < log.lh.n, log.lh.block i = b))

/-- The home blocks after the transaction. -/
def afterTxn (log : Log) (old new : ℕ → Block) (b : ℕ) : Block :=
  if Logged log b then new b else old b

theorem headN_clear (log : Log) (hb : Block) : headN (encodeHead log.clear.lh hb) = 0 := by
  rw [headN_encodeHead _ _ (by simp [Log.clear])]
  simp [Log.clear]

/-- The log as `read_head` finds it after a reboot. -/
def headLog (start : ℕ) (disk : Disk) : Log :=
  ⟨start,decodeHead (Log.boot start).lh (disk start)⟩

@[simp] theorem headLog_start (start : ℕ) (disk : Disk) : (headLog start disk).start = start := by
  simp only [headLog]

@[simp] theorem headLog_n (start : ℕ) (disk : Disk) :
    (headLog start disk).lh.n = headN (disk start) := by
  simp only [headLog,decodeHead]

theorem headLog_block (start : ℕ) (disk : Disk) {i : ℕ} (hi : i < headN (disk start)) :
    (headLog start disk).lh.block i = headBlock (disk start) i := by
  simp only [headLog,decodeHead,hi,if_true]

@[simp] theorem clear_start (log : Log) : log.clear.start = log.start := by
  simp only [Log.clear]

/-- The writes of `recover_from_log`. -/
def recoverWrites (start : ℕ) (disk : Disk) : List (ℕ × Block) :=
  homeWrites (headLog start disk) disk (List.range (headN (disk start))) ++
    [(start,encodeHead (headLog start disk).clear.lh (disk start))]

theorem run_recoverFromLog {start : ℕ} {disk : Disk} (h : Transaction (headLog start disk)) :
    (recoverFromLog viewOps (Log.boot start)).run (Dev.boot disk) =
      pure ((headLog start disk).clear,(Dev.boot disk).write (recoverWrites start disk)) := by
  have hread : (readHead viewOps (Log.boot start)).run (Dev.boot disk) =
      pure (headLog start disk,Dev.boot disk) := by
    rw [run_readHead]
    simp only [headLog,Log.boot,Dev.boot]
  have hinst := run_installTrans h true (Dev.boot disk)
  have hview : (Dev.boot disk).view = disk := by simp only [Dev.boot]
  rw [headLog_n,hview] at hinst
  have hstart : ((Dev.boot disk).write (homeWrites (headLog start disk) disk
      (range (headN (disk start))))).view start = disk start := by
    simp only [Dev.write,hview]
    apply applyWrites_of_not_mem
    intro w hw
    obtain ⟨i,hi,rfl⟩ := mem_map.mp hw
    simpa using h.ne_start (i:=i) (by simpa using hi)
  rw [recoverFromLog,StateT.run_bind,hread,pure_bind]
  simp only [StateT.run_bind,hinst,pure_bind,run_writeHead,clear_start,headLog_start,hstart,
    Dev.write_write,StateT.run_pure,recoverWrites]

theorem recoverIssued_eq {start : ℕ} {disk : Disk} (h : Transaction (headLog start disk)) :
    recoverIssued start disk = recoverWrites start disk := by
  rw [recoverIssued,exec,run_recoverFromLog h]
  simp [Dev.write,Dev.boot]

theorem recovered_eq {start : ℕ} {disk : Disk} (h : Transaction (headLog start disk)) :
    recovered start disk = applyWrites (recoverIssued start disk) disk := by
  rw [recoverIssued_eq h]
  rw [recovered,exec,run_recoverFromLog h]
  simp [Dev.write,Dev.boot]

theorem Clean.transaction {start : ℕ} {home : ℕ → Block} {d : Disk} (h : Clean start home d) :
    Transaction (headLog start d) := by
  constructor <;> simp [h.empty]

/-- With an empty header, recovery only rewrites the header. -/
theorem recover_clean {start : ℕ} {home : ℕ → Block} {d : Disk} (h : Clean start home d) (j : ℕ) :
    Clean start home (applyWrites ((recoverIssued start d).take j) d) := by
  have hi : recoverIssued start d = [(start,encodeHead (headLog start d).clear.lh (d start))] := by
    simp [recoverIssued_eq h.transaction,recoverWrites,homeWrites,h.empty]
  rw [hi]
  apply applyWrites_take_induction (Clean start home) _ _ j d h
  intro w hw d' hd'
  obtain rfl := mem_singleton.mp hw
  constructor
  · simp [headN_clear]
  · intro b hb
    have hne : b ≠ start := by rintro rfl; exact hb ⟨le_refl _,by omega⟩
    simp [update_of_ne hne,hd'.eq b hb]

theorem Committed.headLog_block {log : Log} {old new : ℕ → Block} {d : Disk}
    (hc : Committed log old new d) {i : ℕ} (hi : i < log.lh.n) :
    (headLog log.start d).lh.block i = log.lh.block i := by
  rw [RedoLog.headLog_block _ _ (by rw [hc.head]; exact hi),hc.block i hi]

/-- The header of a committed disk decodes to the transaction. -/
theorem Committed.transaction {log : Log} {old new : ℕ → Block} {d : Disk}
    (hc : Committed log old new d) (h : Transaction log) :
    Transaction (headLog log.start d) := by
  refine ⟨?_,?_,?_⟩
  · simpa [hc.head] using h.le
  · intro i hi
    rw [headLog_n,hc.head] at hi
    simpa only [hc.headLog_block hi] using h.lt i hi
  · intro i hi
    rw [headLog_n,hc.head] at hi
    simpa only [hc.headLog_block hi,headLog_start] using h.home i hi

theorem Committed.recoverIssued {log : Log} {old new : ℕ → Block} {d : Disk}
    (hc : Committed log old new d) (h : Transaction log) :
    recoverIssued log.start d =
      (range log.lh.n).map (fun i => (log.lh.block i,new (log.lh.block i))) ++
        [(log.start,encodeHead (headLog log.start d).clear.lh (d log.start))] := by
  rw [recoverIssued_eq (hc.transaction h),recoverWrites,hc.head]
  congr 1
  apply map_congr_left
  intro i hi
  have hi' := mem_range.mp hi
  rw [hc.headLog_block hi',headLog_start,hc.logged i hi']

/-- Installing one home block keeps a committed disk committed. -/
theorem Committed.install {log : Log} {old new : ℕ → Block} {d : Disk}
    (hc : Committed log old new d) (h : Transaction log) {i : ℕ} (hi : i < log.lh.n) :
    Committed log old new (update d (log.lh.block i) (new (log.lh.block i))) := by
  have hs := (h.ne_start hi).symm
  refine ⟨?_,?_,?_,?_⟩
  · rw [update_of_ne hs,hc.head]
  · intro j hj
    rw [update_of_ne hs,hc.block j hj]
  · intro j hj
    rw [update_of_ne (h.ne_log hi hj).symm,hc.logged j hj]
  · intro b hb hl
    have hne : b ≠ log.lh.block i := by rintro rfl; exact hl ⟨i,hi,rfl⟩
    rw [update_of_ne hne,hc.other b hb hl]

/-- All home blocks installed and the header cleared: the transaction is done. -/
theorem Committed.finish {log : Log} {old new : ℕ → Block} {d : Disk}
    (hc : Committed log old new d) (log' : Log) (hb : Block) :
    Clean log.start (afterTxn log old new)
      (applyWrites ((range log.lh.n).map (fun i => (log.lh.block i,new (log.lh.block i))) ++
        [(log.start,encodeHead log'.clear.lh hb)]) d) := by
  rw [applyWrites_append]
  constructor
  · simp [headN_clear]
  · intro b hlog
    have hne : b ≠ log.start := by rintro rfl; exact hlog ⟨le_refl _,by omega⟩
    simp only [applyWrites_cons,applyWrites_nil,update_of_ne hne,afterTxn]
    split
    · rename_i hl
      obtain ⟨i,hi,rfl⟩ := hl
      apply applyWrites_of_mem
      · exact ⟨_,mem_map.mpr ⟨i,mem_range.mpr hi,rfl⟩,rfl⟩
      · intro w hw he
        obtain ⟨j,-,rfl⟩ := mem_map.mp hw
        simp only at he
        simp only [he]
    · rename_i hl
      rw [applyWrites_of_not_mem,hc.other b hlog hl]
      intro w hw he
      obtain ⟨j,hj,rfl⟩ := mem_map.mp hw
      exact hl ⟨j,mem_range.mp hj,he⟩

theorem take_append_singleton {α : Type} (l : List α) (a : α) (k : ℕ) :
    (l++[a]).take k = l.take k ∨ (l++[a]).take k = l++[a] := by
  by_cases hk : k ≤ l.length
  · left
    rw [take_append_of_le_length hk]
  · right
    exact take_of_length_le (by simp; omega)

/-- Every initial segment of installing and clearing leaves the transaction pending or done. -/
theorem Committed.take {log : Log} {old new : ℕ → Block} {d : Disk} (h : Transaction log)
    (hc : Committed log old new d) (log' : Log) (hb : Block) (k : ℕ) :
    Committed log old new (applyWrites (((range log.lh.n).map
        (fun i => (log.lh.block i,new (log.lh.block i))) ++
        [(log.start,encodeHead log'.clear.lh hb)]).take k) d) ∨
      Clean log.start (afterTxn log old new) (applyWrites (((range log.lh.n).map
        (fun i => (log.lh.block i,new (log.lh.block i))) ++
        [(log.start,encodeHead log'.clear.lh hb)]).take k) d) := by
  rcases take_append_singleton ((range log.lh.n).map
      (fun i => (log.lh.block i,new (log.lh.block i))))
      (log.start,encodeHead log'.clear.lh hb) k with ht | ht
  · left
    rw [ht]
    apply applyWrites_take_induction (Committed log old new) _ _ k d hc
    intro w hw d' hd'
    obtain ⟨i,hi,rfl⟩ := mem_map.mp hw
    exact hd'.install h (mem_range.mp hi)
  · right
    rw [ht]
    exact hc.finish log' hb

theorem recover_committed {log : Log} {old new : ℕ → Block} {d : Disk} (h : Transaction log)
    (hc : Committed log old new d) (j : ℕ) :
    Committed log old new (applyWrites ((RedoLog.recoverIssued log.start d).take j) d) ∨
      Clean log.start (afterTxn log old new)
        (applyWrites ((RedoLog.recoverIssued log.start d).take j) d) := by
  rw [hc.recoverIssued h]
  exact hc.take h _ _ j

theorem recovered_clean {start : ℕ} {home : ℕ → Block} {d : Disk} (h : Clean start home d) :
    Clean start home (recovered start d) := by
  rw [recovered_eq h.transaction,← take_length (l:=recoverIssued start d)]
  exact recover_clean h _

theorem recovered_committed {log : Log} {old new : ℕ → Block} {d : Disk} (h : Transaction log)
    (hc : Committed log old new d) :
    Clean log.start (afterTxn log old new) (recovered log.start d) := by
  rw [recovered_eq (hc.transaction h),hc.recoverIssued h]
  exact hc.finish _ _

theorem Reboots.clean {start : ℕ} {home : ℕ → Block} {d d' : Disk} (hr : Reboots start d d')
    (h : Clean start home d) : Clean start home d' := by
  induction hr with
  | refl => exact h
  | crash j _ ih => exact recover_clean ih j

theorem Reboots.committed {log : Log} {old new : ℕ → Block} {d d' : Disk} (h : Transaction log)
    (hr : Reboots log.start d d') (hc : Committed log old new d) :
    Committed log old new d' ∨ Clean log.start (afterTxn log old new) d' := by
  induction hr with
  | refl => exact Or.inl hc
  | crash j _ ih =>
    rcases ih with ih | ih
    · exact recover_committed h ih j
    · exact Or.inr (recover_clean ih j)

theorem commitIssued_eq {log : Log} (h : Transaction log) (hn : 0 < log.lh.n) (d : Dev) :
    commitIssued log d = commitWrites log d.view := by
  rw [commitIssued,exec,run_commit h hn]
  simp [Dev.write]

theorem commitIssued_empty {log : Log} (hn : log.lh.n = 0) (d : Dev) : commitIssued log d = [] := by
  simp [commitIssued,exec,commit,hn]

/-- While only log blocks are written, no home block and no header changes. -/
theorem logWrites_clean {log : Log} (h : Transaction log) (view : ℕ → Block) {disk : Disk}
    (hempty : headN (disk log.start) = 0) (k : ℕ) :
    Clean log.start disk
      (applyWrites ((logWrites log view (range log.lh.n)).take k) disk) := by
  apply applyWrites_take_induction (Clean log.start disk) _ _ k disk ⟨hempty,fun _ _ => rfl⟩
  intro w hw d' hd'
  obtain ⟨i,hi,rfl⟩ := mem_map.mp hw
  have hi' := mem_range.mp hi
  have hle := h.le
  constructor
  · have hne : log.start ≠ log.start+i+1 := by omega
    rw [update_of_ne hne,hd'.empty]
  · intro b hb
    have hne : b ≠ log.start+i+1 := by
      rintro rfl
      exact hb ⟨by omega,by omega⟩
    rw [update_of_ne hne,hd'.eq b hb]

/-- The header write commits the transaction. -/
theorem headWrite_committed {log : Log} (h : Transaction log) (view : ℕ → Block) (disk : Disk) :
    Committed log disk view (update
      (applyWrites (logWrites log view (range log.lh.n)) disk) log.start
      (encodeHead log.lh (view log.start))) := by
  refine ⟨?_,?_,?_,?_⟩
  · rw [update_self,headN_encodeHead _ _ h.le]
  · intro i hi
    rw [update_self,headBlock_encodeHead _ _ h.le hi,Nat.mod_eq_of_lt (h.lt i hi)]
  · intro i hi
    have hne : log.start+i+1 ≠ log.start := by omega
    rw [update_of_ne hne,applyWrites_logWrites log view disk hi]
  · intro b hb _
    have hne : b ≠ log.start := by rintro rfl; exact hb ⟨le_refl _,by omega⟩
    have hle := h.le
    rw [update_of_ne hne,applyWrites_of_not_mem]
    intro w hw he
    obtain ⟨i,hi,rfl⟩ := mem_map.mp hw
    have hi' := mem_range.mp hi
    apply hb
    rw [← he]
    exact ⟨by simp only; omega,by simp only; omega⟩

/-- Every crash point of `commit`: before the header write the disk is unchanged at home,
from the header write on the transaction is pending or done. -/
theorem commit_crash {log : Log} (h : Transaction log) (hn : 0 < log.lh.n) (d : Dev)
    (hempty : headN (d.disk log.start) = 0) (k : ℕ) :
    (¬ HeaderReached log.start ((commitIssued log d).take k) ∧
      Clean log.start d.disk (applyWrites ((commitIssued log d).take k) d.disk)) ∨
    (HeaderReached log.start ((commitIssued log d).take k) ∧
      (Committed log d.disk d.view (applyWrites ((commitIssued log d).take k) d.disk) ∨
      Clean log.start (afterTxn log d.disk d.view)
        (applyWrites ((commitIssued log d).take k) d.disk))) := by
  have hlen : (logWrites log d.view (range log.lh.n)).length = log.lh.n := by
    simp [logWrites]
  rw [commitIssued_eq h hn,commitWrites]
  by_cases hk : k ≤ log.lh.n
  · left
    rw [take_append_of_le_length (by omega)]
    refine ⟨?_,logWrites_clean h d.view hempty k⟩
    rintro ⟨w,hw,hs,-⟩
    exact logWrites_ne_start log d.view _ w (mem_of_mem_take hw) hs
  · right
    obtain ⟨j,rfl⟩ : ∃ j, k = log.lh.n+(j+1) := ⟨k-log.lh.n-1,by omega⟩
    rw [take_append,take_of_length_le (by omega),hlen,Nat.add_sub_cancel_left,
      take_succ_cons,applyWrites_append,applyWrites_cons]
    constructor
    · refine ⟨(log.start,encodeHead log.lh (d.view log.start)),by simp,rfl,?_⟩
      rw [headN_encodeHead _ _ h.le]
      exact hn
    · exact (headWrite_committed h d.view d.disk).take h _ _ j

/-- Crash atomicity.  Whatever the crash point of `commit` and however many recoveries
crash after it, the first recovery that completes leaves an empty header, all home blocks
of the transaction new or all old according to whether the header write reached the disk,
and every other home block as it was. -/
theorem commit_crash_atomic (log : Log) (h : Transaction log) (d : Dev)
    (hempty : headN (d.disk log.start) = 0) (k : ℕ) (dk : Disk)
    (hr : Reboots log.start (applyWrites ((commitIssued log d).take k) d.disk) dk) :
    headN (recovered log.start dk log.start) = 0 ∧
    (HeaderReached log.start ((commitIssued log d).take k) →
      ∀ b, Logged log b → recovered log.start dk b = d.view b) ∧
    (¬ HeaderReached log.start ((commitIssued log d).take k) →
      ∀ b, Logged log b → recovered log.start dk b = d.disk b) ∧
    (∀ b, ¬ InLog log.start b → ¬ Logged log b → recovered log.start dk b = d.disk b) := by
  have hhome (b : ℕ) (hb : Logged log b) : ¬ InLog log.start b := by
    obtain ⟨i,hi,rfl⟩ := hb
    exact h.home i hi
  have hclean (hc : Clean log.start d.disk
      (applyWrites ((commitIssued log d).take k) d.disk)) :
      Clean log.start d.disk (recovered log.start dk) := recovered_clean (hr.clean hc)
  rcases Nat.eq_zero_or_pos log.lh.n with hn | hn
  · have hc := hclean (by rw [commitIssued_empty hn]; exact ⟨by simpa using hempty,by simp⟩)
    have hno (b : ℕ) : ¬ Logged log b := by rintro ⟨i,hi,-⟩; omega
    exact ⟨hc.empty,fun _ b hb => absurd hb (hno b),fun _ b hb => absurd hb (hno b),
      fun b hb _ => hc.eq b hb⟩
  · rcases commit_crash h hn d hempty k with ⟨hhead,hc⟩ | ⟨hhead,hc⟩
    · have hc := hclean hc
      exact ⟨hc.empty,fun hh => absurd hh hhead,fun _ b hb => hc.eq b (hhome b hb),
        fun b hb _ => hc.eq b hb⟩
    · have hdone : Clean log.start (afterTxn log d.disk d.view) (recovered log.start dk) := by
        rcases hc with hc | hc
        · rcases hr.committed h hc with hc' | hc'
          · exact recovered_committed h hc'
          · exact recovered_clean hc'
        · exact recovered_clean (hr.clean hc)
      refine ⟨hdone.empty,fun _ b hb => ?_,fun hh => absurd hhead hh,fun b hb hl => ?_⟩
      · rw [hdone.eq b (hhome b hb),afterTxn,if_pos hb]
      · rw [hdone.eq b hb,afterTxn,if_neg hl]

/-- A transaction of one block, home block 50, over an empty disk with the log at 2. -/
def oneBlock : Log := ⟨2,1,fun _ => 50⟩

def oneBlockDev : Dev := ⟨fun _ => Bytes.splice (Bytes.zero _) 0 [7],fun _ => Bytes.zero _,[]⟩

/-- Cut off right after its header write, the transaction is redone by recovery, also when
the first recovery crashes after one write. -/
theorem commit_crash_atomic_one_block :
    ∃ dk, Reboots 2 (applyWrites ((commitIssued oneBlock oneBlockDev).take 2) oneBlockDev.disk) dk ∧
      recovered 2 dk 50 = oneBlockDev.view 50 := by
  have ht : Transaction oneBlock :=
    ⟨by decide,by simp [oneBlock],by simp [InLog,oneBlock,LOGBLOCKS,MAXOPBLOCKS]⟩
  have hempty : headN (oneBlockDev.disk oneBlock.start) = 0 := by
    simp [oneBlockDev,headN,toInt32]
  have hhead : HeaderReached oneBlock.start ((commitIssued oneBlock oneBlockDev).take 2) := by
    rw [commitIssued_eq ht (by decide)]
    refine ⟨(2,encodeHead oneBlock.lh (oneBlockDev.view 2)),?_,rfl,?_⟩
    · simp [commitWrites,logWrites,oneBlock]
    · rw [headN_encodeHead _ _ (by decide)]
      decide
  have hrefl : Reboots oneBlock.start
      (applyWrites ((commitIssued oneBlock oneBlockDev).take 2) oneBlockDev.disk) _ := .refl _
  have hcrash := hrefl.crash 1
  exact ⟨_,hcrash,(commit_crash_atomic oneBlock ht oneBlockDev hempty 2 _ hcrash).2.1 hhead 50
    ⟨0,by decide,rfl⟩⟩

end RedoLog
end Xv6
