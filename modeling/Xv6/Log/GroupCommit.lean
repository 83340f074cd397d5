import Xv6.Log.Protocol

/-! Group commit.
The invariant ties `outstanding` to the operations in progress and describes the header
at each point of `commit()`; every result about runs follows from it. -/
namespace Xv6
namespace RedoLog

open Function List

namespace LogHeader

theorem mem_logged {lh : LogHeader} {b : ℕ} : b ∈ lh.logged ↔ ∃ i < lh.n, lh.block i = b := by
  simp [logged]

@[simp] theorem logged_length (lh : LogHeader) : lh.logged.length = lh.n := by
  simp [logged]

theorem search_of_not_mem {lh : LogHeader} {b : ℕ} (h : b ∉ lh.logged) : lh.search b = lh.n := by
  have hnone : (range lh.n).find? (fun i => decide (lh.block i = b)) = none := by
    apply find?_eq_none.mpr
    intro i hi
    simp only [decide_eq_true_eq]
    intro he
    exact h (mem_logged.mpr ⟨i,mem_range.mp hi,he⟩)
  simp [search,hnone]

theorem search_of_mem {lh : LogHeader} {b : ℕ} (h : b ∈ lh.logged) :
    lh.search b < lh.n ∧ lh.block (lh.search b) = b := by
  cases hf : (range lh.n).find? (fun i => decide (lh.block i = b)) with
  | none =>
    obtain ⟨i,hi,he⟩ := mem_logged.mp h
    have hno := find?_eq_none.mp hf i (mem_range.mpr hi)
    simp [he] at hno
  | some i =>
    have hmem := List.mem_of_find?_eq_some hf
    have hval := find?_some hf
    have hs : lh.search b = i := by simp [search,hf]
    rw [hs]
    exact ⟨mem_range.mp hmem,by simpa using hval⟩

/-- `log_write` absorbs a block that is in the log and appends any other. -/
theorem logged_logWrite (lh : LogHeader) (b : ℕ) :
    (lh.logWrite b).logged = if b ∈ lh.logged then lh.logged else lh.logged++[b] := by
  split
  · rename_i h
    obtain ⟨hlt,hval⟩ := search_of_mem h
    have hne : lh.search b ≠ lh.n := by omega
    have hblock : update lh.block (lh.search b) b = lh.block := by
      rw [update_eq_self_iff,hval]
    simp only [logged,logWrite,hne,if_false,hblock]
  · rename_i h
    have hs := search_of_not_mem h
    simp only [logged,logWrite,hs,if_true,range_succ,map_append,map_cons,
      map_nil,update_self]
    congr 1
    apply map_congr_left
    intro i hi
    have hlt := mem_range.mp hi
    rw [update_of_ne (by omega)]

theorem mem_logged_logWrite (lh : LogHeader) (b c : ℕ) :
    c ∈ (lh.logWrite b).logged ↔ c ∈ lh.logged ∨ c = b := by
  rw [logged_logWrite]
  split
  · rename_i h
    constructor
    · exact Or.inl
    · rintro (hc | rfl)
      · exact hc
      · exact h
  · simp

theorem nodup_logWrite {lh : LogHeader} (h : lh.logged.Nodup) (b : ℕ) :
    (lh.logWrite b).logged.Nodup := by
  rw [logged_logWrite]
  split
  · exact h
  · rename_i hb
    exact nodup_append.mpr ⟨h,by simp,by
      intro a ha c hc he
      rw [mem_singleton] at hc
      subst hc he
      exact hb ha⟩

theorem logged_take_succ {lh : LogHeader} {t : ℕ} (ht : t < lh.n) :
    lh.logged.take t++[lh.block t] = lh.logged.take (t+1) := by
  have hl : t < lh.logged.length := by simpa using ht
  rw [take_succ_eq_append_getElem hl]
  simp [logged]

end LogHeader

/-- Processes whose operation has begun and not ended. -/
def active (ops : List Op) : List ℕ := (ops.filter fun o => !o.ended).map Op.pid

theorem mem_active {ops : List Op} {p : ℕ} :
    p ∈ active ops ↔ ∃ o ∈ ops, o.ended = false ∧ o.pid = p := by
  simp [active,and_assoc]

theorem active_append (ops : List Op) (i p : ℕ) :
    active (ops++[⟨i,p,[],false⟩]) = active ops++[p] := by
  simp [active]

theorem record_ended (p b : ℕ) (o : Op) : (o.record p b).ended = o.ended := by
  unfold Op.record
  split <;> rfl

theorem record_pid (p b : ℕ) (o : Op) : (o.record p b).pid = o.pid := by
  unfold Op.record
  split <;> rfl

theorem record_id (p b : ℕ) (o : Op) : (o.record p b).id = o.id := by
  unfold Op.record
  split <;> rfl

theorem finish_id (p : ℕ) (o : Op) : (o.finish p).id = o.id := by
  unfold Op.finish
  split <;> rfl

theorem finish_blocks (p : ℕ) (o : Op) : (o.finish p).blocks = o.blocks := by
  unfold Op.finish
  split <;> rfl

theorem active_record (ops : List Op) (p b : ℕ) :
    active (ops.map (Op.record p b)) = active ops := by
  induction ops with
  | nil => rfl
  | cons o ops ih =>
    simp only [active,map_cons,filter_cons,record_ended] at ih ⊢
    split <;> simp [ih,record_pid]

/-- `end_op` removes its process from the active ones. -/
theorem active_finish (ops : List Op) (p : ℕ) :
    active (ops.map (Op.finish p)) = (active ops).filter (fun q => q ≠ p) := by
  induction ops with
  | nil => rfl
  | cons o ops ih =>
    rcases o with ⟨i,q,bs,e⟩
    cases e with
    | true => simpa [active,Op.finish] using ih
    | false =>
      by_cases hq : q = p
      · simpa [active,Op.finish,hq] using ih
      · simpa [active,Op.finish,hq] using ih

/-- `L` lists exactly the blocks logged by the operations. -/
def Covers (L : List ℕ) (ops : List Op) : Prop := ∀ b, b ∈ L ↔ ∃ o ∈ ops, b ∈ o.blocks

theorem Covers.record {L : List ℕ} {ops : List Op} (h : Covers L ops) {p : ℕ} (b : ℕ)
    (hp : p ∈ active ops) {L' : List ℕ} (hL : ∀ c, c ∈ L' ↔ c ∈ L ∨ c = b) :
    Covers L' (ops.map (Op.record p b)) := by
  intro c
  rw [hL]
  constructor
  · rintro (hc | rfl)
    · obtain ⟨o,ho,hb⟩ := (h c).mp hc
      refine ⟨o.record p b,mem_map_of_mem ho,?_⟩
      unfold Op.record
      split <;> simp [hb]
    · obtain ⟨o,ho,he,rfl⟩ := mem_active.mp hp
      refine ⟨o.record o.pid c,mem_map_of_mem ho,?_⟩
      simp [Op.record,he]
  · rintro ⟨o',ho',hb⟩
    obtain ⟨o,ho,rfl⟩ := mem_map.mp ho'
    unfold Op.record at hb
    split at hb
    · rcases mem_append.mp hb with hb | hb
      · exact Or.inl ((h c).mpr ⟨o,ho,hb⟩)
      · exact Or.inr (by simpa using hb)
    · exact Or.inl ((h c).mpr ⟨o,ho,hb⟩)

theorem Covers.finish {L : List ℕ} {ops : List Op} (h : Covers L ops) (p : ℕ) :
    Covers L (ops.map (Op.finish p)) := by
  intro c
  rw [h c]
  simp [finish_blocks]

theorem Covers.begin {L : List ℕ} {ops : List Op} (h : Covers L ops) (i p : ℕ) :
    Covers L (ops++[⟨i,p,[],false⟩]) := by
  intro c
  rw [h c]
  simp [or_and_right,exists_or]

/-- What holds at each point of `commit()`. -/
def PhaseOk (lh : LogHeader) (ops : List Op) (cur : Commit) : CommitPc → Prop
  | .enter => cur = noCommit ∧ Covers lh.logged ops
  | .writeLog t => t ≤ lh.n ∧ cur = ⟨[],lh.logged.take t,[],[]⟩ ∧ Covers lh.logged ops
  | .writeHead => cur = ⟨[],lh.logged,[],[]⟩ ∧ Covers lh.logged ops
  | .install t =>
    t ≤ lh.n ∧ cur = ⟨[],lh.logged,lh.logged,lh.logged.take t⟩ ∧ Covers lh.logged ops
  | .clear => cur = ⟨[],lh.logged,lh.logged,lh.logged⟩ ∧ Covers lh.logged ops
  | .clearHead | .leave =>
    lh.n = 0 ∧ cur = ⟨[],cur.logged,cur.logged,cur.logged⟩ ∧ Covers cur.logged ops

/-- A commit wrote exactly the blocks of its operations, all of which had ended. -/
structure CommitOk (c : Commit) : Prop where
  ended : ∀ o ∈ c.ops, o.ended = true
  logged : Covers c.logged c.ops
  header : c.header = c.logged
  installed : c.installed = c.logged

/-- All operations so far, committed ones first. -/
def allIds (s : State) : List ℕ :=
  s.commits.flatMap (fun c => c.ops.map Op.id) ++ s.ops.map Op.id

structure Inv (s : State) : Prop where
  panic : s.panicked = none ∨ s.panicked = some .tooBigATransaction
  nodup : (active s.ops).Nodup
  inOp : ∀ p, s.pc p = .inOp ↔ p ∈ active s.ops
  count : s.outstanding = (active s.ops).length
  drained : s.committing = true → active s.ops = []
  commit : ∀ p c, s.pc p = .commit c → s.committing = true ∧ PhaseOk s.lh s.ops s.cur c
  single : ∀ p q c c', s.pc p = .commit c → s.pc q = .commit c' → p = q
  open_ : s.committing = false → s.cur = noCommit ∧ Covers s.lh.logged s.ops
  block : s.lh.logged.Nodup
  commits : ∀ c ∈ s.commits, CommitOk c
  ids : (allIds s).Nodup
  fresh : ∀ i ∈ allIds s, i < s.nextId

theorem Inv.init : Inv init := by
  constructor <;> simp [RedoLog.init,active,LogHeader.logged,Covers,allIds]

/-- Program counters may move among `idle`, `woken` and `asleep` freely. -/
theorem Inv.setPc {s : State} (h : Inv s) (pc : ℕ → Pc)
    (hin : ∀ q, pc q = .inOp ↔ s.pc q = .inOp) (hc : ∀ q c, pc q = .commit c → s.pc q = .commit c) :
    Inv { s with pc := pc } where
  panic := h.panic
  nodup := h.nodup
  inOp p := (hin p).trans (h.inOp p)
  count := h.count
  drained := h.drained
  commit p c hp := h.commit p c (hc p c hp)
  single p q c c' hp hq := h.single p q c c' (hc p c hp) (hc q c' hq)
  open_ := h.open_
  block := h.block
  commits := h.commits
  ids := h.ids
  fresh := h.fresh

theorem Inv.not_commit {s : State} (h : Inv s) (hc : s.committing = false) (q : ℕ)
    (c : CommitPc) : s.pc q ≠ .commit c := by
  intro hq
  have := (h.commit q c hq).1
  simp [hc] at this

theorem wakeup_inOp (pc : ℕ → Pc) (q : ℕ) : wakeup pc q = .inOp ↔ pc q = .inOp := by
  unfold wakeup
  split <;> simp_all

theorem wakeup_commit {pc : ℕ → Pc} {q : ℕ} {c : CommitPc} (h : wakeup pc q = .commit c) :
    pc q = .commit c := by
  unfold wakeup at h
  split at h
  · simp at h
  · exact h

theorem Inv.updatePc {s : State} (h : Inv s) {p : ℕ} {st : Pc} (hp : s.pc p ≠ .inOp)
    (hst : st ≠ .inOp) (hc : ∀ c, st ≠ .commit c) :
    Inv { s with pc := update s.pc p st } := by
  apply h.setPc
  · intro q
    by_cases hq : q = p
    · subst hq
      simp [hp,hst]
    · rw [update_of_ne hq]
  · intro q c hqc
    by_cases hq : q = p
    · subst hq
      rw [update_self] at hqc
      exact absurd hqc (hc c)
    · rwa [update_of_ne hq] at hqc

theorem Inv.sleep {s : State} (h : Inv s) {p : ℕ} (hp : s.pc p = .idle ∨ s.pc p = .woken) :
    Inv { s with pc := update s.pc p .asleep } :=
  h.updatePc (by rcases hp with hp | hp <;> simp [hp]) (by simp) (by simp)

theorem Inv.beginOp {s : State} (h : Inv s) {p : ℕ} (hp : s.pc p = .idle ∨ s.pc p = .woken) :
    Inv (beginOp s p) := by
  unfold RedoLog.beginOp
  split
  · exact h.sleep hp
  · rename_i hcommit
    have hcommit' : s.committing = false := by simpa using hcommit
    split
    · exact h.sleep hp
    · have hnot : p ∉ active s.ops := by
        rw [← h.inOp p]
        rcases hp with hp | hp <;> simp [hp]
      have hcov := h.open_ hcommit'
      have hids : allIds { s with
          outstanding := s.outstanding+1
          pc := update s.pc p .inOp
          nextId := s.nextId+1
          ops := s.ops++[⟨s.nextId,p,[],false⟩] } = allIds s++[s.nextId] := by
        simp [allIds]
      refine ⟨h.panic,?_,?_,?_,?_,?_,?_,?_,h.block,h.commits,?_,?_⟩
      · simp only [active_append]
        exact nodup_append.mpr ⟨h.nodup,by simp,by
          intro a ha b hb he
          rw [mem_singleton] at hb
          subst hb he
          exact hnot ha⟩
      · intro q
        simp only [active_append,mem_append,mem_singleton]
        by_cases hq : q = p
        · subst hq
          simp
        · simp [h.inOp q,hq]
      · simp only [active_append,length_append,length_singleton]
        rw [h.count]
        push_cast
        ring
      · intro hc
        simp [hcommit'] at hc
      · intro q c hc
        by_cases hq : q = p
        · subst hq
          simp at hc
        · simp only [update_of_ne hq] at hc
          exact absurd hc (h.not_commit hcommit' q c)
      · intro q r c c' hc
        by_cases hq : q = p
        · subst hq
          simp at hc
        · simp only [update_of_ne hq] at hc
          exact absurd hc (h.not_commit hcommit' q c)
      · intro _
        exact ⟨hcov.1,hcov.2.begin _ _⟩
      · rw [hids]
        exact nodup_append.mpr ⟨h.ids,by simp,by
          intro a ha b hb he
          have := h.fresh a ha
          rw [mem_singleton] at hb
          omega⟩
      · intro i hi
        rw [hids] at hi
        simp only at hi ⊢
        rcases mem_append.mp hi with hi | hi
        · have := h.fresh i hi
          omega
        · rw [mem_singleton] at hi
          omega

theorem allIds_map (s : State) {f : Op → Op} (hf : ∀ o, (f o).id = o.id) (lh : LogHeader)
    (out : ℤ) (com : Bool) (pc : ℕ → Pc) (pan : Option Panic) :
    allIds { s with lh := lh, outstanding := out, committing := com, pc := pc, panicked := pan,
                    ops := s.ops.map f } = allIds s := by
  simp [allIds,comp_def,hf]

theorem Inv.logWrite {s : State} (h : Inv s) {p : ℕ} (b : ℕ) (hp : s.pc p = .inOp) :
    Inv (logWrite s p b) := by
  have hact := (h.inOp p).mp hp
  have hpos : 0 < (active s.ops).length := length_pos_of_mem hact
  have hcom : s.committing = false := by
    cases hc : s.committing with
    | false => rfl
    | true => simp [h.drained hc] at hact
  unfold RedoLog.logWrite
  split
  · exact ⟨Or.inr rfl,h.nodup,h.inOp,h.count,h.drained,h.commit,h.single,h.open_,h.block,
      h.commits,h.ids,h.fresh⟩
  · split
    · rename_i hout
      rw [h.count] at hout
      omega
    · have hids := allIds_map s (record_id p b) (s.lh.logWrite b) s.outstanding s.committing s.pc
        s.panicked
      refine ⟨h.panic,?_,?_,?_,?_,?_,h.single,?_,?_,h.commits,?_,?_⟩
      · simpa only [active_record] using h.nodup
      · simpa only [active_record] using h.inOp
      · simpa only [active_record] using h.count
      · simpa only [active_record] using h.drained
      · intro q c hc
        exact absurd hc (h.not_commit hcom q c)
      · intro _
        exact ⟨(h.open_ hcom).1,
          (h.open_ hcom).2.record b hact (LogHeader.mem_logged_logWrite s.lh b)⟩
      · exact LogHeader.nodup_logWrite h.block b
      · simpa only [hids] using h.ids
      · simpa only [hids] using h.fresh

theorem Inv.endOp {s : State} (h : Inv s) {p : ℕ} (hp : s.pc p = .inOp) : Inv (endOp s p) := by
  have hact := (h.inOp p).mp hp
  have hcom : s.committing = false := by
    cases hc : s.committing with
    | false => rfl
    | true => simp [h.drained hc] at hact
  have hcov := h.open_ hcom
  have hnodup : ((active s.ops).filter (fun q => q ≠ p)).Nodup := h.nodup.filter _
  have hlen : ((active s.ops).filter (fun q => q ≠ p)).length+1 = (active s.ops).length := by
    have he := Nodup.erase_eq_filter h.nodup p
    have hl := length_erase_of_mem hact
    have hpos : 0 < (active s.ops).length := length_pos_of_mem hact
    have hf : (active s.ops).filter (fun q => q ≠ p) = (active s.ops).erase p := by
      rw [he]
      apply filter_congr
      intro q _
      by_cases hq : q = p <;> simp [hq]
    rw [hf,hl]
    omega
  have hcount : s.outstanding-1 =
      (((active s.ops).filter (fun q => q ≠ p)).length : ℤ) := by
    rw [h.count]
    omega
  have hids := allIds_map s (finish_id p) s.lh (s.outstanding-1)
  unfold RedoLog.endOp
  rw [if_neg (by simp [hcom])]
  split
  · rename_i hzero
    have hempty : (active s.ops).filter (fun q => q ≠ p) = [] := by
      apply length_eq_zero_iff.mp
      omega
    refine ⟨h.panic,?_,?_,?_,?_,?_,?_,?_,h.block,h.commits,?_,?_⟩
    · simpa only [active_finish] using hnodup
    · intro q
      simp only [active_finish,hempty,not_mem_nil,iff_false]
      by_cases hq : q = p
      · subst hq
        simp
      · rw [update_of_ne hq,h.inOp q]
        intro hm
        have hf : q ∈ (active s.ops).filter (fun q => q ≠ p) := by simp [hm,hq]
        rw [hempty] at hf
        simp at hf
    · simpa only [active_finish] using hcount
    · intro _
      rw [active_finish,hempty]
    · intro q c hc
      by_cases hq : q = p
      · subst hq
        simp only [update_self,Pc.commit.injEq] at hc
        subst hc
        exact ⟨rfl,hcov.1,hcov.2.finish q⟩
      · simp only [update_of_ne hq] at hc
        exact absurd hc (h.not_commit hcom q c)
    · intro q r c c' hq hr
      have hone (t : ℕ) (d : CommitPc) (ht : update s.pc p (.commit .enter) t = .commit d) :
          t = p := by
        by_contra hne
        rw [update_of_ne hne] at ht
        exact h.not_commit hcom t d ht
      rw [hone q c hq,hone r c' hr]
    · intro hc
      simp at hc
    · simpa only [hids] using h.ids
    · simpa only [hids] using h.fresh
  · have hnc (q : ℕ) (c : CommitPc) : update (wakeup s.pc) p .idle q ≠ .commit c := by
      intro hc
      by_cases hq : q = p
      · subst hq
        simp at hc
      · rw [update_of_ne hq] at hc
        exact h.not_commit hcom q c (wakeup_commit hc)
    refine ⟨h.panic,?_,?_,?_,?_,?_,?_,?_,h.block,h.commits,?_,?_⟩
    · simpa only [active_finish] using hnodup
    · intro q
      simp only [active_finish]
      by_cases hq : q = p
      · subst hq
        simp
      · simp [hq,wakeup_inOp,h.inOp q]
    · simpa only [active_finish] using hcount
    · intro hc
      simp [hcom] at hc
    · intro q c hc
      exact absurd hc (hnc q c)
    · intro q r c c' hc
      exact absurd hc (hnc q c)
    · intro _
      exact ⟨hcov.1,hcov.2.finish p⟩
    · simpa only [hids] using h.ids
    · simpa only [hids] using h.fresh

/-- A step of `commit()` that only moves on inside it. -/
theorem Inv.advance {s : State} (h : Inv s) {p : ℕ} {c c' : CommitPc} (hp : s.pc p = .commit c)
    (lh : LogHeader) (cur : Commit) (hphase : PhaseOk lh s.ops cur c') (hblock : lh.logged.Nodup) :
    Inv { s with lh := lh, cur := cur, pc := update s.pc p (.commit c') } := by
  have hcom := (h.commit p c hp).1
  have hone (q : ℕ) (d : CommitPc) (hq : update s.pc p (.commit c') q = .commit d) :
      q = p := by
    by_contra hne
    rw [update_of_ne hne] at hq
    exact hne (h.single q p d c hq hp)
  refine ⟨h.panic,h.nodup,?_,h.count,h.drained,?_,?_,?_,hblock,h.commits,h.ids,h.fresh⟩
  · intro q
    rw [← h.inOp q]
    by_cases hq : q = p
    · subst hq
      simp [hp]
    · simp only [update_of_ne hq]
  · intro q d hq
    obtain rfl := hone q d hq
    simp only [update_self,Pc.commit.injEq] at hq
    subst hq
    exact ⟨hcom,hphase⟩
  · intro q r d d' hq hr
    rw [hone q d hq,hone r d' hr]
  · intro hc
    simp [hcom] at hc

theorem Inv.leave {s : State} (h : Inv s) {p : ℕ} (hp : s.pc p = .commit .leave) :
    Inv (commitStep s p .leave) := by
  obtain ⟨hcom,hn,hcur,hcov⟩ := h.commit p _ hp
  have hact := h.drained hcom
  have hnc (q : ℕ) (c : CommitPc) : update (wakeup s.pc) p .idle q ≠ .commit c := by
    intro hc
    by_cases hq : q = p
    · subst hq
      simp at hc
    · rw [update_of_ne hq] at hc
      exact hq (h.single q p c _ (wakeup_commit hc) hp)
  have hids : allIds (commitStep s p .leave) = allIds s := by
    simp [allIds,commitStep]
  refine ⟨h.panic,by simp [commitStep,active],?_,?_,?_,?_,?_,?_,h.block,?_,?_,?_⟩
  · intro q
    have hin : s.pc q ≠ .inOp := by
      rw [Ne,h.inOp q,hact]
      simp
    by_cases hq : q = p
    · subst hq
      simp [commitStep,active]
    · simp [commitStep,active,hq,wakeup_inOp,hin]
  · have hc := h.count
    rw [hact] at hc
    simpa [commitStep,active] using hc
  · intro hc
    simp [commitStep] at hc
  · intro q c hq
    exact absurd hq (hnc q c)
  · intro q r c c' hq
    exact absurd hq (hnc q c)
  · intro _
    refine ⟨rfl,?_⟩
    intro b
    simp [commitStep,LogHeader.logged,hn]
  · intro c hc
    simp only [commitStep,mem_append,mem_singleton] at hc
    rcases hc with hc | rfl
    · exact h.commits c hc
    · refine ⟨?_,hcov,by rw [hcur],by rw [hcur]⟩
      intro o ho
      by_contra hne
      have : o.pid ∈ active s.ops := mem_active.mpr ⟨o,ho,by simpa using hne,rfl⟩
      simp [hact] at this
  · rw [hids]
    exact h.ids
  · rw [hids]
    exact h.fresh

theorem Inv.commitStep {s : State} (h : Inv s) {p : ℕ} {c : CommitPc} (hp : s.pc p = .commit c) :
    Inv (commitStep s p c) := by
  have hph := (h.commit p c hp).2
  cases c with
  | enter =>
    obtain ⟨hcur,hcov⟩ := hph
    simp only [RedoLog.commitStep]
    split
    · exact h.advance hp s.lh s.cur ⟨Nat.zero_le _,by simpa [noCommit] using hcur,hcov⟩ h.block
    · rename_i hn
      have hz : s.lh.n = 0 := by omega
      have hl : s.lh.logged = [] := by simp [LogHeader.logged,hz]
      refine h.advance hp s.lh s.cur ⟨hz,by simp [hcur,noCommit],?_⟩ h.block
      simpa [hcur,noCommit,hl] using hcov
  | writeLog t =>
    obtain ⟨ht,hcur,hcov⟩ := hph
    simp only [RedoLog.commitStep]
    split
    · rename_i hlt
      refine h.advance hp s.lh _ ⟨hlt,?_,hcov⟩ h.block
      rw [hcur]
      simp [LogHeader.logged_take_succ hlt]
    · refine h.advance hp s.lh s.cur ⟨?_,hcov⟩ h.block
      rw [hcur,take_of_length_le (by simp; omega)]
  | writeHead =>
    obtain ⟨hcur,hcov⟩ := hph
    refine h.advance hp s.lh _ ⟨Nat.zero_le _,?_,hcov⟩ h.block
    simp [hcur]
  | install t =>
    obtain ⟨ht,hcur,hcov⟩ := hph
    simp only [RedoLog.commitStep]
    split
    · rename_i hlt
      refine h.advance hp s.lh _ ⟨hlt,?_,hcov⟩ h.block
      rw [hcur]
      simp [LogHeader.logged_take_succ hlt]
    · refine h.advance hp s.lh s.cur ⟨?_,hcov⟩ h.block
      rw [hcur,take_of_length_le (by simp; omega)]
  | clear =>
    obtain ⟨hcur,hcov⟩ := hph
    refine h.advance hp _ s.cur ⟨rfl,?_,?_⟩ (by simp [LogHeader.logged])
    · simp [hcur]
    · simpa [hcur] using hcov
  | clearHead => exact h.advance hp s.lh s.cur hph h.block
  | leave => exact h.leave hp

/-- Every step of every process keeps the invariant. -/
theorem Inv.step {s t : State} {e : Event} (h : Inv s) (hst : step s e = some t) : Inv t := by
  unfold RedoLog.step at hst
  split at hst
  · simp at hst
  · cases e with
    | beginOp p =>
      simp only [Option.ite_none_right_eq_some,Option.some.injEq] at hst
      obtain ⟨hp,rfl⟩ := hst
      exact h.beginOp hp
    | logWrite p b =>
      simp only [Option.ite_none_right_eq_some,Option.some.injEq] at hst
      obtain ⟨hp,rfl⟩ := hst
      exact h.logWrite b hp
    | endOp p =>
      simp only [Option.ite_none_right_eq_some,Option.some.injEq] at hst
      obtain ⟨hp,rfl⟩ := hst
      exact h.endOp hp
    | commit p =>
      cases hp : s.pc p with
      | commit c =>
        simp only [hp,Option.some.injEq] at hst
        subst hst
        exact h.commitStep hp
      | idle => simp [hp] at hst
      | woken => simp [hp] at hst
      | asleep => simp [hp] at hst
      | inOp => simp [hp] at hst
    | kill p =>
      simp only [Option.ite_none_right_eq_some,Option.some.injEq] at hst
      obtain ⟨hp,rfl⟩ := hst
      exact h.updatePc (by simp [hp]) (by simp) (by simp)

theorem Inv.not_inOp {s : State} (h : Inv s) (hc : s.committing = true) (p : ℕ) :
    s.pc p ≠ .inOp := by
  rw [Ne,h.inOp p,h.drained hc]
  simp

/-- While a commit is in progress every operation of its group has executed `end_op`. -/
theorem Inv.ended {s : State} (h : Inv s) (hc : s.committing = true) :
    ∀ o ∈ s.ops, o.ended = true := by
  intro o ho
  by_contra hne
  have hmem : o.pid ∈ active s.ops := mem_active.mpr ⟨o,ho,by simpa using hne,rfl⟩
  rw [h.drained hc] at hmem
  simp at hmem

theorem commitStep_ops (s : State) (p : ℕ) (c : CommitPc) :
    (commitStep s p c).ops = s.ops ∨ (commitStep s p c).ops = [] := by
  cases c with
  | enter => left; simp only [commitStep]; split <;> rfl
  | writeLog t => left; simp only [commitStep]; split <;> rfl
  | install t => left; simp only [commitStep]; split <;> rfl
  | writeHead => exact Or.inl rfl
  | clear => exact Or.inl rfl
  | clearHead => exact Or.inl rfl
  | leave => exact Or.inr rfl

end RedoLog
end Xv6
