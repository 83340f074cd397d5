import Xv6.Log.GroupCommit

/-! Log space reservation.
An operation in progress may still log as many new blocks as `MAXOPBLOCKS` exceeds the
distinct blocks it has logged.  The header together with these reserves never outgrows
the log; the capacity test of `log_write` is nevertheless met by absorbed blocks. -/
namespace Xv6
namespace RedoLog

open List

/-- Each operation logs at most `MAXOPBLOCKS` distinct block numbers. -/
def withinBudget (s : State) : Event → Bool
  | .logWrite p b => s.ops.all fun o =>
      o.pid != p || o.ended || decide ((b::o.blocks).toFinset.card ≤ MAXOPBLOCKS)
  | _ => true

/-- A block already in the log is logged again only while the log is not full. -/
def absorbsBelowCapacity (s : State) : Event → Prop
  | .logWrite _ b => b ∈ s.lh.logged → s.lh.n < LOGBLOCKS
  | _ => True

/-- New blocks that the operations in progress may still log. -/
def reserve (ops : List Op) : ℕ :=
  ((ops.filter fun o => !o.ended).map fun o => MAXOPBLOCKS - o.blocks.toFinset.card).sum

theorem reserve_cons (o : Op) (ops : List Op) :
    reserve (o::ops) =
      (if o.ended then 0 else MAXOPBLOCKS-o.blocks.toFinset.card)+reserve ops := by
  cases h : o.ended <;> simp [reserve,h]

theorem reserve_append (ops : List Op) (i p : ℕ) :
    reserve (ops++[⟨i,p,[],false⟩]) = reserve ops+MAXOPBLOCKS := by
  simp [reserve]

theorem reserve_le (ops : List Op) : reserve ops ≤ (active ops).length*MAXOPBLOCKS := by
  induction ops with
  | nil => simp [reserve]
  | cons o ops ih =>
    rw [reserve_cons]
    cases h : o.ended with
    | true => simpa [active,h] using ih
    | false =>
      have hl : (active (o::ops)).length = (active ops).length+1 := by simp [active,h]
      rw [hl]
      simp only [Bool.false_eq_true,if_false,MAXOPBLOCKS] at *
      omega

theorem reserve_finish (ops : List Op) (p : ℕ) : reserve (ops.map (Op.finish p)) ≤ reserve ops := by
  induction ops with
  | nil => simp
  | cons o ops ih =>
    rw [map_cons,reserve_cons,reserve_cons]
    have hle : (if (o.finish p).ended then 0 else
        MAXOPBLOCKS-(o.finish p).blocks.toFinset.card) ≤
        if o.ended then 0 else MAXOPBLOCKS-o.blocks.toFinset.card := by
      unfold Op.finish
      split <;> simp
    omega

theorem card_record_le (p b : ℕ) (o : Op) :
    o.blocks.toFinset.card ≤ (o.record p b).blocks.toFinset.card := by
  apply Finset.card_le_card
  intro c hc
  unfold Op.record
  split
  · simp only [mem_toFinset,mem_append] at hc ⊢
    exact Or.inl hc
  · exact hc

theorem reserve_record_le (ops : List Op) (p b : ℕ) :
    reserve (ops.map (Op.record p b)) ≤ reserve ops := by
  induction ops with
  | nil => simp
  | cons o ops ih =>
    rw [map_cons,reserve_cons,reserve_cons,record_ended]
    have hc := card_record_le p b o
    split <;> omega

theorem card_record_new {p b : ℕ} {o : Op} (hp : o.pid = p) (he : o.ended = false)
    (hb : b ∉ o.blocks) :
    (o.record p b).blocks.toFinset.card = o.blocks.toFinset.card+1 := by
  have hb' : b ∉ o.blocks.toFinset := by simpa using hb
  have hr : (o.record p b).blocks = o.blocks++[b] := by simp [Op.record,hp,he]
  have hs : (o.blocks++[b]).toFinset = insert b o.blocks.toFinset := by
    ext c
    simp
  rw [hr,hs,Finset.card_insert_of_notMem hb']

/-- A block new to the log takes its space from the reserve of its operation. -/
theorem reserve_record_new (ops : List Op) {p b : ℕ} (hnew : ∀ o ∈ ops, b ∉ o.blocks)
    (hbud : ∀ o ∈ ops, o.pid = p → o.ended = false →
      (b::o.blocks).toFinset.card ≤ MAXOPBLOCKS) :
    reserve (ops.map (Op.record p b))+(active ops).count p ≤ reserve ops := by
  induction ops with
  | nil => simp [active]
  | cons o ops ih =>
    have hi := ih (fun o' ho => hnew o' (by simp [ho])) (fun o' ho => hbud o' (by simp [ho]))
    rw [map_cons,reserve_cons,reserve_cons,record_ended]
    cases he : o.ended with
    | true => simpa [active,he] using hi
    | false =>
      have hcount : (active (o::ops)).count p = (active ops).count p+if o.pid = p then 1 else 0 := by
        simp [active,he,count_cons]
      rw [hcount]
      simp only [Bool.false_eq_true,if_false]
      by_cases hp : o.pid = p
      · have hb := hnew o (by simp)
        have hcard := card_record_new hp he hb
        have hmax := hbud o (by simp) hp he
        have hins : (b::o.blocks).toFinset.card = o.blocks.toFinset.card+1 := by
          rw [toFinset_cons,Finset.card_insert_of_notMem (by simpa using hb)]
        rw [hins] at hmax
        rw [hcard,if_pos hp]
        omega
      · have hsame : o.record p b = o := by simp [Op.record,hp]
        rw [hsame,if_neg hp]
        omega

/-- The log has room for what it holds and for every reserve. -/
def Reserved (s : State) : Prop := s.lh.n + reserve s.ops ≤ LOGBLOCKS

theorem withinBudget_logWrite {s : State} {p b : ℕ} (h : withinBudget s (.logWrite p b) = true) :
    ∀ o ∈ s.ops, o.pid = p → o.ended = false → (b::o.blocks).toFinset.card ≤ MAXOPBLOCKS := by
  intro o ho hp he
  have hall := all_eq_true.mp h o ho
  simpa [hp,he] using hall

/-- A `log_write` of a new block within its operation's budget finds room in the log. -/
theorem Reserved.room {s : State} (hi : Inv s) (hres : Reserved s) {p b : ℕ}
    (hp : s.pc p = .inOp) (hbud : withinBudget s (.logWrite p b) = true)
    (hb : b ∉ s.lh.logged) :
    s.lh.n+1+reserve (s.ops.map (Op.record p b)) ≤ LOGBLOCKS := by
  have hact := (hi.inOp p).mp hp
  have hcom : s.committing = false := by
    cases hc : s.committing with
    | false => rfl
    | true => exact absurd hp (hi.not_inOp hc p)
  have hcov := (hi.open_ hcom).2
  have hnew (o : Op) (ho : o ∈ s.ops) : b ∉ o.blocks := fun hm => hb ((hcov b).mpr ⟨o,ho,hm⟩)
  have hrec := reserve_record_new s.ops hnew (withinBudget_logWrite hbud)
  have hcount : 0 < (active s.ops).count p := count_pos_iff.mpr hact
  unfold Reserved at hres
  omega

theorem n_logWrite (lh : LogHeader) (b : ℕ) :
    (lh.logWrite b).n = if b ∈ lh.logged then lh.n else lh.n+1 := by
  have hl := congrArg length (lh.logged_logWrite b)
  rw [LogHeader.logged_length] at hl
  rw [hl]
  split <;> simp

theorem Reserved.step {s t : State} {e : Event} (hi : Inv s) (hres : Reserved s)
    (hbud : withinBudget s e = true) (hst : step s e = some t) : Reserved t := by
  unfold RedoLog.step at hst
  split at hst
  · simp at hst
  · cases e with
    | beginOp p =>
      simp only [Option.ite_none_right_eq_some,Option.some.injEq] at hst
      obtain ⟨-,rfl⟩ := hst
      unfold RedoLog.beginOp
      split
      · exact hres
      · split
        · exact hres
        · rename_i hroom
          have hle := reserve_le s.ops
          rw [hi.count] at hroom
          simp only [Reserved,reserve_append,MAXOPBLOCKS,LOGBLOCKS] at *
          push_cast at hroom
          omega
    | logWrite p b =>
      simp only [Option.ite_none_right_eq_some,Option.some.injEq] at hst
      obtain ⟨hp,rfl⟩ := hst
      unfold RedoLog.logWrite
      split
      · exact hres
      · split
        · exact hres
        · have hle := reserve_record_le s.ops p b
          simp only [Reserved,n_logWrite] at *
          split
          · omega
          · rename_i hb
            exact Reserved.room hi hres hp hbud hb
    | endOp p =>
      simp only [Option.ite_none_right_eq_some,Option.some.injEq] at hst
      obtain ⟨-,rfl⟩ := hst
      have hle := reserve_finish s.ops p
      unfold RedoLog.endOp
      split
      · exact hres
      · split <;> (simp only [Reserved] at *; omega)
    | commit p =>
      cases hp : s.pc p with
      | commit c =>
        simp only [hp,Option.some.injEq] at hst
        subst hst
        unfold Reserved at hres ⊢
        have hn : (commitStep s p c).lh.n ≤ s.lh.n := by
          cases c <;> simp only [commitStep] <;> (try split) <;> simp
        have ho : reserve (commitStep s p c).ops ≤ reserve s.ops := by
          rcases commitStep_ops s p c with ho | ho <;> simp [ho,reserve]
        omega
      | idle => simp [hp] at hst
      | woken => simp [hp] at hst
      | asleep => simp [hp] at hst
      | inOp => simp [hp] at hst
    | kill p =>
      simp only [Option.ite_none_right_eq_some,Option.some.injEq] at hst
      obtain ⟨-,rfl⟩ := hst
      exact hres

theorem reaches_reserved {s : State}
    (hr : Reaches step (fun s e => withinBudget s e = true) init s) : Inv s ∧ Reserved s := by
  apply hr.invariant (P:=fun s => Inv s ∧ Reserved s)
  · exact ⟨Inv.init,by simp [Reserved,init,reserve]⟩
  · intro a e b h hbud hst
    exact ⟨h.1.step hst,h.2.step h.1 hbud hst⟩

/-- Exactly the absorbed writes to a full log meet the capacity test. -/
theorem logWrite_panics_iff {s t : State} {p b : ℕ} (hi : Inv s) (hres : Reserved s)
    (hbud : withinBudget s (.logWrite p b) = true) (hst : step s (.logWrite p b) = some t) :
    t.panicked = some .tooBigATransaction ↔ b ∈ s.lh.logged ∧ s.lh.n = LOGBLOCKS := by
  have hnone : s.panicked = none := by
    cases hp : s.panicked with
    | none => rfl
    | some _ => simp [step,hp] at hst
  simp only [step,hnone,Option.isSome_none,Bool.false_eq_true,if_false,
    Option.ite_none_right_eq_some,Option.some.injEq] at hst
  obtain ⟨hp,rfl⟩ := hst
  have hle : s.lh.n ≤ LOGBLOCKS := by unfold Reserved at hres; omega
  unfold logWrite
  split
  · rename_i hfull
    simp only [true_iff]
    refine ⟨?_,by omega⟩
    by_contra hb
    have hroom := Reserved.room hi hres hp hbud hb
    omega
  · rename_i hfull
    split <;> simp [hnone] <;> omega

/-- Only a `log_write` can end in the capacity panic. -/
theorem tooBig_event {s t : State} {e : Event} (hst : step s e = some t)
    (ht : t.panicked = some .tooBigATransaction) : ∃ p b, e = .logWrite p b := by
  have hnone : s.panicked = none := by
    cases hp : s.panicked with
    | none => rfl
    | some _ => simp [step,hp] at hst
  simp only [step,hnone,Option.isSome_none,Bool.false_eq_true,if_false] at hst
  cases e with
  | logWrite p b => exact ⟨p,b,rfl⟩
  | beginOp p =>
    simp only [Option.ite_none_right_eq_some,Option.some.injEq] at hst
    obtain ⟨-,rfl⟩ := hst
    unfold beginOp at ht
    split at ht
    · simp [hnone] at ht
    · split at ht <;> simp [hnone] at ht
  | endOp p =>
    simp only [Option.ite_none_right_eq_some,Option.some.injEq] at hst
    obtain ⟨-,rfl⟩ := hst
    unfold endOp at ht
    split at ht
    · simp at ht
    · split at ht <;> simp [hnone] at ht
  | commit p =>
    cases hpc : s.pc p with
    | commit c =>
      simp only [hpc,Option.some.injEq] at hst
      subst hst
      have hsame : (commitStep s p c).panicked = s.panicked := by
        cases c <;> simp only [commitStep] <;> (try split) <;> rfl
      simp [hsame,hnone] at ht
    | idle => simp [hpc] at hst
    | woken => simp [hpc] at hst
    | asleep => simp [hpc] at hst
    | inOp => simp [hpc] at hst
  | kill p =>
    simp only [Option.ite_none_right_eq_some,Option.some.injEq] at hst
    obtain ⟨-,rfl⟩ := hst
    simp at ht

/-- Log space reservation.  In every interleaving in which each operation logs at most
`MAXOPBLOCKS` distinct blocks the header never outgrows the log and has no duplicates; a
`log_write` reaches the panic exactly when it is absorbed while the log is full, so no
run without such a write panics. -/
theorem log_space_reserved (s : State)
    (hr : Reaches step (fun s e => withinBudget s e = true) init s) :
    s.lh.n ≤ LOGBLOCKS ∧ s.lh.logged.Nodup ∧
    (∀ p b t, withinBudget s (.logWrite p b) = true → step s (.logWrite p b) = some t →
      (t.panicked = some .tooBigATransaction ↔ b ∈ s.lh.logged ∧ s.lh.n = LOGBLOCKS)) ∧
    (Reaches step (fun s e => withinBudget s e = true ∧ absorbsBelowCapacity s e) init s →
      s.panicked = none) := by
  obtain ⟨hi,hres⟩ := reaches_reserved hr
  refine ⟨by unfold Reserved at hres; omega,hi.block,?_,?_⟩
  · intro p b t hbud hst
    exact logWrite_panics_iff hi hres hbud hst
  · intro hok
    have hall : Inv s ∧ Reserved s ∧ s.panicked = none := by
      apply hok.invariant (P:=fun s => Inv s ∧ Reserved s ∧ s.panicked = none)
      · exact ⟨Inv.init,by simp [Reserved,init,reserve],rfl⟩
      · rintro a e b ⟨hi,hres,-⟩ ⟨hbud,habs⟩ hst
        have hi' := hi.step hst
        refine ⟨hi',hres.step hi hbud hst,?_⟩
        rcases hi'.panic with hp | hp
        · exact hp
        · obtain ⟨p,c,rfl⟩ := tooBig_event hst hp
          obtain ⟨hc,hfull⟩ := (logWrite_panics_iff hi hres hbud hst).mp hp
          have hlt := habs hc
          omega
    exact hall.2.2

/-- Absorption below capacity: an operation logs block 7 twice and one entry is made. -/
theorem log_space_reserved_absorbed :
    ∃ s : State, s.lh.logged = [7] ∧ s.lh.n ≤ LOGBLOCKS ∧ s.lh.logged.Nodup := by
  have hrun : ((runEvents step withinBudget init
      [.beginOp 0,.logWrite 0 7,.logWrite 0 7]).map fun s => s.lh.logged) = some [7] := by rfl
  obtain ⟨s,hs,hl⟩ := Option.map_eq_some_iff.mp hrun
  have h := log_space_reserved s (reaches_of_runEvents hs)
  exact ⟨s,hl,h.1,h.2.1⟩

/-- Three operations of ten blocks each fill the log; logging one of these blocks again
panics, although it needs no space. -/
theorem absorbed_logWrite_panics :
    ∃ s, Reaches step (fun s e => withinBudget s e = true) init s ∧
      s.panicked = some .tooBigATransaction := by
  have hrun : ((runEvents step withinBudget init
      ([.beginOp 0,.beginOp 1,.beginOp 2]++(range 10).map (.logWrite 0) ++
        (range 10).map (fun i => .logWrite 1 (10+i)) ++
        (range 10).map (fun i => .logWrite 2 (20+i))++[.logWrite 0 0])).map
      State.panicked) = some (some .tooBigATransaction) := by rfl
  obtain ⟨s,hs,hp⟩ := Option.map_eq_some_iff.mp hrun
  exact ⟨s,reaches_of_runEvents hs,hp⟩

end RedoLog
end Xv6
