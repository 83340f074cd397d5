import Xv6.Virtio.Request

/-! When `virtio_disk_rw` returns, the request has been served, unless a wait loop gave up. -/
namespace Xv6
namespace Virtio

open Function

section invariant

variable {s t : State} {ys us : List (Fin NUM)}

theorem allocRound_inv (h : Inv s ys us) {p b : ℕ} (hp : s.role p = .entering b) (w : Bool)
    {k : ℕ} (hk : s.alloc3Desc.2 = none → k < 1000) :
    (∃ ys', Inv (s.allocRound p b w k) ys' us) ∧
      (s.allocRound p b w k).panicked = s.panicked := by
  rcases allocRound_cases s p b w hk with ⟨t,ha,heq⟩ | ⟨i0,i1,i2,hu⟩
  · obtain ⟨-,-,hq⟩ := alloc3Desc_none ha
    rw [heq]
    exact ⟨⟨ys,inv_setPc_same (alloc3Desc_none_inv h ha) ((hq.role p).trans hp).symm⟩,hq.panicked⟩
  · exact ⟨⟨ys++[i0],hu.inv h hp⟩,hu.panicked⟩

theorem enter_inv (h : Inv s ys us) {p : ℕ} (he : s.enter p = some t) :
    (∃ ys', Inv t ys' us) ∧ t.panicked = s.panicked := by
  unfold State.enter at he
  split at he
  · rename_i b w hp
    obtain rfl := Option.some.inj he
    exact allocRound_inv h (by rw [State.role,hp]; rfl) w fun _ => by norm_num
  · cases he

theorem retry_inv (h : Inv s ys us) {p : ℕ} (hpat : s.Patient (.retry p))
    (he : s.retry p = some t) : (∃ ys', Inv t ys' us) ∧ t.panicked = s.panicked := by
  unfold State.retry at he
  split at he
  · rename_i b w k hp
    obtain rfl := Option.some.inj he
    exact allocRound_inv h (by rw [State.role,hp]; rfl) w (hpat b w k false hp)
  · cases he

theorem check_inv (h : Inv s ys us) {p : ℕ} (hpat : s.Patient (.check p))
    (he : s.check p = some t) : Inv t ys us ∧ t.panicked = s.panicked := by
  obtain ⟨-,hpan,-,r,k,hp,hcases⟩ := check_books h.toBooks hpat he
  have hrole : s.role p = .waiting r := by rw [State.role,hp]; rfl
  refine ⟨?_,hpan⟩
  rcases hcases with ⟨-,rfl⟩ | ⟨hd,hfin⟩
  · exact inv_setPc_same h hrole.symm
  · exact hfin.inv h hrole hd

/-- One event of a patient run keeps the books of the driver and does not panic. -/
theorem act_inv (h : Inv s ys us) {e : Event} (hheld : s.Held e) (hpat : s.Patient e)
    (he : s.act e = some t) : (∃ ys' us', Inv t ys' us') ∧ t.panicked = s.panicked := by
  cases e with
  | recycle b blockno =>
    obtain rfl := Option.some.inj he
    exact ⟨⟨ys,us,inv_setBuf h hheld ⟨rfl,fun _ _ => rfl,rfl,fun _ => ⟨rfl,id⟩,rfl,rfl,rfl⟩
      (fun _ => rfl) (fun b' hb => update_of_ne hb _ _) rfl rfl⟩,rfl⟩
  | store b data =>
    obtain rfl := Option.some.inj he
    exact ⟨⟨ys,us,inv_setBuf h hheld ⟨rfl,fun _ _ => rfl,rfl,fun _ => ⟨rfl,id⟩,rfl,rfl,rfl⟩
      (fun _ => rfl) (fun b' hb => update_of_ne hb _ _) rfl rfl⟩,rfl⟩
  | call p b w =>
    refine ⟨⟨ys,us,call_inv h hheld hpat he⟩,?_⟩
    simp only [State.act,State.call] at he
    split at he
    · exact Option.some.inj he ▸ rfl
    · cases he
  | enter p =>
    simp only [State.act] at he
    split at he
    · cases he
    · obtain ⟨⟨ys',hi⟩,hp⟩ := enter_inv h he
      exact ⟨⟨ys',us,hi⟩,hp⟩
  | retry p =>
    simp only [State.act] at he
    split at he
    · cases he
    · obtain ⟨⟨ys',hi⟩,hp⟩ := retry_inv h hpat he
      exact ⟨⟨ys',us,hi⟩,hp⟩
  | check p =>
    simp only [State.act] at he
    split at he
    · cases he
    · obtain ⟨hi,hp⟩ := check_inv h hpat he
      exact ⟨⟨ys,us,hi⟩,hp⟩
  | leave p =>
    refine ⟨⟨ys,us,leave_inv h he⟩,?_⟩
    simp only [State.act,State.leave] at he
    split at he
    · exact Option.some.inj he ▸ rfl
    · cases he
  | kill p =>
    obtain rfl := Option.some.inj he
    refine ⟨⟨ys,us,kill_inv h p⟩,?_⟩
    unfold State.kill
    split <;> rfl
  | fetch =>
    obtain ⟨ys',hi⟩ := fetch_inv h he
    obtain ⟨⟨i,avail⟩,-,rfl⟩ := Option.map_eq_some_iff.mp he
    exact ⟨⟨ys',us,hi⟩,rfl⟩
  | complete k =>
    obtain ⟨us',hi⟩ := complete_inv h he
    refine ⟨⟨ys,us',hi⟩,?_⟩
    obtain ⟨i,-,rfl⟩ := Option.map_eq_some_iff.mp he
    change (s.transfer i).panicked = s.panicked
    unfold State.transfer
    dsimp only
    split
    · split <;> rfl
    · rfl
  | intrBegin =>
    simp only [State.act] at he
    split at he
    · cases he
    · obtain rfl := Option.some.inj he
      exact ⟨⟨ys,us,h.same ⟨rfl,fun _ _ => rfl,rfl,fun _ => ⟨rfl,id⟩,rfl,rfl,rfl⟩ (fun _ => rfl) rfl
        rfl rfl⟩,rfl⟩
  | intrIter =>
    obtain ⟨n,-,hi⟩ := Option.bind_eq_some_iff.mp he
    obtain ⟨us',hinv,hp⟩ := intrIter_inv h hi
    exact ⟨⟨ys,us',hinv⟩,hp⟩
  | intrEnd =>
    simp only [State.act] at he
    split at he
    · split at he
      · obtain rfl := Option.some.inj he
        exact ⟨⟨ys,us,h.same ⟨rfl,fun _ _ => rfl,rfl,fun _ => ⟨rfl,id⟩,rfl,rfl,rfl⟩ (fun _ => rfl)
          rfl rfl rfl⟩,rfl⟩
      · cases he
    · cases he

end invariant

/-- Runs of the driver in which the callers keep to the buffer protocol and no loop gives up. -/
abbrev PatientRun (disk : ℕ → Block) (s : State) : Prop :=
  Reaches State.step (fun s e => s.Held e ∧ s.Patient e) (.init disk) s

theorem patientRun_inv {disk : ℕ → Block} {s : State} (hr : PatientRun disk s) :
    (∃ ys us, Inv s ys us) ∧ s.panicked = none := by
  refine hr.invariant (P := fun s => (∃ ys us, Inv s ys us) ∧ s.panicked = none)
    ⟨⟨[],[],inv_init disk⟩,rfl⟩ fun a e b ⟨⟨ys,us,hi⟩,hp⟩ hok hst => ?_
  obtain ⟨hinv,hpan⟩ := act_inv hi hok.1 hok.2 (step_act hst).2
  exact ⟨hinv,hpan.trans hp⟩

/-- When `virtio_disk_rw(b, write)` has returned, the device has finished the request of that
call and buffer and disk block agree.  So `bread` marks as valid only a buffer that was read,
and after `bwrite` the block is on the disk. -/
theorem disk_request_done (disk : ℕ → Block) (s : State) (hr : PatientRun disk s) :
    (∀ p b w, s.pc p = .returned b w →
      s.served b = true ∧ (s.buf b).data = s.disk (s.buf b).blockno) ∧
    ∀ p t b, s.step (.leave p) = some t → (s.buf b).valid = false → (t.buf b).valid = true →
      s.served b = true ∧ (t.buf b).data = t.disk (t.buf b).blockno := by
  obtain ⟨⟨ys,us,h⟩,-⟩ := patientRun_inv hr
  have hdone (p b : ℕ) (w : Bool) (hp : s.pc p = .returned b w) : Done s b :=
    h.returned p b (by rw [State.role,hp]; rfl)
  refine ⟨hdone,fun p t b hst hv hv' => ?_⟩
  have hl : s.leave p = some t := (step_act hst).2
  unfold State.leave at hl
  split at hl
  · rename_i b' w hp
    obtain rfl := Option.some.inj hl
    have hb : b = b' := by
      by_contra hne
      simp [hne,hv] at hv'
    subst hb
    simpa [Done,State.setPc] using hdone p b w hp
  · cases hl

/-- Events that are free of obligations in every state. -/
def unguarded : Event → Bool
  | .enter _ | .kill _ | .fetch | .complete _ | .intrBegin | .intrIter | .intrEnd => true
  | _ => false

theorem unguarded_ok (s : State) {e : Event} (h : unguarded e = true) :
    s.Held e ∧ s.Patient e := by
  cases e <;> simp_all [unguarded,State.Held,State.Patient]

/-- Process 0 reads block 0 through buffer 0. -/
def readBlock : State :=
  (State.init fun _ _ => 7).setPc 0 (.calling 0 false)

theorem patientRun_readBlock : PatientRun (fun _ _ => 7) readBlock := by
  refine .tail (e := .call 0 0 false) (.refl _) ⟨⟨fun _ => ?_,fun _ _ h => ?_⟩,?_⟩ ?_
  · simp [State.init,Pc.buf]
  · simp [State.init,Pc.buf] at h
  · simp [State.init,State.Patient]
  · simp [State.step,State.act,State.call,readBlock,State.init,State.setPc]

theorem disk_request_done_read : ∃ s, PatientRun (fun _ _ => 7) s ∧
    s.pc 0 = .returned 0 false ∧ s.served 0 = true ∧
    (s.buf 0).data = s.disk (s.buf 0).blockno := by
  have hrun : (runEvents State.step (fun _ => unguarded) readBlock
      [.enter 0,.fetch,.complete 0,.intrBegin,.intrIter,.intrEnd]).map
      (fun s => decide (s.pc 0 = .wait ⟨0,false,0,1,2⟩ 0 false ∧ (s.buf 0).disk = false ∧
        ((s.check 0).map fun t => t.pc 0) = some (.returned 0 false) ∧
        s.intr = none ∧ s.panicked = none)) = some true := by
    decide +kernel
  obtain ⟨s,hs,heq⟩ := Option.map_eq_some_iff.mp hrun
  obtain ⟨hpc,hflag,hcheck,hintr,hpan⟩ := of_decide_eq_true heq
  obtain ⟨t,ht,hret⟩ := Option.map_eq_some_iff.mp hcheck
  have hwait : PatientRun (fun _ _ => 7) s := patientRun_readBlock.trans
    ((reaches_of_runEvents hs).mono fun s e he => unguarded_ok s he)
  have hdone : PatientRun (fun _ _ => 7) t := by
    refine hwait.tail (e := .check 0) ⟨trivial,fun r k a hp hd => ?_⟩ ?_
    · rw [hpc] at hp
      obtain ⟨rfl,-⟩ := Pc.wait.inj hp
      simp [hflag] at hd
    · simp [State.step,hpan,State.act,hintr,ht]
  exact ⟨t,hdone,hret,(disk_request_done _ t hdone).1 0 0 false hret⟩

/-! Two requests take six descriptors.  Two more processes then wake each other whenever they
give their descriptors back, until one of them has failed a thousand times. -/

theorem freeDesc_pc {s : State} {i : Fin NUM} (hi : s.free i = false) :
    (s.freeDesc i).pc = s.wakeupFree.pc := by
  simp [State.freeDesc,hi,State.wakeupFree]

theorem wakeupFree_idem (s : State) : s.wakeupFree.wakeupFree.pc = s.wakeupFree.pc := by
  funext q
  simp only [State.wakeupFree]
  rcases s.pc q with _ | _ | ⟨b,w,k,_ | _⟩ | _ | _ <;> rfl

/-- Giving back what a failed `alloc3_desc` had taken wakes everyone who waits for it. -/
theorem alloc3Desc_wakes {s t : State} (h : s.alloc3Desc = (t,none))
    (hone : s.allocDesc.isSome = true) : t.pc = s.wakeupFree.pc := by
  unfold State.alloc3Desc at h
  split at h
  · rename_i hnone
    simp [hnone] at hone
  rename_i j0 s0 h0
  obtain ⟨f0,rfl⟩ := allocDesc_spec h0
  split at h
  · obtain rfl := (Prod.mk.inj h).1
    exact freeDesc_pc (by simp)
  rename_i j1 s1 h1
  obtain ⟨f1,rfl⟩ := allocDesc_spec h1
  split at h
  · obtain rfl := (Prod.mk.inj h).1
    have h01 : j1 ≠ j0 := by
      rintro rfl
      simp at f1
    have hj0 : update (update s.free j0 false) j1 false j0 = false := by
      simp [h01.symm]
    obtain ⟨hf,-,-⟩ := freeDesc_spec (i := j0) (s := { s with
      free := update (update s.free j0 false) j1 false }) hj0
    rw [freeDesc_pc (by rw [hf]; simp [h01]),State.wakeupFree]
    simp only [freeDesc_pc (s := { s with
      free := update (update s.free j0 false) j1 false }) hj0]
    exact wakeupFree_idem s
  · simp at h

/-- Descriptors 6 and 7 are free; processes 2 and 3 have each failed `k` times to get three. -/
structure Starved (s : State) (k : ℕ) : Prop where
  free : s.free = fun i => decide (6 ≤ i.val)
  intr : s.intr = none
  panicked : s.panicked = none
  first : s.pc 2 = .alloc 2 false k false
  second : s.pc 3 = .alloc 3 false k true
  unserved : s.served 2 = false
  unread : (s.buf 2).data ≠ s.disk (s.buf 2).blockno

theorem starved_fails {s : State} (h : s.free = fun i => decide (6 ≤ i.val)) :
    s.alloc3Desc.2 = none ∧ s.allocDesc.isSome = true := by
  cases s
  subst h
  exact ⟨rfl,rfl⟩

/-- A process that fails again goes back to sleep and wakes the others. -/
theorem starved_round {s : State} (hf : s.free = fun i => decide (6 ≤ i.val))
    (hi : s.intr = none) (hpan : s.panicked = none) {p b k : ℕ}
    (hp : s.pc p = .alloc b false k false) :
    ∃ t, Quiet s t ∧ t.free = s.free ∧ t.pc = s.wakeupFree.pc ∧
      s.step (.retry p) = some (if k+1 > 1000 then t.setPc p (.returned b false)
        else t.setPc p (.alloc b false (k+1) true)) := by
  obtain ⟨hnone,hone⟩ := starved_fails hf
  have ha : s.alloc3Desc = (s.alloc3Desc.1,none) := Prod.ext rfl hnone
  obtain ⟨hfree,-,hq⟩ := alloc3Desc_none ha
  refine ⟨s.alloc3Desc.1,hq,hfree,alloc3Desc_wakes ha hone,?_⟩
  rw [State.step,hpan]
  simp only [State.act,hi,State.retry,hp,State.allocRound]
  rw [ha]
  rfl

theorem Starved.again {disk : ℕ → Block} {s : State} {k : ℕ}
    (hr : Reaches State.step State.Held (.init disk) s) (h : Starved s k) (hk : k < 1000) :
    ∃ t, Reaches State.step State.Held (.init disk) t ∧ Starved t (k+1) := by
  obtain ⟨t,hq,hf,hpc,hst⟩ := starved_round h.free h.intr h.panicked h.first
  rw [if_neg (by omega)] at hst
  have h3 : (t.setPc 2 (.alloc 2 false (k+1) true)).pc 3 = .alloc 3 false k false := by
    simp [State.setPc,hpc,State.wakeupFree,h.second]
  obtain ⟨u,hq',hf',hpc',hst'⟩ := starved_round (s := t.setPc 2 (.alloc 2 false (k+1) true))
    (hf.trans h.free) (hq.intr.trans h.intr) (hq.panicked.trans h.panicked) h3
  rw [if_neg (by omega)] at hst'
  have hheld (s : State) (p : ℕ) : s.Held (.retry p) := trivial
  refine ⟨_,(hr.tail (hheld _ 2) hst).tail (hheld _ 3) hst',
    hf'.trans (hf.trans h.free),hq'.intr.trans (hq.intr.trans h.intr),
    hq'.panicked.trans (hq.panicked.trans h.panicked),?_,?_,?_,?_⟩
  · simp [State.setPc,hpc',State.wakeupFree]
  · simp [State.setPc]
  · exact (congrFun (hq'.served.trans hq.served) 2).trans h.unserved
  · have hb : u.buf = s.buf := hq'.buf.trans hq.buf
    have hd : u.disk = s.disk := hq'.disk.trans hq.disk
    change (u.buf 2).data ≠ u.disk (u.buf 2).blockno
    rw [hb,hd]
    exact h.unread

/-- Four processes are about to read four different blocks. -/
def fourReaders (n : ℕ) : State := { State.init (fun _ _ => 7) with
  buf := fun b => ⟨if b < 4 then b else 0,false,false,Bytes.zero BSIZE⟩
  pc := fun p => if p < n then .calling p false else .idle }

theorem fourReaders_buf {n q b : ℕ} (h : ((fourReaders n).pc q).buf = some b) : b = q ∧ q < n := by
  by_cases hq : q < n <;> simp_all [fourReaders,Pc.buf]

theorem reaches_fourReaders {n : ℕ} (hn : n ≤ 4) :
    Reaches State.step State.Held (.init fun _ _ => 7) (fourReaders n) := by
  induction n with
  | zero =>
    have hidle (s : State) (hs : ∀ p, s.pc p = .idle) (b : ℕ) : s.Unused b := fun p => by
      simp [hs p,Pc.buf]
    have hrun : Reaches State.step State.Held (.init fun _ _ => 7)
        ((((State.init fun _ _ => 7).recycle 1 1).recycle 2 2).recycle 3 3) :=
      ((Reaches.tail (e := .recycle 1 1) (.refl _) (hidle _ (fun _ => rfl) 1) rfl).tail
        (e := .recycle 2 2) (hidle _ (fun _ => rfl) 2) rfl).tail
        (e := .recycle 3 3) (hidle _ (fun _ => rfl) 3) rfl
    convert hrun using 1
    have hbuf : (fourReaders 0).buf =
        ((((State.init fun _ _ => 7).recycle 1 1).recycle 2 2).recycle 3 3).buf := by
      funext b
      rcases b with _ | _ | _ | _ | b <;> rfl
    simp only [fourReaders] at hbuf ⊢
    rw [hbuf]
    rfl
  | succ n ih =>
    refine (ih (by omega)).tail (e := .call n n false) ⟨fun q hq => ?_,fun q b hq => ?_⟩ ?_
    · obtain ⟨rfl,hlt⟩ := fourReaders_buf hq
      omega
    · obtain ⟨rfl,hlt⟩ := fourReaders_buf hq
      simp only [fourReaders]
      rw [if_pos (by omega),if_pos (by omega)]
      omega
    · have hpc : update (fourReaders n).pc n (.calling n false) =
          (fourReaders (n+1)).pc := by
        funext q
        rcases Nat.lt_trichotomy q n with hq | rfl | hq
        · rw [update_of_ne hq.ne]
          exact (if_pos hq).trans (if_pos (by omega)).symm
        · simp [fourReaders]
        · rw [update_of_ne hq.ne']
          exact (if_neg (by omega)).trans (if_neg (by omega)).symm
      have hserved : update (fourReaders n).served n false =
          (fourReaders (n+1)).served := by
        funext b
        by_cases hb : b = n <;> simp [hb,fourReaders,State.init]
      have hidle : (fourReaders n).pc n = .idle := by simp [fourReaders]
      simp only [State.step,State.act,State.call,hidle,State.setPc,hpc,hserved]
      rfl

theorem exists_starved {k : ℕ} (hk : k < 1000) : ∃ s,
    Reaches State.step State.Held (.init fun _ _ => 7) s ∧ Starved s (k+1) := by
  induction k with
  | zero =>
    have hrun : (runEvents State.step (fun _ => unguarded) (fourReaders 4)
        [.enter 0,.enter 1,.enter 2,.enter 3]).map
        (fun s => decide ((∀ i, s.free i = decide (6 ≤ i.val)) ∧ s.intr = none ∧
          s.panicked = none ∧ s.pc 2 = .alloc 2 false 1 false ∧ s.pc 3 = .alloc 3 false 1 true ∧
          s.served 2 = false ∧ (s.buf 2).data 0 = 0 ∧ s.disk (s.buf 2).blockno 0 = 7)) =
        some true := by
      decide +kernel
    obtain ⟨s,hs,heq⟩ := Option.map_eq_some_iff.mp hrun
    obtain ⟨hf,hi,hp,h2,h3,hsv,hb,hd⟩ := of_decide_eq_true heq
    refine ⟨s,(reaches_fourReaders le_rfl).trans
      ((reaches_of_runEvents hs).mono fun s e he => (unguarded_ok s he).1),
      funext hf,hi,hp,h2,h3,hsv,fun he => ?_⟩
    rw [← he,hb] at hd
    cases hd
  | succ k ih =>
    obtain ⟨s,hr,hs⟩ := ih (by omega)
    exact hs.again hr (by omega)

/-- Four processes read four blocks.  The third one returns without having read anything, and
`bread` will mark its buffer as valid. -/
theorem starved_read_returns : ∃ s,
    Reaches State.step State.Held (.init fun _ _ => 7) s ∧ s.pc 2 = .returned 2 false ∧
    s.served 2 = false ∧ (s.buf 2).data ≠ s.disk (s.buf 2).blockno := by
  obtain ⟨s,hr,hs⟩ := exists_starved (show 999 < 1000 by norm_num)
  obtain ⟨t,hq,-,-,hst⟩ := starved_round hs.free hs.intr hs.panicked hs.first
  rw [if_pos (by norm_num)] at hst
  have hheld : s.Held (.retry 2) := trivial
  refine ⟨_,hr.tail hheld hst,by simp [State.setPc],?_,?_⟩
  · exact (congrFun hq.served 2).trans hs.unserved
  · change (t.buf 2).data ≠ t.disk (t.buf 2).blockno
    rw [hq.buf,hq.disk]
    exact hs.unread

end Virtio
end Xv6
