import Xv6.Virtio.Books

/-! What holds of every disk request while no wait loop gives up. -/
namespace Xv6
namespace Virtio

open Function List

/-- The device has finished the request for `b`, and buffer and disk agree. -/
def Done (s : State) (b : ℕ) : Prop :=
  s.served b = true ∧ (s.buf b).data = s.disk (s.buf b).blockno

/-- Beyond the books: every request is for the block of its buffer, different processes use
different blocks, and a request that has left the device is done. -/
structure Inv (s : State) (ys us : List (Fin NUM)) : Prop extends Books s ys us where
  op : ∀ p r, s.role p = .waiting r →
    s.ops r.i0 = ⟨r.write,(s.buf r.b).blockno*(BSIZE/512) % 2^32⟩
  blocks : ∀ p p' b b', (s.role p).buf = some b → (s.role p').buf = some b' → p ≠ p' →
    (s.buf b).blockno ≠ (s.buf b').blockno
  small : ∀ p b, (s.role p).buf = some b → (s.buf b).blockno < 2^31
  waited : ∀ p r, s.role p = .waiting r → r.i0 ∉ ys++s.inflight → Done s r.b
  returned : ∀ p b, s.role p = .returned b → Done s b

theorem inv_init (disk : ℕ → Block) : Inv (.init disk) [] [] := by
  have hrole : ∀ p, (State.init disk).role p = .idle := fun _ => rfl
  refine ⟨books_init disk,?_,?_,?_,?_,?_⟩ <;> simp [hrole,Role.buf]

section invariant

variable {s t : State} {ys us : List (Fin NUM)}

/-- Steps that leave the waiting processes and their requests alone. -/
theorem Inv.frame (h : Inv s ys us) (hbooks : Books t ys us) (ht : SameTables s t)
    (hwait : ∀ p r, t.role p = .waiting r ↔ s.role p = .waiting r)
    (hbuf : ∀ p r, s.role p = .waiting r → (t.buf r.b).blockno = (s.buf r.b).blockno)
    (hdone : ∀ p r, s.role p = .waiting r → Done s r.b → Done t r.b)
    (hret : ∀ p b, t.role p = .returned b → Done t b)
    (hblocks : ∀ p p' b b', (t.role p).buf = some b → (t.role p').buf = some b' → p ≠ p' →
      (t.buf b).blockno ≠ (t.buf b').blockno)
    (hsmall : ∀ p b, (t.role p).buf = some b → (t.buf b).blockno < 2^31) : Inv t ys us := by
  refine ⟨hbooks,fun p r hp => ?_,hblocks,hsmall,fun p r hp hi => ?_,hret⟩
  · have hp' := (hwait p r).mp hp
    rw [ht.ops,hbuf p r hp',h.op p r hp']
  · have hp' := (hwait p r).mp hp
    exact hdone p r hp' (h.waited p r hp' (ht.inflight ▸ hi))

/-- The invariant does not depend on timeouts, on who is asleep or on the handler. -/
theorem Inv.same (h : Inv s ys us) (ht : SameTables s t) (hrole : ∀ p, t.role p = s.role p)
    (hdisk : t.disk = s.disk) (hbuf : t.buf = s.buf) (hserved : t.served = s.served) :
    Inv t ys us := by
  have hdone (b : ℕ) : Done t b ↔ Done s b := by rw [Done,Done,hserved,hbuf,hdisk]
  refine h.frame (h.toBooks.same ht hrole fun _ => by rw [hbuf]) ht (fun p r => by rw [hrole])
    (fun _ _ _ => by rw [hbuf]) (fun _ r _ => (hdone r.b).mpr) (fun p b hp => ?_) ?_ ?_
  · exact (hdone b).mpr (h.returned p b (by rw [← hrole]; exact hp))
  · simpa only [hrole,hbuf] using h.blocks
  · simpa only [hrole,hbuf] using h.small

/-- A process goes to sleep, wakes up or counts. -/
theorem inv_setPc_same (h : Inv s ys us) {p : ℕ} {c : Pc} (hc : c.role = s.role p) :
    Inv (s.setPc p c) ys us :=
  h.same (setPc_tables s p c) (setPc_role_same hc) rfl rfl rfl

theorem kill_inv (h : Inv s ys us) (p : ℕ) : Inv (s.kill p) ys us := by
  unfold State.kill
  split
  · rename_i hp
    exact inv_setPc_same h (by rw [State.role,hp]; rfl)
  · rename_i hp
    exact inv_setPc_same h (by rw [State.role,hp]; rfl)
  · exact h

/-- A buffer nobody uses the driver for may change. -/
theorem inv_setBuf (h : Inv s ys us) {b : ℕ} (hb : s.Unused b) (ht : SameTables s t)
    (hrole : ∀ p, t.role p = s.role p) (hbuf : ∀ b', b' ≠ b → t.buf b' = s.buf b')
    (hdisk : t.disk = s.disk) (hserved : t.served = s.served) : Inv t ys us := by
  have hkeep (p b' : ℕ) (hp : (s.role p).buf = some b') : t.buf b' = s.buf b' := by
    refine hbuf b' ?_
    rintro rfl
    exact hb p (by rw [← Pc.role_buf]; exact hp)
  have hwait (p : ℕ) (r : Request) (hp : s.role p = .waiting r) : t.buf r.b = s.buf r.b :=
    hkeep p r.b (by rw [hp]; rfl)
  have hdone (p b' : ℕ) (hp : (s.role p).buf = some b') : Done t b' ↔ Done s b' := by
    rw [Done,Done,hserved,hkeep p b' hp,hdisk]
  have hbooks : Books t ys us := h.toBooks.frame ht (fun p r => by rw [hrole])
    (fun p r hp => by rw [hwait p r hp]) (by simpa only [hrole] using h.apart)
  refine h.frame hbooks ht (fun p r => by rw [hrole]) (fun p r hp => by rw [hwait p r hp])
    (fun p r hp => ?_) (fun p b' hp => ?_) (fun p p' b1 b2 h1 h2 => ?_) fun p b' hp => ?_
  · exact (hdone p r.b (by rw [hp]; rfl)).mpr
  · rw [hrole] at hp
    exact (hdone p b' (by rw [hp]; rfl)).mpr (h.returned p b' hp)
  · rw [hrole] at h1 h2
    rw [hkeep p b1 h1,hkeep p' b2 h2]
    exact h.blocks p p' b1 b2 h1 h2
  · rw [hrole] at hp
    rw [hkeep p b' hp]
    exact h.small p b' hp

theorem call_inv (h : Inv s ys us) {p b : ℕ} {w : Bool} (hheld : s.Held (.call p b w))
    (hpat : s.Patient (.call p b w)) (hcall : s.call p b w = some t) : Inv t ys us := by
  obtain ⟨hunused,hblock⟩ := hheld
  have hbooks := call_books h.toBooks hunused hcall
  unfold State.call at hcall
  split at hcall
  case h_2 => simp at hcall
  rename_i hp
  obtain rfl := Option.some.inj hcall
  have hidle : s.role p = .idle := by rw [State.role,hp]; rfl
  have hrole := setPc_role s p (.calling b w)
  have hold (q b' : ℕ) (hq : (s.role q).buf = some b') :
      b' ≠ b ∧ (s.buf b').blockno ≠ (s.buf b).blockno := by
    have hq' : (s.pc q).buf = some b' := by rw [← Pc.role_buf]; exact hq
    refine ⟨?_,hblock q b' hq'⟩
    rintro rfl
    exact hunused q hq'
  refine h.frame hbooks ⟨rfl,fun _ _ => rfl,rfl,fun _ => ⟨rfl,id⟩,rfl,rfl,rfl⟩ (fun q r => ?_)
    (fun _ _ _ => rfl) (fun q r hq hd => ?_) (fun q b' hq => ?_)
    (fun q q' b1 b2 h1 h2 hqq => ?_) fun q b' h1 => ?_
  · change (s.setPc p (.calling b w)).role q = _ ↔ _
    rw [hrole]
    by_cases hq : q = p <;> simp [hq,hidle,Pc.role]
  · exact ⟨by simpa [(hold q r.b (by rw [hq]; rfl)).1] using hd.1,hd.2⟩
  · change (s.setPc p (.calling b w)).role q = _ at hq
    rw [hrole] at hq
    split at hq
    · simp [Pc.role] at hq
    · have hd := h.returned q b' hq
      exact ⟨by simpa [(hold q b' (by rw [hq]; rfl)).1] using hd.1,hd.2⟩
  · change ((s.setPc p (.calling b w)).role q).buf = _ at h1
    change ((s.setPc p (.calling b w)).role q').buf = _ at h2
    rw [hrole] at h1 h2
    split at h1 <;> split at h2
    · rename_i hq hq'
      exact absurd (hq.trans hq'.symm) hqq
    · obtain rfl : b = b1 := by simpa [Pc.role,Role.buf] using h1
      exact (hold q' b2 h2).2.symm
    · obtain rfl : b = b2 := by simpa [Pc.role,Role.buf] using h2
      exact (hold q b1 h1).2
    · exact h.blocks q q' b1 b2 h1 h2 hqq
  · change ((s.setPc p (.calling b w)).role q).buf = _ at h1
    rw [hrole] at h1
    split at h1
    · obtain rfl : b = b' := by simpa [Pc.role,Role.buf] using h1
      exact hpat
    · exact h.small q b' h1

theorem leave_inv (h : Inv s ys us) {p : ℕ} (hleave : s.leave p = some t) : Inv t ys us := by
  have hbooks := leave_books h.toBooks hleave
  unfold State.leave at hleave
  split at hleave
  case h_2 => simp at hleave
  rename_i b w hp
  obtain rfl := Option.some.inj hleave
  have hret : s.role p = .returned b := by rw [State.role,hp]; rfl
  have hkeep (b' : ℕ) : (update s.buf b { s.buf b with
      valid := !w || (s.buf b).valid } b').blockno = (s.buf b').blockno ∧
      (update s.buf b { s.buf b with valid := !w || (s.buf b).valid } b').data =
      (s.buf b').data := by
    by_cases hb : b' = b <;> simp [hb]
  refine h.frame hbooks ⟨rfl,fun _ _ => rfl,rfl,fun _ => ⟨rfl,id⟩,rfl,rfl,rfl⟩ (fun q r => ?_)
    (fun _ r _ => (hkeep r.b).1) (fun _ r _ hd => ?_) (fun q b' hq => ?_)
    (fun q q' b1 b2 h1 h2 => ?_) fun q b' h1 => ?_
  · change (s.setPc p .idle).role q = _ ↔ _
    rw [setPc_role]
    by_cases hq : q = p <;> simp [hq,hret,Pc.role]
  · refine ⟨hd.1,?_⟩
    change (update s.buf b _ r.b).data = s.disk (update s.buf b _ r.b).blockno
    rw [(hkeep r.b).1,(hkeep r.b).2]
    exact hd.2
  · change (s.setPc p .idle).role q = _ at hq
    rw [setPc_role] at hq
    by_cases hqp : q = p
    · simp [hqp,Pc.role] at hq
    · have hd := h.returned q b' (by simpa [hqp] using hq)
      refine ⟨hd.1,?_⟩
      change (update s.buf b _ b').data = s.disk (update s.buf b _ b').blockno
      rw [(hkeep b').1,(hkeep b').2]
      exact hd.2
  · simp only [hkeep]
    exact h.blocks q q' b1 b2 (idle_buf h1).2 (idle_buf h2).2
  · simp only [hkeep]
    exact h.small q b' (idle_buf h1).2

theorem fetch_inv (h : Inv s ys us) (hf : s.fetch = some t) : ∃ ys', Inv t ys' us := by
  obtain ⟨i,ys',rfl,hin,hbooks⟩ := fetch_books h.toBooks hf
  obtain ⟨⟨j,avail⟩,-,rfl⟩ := Option.map_eq_some_iff.mp hf
  refine ⟨ys',hbooks,h.op,h.blocks,h.small,fun p r hp hi => h.waited p r hp fun hm => hi ?_,
    h.returned⟩
  rw [hin]
  simp only [mem_append,mem_cons,not_mem_nil,or_false] at hm ⊢
  tauto

/-- The device addresses the buffer's own block. -/
theorem Inv.transfer_eq (h : Inv s ys us) {p : ℕ} {r : Request} (hp : s.role p = .waiting r) :
    s.transfer r.i0 =
      let s' := { s with
        info := update s.info r.i0 { s.info r.i0 with status := 0 }
        served := update s.served r.b true }
      if r.write then
        { s' with disk := update s.disk (s.buf r.b).blockno (s.buf r.b).data }
      else { s' with
        buf := update s.buf r.b { s.buf r.b with
          data := s.disk (s.buf r.b).blockno } } := by
  have hsmall := h.small p r.b (by rw [hp]; rfl)
  have hsector : (s.buf r.b).blockno*(BSIZE/512) % 2^32/2 = (s.buf r.b).blockno := by
    simp only [BSIZE]
    omega
  simp only [transfer_chain (h.chain p r hp),h.op p r hp,hsector]

/-- The request is done, and what was done stays done. -/
theorem transfer_done (h : Inv s ys us) {p : ℕ} {r : Request} (hp : s.role p = .waiting r) :
    Done (s.transfer r.i0) r.b ∧
      ∀ q b', (s.role q).buf = some b' → Done s b' → Done (s.transfer r.i0) b' := by
  have hb : (s.role p).buf = some r.b := by rw [hp]; rfl
  have hother (q b' : ℕ) (hq : (s.role q).buf = some b') (hne : b' ≠ r.b) :
      (s.buf b').blockno ≠ (s.buf r.b).blockno := by
    refine h.blocks q p b' r.b hq hb ?_
    rintro rfl
    exact hne (Option.some.inj (hq.symm.trans hb))
  have htr := h.transfer_eq hp
  generalize s.transfer r.i0 = t at htr
  have hdone : Done t r.b := by
    cases hw : r.write <;> simp [htr,hw,Done]
  refine ⟨hdone,fun q b' hq hd => ?_⟩
  by_cases hne : b' = r.b
  · exact hne ▸ hdone
  · obtain ⟨hs,hdata⟩ := hd
    cases hw : r.write <;> simp [htr,hw,Done,hne,hs,hdata,hother q b' hq hne]

theorem complete_inv (h : Inv s ys us) {k : ℕ} (hk : s.complete k = some t) :
    ∃ us', Inv t ys us' := by
  obtain ⟨p,r,hp,hmem,ht,hperm,hbooks⟩ := complete_books h.toBooks hk
  obtain ⟨hdone,hkeep⟩ := transfer_done h hp
  have htr := transfer_spec (h.chain p r hp)
  have hrole (q : ℕ) : t.role q = s.role q := by
    rw [← htr.role q,ht]
    rfl
  have hno (b' : ℕ) : (t.buf b').blockno = (s.buf b').blockno := by
    rw [← (htr.flag b').2,ht]
  have hd' (b' : ℕ) : Done t b' ↔ Done (s.transfer r.i0) b' := by
    rw [ht]
    rfl
  refine ⟨us++[r.i0],hbooks,fun q r' hq => ?_,fun q q' b1 b2 h1 h2 => ?_,fun q b1 h1 => ?_,
    fun q r' hq hi => ?_,fun q b1 hq => ?_⟩
  · rw [hrole] at hq
    have hops : t.ops = s.ops := by
      rw [← htr.tables.ops,ht]
    rw [hops,hno,h.op q r' hq]
  · rw [hrole] at h1 h2
    rw [hno,hno]
    exact h.blocks q q' b1 b2 h1 h2
  · rw [hrole] at h1
    rw [hno]
    exact h.small q b1 h1
  · rw [hrole] at hq
    rw [hd']
    by_cases hi0 : r'.i0 = r.i0
    · rw [(h.unique hp hq hi0).2]
      exact hdone
    · refine hkeep q r'.b (by rw [hq]; rfl) (h.waited q r' hq fun hm => hi ?_)
      rcases mem_append.mp hm with hm | hm
      · exact mem_append_left _ hm
      · have hm' := hperm.mem_iff.mpr hm
        rw [mem_cons] at hm'
        exact mem_append_right _ (hm'.resolve_left hi0)
  · rw [hrole] at hq
    exact (hd' b1).mpr (hkeep q b1 (by rw [hq]; rfl) (h.returned q b1 hq))

theorem intrIter_inv (h : Inv s ys us) {n : ℕ} (hi : s.intrIter n = some t) :
    ∃ us', Inv t ys us' ∧ t.panicked = s.panicked := by
  obtain ⟨p,r,us',used,hp,-,-,-,rfl,hbooks⟩ := intrIter_books h.toBooks hi
  have hrole := wakeupBuf_role s r.b
  have hkeep (b' : ℕ) : (update s.buf r.b { s.buf r.b with disk := false } b').blockno =
      (s.buf b').blockno ∧ (update s.buf r.b { s.buf r.b with disk := false } b').data =
      (s.buf b').data := by
    by_cases hb : b' = r.b <;> simp [hb]
  have hdone (b' : ℕ) : Done { s.wakeupBuf r.b with
      buf := update s.buf r.b { s.buf r.b with disk := false }
      used := used
      intr := some (n+1) } b' ↔ Done s b' := by
    simp only [Done,hkeep]
    rfl
  refine ⟨us',⟨hbooks,fun q r' hq => ?_,fun q q' b1 b2 h1 h2 => ?_,fun q b1 h1 => ?_,
    fun q r' hq hi => ?_,fun q b1 hq => ?_⟩,rfl⟩
  · simp only [hkeep]
    exact h.op q r' ((hrole q).symm.trans hq)
  · change ((s.wakeupBuf r.b).role q).buf = some b1 at h1
    change ((s.wakeupBuf r.b).role q').buf = some b2 at h2
    rw [hrole] at h1 h2
    simpa only [hkeep] using h.blocks q q' b1 b2 h1 h2
  · change ((s.wakeupBuf r.b).role q).buf = some b1 at h1
    rw [hrole] at h1
    simpa only [hkeep] using h.small q b1 h1
  · exact (hdone r'.b).mpr (h.waited q r' ((hrole q).symm.trans hq) hi)
  · exact (hdone b1).mpr (h.returned q b1 ((hrole q).symm.trans hq))

/-- A failing round of the descriptor loop changes nothing that matters. -/
theorem alloc3Desc_none_inv (h : Inv s ys us) (ha : s.alloc3Desc = (t,none)) : Inv t ys us := by
  obtain ⟨hf,hd,hq⟩ := alloc3Desc_none ha
  exact h.same (hq.tables hf hd) hq.role hq.disk hq.buf hq.served

theorem Submitted.inv {u : State} {p : ℕ} {r : Request} (hu : Submitted s u p r)
    (h : Inv s ys us) (hp : s.role p = .entering r.b) : Inv u (ys++[r.i0]) us := by
  have hdone (b' : ℕ) : Done u b' ↔ Done s b' := by
    rw [Done,Done,(hu.content b').1,(hu.content b').2,hu.served,hu.disk]
  refine ⟨hu.books h.toBooks hp,fun q r' hq => ?_,fun q q' b1 b2 h1 h2 => ?_,fun q b1 h1 => ?_,
    fun q r' hq hi => ?_,fun q b1 hq => ?_⟩
  · rw [(hu.content r'.b).1]
    by_cases hqp : q = p
    · subst hqp
      rw [hu.self hq,hu.op]
    · have hq' := hu.other hq hqp
      have h0 : r'.i0 ∉ r.descs := hu.new h.toBooks hq' (by simp [Request.descs])
      rw [(hu.tables _ h0).2.2.1,h.op q r' hq']
  · rw [(hu.content b1).1,(hu.content b2).1]
    exact h.blocks q q' b1 b2 (hu.buf_role hp h1) (hu.buf_role hp h2)
  · rw [(hu.content b1).1]
    exact h.small q b1 (hu.buf_role hp h1)
  · by_cases hqp : q = p
    · subst hqp
      rw [hu.self hq] at hi
      simp at hi
    · refine (hdone r'.b).mpr (h.waited q r' (hu.other hq hqp) fun hm => hi ?_)
      simp only [mem_append,hu.inflight] at hm ⊢
      tauto
  · rw [hu.role] at hq
    split at hq
    · cases hq
    · exact (hdone b1).mpr (h.returned q b1 hq)

theorem Finished.inv {u : State} {p : ℕ} {r : Request} (hu : Finished s u p r)
    (h : Inv s ys us) (hp : s.role p = .waiting r) (hd : (s.buf r.b).disk = false) :
    Inv u ys us := by
  have hpast : Done s r.b := h.waited p r hp fun hm =>
    h.toBooks.done hp hd (mem_append_left _ hm)
  have hdone (b' : ℕ) : Done u b' ↔ Done s b' := by
    rw [Done,Done,hu.buf,hu.served,hu.disk]
  refine ⟨hu.books h.toBooks hp hd,fun q r' hq => ?_,fun q q' b1 b2 h1 h2 => ?_,
    fun q b1 h1 => ?_,fun q r' hq hi => ?_,fun q b1 hq => ?_⟩
  · rw [hu.ops,hu.buf,h.op q r' (hu.old hq).2]
  · rw [hu.buf]
    exact h.blocks q q' b1 b2 (hu.buf_role hp h1) (hu.buf_role hp h2)
  · rw [hu.buf]
    exact h.small q b1 (hu.buf_role hp h1)
  · exact (hdone r'.b).mpr (h.waited q r' (hu.old hq).2 (hu.inflight ▸ hi))
  · rw [hu.role] at hq
    split at hq
    · obtain rfl : r.b = b1 := by injection hq
      exact (hdone r.b).mpr hpast
    · exact (hdone b1).mpr (h.returned q b1 hq)

end invariant

end Virtio
end Xv6
