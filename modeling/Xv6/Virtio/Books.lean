import Xv6.Virtio.Model
import Mathlib.Data.Fintype.Card
import Mathlib.Data.List.Perm.Basic

/-! Who owns which descriptor and which ring entry while no wait loop gives up. -/
namespace Xv6
namespace Virtio

open Function List

/-- A process's part in the driver, without its timeout and whether it sleeps. -/
inductive Role
  | idle
  | entering (b : ℕ)
  | waiting (r : Request)
  | returned (b : ℕ)

def Pc.role : Pc → Role
  | .idle => .idle
  | .calling b _ | .alloc b _ _ _ => .entering b
  | .wait r _ _ => .waiting r
  | .returned b _ => .returned b

def Role.buf : Role → Option ℕ
  | .idle => none
  | .entering b | .returned b => some b
  | .waiting r => some r.b

theorem Pc.role_buf (c : Pc) : c.role.buf = c.buf := by
  cases c <;> rfl

def State.role (s : State) (p : ℕ) : Role := (s.pc p).role

def Request.descs (r : Request) : List (Fin NUM) := [r.i0,r.i1,r.i2]

/-- The chain of a request is linked for it. -/
structure Chain (s : State) (r : Request) : Prop where
  nodup : r.descs.Nodup
  taken : ∀ i ∈ r.descs, s.free i = false
  head : s.desc r.i0 = ⟨.op r.i0,16,true,false,r.i1⟩
  data : s.desc r.i1 = ⟨.data r.b,BSIZE,true,!r.write,r.i2⟩
  status : s.desc r.i2 = ⟨.status r.i0,1,false,true,0⟩
  info : (s.info r.i0).b = some r.b

/-- Chains handed to the device: `ys` in the avail ring, then those in the device, then `us` in
the used ring. -/
structure Books (s : State) (ys us : List (Fin NUM)) : Prop where
  avail : s.avail.Holds IDX ys
  used : s.used.Holds IDX (us.map Fin.val)
  nodup : (ys++s.inflight++us).Nodup
  owned : ∀ i ∈ ys++s.inflight++us, ∃ p r, s.role p = .waiting r ∧ r.i0 = i ∧
    (s.buf r.b).disk = true
  pending : ∀ p r, s.role p = .waiting r → (s.buf r.b).disk = true → r.i0 ∈ ys++s.inflight++us
  chain : ∀ p r, s.role p = .waiting r → Chain s r
  disjoint : ∀ p p' r r', s.role p = .waiting r → s.role p' = .waiting r' → p ≠ p' →
    r.descs.Disjoint r'.descs
  taken : ∀ i, s.free i = false → ∃ p r, s.role p = .waiting r ∧ i ∈ r.descs
  apart : ∀ p p' b, (s.role p).buf = some b → (s.role p').buf = some b → p = p'
  status : ∀ i ∈ us, (s.info i).status = 0

theorem books_init (disk : ℕ → Block) : Books (.init disk) [] [] := by
  have hrole : ∀ p, (State.init disk).role p = .idle := fun _ => rfl
  have hring {α : Type} (a : α) : (⟨fun _ => a,0,0⟩ : Ring NUM α).Holds IDX [] :=
    Ring.holds_nil rfl (show 0 < IDX by decide)
  refine ⟨hring 0,hring 0,nodup_nil,nofun,?_,?_,?_,nofun,?_,nofun⟩ <;> simp [hrole,Role.buf]

section books

variable {s t : State} {ys us : List (Fin NUM)}

/-- The driver's tables and the rings are the same, up to free descriptors. -/
structure SameTables (s t : State) : Prop where
  free : t.free = s.free
  desc : ∀ i, s.free i = false → t.desc i = s.desc i
  ops : t.ops = s.ops
  info : ∀ i, (t.info i).b = (s.info i).b ∧ ((s.info i).status = 0 → (t.info i).status = 0)
  avail : t.avail = s.avail
  used : t.used = s.used
  inflight : t.inflight = s.inflight

theorem Chain.keep {r : Request} (h : Chain s r) (hfree : ∀ i ∈ r.descs, t.free i = false)
    (hdesc : ∀ i ∈ r.descs, t.desc i = s.desc i)
    (hinfo : (t.info r.i0).b = (s.info r.i0).b) : Chain t r :=
  ⟨h.nodup,hfree,by rw [hdesc _ (by simp [Request.descs]),h.head],
    by rw [hdesc _ (by simp [Request.descs]),h.data],
    by rw [hdesc _ (by simp [Request.descs]),h.status],by rw [hinfo,h.info]⟩

/-- Steps that leave the waiting processes and their requests alone. -/
theorem Books.frame (h : Books s ys us) (ht : SameTables s t)
    (hwait : ∀ p r, t.role p = .waiting r ↔ s.role p = .waiting r)
    (hflag : ∀ p r, s.role p = .waiting r → (t.buf r.b).disk = (s.buf r.b).disk)
    (hapart : ∀ p p' b, (t.role p).buf = some b → (t.role p').buf = some b → p = p') :
    Books t ys us := by
  have hin := ht.inflight
  refine ⟨ht.avail ▸ h.avail,ht.used ▸ h.used,hin ▸ h.nodup,fun i hi => ?_,fun p r hp hd => ?_,
    fun p r hp => ?_,fun p p' r r' hp hp' => ?_,fun i hi => ?_,hapart,
    fun i hi => (ht.info i).2 (h.status i hi)⟩
  · obtain ⟨p,r,hp,hi',hd⟩ := h.owned i (hin ▸ hi)
    exact ⟨p,r,(hwait p r).mpr hp,hi',(hflag p r hp).trans hd⟩
  · have hp' := (hwait p r).mp hp
    rw [hin]
    exact h.pending p r hp' ((hflag p r hp').symm.trans hd)
  · have hc := h.chain p r ((hwait p r).mp hp)
    exact hc.keep (ht.free ▸ hc.taken) (fun i hi => ht.desc i (hc.taken i hi)) (ht.info r.i0).1
  · exact h.disjoint p p' r r' ((hwait p r).mp hp) ((hwait p' r').mp hp')
  · obtain ⟨p,r,hp,hi'⟩ := h.taken i (ht.free ▸ hi)
    exact ⟨p,r,(hwait p r).mpr hp,hi'⟩

/-- The books do not depend on timeouts, on who is asleep, on the handler or on what the
buffers hold. -/
theorem Books.same (h : Books s ys us) (ht : SameTables s t) (hrole : ∀ p, t.role p = s.role p)
    (hflag : ∀ b, (t.buf b).disk = (s.buf b).disk) : Books t ys us := by
  refine h.frame ht (fun p r => by rw [hrole]) (fun _ r _ => hflag r.b) ?_
  simpa only [hrole] using h.apart

theorem wakeupFree_role (s : State) (p : ℕ) : s.wakeupFree.role p = s.role p := by
  unfold State.wakeupFree State.role
  dsimp only
  split <;> simp_all [Pc.role]

theorem wakeupBuf_role (s : State) (b p : ℕ) : (s.wakeupBuf b).role p = s.role p := by
  unfold State.wakeupBuf State.role
  dsimp only
  split <;> simp_all [Pc.role]

theorem setPc_role (s : State) (p : ℕ) (c : Pc) (q : ℕ) :
    (s.setPc p c).role q = if q = p then c.role else s.role q := by
  by_cases hq : q = p <;> simp [State.setPc,State.role,hq]

theorem setPc_role_same {p : ℕ} {c : Pc} (h : c.role = s.role p) (q : ℕ) :
    (s.setPc p c).role q = s.role q := by
  rw [setPc_role]
  split
  · rename_i hq
    rw [h,hq]
  · rfl

theorem setPc_tables (s : State) (p : ℕ) (c : Pc) : SameTables s (s.setPc p c) :=
  ⟨rfl,fun _ _ => rfl,rfl,fun _ => ⟨rfl,id⟩,rfl,rfl,rfl⟩

theorem call_books (h : Books s ys us) {p b : ℕ} {w : Bool} (hunused : s.Unused b)
    (hcall : s.call p b w = some t) : Books t ys us := by
  unfold State.call at hcall
  split at hcall
  case h_2 => simp at hcall
  rename_i hp
  obtain rfl := Option.some.inj hcall
  have hidle : s.role p = .idle := by rw [State.role,hp]; rfl
  have hrole := setPc_role s p (.calling b w)
  have hold (q : ℕ) (hq : (s.role q).buf = some b) : False := by
    rw [State.role,Pc.role_buf] at hq
    exact hunused q hq
  refine h.frame ⟨rfl,fun _ _ => rfl,rfl,fun _ => ⟨rfl,id⟩,rfl,rfl,rfl⟩ (fun q r => ?_)
    (fun _ _ _ => rfl) fun q q' b' h1 h2 => ?_
  · change (s.setPc p (.calling b w)).role q = _ ↔ _
    rw [hrole]
    by_cases hq : q = p <;> simp [hq,hidle,Pc.role]
  · change ((s.setPc p (.calling b w)).role q).buf = _ at h1
    change ((s.setPc p (.calling b w)).role q').buf = _ at h2
    rw [hrole] at h1 h2
    split at h1 <;> split at h2
    · rename_i hq hq'
      exact hq.trans hq'.symm
    · obtain rfl : b = b' := by simpa [Pc.role,Role.buf] using h1
      exact (hold q' h2).elim
    · obtain rfl : b = b' := by simpa [Pc.role,Role.buf] using h2
      exact (hold q h1).elim
    · exact h.apart q q' b' h1 h2

/-- A process that has left uses no buffer; the others use those they used. -/
theorem idle_buf {p q b : ℕ} (hq : ((s.setPc p .idle).role q).buf = some b) :
    q ≠ p ∧ (s.role q).buf = some b := by
  rw [setPc_role] at hq
  by_cases hqp : q = p
  · simp [hqp,Pc.role,Role.buf] at hq
  · exact ⟨hqp,by simpa [hqp] using hq⟩

theorem leave_books (h : Books s ys us) {p : ℕ} (hleave : s.leave p = some t) :
    Books t ys us := by
  unfold State.leave at hleave
  split at hleave
  case h_2 => simp at hleave
  rename_i b w hp
  obtain rfl := Option.some.inj hleave
  have hret : s.role p = .returned b := by rw [State.role,hp]; rfl
  refine h.frame ⟨rfl,fun _ _ => rfl,rfl,fun _ => ⟨rfl,id⟩,rfl,rfl,rfl⟩ (fun q r => ?_)
    (fun q r hq => ?_) fun q q' b' h1 h2 => ?_
  · change (s.setPc p .idle).role q = _ ↔ _
    rw [setPc_role]
    by_cases hq : q = p <;> simp [hq,hret,Pc.role]
  · have hne : r.b ≠ b := by
      rintro rfl
      have hqp := h.apart q p r.b (by rw [hq]; rfl) (by rw [hret]; rfl)
      rw [hqp,hret] at hq
      cases hq
    change (update s.buf b _ r.b).disk = _
    rw [update_of_ne hne]
  · exact h.apart q q' b' (idle_buf h1).2 (idle_buf h2).2

/-- A head belongs to one process. -/
theorem Books.unique (h : Books s ys us) {p q : ℕ} {r r' : Request} (hp : s.role p = .waiting r)
    (hq : s.role q = .waiting r') (hi : r'.i0 = r.i0) : q = p ∧ r' = r := by
  have hqp : q = p := by
    by_contra hne
    have hr : r.i0 ∈ r.descs := by simp [Request.descs]
    have hr' : r.i0 ∈ r'.descs := by simp [Request.descs,hi]
    exact h.disjoint q p r' r hq hp hne hr' hr
  subst hqp
  rw [hp] at hq
  exact ⟨rfl,(Role.waiting.inj hq).symm⟩

/-- Requests with different heads are for different buffers. -/
theorem Books.buf_ne (h : Books s ys us) {p q : ℕ} {r r' : Request} (hp : s.role p = .waiting r)
    (hq : s.role q = .waiting r') (hi : r'.i0 ≠ r.i0) : r'.b ≠ r.b := by
  intro he
  have hqp := h.apart q p r.b (by rw [hq,← he]; rfl) (by rw [hp]; rfl)
  subst hqp
  rw [hp] at hq
  exact hi (Role.waiting.inj hq ▸ rfl)

/-- Chains move on from the avail ring to the device and from there to the used ring. -/
theorem Books.requeue {ys' us' : List (Fin NUM)} (h : Books s ys us)
    (havail : t.avail.Holds IDX ys') (hused : t.used.Holds IDX (us'.map Fin.val))
    (hperm : (ys'++t.inflight++us').Perm (ys++s.inflight++us))
    (hus : ∀ i ∈ us', (s.info i).status = 0)
    (hrest : t = { s with avail := t.avail, used := t.used, inflight := t.inflight }) :
    Books t ys' us' := by
  rw [hrest]
  refine ⟨havail,hused,hperm.nodup_iff.mpr h.nodup,fun i hi => h.owned i (hperm.mem_iff.mp hi),
    fun p r hp hd => hperm.mem_iff.mpr (h.pending p r hp hd),fun p r hp => ?_,h.disjoint,h.taken,
    h.apart,hus⟩
  have hc := h.chain p r hp
  exact ⟨hc.nodup,hc.taken,hc.head,hc.data,hc.status,hc.info⟩

theorem fetch_books (h : Books s ys us) (hf : s.fetch = some t) :
    ∃ i ys', ys = i::ys' ∧ t.inflight = s.inflight++[i] ∧ Books t ys' us := by
  obtain ⟨⟨i,avail⟩,hpop,rfl⟩ := Option.map_eq_some_iff.mp hf
  obtain ⟨ys',rfl,hav⟩ := h.avail.pop (by decide) hpop
  refine ⟨i,ys',rfl,rfl,h.requeue hav h.used ?_ h.status rfl⟩
  have hmid : ((ys'++s.inflight)++i::us).Perm (i::((ys'++s.inflight)++us)) := perm_middle
  simpa using hmid

theorem descAt_val (s : State) (i : Fin NUM) : s.descAt i = s.desc i := by
  rw [State.descAt,dif_pos i.isLt]

/-- The device finds the request in the chain. -/
theorem transfer_chain {r : Request} (hc : Chain s r) : s.transfer r.i0 =
    let s' := { s with
      info := update s.info r.i0 { s.info r.i0 with status := 0 }
      served := update s.served r.b true }
    if (s.ops r.i0).out then
      { s' with disk := update s.disk ((s.ops r.i0).sector/2) (s.buf r.b).data }
    else { s' with
      buf := update s.buf r.b { s.buf r.b with
        data := s.disk ((s.ops r.i0).sector/2) } } := by
  simp only [State.transfer,hc.head,descAt_val,hc.data,hc.status]

/-- What the device leaves alone. -/
structure Transferred (s t : State) (r : Request) : Prop where
  tables : SameTables s t
  status : (t.info r.i0).status = 0
  pc : t.pc = s.pc
  flag : ∀ b, (t.buf b).disk = (s.buf b).disk ∧ (t.buf b).blockno = (s.buf b).blockno
  panicked : t.panicked = s.panicked
  intr : t.intr = s.intr

theorem transfer_spec {r : Request} (hc : Chain s r) : Transferred s (s.transfer r.i0) r := by
  have htr := transfer_chain hc
  generalize s.transfer r.i0 = t at htr
  have hinfo (i : Fin NUM) : (t.info i).b = (s.info i).b ∧
      ((s.info i).status = 0 → (t.info i).status = 0) := by
    by_cases hi : i = r.i0 <;> cases hw : (s.ops r.i0).out <;> simp [htr,hw,hi]
  have hflag (b : ℕ) : (t.buf b).disk = (s.buf b).disk ∧ (t.buf b).blockno = (s.buf b).blockno := by
    by_cases hb : b = r.b <;> cases hw : (s.ops r.i0).out <;> simp [htr,hw,hb]
  cases hw : (s.ops r.i0).out <;> exact ⟨⟨by simp [htr,hw],by simp [htr,hw],by simp [htr,hw],hinfo,
    by simp [htr,hw],by simp [htr,hw],by simp [htr,hw]⟩,by simp [htr,hw],by simp [htr,hw],hflag,
    by simp [htr,hw],by simp [htr,hw]⟩

theorem Transferred.role {r : Request} (h : Transferred s t r) (p : ℕ) : t.role p = s.role p := by
  rw [State.role,State.role,h.pc]

/-- What a completion does: the head `r.i0` goes from the device to the used ring. -/
theorem complete_books (h : Books s ys us) {k : ℕ} (hk : s.complete k = some t) :
    ∃ p r, s.role p = .waiting r ∧ r.i0 ∈ s.inflight ∧
      t = { s.transfer r.i0 with
        inflight := s.inflight.eraseIdx k
        used := s.used.push IDX r.i0 } ∧
      (r.i0::t.inflight).Perm s.inflight ∧ Books t ys (us++[r.i0]) := by
  obtain ⟨i,hi,ht⟩ := Option.map_eq_some_iff.mp hk
  obtain ⟨hlt,hget⟩ := List.getElem?_eq_some_iff.mp hi
  have hmem : i ∈ s.inflight := hget ▸ getElem_mem hlt
  obtain ⟨p,r,hp,rfl,-⟩ := h.owned i (by simp [hmem])
  have htr := transfer_spec (h.chain p r hp)
  have hmid : Books (s.transfer r.i0) ys us := h.same htr.tables htr.role fun b => (htr.flag b).1
  have hin := htr.tables.inflight
  have hused := htr.tables.used
  simp only [hin,hused] at ht
  have hperm : (r.i0::s.inflight.eraseIdx k).Perm s.inflight := by
    rw [← hget]
    exact getElem_cons_eraseIdx_perm hlt
  refine ⟨p,r,hp,hmem,ht.symm,by rw [← ht]; exact hperm,?_⟩
  have hnodup := h.nodup
  have hroom : us.length < NUM := by
    have hnd : (r.i0::us).Nodup := by
      refine nodup_cons.mpr ⟨fun hu => ?_,hnodup.of_append_right⟩
      exact disjoint_of_nodup_append hnodup (mem_append_right _ hmem) hu
    have := hnd.length_le_card
    rw [Fintype.card_fin] at this
    simp at this
    omega
  rw [← ht]
  have hpush : (s.used.push IDX r.i0.val).Holds IDX ((us++[r.i0]).map Fin.val) := by
    rw [map_append]
    exact h.used.push (by decide) (by simpa using hroom) _
  refine hmid.requeue hmid.avail hpush ?_ (fun j hj => ?_) rfl
  · have h1 : (ys++s.inflight.eraseIdx k++(us++[r.i0])).Perm
        (ys++(r.i0::s.inflight.eraseIdx k)++us) := by
      have hlast : ((ys++s.inflight.eraseIdx k++us)++[r.i0]).Perm
          (r.i0::(ys++s.inflight.eraseIdx k++us)) := perm_append_singleton _ _
      have hfirst : (ys++(r.i0::(s.inflight.eraseIdx k++us))).Perm
          (r.i0::(ys++(s.inflight.eraseIdx k++us))) := perm_middle
      simp only [append_assoc,cons_append] at hlast hfirst ⊢
      exact hlast.trans hfirst.symm
    rw [hin]
    exact h1.trans ((hperm.append_left ys).append_right us)
  · rcases mem_append.mp hj with hj | hj
    · exact hmid.status j hj
    · rw [mem_singleton.mp hj]
      exact htr.status

/-- What one round of the handler does: it clears the flag of the buffer whose request the
oldest entry of the used ring names. -/
theorem intrIter_books (h : Books s ys us) {n : ℕ} (hi : s.intrIter n = some t) :
    ∃ p r us' used, s.role p = .waiting r ∧ us = r.i0::us' ∧ s.used.pop IDX = some (r.i0.val,used) ∧
      (s.buf r.b).disk = true ∧
      t = { (s.wakeupBuf r.b) with
        buf := update s.buf r.b { s.buf r.b with disk := false }
        used := used
        intr := some (n+1) } ∧ Books t ys us' := by
  unfold State.intrIter at hi
  split at hi
  · simp at hi
  split at hi
  · simp at hi
  rename_i id used hpop
  obtain ⟨ids,hids,hus'⟩ := h.used.pop (by decide) hpop
  obtain ⟨i,us',rfl,rfl,rfl⟩ := map_eq_cons_iff.mp hids
  obtain ⟨p,r,hp,rfl,hd⟩ := h.owned i (by simp)
  have hc := h.chain p r hp
  rw [dif_pos r.i0.isLt,if_neg (by simp [h.status r.i0 (by simp)])] at hi
  simp only [Fin.eta,hc.info] at hi
  have ht := Option.some.inj hi
  refine ⟨p,r,us',used,hp,rfl,hpop,hd,ht.symm,?_⟩
  obtain rfl := ht
  have hrole := wakeupBuf_role s r.b
  have hnodup := h.nodup
  have hout : r.i0 ∉ ys++s.inflight++us' := by
    have hmid : (ys++s.inflight++r.i0::us').Perm (r.i0::(ys++s.inflight++us')) := perm_middle
    exact (nodup_cons.mp (hmid.nodup_iff.mp hnodup)).1
  refine ⟨h.avail,hus',?_,fun i hi => ?_,fun q r' hq hd' => ?_,fun q r' hq => ?_,
    fun q q' r1 r2 hq hq' => ?_,fun i hi => ?_,fun q q' b1 h1 h2 => ?_,
    fun i hi => h.status i (by simp [hi])⟩
  · exact hnodup.sublist ((sublist_cons_self r.i0 us').append_left _)
  · have hi' : i ∈ ys++s.inflight++r.i0::us' := by
      simp only [mem_append,mem_cons] at hi ⊢
      tauto
    obtain ⟨q,r',hq,rfl,hd'⟩ := h.owned i hi'
    have hne : r'.i0 ≠ r.i0 := fun he => hout (he ▸ hi)
    exact ⟨q,r',(hrole q).trans hq,rfl,by simpa [h.buf_ne hp hq hne] using hd'⟩
  · replace hq := (hrole q).symm.trans hq
    have hne : r'.i0 ≠ r.i0 := by
      intro he
      rw [(h.unique hp hq he).2] at hd'
      simp at hd'
    have hmem := h.pending q r' hq (by simpa [h.buf_ne hp hq hne] using hd')
    simp only [mem_append,mem_cons] at hmem ⊢
    tauto
  · have hcq := h.chain q r' ((hrole q).symm.trans hq)
    exact hcq.keep hcq.taken (fun _ _ => rfl) rfl
  · exact h.disjoint q q' r1 r2 ((hrole q).symm.trans hq) ((hrole q').symm.trans hq')
  · obtain ⟨q,r',hq,hi'⟩ := h.taken i hi
    exact ⟨q,r',(hrole q).trans hq,hi'⟩
  · change ((s.wakeupBuf r.b).role q).buf = some b1 at h1
    change ((s.wakeupBuf r.b).role q').buf = some b1 at h2
    rw [hrole] at h1 h2
    exact h.apart q q' b1 h1 h2

/-- Only descriptors and wake-ups differ. -/
structure Quiet (s t : State) : Prop where
  role : ∀ q, t.role q = s.role q
  ops : t.ops = s.ops
  info : t.info = s.info
  avail : t.avail = s.avail
  used : t.used = s.used
  inflight : t.inflight = s.inflight
  disk : t.disk = s.disk
  buf : t.buf = s.buf
  served : t.served = s.served
  panicked : t.panicked = s.panicked
  intr : t.intr = s.intr

theorem Quiet.trans {u : State} (h : Quiet s t) (h' : Quiet t u) : Quiet s u :=
  ⟨fun q => (h'.role q).trans (h.role q),h'.ops.trans h.ops,h'.info.trans h.info,
    h'.avail.trans h.avail,h'.used.trans h.used,h'.inflight.trans h.inflight,
    h'.disk.trans h.disk,h'.buf.trans h.buf,h'.served.trans h.served,
    h'.panicked.trans h.panicked,h'.intr.trans h.intr⟩

theorem quiet_free (s : State) (f : Fin NUM → Bool) : Quiet s { s with free := f } :=
  ⟨fun _ => rfl,rfl,rfl,rfl,rfl,rfl,rfl,rfl,rfl,rfl,rfl⟩

theorem freeDesc_spec {i : Fin NUM} (hi : s.free i = false) :
    (s.freeDesc i).free = update s.free i true ∧
    (s.freeDesc i).desc = update s.desc i .zero ∧ Quiet s (s.freeDesc i) := by
  have heq : s.freeDesc i = State.wakeupFree { s with
      desc := update s.desc i .zero
      free := update s.free i true } := by
    simp only [State.freeDesc,i.isLt,dif_pos,Fin.eta,hi]
    rfl
  rw [heq]
  exact ⟨rfl,rfl,fun q => wakeupFree_role _ q,rfl,rfl,rfl,rfl,rfl,rfl,rfl,rfl,rfl,rfl⟩

theorem allocDesc_spec {i : Fin NUM} (h : s.allocDesc = some (i,t)) :
    s.free i = true ∧ t = { s with free := update s.free i false } := by
  obtain ⟨j,hj,heq⟩ := Option.map_eq_some_iff.mp h
  obtain ⟨rfl,rfl⟩ := Prod.mk.inj heq
  exact ⟨find?_some hj,rfl⟩

theorem alloc3Desc_some {i0 i1 i2 : Fin NUM} (h : s.alloc3Desc = (t,some (i0,i1,i2))) :
    [i0,i1,i2].Nodup ∧ (∀ i ∈ [i0,i1,i2], s.free i = true) ∧
    t = { s with
      free := update (update (update s.free i0 false) i1 false) i2
        false } := by
  unfold State.alloc3Desc at h
  split at h
  · simp at h
  rename_i j0 s0 h0
  split at h
  · simp at h
  rename_i j1 s1 h1
  split at h
  · simp at h
  rename_i j2 s2 h2
  simp only [Prod.mk.injEq,Option.some.injEq] at h
  obtain ⟨rfl,rfl,rfl,rfl⟩ := h
  obtain ⟨f0,rfl⟩ := allocDesc_spec h0
  obtain ⟨f1,rfl⟩ := allocDesc_spec h1
  obtain ⟨f2,rfl⟩ := allocDesc_spec h2
  have h01 : j1 ≠ j0 := by
    rintro rfl
    simp at f1
  have h12 : j2 ≠ j1 := by
    rintro rfl
    simp at f2
  have h02 : j2 ≠ j0 := by
    rintro rfl
    simp [h12] at f2
  simp only [update_of_ne h01] at f1
  simp only [update_of_ne h12,update_of_ne h02] at f2
  refine ⟨by simp [h01.symm,h02.symm,h12.symm],?_,rfl⟩
  simp [f0,f1,f2]

/-- A failed `alloc3_desc` leaves the free list as it was; it may wake others. -/
theorem alloc3Desc_none (h : s.alloc3Desc = (t,none)) :
    t.free = s.free ∧ (∀ i, s.free i = false → t.desc i = s.desc i) ∧ Quiet s t := by
  unfold State.alloc3Desc at h
  split at h
  · obtain rfl : s = t := by simpa using h
    exact ⟨rfl,fun _ _ => rfl,quiet_free s s.free⟩
  rename_i j0 s0 h0
  obtain ⟨f0,rfl⟩ := allocDesc_spec h0
  split at h
  · obtain rfl := (Prod.mk.inj h).1
    obtain ⟨hf,hd,hq⟩ := freeDesc_spec
      (s := { s with free := update s.free j0 false }) (i := j0) (by simp)
    refine ⟨?_,fun i hi => ?_,?_⟩
    · rw [hf,update_idem,update_eq_self_iff]
      exact f0.symm
    · have hne : i ≠ j0 := by
        rintro rfl
        simp [f0] at hi
      rw [hd]
      simp [hne]
    · exact (quiet_free s _).trans hq
  rename_i j1 s1 h1
  obtain ⟨f1,rfl⟩ := allocDesc_spec h1
  split at h
  · obtain rfl := (Prod.mk.inj h).1
    have h01 : j1 ≠ j0 := by
      rintro rfl
      simp at f1
    simp only [update_of_ne h01] at f1
    obtain ⟨hf,hd,hq⟩ := freeDesc_spec (i := j0) (s := { s with
      free := update (update s.free j0 false) j1 false }) (by simp [h01.symm])
    obtain ⟨hf',hd',hq'⟩ := freeDesc_spec (i := j1) (s := State.freeDesc { s with
      free := update (update s.free j0 false) j1 false } j0)
      (by rw [hf]; simp [h01])
    refine ⟨?_,fun i hi => ?_,?_⟩
    · rw [hf',hf]
      funext i
      by_cases hi1 : i = j1
      · simp [hi1,f1]
      · by_cases hi0 : i = j0 <;> simp [hi1,hi0,f0]
        simp [← hi0,hi1]
    · have hne0 : i ≠ j0 := by
        rintro rfl
        simp [f0] at hi
      have hne1 : i ≠ j1 := by
        rintro rfl
        simp [f1] at hi
      rw [hd',hd]
      simp [hne0,hne1]
    · exact (quiet_free s _).trans (hq.trans hq')
  · simp at h

theorem Quiet.tables (hq : Quiet s t) (hf : t.free = s.free)
    (hd : ∀ i, s.free i = false → t.desc i = s.desc i) : SameTables s t :=
  ⟨hf,hd,hq.ops,fun i => by simp [hq.info],hq.avail,hq.used,hq.inflight⟩

/-- What `submit` has done in state `u`: process `p` now waits for request `r`. -/
structure Submitted (s u : State) (p : ℕ) (r : Request) : Prop where
  role : ∀ q, u.role q = if q = p then .waiting r else s.role q
  fresh : ∀ i ∈ r.descs, s.free i = true
  chain : Chain u r
  op : u.ops r.i0 = ⟨r.write,(s.buf r.b).blockno*(BSIZE/512) % 2^32⟩
  tables : ∀ i, i ∉ r.descs → u.free i = s.free i ∧ u.desc i = s.desc i ∧ u.ops i = s.ops i ∧
    u.info i = s.info i
  flag : (u.buf r.b).disk = true
  buf : ∀ b, b ≠ r.b → u.buf b = s.buf b
  content : ∀ b, (u.buf b).blockno = (s.buf b).blockno ∧ (u.buf b).data = (s.buf b).data
  avail : u.avail = s.avail.push IDX r.i0
  used : u.used = s.used
  inflight : u.inflight = s.inflight
  disk : u.disk = s.disk
  served : u.served = s.served
  panicked : u.panicked = s.panicked
  intr : u.intr = s.intr

theorem submit_spec (p b : ℕ) (w : Bool) {i0 i1 i2 : Fin NUM}
    (ha : s.alloc3Desc = (t,some (i0,i1,i2))) :
    Submitted s (t.submit p b w i0 i1 i2) p ⟨b,w,i0,i1,i2⟩ := by
  obtain ⟨hnd,hfree,rfl⟩ := alloc3Desc_some ha
  obtain ⟨h01,h02,h12⟩ : i0 ≠ i1 ∧ i0 ≠ i2 ∧ i1 ≠ i2 := by
    simp only [nodup_cons,mem_cons,not_mem_nil,or_false,not_or] at hnd
    exact ⟨hnd.1.1,hnd.1.2,hnd.2.1⟩
  refine ⟨fun q => setPc_role _ p _ q,hfree,⟨hnd,?_,?_,?_,?_,?_⟩,?_,fun i hi => ?_,?_,
    fun b' hb => ?_,fun b' => ?_,rfl,rfl,rfl,rfl,rfl,rfl,rfl⟩
  · simp [Request.descs,State.submit,State.setPc,h01,h02,h12]
  · simp [State.submit,h01,h02]
  · simp [State.submit,h12]
  · simp [State.submit]
  · simp [State.submit]
  · simp [State.submit]
  · simp only [Request.descs,mem_cons,not_mem_nil,or_false,not_or] at hi
    simp [State.submit,State.setPc,hi]
  · simp [State.submit]
  · exact update_of_ne hb _ _
  · by_cases hb : b' = b <;> simp [State.submit,hb]

/-- One round of the descriptor loop fails and sleeps, or submits the request. -/
theorem allocRound_cases (s : State) (p b : ℕ) (w : Bool) {k : ℕ}
    (hk : s.alloc3Desc.2 = none → k < 1000) :
    (∃ t, s.alloc3Desc = (t,none) ∧ s.allocRound p b w k = t.setPc p (.alloc b w (k+1) true)) ∨
    ∃ i0 i1 i2, Submitted s (s.allocRound p b w k) p ⟨b,w,i0,i1,i2⟩ := by
  rcases ha : s.alloc3Desc with ⟨t,- | ⟨i0,i1,i2⟩⟩
  · have hlt := hk (by rw [ha])
    refine .inl ⟨t,rfl,?_⟩
    simp only [State.allocRound,ha]
    rw [if_neg (by omega)]
  · refine .inr ⟨i0,i1,i2,?_⟩
    have heq : s.allocRound p b w k = t.submit p b w i0 i1 i2 := by
      simp only [State.allocRound,ha]
    rw [heq]
    exact submit_spec p b w ha

section submitted

variable {u : State} {p : ℕ} {r : Request}

/-- The descriptors of a new request were free, so no other request has them. -/
theorem Submitted.new (hu : Submitted s u p r) (h : Books s ys us) {q : ℕ} {r' : Request}
    (hq : s.role q = .waiting r') {i : Fin NUM} (hi : i ∈ r'.descs) : i ∉ r.descs := fun hm => by
  have hf := (h.chain q r' hq).taken i hi
  rw [hu.fresh i hm] at hf
  cases hf

theorem Submitted.self (hu : Submitted s u p r) {r' : Request} (hq : u.role p = .waiting r') :
    r' = r := by
  rw [hu.role,if_pos rfl] at hq
  exact (Role.waiting.inj hq).symm

theorem Submitted.other (hu : Submitted s u p r) {q : ℕ} {r' : Request}
    (hq : u.role q = .waiting r') (hqp : q ≠ p) : s.role q = .waiting r' := by
  rwa [hu.role,if_neg hqp] at hq

theorem Submitted.old (hu : Submitted s u p r) (h : Books s ys us)
    (hp : s.role p = .entering r.b) {q : ℕ} {r' : Request} (hq : s.role q = .waiting r') :
    u.role q = .waiting r' ∧ u.buf r'.b = s.buf r'.b := by
  have hqp : q ≠ p := by
    rintro rfl
    rw [hp] at hq
    cases hq
  refine ⟨by rw [hu.role,if_neg hqp,hq],hu.buf _ fun he => hqp ?_⟩
  exact h.apart q p r.b (by rw [hq,← he]; rfl) (by rw [hp]; rfl)

theorem Submitted.buf_role (hu : Submitted s u p r) (hp : s.role p = .entering r.b) {q b : ℕ}
    (hq : (u.role q).buf = some b) : (s.role q).buf = some b := by
  rw [hu.role] at hq
  split at hq
  · rename_i hqp
    rw [hqp,hp]
    exact hq
  · exact hq

theorem Submitted.books (hu : Submitted s u p r) (h : Books s ys us)
    (hp : s.role p = .entering r.b) : Books u (ys++[r.i0]) us := by
  have hi0mem : r.i0 ∈ r.descs := by simp [Request.descs]
  have hi0 : r.i0 ∉ ys++s.inflight++us := fun hm => by
    obtain ⟨q,r',hq,he,-⟩ := h.owned r.i0 hm
    exact hu.new h hq (by simp [Request.descs]) (he ▸ hi0mem)
  have hroom : ys.length < NUM := by
    have hys : (r.i0::ys).Nodup := nodup_cons.mpr
      ⟨fun hm => hi0 (by simp [hm]),h.nodup.of_append_left.of_append_left⟩
    have hle := hys.length_le_card
    rw [Fintype.card_fin] at hle
    simp at hle
    omega
  refine ⟨hu.avail ▸ h.avail.push (by decide) hroom r.i0,hu.used ▸ h.used,?_,fun i hi => ?_,
    fun q r' hq hd => ?_,fun q r' hq => ?_,fun q q' r1 r2 hq hq' hqq => ?_,fun i hi => ?_,
    fun q q' b1 h1 h2 => ?_,fun i hi => ?_⟩
  · have hperm : (ys++[r.i0]++u.inflight++us).Perm (r.i0::(ys++s.inflight++us)) := by
      simp [hu.inflight]
    exact hperm.nodup_iff.mpr (nodup_cons.mpr ⟨hi0,h.nodup⟩)
  · by_cases hii : i = r.i0
    · exact ⟨p,r,by rw [hu.role,if_pos rfl],hii.symm,hu.flag⟩
    · have hi' : i ∈ ys++s.inflight++us := by
        simpa [hu.inflight,hii] using hi
      obtain ⟨q,r',hq,he,hd⟩ := h.owned i hi'
      exact ⟨q,r',(hu.old h hp hq).1,he,by rw [(hu.old h hp hq).2,hd]⟩
  · by_cases hqp : q = p
    · subst hqp
      rw [hu.self hq]
      simp
    · have hq' := hu.other hq hqp
      have hm := h.pending q r' hq' ((hu.old h hp hq').2 ▸ hd)
      simp only [mem_append,hu.inflight] at hm ⊢
      tauto
  · by_cases hqp : q = p
    · subst hqp
      rw [hu.self hq]
      exact hu.chain
    · have hq' := hu.other hq hqp
      have hc := h.chain q r' hq'
      have ht (i : Fin NUM) (hi : i ∈ r'.descs) := hu.tables i (hu.new h hq' hi)
      exact hc.keep (fun i hi => (ht i hi).1.trans (hc.taken i hi)) (fun i hi => (ht i hi).2.1)
        (by rw [(ht _ (by simp [Request.descs])).2.2.2])
  · by_cases hqp : q = p
    · subst hqp
      rw [hu.self hq]
      exact fun i hi hi' => hu.new h (hu.other hq' hqq.symm) hi' hi
    · by_cases hqp' : q' = p
      · subst hqp'
        rw [hu.self hq']
        exact fun i hi hi' => hu.new h (hu.other hq hqp) hi hi'
      · exact h.disjoint q q' r1 r2 (hu.other hq hqp) (hu.other hq' hqp') hqq
  · by_cases hm : i ∈ r.descs
    · exact ⟨p,r,by rw [hu.role,if_pos rfl],hm⟩
    · rw [(hu.tables i hm).1] at hi
      obtain ⟨q,r',hq,hi'⟩ := h.taken i hi
      exact ⟨q,r',(hu.old h hp hq).1,hi'⟩
  · exact h.apart q q' b1 (hu.buf_role hp h1) (hu.buf_role hp h2)
  · obtain ⟨q,r',hq,he,-⟩ := h.owned i (by simp [hi])
    have hno := hu.new h hq (i := r'.i0) (by simp [Request.descs])
    rw [(hu.tables i (he ▸ hno)).2.2.2]
    exact h.status i hi

end submitted

/-- `free_chain` frees the three descriptors of a chain and stops. -/
theorem freeChain_spec {r : Request} (hc : Chain s r) (hf : t.free = s.free)
    (hd : t.desc = s.desc) :
    (∀ i, (t.freeChain r.i0 (NUM+1)).free i = if i ∈ r.descs then true else s.free i) ∧
    (∀ i, i ∉ r.descs → (t.freeChain r.i0 (NUM+1)).desc i = s.desc i) ∧
    Quiet t (t.freeChain r.i0 (NUM+1)) := by
  have hnd := hc.nodup
  simp only [Request.descs,nodup_cons,mem_cons,not_mem_nil,or_false,not_or] at hnd
  obtain ⟨⟨h01,h02⟩,h12,-⟩ := hnd
  have ht (i : Fin NUM) (hi : i ∈ r.descs) : t.free i = false := hf ▸ hc.taken i hi
  obtain ⟨f0,d0,q0⟩ := freeDesc_spec (ht r.i0 (by simp [Request.descs]))
  obtain ⟨f1,d1,q1⟩ := freeDesc_spec (s := t.freeDesc r.i0) (i := r.i1)
    (by rw [f0,update_of_ne (Ne.symm h01),ht r.i1 (by simp [Request.descs])])
  obtain ⟨f2,d2,q2⟩ := freeDesc_spec (s := (t.freeDesc r.i0).freeDesc r.i1) (i := r.i2)
    (by rw [f1,update_of_ne (Ne.symm h12),f0,update_of_ne (Ne.symm h02),
          ht r.i2 (by simp [Request.descs])])
  have hd1 : (t.freeDesc r.i0).desc r.i1 = s.desc r.i1 := by
    rw [d0,update_of_ne (Ne.symm h01),hd]
  have hd2 : ((t.freeDesc r.i0).freeDesc r.i1).desc r.i2 = s.desc r.i2 := by
    rw [d1,update_of_ne (Ne.symm h12),d0,update_of_ne (Ne.symm h02),hd]
  have heq : t.freeChain r.i0 (NUM+1) = ((t.freeDesc r.i0).freeDesc r.i1).freeDesc r.i2 := by
    simp only [State.freeChain,descAt_val,hd,hc.head,if_true,hd1,hc.data,hd2,hc.status]
    rfl
  rw [heq]
  refine ⟨fun i => ?_,fun i hi => ?_,q0.trans (q1.trans q2)⟩
  · rw [f2,f1,f0,hf]
    by_cases hi0 : i = r.i0 <;> by_cases hi1 : i = r.i1 <;> by_cases hi2 : i = r.i2 <;>
      simp [update_apply,Request.descs,hi0,hi1,hi2]
  · simp only [Request.descs,mem_cons,not_mem_nil,or_false,not_or] at hi
    rw [d2,d1,d0,hd]
    simp [hi]

/-- What `finish` has done in state `u`: the request is gone and its call has returned. -/
structure Finished (s u : State) (p : ℕ) (r : Request) : Prop where
  role : ∀ q, u.role q = if q = p then .returned r.b else s.role q
  free : ∀ i, u.free i = if i ∈ r.descs then true else s.free i
  desc : ∀ i, i ∉ r.descs → u.desc i = s.desc i
  ops : u.ops = s.ops
  info : ∀ i, (u.info i).status = (s.info i).status ∧ (i ≠ r.i0 → u.info i = s.info i)
  avail : u.avail = s.avail
  used : u.used = s.used
  inflight : u.inflight = s.inflight
  disk : u.disk = s.disk
  buf : u.buf = s.buf
  served : u.served = s.served
  panicked : u.panicked = s.panicked
  intr : u.intr = s.intr

theorem finish_spec {r : Request} (hc : Chain s r) (p : ℕ) :
    Finished s (s.finish p r) p r := by
  obtain ⟨hfree,hdesc,hq⟩ := freeChain_spec (t := { s with
    info := update s.info r.i0 { s.info r.i0 with b := none } }) hc rfl rfl
  refine ⟨fun q => ?_,hfree,hdesc,hq.ops,fun i => ?_,hq.avail,hq.used,hq.inflight,hq.disk,hq.buf,
    hq.served,hq.panicked,hq.intr⟩
  · rw [State.finish,setPc_role,hq.role]
    rfl
  · have hi : (s.finish p r).info = update s.info r.i0 { s.info r.i0 with b := none } :=
      hq.info
    rw [hi]
    by_cases h0 : i = r.i0 <;> simp [h0]

section finished

variable {u : State} {p : ℕ} {r : Request}

theorem Finished.old (hu : Finished s u p r) {q : ℕ} {r' : Request}
    (hq : u.role q = .waiting r') : q ≠ p ∧ s.role q = .waiting r' := by
  rw [hu.role] at hq
  split at hq
  · cases hq
  · exact ⟨‹_›,hq⟩

theorem Finished.buf_role (hu : Finished s u p r) (hp : s.role p = .waiting r) {q b : ℕ}
    (hq : (u.role q).buf = some b) : (s.role q).buf = some b := by
  rw [hu.role] at hq
  split at hq
  · rename_i hqp
    rw [hqp,hp]
    exact hq
  · exact hq

/-- A request whose flag is clear is no longer in the rings or the device. -/
theorem Books.done (h : Books s ys us) (hp : s.role p = .waiting r)
    (hd : (s.buf r.b).disk = false) : r.i0 ∉ ys++s.inflight++us := fun hm => by
  obtain ⟨q,r',hq,he,hd'⟩ := h.owned r.i0 hm
  rw [(h.unique hp hq he).2,hd] at hd'
  cases hd'

theorem Finished.books (hu : Finished s u p r) (h : Books s ys us) (hp : s.role p = .waiting r)
    (hd : (s.buf r.b).disk = false) : Books u ys us := by
  have hout := h.done hp hd
  have hback {q : ℕ} {r' : Request} (hq : s.role q = .waiting r') (hqp : q ≠ p) :
      u.role q = .waiting r' := by rw [hu.role,if_neg hqp,hq]
  refine ⟨hu.avail ▸ h.avail,hu.used ▸ h.used,hu.inflight ▸ h.nodup,fun i hi => ?_,
    fun q r' hq hd' => ?_,fun q r' hq => ?_,fun q q' r1 r2 hq hq' hqq => ?_,fun i hi => ?_,
    fun q q' b1 h1 h2 => ?_,fun i hi => ?_⟩
  · rw [hu.inflight] at hi
    obtain ⟨q,r',hq,he,hd'⟩ := h.owned i hi
    have hqp : q ≠ p := by
      rintro rfl
      rw [hp] at hq
      obtain rfl := Role.waiting.inj hq
      exact hout (he ▸ hi)
    exact ⟨q,r',hback hq hqp,he,by rw [hu.buf,hd']⟩
  · rw [hu.inflight]
    exact h.pending q r' (hu.old hq).2 (hu.buf ▸ hd')
  · obtain ⟨hqp,hq'⟩ := hu.old hq
    have hc := h.chain q r' hq'
    have hno (i : Fin NUM) (hi : i ∈ r'.descs) : i ∉ r.descs :=
      h.disjoint q p r' r hq' hp hqp hi
    have h0 : r'.i0 ≠ r.i0 := fun he => hno r'.i0 (by simp [Request.descs])
      (he ▸ (by simp [Request.descs]))
    exact hc.keep (fun i hi => by rw [hu.free,if_neg (hno i hi),hc.taken i hi])
      (fun i hi => hu.desc i (hno i hi)) (by rw [(hu.info _).2 h0])
  · exact h.disjoint q q' r1 r2 (hu.old hq).2 (hu.old hq').2 hqq
  · rw [hu.free] at hi
    split at hi
    · cases hi
    · rename_i hno
      obtain ⟨q,r',hq,hi'⟩ := h.taken i hi
      have hqp : q ≠ p := by
        rintro rfl
        rw [hp] at hq
        exact hno (Role.waiting.inj hq ▸ hi')
      exact ⟨q,r',hback hq hqp,hi'⟩
  · exact h.apart q q' b1 (hu.buf_role hp h1) (hu.buf_role hp h2)
  · rw [(hu.info i).1]
    exact h.status i hi

end finished

theorem allocRound_books (h : Books s ys us) {p b : ℕ} (hp : s.role p = .entering b) (w : Bool)
    {k : ℕ} (hk : s.alloc3Desc.2 = none → k < 1000) :
    (∃ ys', Books (s.allocRound p b w k) ys' us) ∧
      (s.allocRound p b w k).panicked = s.panicked ∧
      (s.allocRound p b w k).intr = s.intr := by
  rcases allocRound_cases s p b w hk with ⟨t,ha,heq⟩ | ⟨i0,i1,i2,hu⟩
  · obtain ⟨hf,hd,hq⟩ := alloc3Desc_none ha
    rw [heq]
    refine ⟨⟨ys,?_⟩,hq.panicked,hq.intr⟩
    have ht : Books t ys us := h.same (hq.tables hf hd) hq.role fun _ => by rw [hq.buf]
    exact ht.same (setPc_tables t p _) (setPc_role_same ((hq.role p).trans hp).symm) fun _ => rfl
  · exact ⟨⟨ys++[i0],hu.books h hp⟩,hu.panicked,hu.intr⟩

/-- A process that is woken goes back to sleep, or its request is done and it leaves. -/
theorem check_books (h : Books s ys us) {p : ℕ}
    (hpat : ∀ r k a, s.pc p = .wait r k a → (s.buf r.b).disk = true → k < 10000)
    (he : s.check p = some t) :
    Books t ys us ∧ t.panicked = s.panicked ∧ t.intr = s.intr ∧
      ∃ r k, s.pc p = .wait r k false ∧ (((s.buf r.b).disk = true ∧
        t = s.setPc p (.wait r (k+1) true)) ∨ ((s.buf r.b).disk = false ∧ Finished s t p r)) := by
  unfold State.check at he
  split at he
  case h_2 => cases he
  rename_i r k hp
  have hrole : s.role p = .waiting r := by rw [State.role,hp]; rfl
  have hfin := finish_spec (h.chain p r hrole) p
  have hlt := hpat r k false hp
  rcases Bool.eq_false_or_eq_true (s.buf r.b).disk with hd | hd
  · have hk := hlt hd
    rw [if_neg (by omega),if_pos hd] at he
    obtain rfl := Option.some.inj he
    exact ⟨h.same (setPc_tables s p _) (setPc_role_same hrole.symm) fun _ => rfl,rfl,rfl,
      r,k,hp,.inl ⟨hd,rfl⟩⟩
  · have heq : s.finish p r = t := by
      simpa [hd] using he
    rw [← heq]
    exact ⟨hfin.books h hrole hd,hfin.panicked,hfin.intr,r,k,hp,.inr ⟨hd,hfin⟩⟩

theorem step_act {e : Event} (h : s.step e = some t) :
    s.panicked = none ∧ s.act e = some t := by
  unfold State.step at h
  split at h
  · cases h
  · exact ⟨‹_›,h⟩

end books

end Virtio
end Xv6
