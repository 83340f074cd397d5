import Xv6.Virtio.Books
import Mathlib.Data.Set.Card
import Mathlib.Algebra.Order.BigOperators.Group.Finset

/-! Descriptors and ring entries add up in every run in which no wait loop gives up, whatever
the callers do to the blocks of their buffers. -/
namespace Xv6
namespace Virtio

open Finset

namespace State

/-- Process `p` waits for request `r`, which is then in flight. -/
def Waits (s : State) (p : ℕ) (r : Request) : Prop := ∃ k a, s.pc p = .wait r k a

/-- `virtio_disk_rw` is called by the holder of the buffer's sleep lock, and neither retry bound
is hit. -/
def Orderly (s : State) : Event → Prop
  | .call _ b _ => s.Unused b
  | .retry p => ∀ b w k a, s.pc p = .alloc b w k a → s.alloc3Desc.2 = none → k < 1000
  | .check p => ∀ r k a, s.pc p = .wait r k a → (s.buf r.b).disk = true → k < 10000
  | _ => True

end State

theorem role_waiting {s : State} {p : ℕ} {r : Request} :
    s.role p = .waiting r ↔ s.Waits p r := by
  rw [State.role,State.Waits]
  cases h : s.pc p <;> simp [Pc.role]

/-- The books, and how much the handler has yet to do. -/
structure Counted (s : State) (ys us : List (Fin NUM)) : Prop extends Books s ys us where
  processed : ∀ n, s.intr = some n → n+(ys++s.inflight++us).length ≤ NUM

section counted

variable {s t : State} {ys us : List (Fin NUM)}

theorem Books.length_le (h : Books s ys us) : (ys++s.inflight++us).length ≤ NUM := by
  have hle := h.nodup.length_le_card
  rwa [Fintype.card_fin] at hle

theorem Books.idle (h : Books s ys us) (hi : s.intr = none) : Counted s ys us :=
  ⟨h,fun n hn => by rw [hi] at hn; cases hn⟩

/-- Outside the handler's loop the number of chains the device has does not grow while the
handler runs. -/
theorem Counted.move (h : Counted s ys us) {ys' us' : List (Fin NUM)} (ht : Books t ys' us')
    (hi : t.intr = s.intr)
    (hlen : (ys'++t.inflight++us').length = (ys++s.inflight++us).length) : Counted t ys' us' :=
  ⟨ht,fun n hn => by
    rw [hlen]
    exact h.processed n (hi.symm.trans hn)⟩

theorem kill_role (s : State) (p q : ℕ) : (s.kill p).role q = s.role q := by
  unfold State.kill
  split
  · exact setPc_role_same (by rw [State.role,‹s.pc p = _›]; rfl) q
  · exact setPc_role_same (by rw [State.role,‹s.pc p = _›]; rfl) q
  · rfl

theorem enter_books (h : Books s ys us) {p : ℕ} (he : s.enter p = some t) :
    (∃ ys', Books t ys' us) ∧ t.panicked = s.panicked ∧ t.intr = s.intr := by
  unfold State.enter at he
  split at he
  · rename_i b w hp
    obtain rfl := Option.some.inj he
    exact allocRound_books h (by rw [State.role,hp]; rfl) w fun _ => by norm_num
  · cases he

theorem retry_books (h : Books s ys us) {p : ℕ} (hok : s.Orderly (.retry p))
    (he : s.retry p = some t) :
    (∃ ys', Books t ys' us) ∧ t.panicked = s.panicked ∧ t.intr = s.intr := by
  unfold State.retry at he
  split at he
  · rename_i b w k hp
    obtain rfl := Option.some.inj he
    exact allocRound_books h (by rw [State.role,hp]; rfl) w (hok b w k false hp)
  · cases he

/-- Everything but `pc`, the buffers' contents and what callers see is left alone. -/
theorem Counted.keep (h : Counted s ys us) (ht : SameTables s t)
    (hrole : ∀ p, t.role p = s.role p) (hdisk : ∀ b, (t.buf b).disk = (s.buf b).disk)
    (hi : t.intr = s.intr) : Counted t ys us :=
  h.move (h.toBooks.same ht hrole hdisk) hi (by rw [ht.inflight])

theorem complete_counted (h : Counted s ys us) {k : ℕ} (he : s.complete k = some t) :
    (∃ us', Counted t ys us') ∧ t.panicked = s.panicked := by
  obtain ⟨p,r,hp,-,ht,hperm,hb⟩ := complete_books h.toBooks he
  have htr := transfer_spec (h.chain p r hp)
  have hlen := hperm.length_eq
  refine ⟨⟨us++[r.i0],h.move hb (by rw [ht]; exact htr.intr) ?_⟩,by rw [ht]; exact htr.panicked⟩
  simp only [List.length_append,List.length_cons,List.length_nil] at hlen ⊢
  omega

/-- A round of the handler takes one chain off the device's. -/
theorem intrIter_counted (h : Counted s ys us) {n : ℕ} (hn : s.intr = some n)
    (he : s.intrIter n = some t) : (∃ us', Counted t ys us') ∧ t.panicked = s.panicked := by
  obtain ⟨p,r,us',used,-,rfl,-,-,ht,hb⟩ := intrIter_books h.toBooks he
  have hlen := h.processed n hn
  subst ht
  refine ⟨⟨us',hb,fun m hm => ?_⟩,rfl⟩
  obtain rfl := Option.some.inj hm
  change n+1+(ys++s.inflight++us').length ≤ NUM
  simp only [List.length_append,List.length_cons] at hlen ⊢
  omega

/-- One event of an orderly run keeps the books of the driver and does not panic. -/
theorem act_counted (h : Counted s ys us) {e : Event} (hok : s.Orderly e)
    (he : s.act e = some t) : (∃ ys' us', Counted t ys' us') ∧ t.panicked = s.panicked := by
  have htables (buf : ℕ → Buf) : SameTables s { s with buf := buf } :=
    ⟨rfl,fun _ _ => rfl,rfl,fun _ => ⟨rfl,id⟩,rfl,rfl,rfl⟩
  cases e with
  | recycle b blockno =>
    obtain rfl := Option.some.inj he
    refine ⟨⟨ys,us,h.keep (htables _) (fun _ => rfl) (fun b' => ?_) rfl⟩,rfl⟩
    by_cases hb : b' = b <;> simp [State.recycle,hb]
  | store b data =>
    obtain rfl := Option.some.inj he
    refine ⟨⟨ys,us,h.keep (htables _) (fun _ => rfl) (fun b' => ?_) rfl⟩,rfl⟩
    by_cases hb : b' = b <;> simp [State.store,hb]
  | call p b w =>
    have hb := call_books h.toBooks hok he
    simp only [State.act,State.call] at he
    split at he
    · obtain rfl := Option.some.inj he
      exact ⟨⟨ys,us,h.move hb rfl rfl⟩,rfl⟩
    · cases he
  | enter p =>
    simp only [State.act] at he
    split at he
    · cases he
    · obtain ⟨⟨ys',hb⟩,hp,hi⟩ := enter_books h.toBooks he
      exact ⟨⟨ys',us,hb.idle (by simp_all)⟩,hp⟩
  | retry p =>
    simp only [State.act] at he
    split at he
    · cases he
    · obtain ⟨⟨ys',hb⟩,hp,hi⟩ := retry_books h.toBooks hok he
      exact ⟨⟨ys',us,hb.idle (by simp_all)⟩,hp⟩
  | check p =>
    simp only [State.act] at he
    split at he
    · cases he
    · obtain ⟨hb,hp,hi,-⟩ := check_books h.toBooks hok he
      exact ⟨⟨ys,us,hb.idle (by simp_all)⟩,hp⟩
  | leave p =>
    have hb := leave_books h.toBooks he
    simp only [State.act,State.leave] at he
    split at he
    · obtain rfl := Option.some.inj he
      exact ⟨⟨ys,us,h.move hb rfl rfl⟩,rfl⟩
    · cases he
  | kill p =>
    obtain rfl := Option.some.inj he
    have hkeep : SameTables s (s.kill p) ∧ (s.kill p).buf = s.buf ∧ (s.kill p).intr = s.intr ∧
        (s.kill p).panicked = s.panicked := by
      unfold State.kill
      split
      · exact ⟨setPc_tables s p _,rfl,rfl,rfl⟩
      · exact ⟨setPc_tables s p _,rfl,rfl,rfl⟩
      · exact ⟨htables s.buf,rfl,rfl,rfl⟩
    exact ⟨⟨ys,us,h.keep hkeep.1 (kill_role s p) (fun _ => by rw [hkeep.2.1]) hkeep.2.2.1⟩,
      hkeep.2.2.2⟩
  | fetch =>
    obtain ⟨i,ys',rfl,hin,hb⟩ := fetch_books h.toBooks he
    obtain ⟨⟨j,avail⟩,-,rfl⟩ := Option.map_eq_some_iff.mp he
    refine ⟨⟨ys',us,h.move hb rfl ?_⟩,rfl⟩
    rw [hin]
    simp only [List.length_append,List.length_cons,List.length_nil]
    omega
  | complete k =>
    obtain ⟨⟨us',hc⟩,hp⟩ := complete_counted h he
    exact ⟨⟨ys,us',hc⟩,hp⟩
  | intrBegin =>
    simp only [State.act] at he
    split at he
    · cases he
    · obtain rfl := Option.some.inj he
      have hb : Books { s with intr := some 0 } ys us :=
        h.toBooks.same ⟨rfl,fun _ _ => rfl,rfl,fun _ => ⟨rfl,id⟩,rfl,rfl,rfl⟩ (fun _ => rfl)
          fun _ => rfl
      refine ⟨⟨ys,us,hb,fun n hn => ?_⟩,rfl⟩
      obtain rfl := Option.some.inj hn
      rw [Nat.zero_add]
      exact hb.length_le
  | intrIter =>
    obtain ⟨n,hn,hi⟩ := Option.bind_eq_some_iff.mp he
    obtain ⟨⟨us',hc⟩,hp⟩ := intrIter_counted h hn hi
    exact ⟨⟨ys,us',hc⟩,hp⟩
  | intrEnd =>
    simp only [State.act] at he
    split at he
    · split at he
      · obtain rfl := Option.some.inj he
        have hb : Books { s with intr := none } ys us :=
          h.toBooks.same ⟨rfl,fun _ _ => rfl,rfl,fun _ => ⟨rfl,id⟩,rfl,rfl,rfl⟩ (fun _ => rfl)
            fun _ => rfl
        exact ⟨⟨ys,us,hb.idle rfl⟩,rfl⟩
      · cases he
    · cases he

/-- A taken descriptor has one owner. -/
theorem Books.owner (h : Books s ys us) (i : Fin NUM) :
    (s.free i = true → ∀ p r, s.Waits p r → i ∉ r.descs) ∧
    (s.free i = false → ∃! x : ℕ × Request, s.Waits x.1 x.2 ∧ i ∈ x.2.descs) := by
  refine ⟨fun hf p r hp hi => ?_,fun hf => ?_⟩
  · have ht := (h.chain p r (role_waiting.mpr hp)).taken i hi
    rw [hf] at ht
    cases ht
  · obtain ⟨p,r,hp,hi⟩ := h.taken i hf
    refine ⟨(p,r),⟨role_waiting.mp hp,hi⟩,fun ⟨q,r'⟩ ⟨hq,hi'⟩ => ?_⟩
    replace hq := role_waiting.mpr hq
    have hqp : q = p := by
      by_contra hne
      exact h.disjoint q p r' r hq hp hne hi' hi
    subst hqp
    rw [hp] at hq
    rw [Role.waiting.inj hq]

/-- Three descriptors for each process that waits. -/
theorem Books.count (h : Books s ys us) :
    (univ.filter fun i => s.free i = true).card+3*{p | ∃ r, s.Waits p r}.ncard = NUM := by
  classical
  let taken : Finset (Fin NUM) := univ.filter fun i => ¬ s.free i = true
  have hsplit : (univ.filter fun i => s.free i = true).card+taken.card = NUM := by
    rw [card_filter_add_card_filter_not,card_univ,Fintype.card_fin]
  have howner : ∀ i : Fin NUM, ∃ p, i ∈ taken → ∃ r, s.Waits p r ∧ i ∈ r.descs := fun i => by
    by_cases hi : s.free i = true
    · exact ⟨0,fun ht => absurd hi (mem_filter.mp ht).2⟩
    · obtain ⟨p,r,hp,hr⟩ := h.taken i (Bool.not_eq_true _ ▸ hi)
      exact ⟨p,fun _ => ⟨r,role_waiting.mp hp,hr⟩⟩
  choose owner howner using howner
  have hfiber (p : ℕ) (r : Request) (hp : s.Waits p r) :
      taken.filter (fun i => owner i = p) = r.descs.toFinset := by
    have hc := h.chain p r (role_waiting.mpr hp)
    have hmem (i : Fin NUM) (hi : i ∈ r.descs) : i ∈ taken :=
      mem_filter.mpr ⟨mem_univ i,by rw [hc.taken i hi]; simp⟩
    ext i
    rw [mem_filter,List.mem_toFinset]
    constructor
    · rintro ⟨hi,rfl⟩
      obtain ⟨r',hw,hr'⟩ := howner i hi
      have heq := (role_waiting.mpr hp).symm.trans (role_waiting.mpr hw)
      rwa [Role.waiting.inj heq]
    · intro hi
      obtain ⟨r',hw,hr'⟩ := howner i (hmem i hi)
      refine ⟨hmem i hi,?_⟩
      by_contra hne
      exact h.disjoint _ p r' r (role_waiting.mpr hw) (role_waiting.mpr hp) hne hr' hi
  have hwaiters : {p | ∃ r, s.Waits p r} = taken.image owner := by
    ext p
    rw [coe_image,Set.mem_ofPred_eq]
    constructor
    · rintro ⟨r,hp⟩
      have hi : r.i0 ∈ taken.filter fun i => owner i = p := by
        rw [hfiber p r hp]
        simp [Request.descs]
      obtain ⟨ht,ho⟩ := mem_filter.mp hi
      exact ⟨r.i0,ht,ho⟩
    · rintro ⟨i,hi,rfl⟩
      obtain ⟨r,hw,-⟩ := howner i hi
      exact ⟨r,hw⟩
  have hthree : taken.card = 3*(taken.image owner).card := by
    rw [card_eq_sum_card_image owner taken,Nat.mul_comm]
    refine sum_const_nat fun p hp => ?_
    obtain ⟨i,hi,rfl⟩ := mem_image.mp hp
    obtain ⟨r,hw,-⟩ := howner i hi
    rw [hfiber _ r hw,List.toFinset_card_of_nodup (h.chain _ r (role_waiting.mpr hw)).nodup]
    rfl
  rw [hwaiters,Set.ncard_coe_finset,← hthree]
  exact hsplit

end counted

/-- Runs in which callers hold their buffers and no retry bound is hit. -/
abbrev OrderlyRun (disk : ℕ → Block) (s : State) : Prop :=
  Reaches State.step State.Orderly (.init disk) s

/-- The descriptors and the rings of the driver are in order. -/
structure Bookkept (s : State) : Prop where
  unowned : ∀ i, s.free i = true → ∀ p r, s.Waits p r → i ∉ r.descs
  owned : ∀ i, s.free i = false → ∃! x : ℕ × Request, s.Waits x.1 x.2 ∧ i ∈ x.2.descs
  distinct : ∀ p r, s.Waits p r → r.descs.Nodup
  count : (Finset.univ.filter fun i => s.free i = true).card+
    3*{p | ∃ r, s.Waits p r}.ncard = NUM
  avail : (s.avail.prod+IDX-s.avail.cons) % IDX ≤ NUM
  used : (s.used.prod+IDX-s.used.cons) % IDX ≤ NUM
  completes : ∀ t, s.step .intrIter = some t → ∃ p r used, s.Waits p r ∧
    s.used.pop IDX = some (r.i0.val,used) ∧ (s.buf r.b).disk = true ∧
    ∀ b, (t.buf b).disk = if b = r.b then false else (s.buf b).disk
  noPanic : s.panicked = none
  valid : ∀ id used, s.used.pop IDX = some (id,used) → id < NUM
  fewEnough : ∀ n, s.intr = some n → n ≤ NUM

theorem orderlyRun_counted {disk : ℕ → Block} {s : State} (hr : OrderlyRun disk s) :
    (∃ ys us, Counted s ys us) ∧ s.panicked = none := by
  refine hr.invariant (P := fun s => (∃ ys us, Counted s ys us) ∧ s.panicked = none)
    ⟨⟨[],[],(books_init disk).idle rfl⟩,rfl⟩ fun a e b ⟨⟨ys,us,hc⟩,hp⟩ hok hst => ?_
  obtain ⟨hcount,hpan⟩ := act_counted hc hok (step_act hst).2
  exact ⟨hcount,hpan.trans hp⟩

theorem descriptors_bookkept (disk : ℕ → Block) (s : State) (hr : OrderlyRun disk s) :
    Bookkept s := by
  obtain ⟨⟨ys,us,h⟩,hp⟩ := orderlyRun_counted hr
  refine ⟨fun i => (h.owner i).1,fun i => (h.owner i).2,
    fun p r hw => (h.chain p r (role_waiting.mpr hw)).nodup,h.count,?_,?_,fun t ht => ?_,hp,
    fun id used hpop => ?_,fun n hn => (Nat.le_add_right n _).trans (h.processed n hn)⟩
  · rw [h.avail.pending (by decide)]
    exact h.avail.size
  · rw [h.used.pending (by decide)]
    exact h.used.size
  · obtain ⟨n,-,hi⟩ := Option.bind_eq_some_iff.mp (step_act ht).2
    obtain ⟨p,r,us',used,hw,-,hpop,hd,rfl,-⟩ := intrIter_books h.toBooks hi
    refine ⟨p,r,used,role_waiting.mp hw,hpop,hd,fun b => ?_⟩
    by_cases hb : b = r.b <;> simp [hb]
  · obtain ⟨ids,hids,-⟩ := h.used.pop (by decide) hpop
    obtain ⟨i,-,-,rfl,-⟩ := List.map_eq_cons_iff.mp hids
    exact i.isLt

/-- A process has submitted a request. -/
theorem descriptors_bookkept_submitted : ∃ s, OrderlyRun (fun _ _ => 7) s ∧
    s.Waits 0 ⟨0,false,0,1,2⟩ ∧ Bookkept s := by
  have hcall : OrderlyRun (fun _ _ => 7) ((State.init fun _ _ => 7).setPc 0 (.calling 0 false)) := by
    refine .tail (e := .call 0 0 false) (.refl _) (fun _ => ?_) ?_
    · simp [State.init,Pc.buf]
    · simp [State.step,State.act,State.call,State.init,State.setPc]
  have hrun : (((State.init fun _ _ => 7).setPc 0 (.calling 0 false)).step (.enter 0)).map
      (fun s => s.pc 0) = some (.wait ⟨0,false,0,1,2⟩ 0 true) := by
    decide +kernel
  obtain ⟨s,hs,hpc⟩ := Option.map_eq_some_iff.mp hrun
  have hr : OrderlyRun (fun _ _ => 7) s := hcall.tail (e := .enter 0) trivial hs
  exact ⟨s,hr,⟨0,true,hpc⟩,descriptors_bookkept _ s hr⟩

end Virtio
end Xv6
