import Xv6.Bio.Transparent
import Xv6.Lib.Prog
import Xv6.Log.Crash
import Mathlib.Data.Finset.Card
import Mathlib.Data.Fintype.EquivFin

/-! `commit` on the buffer cache itself.
The committing process is the only one that uses the cache, so a buffer that is locked or
missing stays so: a `bread` either returns or stops the commit for good. -/
namespace Xv6
namespace RedoLog

open Bio Prog Function List

/-- Why a call never returns: a panic, or a wait for a sleep lock that nobody will release. -/
inductive Stop
  | panic (p : Bio.Panic)
  | asleep
  deriving DecidableEq

structure Mem where
  cache : Bcache
  disk : ℕ → ℕ → Block

/-- The buffer operations as process `pid` runs them on device `dev`. -/
def cacheOps (dev pid : ℕ) : BlockOps (Prog Stop Mem) (Fin NBUF) where
  bread b := fun s =>
    match s.cache.bget dev b with
    | none => .error (.panic .noBuffers)
    | some (i,c) =>
      match c.acquiresleep i pid with
      | none => .error .asleep
      | some c => .ok (i,{ s with cache := c.fill s.disk i })
  data i := fun s => .ok ((s.cache.buf i).data,s)
  setData i x := fun s => .ok ((),{ s with cache := s.cache.setData i x })
  bwrite i := fun s =>
    if s.cache.holdingsleep i pid then
      let b := s.cache.buf i
      .ok ((),{ s with disk := putBlock s.disk b.dev b.blockno b.data })
    else .error (.panic .bwrite)
  brelse i := fun s =>
    if s.cache.holdingsleep i pid then
      .ok ((),{ s with cache := (s.cache.releasesleep i).unref i })
    else .error (.panic .brelse)
  bunpin i := fun s => .ok ((),{ s with cache := s.cache.bunpin i })

/-- Buffer `i` holds block `b` of device `dev`. -/
def At (c : Bcache) (dev : ℕ) (i : Fin NBUF) (b : ℕ) : Prop :=
  (c.buf i).dev = dev ∧ (c.buf i).blockno = b

/-- Each block's reference count and lock holder are as `f` says; every block that has a
reference is in the cache, and no buffer of another device is in use. -/
structure Refs (c : Bcache) (dev : ℕ) (f : ℕ → ℕ × Option ℕ) : Prop where
  listed : c.Listed
  uniq : ∀ i j b, At c dev i b → At c dev j b → i = j
  here : ∀ i b, At c dev i b → ((c.buf i).refcnt,(c.buf i).lock) = f b
  other : ∀ i, (c.buf i).dev ≠ dev → (c.buf i).refcnt = 0 ∧ (c.buf i).lock = none
  cached : ∀ b, f b ≠ (0,none) → ∃ i, At c dev i b
  idle : ∀ b, (f b).1 = 0 → f b = (0,none)

section refs

variable {c c' : Bcache} {dev : ℕ} {f : ℕ → ℕ × Option ℕ} {i : Fin NBUF} {b : ℕ} {x : Buf}

theorem at_update (hb : c'.buf = update c.buf i x) {j : Fin NBUF} (hj : j ≠ i) (b' : ℕ) :
    At c' dev j b' ↔ At c dev j b' := by
  simp [At,hb,hj]

theorem at_update_self (hb : c'.buf = update c.buf i x) (b' : ℕ) :
    At c' dev i b' ↔ x.dev = dev ∧ x.blockno = b' := by
  simp [At,hb]

/-- Buffer `i` now carries block `b`, which no other buffer carries, with a new count and lock. -/
theorem Refs.assign (h : Refs c dev f) (hl : c'.Listed)
    (hb : c'.buf = update c.buf i x) (hx : x.dev = dev ∧ x.blockno = b)
    (hold : At c dev i b ∨ (c.buf i).refcnt = 0 ∧ ∀ j, ¬ At c dev j b)
    (h0 : x.refcnt = 0 → x.lock = none) :
    Refs c' dev (update f b (x.refcnt,x.lock)) := by
  have hself (b' : ℕ) : At c' dev i b' ↔ b = b' := by
    rw [at_update_self hb]
    simp [hx]
  have honly {j : Fin NBUF} (hj : j ≠ i) : ¬ At c' dev j b := by
    rw [at_update hb hj]
    rcases hold with hi | ⟨-,hno⟩
    · exact fun hjb => hj (h.uniq j i b hjb hi)
    · exact hno j
  refine ⟨hl,fun j k b' hj hk => ?_,fun j b' hj => ?_,fun j hj => ?_,fun b' hb' => ?_,
    fun b' hb' => ?_⟩
  · by_cases hji : j = i <;> by_cases hki : k = i
    · exact hji.trans hki.symm
    · subst hji
      rw [hself] at hj
      subst hj
      exact absurd hk (honly hki)
    · subst hki
      rw [hself] at hk
      subst hk
      exact absurd hj (honly hji)
    · exact h.uniq j k b' ((at_update hb hji b').mp hj) ((at_update hb hki b').mp hk)
  · by_cases hji : j = i
    · subst hji
      rw [hself] at hj
      subst hj
      simp [hb]
    · have hne : b' ≠ b := by
        rintro rfl
        exact honly hji hj
      simpa [hb,hji,hne] using h.here j b' ((at_update hb hji b').mp hj)
  · have hji : j ≠ i := by
      rintro rfl
      simp [hb,hx] at hj
    simpa [hb,hji] using h.other j (by simpa [hb,hji] using hj)
  · by_cases hbb : b' = b
    · exact ⟨i,(hself b').mpr hbb.symm⟩
    · rw [update_of_ne hbb] at hb'
      obtain ⟨j,hj⟩ := h.cached b' hb'
      have hji : j ≠ i := by
        rintro rfl
        rcases hold with hi | ⟨hz,-⟩
        · exact hbb (hj.2.symm.trans hi.2)
        · have hh := h.here j b' hj
          rw [hz] at hh
          exact hb' (h.idle b' (by rw [← hh]))
      exact ⟨j,(at_update hb hji b').mpr hj⟩
  · by_cases hbb : b' = b
    · subst hbb
      simp only [update_self] at hb' ⊢
      rw [hb',h0 hb']
    · rw [update_of_ne hbb] at hb' ⊢
      exact h.idle b' hb'

/-- Contents may change freely. -/
theorem Refs.keep (h : Refs c dev f) (hl : c'.Listed)
    (hb : ∀ j, (c'.buf j).dev = (c.buf j).dev ∧ (c'.buf j).blockno = (c.buf j).blockno ∧
      (c'.buf j).refcnt = (c.buf j).refcnt ∧ (c'.buf j).lock = (c.buf j).lock) :
    Refs c' dev f := by
  have hat : ∀ j b, At c' dev j b ↔ At c dev j b := fun j b => by
    rw [At,(hb j).1,(hb j).2.1,At]
  refine ⟨hl,fun j k b hj hk => h.uniq j k b ((hat _ _).mp hj) ((hat _ _).mp hk),
    fun j b hj => ?_,fun j hj => ?_,fun b hb' => ?_,h.idle⟩
  · rw [(hb j).2.2.1,(hb j).2.2.2]
    exact h.here j b ((hat _ _).mp hj)
  · rw [(hb j).2.2.1,(hb j).2.2.2]
    exact h.other j ((hb j).1 ▸ hj)
  · obtain ⟨j,hj⟩ := h.cached b hb'
    exact ⟨j,(hat _ _).mpr hj⟩

/-- A buffer is free while fewer than `NBUF` blocks have references. -/
theorem Refs.exists_unused (h : Refs c dev f) {S : Finset ℕ} (hS : ∀ b, f b ≠ (0,none) → b ∈ S)
    (hcard : S.card < NBUF) : ∃ i, (c.buf i).refcnt = 0 := by
  by_contra hno
  push Not at hno
  have hdev (i : Fin NBUF) : (c.buf i).dev = dev := by
    by_contra hd
    exact hno i (h.other i hd).1
  have hmem (i : Fin NBUF) : (c.buf i).blockno ∈ S := by
    refine hS _ fun h0 => hno i ?_
    have hh := h.here i _ ⟨hdev i,rfl⟩
    rw [h0] at hh
    exact (Prod.mk.inj hh).1
  have hle : (Finset.univ : Finset (Fin NBUF)).card ≤ S.card :=
    Finset.card_le_card_of_injOn (fun i => (c.buf i).blockno) (fun i _ => hmem i)
      fun i _ j _ hij => h.uniq i j _ ⟨hdev i,rfl⟩ ⟨hdev j,hij.symm⟩
  rw [Finset.card_fin] at hle
  omega

end refs

section ops

variable {s : Mem} {dev pid : ℕ} {f : ℕ → ℕ × Option ℕ} {i : Fin NBUF} {b n : ℕ}

/-- Every buffer still holds the block it held. -/
def Stays (s t : Mem) (dev : ℕ) : Prop := ∀ j b, At s.cache dev j b → At t.cache dev j b

theorem stays_update {s t : Mem} {x : Buf} (hb : t.cache.buf = update s.cache.buf i x)
    (hd : x.dev = (s.cache.buf i).dev) (hn : x.blockno = (s.cache.buf i).blockno) :
    Stays s t dev := by
  intro j b hj
  by_cases hji : j = i
  · subst hji
    rw [at_update_self hb,hd,hn]
    exact hj
  · exact (at_update hb hji b).mpr hj

/-- `bget` finds room for `b`, and leaves it unlocked with one more reference. -/
theorem bget_refs (h : Refs s.cache dev f) (hlock : (f b).2 = none) (hlt : (f b).1+1 < 2^32)
    (hroom : f b ≠ (0,none) ∨ ∃ j, (s.cache.buf j).refcnt = 0) :
    ∃ i c x, s.cache.bget dev b = some (i,c) ∧ c.Listed ∧
      c.buf = update s.cache.buf i x ∧ x.dev = dev ∧ x.blockno = b ∧
      x.refcnt = (f b).1+1 ∧ x.lock = none ∧
      (At s.cache dev i b ∨ (s.cache.buf i).refcnt = 0 ∧ ∀ j, ¬ At s.cache dev j b) := by
  rcases hg : s.cache.bget dev b with - | ⟨i,c⟩
  · obtain ⟨hno,hfull⟩ := (Bcache.bget_eq_none h.listed).mp hg
    rcases hroom with hb | ⟨j,hj⟩
    · obtain ⟨j,hj⟩ := h.cached b hb
      exact absurd hj (hno j)
    · exact absurd hj (hfull j)
  refine ⟨i,c,c.buf i,rfl,Bcache.listed_bget h.listed hg,?_⟩
  rcases Bcache.bget_cases h.listed hg with ⟨hd,hb,rfl⟩ | ⟨hno,h0,rfl⟩
  · have hh := h.here i b ⟨hd,hb⟩
    rw [← hh] at hlock hlt
    simpa [hd,hb,← hh,incr_of_lt hlt] using ⟨hlock,.inl ⟨hd,hb⟩⟩
  · have hf : f b = (0,none) := by
      by_contra hb
      obtain ⟨j,hj⟩ := h.cached b hb
      exact hno j hj
    have hfree : (s.cache.buf i).lock = none := by
      by_cases hd : (s.cache.buf i).dev = dev
      · have hh := h.here i _ ⟨hd,rfl⟩
        have hz := h.idle (s.cache.buf i).blockno (by rw [← hh]; exact h0)
        rw [hz] at hh
        exact (Prod.mk.inj hh).2
      · exact (h.other i hd).2
    simpa [hf,hfree] using .inr ⟨h0,hno⟩

theorem bread_ends (h : Refs s.cache dev f) (hlock : (f b).2 = none) (hlt : (f b).1+1 < 2^32)
    (hroom : f b ≠ (0,none) ∨ ∃ j, (s.cache.buf j).refcnt = 0) :
    Ends ((cacheOps dev pid).bread b) s fun i t => At t.cache dev i b ∧
      Refs t.cache dev (update f b ((f b).1+1,some pid)) ∧
      ∀ j b', f b' ≠ (0,none) → At s.cache dev j b' → At t.cache dev j b' := by
  obtain ⟨i,c,x,hg,hlisted,hc,hxd,hxb,hxr,hxl,hold⟩ := bget_refs h hlock hlt hroom
  have hacq : c.acquiresleep i pid = some (c.setBuf i { x with lock := some pid }) := by
    simp [Bcache.acquiresleep,hc,hxl]
  let t : Mem := { s with cache := (c.setBuf i { x with lock := some pid }).fill s.disk i }
  have ht : t.cache.buf = update s.cache.buf i (t.cache.buf i) := by
    simp [t,Bcache.fill_buf,hc]
  have hti : (t.cache.buf i).dev = dev ∧ (t.cache.buf i).blockno = b ∧
      (t.cache.buf i).refcnt = (f b).1+1 ∧ (t.cache.buf i).lock = some pid := by
    simp [t,Bcache.fill_buf,hxd,hxb,hxr]
  obtain ⟨hyd,hyb,hyr,hyl⟩ := hti
  refine ⟨i,t,?_,⟨hyd,hyb⟩,?_,fun j b' hb' hj => ?_⟩
  · simp only [cacheOps,StateT.run,hg,hacq,t]
  · have hl : t.cache.Listed := Bcache.listed_fill (Bcache.listed_setBuf hlisted) _ _
    have hr := h.assign hl ht ⟨hyd,hyb⟩ hold (by simp [hyr])
    rwa [hyr,hyl] at hr
  · by_cases hji : j = i
    · subst hji
      rcases hold with hi | ⟨h0,-⟩
      · exact ⟨hyd,hyb.trans (hi.2.symm.trans hj.2)⟩
      · have hh := h.here j b' hj
        rw [h0] at hh
        exact absurd (h.idle b' (by rw [← hh])) hb'
    · exact (at_update ht hji b').mpr hj

theorem setData_ends (h : Refs s.cache dev f) (x : Block) :
    Ends ((cacheOps dev pid).setData i x) s fun _ t => Refs t.cache dev f ∧ Stays s t dev := by
  refine ⟨(),_,rfl,h.keep (Bcache.listed_setBuf h.listed) fun j => ?_,stays_update rfl rfl rfl⟩
  by_cases hji : j = i <;> simp [Bcache.setData,hji]

theorem data_ends (h : Refs s.cache dev f) :
    Ends ((cacheOps dev pid).data i) s fun _ t => Refs t.cache dev f ∧ Stays s t dev :=
  ⟨_,s,rfl,h,fun _ _ hj => hj⟩

theorem holding_at (h : Refs s.cache dev f) (hi : At s.cache dev i b) (hf : (f b).2 = some pid) :
    s.cache.holdingsleep i pid = true := by
  have hh := h.here i b hi
  rw [← hh] at hf
  simpa [Bcache.holdingsleep] using hf

theorem bwrite_ends (h : Refs s.cache dev f) (hi : At s.cache dev i b)
    (hf : (f b).2 = some pid) :
    Ends ((cacheOps dev pid).bwrite i) s fun _ t => Refs t.cache dev f ∧ Stays s t dev := by
  let x := s.cache.buf i
  refine ⟨(),⟨s.cache,putBlock s.disk x.dev x.blockno x.data⟩,?_,h,fun _ _ hj => hj⟩
  simp only [cacheOps,StateT.run,holding_at h hi hf,if_true,x]

theorem brelse_ends (h : Refs s.cache dev f) (hi : At s.cache dev i b)
    (hf : f b = (n+1,some pid)) (hlt : n+1 < 2^32) :
    Ends ((cacheOps dev pid).brelse i) s fun _ t =>
      Refs t.cache dev (update f b (n,none)) ∧ Stays s t dev := by
  have hh := h.here i b hi
  rw [hf] at hh
  obtain ⟨hr,hl⟩ := Prod.mk.inj hh
  have hdec : decr (s.cache.buf i).refcnt = n := by
    rw [hr,decr_of_pos (by omega) hlt]
    rfl
  have hb : ((s.cache.releasesleep i).unref i).buf = update s.cache.buf i
      { s.cache.buf i with lock := none, refcnt := n } := by
    simp [Bcache.unref_buf,Bcache.releasesleep,hdec]
  refine ⟨(),{ s with cache := (s.cache.releasesleep i).unref i },?_,?_,
    stays_update hb rfl rfl⟩
  · simp only [cacheOps,StateT.run,holding_at h hi (by rw [hf]),if_true]
  · exact h.assign (Bcache.listed_unref (Bcache.listed_setBuf h.listed) i) hb hi (.inl hi)
      fun _ => rfl

theorem bunpin_ends (h : Refs s.cache dev f) (hi : At s.cache dev i b)
    (hf : f b = (n+2,some pid)) (hlt : n+2 < 2^32) :
    Ends ((cacheOps dev pid).bunpin i) s fun _ t =>
      Refs t.cache dev (update f b (n+1,some pid)) ∧ Stays s t dev := by
  have hh := h.here i b hi
  rw [hf] at hh
  obtain ⟨hr,hl⟩ := Prod.mk.inj hh
  have hdec : decr (s.cache.buf i).refcnt = n+1 := by
    rw [hr,decr_of_pos (by omega) hlt]
    rfl
  have hb : (s.cache.bunpin i).buf = update s.cache.buf i
      { s.cache.buf i with refcnt := n+1 } := by
    simp [Bcache.bunpin,hdec]
  refine ⟨(),{ s with cache := s.cache.bunpin i },rfl,?_,stays_update hb rfl rfl⟩
  have hr' := h.assign (Bcache.listed_setBuf h.listed) hb hi (.inl hi) (by simp)
  rwa [hl] at hr'

end ops

section rounds

variable {s : Mem} {dev pid : ℕ} {f : ℕ → ℕ × Option ℕ} {log : Log}

/-- `bread` of a block that has no reference, while a buffer is free. -/
theorem bread_free {b : ℕ} (h : Refs s.cache dev f) (hf : f b = (0,none))
    (hroom : ∃ j, (s.cache.buf j).refcnt = 0) :
    Ends ((cacheOps dev pid).bread b) s fun i t => At t.cache dev i b ∧
      Refs t.cache dev (update f b (1,some pid)) := by
  refine (bread_ends h (by rw [hf]) (by rw [hf]; norm_num) (.inr hroom)).mono
    fun i t ⟨hi,hr,_⟩ => ⟨hi,?_⟩
  simpa [hf] using hr

/-- `bread` of a pinned block finds it in the cache. -/
theorem bread_pinned {b : ℕ} (h : Refs s.cache dev f) (hf : f b = (1,none)) :
    Ends ((cacheOps dev pid).bread b) s fun i t => At t.cache dev i b ∧
      Refs t.cache dev (update f b (2,some pid)) ∧
      ∀ j b', f b' ≠ (0,none) → At s.cache dev j b' → At t.cache dev j b' := by
  refine (bread_ends h (by rw [hf]) (by rw [hf]; norm_num) (.inl (by simp [hf]))).mono
    fun i t ⟨hi,hr,hst⟩ => ⟨hi,?_,hst⟩
  simpa [hf] using hr

/-- Let go of the two buffers of a round: block `c` with `n` other references, then `d`. -/
theorem brelse_two {i j : Fin NBUF} {c d n m : ℕ} (h : Refs s.cache dev f)
    (hi : At s.cache dev i c) (hj : At s.cache dev j d) (hcd : c ≠ d)
    (hc : f c = (n+1,some pid)) (hd : f d = (m+1,some pid)) (hn : n+1 < 2^32) (hm : m+1 < 2^32) :
    Ends ((cacheOps dev pid).brelse i >>= fun _ => (cacheOps dev pid).brelse j) s fun _ t =>
      Refs t.cache dev (update (update f c (n,none)) d (m,none)) := by
  refine (brelse_ends h hi hc hn).bind fun _ t ⟨hr,hst⟩ => ?_
  refine (brelse_ends hr (hst _ _ hj) ?_ hm).mono fun _ _ hr' => hr'.1
  rw [update_of_ne hcd.symm,hd]

theorem logBlock_ends {i : ℕ} (h : Refs s.cache dev f) (hlog : f (log.start+i+1) = (0,none))
    (hhome : f (log.lh.block i) = (1,none)) (hroom : ∃ j, (s.cache.buf j).refcnt = 0) :
    Ends (logBlock (cacheOps dev pid) log i) s fun _ t => Refs t.cache dev f := by
  have hne : log.lh.block i ≠ log.start+i+1 := fun he => by simp [he,hlog] at hhome
  refine (bread_free h hlog hroom).bind fun dst t1 ⟨hdst,h1⟩ => ?_
  refine (bread_pinned (b := log.lh.block i) h1 (by simp [hne,hhome])).bind
    fun src t2 ⟨hsrc,h2,hst⟩ => ?_
  replace hdst := hst _ _ (by simp) hdst
  refine (data_ends h2).bind fun x t3 ⟨h3,st3⟩ => ?_
  refine (setData_ends h3 x).bind fun _ t4 ⟨h4,st4⟩ => ?_
  replace hdst := st4 _ _ (st3 _ _ hdst)
  refine (bwrite_ends h4 hdst (by simp [hne.symm])).bind fun _ t5 ⟨h5,st5⟩ => ?_
  refine (brelse_two (n := 1) (m := 0) h5 (st5 _ _ (st4 _ _ (st3 _ _ hsrc))) (st5 _ _ hdst) hne
    (by simp) (by simp [hne.symm]) (by norm_num) (by norm_num)).mono fun _ t hr => ?_
  convert hr using 1
  funext b
  by_cases hb : b = log.start+i+1
  · simp [hb,hlog]
  · by_cases hb' : b = log.lh.block i <;> simp [hb,hb',hhome,hne]

theorem installBlock_ends {i : ℕ} (h : Refs s.cache dev f)
    (hlog : f (log.start+i+1) = (0,none)) (hhome : f (log.lh.block i) = (1,none))
    (hroom : ∃ j, (s.cache.buf j).refcnt = 0) :
    Ends (installBlock (cacheOps dev pid) log false i) s fun _ t =>
      Refs t.cache dev (update f (log.lh.block i) (0,none)) := by
  have hne : log.lh.block i ≠ log.start+i+1 := fun he => by simp [he,hlog] at hhome
  refine (bread_free h hlog hroom).bind fun lbuf t1 ⟨hl,h1⟩ => ?_
  refine (bread_pinned (b := log.lh.block i) h1 (by simp [hne,hhome])).bind
    fun dbuf t2 ⟨hd,h2,hst⟩ => ?_
  replace hl := hst _ _ (by simp) hl
  refine (data_ends h2).bind fun x t3 ⟨h3,st3⟩ => ?_
  refine (setData_ends h3 x).bind fun _ t4 ⟨h4,st4⟩ => ?_
  replace hd := st4 _ _ (st3 _ _ hd)
  refine (bwrite_ends h4 hd (by simp)).bind fun _ t5 ⟨h5,st5⟩ => ?_
  refine (bunpin_ends (n := 0) h5 (st5 _ _ hd) (by simp) (by norm_num)).bind
    fun _ t6 ⟨h6,st6⟩ => ?_
  refine (brelse_two (n := 0) (m := 0) h6 (st6 _ _ (st5 _ _ (st4 _ _ (st3 _ _ hl))))
    (st6 _ _ (st5 _ _ hd)) hne.symm (by simp [hne.symm]) (by simp) (by norm_num)
    (by norm_num)).mono fun _ t hr => ?_
  convert hr using 1
  funext b
  by_cases hb : b = log.start+i+1
  · simp [hb,hlog,hne.symm]
  · by_cases hb' : b = log.lh.block i <;> simp [hb,hb']

theorem writeHead_ends (h : Refs s.cache dev f) (hhead : f log.start = (0,none))
    (hroom : ∃ j, (s.cache.buf j).refcnt = 0) :
    Ends (writeHead (cacheOps dev pid) log) s fun _ t => Refs t.cache dev f := by
  refine (bread_free h hhead hroom).bind fun buf t1 ⟨hb,h1⟩ => ?_
  refine (data_ends h1).bind fun x t2 ⟨h2,st2⟩ => ?_
  refine (setData_ends h2 _).bind fun _ t3 ⟨h3,st3⟩ => ?_
  replace hb := st3 _ _ (st2 _ _ hb)
  refine (bwrite_ends h3 hb (by simp)).bind fun _ t4 ⟨h4,st4⟩ => ?_
  refine (brelse_ends (n := 0) h4 (st4 _ _ hb) (by simp) (by norm_num)).mono fun _ t hr => ?_
  have hf := hr.1
  rwa [update_idem,update_eq_self_iff.mpr hhead.symm] at hf

/-- The blocks of the transaction from entry `k` on are pinned once. -/
def pinnedFrom (log : Log) (k b : ℕ) : ℕ × Option ℕ :=
  if b ∈ (List.range' k (log.lh.n-k)).map log.lh.block then (1,none) else (0,none)

/-- The entries name different blocks. -/
def Distinct (log : Log) : Prop :=
  ∀ i < log.lh.n, ∀ j < log.lh.n, log.lh.block i = log.lh.block j → i = j

theorem pinnedFrom_block {k i : ℕ} (hk : k ≤ i) (hi : i < log.lh.n) :
    pinnedFrom log k (log.lh.block i) = (1,none) := by
  have hm : log.lh.block i ∈ (range' k (log.lh.n-k)).map log.lh.block :=
    mem_map_of_mem (by simp; omega)
  simp only [pinnedFrom,if_pos hm]

theorem pinnedFrom_inLog (h : Transaction log) {k b : ℕ} (hb : InLog log.start b) :
    pinnedFrom log k b = (0,none) := by
  refine if_neg fun hm => ?_
  obtain ⟨i,hi,rfl⟩ := mem_map.mp hm
  exact h.home i (by simp at hi; omega) hb

theorem pinnedFrom_succ (hd : Distinct log) {k : ℕ} (hk : k < log.lh.n) :
    update (pinnedFrom log k) (log.lh.block k) (0,none) = pinnedFrom log (k+1) := by
  have hsplit : range' k (log.lh.n-k) = k::range' (k+1) (log.lh.n-(k+1)) := by
    rw [show log.lh.n-k = (log.lh.n-(k+1))+1 by omega,range'_succ]
  funext b
  by_cases hb : b = log.lh.block k
  · subst hb
    have hno : log.lh.block k ∉ (range' (k+1) (log.lh.n-(k+1))).map log.lh.block := by
      intro hm
      obtain ⟨i,hi,he⟩ := mem_map.mp hm
      simp only [mem_range'_1] at hi
      have := hd i (by omega) k hk he
      omega
    rw [update_self,pinnedFrom,if_neg hno]
  · rw [update_of_ne hb]
    simp only [pinnedFrom,hsplit,map_cons,mem_cons,hb,false_or]

theorem pinnedFrom_room {k : ℕ} {c : Bcache} (hn : log.lh.n < NBUF)
    (h : Refs c dev (pinnedFrom log k)) : ∃ j, (c.buf j).refcnt = 0 := by
  refine h.exists_unused (S := ((range' k (log.lh.n-k)).map log.lh.block).toFinset)
    (fun b hb => ?_) ?_
  · rw [mem_toFinset]
    by_contra hno
    exact hb (if_neg hno)
  · have hle := toFinset_card_le ((range' k (log.lh.n-k)).map log.lh.block)
    simp only [length_map,length_range'] at hle
    omega

theorem commit_ends (ht : Transaction log) (hd : Distinct log) (hn : log.lh.n < NBUF)
    (h : Refs s.cache dev (pinnedFrom log 0)) :
    Ends (commit (cacheOps dev pid) log) s fun log' t => log' = log.clear ∧
      Refs t.cache dev (pinnedFrom log log.lh.n) := by
  have hle := ht.le
  have hin (i : ℕ) (hi : i < log.lh.n) : InLog log.start (log.start+i+1) :=
    ⟨by omega,by omega⟩
  have hhead : InLog log.start log.start := ⟨by omega,by omega⟩
  unfold commit
  split
  · have hwrite : Ends (writeLog (cacheOps dev pid) log) s fun _ t =>
        Refs t.cache dev (pinnedFrom log 0) := by
      refine ends_forM_range (I := fun _ (t : Mem) => Refs t.cache dev (pinnedFrom log 0))
        (fun i hi t hr => ?_) h
      exact logBlock_ends hr (pinnedFrom_inLog ht (hin i hi)) (pinnedFrom_block (by omega) hi)
        (pinnedFrom_room hn hr)
    have hinstall (t : Mem) (hr : Refs t.cache dev (pinnedFrom log 0)) :
        Ends (installTrans (cacheOps dev pid) log false) t fun _ u =>
          Refs u.cache dev (pinnedFrom log log.lh.n) := by
      refine ends_forM_range (I := fun k (u : Mem) => Refs u.cache dev (pinnedFrom log k))
        (fun i hi u hu => ?_) hr
      rw [← pinnedFrom_succ hd hi]
      exact installBlock_ends hu (pinnedFrom_inLog ht (hin i hi)) (pinnedFrom_block le_rfl hi)
        (pinnedFrom_room hn hu)
    refine hwrite.bind fun _ t1 h1 => ?_
    refine (writeHead_ends h1 (pinnedFrom_inLog ht hhead) (pinnedFrom_room hn h1)).bind
      fun _ t2 h2 => ?_
    refine (hinstall t2 h2).bind fun _ t3 h3 => ?_
    have hclear : pinnedFrom log log.lh.n log.clear.start = (0,none) := pinnedFrom_inLog ht hhead
    refine (writeHead_ends h3 hclear (pinnedFrom_room hn h3)).bind fun _ t4 h4 => ?_
    exact ends_pure ⟨rfl,h4⟩
  · rename_i h0
    have hz : log.lh.n = 0 := by omega
    refine ends_pure ⟨?_,by rwa [hz]⟩
    cases log with
    | mk start lh => cases lh; simp_all [Log.clear]

/-- With a pin on every buffer the first `bread` of `write_log` panics. -/
theorem commit_stops (ht : Transaction log) (hpos : 0 < log.lh.n) (hl : s.cache.Listed)
    (hpin : ∀ j, (s.cache.buf j).refcnt ≠ 0)
    (hhome : ∀ j, ∃ i < log.lh.n, (s.cache.buf j).blockno = log.lh.block i) :
    (commit (cacheOps dev pid) log).run s = .error (.panic .noBuffers) := by
  have hmiss : s.cache.bget dev (log.start+0+1) = none := by
    refine (Bcache.bget_eq_none hl).mpr ⟨fun j ⟨_,hb⟩ => ?_,hpin⟩
    obtain ⟨i,hi,he⟩ := hhome j
    have hle := ht.le
    exact ht.home i hi (by rw [← he,hb]; exact ⟨by omega,by omega⟩)
  have hfirst : ((cacheOps dev pid).bread (log.start+0+1)).run s =
      .error (.panic .noBuffers) := by
    simp only [cacheOps,StateT.run,hmiss]
  have hlog : (writeLog (cacheOps dev pid) log).run s = .error (.panic .noBuffers) := by
    obtain ⟨m,hm⟩ : ∃ m, log.lh.n = m+1 := ⟨log.lh.n-1,by omega⟩
    rw [writeLog,hm,range_succ_eq_map]
    exact stops_bind (stops_bind hfirst)
  unfold commit
  rw [if_pos hpos]
  exact stops_bind hlog

end rounds

/-- In a state of the cache between commits: nobody uses a buffer, every block of the
transaction is in the cache with the one pin `log_write` put on it, and nothing else is pinned. -/
structure PinnedLog (s : Bio.State) (dev : ℕ) (log : Log) : Prop where
  idle : ∀ p, s.user p = none
  pinned : ∀ i < log.lh.n, ∃ k, At s.cache dev k (log.lh.block i) ∧ s.pins k = 1
  only : ∀ k, s.pins k ≠ 0 → ∃ i < log.lh.n, At s.cache dev k (log.lh.block i)

section pinned

variable {s : Bio.State} {dev : ℕ} {log : Log}

theorem PinnedLog.refcnt (h : PinnedLog s dev log) (hc : Counted s) (k : Fin NBUF) :
    (s.cache.buf k).refcnt = s.pins k ∧ (s.cache.buf k).lock = none := by
  have hnil : s.users k = [] := eq_nil_iff_forall_not_mem.mpr fun p hp => by
    obtain ⟨r,hr,-⟩ := (hc.users p k).mp hp
    simp [h.idle p] at hr
  refine ⟨by rw [hc.refcnt,State.refs,hnil]; simp,?_⟩
  rcases hl : (s.cache.buf k).lock with - | p
  · rfl
  · obtain ⟨r,hr,-⟩ := (hc.lock k p).mp hl
    simp [h.idle p] at hr

theorem PinnedLog.refs (h : PinnedLog s dev log) (hc : Counted s)
    (hu : ∀ i j b, At s.cache dev i b → At s.cache dev j b → i = j) :
    Refs s.cache dev (pinnedFrom log 0) := by
  refine ⟨hc.listed,hu,fun k b hk => ?_,fun k hk => ?_,fun b hb => ?_,fun b hb => ?_⟩
  · obtain ⟨hr,hl⟩ := h.refcnt hc k
    rw [hr,hl]
    by_cases h0 : s.pins k = 0
    · rw [h0]
      refine (if_neg fun hm => ?_).symm
      obtain ⟨i,hi,rfl⟩ := mem_map.mp hm
      obtain ⟨k',hk',hp⟩ := h.pinned i (by simp at hi; omega)
      rw [hu k' k _ hk' hk] at hp
      omega
    · obtain ⟨i,hi,hk'⟩ := h.only k h0
      obtain ⟨k',hk'',hp⟩ := h.pinned i hi
      rw [← hu k k' _ hk' hk'',] at hp
      rw [hp,← hk.2,hk'.2,pinnedFrom_block (by omega) hi]
  · obtain ⟨hr,hl⟩ := h.refcnt hc k
    refine ⟨?_,hl⟩
    by_contra h0
    obtain ⟨i,-,hk'⟩ := h.only k (hr ▸ h0)
    exact hk hk'.1
  · by_cases hm : b ∈ (range' 0 (log.lh.n-0)).map log.lh.block
    · obtain ⟨i,hi,rfl⟩ := mem_map.mp hm
      obtain ⟨k,hk,-⟩ := h.pinned i (by simp at hi; omega)
      exact ⟨k,hk⟩
    · exact absurd (if_neg hm) hb
  · unfold pinnedFrom at hb ⊢
    split at hb
    · simp at hb
    · rename_i hm
      exact if_neg hm

theorem agrees_at_uniq {m : BlockMap} (ha : Agrees s m) (hdev : dev ≠ 0) (i j : Fin NBUF) (b : ℕ)
    (hi : At s.cache dev i b) (hj : At s.cache dev j b) : i = j :=
  ha.uniq i j (hi.1 ▸ hdev) (hi.1.trans hj.1.symm) (hi.2.trans hj.2.symm)

/-- A transaction of `NBUF` blocks pins every buffer. -/
theorem PinnedLog.all_pinned (h : PinnedLog s dev log) (hd : Distinct log)
    (hn : log.lh.n = NBUF) (j : Fin NBUF) :
    ∃ i < log.lh.n, At s.cache dev j (log.lh.block i) ∧ s.pins j = 1 := by
  have hlt (i : Fin NBUF) : (i : ℕ) < log.lh.n := lt_of_lt_of_eq i.isLt hn.symm
  choose k hk using fun i : Fin NBUF => h.pinned i (hlt i)
  have hinj : Injective k := fun a b hab => by
    have hb : log.lh.block a = log.lh.block b := by
      rw [← (hk a).1.2,← (hk b).1.2,hab]
    exact Fin.ext (hd a (hlt a) b (hlt b) hb)
  obtain ⟨i,rfl⟩ := Finite.surjective_of_injective hinj j
  exact ⟨i,hlt i,hk i⟩

theorem PinnedLog.commit_panics (h : PinnedLog s dev log) (hc : Counted s) (ht : Transaction log)
    (hd : Distinct log) (hn : log.lh.n = NBUF) (pid : ℕ) :
    (commit (cacheOps dev pid) log).run ⟨s.cache,s.disk⟩ = .error (.panic .noBuffers) := by
  refine commit_stops ht (by rw [hn]; decide) hc.listed (fun j => ?_) fun j => ?_
  · obtain ⟨i,-,-,hpin⟩ := h.all_pinned hd hn j
    simp [(h.refcnt hc j).1,hpin]
  · obtain ⟨i,hi,hat,-⟩ := h.all_pinned hd hn j
    exact ⟨i,hi,hat.2⟩

end pinned

/-! Caches that hold a given transaction are reached by logging its blocks one after another. -/

theorem tracks_next {disk : ℕ → ℕ → Block} {s t : Bio.State} {m : BlockMap} {e : Event}
    (hr : Tracks disk s m) (hnp : s.panicked = none) (hok : s.ok e) (ha : s.act e = some t) :
    Tracks disk t (m.step e) :=
  hr.tail hok (by simp [track,State.step,hnp,ha])

/-- One process reads block `b`, pins it as `log_write` does and releases it. -/
theorem tracks_pin {disk : ℕ → ℕ → Block} {s : Bio.State} {m : BlockMap} (hr : Tracks disk s m)
    (hnp : s.panicked = none) (hidle : ∀ p, s.user p = none) {dev b : ℕ} (hdev : dev ≠ 0)
    (hsmall : ∀ j, s.refs j+2 < 2^32) {i : Fin NBUF} {c : Bcache}
    (hg : s.cache.bget dev b = some (i,c)) :
    ∃ t m', Tracks disk t m' ∧ t.panicked = none ∧ (∀ p, t.user p = none) ∧
      t.pins = update s.pins i (s.pins i+1) ∧ At t.cache dev i b ∧
      ∀ j, j ≠ i → t.cache.buf j = s.cache.buf j := by
  obtain ⟨hc,-⟩ := tracks_inv hr
  have hcbuf : ∃ x, c.buf = update s.cache.buf i x ∧ x.dev = dev ∧ x.blockno = b ∧
      x.lock = none := by
    have hlock : (s.cache.buf i).lock = none := by
      rcases hl : (s.cache.buf i).lock with - | p
      · rfl
      · obtain ⟨r,hr,-⟩ := (hc.lock i p).mp hl
        simp [hidle p] at hr
    rcases Bcache.bget_cases hc.listed hg with ⟨hd,hb,rfl⟩ | ⟨-,-,rfl⟩
    · exact ⟨_,rfl,hd,hb,hlock⟩
    · exact ⟨_,rfl,rfl,rfl,hlock⟩
  obtain ⟨x,hx,hxd,hxb,hxl⟩ := hcbuf
  let s1 : Bio.State := { s.setUser 0 (some ⟨.waiting,i,dev,b⟩) with
    cache := c
    users := update s.users i (0::s.users i) }
  have h1 : Tracks disk s1 _ := tracks_next (e := .bget 0 dev b) hr hnp
    ⟨hdev,fun j => by have := hsmall j; omega⟩ (by simp [State.act,State.bget,hidle,hg,s1])
  let s2 : Bio.State := { s1.setUser 0 (some ⟨.locked,i,dev,b⟩) with
    cache := c.setBuf i { c.buf i with lock := some 0 } }
  have h2 : Tracks disk s2 _ := tracks_next (e := .acquiresleep 0) h1 hnp trivial
    (by simp [State.act,State.acquiresleep,Bcache.acquiresleep,s1,s2,State.setUser,hx,hxl])
  let s3 : Bio.State := { s2.setUser 0 (some ⟨.holding,i,dev,b⟩) with
    cache := s2.cache.fill s2.disk i }
  have h3 : Tracks disk s3 _ := tracks_next (e := .bread 0) h2 hnp trivial
    (by simp [State.act,State.bread,s2,s3,State.setUser])
  have h4 : Tracks disk (s3.bpin i) _ := tracks_next (e := .bpin i) h3 hnp
    (by
      have := hsmall i
      simp [State.ok,State.refs,s3,s2,s1,State.setUser] at this ⊢
      omega) rfl
  let s5 : Bio.State := { (s3.bpin i).setUser 0 (some ⟨.releasing,i,dev,b⟩) with
    cache := (s3.bpin i).cache.releasesleep i }
  have hu4 : (s3.bpin i).user 0 = some ⟨.holding,i,dev,b⟩ := by
    simp [State.bpin,s3,State.setUser]
  have h5 : Tracks disk s5 _ := tracks_next (e := .releasesleep 0) h4 hnp
    (fun r hur _ => by
      obtain rfl : _ = r := Option.some.inj (hu4.symm.trans hur)
      simp [State.bpin])
    (by
      have hh := holdingsleep_of_holding (tracks_inv h4).1 hu4
      simp only [State.act,State.releasesleep,hu4,hh,if_true,s5])
  let s6 : Bio.State := { s5.setUser 0 none with
    cache := s5.cache.unref i
    users := update s5.users i ((s5.users i).erase 0) }
  have h6 : Tracks disk s6 _ := tracks_next (e := .brelse 0) h5 hnp trivial
    (by simp [State.act,State.brelse,s5,s6,State.setUser])
  refine ⟨s6,_,h6,hnp,fun p => ?_,rfl,?_,fun j hj => ?_⟩
  · by_cases hp : p = 0 <;> simp [s6,s5,s3,s2,s1,State.setUser,State.bpin,hp,hidle]
  · simp [At,s6,s5,s3,s2,s1,State.setUser,State.bpin,Bcache.unref_buf,Bcache.releasesleep,
      Bcache.bpin,Bcache.fill_buf,hx,hxd,hxb]
  · simp [s6,s5,s3,s2,s1,State.setUser,State.bpin,Bcache.unref_buf,Bcache.releasesleep,
      Bcache.bpin,Bcache.fill_buf,hx,hj]

/-- The transaction of the first `k` entries. -/
def Log.firstEntries (log : Log) (k : ℕ) : Log := { log with lh := { log.lh with n := k } }

/-- A reachable state pins exactly the first `k` blocks, for every `k` that fits. -/
theorem exists_pinnedLog (disk : ℕ → ℕ → Block) {dev : ℕ} (hdev : dev ≠ 0) {log : Log}
    (hd : Distinct log) (hn : log.lh.n ≤ NBUF) {k : ℕ} (hk : k ≤ log.lh.n) :
    ∃ s m, Tracks disk s m ∧ s.panicked = none ∧ PinnedLog s dev (log.firstEntries k) := by
  induction k with
  | zero =>
    refine ⟨_,_,.refl _,rfl,fun _ => rfl,fun i hi => ?_,fun j hj => ?_⟩
    · simp [Log.firstEntries] at hi
    · simp [State.init] at hj
  | succ k ih =>
    obtain ⟨s,m,hr,hnp,hp⟩ := ih (by omega)
    obtain ⟨hc,ha⟩ := tracks_inv hr
    have hrefs := hp.refs hc (agrees_at_uniq ha hdev)
    have hnew : pinnedFrom (log.firstEntries k) 0 (log.lh.block k) = (0,none) := by
      refine if_neg fun hm => ?_
      obtain ⟨i,hi,he⟩ := mem_map.mp hm
      simp only [Log.firstEntries,mem_range'_1] at hi
      have := hd i (by omega) k (by omega) he
      omega
    have hfits : (log.firstEntries k).lh.n < NBUF := by
      change k < NBUF
      omega
    have hroom := pinnedFrom_room hfits hrefs
    obtain ⟨i,c,x,hg,-,-,-,-,-,-,hold⟩ := bget_refs (s := ⟨s.cache,s.disk⟩)
      (b := log.lh.block k) hrefs (by rw [hnew]) (by rw [hnew]; norm_num) (.inr hroom)
    have hle (j : Fin NBUF) : s.pins j ≤ 1 := by
      by_cases h0 : s.pins j = 0
      · omega
      · obtain ⟨a,ha',hat⟩ := hp.only j h0
        obtain ⟨j',hat',hp1⟩ := hp.pinned a ha'
        rw [agrees_at_uniq ha hdev j j' _ hat hat',hp1]
    have hi0 : s.pins i = 0 := by
      rw [← (hp.refcnt hc i).1]
      rcases hold with hat | ⟨h0,-⟩
      · have hh := hrefs.here i _ hat
        rw [hnew] at hh
        exact (Prod.mk.inj hh).1
      · exact h0
    obtain ⟨t,m',ht,htp,htu,htpins,htat,htbuf⟩ := tracks_pin hr hnp hp.idle hdev
      (fun j => by
        have := hle j
        rw [← hc.refcnt,(hp.refcnt hc j).1]
        omega) hg
    refine ⟨t,m',ht,htp,htu,fun a ha' => ?_,fun j hj => ?_⟩
    · change a < k+1 at ha'
      rcases Nat.lt_succ_iff_lt_or_eq.mp ha' with hlt | rfl
      · obtain ⟨j,hat,hpin⟩ := hp.pinned a hlt
        have hji : j ≠ i := by
          rintro rfl
          omega
        refine ⟨j,?_,by rw [htpins,update_of_ne hji,hpin]⟩
        simpa [At,htbuf j hji,Log.firstEntries] using hat
      · exact ⟨i,htat,by rw [htpins,update_self,hi0]⟩
    · by_cases hji : j = i
      · subst hji
        exact ⟨k,Nat.lt_succ_self k,htat⟩
      · rw [htpins,update_of_ne hji] at hj
        obtain ⟨a,ha',hat⟩ := hp.only j hj
        exact ⟨a,Nat.lt_succ_of_lt ha',by simpa [At,htbuf j hji,Log.firstEntries] using hat⟩

/-- A commit from a state of the cache in which only the transaction is pinned runs to its end
exactly when a buffer is left over for the log, and panics in `bget` otherwise. -/
theorem commit_completes_iff (disk : ℕ → ℕ → Block) (s : Bio.State) (m : BlockMap)
    (hr : Tracks disk s m) (dev pid : ℕ) (hdev : dev ≠ 0) (log : Log) (ht : Transaction log)
    (hd : Distinct log) (hp : PinnedLog s dev log) :
    ((∃ log' t, (commit (cacheOps dev pid) log).run ⟨s.cache,s.disk⟩ = .ok (log',t)) ↔
      log.lh.n < NBUF) ∧
    ((commit (cacheOps dev pid) log).run ⟨s.cache,s.disk⟩ = .error (.panic .noBuffers) ↔
      log.lh.n = NBUF) := by
  obtain ⟨hc,ha⟩ := tracks_inv hr
  have hle : log.lh.n ≤ NBUF := ht.le
  rcases Nat.lt_or_eq_of_le hle with hlt | heq
  · have hrefs := hp.refs hc (agrees_at_uniq ha hdev)
    have hends : Ends (commit (cacheOps dev pid) log) ⟨s.cache,s.disk⟩ _ :=
      commit_ends ht hd hlt hrefs
    obtain ⟨log',t,hrun,-⟩ := hends
    exact ⟨⟨fun _ => hlt,fun _ => ⟨log',t,hrun⟩⟩,by simp [hrun,hlt.ne]⟩
  · simp [hp.commit_panics hc ht hd heq pid,heq]

/-- Blocks 50, 51, ... of a device whose log starts at block 2. -/
def consecutive (n : ℕ) : Log := ⟨2,n,fun i => 50+i⟩

theorem distinct_consecutive (n : ℕ) : Distinct (consecutive n) := by
  intro i _ j _ h
  simpa [consecutive] using h

theorem transaction_consecutive {n : ℕ} (hn : n ≤ LOGBLOCKS) : Transaction (consecutive n) := by
  refine ⟨hn,fun i hi => ?_,fun i hi hin => ?_⟩
  · simp only [consecutive,LOGBLOCKS,MAXOPBLOCKS] at hi hn ⊢
    omega
  · simp only [consecutive,InLog,LOGBLOCKS,MAXOPBLOCKS] at hin
    omega

theorem commit_completes_two_blocks : ∃ s log' t,
    PinnedLog s 1 (consecutive 2) ∧
    (commit (cacheOps 1 7) (consecutive 2)).run ⟨s.cache,s.disk⟩ = .ok (log',t) := by
  obtain ⟨s,m,hr,-,hp⟩ := exists_pinnedLog (fun _ _ => Bytes.zero BSIZE) one_ne_zero
    (distinct_consecutive 2) (by decide) (le_refl 2)
  have hfits := commit_completes_iff _ s m hr 1 7 (by decide) (consecutive 2)
    (transaction_consecutive (by decide)) (distinct_consecutive 2) hp
  obtain ⟨log',t,hrun⟩ := hfits.1.mpr (by decide)
  exact ⟨s,log',t,hp,hrun⟩

/-- Three operations that log ten blocks each fill the log and pin every buffer. -/
theorem full_log_commit_panics : ∃ s m,
    Tracks (fun _ _ => Bytes.zero BSIZE) s m ∧ PinnedLog s 1 (consecutive LOGBLOCKS) ∧
    Transaction (consecutive LOGBLOCKS) ∧ Distinct (consecutive LOGBLOCKS) ∧
    (commit (cacheOps 1 7) (consecutive LOGBLOCKS)).run ⟨s.cache,s.disk⟩ =
      .error (.panic .noBuffers) := by
  obtain ⟨s,m,hr,-,hp⟩ := exists_pinnedLog (fun _ _ => Bytes.zero BSIZE) one_ne_zero
    (distinct_consecutive LOGBLOCKS) (by decide) (le_refl LOGBLOCKS)
  have ht := transaction_consecutive (le_refl LOGBLOCKS)
  have hd := distinct_consecutive LOGBLOCKS
  exact ⟨s,m,hr,hp,ht,hd,hp.commit_panics (tracks_inv hr).1 ht hd rfl 7⟩

end RedoLog
end Xv6
