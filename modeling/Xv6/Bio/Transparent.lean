import Xv6.Bio.Machine

/-! The cache behaves as a plain map from blocks to contents. -/
namespace Xv6
namespace Bio

/-- Reference counts and sleep locks agree with the users and pins they stand for. -/
structure Counted (s : State) : Prop where
  listed : s.cache.Listed
  users : ∀ p i, p ∈ s.users i ↔ ∃ r, s.user p = some r ∧ r.buf = i
  nodup : ∀ i, (s.users i).Nodup
  refcnt : ∀ i, (s.cache.buf i).refcnt = s.refs i
  small : ∀ i, s.refs i < 2^32
  lock : ∀ i p, (s.cache.buf i).lock = some p ↔
    ∃ r, s.user p = some r ∧ r.buf = i ∧ (r.phase = .locked ∨ r.phase = .holding)

/-- The buffer `r` refers to carries the block its user asked for. -/
def Named (c : Bcache) (m : BlockMap) (p : ℕ) (r : Ref) : Prop :=
  r.dev ≠ 0 ∧ m.asked p = (r.dev,r.blockno) ∧ (c.buf r.buf).dev = r.dev ∧
    (c.buf r.buf).blockno = r.blockno ∧ (r.phase = .holding → (c.buf r.buf).valid = true)

/-- Every buffer, user and disk block agrees with the map. -/
structure Agrees (s : State) (m : BlockMap) : Prop where
  uniq : ∀ i j, (s.cache.buf i).dev ≠ 0 → (s.cache.buf i).dev = (s.cache.buf j).dev →
    (s.cache.buf i).blockno = (s.cache.buf j).blockno → i = j
  named : ∀ p r, s.user p = some r → Named s.cache m p r
  valid : ∀ i, (s.cache.buf i).valid = true → (s.cache.buf i).dev ≠ 0 ∧
    (s.cache.buf i).data = m.content (s.cache.buf i).dev (s.cache.buf i).blockno
  dirty : ∀ i, s.dirty i = true → (s.cache.buf i).valid = true ∧
    (0 < s.pins i ∨ (s.cache.buf i).lock ≠ none)
  clean : ∀ dev blockno, dev ≠ 0 →
    (∀ i, s.dirty i = true → ¬((s.cache.buf i).dev = dev ∧ (s.cache.buf i).blockno = blockno)) →
    s.disk dev blockno = m.content dev blockno

theorem counted_init (disk : ℕ → ℕ → Block) : Counted (.init disk) :=
  ⟨Bcache.listed_binit,by simp [State.init],by simp [State.init],fun _ => rfl,by simp [State.init,State.refs],
    by simp [State.init,Bcache.binit]⟩

theorem agrees_init (disk : ℕ → ℕ → Block) : Agrees (.init disk) (.init disk) := by
  refine ⟨?_,?_,?_,?_,?_⟩ <;> simp [State.init,Bcache.binit,BlockMap.init]

/-- An unreferenced buffer has no user, no holder and nothing unwritten. -/
theorem Counted.unused {s : State} (h : Counted s) {i : Fin NBUF}
    (hi : (s.cache.buf i).refcnt = 0) :
    s.pins i = 0 ∧ (s.cache.buf i).lock = none ∧ ∀ p r, s.user p = some r → r.buf ≠ i := by
  have hr := h.refcnt i
  rw [hi,State.refs] at hr
  have hnil : s.users i = [] := List.eq_nil_of_length_eq_zero (by omega)
  have hno : ∀ p r, s.user p = some r → r.buf ≠ i := by
    intro p r hp hb
    have hm : p ∈ s.users i := (h.users p i).mpr ⟨r,hp,hb⟩
    simp [hnil] at hm
  refine ⟨by omega,?_,hno⟩
  rcases hl : (s.cache.buf i).lock with - | p
  · rfl
  · obtain ⟨r,hp,hb,-⟩ := (h.lock i p).mp hl
    exact absurd hb (hno p r hp)

section steps

variable {s t : State} {m : BlockMap}

theorem bget_cases {p dev blockno : ℕ} (h : s.bget p dev blockno = some t) :
    s.user p = none ∧ (t = { s with panicked := some .noBuffers } ∨ ∃ i c,
      s.cache.bget dev blockno = some (i,c) ∧
      t = { s.setUser p (some ⟨.waiting,i,dev,blockno⟩) with
        cache := c
        users := Function.update s.users i (p::s.users i) }) := by
  unfold State.bget at h
  split at h
  · simp at h
  · rename_i hp
    refine ⟨hp,?_⟩
    split at h
    · exact .inl (by simpa using h.symm)
    · rename_i i c hg
      exact .inr ⟨i,c,hg,by simpa using h.symm⟩

theorem acquiresleep_cases {p : ℕ} (h : s.acquiresleep p = some t) : ∃ i dev blockno,
    s.user p = some ⟨.waiting,i,dev,blockno⟩ ∧ (s.cache.buf i).lock = none ∧
    t = { s.setUser p (some ⟨.locked,i,dev,blockno⟩) with
      cache := s.cache.setBuf i { s.cache.buf i with lock := some p } } := by
  unfold State.acquiresleep Bcache.acquiresleep at h
  split at h
  · rename_i i dev blockno hp
    split at h
    · rename_i hl
      exact ⟨i,dev,blockno,hp,hl,by simpa using h.symm⟩
    · simp at h
  · simp at h

theorem bread_cases {p : ℕ} (h : s.bread p = some t) : ∃ i dev blockno,
    s.user p = some ⟨.locked,i,dev,blockno⟩ ∧
    t = { s.setUser p (some ⟨.holding,i,dev,blockno⟩) with cache := s.cache.fill s.disk i } := by
  unfold State.bread at h
  split at h
  · rename_i i dev blockno hp
    exact ⟨i,dev,blockno,hp,by simpa using h.symm⟩
  · simp at h

theorem store_cases {p : ℕ} {x : Block} (h : s.store p x = some t) : ∃ i dev blockno,
    s.user p = some ⟨.holding,i,dev,blockno⟩ ∧
    t = { s.setDirty i true with cache := s.cache.setData i x } := by
  unfold State.store at h
  split at h
  · rename_i i dev blockno hp
    exact ⟨i,dev,blockno,hp,by simpa using h.symm⟩
  · simp at h

/-- A holder has the sleep lock, so the checks of `bwrite` and `brelse` pass. -/
theorem holdingsleep_of_holding (hc : Counted s) {p dev blockno : ℕ} {i : Fin NBUF}
    (hp : s.user p = some ⟨.holding,i,dev,blockno⟩) : s.cache.holdingsleep i p = true := by
  simpa [Bcache.holdingsleep] using (hc.lock i p).mpr ⟨_,hp,rfl,.inr rfl⟩

theorem bwrite_cases (hc : Counted s) {p : ℕ} (h : s.bwrite p = some t) : ∃ i dev blockno,
    s.user p = some ⟨.holding,i,dev,blockno⟩ ∧
    t = { s.setDirty i false with
      disk := putBlock s.disk (s.cache.buf i).dev (s.cache.buf i).blockno
        (s.cache.buf i).data } := by
  unfold State.bwrite at h
  split at h
  · rename_i i dev blockno hp
    rw [if_pos (holdingsleep_of_holding hc hp)] at h
    exact ⟨i,dev,blockno,hp,by simpa using h.symm⟩
  · simp at h

theorem releasesleep_cases (hc : Counted s) {p : ℕ} (h : s.releasesleep p = some t) :
    ∃ i dev blockno, s.user p = some ⟨.holding,i,dev,blockno⟩ ∧
    t = { s.setUser p (some ⟨.releasing,i,dev,blockno⟩) with
      cache := s.cache.releasesleep i } := by
  unfold State.releasesleep at h
  split at h
  · rename_i i dev blockno hp
    rw [if_pos (holdingsleep_of_holding hc hp)] at h
    exact ⟨i,dev,blockno,hp,by simpa using h.symm⟩
  · simp at h

theorem brelse_cases {p : ℕ} (h : s.brelse p = some t) : ∃ i dev blockno,
    s.user p = some ⟨.releasing,i,dev,blockno⟩ ∧
    t = { s.setUser p none with
      cache := s.cache.unref i
      users := Function.update s.users i ((s.users i).erase p) } := by
  unfold State.brelse at h
  split at h
  · rename_i i dev blockno hp
    exact ⟨i,dev,blockno,hp,by simpa using h.symm⟩
  · simp at h

theorem counted_bget {p dev blockno : ℕ} (hc : Counted s)
    (hok : s.ok (.bget p dev blockno)) (h : s.bget p dev blockno = some t) : Counted t := by
  obtain ⟨hp,rfl | ⟨i,c,hg,rfl⟩⟩ := bget_cases h
  · exact ⟨hc.listed,hc.users,hc.nodup,hc.refcnt,hc.small,hc.lock⟩
  have hnew : p ∉ s.users i := fun hm => by
    obtain ⟨r,hr,-⟩ := (hc.users p i).mp hm
    simp [hp] at hr
  have hinc : incr (s.cache.buf i).refcnt = s.refs i+1 := by
    rw [hc.refcnt,incr_of_lt (hok.2 i)]
  have hlock : ∀ j q, (c.buf j).lock = some q ↔ (s.cache.buf j).lock = some q := by
    intro j q
    rcases Bcache.bget_cases hc.listed hg with ⟨-,-,rfl⟩ | ⟨-,-,rfl⟩ <;>
      by_cases hj : j = i <;> simp [hj]
  refine ⟨Bcache.listed_bget hc.listed hg,fun q j => ?_,fun j => ?_,fun j => ?_,fun j => ?_,
    fun j q => ?_⟩
  · have := hc.users q j
    by_cases hq : q = p <;> by_cases hj : j = i <;> simp_all [State.setUser]
    grind
  · have := hc.nodup j
    by_cases hj : j = i
    · subst hj
      simpa using ⟨hnew,this⟩
    · simpa [hj] using this
  · have hr := hc.refcnt j
    by_cases hj : j = i
    · subst hj
      rcases Bcache.bget_cases hc.listed hg with ⟨-,-,rfl⟩ | ⟨-,h0,rfl⟩ <;>
        simp [hinc,State.refs,State.setUser] at hr ⊢ <;> omega
    · rcases Bcache.bget_cases hc.listed hg with ⟨-,-,rfl⟩ | ⟨-,h0,rfl⟩ <;>
        simpa [hj,State.refs,State.setUser] using hr
  · have hj' := hok.2 j
    by_cases hj : j = i <;> simp [hj,State.refs,State.setUser] at hj' ⊢ <;> omega
  · rw [hlock,hc.lock]
    by_cases hq : q = p <;> simp_all [State.setUser]

/-- A user goes on to its next phase, or a buffer is changed under its lock. -/
theorem Counted.advance (hc : Counted s) (hl : t.cache.Listed) (hu : t.users = s.users)
    (hp : t.pins = s.pins) (hr : ∀ i, (t.cache.buf i).refcnt = (s.cache.buf i).refcnt)
    (hb : ∀ p, (t.user p).map Ref.buf = (s.user p).map Ref.buf)
    (hlock : ∀ i p, (t.cache.buf i).lock = some p ↔
      ∃ r, t.user p = some r ∧ r.buf = i ∧ (r.phase = .locked ∨ r.phase = .holding)) :
    Counted t := by
  have hrefs : ∀ i, t.refs i = s.refs i := fun i => by rw [State.refs,State.refs,hu,hp]
  refine ⟨hl,fun p i => ?_,fun i => hu ▸ hc.nodup i,fun i => ?_,fun i => ?_,hlock⟩
  · rw [hu,hc.users p i]
    simp only [← Option.map_eq_some_iff,hb p]
  · rw [hr,hc.refcnt,hrefs]
  · rw [hrefs]
    exact hc.small i

theorem counted_acquiresleep {p : ℕ} (hc : Counted s) (h : s.acquiresleep p = some t) :
    Counted t := by
  obtain ⟨i,dev,blockno,hp,hl,rfl⟩ := acquiresleep_cases h
  refine hc.advance (Bcache.listed_setBuf hc.listed) rfl rfl (fun j => ?_) (fun q => ?_)
    fun j q => ?_
  · by_cases hj : j = i <;> simp [hj]
  · by_cases hq : q = p <;> simp [hq,hp,State.setUser]
  · have := hc.lock j q
    by_cases hj : j = i <;> by_cases hq : q = p <;> simp_all [State.setUser] <;> grind

theorem counted_bread {p : ℕ} (hc : Counted s) (h : s.bread p = some t) : Counted t := by
  obtain ⟨i,dev,blockno,hp,rfl⟩ := bread_cases h
  refine hc.advance (Bcache.listed_fill hc.listed _ _) rfl rfl (fun j => ?_) (fun q => ?_)
    fun j q => ?_
  · by_cases hj : j = i <;> simp [hj,Bcache.fill_buf]
  · by_cases hq : q = p <;> simp [hq,hp,State.setUser]
  · have := hc.lock j q
    by_cases hj : j = i <;> by_cases hq : q = p <;> simp_all [State.setUser,Bcache.fill_buf]

theorem counted_store {p : ℕ} {x : Block} (hc : Counted s) (h : s.store p x = some t) :
    Counted t := by
  obtain ⟨i,dev,blockno,hp,rfl⟩ := store_cases h
  refine hc.advance (Bcache.listed_setBuf hc.listed) rfl rfl (fun j => ?_) (fun q => rfl)
    fun j q => ?_
  · by_cases hj : j = i <;> simp [hj,Bcache.setData]
  · have := hc.lock j q
    by_cases hj : j = i <;> simpa [hj,Bcache.setData,State.setDirty] using this

theorem counted_bwrite {p : ℕ} (hc : Counted s) (h : s.bwrite p = some t) : Counted t := by
  obtain ⟨i,dev,blockno,hp,rfl⟩ := bwrite_cases hc h
  exact ⟨hc.listed,hc.users,hc.nodup,hc.refcnt,hc.small,hc.lock⟩

theorem counted_releasesleep {p : ℕ} (hc : Counted s) (h : s.releasesleep p = some t) :
    Counted t := by
  obtain ⟨i,dev,blockno,hp,rfl⟩ := releasesleep_cases hc h
  have hown := (hc.lock i p).mpr ⟨_,hp,rfl,.inr rfl⟩
  refine hc.advance (Bcache.listed_setBuf hc.listed) rfl rfl (fun j => ?_) (fun q => ?_)
    fun j q => ?_
  · by_cases hj : j = i <;> simp [hj,Bcache.releasesleep]
  · by_cases hq : q = p <;> simp [hq,hp,State.setUser]
  · have := hc.lock j q
    by_cases hj : j = i <;> by_cases hq : q = p <;>
      simp_all [State.setUser,Bcache.releasesleep] <;> grind

theorem counted_brelse {p : ℕ} (hc : Counted s) (h : s.brelse p = some t) : Counted t := by
  obtain ⟨i,dev,blockno,hp,rfl⟩ := brelse_cases h
  have hmem : p ∈ s.users i := (hc.users p i).mpr ⟨_,hp,rfl⟩
  have hlen := List.length_erase_of_mem hmem
  have hpos := List.length_pos_of_mem hmem
  refine ⟨Bcache.listed_unref hc.listed i,fun q j => ?_,fun j => ?_,fun j => ?_,fun j => ?_,
    fun j q => ?_⟩
  · have := hc.users q j
    have hn := (hc.nodup i).mem_erase_iff (a := p) (b := q)
    by_cases hq : q = p <;> by_cases hj : j = i <;> simp_all [State.setUser]
    grind
  · have := hc.nodup j
    by_cases hj : j = i
    · subst hj
      simpa using this.erase p
    · simpa [hj] using this
  · have hr := hc.refcnt j
    have hs := hc.small j
    by_cases hj : j = i
    · subst hj
      have hd : decr (s.cache.buf j).refcnt = (s.cache.buf j).refcnt-1 :=
        decr_of_pos (by rw [hr,State.refs]; omega) (by omega)
      simp [Bcache.unref_buf,hd,State.refs,State.setUser,hlen] at hr ⊢
      omega
    · simpa [Bcache.unref_buf,hj,State.refs,State.setUser] using hr
  · have hs := hc.small j
    by_cases hj : j = i <;> simp [hj,State.refs,State.setUser] at hs ⊢ <;> omega
  · have := hc.lock j q
    by_cases hj : j = i <;> by_cases hq : q = p <;>
      simp_all [State.setUser,Bcache.unref_buf]

theorem counted_bpin {i : Fin NBUF} (hc : Counted s) (hok : s.ok (.bpin i)) :
    Counted (s.bpin i) := by
  have hi : s.refs i+1 < 2^32 := hok
  refine ⟨Bcache.listed_setBuf hc.listed,hc.users,hc.nodup,fun j => ?_,fun j => ?_,fun j q => ?_⟩
  · have hr := hc.refcnt j
    by_cases hj : j = i
    · subst hj
      have hinc := incr_of_lt hi
      simp [State.bpin,Bcache.bpin,hr,State.refs] at hinc ⊢
      omega
    · simpa [State.bpin,Bcache.bpin,hj,State.refs] using hr
  · have hs := hc.small j
    by_cases hj : j = i <;> simp [hj,State.bpin,State.refs] at hs hi ⊢ <;> omega
  · have := hc.lock j q
    by_cases hj : j = i <;> simpa [State.bpin,Bcache.bpin,hj] using this

theorem counted_bunpin {i : Fin NBUF} (hc : Counted s) (hok : s.ok (.bunpin i)) :
    Counted (s.bunpin i) := by
  have hpos : 0 < s.pins i := hok.1
  refine ⟨Bcache.listed_setBuf hc.listed,hc.users,hc.nodup,fun j => ?_,fun j => ?_,fun j q => ?_⟩
  · have hr := hc.refcnt j
    have hs := hc.small j
    by_cases hj : j = i
    · subst hj
      have hd : decr (s.cache.buf j).refcnt = (s.cache.buf j).refcnt-1 :=
        decr_of_pos (by rw [hr,State.refs]; omega) (by omega)
      simp [State.bunpin,Bcache.bunpin,hd,State.refs] at hr ⊢
      omega
    · simpa [State.bunpin,Bcache.bunpin,hj,State.refs] using hr
  · have hs := hc.small j
    by_cases hj : j = i <;> simp [hj,State.bunpin,State.refs] at hs ⊢ <;> omega
  · have := hc.lock j q
    by_cases hj : j = i <;> simpa [State.bunpin,Bcache.bunpin,hj] using this

/-- The block a buffer carries, whether it is valid, and its contents. -/
def Buf.image (b : Buf) : ℕ × ℕ × Bool × Block := (b.dev,b.blockno,b.valid,b.data)

/-- Steps that only move references and locks. -/
theorem Agrees.frame {m' : BlockMap} (ha : Agrees s m)
    (hbuf : ∀ i, (t.cache.buf i).image = (s.cache.buf i).image) (hdisk : t.disk = s.disk)
    (hdirty : t.dirty = s.dirty) (hcontent : m'.content = m.content)
    (huser : ∀ p r, t.user p = some r → Named s.cache m' p r)
    (hown : ∀ i, s.dirty i = true → 0 < s.pins i ∨ (s.cache.buf i).lock ≠ none →
      0 < t.pins i ∨ (t.cache.buf i).lock ≠ none) : Agrees t m' := by
  simp only [Buf.image,Prod.mk.injEq] at hbuf
  have hdev : ∀ i, (t.cache.buf i).dev = (s.cache.buf i).dev := fun i => (hbuf i).1
  have hblk : ∀ i, (t.cache.buf i).blockno = (s.cache.buf i).blockno := fun i => (hbuf i).2.1
  have hval : ∀ i, (t.cache.buf i).valid = (s.cache.buf i).valid := fun i => (hbuf i).2.2.1
  have hdat : ∀ i, (t.cache.buf i).data = (s.cache.buf i).data := fun i => (hbuf i).2.2.2
  refine ⟨?_,fun p r hp => ?_,?_,fun i hi => ?_,?_⟩
  · simpa only [hdev,hblk] using ha.uniq
  · simpa only [Named,hdev,hblk,hval] using huser p r hp
  · simpa only [hdev,hblk,hval,hdat,hcontent] using ha.valid
  · rw [hdirty] at hi
    obtain ⟨hv,ho⟩ := ha.dirty i hi
    exact ⟨(hval i).trans hv,hown i hi ho⟩
  · simpa only [hdev,hblk,hdisk,hdirty,hcontent] using ha.clean

/-- After a user has moved to another phase of the same reference. -/
theorem Agrees.named_setUser (ha : Agrees s m) {p : ℕ} {r' : Ref}
    (hr' : Named s.cache m p r') {q : ℕ} {r : Ref}
    (hq : (s.setUser p (some r')).user q = some r) : Named s.cache m q r := by
  by_cases hqp : q = p
  · subst hqp
    obtain rfl : r' = r := by simpa [State.setUser] using hq
    exact hr'
  · exact ha.named q r (by simpa [State.setUser,hqp] using hq)

theorem agrees_acquiresleep {p : ℕ} (ha : Agrees s m) (h : s.acquiresleep p = some t) :
    Agrees t m := by
  obtain ⟨i,dev,blockno,hp,hl,rfl⟩ := acquiresleep_cases h
  obtain ⟨h1,h2,h3,h4,-⟩ := ha.named p _ hp
  have hr : Named s.cache m p ⟨.locked,i,dev,blockno⟩ := ⟨h1,h2,h3,h4,nofun⟩
  refine ha.frame (fun j => ?_) rfl rfl rfl (fun q r hq => ha.named_setUser hr hq)
    fun j _ ho => ?_
  · by_cases hj : j = i <;> simp [hj,Buf.image]
  · by_cases hj : j = i
    · exact .inr (by simp [hj])
    · simpa [hj,State.setUser] using ho

theorem agrees_releasesleep {p : ℕ} (hc : Counted s) (ha : Agrees s m)
    (hok : s.ok (.releasesleep p)) (h : s.releasesleep p = some t) : Agrees t m := by
  obtain ⟨i,dev,blockno,hp,rfl⟩ := releasesleep_cases hc h
  obtain ⟨h1,h2,h3,h4,-⟩ := ha.named p _ hp
  have hr : Named s.cache m p ⟨.releasing,i,dev,blockno⟩ := ⟨h1,h2,h3,h4,nofun⟩
  refine ha.frame (fun j => ?_) rfl rfl rfl (fun q r hq => ha.named_setUser hr hq)
    fun j hd ho => ?_
  · by_cases hj : j = i <;> simp [hj,Buf.image,Bcache.releasesleep]
  · by_cases hj : j = i
    · subst hj
      exact .inl (hok _ hp hd)
    · simpa [hj,State.setUser,Bcache.releasesleep] using ho

theorem agrees_brelse {p : ℕ} (ha : Agrees s m) (h : s.brelse p = some t) : Agrees t m := by
  obtain ⟨i,dev,blockno,hp,rfl⟩ := brelse_cases h
  refine ha.frame (fun j => ?_) rfl rfl rfl (fun q r hq => ?_) fun j _ ho => ?_
  · by_cases hj : j = i <;> simp [hj,Buf.image,Bcache.unref_buf]
  · by_cases hqp : q = p
    · simp [State.setUser,hqp] at hq
    · exact ha.named q r (by simpa [State.setUser,hqp] using hq)
  · by_cases hj : j = i <;> simpa [hj,State.setUser,Bcache.unref_buf] using ho

theorem agrees_bpin (ha : Agrees s m) (i : Fin NBUF) : Agrees (s.bpin i) m := by
  refine ha.frame (fun j => ?_) rfl rfl rfl ha.named fun j _ ho => ?_
  · by_cases hj : j = i <;> simp [hj,Buf.image,State.bpin,Bcache.bpin]
  · by_cases hj : j = i
    · exact .inl (by simp [hj,State.bpin])
    · simpa [hj,State.bpin,Bcache.bpin] using ho

theorem agrees_bunpin {i : Fin NBUF} (ha : Agrees s m) (hok : s.ok (.bunpin i)) :
    Agrees (s.bunpin i) m := by
  refine ha.frame (fun j => ?_) rfl rfl rfl ha.named fun j hd ho => ?_
  · by_cases hj : j = i <;> simp [hj,Buf.image,State.bunpin,Bcache.bunpin]
  · by_cases hj : j = i
    · subst hj
      rcases hok.2 hd with hmore | hlock
      · exact .inl (by simp only [State.bunpin,Function.update_self]; omega)
      · exact .inr (by simpa [State.bunpin,Bcache.bunpin] using hlock)
    · simpa [hj,State.bunpin,Bcache.bunpin] using ho

/-- Users that were there before a `bget` still asked for the same block. -/
theorem Agrees.named_bget (ha : Agrees s m) {p dev blockno : ℕ} (hp : s.user p = none) {q : ℕ}
    {r : Ref} (hq : s.user q = some r) :
    Named s.cache (m.step (.bget p dev blockno)) q r := by
  have hqp : q ≠ p := by
    rintro rfl
    simp [hp] at hq
  simpa [Named,BlockMap.step,hqp] using ha.named q r hq

theorem agrees_bget {p dev blockno : ℕ} (hc : Counted s) (ha : Agrees s m)
    (hok : s.ok (.bget p dev blockno)) (h : s.bget p dev blockno = some t) :
    Agrees t (m.step (.bget p dev blockno)) := by
  have hdev : dev ≠ 0 := hok.1
  obtain ⟨hp,rfl | ⟨i,c,hg,rfl⟩⟩ := bget_cases h
  · exact ha.frame (fun j => rfl) rfl rfl rfl (fun q r hq => ha.named_bget hp hq)
      fun j _ ho => ho
  rcases Bcache.bget_cases hc.listed hg with ⟨hd,hb,rfl⟩ | ⟨hnone,h0,rfl⟩
  · refine ha.frame (fun j => ?_) rfl rfl rfl (fun q r hq => ?_) fun j _ ho => ?_
    · by_cases hj : j = i <;> simp [hj,Buf.image]
    · by_cases hqp : q = p
      · subst hqp
        obtain rfl : _ = r := by simpa [State.setUser] using hq
        exact ⟨hdev,by simp [BlockMap.step],hd,hb,nofun⟩
      · exact ha.named_bget hp (by simpa [State.setUser,hqp] using hq)
    · by_cases hj : j = i <;> simpa [hj,State.setUser] using ho
  · obtain ⟨hpin,hlock,hunused⟩ := hc.unused h0
    have hclean : s.dirty i = false := by
      by_contra hdi
      have := (ha.dirty i (by simpa using hdi)).2
      simp [hpin,hlock] at this
    refine ⟨fun j k => ?_,fun q r hq => ?_,fun j => ?_,fun j => ?_,fun d b hd0 hno => ?_⟩
    · have := ha.uniq j k
      have hj' := hnone j
      have hk' := hnone k
      by_cases hj : j = i <;> by_cases hk : k = i <;> simp_all
      all_goals grind
    · by_cases hqp : q = p
      · subst hqp
        obtain rfl : _ = r := by simpa [State.setUser] using hq
        exact ⟨hdev,by simp [BlockMap.step],by simp,by simp,nofun⟩
      · replace hq : s.user q = some r := by simpa [State.setUser,hqp] using hq
        simpa [Named,hunused q r hq] using ha.named_bget hp hq
    · have := ha.valid j
      by_cases hj : j = i <;> simp_all [BlockMap.step]
    · have := ha.dirty j
      by_cases hj : j = i <;> simp_all [State.setUser]
    · refine ha.clean d b hd0 fun j hj => ?_
      have := hno j hj
      by_cases hji : j = i <;> simp_all

theorem agrees_bread {p : ℕ} (ha : Agrees s m) (h : s.bread p = some t) : Agrees t m := by
  obtain ⟨i,dev,blockno,hp,rfl⟩ := bread_cases h
  obtain ⟨h1,h2,h3,h4,-⟩ := ha.named p _ hp
  dsimp only at h1 h3 h4
  have hread : (s.cache.buf i).valid = false → s.disk dev blockno = m.content dev blockno := by
    refine fun hv => ha.clean dev blockno h1 fun j hj hcar => ?_
    obtain rfl := ha.uniq i j (h3 ▸ h1) (h3.trans hcar.1.symm) (h4.trans hcar.2.symm)
    simp [(ha.dirty i hj).1] at hv
  refine ⟨fun j k => ?_,fun q r hq => ?_,fun j => ?_,fun j => ?_,fun d b hd0 hno => ?_⟩
  · have := ha.uniq j k
    by_cases hj : j = i <;> by_cases hk : k = i <;> simp_all [Bcache.fill_buf]
    tauto
  · by_cases hqp : q = p
    · subst hqp
      obtain rfl : _ = r := by simpa [State.setUser] using hq
      simpa [Named,Bcache.fill_buf] using ⟨h1,h2,h3,h4⟩
    · have := ha.named q r (by simpa [State.setUser,hqp] using hq)
      by_cases hr : r.buf = i <;> simp_all [Named,Bcache.fill_buf]
  · have := ha.valid j
    by_cases hj : j = i
    · subst hj
      cases hv : (s.cache.buf j).valid <;> simp_all [Bcache.fill_buf]
    · simpa [Bcache.fill_buf,hj] using this
  · have := ha.dirty j
    by_cases hj : j = i <;> simp_all [Bcache.fill_buf,State.setUser]
  · refine ha.clean d b hd0 fun j hj => ?_
    have := hno j hj
    by_cases hji : j = i <;> simp_all [Bcache.fill_buf]

theorem agrees_store {p : ℕ} {x : Block} (hc : Counted s) (ha : Agrees s m)
    (h : s.store p x = some t) : Agrees t (m.step (.store p x)) := by
  obtain ⟨i,dev,blockno,hp,rfl⟩ := store_cases h
  obtain ⟨h1,h2,h3,h4,h5⟩ := ha.named p _ hp
  dsimp only at h1 h2 h3 h4 h5
  have hown := (hc.lock i p).mpr ⟨_,hp,rfl,.inr rfl⟩
  refine ⟨fun j k => ?_,fun q r hq => ?_,fun j hv => ?_,fun j => ?_,fun d b hd0 hno => ?_⟩
  · have := ha.uniq j k
    by_cases hj : j = i <;> by_cases hk : k = i <;> simp_all [Bcache.setData]
    tauto
  · have := ha.named q r hq
    by_cases hr : r.buf = i <;> simp_all [Named,Bcache.setData,BlockMap.step]
  · by_cases hj : j = i
    · subst hj
      simp [Bcache.setData,BlockMap.step,h2,h3,h4,h1]
    · replace hv : (s.cache.buf j).valid = true := by simpa [Bcache.setData,hj] using hv
      obtain ⟨hd,hdata⟩ := ha.valid j hv
      have hne : ¬((s.cache.buf j).dev = dev ∧ (s.cache.buf j).blockno = blockno) := by
        rintro ⟨hd',hb'⟩
        exact hj (ha.uniq j i hd (hd'.trans h3.symm) (hb'.trans h4.symm))
      simpa [Bcache.setData,hj,hd,BlockMap.step,h2,putBlock_of_ne _ _ hne] using hdata
  · have := ha.dirty j
    by_cases hj : j = i <;> simp_all [Bcache.setData,State.setDirty]
  · have hi := hno i (by simp [State.setDirty])
    have hne : ¬(d = dev ∧ b = blockno) := by
      rintro ⟨rfl,rfl⟩
      simp [Bcache.setData,h3,h4] at hi
    have hold := ha.clean d b hd0 fun j hj => by
      by_cases hji : j = i
      · subst hji
        simpa [Bcache.setData] using hi
      · simpa [Bcache.setData,hji] using hno j (by simpa [State.setDirty,hji] using hj)
    simpa [State.setDirty,BlockMap.step,h2,putBlock_of_ne _ _ hne] using hold

theorem agrees_bwrite {p : ℕ} (hc : Counted s) (ha : Agrees s m) (h : s.bwrite p = some t) :
    Agrees t m := by
  obtain ⟨i,dev,blockno,hp,rfl⟩ := bwrite_cases hc h
  obtain ⟨h1,h2,h3,h4,h5⟩ := ha.named p _ hp
  dsimp only at h1 h2 h3 h4 h5
  have hdata := (ha.valid i (h5 rfl)).2
  refine ⟨ha.uniq,ha.named,ha.valid,fun j => ?_,fun d b hd0 hno => ?_⟩
  · have := ha.dirty j
    by_cases hj : j = i <;> simp_all [State.setDirty]
  · by_cases hdb : d = dev ∧ b = blockno
    · obtain ⟨rfl,rfl⟩ := hdb
      simp [h3,h4,hdata]
    · have hold := ha.clean d b hd0 fun j hj => by
        by_cases hji : j = i
        · subst hji
          rintro ⟨rfl,rfl⟩
          exact hdb ⟨h3,h4⟩
        · exact hno j (by simpa [State.setDirty,hji] using hj)
      simpa [State.setDirty,h3,h4,putBlock_of_ne _ _ hdb] using hold

theorem step_cases {e : Event} (h : s.step e = some t) :
    s.panicked = none ∧ s.act e = some t := by
  unfold State.step at h
  split at h
  · simp at h
  · exact ⟨‹_›,h⟩

end steps

/-- One event keeps the books and the agreement with the map. -/
theorem track_step {s t : State} {m m' : BlockMap} {e : Event} (hi : Counted s ∧ Agrees s m)
    (hok : s.ok e) (h : track (s,m) e = some (t,m')) : Counted t ∧ Agrees t m' := by
  obtain ⟨hc,ha⟩ := hi
  obtain ⟨u,hu,heq⟩ := Option.map_eq_some_iff.mp h
  obtain ⟨rfl,rfl⟩ : u = t ∧ m.step e = m' := by simpa using heq
  replace hu := (step_cases hu).2
  cases e with
  | bget p dev blockno => exact ⟨counted_bget hc hok hu,agrees_bget hc ha hok hu⟩
  | acquiresleep p => exact ⟨counted_acquiresleep hc hu,agrees_acquiresleep ha hu⟩
  | bread p => exact ⟨counted_bread hc hu,agrees_bread ha hu⟩
  | store p x => exact ⟨counted_store hc hu,agrees_store hc ha hu⟩
  | bwrite p => exact ⟨counted_bwrite hc hu,agrees_bwrite hc ha hu⟩
  | releasesleep p => exact ⟨counted_releasesleep hc hu,agrees_releasesleep hc ha hok hu⟩
  | brelse p => exact ⟨counted_brelse hc hu,agrees_brelse ha hu⟩
  | bpin i =>
    obtain rfl : s.bpin i = u := by simpa [State.act] using hu
    exact ⟨counted_bpin hc hok,agrees_bpin ha i⟩
  | bunpin i =>
    obtain rfl : s.bunpin i = u := by simpa [State.act] using hu
    exact ⟨counted_bunpin hc hok,agrees_bunpin ha hok⟩

/-- Runs of the cache beside the map from `binit` on. -/
abbrev Tracks (disk : ℕ → ℕ → Block) (s : State) (m : BlockMap) : Prop :=
  Reaches track (fun sm e => sm.1.ok e) (.init disk,.init disk) (s,m)

theorem tracks_inv {disk : ℕ → ℕ → Block} {s : State} {m : BlockMap} (h : Tracks disk s m) :
    Counted s ∧ Agrees s m :=
  h.invariant (P := fun sm => Counted sm.1 ∧ Agrees sm.1 sm.2)
    ⟨counted_init disk,agrees_init disk⟩ fun _ _ _ hi hok hst => track_step hi hok hst

/-- A buffer in the hands of a holder shows what the map has for the block it asked for. -/
theorem Agrees.holding {s : State} {m : BlockMap} (ha : Agrees s m) {p : ℕ} {r : Ref}
    (hp : s.user p = some r) (hph : r.phase = .holding) :
    (r.dev,r.blockno) = m.asked p ∧ (s.cache.buf r.buf).dev = r.dev ∧
      (s.cache.buf r.buf).blockno = r.blockno ∧ (s.cache.buf r.buf).data = m.bread p := by
  obtain ⟨-,h2,h3,h4,h5⟩ := ha.named p r hp
  refine ⟨h2.symm,h3,h4,?_⟩
  rw [(ha.valid r.buf (h5 hph)).2,h3,h4,BlockMap.bread,h2]

end Bio
end Xv6
