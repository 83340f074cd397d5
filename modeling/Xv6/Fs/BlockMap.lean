import Xv6.Fs.Alloc

/-! `bmap`, and what holds while an inode is being worked on.
From the first change of a locked inode until `iupdate` its in-memory copy is ahead of
the disk.  `current` are the inodes with that copy in place of the one on disk. -/
namespace Xv6
namespace Fs

open Prog Function Finset

/-- The inodes on disk, except that `ip` counts as its in-memory copy says. -/
def current (sb : Superblock) (s : State) (ip : Fin NINODE) : ℕ → Dinode :=
  update (dinode sb s.view) (s.itable ip).inum (s.itable ip).d

/-- The block maps of `current`. -/
def slots (sb : Superblock) (s : State) (ip : Fin NINODE) : ℕ × ℕ → ℕ :=
  slot sb s.view (current sb s ip)

/-- Referenced table entries name allocatable inodes, no two of them the same. -/
structure Table (sb : Superblock) (s : State) : Prop where
  inum : ∀ i, 0 < (s.itable i).ref → sb.IsInum (s.itable i).inum
  unique : ∀ i j, 0 < (s.itable i).ref → 0 < (s.itable j).ref →
    (s.itable i).inum = (s.itable j).inum → i = j

/-- A valid table entry is the allocated inode on disk. -/
def Agrees (sb : Superblock) (s : State) (i : Fin NINODE) : Prop :=
  (s.itable i).valid = true →
    (s.itable i).d = dinode sb s.view (s.itable i).inum ∧ (s.itable i).d.type ≠ 0

/-- The state with `x` as table entry `ip`. -/
def State.put (s : State) (ip : Fin NINODE) (x : Inode) : State :=
  { s with itable := update s.itable ip x }

/-- The state after a change of the on-disk fields of `ip` in memory. -/
def State.edited (s : State) (ip : Fin NINODE) (g : Dinode → Dinode) : State :=
  s.put ip { s.itable ip with d := g (s.itable ip).d }

/-- `ip` is locked and its copy may be ahead of the disk; everything else is in order. -/
structure Busy (sb : Superblock) (s : State) (ip : Fin NINODE) : Prop where
  ref : 0 < (s.itable ip).ref
  valid : (s.itable ip).valid = true
  fits : (s.itable ip).d.Fits
  type : (s.itable ip).d.type ≠ 0
  owned : Owned sb s.view (current sb s ip)
  table : Table sb s
  others : ∀ j ≠ ip, 0 < (s.itable j).ref → Agrees sb s j

/-- The inode table differs at most in the on-disk fields of `ip`. -/
structure Steady (ip : Fin NINODE) (s t : State) : Prop where
  other : ∀ j ≠ ip, t.itable j = s.itable j
  inum : (t.itable ip).inum = (s.itable ip).inum
  ref : (t.itable ip).ref = (s.itable ip).ref
  valid : (t.itable ip).valid = (s.itable ip).valid
  locked : (t.itable ip).locked = (s.itable ip).locked

/-- The inode table differs at most in the addresses of `ip`. -/
structure Kept (ip : Fin NINODE) (s t : State) : Prop extends Steady ip s t where
  type : (t.itable ip).d.type = (s.itable ip).d.type
  major : (t.itable ip).d.major = (s.itable ip).d.major
  minor : (t.itable ip).d.minor = (s.itable ip).d.minor
  nlink : (t.itable ip).d.nlink = (s.itable ip).d.nlink
  size : (t.itable ip).d.size = (s.itable ip).d.size

/-- Block maps have only gained blocks, and no owned block has changed except perhaps the
indirect block of `ip`. -/
structure Grown (sb : Superblock) (ip : Fin NINODE) (s t : State) : Prop where
  kept : Kept ip s t
  maps : ∀ σ, slots sb s ip σ ≠ 0 → slots sb t ip σ = slots sb s ip σ
  data : ∀ σ, slots sb s ip σ ≠ 0 → σ ≠ ((s.itable ip).inum,NDIRECT) →
    t.view (slots sb s ip σ) = s.view (slots sb s ip σ)
  dinodes : ∀ i, sb.IsInum i → dinode sb t.view i = dinode sb s.view i

variable {sb : Superblock} {s t u : State} {ip : Fin NINODE} {a p : ℕ}

theorem setInode_run (s : State) (ip : Fin NINODE) (x : Inode) :
    (setInode ip x).run s = .ok ((),s.put ip x) := rfl

theorem setDinode_run (s : State) (ip : Fin NINODE) (g : Dinode → Dinode) :
    (setDinode ip g).run s = .ok ((),s.edited ip g) := rfl

@[simp] theorem State.put_view (s : State) (ip : Fin NINODE) (x : Inode) :
    (s.put ip x).view = s.view := rfl

@[simp] theorem State.put_self (s : State) (ip : Fin NINODE) (x : Inode) :
    (s.put ip x).itable ip = x := update_self ..

theorem State.put_other (s : State) {ip j : Fin NINODE} (x : Inode) (hj : j ≠ ip) :
    (s.put ip x).itable j = s.itable j := update_of_ne hj ..

@[simp] theorem State.edited_view (s : State) (ip : Fin NINODE) (g : Dinode → Dinode) :
    (s.edited ip g).view = s.view := rfl

@[simp] theorem State.edited_self (s : State) (ip : Fin NINODE) (g : Dinode → Dinode) :
    (s.edited ip g).itable ip = { s.itable ip with d := g (s.itable ip).d } := s.put_self ip _

theorem State.edited_other (s : State) {ip j : Fin NINODE} (g : Dinode → Dinode) (hj : j ≠ ip) :
    (s.edited ip g).itable j = s.itable j := s.put_other _ hj

theorem Steady.trans (h : Steady ip s t) (h' : Steady ip t u) : Steady ip s u where
  other j hj := (h'.other j hj).trans (h.other j hj)
  inum := h'.inum.trans h.inum
  ref := h'.ref.trans h.ref
  valid := h'.valid.trans h.valid
  locked := h'.locked.trans h.locked

theorem steady_edited (s : State) (ip : Fin NINODE) (g : Dinode → Dinode) :
    Steady ip s (s.edited ip g) := by
  refine ⟨fun j hj => s.edited_other g hj,?_,?_,?_,?_⟩ <;> simp

theorem Kept.of_itable (ip : Fin NINODE) (h : t.itable = s.itable) : Kept ip s t := by
  refine ⟨⟨?_,?_,?_,?_,?_⟩,?_,?_,?_,?_,?_⟩ <;> simp [h]

theorem Kept.trans (h : Kept ip s t) (h' : Kept ip t u) : Kept ip s u where
  toSteady := h.toSteady.trans h'.toSteady
  type := h'.type.trans h.type
  major := h'.major.trans h.major
  minor := h'.minor.trans h.minor
  nlink := h'.nlink.trans h.nlink
  size := h'.size.trans h.size

theorem Grown.refl (sb : Superblock) (ip : Fin NINODE) (s : State) : Grown sb ip s s :=
  ⟨.of_itable ip rfl,fun _ _ => rfl,fun _ _ _ => rfl,fun _ _ => rfl⟩

theorem Grown.trans (h : Grown sb ip s t) (h' : Grown sb ip t u) : Grown sb ip s u where
  kept := h.kept.trans h'.kept
  maps σ hσ := by
    have hσt := h.maps σ hσ
    rw [h'.maps σ (hσt ▸ hσ),hσt]
  data σ hσ hne := by
    have hσt := h.maps σ hσ
    have h2 := h'.data σ (hσt ▸ hσ) (by rwa [h.kept.inum])
    rw [hσt] at h2
    rw [h2,h.data σ hσ hne]
  dinodes i hi := (h'.dinodes i hi).trans (h.dinodes i hi)

theorem current_self (sb : Superblock) (s : State) (ip : Fin NINODE) :
    current sb s ip (s.itable ip).inum = (s.itable ip).d := update_self ..

theorem current_other {i : ℕ} (h : i ≠ (s.itable ip).inum) :
    current sb s ip i = dinode sb s.view i := update_of_ne h ..

theorem Busy.isInum (h : Busy sb s ip) : sb.IsInum (s.itable ip).inum := h.table.inum ip h.ref

theorem Busy.current_type (h : Busy sb s ip) :
    (current sb s ip (s.itable ip).inum).type ≠ 0 := by
  rw [current_self]
  exact h.type

theorem Busy.slots_self (h : Busy sb s ip) (p : ℕ) :
    slots sb s ip ((s.itable ip).inum,p) = addrAt s.view (s.itable ip).d p := by
  rw [slots,slot_of_alloc h.isInum h.current_type,current_self]

/-- Block `a`, free before, now sits at the formerly empty place `p` of `ip`. -/
structure Assigned (sb : Superblock) (ip : Fin NINODE) (s t : State) (p a : ℕ) : Prop where
  isData : sb.IsData a
  free : inUse sb s.view a = false
  empty : slots sb s ip ((s.itable ip).inum,p) = 0
  bits : ∀ c < sb.size, inUse sb t.view c = if c = a then true else inUse sb s.view c
  maps : slots sb t ip = update (slots sb s ip) ((s.itable ip).inum,p) a
  data : ∀ c, sb.IsData c → c ≠ a → c ≠ (s.itable ip).d.addr NDIRECT → t.view c = s.view c
  dinodes : ∀ i, sb.IsInum i → dinode sb t.view i = dinode sb s.view i
  kept : Kept ip s t
  fits : (t.itable ip).d.Fits

theorem Assigned.maps_eq (h : Assigned sb ip s t p a) {σ : ℕ × ℕ}
    (hσ : slots sb s ip σ ≠ 0) : slots sb t ip σ = slots sb s ip σ := by
  rw [h.maps]
  exact update_of_ne (by rintro rfl; exact hσ h.empty) ..

theorem Assigned.grown (h : Assigned sb ip s t p a) (hs : Busy sb s ip) : Grown sb ip s t := by
  refine ⟨h.kept,fun σ hσ => h.maps_eq hσ,fun σ hσ hne => ?_,h.dinodes⟩
  have hheld := hs.owned.held
  have hused := hheld.accounts.used_of_ne hσ
  refine h.data _ hused.1 ?_ fun hind => ?_
  · intro heq
    have hbit := hused.2
    rw [show slot sb s.view (current sb s ip) σ = a from heq,h.free] at hbit
    cases hbit
  · refine hne (hheld.accounts.inj ?_ hσ)
    change slots sb s ip σ = slots sb s ip _
    rw [hs.slots_self,addrAt_ndirect,hind]

theorem Kept.current_type (h : Kept ip s t)
    (hd : ∀ i, sb.IsInum i → dinode sb t.view i = dinode sb s.view i) {i : ℕ} (hi : sb.IsInum i) :
    (current sb t ip i).type = (current sb s ip i).type ∧
      (current sb t ip i).size = (current sb s ip i).size := by
  by_cases hii : i = (s.itable ip).inum
  · subst hii
    rw [current_self,show current sb t ip (s.itable ip).inum = (t.itable ip).d by
      rw [← h.inum]; exact current_self sb t ip]
    exact ⟨h.type,h.size⟩
  · rw [current_other hii,current_other (h.inum ▸ hii),hd i hi]
    exact ⟨rfl,rfl⟩

theorem Steady.table (h : Steady ip s t) (ht : Table sb s) : Table sb t := by
  have hsame (j : Fin NINODE) :
      (t.itable j).ref = (s.itable j).ref ∧ (t.itable j).inum = (s.itable j).inum := by
    by_cases hj : j = ip
    · subst hj
      exact ⟨h.ref,h.inum⟩
    · rw [h.other j hj]
      exact ⟨rfl,rfl⟩
  constructor
  · intro j hj
    rw [(hsame j).2]
    exact ht.inum j ((hsame j).1 ▸ hj)
  · intro i j hi hj hij
    rw [(hsame i).2,(hsame j).2] at hij
    exact ht.unique i j ((hsame i).1 ▸ hi) ((hsame j).1 ▸ hj) hij

theorem Steady.others (h : Steady ip s t) (hs : Busy sb s ip)
    (hd : ∀ i, sb.IsInum i → dinode sb t.view i = dinode sb s.view i) :
    ∀ j ≠ ip, 0 < (t.itable j).ref → Agrees sb t j := by
  intro j hj href
  rw [h.other j hj] at href
  have hinum := hs.table.inum j href
  have hag := hs.others j hj href
  rw [Agrees,h.other j hj,hd _ hinum]
  exact hag

/-- The invariant from ownership alone, when the rest of the state is as before. -/
theorem Busy.of_owned (hs : Busy sb s ip) (hk : Steady ip s t) (hfits : (t.itable ip).d.Fits)
    (htype : (t.itable ip).d.type ≠ 0)
    (hd : ∀ i, sb.IsInum i → dinode sb t.view i = dinode sb s.view i)
    (ho : Owned sb t.view (current sb t ip)) : Busy sb t ip where
  ref := hk.ref ▸ hs.ref
  valid := hk.valid ▸ hs.valid
  fits := hfits
  type := htype
  owned := ho
  table := hk.table hs.table
  others := hk.others hs hd

theorem Assigned.busy (h : Assigned sb ip s t p a) (hl : sb.Layout) (hs : Busy sb s ip) :
    Busy sb t ip := by
  refine hs.of_owned h.kept.toSteady h.fits (h.kept.type ▸ hs.type) h.dinodes ⟨?_,fun i hi hti => ?_⟩
  · change Held sb t.view (slots sb t ip)
    rw [h.maps]
    exact hs.owned.held.take hl h.empty h.isData h.free h.bits
  · obtain ⟨htype,hsize⟩ := h.kept.current_type h.dinodes hi
    rw [htype] at hti
    obtain ⟨hle,hmap⟩ := hs.owned.sized i hi hti
    refine ⟨hsize ▸ hle,fun k hk => ?_⟩
    rw [hsize] at hk
    have hne : slots sb s ip (i,place k) ≠ 0 := by
      rw [slots,slot_of_alloc hi hti]
      exact hmap k hk
    have heq := h.maps_eq hne
    rw [slots,slot_of_alloc hi (htype ▸ hti)] at heq
    rw [heq]
    exact hne

/-- The places of `P` that are still empty. -/
def wanting (sb : Superblock) (s : State) (ip : Fin NINODE) (P : Finset ℕ) : Finset ℕ :=
  P.filter fun p => slots sb s ip ((s.itable ip).inum,p) = 0

/-- There are enough free blocks to fill the places `P`. -/
def Room (sb : Superblock) (s : State) (ip : Fin NINODE) (P : Finset ℕ) : Prop :=
  (wanting sb s ip P).card ≤ (freeBlocks sb s.view).card

/-- From `s` to `t` every place of `P` that was filled has taken a free block. -/
def Spent (sb : Superblock) (ip : Fin NINODE) (P : Finset ℕ) (s t : State) : Prop :=
  (wanting sb t ip P).card + (freeBlocks sb s.view).card =
    (wanting sb s ip P).card + (freeBlocks sb t.view).card

theorem Spent.room {P : Finset ℕ} (h : Spent sb ip P s t) (hr : Room sb s ip P) :
    Room sb t ip P := by
  unfold Room Spent at *
  omega

theorem Assigned.spent (h : Assigned sb ip s t p a) {P : Finset ℕ} (hp : p ∈ P) :
    Spent sb ip P s t := by
  have hw : wanting sb t ip P = (wanting sb s ip P).erase p := by
    ext q
    simp only [wanting,mem_erase,mem_filter,h.maps,h.kept.inum,update_apply,
      Prod.mk.injEq,true_and]
    have hne := h.isData.ne_zero
    by_cases hq : q = p <;> simp [hq,hne]
  have hmem : p ∈ wanting sb s ip P := mem_filter.mpr ⟨hp,h.empty⟩
  have h1 := card_erase_add_one hmem
  have h2 := freeBlocks_take h.isData h.free h.bits
  rw [Spent,hw]
  omega

/-- With room for an empty place the disk is not full. -/
theorem Room.not_full {P : Finset ℕ} (hr : Room sb s ip P) (hp : p ∈ P)
    (he : slots sb s ip ((s.itable ip).inum,p) = 0) :
    ¬ ∀ b < sb.size, inUse sb s.view b = true := by
  intro hfull
  have hempty : freeBlocks sb s.view = ∅ := by
    ext b
    simp only [mem_freeBlocks,notMem_empty,iff_false,not_and]
    intro hb hu
    rw [hfull b hb.2] at hu
    cases hu
  have hmem : p ∈ wanting sb s ip P := mem_filter.mpr ⟨hp,he⟩
  rw [Room,hempty,card_empty] at hr
  exact absurd (card_pos.mpr ⟨p,hmem⟩) (by omega)

/-- The blocks passed to `log_write` from `s` to `t` are blocks at the places `Q`, and the bitmap
blocks of those that had none before. -/
def Charged (sb : Superblock) (ip : Fin NINODE) (Q : Finset ℕ) (s t : State) : Prop :=
  ∃ l, t.logged = s.logged ++ l ∧ ∀ b ∈ l, ∃ p ∈ Q, ∃ a, a ≠ 0 ∧
    slots sb t ip ((s.itable ip).inum,p) = a ∧
    (b = a ∨ slots sb s ip ((s.itable ip).inum,p) = 0 ∧ b = BBLOCK sb a)

section Charged

variable {Q R : Finset ℕ}

theorem Charged.refl (sb : Superblock) (ip : Fin NINODE) (Q : Finset ℕ) (s : State) :
    Charged sb ip Q s s := ⟨[],(List.append_nil _).symm,fun _ hb => nomatch hb⟩

theorem Charged.mono (h : Charged sb ip Q s t) (hQ : Q ⊆ R) : Charged sb ip R s t := by
  obtain ⟨l,hl,hall⟩ := h
  refine ⟨l,hl,fun b hb => ?_⟩
  obtain ⟨p,hp,hrest⟩ := hall b hb
  exact ⟨p,hQ hp,hrest⟩

theorem Charged.trans (h : Charged sb ip Q s t) (h' : Charged sb ip Q t u)
    (hinum : (t.itable ip).inum = (s.itable ip).inum)
    (hst : ∀ σ, slots sb s ip σ ≠ 0 → slots sb t ip σ = slots sb s ip σ)
    (htu : ∀ σ, slots sb t ip σ ≠ 0 → slots sb u ip σ = slots sb t ip σ) :
    Charged sb ip Q s u := by
  obtain ⟨l,hl,hall⟩ := h
  obtain ⟨m,hm,hall'⟩ := h'
  refine ⟨l++m,by rw [hm,hl,List.append_assoc],fun b hb => ?_⟩
  rcases List.mem_append.mp hb with hb | hb
  · obtain ⟨p,hp,a,hne,ha,hcase⟩ := hall b hb
    refine ⟨p,hp,a,hne,?_,hcase⟩
    rw [htu _ (by rwa [ha]),ha]
  · obtain ⟨p,hp,a,hne,ha,hcase⟩ := hall' b hb
    rw [hinum] at ha hcase
    refine ⟨p,hp,a,hne,ha,hcase.imp_right fun hnew => ⟨?_,hnew.2⟩⟩
    by_contra h0
    exact h0 (hst _ h0 ▸ hnew.1)

theorem Assigned.charged (h : Assigned sb ip s t p a) (hp : p ∈ Q) {l : List ℕ}
    (hl : t.logged = s.logged++l) (hall : ∀ b ∈ l, b = a ∨ b = BBLOCK sb a ∨
      ∃ q ∈ Q, b ≠ 0 ∧ slots sb s ip ((s.itable ip).inum,q) = b) : Charged sb ip Q s t := by
  have hself : slots sb t ip ((s.itable ip).inum,p) = a := by rw [h.maps,update_self]
  refine ⟨l,hl,fun b hb => ?_⟩
  rcases hall b hb with rfl | rfl | ⟨q,hq,hne,rfl⟩
  · exact ⟨p,hp,b,h.isData.ne_zero,hself,.inl rfl⟩
  · exact ⟨p,hp,a,h.isData.ne_zero,hself,.inr ⟨h.empty,rfl⟩⟩
  · exact ⟨q,hq,_,hne,h.maps_eq hne,.inl rfl⟩

/-- The number of blocks that are logged. -/
theorem Charged.card (h : Charged sb ip Q s t) : ∃ l, t.logged = s.logged++l ∧
    l.toFinset.card ≤ Q.card+(wanting sb s ip Q).card := by
  obtain ⟨l,hl,hall⟩ := h
  let f (p : ℕ) : ℕ := slots sb t ip ((s.itable ip).inum,p)
  refine ⟨l,hl,?_⟩
  calc l.toFinset.card
      ≤ (Q.image f ∪ (wanting sb s ip Q).image fun p => BBLOCK sb (f p)).card := by
        refine card_le_card fun b hb => ?_
        obtain ⟨p,hp,a,-,rfl,hcase⟩ := hall b (List.mem_toFinset.mp hb)
        rcases hcase with rfl | ⟨h0,rfl⟩
        · exact mem_union_left _ (mem_image_of_mem f hp)
        · exact mem_union_right _ (mem_image_of_mem (fun p => BBLOCK sb (f p))
            (mem_filter.mpr ⟨hp,h0⟩))
    _ ≤ (Q.image f).card+((wanting sb s ip Q).image fun p => BBLOCK sb (f p)).card :=
        card_union_le ..
    _ ≤ Q.card+(wanting sb s ip Q).card := Nat.add_le_add card_image_le card_image_le

end Charged

/-- The outcome of finding or making the block at place `p` by filling some of the places
`Q`: zero only when the disk is full. -/
structure Placed (sb : Superblock) (ip : Fin NINODE) (s : State) (Q : Finset ℕ) (p a : ℕ)
    (t : State) : Prop where
  busy : Busy sb t ip
  grown : Grown sb ip s t
  addr : a ≠ 0 → slots sb t ip ((s.itable ip).inum,p) = a
  room : ∀ P, Q ⊆ P → Room sb s ip P → a ≠ 0 ∧ Room sb t ip P
  charged : Charged sb ip Q s t

theorem placed_full {Q : Finset ℕ} (hs : Busy sb s ip)
    (he : slots sb s ip ((s.itable ip).inum,p) = 0) (hp : p ∈ Q)
    (hfull : ∀ b < sb.size, inUse sb s.view b = true) : Placed sb ip s Q p 0 s where
  busy := hs
  grown := .refl sb ip s
  addr h := absurd rfl h
  room _ hQ hr := absurd hfull (hr.not_full (hQ hp) he)
  charged := .refl sb ip Q s

theorem placed_present {Q : Finset ℕ} (hs : Busy sb s ip)
    (ha : slots sb s ip ((s.itable ip).inum,p) = a) (hne : a ≠ 0) : Placed sb ip s Q p a s where
  busy := hs
  grown := .refl sb ip s
  addr _ := ha
  room _ _ hr := ⟨hne,hr⟩
  charged := .refl sb ip Q s

theorem Assigned.placed {Q : Finset ℕ} (h : Assigned sb ip s t p a) (hl : sb.Layout)
    (hs : Busy sb s ip) (hp : p ∈ Q) (hc : Charged sb ip Q s t) : Placed sb ip s Q p a t where
  busy := h.busy hl hs
  grown := h.grown hs
  addr _ := by rw [h.maps,update_self]
  room _ hQ hr := ⟨h.isData.ne_zero,(h.spent (hQ hp)).room hr⟩
  charged := hc

theorem slot_granted {D : ℕ → Dinode} (hl : sb.Layout) (h : Held sb s.view (slot sb s.view D))
    (ha : sb.IsData a) (hfree : inUse sb s.view a = false) :
    slot sb (granted sb s.view a) D = slot sb s.view D := by
  refine slot_congr fun i hi => granted_of_off hl ha.2 (.inr (h.isData hi).1) ?_
  rintro heq
  have hbit := (h.accounts.used_of_ne hi).2
  rw [heq,hfree] at hbit
  cases hbit

theorem Dinode.Fits.setAddr {d : Dinode} (h : d.Fits) {a : ℕ} (ha : a < 2^32) (k : ℕ) :
    (d.setAddr k a).Fits where
  type := h.type
  major := h.major
  minor := h.minor
  nlink := h.nlink
  size := h.size
  addrs i := by
    simp only [Dinode.setAddr]
    split
    · exact ha
    · exact h.addrs i

theorem kept_setAddr (s : State) (ip : Fin NINODE) (k a : ℕ) :
    Kept ip s (s.edited ip fun d => d.setAddr k a) := by
  refine ⟨steady_edited s ip _,?_,?_,?_,?_,?_⟩ <;> simp [Dinode.setAddr]

theorem current_edited (s : State) (ip : Fin NINODE) (g : Dinode → Dinode) :
    current sb (s.edited ip g) ip = update (current sb s ip) (s.itable ip).inum
      (g (current sb s ip (s.itable ip).inum)) := by
  simp [current]

theorem current_congr (hit : t.itable = s.itable)
    (hd : ∀ i, sb.IsInum i → dinode sb t.view i = dinode sb s.view i) {i : ℕ}
    (hi : sb.IsInum i) : current sb t ip i = current sb s ip i := by
  rw [current,current,hit,update_apply,update_apply,hd i hi]

theorem assigned_addr (hl : sb.Layout) (hs : Busy sb s ip) {k : ℕ} (hk : k ≤ NDIRECT)
    (hz : (s.itable ip).d.addr k = 0) (ha : sb.IsData a) (hfree : inUse sb s.view a = false) :
    Assigned sb ip s ((s.grant sb a).edited ip fun d => d.setAddr k a) k a where
  isData := ha
  free := hfree
  empty := by rw [hs.slots_self,addrAt_direct hk,hz]
  bits c hc := inUse_granted hl ha hc
  maps := by
    have hcur : slot sb (granted sb s.view a)
          (current sb ((s.grant sb a).edited ip fun d => d.setAddr k a) ip) =
        slot sb (granted sb s.view a) (update (current sb s ip) (s.itable ip).inum
          ((current sb s ip (s.itable ip).inum).setAddr k a)) := by
      refine slot_congr_inodes fun i hi => ?_
      have hsame {j : ℕ} (hj : sb.IsInum j) :
          current sb (s.grant sb a) ip j = current sb s ip j :=
        current_congr (State.grant_itable sb s a) (fun _ => dinode_granted hl ha) hj
      rw [current_edited,update_apply,update_apply,hsame hi]
      change (if i = (s.itable ip).inum then
        (current sb (s.grant sb a) ip (s.itable ip).inum).setAddr k a else _) = _
      rw [hsame hs.isInum]
    change slot sb (granted sb s.view a) _ = _
    rw [hcur,slot_setAddr hs.isInum hs.current_type hk,slot_granted hl hs.owned.held ha hfree]
    · rfl
    · rintro rfl
      rw [current_self]
      exact ⟨hz,granted_self ..⟩
  data c hc hne _ := granted_of_off hl ha.2 (.inr hc.1) hne
  dinodes i hi := dinode_granted hl ha hi
  kept := (Kept.of_itable ip (State.grant_itable sb s a)).trans (kept_setAddr ..)
  fits := by
    have hlt := ha.2
    have hsm := hl.small
    have hset : (((s.grant sb a).edited ip fun d => d.setAddr k a).itable ip).d =
        (s.itable ip).d.setAddr k a := by simp
    rw [hset]
    exact hs.fits.setAddr (by omega) k

/-- The state after `a[j] = a` in the indirect block `ind` and its `log_write`. -/
def State.withEntry (s : State) (ind j a : ℕ) : State :=
  { s with view := update s.view ind ((s.view ind).setLE (4*j) 4 a)
           logged := s.logged ++ [ind] }

@[simp] theorem State.withEntry_itable (s : State) (ind j a : ℕ) :
    (s.withEntry ind j a).itable = s.itable := rfl

theorem assigned_entry (hl : sb.Layout) (hs : Busy sb s ip) {ind j : ℕ}
    (hind : (s.itable ip).d.addr NDIRECT = ind) (hne : ind ≠ 0) (hj : j < NINDIRECT)
    (hz : (s.view ind).getLE (4*j) 4 = 0) (ha : sb.IsData a) (hfree : inUse sb s.view a = false) :
    Assigned sb ip s ((s.grant sb a).withEntry ind j a) (NDIRECT+1+j) a := by
  subst hind
  have hheld := hs.owned.held
  have hslot : slots sb s ip ((s.itable ip).inum,NDIRECT) = (s.itable ip).d.addr NDIRECT := by
    rw [hs.slots_self,addrAt_ndirect]
  have hindData : sb.IsData ((s.itable ip).d.addr NDIRECT) := by
    rw [← hslot] at hne ⊢
    exact hheld.isData hne
  have hview : slot sb (granted sb s.view a) (current sb s ip) = slots sb s ip :=
    slot_granted hl hheld ha hfree
  have hd (i : ℕ) (hi : sb.IsInum i) :
      dinode sb ((s.grant sb a).withEntry ((s.itable ip).d.addr NDIRECT) j a).view i =
        dinode sb s.view i :=
    (dinode_update_of_ne _ (iblock_ne_data hl hi hindData)).trans (dinode_granted hl ha hi)
  have hit : ((s.grant sb a).withEntry ((s.itable ip).d.addr NDIRECT) j a).itable = s.itable := by
    simp
  have hsm := hl.small
  have hlt := ha.2
  refine ⟨ha,hfree,?_,fun c hc => ?_,?_,fun c hc hca hci => ?_,hd,.of_itable ip hit,?_⟩
  · rw [hs.slots_self,addrAt_entry hj hne,hz]
  · change inUse sb (update (granted sb s.view a) _ _) c = _
    rw [inUse_update_of_ne _ (OffBitmap.ne_bblock (.inr hindData.1) hl hc)]
    exact inUse_granted hl ha hc
  · have hinj (l : ℕ) (heq : slot sb (granted sb s.view a) (current sb s ip) (l,NDIRECT) =
        (current sb s ip (s.itable ip).inum).addr NDIRECT) : l = (s.itable ip).inum := by
      rw [hview,current_self,← hslot] at heq
      have hl0 : slots sb s ip (l,NDIRECT) ≠ 0 := by
        rw [heq,hslot]
        exact hne
      exact congrArg Prod.fst (hheld.accounts.inj heq hl0)
    have hset := slot_setEntry hs.isInum hs.current_type hj (by rwa [current_self])
      (show a < 2^32 by omega) hinj
    rw [current_self,hview] at hset
    exact (slot_congr_inodes fun i hi => current_congr hit hd hi).trans hset
  · change update (granted sb s.view a) _ _ c = _
    rw [update_of_ne hci,granted_of_off hl ha.2 (.inr hc.1) hca]
  · rw [hit]
    exact hs.fits

theorem addrOrAlloc_spec (hl : sb.Layout) (hs : Busy sb s ip) {k : ℕ} (hk : k ≤ NDIRECT) :
    Ends (addrOrAlloc sb ip k) s (Placed sb ip s {k} k) := by
  have hslot : slots sb s ip ((s.itable ip).inum,k) = (s.itable ip).d.addr k := by
    rw [hs.slots_self,addrAt_direct hk]
  unfold addrOrAlloc
  refine ends_bind_of_run rfl ?_
  split
  · rename_i hz
    refine (balloc_spec sb s).bind ?_
    rintro a t (⟨rfl,rfl,hfull⟩ | ⟨ha,hfree,rfl⟩)
    · exact ends_pure (placed_full hs (hslot.trans hz) (mem_singleton_self k) hfull)
    · have hd := hs.owned.held.isData_of_free ha hfree
      rw [if_neg hd.ne_zero]
      have h := assigned_addr hl hs hk hz hd hfree
      have hk := mem_singleton_self k
      refine ⟨_,_,rfl,h.placed hl hs hk (h.charged hk (l := [BBLOCK sb a,a]) ?_ ?_)⟩
      · exact List.append_assoc ..
      · simp
  · rename_i hne
    exact ends_pure (placed_present hs hslot hne)

theorem entryOrAlloc_spec (hl : sb.Layout) (hs : Busy sb s ip) {ind j : ℕ}
    (hind : (s.itable ip).d.addr NDIRECT = ind) (hne : ind ≠ 0) (hj : j < NINDIRECT) :
    Ends (entryOrAlloc sb ind j) s
      (Placed sb ip s ({NDIRECT} ∪ {NDIRECT+1+j}) (NDIRECT+1+j)) := by
  have hmem : NDIRECT+1+j ∈ ({NDIRECT} ∪ {NDIRECT+1+j} : Finset ℕ) := by simp
  have hslot : slots sb s ip ((s.itable ip).inum,NDIRECT+1+j) = (s.view ind).getLE (4*j) 4 := by
    rw [hs.slots_self,addrAt_entry hj (hind ▸ hne),hind]
  unfold entryOrAlloc
  refine ends_bind_of_run rfl ?_
  split
  · rename_i hz
    refine (balloc_spec sb s).bind ?_
    rintro a t (⟨rfl,rfl,hfull⟩ | ⟨ha,hfree,rfl⟩)
    · exact ends_pure (placed_full hs (hslot.trans hz) hmem hfull)
    · have hd := hs.owned.held.isData_of_free ha hfree
      rw [if_neg hd.ne_zero]
      have h := assigned_entry hl hs hind hne hj hz hd hfree
      refine ⟨_,_,rfl,h.placed hl hs hmem (h.charged hmem (l := [BBLOCK sb a,a,ind]) ?_ ?_)⟩
      · simp [State.grant,State.withEntry]
      · have hown : slots sb s ip ((s.itable ip).inum,NDIRECT) = ind := by
          rw [hs.slots_self,addrAt_ndirect,hind]
        simp [hne,hown]
  · rename_i hne'
    exact ends_pure (placed_present hs hslot hne')

theorem Placed.then {Q R : Finset ℕ} {q b : ℕ} (h : Placed sb ip s Q p a t)
    (h' : Placed sb ip t R q b u) : Placed sb ip s (Q ∪ R) q b u where
  busy := h'.busy
  grown := h.grown.trans h'.grown
  addr hb := h.grown.kept.inum ▸ h'.addr hb
  room P hP hr := by
    obtain ⟨hQ,hR⟩ := union_subset_iff.mp hP
    exact h'.room P hR (h.room P hQ hr).2
  charged := (h.charged.mono subset_union_left).trans
    (h'.charged.mono subset_union_right) h.grown.kept.inum h.grown.maps h'.grown.maps

/-- The places `bmap` may have to fill for file block `bn`. -/
def bmapPlaces (bn : ℕ) : Finset ℕ := if bn < NDIRECT then {bn} else {NDIRECT} ∪ {bn+1}

theorem bmap_spec (hl : sb.Layout) (hs : Busy sb s ip) {bn : ℕ} (hbn : bn < MAXFILE) :
    Ends (bmap sb ip bn) s (Placed sb ip s (bmapPlaces bn) (place bn)) := by
  unfold bmap bmapPlaces place
  by_cases hd : bn < NDIRECT
  · simp only [if_pos hd]
    exact addrOrAlloc_spec hl hs hd.le
  · have hj : bn-NDIRECT < NINDIRECT := by
      unfold MAXFILE at hbn
      omega
    have hp : NDIRECT+1+(bn-NDIRECT) = bn+1 := by omega
    simp only [if_neg hd,if_pos hj]
    refine (addrOrAlloc_spec hl hs le_rfl).bind fun a t ht => ?_
    by_cases ha : a = 0
    · subst ha
      refine ends_pure ⟨ht.busy,ht.grown,fun h => absurd rfl h,fun P hP hr => ?_,
        ht.charged.mono subset_union_left⟩
      exact absurd rfl (ht.room P (union_subset_iff.mp hP).1 hr).1
    · rw [if_neg ha]
      have hind : (t.itable ip).d.addr NDIRECT = a := by
        rw [← addrAt_ndirect t.view,← ht.busy.slots_self,ht.grown.kept.inum]
        exact ht.addr ha
      refine (entryOrAlloc_spec hl ht.busy hind ha hj).mono fun b u hu => ?_
      have hboth := ht.then hu
      rwa [hp,← union_assoc,union_self] at hboth

theorem addrOrAlloc_present {k : ℕ} (h : (s.itable ip).d.addr k ≠ 0) :
    (addrOrAlloc sb ip k).run s = .ok ((s.itable ip).d.addr k,s) := by
  unfold addrOrAlloc
  rw [run_bind_of_run (a := s.itable ip) (t := s) rfl,if_neg h]
  rfl

theorem entryOrAlloc_present {ind j : ℕ} (h : (s.view ind).getLE (4*j) 4 ≠ 0) :
    (entryOrAlloc sb ind j).run s = .ok ((s.view ind).getLE (4*j) 4,s) := by
  unfold entryOrAlloc
  rw [run_bind_of_run (a := s.view ind) (t := s) rfl,if_neg h]
  rfl

/-- A block that has an address is found without any change of state. -/
theorem bmap_present {bn : ℕ} (hbn : bn < MAXFILE)
    (h : addrAt s.view (s.itable ip).d (place bn) ≠ 0) :
    (bmap sb ip bn).run s = .ok (addrAt s.view (s.itable ip).d (place bn),s) := by
  unfold bmap
  by_cases hd : bn < NDIRECT
  · have hp : place bn = bn := if_pos hd
    rw [hp,addrAt_direct hd.le] at h ⊢
    rw [if_pos hd]
    exact addrOrAlloc_present h
  · have hj : bn-NDIRECT < NINDIRECT := by
      unfold MAXFILE at hbn
      omega
    have hp : place bn = NDIRECT+1+(bn-NDIRECT) := by
      rw [place,if_neg hd]
      omega
    have hind : (s.itable ip).d.addr NDIRECT ≠ 0 := by
      intro h0
      rw [hp,addrAt,if_neg (by omega),if_neg (by simp [h0])] at h
      exact h rfl
    rw [hp,addrAt_entry hj hind] at h ⊢
    rw [if_neg hd,if_pos hj,run_bind_of_run (addrOrAlloc_present hind),if_neg hind]
    exact entryOrAlloc_present h

/-- A block that has an address needs no other. -/
theorem Busy.wanting_mapped (hs : Busy sb s ip) {bn : ℕ}
    (hne : slots sb s ip ((s.itable ip).inum,place bn) ≠ 0) :
    wanting sb s ip (bmapPlaces bn) = ∅ := by
  refine filter_eq_empty_iff.mpr fun p hp => ?_
  rw [hs.slots_self] at hne ⊢
  unfold bmapPlaces at hp
  unfold place at hne
  split at hp
  · rename_i hd
    rw [if_pos hd] at hne
    rwa [mem_singleton.mp hp]
  · rename_i hd
    rw [if_neg hd] at hne
    rcases mem_union.mp hp with hp | hp
    · rw [mem_singleton.mp hp,addrAt_ndirect]
      intro h0
      exact hne (by rw [addrAt,if_neg (by omega),if_neg fun h => h.2 h0])
    · rwa [mem_singleton.mp hp]

theorem Busy.room_of_mapped (hs : Busy sb s ip) {bn : ℕ}
    (hne : slots sb s ip ((s.itable ip).inum,place bn) ≠ 0) : Room sb s ip (bmapPlaces bn) := by
  rw [Room,hs.wanting_mapped hne]
  exact Nat.zero_le _

end Fs
end Xv6
