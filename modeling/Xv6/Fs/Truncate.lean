import Xv6.Fs.BlockMap

/-! `iupdate`, `itrunc` and `iput`. -/
namespace Xv6
namespace Fs

open Prog Function Finset

/-- Between operations: the inodes on disk own the blocks in use, and the inode table
agrees with the disk. -/
structure WellFormed (sb : Superblock) (s : State) : Prop where
  owned : Owned sb s.view (dinode sb s.view)
  table : Table sb s
  agrees : ∀ i, 0 < (s.itable i).ref → Agrees sb s i

/-- The disk with inode `i` overwritten by `d`. -/
def stored (sb : Superblock) (view : ℕ → Block) (i : ℕ) (d : Dinode) : ℕ → Block :=
  update view (IBLOCK sb i) (d.write (view (IBLOCK sb i)) (dinodeOff i))

/-- The state after `iupdate(ip)`. -/
def State.updated (sb : Superblock) (s : State) (ip : Fin NINODE) : State :=
  { s with view := stored sb s.view (s.itable ip).inum (s.itable ip).d
           logged := s.logged ++ [IBLOCK sb (s.itable ip).inum] }

variable {sb : Superblock} {s t u : State} {ip : Fin NINODE} {view : ℕ → Block} {i : ℕ} {d : Dinode}

theorem iupdate_run (sb : Superblock) (s : State) (ip : Fin NINODE) :
    (iupdate sb ip).run s = .ok ((),s.updated sb ip) := rfl

@[simp] theorem State.updated_itable (sb : Superblock) (s : State) (ip : Fin NINODE) :
    (s.updated sb ip).itable = s.itable := rfl

theorem dinode_stored (hd : d.Fits) :
    dinode sb (stored sb view i d) = update (dinode sb view) i d := by
  ext1 j
  by_cases hj : j = i
  · subst hj
    rw [update_self]
    exact dinode_store_self hd j
  · rw [update_of_ne hj]
    exact dinode_store_other d hj

theorem stored_of_data (hl : sb.Layout) (hi : sb.IsInum i) {c : ℕ} (hc : sb.IsData c) :
    stored sb view i d c = view c :=
  update_of_ne (iblock_ne_data hl hi hc).symm ..

theorem inUse_stored (hl : sb.Layout) (hi : sb.IsInum i) (c : ℕ) :
    inUse sb (stored sb view i d) c = inUse sb view c := by
  refine inUse_update_of_ne _ fun heq => ?_
  have h1 := hl.iblock_lt hi
  have h2 := Superblock.Layout.le_bblock sb c
  omega

theorem Owned.stored (h : Owned sb view (update (dinode sb view) i d)) (hl : sb.Layout)
    (hi : sb.IsInum i) (hd : d.Fits) :
    Owned sb (stored sb view i d) (dinode sb (stored sb view i d)) := by
  rw [dinode_stored hd]
  exact h.store hl (iblock_off hl hi)
    (fun j hj => (iblock_ne_data hl hi (h.held.isData hj)).symm) _

theorem dinode_updated (hfits : (s.itable ip).d.Fits) :
    dinode sb (s.updated sb ip).view = current sb s ip := dinode_stored hfits

/-- Writing back a locked inode puts the state in order. -/
theorem Busy.updated (h : Busy sb s ip) (hl : sb.Layout) : WellFormed sb (s.updated sb ip) where
  owned := h.owned.stored hl h.isInum h.fits
  table := ⟨h.table.inum,h.table.unique⟩
  agrees j hj hv := by
    rw [dinode_updated h.fits]
    by_cases hji : j = ip
    · subst hji
      exact ⟨(current_self sb s j).symm,h.type⟩
    · have hne : (s.itable j).inum ≠ (s.itable ip).inum :=
        fun heq => hji (h.table.unique j ip hj h.ref heq)
      rw [State.updated_itable,current_other hne]
      exact h.others j hji hj hv

theorem WellFormed.current_eq (h : WellFormed sb s) (href : 0 < (s.itable ip).ref)
    (hv : (s.itable ip).valid = true) : current sb s ip = dinode sb s.view := by
  rw [current,(h.agrees ip href hv).1]
  exact update_eq_self ..

theorem WellFormed.busy (h : WellFormed sb s) (href : 0 < (s.itable ip).ref)
    (hv : (s.itable ip).valid = true) : Busy sb s ip where
  ref := href
  valid := hv
  fits := by
    rw [(h.agrees ip href hv).1]
    exact Dinode.fits_read ..
  type := (h.agrees ip href hv).2
  owned := by
    rw [h.current_eq href hv]
    exact h.owned
  table := h.table
  others j _ hj := h.agrees j hj

section Cut

variable {f : ℕ × ℕ → ℕ} {A : Finset ℕ} {p : ℕ}

/-- The slots `f` without the places `A` of inode `i`. -/
def cut (f : ℕ × ℕ → ℕ) (i : ℕ) (A : Finset ℕ) (σ : ℕ × ℕ) : ℕ :=
  if σ.1 = i ∧ σ.2 ∈ A then 0 else f σ

theorem cut_of_notMem (hp : p ∉ A) : cut f i A (i,p) = f (i,p) := if_neg fun h => hp h.2

theorem update_cut : update (cut f i A) (i,p) 0 = cut f i (insert p A) := by
  ext ⟨j,q⟩
  by_cases h : (j,q) = (i,p)
  · obtain ⟨rfl,rfl⟩ := Prod.mk.inj h
    rw [update_self,cut,if_pos ⟨rfl,mem_insert_self ..⟩]
  · rw [update_of_ne h]
    refine if_congr (and_congr_right fun hj => ?_) rfl rfl
    rw [mem_insert,or_iff_right fun hq => h (by simp_all)]

/-- Places that are empty anyway may be counted as cut. -/
theorem cut_union {B : Finset ℕ} (h : ∀ q ∈ B, f (i,q) = 0) : cut f i (A ∪ B) = cut f i A := by
  ext ⟨j,q⟩
  simp only [cut,mem_union]
  by_cases hj : j = i
  · subst hj
    by_cases hA : q ∈ A
    · simp [hA]
    · by_cases hB : q ∈ B
      · simp [hA,hB,h q hB]
      · simp [hA,hB]
  · simp [hj]

end Cut

/-- From `s`, the blocks at the places `A` of `ip` have been freed. -/
structure Trimmed (sb : Superblock) (ip : Fin NINODE) (s : State) (A : Finset ℕ) (t : State) :
    Prop where
  held : Held sb t.view (cut (slots sb s ip) (s.itable ip).inum A)
  data : ∀ c, sb.IsData c → t.view c = s.view c
  dinodes : ∀ i, sb.IsInum i → dinode sb t.view i = dinode sb s.view i
  spare : ∀ c, sb.size ≤ c → inUse sb t.view c = inUse sb s.view c

theorem Trimmed.congr {A : Finset ℕ} (h : Trimmed sb ip s A t) (hv : u.view = t.view) :
    Trimmed sb ip s A u := ⟨hv ▸ h.held,hv ▸ h.data,hv ▸ h.dinodes,hv ▸ h.spare⟩

theorem Trimmed.empty {A : Finset ℕ} {p : ℕ} (h : Trimmed sb ip s A t)
    (hz : slots sb s ip ((s.itable ip).inum,p) = 0) : Trimmed sb ip s (insert p A) t where
  held := by
    rw [insert_eq,union_comm,cut_union (by simpa using hz)]
    exact h.held
  data := h.data
  dinodes := h.dinodes
  spare := h.spare

/-- One more block is freed; the bit is set, so `bfree` does not panic. -/
theorem Trimmed.bfree {A : Finset ℕ} {p b : ℕ} (h : Trimmed sb ip s A t) (hl : sb.Layout)
    (hp : p ∉ A) (hb : slots sb s ip ((s.itable ip).inum,p) = b) (hne : b ≠ 0) :
    (bfree sb b).run t = .ok ((),t.release sb b) ∧
      Trimmed sb ip s (insert p A) (t.release sb b) := by
  have hcut : cut (slots sb s ip) (s.itable ip).inum A ((s.itable ip).inum,p) = b :=
    (cut_of_notMem hp).trans hb
  have hused := h.held.accounts.used_of_ne (hcut ▸ hne)
  rw [hcut] at hused
  refine ⟨bfree_run hused.2,?_,fun c hc => ?_,fun i hi => ?_,fun c hc => ?_⟩
  · rw [← update_cut]
    exact h.held.free hcut hne
  · exact (cleared_of_off hl hused.1.2 (.inr hc.1)).trans (h.data c hc)
  · exact (dinode_cleared hl hused.1.2 hi).trans (h.dinodes i hi)
  · have hcb : c ≠ b := ne_of_gt (lt_of_lt_of_le hused.1.2 hc)
    exact ((inUse_cleared c).trans (if_neg hcb)).trans (h.spare c hc)

/-- After `k` rounds of the first loop of `itrunc` from `s`. -/
structure Direct (sb : Superblock) (ip : Fin NINODE) (s : State) (k : ℕ) (t : State) : Prop where
  trimmed : Trimmed sb ip s (Finset.range k) t
  kept : Kept ip s t
  fits : (t.itable ip).d.Fits
  addr : ∀ j, (t.itable ip).d.addr j = if j < k then 0 else (s.itable ip).d.addr j

theorem truncDirect_spec (hl : sb.Layout) (hs : Busy sb s ip) {k : ℕ} (hk : k < NDIRECT)
    (h : Direct sb ip s k t) : Ends (truncDirect sb ip k) t fun _ u => Direct sb ip s (k+1) u := by
  have hat : (t.itable ip).d.addr k = (s.itable ip).d.addr k := by
    rw [h.addr,if_neg (lt_irrefl k)]
  have hslot : slots sb s ip ((s.itable ip).inum,k) = (t.itable ip).d.addr k := by
    rw [hs.slots_self,addrAt_direct hk.le,hat]
  have hrange : insert k (range k) = range (k+1) := range_add_one.symm
  unfold truncDirect
  refine ends_bind_of_run rfl ?_
  split
  · rename_i hne
    obtain ⟨hrun,htrim⟩ := h.trimmed.bfree hl notMem_range_self hslot hne
    rw [hrange] at htrim
    refine ends_bind_of_run hrun ⟨_,_,setDinode_run _ ip _,htrim.congr rfl,?_,?_,fun j => ?_⟩
    · exact h.kept.trans ((Kept.of_itable ip (State.release_itable ..)).trans (kept_setAddr _ ip k 0))
    · rw [State.edited_self]
      exact h.fits.setAddr (by norm_num) k
    · simp only [State.edited_self,State.release_itable]
      rw [Dinode.addr_setAddr _ (by omega),h.addr j]
      by_cases hj : j = k
      · simp [hj]
      · rw [if_neg hj]
        exact if_congr (by omega) rfl rfl
  · rename_i hz
    rw [not_not] at hz
    refine ends_pure ⟨hrange ▸ h.trimmed.empty (hslot.trans hz),h.kept,h.fits,fun j => ?_⟩
    rw [h.addr j]
    by_cases hj : j = k
    · subst hj
      rw [if_neg (lt_irrefl j),if_pos (Nat.lt_succ_self j),← hat,hz]
    · exact if_congr (by omega) rfl rfl

/-- The places freed after the first loop and `j` rounds of the second. -/
def entriesCut (j : ℕ) : Finset ℕ :=
  Finset.range NDIRECT ∪ Finset.Ico (NDIRECT+1) (NDIRECT+1+j)

theorem mem_entriesCut {j q : ℕ} :
    q ∈ entriesCut j ↔ q < NDIRECT ∨ NDIRECT+1 ≤ q ∧ q < NDIRECT+1+j := by
  simp [entriesCut]

theorem truncEntry_spec (hl : sb.Layout) (hs : Busy sb s ip) {ind j : ℕ}
    (hind : (s.itable ip).d.addr NDIRECT = ind) (hne : ind ≠ 0) (hj : j < NINDIRECT)
    (h : Trimmed sb ip s (entriesCut j) t) :
    Ends (truncEntry sb ind j) t fun _ u =>
      Trimmed sb ip s (entriesCut (j+1)) u ∧ u.itable = t.itable := by
  have hd : sb.IsData ind := by
    have hslot : slots sb s ip ((s.itable ip).inum,NDIRECT) = ind := by
      rw [hs.slots_self,addrAt_ndirect,hind]
    rw [← hslot] at hne ⊢
    exact hs.owned.held.isData hne
  have hslot : slots sb s ip ((s.itable ip).inum,NDIRECT+1+j) = (t.view ind).getLE (4*j) 4 := by
    rw [hs.slots_self,addrAt_entry hj (hind ▸ hne),hind,h.data ind hd]
  have hset : insert (NDIRECT+1+j) (entriesCut j) = entriesCut (j+1) := by
    ext q
    rw [mem_insert,mem_entriesCut,mem_entriesCut]
    omega
  have hnot : NDIRECT+1+j ∉ entriesCut j := by
    rw [mem_entriesCut]
    omega
  unfold truncEntry
  refine ends_bind_of_run rfl ?_
  split
  · rename_i hb
    obtain ⟨hrun,htrim⟩ := h.bfree hl hnot hslot hb
    exact ⟨_,_,hrun,hset ▸ htrim,rfl⟩
  · rename_i hz
    rw [not_not] at hz
    exact ends_pure ⟨hset ▸ h.empty (hslot.trans hz),rfl⟩

/-- All blocks of `ip` have been freed and its addresses cleared, in memory. -/
structure Bare (sb : Superblock) (ip : Fin NINODE) (s t : State) : Prop where
  trimmed : Trimmed sb ip s (Finset.range (MAXFILE+1)) t
  kept : Kept ip s t
  fits : (t.itable ip).d.Fits
  addr : ∀ j, (t.itable ip).d.addr j = 0

theorem truncIndirect_spec (hl : sb.Layout) (hs : Busy sb s ip) (h : Direct sb ip s NDIRECT t) :
    Ends (truncIndirect sb ip) t fun _ u => Bare sb ip s u := by
  have hat : (t.itable ip).d.addr NDIRECT = (s.itable ip).d.addr NDIRECT := by
    rw [h.addr,if_neg (lt_irrefl _)]
  have hstart : entriesCut 0 = range NDIRECT := by simp [entriesCut]
  unfold truncIndirect
  refine ends_bind_of_run rfl ?_
  split
  · rename_i hne
    refine Ends.bind (ends_forM_range
      (I := fun j u => Trimmed sb ip s (entriesCut j) u ∧ u.itable = t.itable)
      (fun j hj u hu => (truncEntry_spec hl hs hat.symm hne hj hu.1).mono
        fun _ v hv => ⟨hv.1,hv.2.trans hu.2⟩)
      ⟨hstart ▸ h.trimmed,rfl⟩) fun _ u hu => ?_
    have hnot : NDIRECT ∉ entriesCut NINDIRECT := by
      rw [mem_entriesCut]
      omega
    have hslot : slots sb s ip ((s.itable ip).inum,NDIRECT) = (t.itable ip).d.addr NDIRECT := by
      rw [hs.slots_self,addrAt_ndirect,hat]
    have hall : insert NDIRECT (entriesCut NINDIRECT) = range (MAXFILE+1) := by
      ext q
      rw [mem_insert,mem_entriesCut,mem_range,MAXFILE]
      omega
    obtain ⟨hrun,htrim⟩ := hu.1.bfree hl hnot hslot hne
    rw [hall] at htrim
    have hit : (u.release sb ((t.itable ip).d.addr NDIRECT)).itable = t.itable := hu.2
    refine ends_bind_of_run hrun ⟨_,_,setDinode_run _ ip _,htrim.congr rfl,?_,?_,fun j => ?_⟩
    · exact h.kept.trans ((Kept.of_itable ip hit).trans (kept_setAddr _ ip NDIRECT 0))
    · simp only [State.edited_self,State.release_itable,hu.2]
      exact h.fits.setAddr (by norm_num) _
    · simp only [State.edited_self,State.release_itable,hu.2]
      rw [Dinode.addr_setAddr _ (Nat.lt_succ_self _),h.addr j]
      by_cases hj : j < NDIRECT
      · simp [hj]
      · by_cases hj' : j = NDIRECT
        · simp [hj']
        · have hout : (s.itable ip).d.addr j = 0 := dif_neg (by omega)
          simp [hj',hout]
  · rename_i hz
    rw [not_not] at hz
    have hcut : range (MAXFILE+1) =
        range NDIRECT ∪ Ico NDIRECT (MAXFILE+1) := by
      ext q
      rw [mem_union,mem_range,mem_range,mem_Ico,MAXFILE]
      omega
    have hempty (q : ℕ) (hq : q ∈ Ico NDIRECT (MAXFILE+1)) :
        slots sb s ip ((s.itable ip).inum,q) = 0 := by
      rw [hs.slots_self,addrAt,← hat,hz]
      rw [mem_Ico] at hq
      by_cases hqn : q = NDIRECT
      · rw [if_pos hqn.le,hqn,← hat,hz]
      · rw [if_neg (by omega)]
        simp
    refine ends_pure ⟨⟨?_,h.trimmed.data,h.trimmed.dinodes,h.trimmed.spare⟩,h.kept,h.fits,fun j => ?_⟩
    · rw [hcut,cut_union hempty]
      exact h.trimmed.held
    · rw [h.addr j]
      by_cases hj : j < NDIRECT
      · rw [if_pos hj]
      · rw [if_neg hj]
        by_cases hj' : j = NDIRECT
        · rw [hj',← hat,hz]
        · exact dif_neg (by omega)

theorem addrAt_bare (hz : ∀ j, d.addr j = 0) (p : ℕ) : addrAt view d p = 0 := by
  unfold addrAt
  split
  · exact hz p
  · rw [if_neg (by simp [hz])]

theorem addrAt_of_le {p : ℕ} (hp : MAXFILE < p) : addrAt view d p = 0 := by
  unfold MAXFILE at hp
  rw [addrAt,if_neg (by omega),if_neg (by omega)]

/-- The state after the loops of `itrunc` and `ip->size = 0`. -/
def State.emptied (t : State) (ip : Fin NINODE) : State := t.edited ip fun d => { d with size := 0 }

theorem Bare.slots_eq (h : Bare sb ip s t) (hs : Busy sb s ip) :
    slots sb (t.emptied ip) ip = cut (slots sb s ip) (s.itable ip).inum (range (MAXFILE+1)) := by
  ext ⟨j,p⟩
  by_cases hj : j = (s.itable ip).inum
  · subst hj
    have hleft : slots sb (t.emptied ip) ip ((s.itable ip).inum,p) = 0 := by
      unfold slots slot
      split
      · rw [show (s.itable ip).inum = ((t.emptied ip).itable ip).inum by
          simp [State.emptied,h.kept.inum],current_self]
        exact addrAt_bare (by simpa [State.emptied,Dinode.addr] using h.addr) p
      · rfl
    rw [hleft,cut]
    split
    · rfl
    · rename_i hp
      simp only [mem_range,true_and] at hp
      rw [hs.slots_self,addrAt_of_le (by omega)]
  · rw [cut,if_neg (fun hc => hj hc.1)]
    have hj' : j ≠ ((t.emptied ip).itable ip).inum := by simpa [State.emptied,h.kept.inum] using hj
    by_cases hi : sb.IsInum j
    · have hdj : current sb (t.emptied ip) ip j = current sb s ip j := by
        rw [current_other hj',current_other hj]
        exact h.trimmed.dinodes j hi
      unfold slots slot
      simp only [hdj]
      refine ite_congr rfl (fun hc => addrAt_congr p fun hne => ?_) fun _ => rfl
      have hslot : slots sb s ip (j,NDIRECT) = (current sb s ip j).addr NDIRECT := by
        rw [slots,slot_of_alloc hc.1 hc.2,addrAt_ndirect]
      refine h.trimmed.data _ ?_
      rw [← hslot] at hne ⊢
      exact hs.owned.held.isData hne
    · unfold slots slot
      rw [if_neg (fun hc => hi hc.1),if_neg (fun hc => hi hc.1)]

theorem Bare.busy (h : Bare sb ip s t) (hs : Busy sb s ip) : Busy sb (t.emptied ip) ip := by
  have hst : Steady ip s (t.emptied ip) := h.kept.toSteady.trans (steady_edited t ip _)
  refine hs.of_owned hst ?_ ?_ h.trimmed.dinodes ⟨?_,fun i hi hti => ?_⟩
  · have hf := h.fits
    rw [State.emptied,State.edited_self]
    exact ⟨hf.type,hf.major,hf.minor,hf.nlink,by norm_num,hf.addrs⟩
  · rw [State.emptied,State.edited_self]
    change (t.itable ip).d.type ≠ 0
    rw [h.kept.type]
    exact hs.type
  · change Held sb t.view (slots sb (t.emptied ip) ip)
    rw [h.slots_eq hs]
    exact h.trimmed.held
  · by_cases hii : i = ((t.emptied ip).itable ip).inum
    · subst hii
      rw [current_self,State.emptied,State.edited_self]
      exact ⟨by simp,fun k hk => absurd hk (by simp [BSIZE])⟩
    · have hii' : i ≠ (s.itable ip).inum := hst.inum ▸ hii
      have hcur : current sb (t.emptied ip) ip i = current sb s ip i := by
        rw [current_other hii,current_other hii']
        exact h.trimmed.dinodes i hi
      rw [hcur] at hti ⊢
      obtain ⟨hle,hmap⟩ := hs.owned.sized i hi hti
      refine ⟨hle,fun k hk => ?_⟩
      have heq := congrFun (h.slots_eq hs) (i,place k)
      rw [cut,if_neg (fun hc => hii' hc.1)] at heq
      rw [slots,slot_of_alloc hi (hcur ▸ hti),hcur,slots,slot_of_alloc hi hti] at heq
      rw [show addrAt (t.emptied ip).view _ _ = _ from heq]
      exact hmap k hk

/-- What `itrunc(ip)` has done when it returns. -/
structure Truncated (sb : Superblock) (ip : Fin NINODE) (s t : State) : Prop where
  wf : WellFormed sb t
  steady : Steady ip s t
  type : (t.itable ip).d.type = (s.itable ip).d.type
  nlink : (t.itable ip).d.nlink = (s.itable ip).d.nlink
  addr : ∀ j, (t.itable ip).d.addr j = 0
  maps : slot sb t.view (dinode sb t.view) =
    cut (slots sb s ip) (s.itable ip).inum (Finset.range (MAXFILE+1))
  data : ∀ c, sb.IsData c → t.view c = s.view c
  dinodes : ∀ i, sb.IsInum i → i ≠ (s.itable ip).inum → dinode sb t.view i = dinode sb s.view i
  spare : ∀ c, sb.size ≤ c → inUse sb t.view c = inUse sb s.view c
  device : (t.itable ip).d.major = (s.itable ip).d.major ∧ (t.itable ip).d.minor = (s.itable ip).d.minor
  size : (t.itable ip).d.size = 0

theorem itrunc_spec (hl : sb.Layout) (hs : Busy sb s ip) :
    Ends (itrunc sb ip) s fun _ t => Truncated sb ip s t := by
  unfold itrunc
  have hstart : Direct sb ip s 0 s := by
    refine ⟨⟨?_,fun _ _ => rfl,fun _ _ => rfl,fun _ _ => rfl⟩,.of_itable ip rfl,hs.fits,fun j => by simp⟩
    have hcut : cut (slots sb s ip) (s.itable ip).inum (range 0) = slots sb s ip := by
      ext σ
      simp [cut]
    rw [hcut]
    exact hs.owned.held
  refine (ends_forM_range (fun k hk t ht => truncDirect_spec hl hs hk ht) hstart).bind
    fun _ t ht => ?_
  refine (truncIndirect_spec hl hs ht).bind fun _ t ht => ?_
  refine ends_bind_of_run (setDinode_run t ip _) ⟨_,_,iupdate_run ..,?_⟩
  have hb : Busy sb (t.emptied ip) ip := ht.busy hs
  have hst : Steady ip s (t.emptied ip) := ht.kept.toSteady.trans (steady_edited t ip _)
  refine ⟨hb.updated hl,⟨hst.other,hst.inum,hst.ref,hst.valid,hst.locked⟩,?_,?_,?_,?_,
    fun c hc => ?_,fun i hi hne => ?_,fun c hc => ?_,by simp [ht.kept.major,ht.kept.minor],by simp⟩
  · simp [ht.kept.type]
  · simp [ht.kept.nlink]
  · simpa [Dinode.addr] using ht.addr
  · change slot sb ((t.emptied ip).updated sb ip).view
      (dinode sb ((t.emptied ip).updated sb ip).view) = _
    rw [← ht.slots_eq hs,dinode_updated hb.fits,slots]
    exact slot_congr fun i hi => stored_of_data hl hb.isInum (hb.owned.held.isData hi)
  · exact (stored_of_data hl hb.isInum hc).trans (ht.trimmed.data c hc)
  · change dinode sb ((t.emptied ip).updated sb ip).view i = _
    rw [dinode_updated hb.fits,current_other (by rw [hst.inum]; exact hne)]
    exact ht.trimmed.dinodes i hi
  · exact (inUse_stored hl hb.isInum c).trans (ht.trimmed.spare c hc)

/-- An inode that owns nothing may be replaced by one that is free or empty. -/
theorem Owned.replace {D : ℕ → Dinode} (h : Owned sb view D)
    (hz : ∀ p, slot sb view D (i,p) = 0)
    (hd : d.type = 0 ∨ (∀ k, d.addr k = 0) ∧ d.size = 0) :
    Owned sb view (update D i d) := by
  have hslot : slot sb view (update D i d) = slot sb view D := by
    ext ⟨j,p⟩
    by_cases hj : j = i
    · subst hj
      rw [hz p,slot,update_self]
      rcases hd with ht | hbare
      · exact if_neg fun hc => hc.2 ht
      · rw [addrAt_bare hbare.1,ite_self]
    · unfold slot
      simp only [update_of_ne hj]
  constructor
  · rw [hslot]
    exact h.held
  · intro j hj htj
    by_cases hji : j = i
    · subst hji
      rw [update_self] at htj ⊢
      obtain ht | hbare := hd
      · exact absurd ht htj
      · exact ⟨by simp [hbare.2],fun k hk => absurd hk (by simp [hbare.2,BSIZE])⟩
    · rw [update_of_ne hji] at htj ⊢
      exact h.sized j hj htj

/-- A table entry may be replaced by one that meets the same demands. -/
theorem WellFormed.put (h : WellFormed sb s) {x : Inode} (hinum : 0 < x.ref → sb.IsInum x.inum)
    (huniq : 0 < x.ref → ∀ j ≠ ip, 0 < (s.itable j).ref → (s.itable j).inum ≠ x.inum)
    (hag : 0 < x.ref → x.valid = true → x.d = dinode sb s.view x.inum ∧ x.d.type ≠ 0) :
    WellFormed sb (s.put ip x) := by
  refine ⟨h.owned,⟨fun j hj => ?_,fun j k hj hk hjk => ?_⟩,fun j hj hv => ?_⟩
  · by_cases hji : j = ip
    · subst hji
      rw [s.put_self] at hj ⊢
      exact hinum hj
    · rw [s.put_other x hji] at hj ⊢
      exact h.table.inum j hj
  · by_cases hji : j = ip <;> by_cases hki : k = ip
    · rw [hji,hki]
    · rw [s.put_other x hki] at hk hjk
      rw [hji,s.put_self] at hj hjk
      exact absurd hjk.symm (huniq hj k hki hk)
    · rw [s.put_other x hji] at hj hjk
      rw [hki,s.put_self] at hk hjk
      exact absurd hjk (huniq hk j hji hj)
    · rw [s.put_other x hji] at hj hjk
      rw [s.put_other x hki] at hk hjk
      exact h.table.unique j k hj hk hjk
  · rw [s.put_view]
    by_cases hji : j = ip
    · subst hji
      rw [s.put_self] at hj hv ⊢
      exact hag hj hv
    · rw [s.put_other x hji] at hj hv ⊢
      exact h.agrees j hj hv

/-- An inode on disk that no valid table entry stands for may be overwritten. -/
theorem WellFormed.storeInode (h : WellFormed sb s) (hl : sb.Layout) (hi : sb.IsInum i)
    (hview : t.view = stored sb s.view i d) (hit : t.itable = s.itable) (hd : d.Fits)
    (hown : Owned sb s.view (update (dinode sb s.view) i d))
    (hinv : ∀ j, 0 < (s.itable j).ref → (s.itable j).valid = true → (s.itable j).inum ≠ i) :
    WellFormed sb t := by
  refine ⟨hview ▸ hown.stored hl hi hd,⟨hit ▸ h.table.inum,hit ▸ h.table.unique⟩,fun j hj hv => ?_⟩
  rw [hit] at hj hv ⊢
  rw [hview,dinode_stored hd,update_of_ne (hinv j hj hv)]
  exact h.agrees j hj hv

/-- The references to an entry may change, and it may become invalid. -/
theorem WellFormed.putSame (h : WellFormed sb s) (href : 0 < (s.itable ip).ref) {x : Inode}
    (hinum : x.inum = (s.itable ip).inum)
    (hx : x.valid = true → (s.itable ip).valid = true ∧ x.d = (s.itable ip).d) :
    WellFormed sb (s.put ip x) := by
  refine h.put (fun _ => hinum ▸ h.table.inum ip href) (fun _ j hj hjr heq => ?_) fun _ hv => ?_
  · exact hj (h.table.unique j ip hjr href (heq.trans hinum))
  · rw [(hx hv).2,hinum]
    exact h.agrees ip href (hx hv).1

/-- What the last `iput` of an inode without links has done to the disk and the inode table. -/
structure Freed (sb : Superblock) (ip : Fin NINODE) (s t : State) : Prop where
  wf : WellFormed sb t
  other : ∀ j ≠ ip, t.itable j = s.itable j
  ref : (t.itable ip).ref = (s.itable ip).ref
  locked : (t.itable ip).locked = (s.itable ip).locked
  inum : (t.itable ip).inum = (s.itable ip).inum
  valid : (t.itable ip).valid = false
  type : (dinode sb t.view (s.itable ip).inum).type = 0
  maps : ∀ σ, slot sb t.view (dinode sb t.view) σ =
    if σ.1 = (s.itable ip).inum then 0 else slot sb s.view (dinode sb s.view) σ
  data : ∀ c, sb.IsData c → t.view c = s.view c
  dinodes : ∀ i, sb.IsInum i → i ≠ (s.itable ip).inum → dinode sb t.view i = dinode sb s.view i
  spare : ∀ c, sb.size ≤ c → inUse sb t.view c = inUse sb s.view c

theorem iputFree_spec (hl : sb.Layout) (h : WellFormed sb s) (href : 0 < (s.itable ip).ref)
    (hv : (s.itable ip).valid = true) :
    Ends (iputFree sb ip) s fun _ t => Freed sb ip s t := by
  unfold iputFree
  refine (itrunc_spec hl (h.busy href hv)).bind fun _ t ht => ?_
  refine ends_bind_of_run (setDinode_run t ip _) (ends_bind_of_run (iupdate_run ..) ?_)
  have hreft : 0 < (t.itable ip).ref := ht.steady.ref ▸ href
  have hvt : (t.itable ip).valid = true := ht.steady.valid ▸ hv
  have hbt := ht.wf.busy hreft hvt
  have hf := hbt.fits
  have hfits : ({ (t.itable ip).d with type := 0 } : Dinode).Fits :=
    ⟨by norm_num,hf.major,hf.minor,hf.nlink,hf.size,hf.addrs⟩
  -- The two stores commute; with the invalidation first every state on the way is in order.
  have hinvalid : WellFormed sb (t.put ip
      ⟨(t.itable ip).inum,(t.itable ip).ref,(t.itable ip).locked,false,
        { (t.itable ip).d with type := 0 }⟩) :=
    ht.wf.putSame hreft rfl fun hc => nomatch hc
  have hview : ((t.edited ip fun d => { d with type := 0 }).updated sb ip).view =
      stored sb t.view (s.itable ip).inum { (t.itable ip).d with type := 0 } := by
    simp [State.updated,ht.steady.inum]
  have hdinode : dinode sb (stored sb t.view (s.itable ip).inum { (t.itable ip).d with type := 0 })
      = update (dinode sb t.view) (s.itable ip).inum { (t.itable ip).d with type := 0 } :=
    dinode_stored hfits
  rw [← ht.steady.inum] at hview hdinode
  refine ends_bind_of_run rfl ⟨_,_,setInode_run ..,?_,fun j hj => ?_,by simp [ht.steady.ref],
    by simp [ht.steady.locked],by simp [ht.steady.inum],by simp,?_,fun ⟨j,p⟩ => ?_,fun c hc => ?_,fun i hi hne => ?_,fun c hc => ?_⟩
  · refine hinvalid.storeInode (i := (t.itable ip).inum) hl hbt.isInum hview ?_ hfits ?_ ?_
    · simp [State.put,State.edited]
    · refine ht.wf.owned.replace (fun p => ?_) (.inl rfl)
      rw [slot,← (ht.wf.agrees ip hreft hvt).1,addrAt_bare ht.addr,ite_self]
    · intro j hj hvj heq
      by_cases hji : j = ip
      · subst hji
        simp at hvj
      · rw [t.put_other _ hji] at hj heq
        exact hji (ht.wf.table.unique j ip hj hreft heq)
  · rw [State.put_other _ _ hj,State.updated_itable,State.edited_other _ _ hj]
    exact ht.steady.other j hj
  · rw [State.put_view,hview,hdinode,ht.steady.inum,update_self]
  · rw [State.put_view,hview,hdinode]
    by_cases hj : j = (s.itable ip).inum
    · rw [if_pos hj,slot,if_neg]
      rintro ⟨-,htype⟩
      rw [ht.steady.inum,hj,update_self] at htype
      exact htype rfl
    · have hslot : slot sb t.view (dinode sb t.view) (j,p) =
          slot sb s.view (dinode sb s.view) (j,p) := by
        rw [ht.maps,cut,if_neg fun hc => hj hc.1,slots,h.current_eq href hv]
      rw [if_neg hj,← hslot]
      unfold slot
      simp only [update_of_ne (ht.steady.inum ▸ hj : j ≠ (t.itable ip).inum)]
      refine ite_congr rfl (fun hc => addrAt_congr p fun hne => ?_) fun _ => rfl
      refine stored_of_data hl hbt.isInum ?_
      have hind : slot sb t.view (dinode sb t.view) (j,NDIRECT) = (dinode sb t.view j).addr NDIRECT := by
        rw [slot_of_alloc hc.1 hc.2,addrAt_ndirect]
      rw [← hind] at hne ⊢
      exact ht.wf.owned.held.isData hne
  · rw [State.put_view,hview,stored_of_data hl hbt.isInum hc,ht.data c hc]
  · rw [State.put_view,hview,hdinode,update_of_ne (ht.steady.inum ▸ hne),ht.dinodes i hi hne]
  · rw [State.put_view,hview,inUse_stored hl hbt.isInum,ht.spare c hc]

theorem iput_spec (hl : sb.Layout) (h : WellFormed sb s) (href : 0 < (s.itable ip).ref) :
    Meets (iput sb ip) s (fun _ t => WellFormed sb t) (· = .deadlock) := by
  unfold iput
  refine meets_bind_of_run rfl ?_
  split
  · rename_i hc
    split
    · exact meets_of_error (stops_bind rfl) rfl
    · refine ((iputFree_spec hl h href hc.2.1).meets _).bind fun _ t ht => ?_
      exact meets_of_run rfl (ht.wf.putSame (ht.ref ▸ href) rfl fun hv => ⟨hv,rfl⟩)
  · exact meets_of_run rfl (h.putSame href rfl fun hv => ⟨hv,rfl⟩)

end Fs
end Xv6
