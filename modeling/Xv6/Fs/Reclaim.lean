import Xv6.Fs.File
import Xv6.Fs.Invariant

/-! `ireclaim`: at boot the inodes that lost their last name before a crash are freed. -/
namespace Xv6
namespace Fs

open Prog

/-- One round of `ireclaim`; each iput runs in a transaction of its own. -/
def reclaimInode (sb : Superblock) (inum : ℕ) : Op Unit := do
  let x ← bread (IBLOCK sb inum)
  let d := Dinode.read x (dinodeOff inum)
  if d.type ≠ 0 ∧ d.nlink = 0 then do
    let ip ← iget inum
    ilock sb ip
    iunlock ip
    iput sb ip
  else pure ()

def ireclaim (sb : Superblock) : Op Unit :=
  (List.range' 1 (sb.ninodes-1)).forM (reclaimInode sb)

/-- An inode in use that has no name. -/
def Orphan (sb : Superblock) (view : ℕ → Block) (i : ℕ) : Prop :=
  sb.IsInum i ∧ (dinode sb view i).type ≠ 0 ∧ (dinode sb view i).nlink = 0

/-- Block `b` is a data block or the indirect block of inode `i`. -/
def HasBlock (sb : Superblock) (view : ℕ → Block) (i b : ℕ) : Prop :=
  b ≠ 0 ∧ ∃ p, slot sb view (dinode sb view) (i,p) = b

/-- The inode table at boot: nothing is referenced or locked. -/
def Unreferenced (s : State) : Prop := ∀ i, (s.itable i).ref = 0 ∧ (s.itable i).locked = false

variable {sb : Superblock} {s t : State} {ip : Fin NINODE} {inum : ℕ}

theorem State.put_put (s : State) (ip : Fin NINODE) (x y : Inode) :
    (s.put ip x).put ip y = s.put ip y := by
  simp [State.put]

/-- In an unused table, `iget` and `ilock` load the inode from disk. -/
theorem Unreferenced.opened (hs : Unreferenced s) (ht : (dinode sb s.view inum).type ≠ 0) :
    ∃ ip x, (iget inum).run s = .ok (ip,s.put ip x) ∧
      (ilock sb ip).run (s.put ip x) =
        .ok ((),s.put ip ⟨inum,1,true,true,dinode sb s.view inum⟩) := by
  have hfind : s.findEntry inum = none := List.find?_eq_none.mpr fun i _ => by
    simp [(hs i).1]
  obtain ⟨ip,hempty⟩ : ∃ ip, s.emptyEntry = some ip := by
    refine Option.isSome_iff_exists.mp (List.find?_isSome.mpr ⟨0,List.mem_finRange 0,?_⟩)
    simp [(hs 0).1]
  let x : Inode := { s.itable ip with inum := inum, ref := 1, valid := false }
  refine ⟨ip,x,?_,?_⟩
  · unfold iget
    rw [run_bind_of_run (show (get : Op State).run s = .ok (s,s) from rfl)]
    simp only [hfind,hempty]
    rfl
  · unfold ilock
    rw [run_bind_of_run (show (inode ip).run (s.put ip x) = .ok (x,s.put ip x) by
      simp [inode,StateT.run])]
    have hx : x.locked = false := (hs ip).2
    rw [if_neg (by simp [x]),if_neg (by simp [hx]),if_neg (by simp [x]),run_bind_of_run rfl,
      run_bind_of_run (setInode_run ..),State.put_put,if_neg]
    · rfl
    · exact ht

theorem Unreferenced.load (hs : Unreferenced s) (ht : (dinode sb s.view inum).type ≠ 0) :
    ∃ ip, ∀ {Q : Unit → State → Prop},
      Ends (iput sb ip) (s.put ip ⟨inum,1,false,true,dinode sb s.view inum⟩) Q →
      Ends (do let ip ← iget inum; ilock sb ip; iunlock ip; iput sb ip) s Q := by
  obtain ⟨ip,x,hget,hlock⟩ := hs.opened ht
  refine ⟨ip,fun {Q} hend => ends_bind_of_run hget (ends_bind_of_run hlock ?_)⟩
  have hunlock : (iunlock ip).run (s.put ip ⟨inum,1,true,true,dinode sb s.view inum⟩) =
      .ok ((),s.put ip ⟨inum,1,false,true,dinode sb s.view inum⟩) := by
    unfold iunlock
    rw [run_bind_of_run (show (inode ip).run (s.put ip _) = .ok (_,s.put ip _) from rfl),
      State.put_self,if_neg (by simp),setInode_run,State.put_put]
  exact ends_bind_of_run hunlock hend

/-- What a round of `ireclaim` does for an orphan. -/
structure Cleared (sb : Superblock) (inum : ℕ) (s t : State) : Prop where
  wf : WellFormed sb t
  unreferenced : Unreferenced t
  type : (dinode sb t.view inum).type = 0
  maps : ∀ σ, slot sb t.view (dinode sb t.view) σ =
    if σ.1 = inum then 0 else slot sb s.view (dinode sb s.view) σ
  data : ∀ c, sb.IsData c → t.view c = s.view c
  dinodes : ∀ i, sb.IsInum i → i ≠ inum → dinode sb t.view i = dinode sb s.view i
  spare : ∀ c, sb.size ≤ c → inUse sb t.view c = inUse sb s.view c

theorem reclaimInode_orphan (hl : sb.Layout) (h : WellFormed sb s) (hs : Unreferenced s)
    (ho : Orphan sb s.view inum) :
    Ends (reclaimInode sb inum) s fun _ t => Cleared sb inum s t := by
  obtain ⟨hi,ht,hn⟩ := ho
  unfold reclaimInode
  refine ends_bind_of_run rfl ?_
  rw [if_pos ⟨ht,hn⟩]
  obtain ⟨ip,hload⟩ := hs.load ht
  refine hload ?_
  have hwf : WellFormed sb (s.put ip ⟨inum,1,false,true,dinode sb s.view inum⟩) :=
    h.put (fun _ => hi) (fun _ j _ hj => absurd hj (by simp [(hs j).1])) fun _ _ => ⟨rfl,ht⟩
  unfold iput
  refine ends_bind_of_run (show (inode ip).run (s.put ip _) = .ok (_,s.put ip _) from rfl) ?_
  rw [State.put_self,if_pos ⟨rfl,rfl,hn⟩,if_neg (by simp)]
  refine (iputFree_spec hl hwf (by simp) (by simp)).bind fun _ t hfree => ?_
  have hinum : ((s.put ip ⟨inum,1,false,true,dinode sb s.view inum⟩).itable ip).inum = inum := by
    rw [State.put_self]
  have hmaps := hfree.maps
  have hother := hfree.other
  have htype := hfree.type
  have hdin := hfree.dinodes
  rw [hinum] at hmaps htype hdin
  have href : (t.itable ip).ref = 1 := hfree.ref.trans (by rw [State.put_self])
  refine ends_bind_of_run rfl ⟨_,_,setInode_run ..,?_,fun j => ?_,htype,hmaps,hfree.data,hdin,
    hfree.spare⟩
  · exact hfree.wf.putSame (by omega) rfl fun hv => ⟨hv,rfl⟩
  · by_cases hj : j = ip
    · subst hj
      rw [State.put_self]
      exact ⟨by simp [href],hfree.locked.trans (by rw [State.put_self])⟩
    · rw [State.put_other _ _ hj,hother j hj,State.put_other _ _ hj]
      exact hs j

theorem reclaimInode_named (ho : ¬ Orphan sb s.view inum) (hi : sb.IsInum inum) :
    (reclaimInode sb inum).run s = .ok ((),s) := by
  unfold reclaimInode
  rw [run_bind_of_run rfl]
  dsimp only
  split
  · rename_i hc
    exact absurd ⟨hi,hc⟩ ho
  · rfl

/-- After the rounds for the inodes below `k`. -/
structure ReclaimedBelow (sb : Superblock) (s : State) (k : ℕ) (t : State) : Prop where
  wf : WellFormed sb t
  unreferenced : Unreferenced t
  type : ∀ i < k, Orphan sb s.view i → (dinode sb t.view i).type = 0
  maps : ∀ i p, (slot sb t.view (dinode sb t.view) (i,p) = 0 ∧ i < k ∧ Orphan sb s.view i) ∨
    (slot sb t.view (dinode sb t.view) (i,p) = slot sb s.view (dinode sb s.view) (i,p) ∧
      ¬ (i < k ∧ Orphan sb s.view i))
  data : ∀ c, sb.IsData c → t.view c = s.view c
  dinodes : ∀ i, sb.IsInum i → ¬ (i < k ∧ Orphan sb s.view i) →
    dinode sb t.view i = dinode sb s.view i
  spare : ∀ c, sb.size ≤ c → inUse sb t.view c = inUse sb s.view c

theorem ReclaimedBelow.start (h : WellFormed sb s) (hs : Unreferenced s) :
    ReclaimedBelow sb s 1 s := by
  have hnone (i : ℕ) : ¬ (i < 1 ∧ Orphan sb s.view i) := fun ⟨hlt,ho⟩ => by
    have := ho.1.1
    omega
  exact ⟨h,hs,fun i hlt ho => absurd ⟨hlt,ho⟩ (hnone i),fun i p => .inr ⟨rfl,hnone i⟩,
    fun _ _ => rfl,fun _ _ _ => rfl,fun _ _ => rfl⟩

theorem ReclaimedBelow.round (hl : sb.Layout) {k : ℕ} (h : ReclaimedBelow sb s k t)
    (hk : sb.IsInum k) :
    Ends (reclaimInode sb k) t fun _ u => ReclaimedBelow sb s (k+1) u := by
  have hsame : dinode sb t.view k = dinode sb s.view k := h.dinodes k hk (by omega)
  have horphan : Orphan sb t.view k ↔ Orphan sb s.view k := by
    rw [Orphan,Orphan,hsame]
  have hsplit (i : ℕ) : (i < k+1 ∧ Orphan sb s.view i) ↔
      (i < k ∧ Orphan sb s.view i) ∨ (i = k ∧ Orphan sb s.view k) := by
    constructor
    · rintro ⟨hlt,ho⟩
      rcases Nat.lt_succ_iff_lt_or_eq.mp hlt with hlt | rfl
      · exact .inl ⟨hlt,ho⟩
      · exact .inr ⟨rfl,ho⟩
    · rintro (⟨hlt,ho⟩ | ⟨rfl,ho⟩)
      · exact ⟨by omega,ho⟩
      · exact ⟨by omega,ho⟩
  by_cases ho : Orphan sb s.view k
  · refine (reclaimInode_orphan hl h.wf h.unreferenced (horphan.mpr ho)).mono fun _ u hu => ?_
    refine ⟨hu.wf,hu.unreferenced,fun i hi hoi => ?_,fun i p => ?_,
      fun c hc => (hu.data c hc).trans (h.data c hc),fun i hi hno => ?_,
      fun c hc => (hu.spare c hc).trans (h.spare c hc)⟩
    · by_cases hik : i = k
      · rw [hik]
        exact hu.type
      · rw [hu.dinodes i hoi.1 hik]
        exact h.type i (by omega) hoi
    · rw [hsplit,hu.maps]
      by_cases hik : i = k
      · subst hik
        exact .inl ⟨if_pos rfl,.inr ⟨rfl,ho⟩⟩
      · rw [if_neg hik]
        simpa [hik] using h.maps i p
    · rw [hsplit] at hno
      rw [hu.dinodes i hi fun hik => hno (.inr ⟨hik,ho⟩)]
      exact h.dinodes i hi fun hc => hno (.inl hc)
  · have hiff (i : ℕ) : (i < k+1 ∧ Orphan sb s.view i) ↔ (i < k ∧ Orphan sb s.view i) := by
      rw [hsplit]
      simp [ho]
    refine ⟨_,_,reclaimInode_named (fun hc => ho (horphan.mp hc)) hk,?_⟩
    exact ⟨h.wf,h.unreferenced,fun i hi hoi => h.type i ((hiff i).mp ⟨hi,hoi⟩).1 hoi,
      fun i p => by rw [hiff]; exact h.maps i p,h.data,
      fun i hi hno => h.dinodes i hi fun hc => hno ((hiff i).mpr hc),h.spare⟩

/-- The effect of `ireclaim`: the orphans of `s` are gone in `t`, and nothing else is. -/
structure Reclaimed (sb : Superblock) (s t : State) : Prop where
  none : ∀ i, ¬ Orphan sb t.view i
  freed : ∀ i b, Orphan sb s.view i → HasBlock sb s.view i b → inUse sb t.view b = false
  bits : ∀ b, (∀ i, Orphan sb s.view i → ¬ HasBlock sb s.view i b) →
    inUse sb t.view b = inUse sb s.view b
  dinodes : ∀ i, sb.IsInum i → ¬ Orphan sb s.view i → dinode sb t.view i = dinode sb s.view i
  maps : ∀ i p, sb.IsInum i → ¬ Orphan sb s.view i → (dinode sb s.view i).type ≠ 0 →
    addrAt t.view (dinode sb t.view i) p = addrAt s.view (dinode sb s.view i) p
  bytes : ∀ i, sb.IsInum i → ¬ Orphan sb s.view i → (dinode sb s.view i).type ≠ 0 →
    ∀ j < (dinode sb s.view i).size,
      fileByte t.view (dinode sb t.view i) j = fileByte s.view (dinode sb s.view i) j
  unreferenced : ∀ i, (t.itable i).ref = 0

/-- The bitmap is settled by the slots: metadata is in use, a data block is if it has an owner. -/
theorem WellFormed.inUse_iff (h : WellFormed sb s) {b : ℕ} (hb : sb.IsData b) :
    inUse sb s.view b = true ↔ ∃ σ, slot sb s.view (dinode sb s.view) σ = b := by
  rw [← h.owned.held.accounts.used_iff b hb.ne_zero]
  simp [hb]

theorem ReclaimedBelow.reclaimed (hs : WellFormed sb s) {k : ℕ}
    (h : ReclaimedBelow sb s k t) (hk : sb.ninodes ≤ k) : Reclaimed sb s t := by
  have hall {i : ℕ} (ho : Orphan sb s.view i) : i < k := lt_of_lt_of_le ho.1.2 hk
  have hkept {i : ℕ} (p : ℕ) (ho : ¬ Orphan sb s.view i) :
      slot sb t.view (dinode sb t.view) (i,p) = slot sb s.view (dinode sb s.view) (i,p) := by
    rcases h.maps i p with ⟨-,-,hc⟩ | ⟨heq,-⟩
    · exact absurd hc ho
    · exact heq
  have hdin (i : ℕ) (hi : sb.IsInum i) (ho : ¬ Orphan sb s.view i) :
      dinode sb t.view i = dinode sb s.view i := h.dinodes i hi fun hc => ho hc.2
  have hmaps (i p : ℕ) (hi : sb.IsInum i) (ho : ¬ Orphan sb s.view i)
      (ht : (dinode sb s.view i).type ≠ 0) :
      addrAt t.view (dinode sb t.view i) p = addrAt s.view (dinode sb s.view i) p := by
    have hslot := hkept p ho
    rwa [slot_of_alloc hi (by rw [hdin i hi ho]; exact ht),slot_of_alloc hi ht] at hslot
  refine ⟨fun i ho => ?_,fun i b ho ⟨hne,p,hp⟩ => ?_,fun b hb => ?_,hdin,hmaps,
    fun i hi ho ht j hj => ?_,fun i => (h.unreferenced i).1⟩
  · by_cases hos : Orphan sb s.view i
    · exact ho.2.1 (h.type i (hall hos) hos)
    · obtain ⟨hi,ht,hn⟩ := ho
      rw [hdin i hi hos] at ht hn
      exact hos ⟨hi,ht,hn⟩
  · have hd : sb.IsData b := hp ▸ hs.owned.held.isData (hp ▸ hne)
    by_contra hused
    obtain ⟨⟨i',p'⟩,hσ⟩ := (h.wf.inUse_iff hd).mp (by simpa using hused)
    rcases h.maps i' p' with ⟨hz,-⟩ | ⟨heq,hno⟩
    · exact hne (hσ.symm.trans hz)
    · have hsame := hs.owned.held.accounts.inj (hp.trans (hσ.symm.trans heq)) (hp ▸ hne)
      obtain ⟨rfl,-⟩ := Prod.mk.inj hsame
      exact hno ⟨hall ho,ho⟩
  · rcases Nat.lt_or_ge b sb.datastart with hmeta | hdata
    · rw [h.wf.owned.held.bitmap b hmeta,hs.owned.held.bitmap b hmeta]
    · rcases Nat.lt_or_ge b sb.size with hlt | hge
      · have hd : sb.IsData b := ⟨hdata,hlt⟩
        rw [Bool.eq_iff_iff,h.wf.inUse_iff hd,hs.inUse_iff hd]
        constructor
        · rintro ⟨⟨i,p⟩,hσ⟩
          rcases h.maps i p with ⟨hz,-⟩ | ⟨heq,-⟩
          · exact absurd (hσ.symm.trans hz) hd.ne_zero
          · exact ⟨(i,p),heq.symm.trans hσ⟩
        · rintro ⟨⟨i,p⟩,hσ⟩
          refine ⟨(i,p),(hkept p fun ho => hb i ho ⟨hd.ne_zero,p,hσ⟩).trans hσ⟩
      · exact h.spare b hge
  · have hmap := hs.owned.sized i hi ht
    rw [fileByte,fileByte,hmaps i _ hi ho ht,h.data]
    have hslot (p : ℕ) : slot sb s.view (dinode sb s.view) (i,p)
        = addrAt s.view (dinode sb s.view i) p := slot_of_alloc hi ht p
    rw [← hslot]
    refine hs.owned.held.isData ?_
    rw [hslot]
    exact hmap.mapped_at hj

/-- From a disk whose books are in order, with an unused inode table, `ireclaim` returns with
every orphan freed and everything else as it was. -/
theorem ireclaim_reclaims (sb : Superblock) (s : State) (hl : sb.Layout) (hb : Booked sb s.view)
    (hin : InRegion sb s.view) (hs : Unreferenced s) :
    ∃ t, (ireclaim sb).run s = .ok ((),t) ∧ Reclaimed sb s t := by
  have hsync : Synced sb s :=
    ⟨⟨fun i hi => absurd hi (by simp [(hs i).1]),fun i j hi => absurd hi (by simp [(hs i).1])⟩,
      fun i hi => absurd hi (by simp [(hs i).1])⟩
  have hwf : WellFormed sb s := wellFormed_iff.mpr ⟨hb,hin,hsync⟩
  have hrun : Ends (ireclaim sb) s fun _ t => ReclaimedBelow sb s (1+(sb.ninodes-1)) t :=
    ends_forM_range' (fun i hi hlt t ht => ht.round hl ⟨hi,by omega⟩) (.start hwf hs)
  obtain ⟨_,t,ht,hrec⟩ := hrun
  exact ⟨t,ht,hrec.reclaimed hwf (by omega)⟩

/-- The small disk at boot with inode 1 in use and nameless. -/
def orphaned : State :=
  { oneInode { emptyFile with nlink := 0 } with itable := fun _ => ⟨0,0,false,false,.blank⟩ }

theorem ireclaim_reclaims_orphaned : Orphan smallDisk orphaned.view 1 ∧
    ∃ t, (ireclaim smallDisk).run orphaned = .ok ((),t) ∧ Reclaimed smallDisk orphaned t := by
  have hfits : ({ emptyFile with nlink := 0 } : Dinode).Fits := by
    refine ⟨?_,?_,?_,?_,?_,?_⟩ <;> decide
  have hbare (view : ℕ → Block) (p : ℕ) : addrAt view { emptyFile with nlink := 0 } p = 0 :=
    addrAt_bare (d := { emptyFile with nlink := 0 }) emptyFile_addr p
  have hdin : dinode smallDisk orphaned.view 1 = { emptyFile with nlink := 0 } :=
    (oneInode_dinode hfits).1
  refine ⟨⟨by decide,by rw [hdin]; decide,by rw [hdin]⟩,
    ireclaim_reclaims smallDisk orphaned smallDisk_layout
      (oneInode_booked hfits rfl fun p => by rw [hbare]; omega)
      (fun σ hσ => absurd ((oneInode_slot hfits hσ).trans (hbare _ _)) hσ) fun _ => ⟨rfl,rfl⟩⟩

end Fs
end Xv6
