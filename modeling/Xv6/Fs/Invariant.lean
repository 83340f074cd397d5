import Xv6.Lib.Machine
import Xv6.Fs.Transfer

/-! Block ownership over whole runs.
A run is any sequence of inode operations whose callers keep to the rules of `fs.c`: they
read, write and truncate only inodes they have locked, and drop only references they hold. -/
namespace Xv6
namespace Fs

open Prog

variable {sb : Superblock} {s t : State} {ip : Fin NINODE} {inum : ℕ}

theorem findEntry_some {i : Fin NINODE} (h : s.findEntry inum = some i) :
    0 < (s.itable i).ref ∧ (s.itable i).inum = inum := by
  simpa using List.find?_some h

theorem findEntry_none (h : s.findEntry inum = none) (j : Fin NINODE) (hj : 0 < (s.itable j).ref) :
    (s.itable j).inum ≠ inum := by
  have hall := List.find?_eq_none.mp h j (List.mem_finRange j)
  simp only [decide_eq_true_eq] at hall
  exact fun heq => hall ⟨hj,heq⟩

theorem emptyEntry_some {i : Fin NINODE} (h : s.emptyEntry = some i) : (s.itable i).ref = 0 := by
  simpa using List.find?_some h

theorem WellFormed.iget (h : WellFormed sb s) (hi : sb.IsInum inum) :
    Meets (iget inum) s (fun _ t => WellFormed sb t) (· = .noInodes) := by
  unfold Fs.iget
  refine meets_bind_of_run rfl ?_
  split
  · rename_i i hfind
    exact meets_of_run rfl (h.putSame (findEntry_some hfind).1 rfl fun hv => ⟨hv,rfl⟩)
  · rename_i hnone
    split
    · exact meets_of_run rfl (h.put (fun _ => hi) (fun _ j _ hj => findEntry_none hnone j hj)
        fun _ hv => nomatch hv)
    · exact meets_of_error rfl rfl

/-- A free inode on disk may be initialised. -/
theorem WellFormed.enroll (h : WellFormed sb s) (hl : sb.Layout) (hi : sb.IsInum inum)
    (hfree : (dinode sb s.view inum).type = 0) (type : ℕ)
    (hview : t.view = stored sb s.view inum { Dinode.blank with type := type % 2^16 })
    (hit : t.itable = s.itable) : WellFormed sb t := by
  refine h.storeInode hl hi hview hit ?_ (h.owned.replace (fun p => ?_) (.inr ⟨fun k => ?_,rfl⟩))
    fun j hj hv heq => ?_
  · have hz : (0 : ℕ) < 2^16 ∧ (0 : ℕ) < 2^32 := by decide
    exact ⟨Nat.mod_lt _ hz.1,hz.1,hz.1,hz.1,hz.2,fun _ => hz.2⟩
  · exact if_neg fun hc => hc.2 hfree
  · unfold Dinode.addr
    split <;> rfl
  · obtain ⟨hd,ht⟩ := h.agrees j hj hv
    rw [hd,heq] at ht
    exact ht hfree

theorem WellFormed.iallocFrom (h : WellFormed sb s) (hl : sb.Layout) (type : ℕ) {l : List ℕ}
    (hall : ∀ i ∈ l, sb.IsInum i) :
    Meets (iallocFrom sb type l) s (fun _ t => WellFormed sb t) (· = .noInodes) := by
  induction l with
  | nil => exact meets_of_run rfl h
  | cons inum l ih =>
    have hi := hall inum List.mem_cons_self
    unfold Fs.iallocFrom
    refine meets_bind_of_run rfl ?_
    split
    · rename_i hfree
      refine meets_bind_of_run (bstore_run ..) (meets_bind_of_run (logWrite_run ..) ?_)
      have hnew := h.enroll hl hi hfree type
        (t := (s.poke (IBLOCK sb inum) _).log (IBLOCK sb inum)) rfl rfl
      exact (hnew.iget hi).bind fun _ v hv => meets_of_run rfl hv
    · exact ih fun i hmem => hall i (List.mem_cons_of_mem _ hmem)

theorem WellFormed.ialloc (h : WellFormed sb s) (hl : sb.Layout) (type : ℕ) :
    Meets (ialloc sb type) s (fun _ t => WellFormed sb t) (· = .noInodes) := by
  refine h.iallocFrom hl type fun i hi => ?_
  rw [List.mem_range'_1] at hi
  exact ⟨hi.1,by omega⟩

theorem WellFormed.ilock (h : WellFormed sb s) (href : 0 < (s.itable ip).ref) :
    Meets (ilock sb ip) s (fun _ t => WellFormed sb t) fun e => e = .noType ∨ e = .deadlock := by
  unfold Fs.ilock
  refine meets_bind_of_run rfl ?_
  rw [if_neg (by omega)]
  split
  · exact meets_of_error rfl (.inr rfl)
  split
  · exact meets_of_run rfl (h.putSame href rfl fun hv => ⟨hv,rfl⟩)
  · refine meets_bind_of_run rfl (meets_bind_of_run (setInode_run ..) ?_)
    split
    · exact meets_of_error rfl (.inl rfl)
    · rename_i htype
      refine meets_of_run rfl (h.put (fun _ => h.table.inum ip href) (fun _ j hj hjr heq => ?_)
        fun _ _ => ⟨rfl,htype⟩)
      exact hj (h.table.unique j ip hjr href heq)

/-- The operations on inodes.  `relink` stands for the callers' own changes to a locked inode
(`ip->nlink++` and the like), each followed by `iupdate`. -/
inductive Call
  | ialloc (type : ℕ)
  | readi (ip : Fin NINODE) (copyout : ℕ → List UInt8 → Bool) (off n : ℕ)
  | writei (ip : Fin NINODE) (copyin : ℕ → ℕ → List UInt8 × Bool) (off n : ℕ)
  | itrunc (ip : Fin NINODE)
  | iput (ip : Fin NINODE)
  | iget (inum : ℕ)
  | idup (ip : Fin NINODE)
  | ilock (ip : Fin NINODE)
  | iunlock (ip : Fin NINODE)
  | relink (ip : Fin NINODE) (major minor nlink : ℕ)

def Dinode.relink (major minor nlink : ℕ) (d : Dinode) : Dinode :=
  { d with major := major % 2^16, minor := minor % 2^16, nlink := nlink % 2^16 }

def Call.run (sb : Superblock) : Call → Op Unit
  | .ialloc type => do let _ ← Fs.ialloc sb type
  | .readi ip copyout off n => do let _ ← Fs.readi sb ip copyout off n
  | .writei ip copyin off n => do let _ ← Fs.writei sb ip copyin off n
  | .itrunc ip => Fs.itrunc sb ip
  | .iput ip => Fs.iput sb ip
  | .iget inum => do let _ ← Fs.iget inum
  | .idup ip => do let _ ← Fs.idup ip
  | .ilock ip => Fs.ilock sb ip
  | .iunlock ip => Fs.iunlock ip
  | .relink ip major minor nlink => do
    setDinode ip (Dinode.relink major minor nlink)
    iupdate sb ip

/-- The caller holds a reference to `ip` and has locked it. -/
def Locked (s : State) (ip : Fin NINODE) : Prop :=
  0 < (s.itable ip).ref ∧ (s.itable ip).valid = true

/-- What a caller has to ensure. -/
def Call.ok (sb : Superblock) (s : State) : Call → Prop
  | .ialloc _ => True
  | .readi ip _ off n => Locked s ip ∧ off < 2^32 ∧ n < 2^32
  | .writei ip _ off n => Locked s ip ∧ off < 2^32 ∧ n < 2^32
  | .itrunc ip => Locked s ip
  | .iput ip => 0 < (s.itable ip).ref
  | .iget inum => sb.IsInum inum
  | .idup ip => 0 < (s.itable ip).ref
  | .ilock ip => 0 < (s.itable ip).ref
  | .iunlock ip => 0 < (s.itable ip).ref
  | .relink ip _ _ _ => Locked s ip

instance (s : State) (ip : Fin NINODE) : Decidable (Locked s ip) :=
  inferInstanceAs (Decidable (_ ∧ _))

instance (sb : Superblock) (s : State) : (c : Call) → Decidable (c.ok sb s)
  | .ialloc _ => inferInstanceAs (Decidable True)
  | .readi .. => inferInstanceAs (Decidable (_ ∧ _ ∧ _))
  | .writei .. => inferInstanceAs (Decidable (_ ∧ _ ∧ _))
  | .itrunc _ => inferInstanceAs (Decidable (Locked ..))
  | .iput _ => inferInstanceAs (Decidable (_ < _))
  | .iget _ => inferInstanceAs (Decidable (sb.IsInum _))
  | .idup _ => inferInstanceAs (Decidable (_ < _))
  | .ilock _ => inferInstanceAs (Decidable (_ < _))
  | .iunlock _ => inferInstanceAs (Decidable (_ < _))
  | .relink .. => inferInstanceAs (Decidable (Locked ..))

/-- `none` when the call panics. -/
def step (sb : Superblock) (s : State) (c : Call) : Option State :=
  match (c.run sb).run s with
  | .ok (_,t) => some t
  | .error _ => none

theorem Busy.relink (h : Busy sb s ip) (major minor nlink : ℕ) :
    Busy sb (s.edited ip (Dinode.relink major minor nlink)) ip := by
  have hf := h.fits
  have hz : (0 : ℕ) < 2^16 := by decide
  refine h.edit (fun _ => rfl) (fun _ _ => rfl) ?_ ⟨h.sized.le,h.sized.mapped⟩
  exact ⟨hf.type,Nat.mod_lt _ hz,Nat.mod_lt _ hz,Nat.mod_lt _ hz,hf.size,hf.addrs⟩

theorem WellFormed.call (h : WellFormed sb s) (hl : sb.Layout) {c : Call} (hok : c.ok sb s) :
    Meets (c.run sb) s (fun _ t => WellFormed sb t)
      fun e => e = .noInodes ∨ e = .noType ∨ e = .deadlock ∨ e = .iunlock := by
  cases c with
  | ialloc type =>
    exact ((h.ialloc hl type).error fun _ => .inl).bind fun _ _ ht => meets_of_run rfl ht
  | readi ip copyout off n =>
    have hb := h.busy hok.1.1 hok.1.2
    refine ((readi_spec hb.sized copyout off n).bind fun _ t ht => ?_).meets _
    rw [ht.1]
    exact ends_pure h
  | writei ip copyin off n =>
    refine ((writei_keeps hl h hok.1.1 hok.1.2 copyin hok.2.1 hok.2.2).bind
      fun _ t ht => ?_).meets _
    exact ends_pure ht
  | itrunc ip =>
    exact ((itrunc_spec hl (h.busy hok.1 hok.2)).mono fun _ _ ht => ht.wf).meets _
  | iput ip => exact (iput_spec hl h hok).error fun _ he => .inr (.inr (.inl he))
  | iget inum => exact ((h.iget hok).error fun _ => .inl).bind fun _ _ ht => meets_of_run rfl ht
  | idup ip => exact meets_of_run rfl (h.putSame hok rfl fun hv => ⟨hv,rfl⟩)
  | ilock ip => exact (h.ilock hok).error fun _ he => .inr (he.imp_right .inl)
  | iunlock ip =>
    refine meets_bind_of_run rfl ?_
    split
    · exact meets_of_error rfl (.inr (.inr (.inr rfl)))
    · exact meets_of_run rfl (h.putSame hok rfl fun hv => ⟨hv,rfl⟩)
  | relink ip major minor nlink =>
    exact meets_bind_of_run (setDinode_run ..) (meets_of_run (iupdate_run ..)
      (((h.busy hok.1 hok.2).relink major minor nlink).updated hl))

/-- The books as the disk shows them: (a) the metadata is in use, (b) no data block has two
owners, (c) the data blocks in use are those with an owner, (d) sizes are in bounds and files
have no holes. -/
structure Booked (sb : Superblock) (view : ℕ → Block) : Prop where
  bitmap : ∀ b, sb.IsMeta b → inUse sb view b = true
  once : ∀ σ τ, sb.IsData (slot sb view (dinode sb view) σ) →
    slot sb view (dinode sb view) σ = slot sb view (dinode sb view) τ → σ = τ
  used : ∀ b, sb.IsData b →
    (inUse sb view b = true ↔ ∃ σ, slot sb view (dinode sb view) σ = b)
  sized : ∀ i, sb.IsInum i → (dinode sb view i).type ≠ 0 → Sized view (dinode sb view i)

/-- Block maps hold numbers of data blocks only. -/
def InRegion (sb : Superblock) (view : ℕ → Block) : Prop :=
  ∀ σ, slot sb view (dinode sb view) σ ≠ 0 → sb.IsData (slot sb view (dinode sb view) σ)

theorem owned_iff (view : ℕ → Block) :
    Owned sb view (dinode sb view) ↔ Booked sb view ∧ InRegion sb view := by
  constructor
  · rintro ⟨⟨hbit,hacc⟩,hsz⟩
    have hin : InRegion sb view := fun σ hσ => (hacc.used_of_ne hσ).1
    refine ⟨⟨hbit,fun σ τ hd heq => hacc.inj heq hd.ne_zero,fun b hb => ?_,hsz⟩,hin⟩
    rw [← hacc.used_iff b hb.ne_zero]
    simp [hb]
  · rintro ⟨⟨hbit,honce,hused,hsz⟩,hin⟩
    refine ⟨⟨hbit,fun heq hne => honce _ _ (hin _ hne) heq,fun b hb => ⟨?_,?_⟩⟩,hsz⟩
    · rintro ⟨hd,hu⟩
      exact (hused b hd).mp hu
    · rintro ⟨σ,rfl⟩
      exact ⟨hin σ hb,(hused _ (hin σ hb)).mpr ⟨σ,rfl⟩⟩

/-- The inode table is in step with the disk. -/
def Synced (sb : Superblock) (s : State) : Prop :=
  Table sb s ∧ ∀ i, 0 < (s.itable i).ref → Agrees sb s i

theorem wellFormed_iff :
    WellFormed sb s ↔ Booked sb s.view ∧ InRegion sb s.view ∧ Synced sb s := by
  constructor
  · rintro ⟨ho,ht,ha⟩
    obtain ⟨hb,hin⟩ := (owned_iff s.view).mp ho
    exact ⟨hb,hin,ht,ha⟩
  · rintro ⟨hb,hin,ht,ha⟩
    exact ⟨(owned_iff s.view).mpr ⟨hb,hin⟩,ht,ha⟩

theorem step_eq_some {c : Call} (h : step sb s c = some t) : (c.run sb).run s = .ok ((),t) := by
  unfold step at h
  split at h
  · rename_i hrun
    rw [hrun,Option.some.inj h]
  · cases h

/-- In every run the books stay in order, the two panics are out of reach, and `readi` has
no effect on disk, log or inode table. -/
theorem block_ownership (hl : sb.Layout) (hb : Booked sb s.view) (hin : InRegion sb s.view)
    (hsync : Synced sb s) (hrun : Reaches (step sb) (fun s c => Call.ok sb s c) s t) :
    (Booked sb t.view ∧ InRegion sb t.view ∧ Synced sb t) ∧
    (∀ c : Call, c.ok sb t → (c.run sb).run t ≠ .error .freeingFreeBlock ∧
      (c.run sb).run t ≠ .error .bmapRange) ∧
    ∀ ip copyout off n, (Call.readi ip copyout off n).ok sb t →
      ∃ r, (readi sb ip copyout off n).run t = .ok (r,t) := by
  have hwf : WellFormed sb t := by
    refine hrun.invariant (P := WellFormed sb) (wellFormed_iff.mpr ⟨hb,hin,hsync⟩) ?_
    intro a c b ha hok hstep
    exact (ha.call hl hok).of_ok (step_eq_some hstep)
  refine ⟨wellFormed_iff.mp hwf,fun c hok => ⟨fun he => ?_,fun he => ?_⟩,
    fun ip copyout off n hok => ?_⟩
  · simpa using (hwf.call hl hok).of_error he
  · simpa using (hwf.call hl hok).of_error he
  · have hspec : Ends (readi sb ip copyout off n) t fun _ u => u = t :=
      (readi_spec (hwf.busy hok.1.1 hok.1.2).sized copyout off n).mono fun _ _ h => h.1
    obtain ⟨r,u,hr,rfl⟩ := hspec
    exact ⟨r,hr⟩

/-! A disk of twenty blocks whose only inode in use is number 1, with its block map in the
inode table. -/

def smallDisk : Superblock where
  size := 20
  ninodes := 3
  nlog := 1
  logstart := 2
  inodestart := 3
  bmapstart := 4

def oneInode (d : Dinode) : State where
  view := Function.update (Function.update (fun _ => Bytes.zero BSIZE) 4
    ((Bytes.zero BSIZE).splice 0 [31])) 3 (d.write (Bytes.zero BSIZE) 64)
  logged := []
  itable i := if i = 0 then ⟨1,1,false,true,d⟩ else ⟨0,0,false,false,.blank⟩

theorem smallDisk_layout : smallDisk.Layout := by decide

theorem oneInode_bits (d : Dinode) {b : ℕ} (hb : b < 20) :
    inUse smallDisk (oneInode d).view b = decide (b < 5) := by
  have hall : ∀ b < 20, ((Bytes.zero BSIZE).splice 0 [31]).testBit (b % BPB) = decide (b < 5) := by
    decide +kernel
  have hblk : BBLOCK smallDisk b = 4 := by
    simp only [BBLOCK,smallDisk,BPB,BSIZE]
    omega
  rw [inUse,hblk]
  exact hall b hb

theorem oneInode_dinode {d : Dinode} (hd : d.Fits) :
    dinode smallDisk (oneInode d).view 1 = d ∧
      (dinode smallDisk (oneInode d).view 2).type = 0 := by
  constructor
  · exact Dinode.read_write_self hd _ (by simp [BSIZE])
  · change (Dinode.read (d.write (Bytes.zero BSIZE) 64) 128).type = 0
    rw [Dinode.read_write_other d _ (.inr le_rfl)]
    exact Bytes.getLE_zero ..

theorem isInum_smallDisk {i : ℕ} : smallDisk.IsInum i ↔ i = 1 ∨ i = 2 := by
  simp only [Superblock.IsInum,smallDisk]
  omega

theorem oneInode_slot {d : Dinode} (hd : d.Fits) {σ : ℕ × ℕ}
    (h : slot smallDisk (oneInode d).view (dinode smallDisk (oneInode d).view) σ ≠ 0) :
    slot smallDisk (oneInode d).view (dinode smallDisk (oneInode d).view) σ =
      addrAt (oneInode d).view d σ.2 := by
  obtain ⟨hi,ht,-⟩ := slot_ne_zero h
  rw [slot,if_pos ⟨hi,ht⟩]
  rcases isInum_smallDisk.mp hi with h1 | h2
  · rw [h1,(oneInode_dinode hd).1]
  · rw [h2,(oneInode_dinode hd).2] at ht
    exact absurd rfl ht

/-- With block maps that name metadata at most, the books are in order as far as (a)-(d) go. -/
theorem oneInode_booked {d : Dinode} (hd : d.Fits) (hsize : d.size = 0)
    (haddr : ∀ p, addrAt (oneInode d).view d p < 5) : Booked smallDisk (oneInode d).view := by
  have hdata : smallDisk.datastart = 5 := by decide
  have hlow (σ : ℕ × ℕ) : slot smallDisk (oneInode d).view
      (dinode smallDisk (oneInode d).view) σ < 5 := by
    by_cases h0 : slot smallDisk (oneInode d).view (dinode smallDisk (oneInode d).view) σ = 0
    · omega
    · rw [oneInode_slot hd h0]
      exact haddr _
  refine ⟨fun b hb => ?_,fun σ τ hσ => ?_,fun b hb => ?_,fun i hi ht => ?_⟩
  · have hb5 : b < 5 := hdata ▸ hb
    rw [oneInode_bits d (by omega)]
    simpa using hb5
  · have h1 := hσ.1
    have h2 := hlow σ
    omega
  · have h1 : 5 ≤ b := hdata ▸ hb.1
    rw [oneInode_bits d hb.2]
    refine ⟨fun h => absurd (of_decide_eq_true h) (by omega),fun ⟨σ,hσ⟩ => ?_⟩
    have h2 := hlow σ
    omega
  · rcases isInum_smallDisk.mp hi with rfl | rfl
    · rw [(oneInode_dinode hd).1]
      exact ⟨by simp [hsize],fun k hk => absurd hk (by simp [hsize,BSIZE])⟩
    · exact absurd (oneInode_dinode hd).2 ht

theorem oneInode_synced {d : Dinode} (hd : d.Fits) (ht : d.type ≠ 0) :
    Synced smallDisk (oneInode d) := by
  have hzero {i : Fin NINODE} (h : 0 < ((oneInode d).itable i).ref) : i = 0 := by
    by_contra hi
    simp [oneInode,hi] at h
  refine ⟨⟨fun i hi => ?_,fun i j hi hj _ => (hzero hi).trans (hzero hj).symm⟩,fun i hi _ => ?_⟩
  · rw [hzero hi]
    exact isInum_smallDisk.mpr (.inl rfl)
  · rw [hzero hi]
    exact ⟨(oneInode_dinode hd).1.symm,ht⟩

def emptyFile : Dinode := { Dinode.blank with type := 2, nlink := 1 }

theorem emptyFile_fits : emptyFile.Fits := by
  refine ⟨?_,?_,?_,?_,?_,?_⟩ <;> decide

theorem emptyFile_addr (k : ℕ) : emptyFile.addr k = 0 := by
  unfold Dinode.addr
  split <;> rfl

/-- A write, a truncation and the release of the last reference on the small disk. -/
theorem block_ownership_emptyFile : ∃ t, Reaches (step smallDisk)
      (fun s c => Call.ok smallDisk s c) (oneInode emptyFile) t ∧
    t.logged = [4,5,5,3,4,3] ∧ Booked smallDisk t.view := by
  have hrun : (runEvents (step smallDisk) (fun s c => decide (c.ok smallDisk s))
      (oneInode emptyFile) [.writei 0 (fun _ m => (List.replicate m 7,true)) 0 5,.itrunc 0,
        .iput 0]).map (fun t => decide (t.logged = [4,5,5,3,4,3])) = some true := by
    decide +kernel
  obtain ⟨t,ht,hlog⟩ := Option.map_eq_some_iff.mp hrun
  have hreach : Reaches (step smallDisk) (fun s c => Call.ok smallDisk s c)
      (oneInode emptyFile) t :=
    (reaches_of_runEvents ht).mono fun s c hc => of_decide_eq_true hc
  have hbare (p : ℕ) : addrAt (oneInode emptyFile).view emptyFile p = 0 :=
    addrAt_bare emptyFile_addr p
  have hbooked := oneInode_booked emptyFile_fits rfl fun p => by
    rw [hbare]
    omega
  have hin : InRegion smallDisk (oneInode emptyFile).view := fun σ hσ =>
    absurd ((oneInode_slot emptyFile_fits hσ).trans (hbare _)) hσ
  exact ⟨t,hreach,of_decide_eq_true hlog,(block_ownership smallDisk_layout hbooked hin
    (oneInode_synced emptyFile_fits (by decide)) hreach).1.1⟩

/-- An inode whose first address is the number of the superblock. -/
def strayFile : Dinode := emptyFile.setAddr 0 1

/-- Conditions (a)-(d) alone are not kept: they allow a block map to name metadata, and
truncating that file gives the superblock back to the allocator. -/
theorem stray_address_frees_metadata : Booked smallDisk (oneInode strayFile).view ∧
    Synced smallDisk (oneInode strayFile) ∧ (Call.itrunc 0).ok smallDisk (oneInode strayFile) ∧
    ∃ t, step smallDisk (oneInode strayFile) (.itrunc 0) = some t ∧ ¬ Booked smallDisk t.view := by
  have hfits : strayFile.Fits := emptyFile_fits.setAddr (by norm_num) 0
  have haddr (p : ℕ) : addrAt (oneInode strayFile).view strayFile p < 5 := by
    rw [strayFile,addrAt_setAddr (Nat.zero_le _) fun h => absurd h (by decide),
      addrAt_bare emptyFile_addr]
    split <;> omega
  refine ⟨oneInode_booked hfits rfl haddr,oneInode_synced hfits (by decide),by decide,?_⟩
  have hrun : (step smallDisk (oneInode strayFile) (.itrunc 0)).map
      (fun t => inUse smallDisk t.view 1) = some false := by
    decide +kernel
  obtain ⟨t,ht,hbit⟩ := Option.map_eq_some_iff.mp hrun
  refine ⟨t,ht,fun hb => ?_⟩
  rw [hb.bitmap 1 (by decide)] at hbit
  cases hbit

end Fs
end Xv6
