import Xv6.Mkfs.Append

/-! Runs of `mkfs`: what the image holds after any sequence of calls. -/
namespace Xv6
namespace Mkfs

open Prog Function
open Fs (Superblock Dinode NDIRECT NINDIRECT MAXFILE IPB BPB IBLOCK dinodeOff dinode slot place addrAt)
open Names (Str Dirent DIRSIZ ROOTINO T_DIR T_FILE dot dotdot)

section Stores

variable {h : Host} {D D' : ℕ → Dinode} {B : ℕ → ℕ} {C : ℕ → List UInt8} {i b : ℕ}

/-- Neither metadata nor the sizes of the inodes matter. -/
theorem Laid.store (hb : Laid h D B C) (hc : b < nmeta) (x : Block)
    (hmade : ∀ j, 1 ≤ j → j < h.freeinode → Made j (D' j) ∧ (D' j).addrs = (D j).addrs)
    (hfree : ∀ j, h.freeinode ≤ j → j < NINODES → (D' j).type = 0) : Laid (h.put b x) D' B C := by
  have haddr (img : ℕ → Block) (j p : ℕ) (hj : 1 ≤ j) (hn : j < h.freeinode) :
      addrAt img (D' j) p = addrAt img (D j) p := by
    have ha : (D' j).addr = (D j).addr := by
      funext k
      unfold Dinode.addr
      rw [(hmade j hj hn).2]
    simp only [addrAt,ha]
  have hview : slot sb (update h.img b x) D = slot sb h.img D := by
    refine Fs.slot_congr fun j hj => update_of_ne ?_ _ _
    have := (hb.books.bounds hj).1
    omega
  have hslot : slot sb (update h.img b x) D' = slot sb h.img D := by
    rw [← hview]
    funext x
    obtain ⟨j,p⟩ := x
    by_cases hj : sb.IsInum j
    swap
    · rw [slot,slot,if_neg fun he => hj he.1,if_neg fun he => hj he.1]
    by_cases hn : j < h.freeinode
    · have ht := (hmade j hj.1 hn).1.type ▸ kind_ne_zero j
      rw [Fs.slot_of_alloc hj ht,Fs.slot_of_alloc hj (hb.type_ne hj.1 hn),haddr _ _ _ hj.1 hn]
    · have h' := hfree j (Nat.not_lt.mp hn) hj.2
      have h0 := hb.free j (Nat.not_lt.mp hn) hj.2
      rw [slot,slot,if_neg fun he => he.2 h',if_neg fun he => he.2 h0]
  have hput {c : ℕ} (hne : nmeta ≤ c) : (h.put b x).img c = h.img c :=
    update_of_ne (by omega) _ _
  refine ⟨⟨hb.len,hb.inums,fun j hj hn => (hmade j hj hn).1,hfree,⟨?_,fun c hc' => ?_,hb.books.ge⟩,
    ?_⟩,?_,hb.count⟩
  · exact hslot.symm ▸ hb.books.accounts
  · exact (hput (hb.books.ge.trans hc')).trans (hb.books.zero c hc')
  · exact hslot.symm ▸ hb.mapping.congr fun j k hne => hput (hb.books.bounds hne).1
  · exact hslot.symm ▸ hb.indirect

end Stores

section Inodes

variable {h : Host} {i j : ℕ}

theorem iblock_eq (i : ℕ) : IBLOCK sb i = i/16+33 := rfl

theorem iblock_lt_nmeta (hi : i < NINODES) : IBLOCK sb i < nmeta := by
  have hm : nmeta = 47 := by decide
  simp only [iblock_eq,hm,NINODES] at *
  omega

theorem nmeta_le : nmeta ≤ FSSIZE := by decide

/-- The image with inode `i` set to `d`. -/
def Host.putInode (h : Host) (i : ℕ) (d : Dinode) : Host :=
  h.put (IBLOCK sb i) (d.write (h.img (IBLOCK sb i)) (dinodeOff i))

theorem putInode_one (h : Host) (i : ℕ) (d : Dinode) : (h.putInode i d).img 1 = h.img 1 := by
  have hne : 1 ≠ IBLOCK sb i := by
    rw [iblock_eq]
    omega
  exact update_of_ne hne (d.write (h.img (IBLOCK sb i)) (dinodeOff i)) h.img

theorem dinode_putInode {d : Dinode} (hd : d.Fits) :
    dinode sb (h.putInode i d).img j = if j = i then d else dinode sb h.img j := by
  split
  · rename_i hj
    subst hj
    exact Fs.dinode_store_self hd j
  · rename_i hj
    exact Fs.dinode_store_other d hj

theorem winode_run (hlen : h.len = FSSIZE) (hi : i < NINODES) (d : Dinode) :
    (winode i d).run h = .ok ((),h.putInode i d) := by
  have hlt := (iblock_lt_nmeta hi).trans_le nmeta_le
  rw [winode,run_bind_of_run (rsect_run hlen hlt)]
  exact wsect_run hlen hlt _

theorem rinode_run (hlen : h.len = FSSIZE) (hi : i < NINODES) :
    (rinode i).run h = .ok (dinode sb h.img i,h) := by
  have hlt := (iblock_lt_nmeta hi).trans_le nmeta_le
  rw [rinode,run_bind_of_run (rsect_run hlen hlt)]
  rfl

end Inodes

/-- Between two calls the image holds `c`. -/
structure Settled (h : Host) (c : Content) : Prop where
  n : h.freeinode = c.n
  pos : 1 ≤ c.n
  laid : Laid h (dinode sb h.img) c.blocks c.data
  size : ∀ i, 1 ≤ i → i < c.n → (dinode sb h.img i).size = (c.data i).length
  le : h.freeblock ≤ FSSIZE
  super : h.img 1 = superBlock

section Calls

variable {h : Host} {c : Content} {i : ℕ}

theorem Settled.le_maxfile (hs : Settled h c) (hi : 1 ≤ i) (hn : i < c.n) :
    (c.data i).length ≤ MAXFILE*BSIZE :=
  length_le_of_blocks_le (hs.laid.mapping.le i hi (hs.n ▸ hn))

theorem Content.blocks_append (c : Content) (i : ℕ) (p : List UInt8) :
    (c.append i p).blocks = update c.blocks i (Mkfs.blocks ((c.data i).length+p.length)) := by
  funext j
  by_cases hj : j = i
  · subst hj
    simp [Content.blocks,Content.append]
  · simp [Content.blocks,Content.append,hj]

theorem Content.not_fits_of_overflows {p : List UInt8} (hi : 1 ≤ i) (hn : i < c.n)
    (ho : Overflows c.n c.blocks i ((c.data i).length+p.length)) : ¬ (c.append i p).Fits := by
  intro hf
  obtain hlen | himg := ho
  · have := hf.file i hi hn
    simp only [Content.append,update_self,List.length_append] at this
    omega
  · have := hf.image
    rw [Content.blocks_append] at this
    exact absurd himg (Nat.not_lt.mpr this)

theorem dinode_grown {t : Host} (hg : Grown h t) (hi : i < NINODES) :
    dinode sb t.img i = dinode sb h.img i := by
  rw [dinode,dinode,hg.metadata _ (iblock_lt_nmeta hi)]

theorem Made.resize {d : Dinode} (hd : Made i d) {v : ℕ} (hv : v < 2^32) :
    Made i { d with size := v } where
  type := hd.type
  nlink := hd.nlink
  fits := { hd.fits with size := hv }

theorem iappend_spec (hs : Settled h c) (hi : 1 ≤ i) (hn : i < c.n) (p : List UInt8) :
    Meets (iappend i p) h (fun _ t => Settled t (c.append i p)) fun _ => ¬ (c.append i p).Fits := by
  have hn' : i < h.freeinode := hs.n ▸ hn
  have hin : i < NINODES := hn'.trans_le hs.laid.inums
  unfold iappend
  refine meets_bind_of_run (rinode_run hs.laid.len hin) ?_
  have hloop := appendLoop_spec p.length hs.laid hs.le hi hn' rfl le_rfl
  rw [hs.size i hi hn]
  refine (hloop.error fun _ he => Content.not_fits_of_overflows hi hn (hs.n ▸ he)).bind
    fun r t hr => ?_
  have hlaid := hr.laid
  have htn : t.freeinode = c.n := hr.grown.freeinode.trans hs.n
  have hmade := hlaid.made i hi (htn ▸ hn)
  rw [update_self] at hmade
  have hlen : (c.data i).length+p.length ≤ MAXFILE*BSIZE := by
    refine length_le_of_blocks_le ?_
    have := hlaid.mapping.le i hi (htn ▸ hn)
    rwa [update_self] at this
  have hmade' : Made i { r.1 with size := r.2 } :=
    hmade.resize (by rw [hr.off]; exact hlen.trans_lt (by decide))
  have hnew (j : ℕ) (hj : j < NINODES) :
      dinode sb (t.putInode i { r.1 with size := r.2 }).img j =
        if j = i then { r.1 with size := r.2 } else dinode sb h.img j := by
    rw [dinode_putInode hmade'.fits,dinode_grown hr.grown hj]
  refine meets_of_run (winode_run hlaid.len hin _) ⟨htn,hs.pos,?_,fun j hj hjn => ?_,hr.le,?_⟩
  · rw [Content.blocks_append]
    refine hlaid.store (iblock_lt_nmeta hin) _ (fun j hj hjn => ?_) fun j hj hjn => ?_
    · have hold := hlaid.made j hj hjn
      show Made j (dinode sb (t.putInode i _).img j) ∧ _
      rw [hnew j (hjn.trans_le hlaid.inums)]
      split
      · rename_i hji
        subst hji
        exact ⟨hmade',by rw [update_self]⟩
      · rename_i hji
        rw [update_of_ne hji] at hold ⊢
        exact ⟨hold,rfl⟩
    · have hji : j ≠ i := by omega
      have hold := hlaid.free j hj hjn
      rw [update_of_ne hji] at hold
      show (dinode sb (t.putInode i _).img j).type = 0
      rw [hnew j hjn,if_neg hji]
      exact hold
  · rw [hnew j ((show j < t.freeinode from htn ▸ hjn).trans_le hlaid.inums)]
    by_cases hji : j = i
    · subst hji
      rw [if_pos rfl]
      simp [Content.append,hr.off]
    · rw [if_neg hji,hs.size j hj hjn]
      simp [Content.append,hji]
  · rw [← hs.super,← hr.grown.metadata 1 (by decide)]
    exact putInode_one ..

theorem need_add (hpos : 1 ≤ c.n) : need c.add.n c.add.blocks = need c.n c.blocks := by
  have hlast : span (c.add.blocks c.n) = 0 := by
    simp [Content.blocks,Content.add,blocks,span,BSIZE]
  have hrest : ∑ i ∈ Finset.Ico 1 c.n, span (c.add.blocks i) =
      ∑ i ∈ Finset.Ico 1 c.n, span (c.blocks i) :=
    Finset.sum_congr rfl fun i hi => by
      simp only [Content.blocks,Content.add,update_of_ne (Finset.mem_Ico.mp hi).2.ne]
  have hsucc : c.add.n = c.n+1 := rfl
  rw [need,hsucc,Finset.sum_Ico_succ_top hpos,hlast,hrest,need,Nat.add_zero]

/-- An inode `ialloc` has just made. -/
def newInode (type : ℕ) : Dinode := { Dinode.blank with type := type, nlink := 1 }

theorem newInode_made (i : ℕ) : Made i (newInode (kind i)) where
  type := rfl
  nlink := rfl
  fits := by
    refine ⟨?_,?_,?_,?_,?_,fun _ => ?_⟩
    · show kind i < 2^16
      unfold kind
      split <;> decide
    all_goals simp [newInode,Dinode.blank]

theorem addrAt_newInode (img : ℕ → Block) (type p : ℕ) : addrAt img (newInode type) p = 0 := by
  have h0 (k : ℕ) : (newInode type).addr k = 0 := by
    unfold Dinode.addr
    split <;> rfl
  rw [addrAt,h0,h0]
  split
  · rfl
  · rw [if_neg (by simp)]

/-- The free inode gets a type, and holds nothing. -/
theorem ialloc_spec (hs : Settled h c) (hn : c.n < NINODES) :
    Ends (ialloc (kind c.n)) h fun r t => r = c.n ∧ Settled t c.add := by
  set img := (h.putInode c.n (newInode (kind c.n))).img with himg
  have hD (j : ℕ) : dinode sb img j = if j = c.n then newInode (kind c.n) else dinode sb h.img j :=
    dinode_putInode (newInode_made c.n).fits
  have hold (b : ℕ) (hb : nmeta ≤ b) : img b = h.img b :=
    update_of_ne (by have := iblock_lt_nmeta hn; omega) _ _
  have hfree := hs.laid.free c.n hs.n.le hn
  have hslot : slot sb img (dinode sb img) = slot sb h.img (dinode sb h.img) := by
    rw [← Fs.slot_congr fun j hj => hold _ (hs.laid.books.bounds hj).1]
    funext ⟨j,p⟩
    by_cases hj : j = c.n
    · subst hj
      simp only [slot,hD,if_pos,addrAt_newInode,ite_self]
      rw [if_neg fun he => he.2 hfree]
    · simp only [slot,hD,if_neg hj]
  have hempty (p : ℕ) : slot sb h.img (dinode sb h.img) (c.n,p) = 0 := if_neg fun he => he.2 hfree
  have hdata {j : ℕ} (hj : j ≠ c.n) : c.add.data j = c.data j := update_of_ne hj _ _
  have hself : c.add.data c.n = [] := update_self ..
  have hblocks {j : ℕ} (hj : j ≠ c.n) : c.add.blocks j = c.blocks j := by
    rw [Content.blocks,hdata hj,Content.blocks]
  have hzero : c.add.blocks c.n = 0 := by
    rw [Content.blocks,hself]
    rfl
  have hbooks : Books img (dinode sb img) h.freeblock :=
    ⟨hslot.symm ▸ hs.laid.books.accounts,
      fun b hb => (hold b (hs.laid.books.ge.trans hb)).trans (hs.laid.books.zero b hb),
      hs.laid.books.ge⟩
  have hmap : Mapping (slot sb img (dinode sb img)) img (c.n+1) c.add.blocks c.add.data := by
    rw [hslot]
    refine (hs.n ▸ hs.laid.mapping.congr fun j k hne => hold _ (hs.laid.books.bounds hne).1).add
      hempty hzero fun j hj => ⟨hblocks hj.ne,hdata hj.ne⟩
  have hmade (j : ℕ) (hj : 1 ≤ j) (hjn : j < c.n+1) : Made j (dinode sb img j) := by
    rw [hD]
    split
    · rename_i he
      exact he ▸ newInode_made c.n
    · exact hs.laid.made j hj (by rw [hs.n]; omega)
  have hrest (j : ℕ) (hj : c.n+1 ≤ j) (hjn : j < NINODES) : (dinode sb img j).type = 0 := by
    rw [hD,if_neg (by omega)]
    exact hs.laid.free j (by rw [hs.n]; omega) hjn
  have hind (j : ℕ) (hj : 1 ≤ j) (hjn : j < c.n+1) :
      slot sb img (dinode sb img) (j,NDIRECT) ≠ 0 ↔ NDIRECT < c.add.blocks j := by
    rw [hslot]
    by_cases he : j = c.n
    · simp [he,hempty,hzero]
    · rw [hs.laid.indirect j hj (by rw [hs.n]; omega),hblocks he]
  have hsize (j : ℕ) (hj : 1 ≤ j) (hjn : j < c.n+1) :
      (dinode sb img j).size = (c.add.data j).length := by
    rw [hD]
    split
    · rename_i he
      rw [he,hself]
      rfl
    · rename_i he
      rw [hdata he]
      exact hs.size j hj (by omega)
  refine ⟨c.n,{ h with img := img, freeinode := c.n+1 },?_,rfl,
    ⟨rfl,Nat.le_succ_of_le hs.pos,
      ⟨⟨hs.laid.len,hn,hmade,hrest,hbooks,hmap⟩,hind,?_⟩,hsize,hs.le,?_⟩⟩
  · rw [ialloc,run_bind_of_run rfl,hs.n,
      run_bind_of_run (winode_run (h := { h with freeinode := c.n+1 }) hs.laid.len hn _)]
    rfl
  · exact hs.laid.count.trans (by rw [hs.n]; exact (need_add hs.pos).symm)
  · exact (putInode_one h c.n (newInode (kind c.n))).trans hs.super

end Calls

/-- The image before the first inode is made. -/
def Host.formatted : Host :=
  ⟨update (fun _ => Bytes.zero BSIZE) 1 superBlock,FSSIZE,1,nmeta⟩

theorem format_spec : Ends format .start fun _ t => t = .formatted := by
  have hloop : Ends ((List.range FSSIZE).forM fun i => wsect i (Bytes.zero BSIZE))
      { Host.start with freeblock := nmeta } fun _ t =>
        t = { Host.start with freeblock := nmeta, len := FSSIZE } := by
    refine ends_forM_range (I := fun i t => t = { Host.start with freeblock := nmeta, len := i })
      (fun i hi t ht => ?_) rfl
    subst ht
    refine ⟨_,_,rfl,?_⟩
    have hs : sector i = i := sector_eq (hi.trans (by decide))
    show Host.mk (update _ (sector i) _) (max i (sector i+1)) _ _ = _
    rw [hs,Nat.max_eq_right (Nat.le_succ i)]
    congr 1
    exact update_eq_self i fun _ => Bytes.zero BSIZE
  unfold format
  refine ends_bind_of_run rfl (hloop.bind fun _ t ht => ?_)
  subst ht
  exact ⟨_,_,wsect_run rfl (by decide) _,rfl⟩

theorem formatted_of_ne {b : ℕ} (hb : b ≠ 1) : Host.formatted.img b = Bytes.zero BSIZE := by
  show update (fun _ => Bytes.zero BSIZE) 1 superBlock b = _
  rw [update_of_ne hb]

theorem formatted_one : Host.formatted.img 1 = superBlock := by
  show update (fun _ => Bytes.zero BSIZE) 1 superBlock 1 = _
  rw [update_self]

def Content.empty : Content := ⟨1,fun _ => []⟩

theorem formatted_settled : Settled .formatted .empty := by
  have hD (i : ℕ) : dinode sb Host.formatted.img i = .blank := by
    have hne : IBLOCK sb i ≠ 1 := by
      rw [iblock_eq]
      omega
    rw [dinode,formatted_of_ne hne]
    simp [Dinode.read,Dinode.blank]
  have hslot : slot sb Host.formatted.img (dinode sb Host.formatted.img) = fun _ => 0 := by
    funext σ
    rw [slot,hD,if_neg fun he => he.2 rfl]
  have hn {i : ℕ} (hi : 1 ≤ i) : ¬ i < Host.formatted.freeinode := Nat.not_lt.mpr hi
  refine ⟨rfl,le_rfl,⟨⟨rfl,by decide,fun i hi h => absurd h (hn hi),fun i _ _ => by rw [hD]; rfl,
    ⟨⟨fun _ h => absurd (by rw [hslot]) h,fun b hb => ?_⟩,fun b hb => ?_,le_rfl⟩,
    ⟨fun i hi h => absurd h (hn hi),fun i hi h => absurd h (hn hi),fun i hi h => absurd h (hn hi)⟩⟩,
    fun i hi h => absurd h (hn hi),rfl⟩,fun i hi h => absurd h (Nat.not_lt.mpr hi),by decide,
    formatted_one⟩
  · rw [hslot]
    refine ⟨fun h => absurd h.2 (Nat.not_lt.mpr h.1),?_⟩
    rintro ⟨_,rfl⟩
    exact absurd rfl hb
  · have hne : b ≠ 1 := by
      have : 1 < nmeta := by decide
      have : nmeta ≤ b := hb
      omega
    exact formatted_of_ne hne

namespace Content

/-- The root directory with `.` and `..`. -/
def root : Content :=
  (empty.add.append ROOTINO (Dirent.bytes ⟨ROOTINO,dot⟩)).append ROOTINO
    (Dirent.bytes ⟨ROOTINO,dotdot⟩)

/-- A new file with its entry in the root directory. -/
def create (c : Content) (name : Str) : Content :=
  c.add.append ROOTINO (Dirent.bytes ⟨c.n,name⟩)

theorem le_create (c : Content) (name : Str) : c.Le (c.create name) :=
  (le_add c).trans (le_append _ _ _)

end Content

section Calls

variable {h : Host} {c : Content}

theorem mkroot_spec : Meets mkroot .formatted (fun r t => r = ROOTINO ∧ Settled t .root)
    fun _ => ¬ Content.root.Fits := by
  have hn : Content.empty.n = ROOTINO := rfl
  have hroot := ialloc_spec formatted_settled (by rw [hn]; decide)
  rw [hn,show kind ROOTINO = T_DIR from if_pos rfl] at hroot
  unfold mkroot
  refine hroot.bind_meets fun r t ⟨hr,ht⟩ => ?_
  subst hr
  rw [if_neg (not_ne_iff.mpr rfl)]
  refine ((iappend_spec ht le_rfl Nat.one_lt_two _).error fun _ he hf => he ?_).bind fun _ u hu => ?_
  · exact hf.mono (Content.le_append _ _ _)
  refine (iappend_spec hu le_rfl Nat.one_lt_two _).bind fun _ v hv => ?_
  exact meets_of_run rfl ⟨rfl,hv⟩

theorem create_spec (hs : Settled h c) (hn : c.n < NINODES) (hroot : ROOTINO < c.n) (name : Str) :
    Meets (create ROOTINO name) h (fun r t => r = c.n ∧ Settled t (c.create name))
      fun _ => ¬ (c.create name).Fits := by
  have hkind : kind c.n = T_FILE := if_neg hroot.ne'
  unfold create
  rw [← hkind]
  refine Ends.bind_meets (ialloc_spec hs hn) fun r t ⟨hr,ht⟩ => ?_
  subst hr
  refine (iappend_spec ht le_rfl (Nat.lt_succ_of_lt hroot) _).bind fun _ u hu => ?_
  exact meets_of_run rfl ⟨rfl,hu⟩

end Calls

/-- What the loop over the files does to the image: it makes files and appends to them. -/
inductive Call
  | create (name : Str)
  | append (inum : ℕ) (chunk : List UInt8)

def Call.run (rootino : ℕ) : Call → Op Unit
  | .create name => do
    let _ ← Mkfs.create rootino name
  | .append inum chunk => iappend inum chunk

def Content.call (c : Content) : Call → Content
  | .create name => c.create name
  | .append inum chunk => c.append inum chunk

/-- Inode numbers stay below `NINODES`, and appends go to files that have been made; `n` is the
number of the next inode. -/
def Legal : ℕ → List Call → Prop
  | _, [] => True
  | n, .create _ :: rest => n < NINODES ∧ Legal (n+1) rest
  | n, .append inum _ :: rest => ROOTINO < inum ∧ inum < n ∧ Legal n rest

section Runs

variable {h t : Host} {c : Content} {calls : List Call}

theorem Content.le_calls (c : Content) (calls : List Call) : c.Le (calls.foldl Content.call c) := by
  induction calls generalizing c with
  | nil => exact Le.refl c
  | cons x xs ih =>
    refine Le.trans ?_ (ih (c.call x))
    cases x with
    | create name => exact c.le_create name
    | append inum chunk => exact c.le_append inum chunk

theorem calls_spec (hs : Settled h c) (hroot : ROOTINO < c.n) (hl : Legal c.n calls) :
    Meets (calls.forM (Call.run ROOTINO)) h
      (fun _ t => Settled t (calls.foldl Content.call c))
      fun _ => ¬ (calls.foldl Content.call c).Fits := by
  induction calls generalizing h c with
  | nil => exact meets_of_run rfl hs
  | cons x xs ih =>
    have hle := Content.le_calls (c.call x) xs
    have hx : Meets (x.run ROOTINO) h (fun _ t => Settled t (c.call x)) fun _ => ¬ (c.call x).Fits := by
      cases x with
      | create name =>
        refine (create_spec hs hl.1 hroot name).bind fun _ t ht => ?_
        exact meets_of_run rfl ht.2
      | append inum chunk => exact iappend_spec hs (Nat.le_of_lt hl.1) hl.2.1 chunk
    refine (hx.error fun _ he hf => he (hf.mono hle)).bind fun _ t ht => ?_
    cases x with
    | create name => exact ih ht (Nat.lt_succ_of_lt hroot) hl.2
    | append inum chunk => exact ih ht hroot hl.2.2

/-- The image when the program ends. -/
structure Final (t : Host) (c : Content) : Prop where
  n : t.freeinode = c.n
  laid : Laid t (dinode sb t.img) c.blocks c.data
  size : ∀ i, 1 ≤ i → i < c.n → (dinode sb t.img i).size =
    if i = ROOTINO then ((c.data i).length/BSIZE + 1)*BSIZE else (c.data i).length
  le : t.freeblock ≤ FSSIZE
  super : t.img 1 = superBlock
  bitmap : t.img sb.bmapstart = bitmapBlock t.freeblock

theorem iblock_ne_bmapstart {i : ℕ} (hi : i < NINODES) : IBLOCK sb i ≠ sb.bmapstart := by
  have hm : sb.bmapstart = 46 := by decide
  simp only [iblock_eq,hm,NINODES] at *
  omega

theorem finish_spec (hs : Settled h c) (hroot : ROOTINO < c.n) :
    Ends (finish ROOTINO) h fun _ t => Final t c := by
  have hr : ROOTINO < NINODES := by decide
  have hb : sb.bmapstart < nmeta := by decide
  have hlen : (c.data ROOTINO).length ≤ MAXFILE*BSIZE := hs.le_maxfile le_rfl hroot
  have hlt : (((c.data ROOTINO).length/BSIZE+1)*BSIZE) < 2^32 := by
    have hm : MAXFILE*BSIZE = 274432 := by decide
    simp only [BSIZE] at *
    omega
  have hmade := (hs.laid.made ROOTINO le_rfl (hs.n ▸ hroot)).resize hlt
  set d : Dinode := { dinode sb h.img ROOTINO with
    size := ((c.data ROOTINO).length/BSIZE+1)*BSIZE } with hd
  set u := (h.putInode ROOTINO d).put sb.bmapstart (bitmapBlock h.freeblock) with hu
  have hrun : (finish ROOTINO).run h = .ok ((),u) := by
    have hused : h.freeblock < BPB := hs.le.trans_lt (by decide)
    have hfix : (fixRoot ROOTINO).run h = .ok ((),h.putInode ROOTINO d) := by
      rw [fixRoot,run_bind_of_run (rinode_run hs.laid.len hr),hs.size ROOTINO le_rfl hroot]
      exact winode_run hs.laid.len hr _
    rw [finish,run_bind_of_run hfix,run_bind_of_run rfl,balloc,
      if_pos (show (h.putInode ROOTINO d).freeblock < BPB from hused)]
    exact wsect_run (h := h.putInode ROOTINO d) hs.laid.len (show sb.bmapstart < _ by decide) _
  have hD {j : ℕ} (hj : j < NINODES) :
      dinode sb u.img j = if j = ROOTINO then d else dinode sb h.img j := by
    rw [← dinode_putInode hmade.fits]
    exact Fs.dinode_update_of_ne _ (iblock_ne_bmapstart hj)
  have hlaid : Laid (h.putInode ROOTINO d) (dinode sb u.img) c.blocks c.data := by
    refine hs.laid.store (iblock_lt_nmeta hr) _ (fun j hj hjn => ?_) fun j hj hjn => ?_
    · rw [hD (hjn.trans_le hs.laid.inums)]
      split
      · rename_i he
        subst he
        exact ⟨hmade,rfl⟩
      · exact ⟨hs.laid.made j hj hjn,rfl⟩
    · have hne : j ≠ ROOTINO := by
        have := hs.n
        omega
      rw [hD hjn,if_neg hne]
      exact hs.laid.free j hj hjn
  refine ⟨(),u,hrun,hs.n,?_,fun i hi hn => ?_,hs.le,?_,?_⟩
  · exact hlaid.store hb _ (fun j hj hjn => ⟨hlaid.made j hj hjn,rfl⟩) hlaid.free
  · rw [hD ((hs.n ▸ hn : i < h.freeinode).trans_le hs.laid.inums)]
    split
    · rename_i he
      rw [he]
    · exact hs.size i hi hn
  · rw [← hs.super,← putInode_one h ROOTINO d]
    show update (h.putInode ROOTINO d).img sb.bmapstart (bitmapBlock h.freeblock) 1 = _
    rw [update_of_ne (by decide)]
  · show update (h.putInode ROOTINO d).img sb.bmapstart _ sb.bmapstart = _
    rw [update_self]
    rfl

/-- A run of `mkfs` that makes the calls `calls`. -/
def build (calls : List Call) : Op Unit := do
  format
  let rootino ← mkroot
  calls.forM (Call.run rootino)
  finish rootino

/-- What the image holds after `calls`. -/
def content (calls : List Call) : Content := calls.foldl Content.call .root

theorem root_n : Content.root.n = 2 := rfl

theorem build_spec (hl : Legal 2 calls) :
    Meets (build calls) .start (fun _ t => Final t (content calls))
      fun _ => ¬ (content calls).Fits := by
  unfold build
  refine format_spec.bind_meets fun _ t ht => ?_
  subst ht
  have hle : Content.root.Le (content calls) := Content.le_calls .root calls
  have hroot : ROOTINO < Content.root.n := by
    rw [root_n]
    decide
  refine (mkroot_spec.error fun _ he hf => he (Content.Fits.mono hf hle)).bind fun r t ⟨hr,ht⟩ => ?_
  subst hr
  refine (calls_spec ht hroot (by rwa [root_n])).bind fun _ u hu => ?_
  exact (finish_spec hu (hroot.trans_le hle.1)).meets _

end Runs

end Mkfs
end Xv6
