import Xv6.Mkfs.Entries

/-! When the image `mkfs` leaves is well formed.
Two numbers of files spoil it: the program does not look whether an inode number is below
`NINODES`, and its last act rounds the size of the root directory up past a block that is full. -/
namespace Xv6
namespace Mkfs

open Prog List
open Fs (Superblock Dinode NDIRECT MAXFILE IPB BPB IBLOCK BBLOCK dinode inUse slot place addrAt
  bytesFrom fileByte)
open Names (Str Dirent DIRSIZ DESIZE ROOTINO T_DIR T_FILE slash)

/-! The runs of `main` as runs of calls. -/

/-- The bytes of the file. -/
def HostFile.chunks (f : HostFile) : List (List UInt8) := f.reads.getD []

/-- The file passes the checks of `mkfs`. -/
structure HostFile.Accepted (f : HostFile) : Prop where
  slash : slash ∉ stripDir f.path
  reads : f.reads = some f.chunks
  short : f.shortname.length ≤ DIRSIZ

/-- The calls made for `f` when `n` is the next inode. -/
def HostFile.calls (n : ℕ) (f : HostFile) : List Call :=
  .create f.shortname::f.chunks.map (.append n)

def callsFrom : ℕ → List HostFile → List Call
  | _, [] => []
  | n, f::fs => f.calls n ++ callsFrom (n+1) fs

section Main

variable {h t : Host} {c : Content} {f : HostFile} {files : List HostFile} {n : ℕ}

theorem legal_appends {i : ℕ} (hi : ROOTINO < i) (hn : i < n) (cs : List (List UInt8))
    {rest : List Call} (hrest : Legal n rest) : Legal n (cs.map (.append i)++rest) := by
  induction cs with
  | nil => exact hrest
  | cons _ cs ih => exact ⟨hi,hn,ih⟩

theorem legal_callsFrom (hroot : ROOTINO < n) (hn : n+files.length ≤ NINODES) :
    Legal n (callsFrom n files) := by
  induction files generalizing n with
  | nil => trivial
  | cons f fs ih =>
    rw [length_cons] at hn
    exact ⟨by omega,legal_appends hroot (Nat.lt_succ_self n) _ (ih (by omega) (by omega))⟩

theorem addFile_spec (hs : Settled h c) (hroot : ROOTINO < c.n) (hn : c.n < NINODES) :
    Meets (addFile ROOTINO f) h
      (fun _ t => f.Accepted ∧ Settled t ((f.calls c.n).foldl Content.call c))
      fun _ => ¬ (f.Accepted ∧ ((f.calls c.n).foldl Content.call c).Fits) := by
  unfold addFile
  split
  · rename_i hslash
    exact meets_of_error rfl fun he => he.1.slash hslash
  rename_i hslash
  split
  · rename_i hnone
    exact meets_of_error rfl fun he => by simpa [hnone] using he.1.reads
  rename_i cs hcs
  have hchunks : f.chunks = cs := by rw [HostFile.chunks,hcs,Option.getD_some]
  split
  swap
  · rename_i hlong
    exact meets_of_error rfl fun he => hlong he.1.short
  rename_i hshort
  have hacc : f.Accepted := ⟨hslash,by rw [hchunks,hcs],hshort⟩
  refine ((create_spec hs hn hroot f.shortname).error fun _ he hf => he ?_).bind
    fun r u ⟨hr,hu⟩ => ?_
  · exact hf.2.mono (Content.le_calls (c.create f.shortname) (f.chunks.map (.append c.n)))
  subst hr
  have hlegal : Legal (c.n+1) (cs.map (.append c.n)) := by
    rw [← append_nil (cs.map _)]
    exact legal_appends hroot (Nat.lt_succ_self c.n) cs trivial
  have hrest := calls_spec hu (Nat.lt_succ_of_lt hroot) hlegal
  rw [show (map (Call.append c.n) cs).forM (Call.run ROOTINO) = cs.forM (iappend c.n) from
    forM_map] at hrest
  rw [HostFile.calls,hchunks]
  exact (hrest.error fun _ he hf => he hf.2).mono fun _ v hv => ⟨hacc,hv⟩

theorem names_calls (n : ℕ) (f : HostFile) : names (f.calls n) = [f.shortname] := by
  simp [names,HostFile.calls]

theorem names_callsFrom (n : ℕ) (files : List HostFile) :
    names (callsFrom n files) = files.map HostFile.shortname := by
  induction files generalizing n with
  | nil => rfl
  | cons f fs ih =>
    have hsplit : names (callsFrom n (f::fs)) = names (f.calls n)++names (callsFrom (n+1) fs) :=
      filterMap_append
    rw [hsplit,names_calls,ih,map_cons,singleton_append]

theorem files_spec (hs : Settled h c) (hroot : ROOTINO < c.n) (hn : c.n+files.length ≤ NINODES) :
    Meets (files.forM (addFile ROOTINO)) h
      (fun _ t => (∀ f ∈ files, f.Accepted) ∧
        Settled t ((callsFrom c.n files).foldl Content.call c))
      fun _ => ¬ ((∀ f ∈ files, f.Accepted) ∧
        ((callsFrom c.n files).foldl Content.call c).Fits) := by
  induction files generalizing h c with
  | nil => exact meets_of_run rfl ⟨fun _ hf => absurd hf not_mem_nil,hs⟩
  | cons f fs ih =>
    rw [length_cons] at hn
    have hfold : (callsFrom c.n (f::fs)).foldl Content.call c =
        (callsFrom (c.n+1) fs).foldl Content.call ((f.calls c.n).foldl Content.call c) :=
      foldl_append
    have hnext : ((f.calls c.n).foldl Content.call c).n = c.n+1 := by
      rw [Content.n_calls,names_calls]
      rfl
    have hle := Content.le_calls ((f.calls c.n).foldl Content.call c) (callsFrom (c.n+1) fs)
    rw [hfold]
    refine ((addFile_spec hs hroot (by omega)).error fun _ he hf => he ?_).bind
      fun _ u ⟨hacc,hu⟩ => ?_
    · exact ⟨hf.1 f mem_cons_self,hf.2.mono hle⟩
    have hrest := ih hu (by omega) (by omega)
    rw [hnext] at hrest
    refine (hrest.error fun _ he hf => he ?_).mono fun _ v hv => ?_
    · exact ⟨fun g hg => hf.1 g (mem_cons_of_mem _ hg),hf.2⟩
    · exact ⟨forall_mem_cons.mpr ⟨hacc,hv.1⟩,hv.2⟩

/-- What the image is to hold for `files`. -/
def contentOf (files : List HostFile) : Content := content (callsFrom 2 files)

theorem main_spec (hn : files.length ≤ NINODES-2) :
    Meets (main files) .start (fun _ t => (∀ f ∈ files, f.Accepted) ∧ Final t (contentOf files))
      fun _ => ¬ ((∀ f ∈ files, f.Accepted) ∧ (contentOf files).Fits) := by
  unfold main
  refine format_spec.bind_meets fun _ t ht => ?_
  subst ht
  have hle : Content.root.Le (contentOf files) := Content.le_calls .root (callsFrom 2 files)
  have hroot : ROOTINO < Content.root.n := by
    rw [root_n]
    decide
  refine (mkroot_spec.error fun _ he hf => he (Content.Fits.mono hf.2 hle)).bind
    fun r t ⟨hr,ht⟩ => ?_
  subst hr
  have hlen : Content.root.n+files.length ≤ NINODES := by
    rw [root_n]
    simp only [NINODES] at *
    omega
  have hfiles := files_spec ht hroot hlen
  rw [root_n] at hfiles
  refine hfiles.bind fun _ u ⟨hacc,hu⟩ => ?_
  exact ((finish_spec hu (hroot.trans_le hle.1)).mono fun _ v hv => ⟨hacc,hv⟩).meets _

end Main

/-! The number of inodes handed out, whatever becomes of them. -/

/-- When the program returns, `freeinode` has gone up by `k`. -/
def Makes {α : Type} (k : ℕ) (x : Op α) : Prop :=
  ∀ h, Meets x h (fun _ t => t.freeinode = h.freeinode + k) fun _ => True

namespace Makes

variable {α β : Type} {x : Op α} {k l : ℕ}

theorem pure (a : α) : Makes 0 (Pure.pure a : Op α) := fun _ => meets_of_run rfl rfl

theorem bind {f : α → Op β} (hx : Makes k x) (hf : ∀ a, Makes l (f a)) : Makes (k+l) (x >>= f) :=
  fun h => (hx h).bind fun a t ht => (hf a t).mono fun _ u hu => by rw [hu,ht,Nat.add_assoc]

theorem ite {c : Prop} [Decidable c] {y : Op α} (hx : Makes k x) (hy : Makes k y) :
    Makes k (if c then x else y) := by
  split
  · exact hx
  · exact hy

theorem throw (e : Stop) : Makes k (MonadExcept.throw e : Op α) := fun _ => meets_of_error rfl trivial

theorem forM {γ : Type} {body : γ → Op PUnit} (h : ∀ a, Makes k (body a)) (xs : List γ) :
    Makes (k*xs.length) (xs.forM body) := by
  induction xs with
  | nil => exact pure _
  | cons a xs ih =>
    have hab := (h a).bind fun _ => ih
    rwa [show k+k*xs.length = k*(a::xs).length by rw [length_cons]; ring] at hab

theorem rsect (b : ℕ) : Makes 0 (rsect b) := fun h => by
  by_cases hb : sector b < h.len
  · exact meets_of_run (if_pos hb) rfl
  · exact meets_of_error (if_neg hb) trivial

theorem wsect (b : ℕ) (x : Block) : Makes 0 (wsect b x) := fun _ => meets_of_run rfl rfl

theorem winode (i : ℕ) (d : Dinode) : Makes 0 (winode i d) := (rsect _).bind fun _ => wsect _ _

theorem rinode (i : ℕ) : Makes 0 (rinode i) := (rsect _).bind fun _ => pure _

theorem takeBlock : Makes 0 takeBlock := fun _ => meets_of_run rfl rfl

theorem addrOrTake (d : Dinode) (k : ℕ) : Makes 0 (addrOrTake d k) :=
  ite (takeBlock.bind fun _ => pure _) (pure _)

theorem entryOrTake (ind j : ℕ) : Makes 0 (entryOrTake ind j) :=
  (rsect _).bind fun _ => ite (takeBlock.bind fun _ => (wsect _ _).bind fun _ => pure _) (pure _)

theorem blockFor (d : Dinode) (k : ℕ) : Makes 0 (blockFor d k) :=
  ite ((addrOrTake _ _).bind fun _ => pure _)
    ((addrOrTake _ _).bind fun _ => (entryOrTake _ _).bind fun _ => pure _)

theorem appendLoop (fuel : ℕ) (d : Dinode) (off : ℕ) (p : List UInt8) :
    Makes 0 (appendLoop fuel d off p) := by
  induction fuel generalizing d off p with
  | zero => exact pure _
  | succ fuel ih =>
    exact ite (ite ((blockFor _ _).bind fun _ => (rsect _).bind fun _ => (wsect _ _).bind fun _ =>
      ih _ _ _) (throw _)) (pure _)

theorem iappend (i : ℕ) (p : List UInt8) : Makes 0 (iappend i p) :=
  (rinode i).bind fun _ => (appendLoop _ _ _ _).bind fun _ => winode _ _

theorem ialloc (type : ℕ) : Makes 1 (ialloc type) := by
  have htake : Makes 1 takeInode := fun _ => meets_of_run rfl rfl
  exact htake.bind fun _ => (winode _ _).bind fun _ => pure _

theorem create (rootino : ℕ) (name : Str) : Makes 1 (create rootino name) :=
  (ialloc _).bind fun _ => (iappend _ _).bind fun _ => pure _

theorem addFile (rootino : ℕ) (f : HostFile) : Makes 1 (addFile rootino f) := by
  unfold Mkfs.addFile
  refine ite (throw _) ?_
  split
  · exact throw _
  · refine ite (bind (l := 0) (create _ _) fun i => ?_) (throw _)
    simpa using forM (k := 0) (iappend i) _

theorem mkroot : Makes 1 mkroot :=
  (ialloc _).bind fun _ => ite (throw _)
    ((iappend _ _).bind fun _ => (iappend _ _).bind fun _ => pure _)

theorem finish (rootino : ℕ) : Makes 0 (finish rootino) := by
  have hfix : Makes 0 (fixRoot rootino) := (rinode _).bind fun _ => winode _ _
  have hget : Makes 0 (MonadState.get : Op Host) := fun _ => meets_of_run rfl rfl
  exact hfix.bind fun _ => hget.bind fun _ => ite (wsect _ _) (throw _)

end Makes

theorem main_freeinode {files : List HostFile} {t : Host}
    (hrun : (main files).run .start = .ok ((),t)) : t.freeinode = files.length+2 := by
  have hm : Meets (main files) .start (fun _ t => t.freeinode = files.length+2) fun _ => True := by
    unfold main
    refine format_spec.bind_meets fun _ u hu => ?_
    subst hu
    have hrest := Makes.mkroot.bind fun r => (Makes.forM (Makes.addFile r) files).bind fun _ =>
      Makes.finish r
    refine (hrest Host.formatted).mono fun _ v hv => hv.trans ?_
    show 1+_ = _
    omega
  exact hm.of_ok hrun

/-! The image. -/

/-- The superblock as `readsb` takes it from its block. -/
def readsb (x : Block) : Superblock where
  size := x.getLE 4 4
  ninodes := x.getLE 12 4
  nlog := x.getLE 16 4
  logstart := x.getLE 20 4
  inodestart := x.getLE 24 4
  bmapstart := x.getLE 28 4

/-- Entry `k` of the directory of `d`. -/
def entry (img : ℕ → Block) (d : Dinode) (k : ℕ) : Dirent :=
  .ofBytes (bytesFrom img d (DESIZE*k) DESIZE)

/-- `d` has just one entry for inode `i`, and that one calls it `name`. -/
def NamedOnce (img : ℕ → Block) (d : Dinode) (i : ℕ) (name : Str) : Prop :=
  ∃ k < d.size/DESIZE, entry img d k = ⟨i,name⟩ ∧
    ∀ l < d.size/DESIZE, (entry img d l).inum = i → l = k

/-- The image in `t` is a file system with `files` in its root directory. -/
structure WellFormed (files : List HostFile) (t : Host) : Prop where
  super : readsb (t.img 1) = sb
  /-- Boot block and superblock, log, inodes, bitmap and data follow each other. -/
  regions : List.range sb.logstart ++ List.range' sb.logstart sb.nlog ++
    List.range' sb.inodestart (sb.ninodes/IPB + 1) ++ List.range' sb.bmapstart (sb.size/BPB + 1) ++
    List.range' sb.datastart ((t.img 1).getLE 8 4) = List.range t.len
  bitmap : ∀ b, BBLOCK sb b < sb.datastart → (inUse sb t.img b = true ↔ b < t.freeblock)
  /-- No block number occurs twice in the block maps. -/
  once : ∀ σ τ, slot sb t.img (dinode sb t.img) σ ≠ 0 →
    slot sb t.img (dinode sb t.img) σ = slot sb t.img (dinode sb t.img) τ → σ = τ
  inside : ∀ σ, slot sb t.img (dinode sb t.img) σ ≠ 0 →
    nmeta ≤ slot sb t.img (dinode sb t.img) σ ∧
      slot sb t.img (dinode sb t.img) σ < t.freeblock
  inums : ∀ i, ROOTINO ≤ i → i < t.freeinode →
    i < sb.ninodes ∧ sb.inodestart ≤ IBLOCK sb i ∧ IBLOCK sb i < sb.bmapstart
  file : ∀ j (hj : j < files.length), (dinode sb t.img (j+2)).type = T_FILE ∧
    (dinode sb t.img (j+2)).nlink = 1 ∧
    NamedOnce t.img (dinode sb t.img ROOTINO) (j+2) (files[j]).shortname
  /-- No inode has a hole. -/
  mapped : ∀ i, ROOTINO ≤ i → i < t.freeinode → ∀ k < blocks (dinode sb t.img i).size,
    addrAt t.img (dinode sb t.img i) (place k) ≠ 0

section Image

variable {t : Host} {c : Content} {files : List HostFile} {i k : ℕ}

theorem readsb_superBlock : readsb superBlock = sb := rfl

theorem testBit_bitmapBlock {used : ℕ} (h : used ≤ BPB) (b : ℕ) :
    (bitmapBlock used).testBit b = decide (b < used) := by
  induction used with
  | zero => simp [bitmapBlock,Bytes.testBit]
  | succ m ih =>
    have hs : bitmapBlock (m+1) = (bitmapBlock m).setBit m := by
      simp [bitmapBlock,range_succ]
    rw [hs,Bytes.testBit_setBit _ (by simp only [BPB] at h; omega),ih (by omega)]
    by_cases hb : b = m
    · simp [hb]
    · rw [if_neg hb]
      exact decide_eq_decide.mpr (by omega)

theorem Final.inUse_iff (hf : Final t c) {b : ℕ} (hb : BBLOCK sb b < sb.datastart) :
    inUse sb t.img b = true ↔ b < t.freeblock := by
  have hq : BBLOCK sb b = sb.bmapstart := by
    have hd : sb.datastart = sb.bmapstart+1 := by decide
    have := Fs.Superblock.Layout.le_bblock sb b
    omega
  have hlt : b < BPB := by
    unfold BBLOCK at hq
    exact Nat.lt_of_div_eq_zero (by decide) (by omega)
  rw [inUse,hq,hf.bitmap,testBit_bitmapBlock (hf.le.trans (by decide)),Nat.mod_eq_of_lt hlt,
    decide_eq_true_iff]

/-- The bytes of the mapped blocks of inode `i`. -/
theorem Final.fileByte_eq (hf : Final t c) (hi : 1 ≤ i) (hn : i < c.n) (hk : k < c.blocks i*BSIZE) :
    fileByte t.img (dinode sb t.img i) k = (c.data i).getD k 0 := by
  have hn' : i < t.freeinode := hf.n ▸ hn
  rw [← hf.laid.mapping.byte i hi hn' k hk,hf.laid.slot_eq hi hn',fileByte]

theorem Final.addrAt_ne_zero_iff (hf : Final t c) (hi : 1 ≤ i) (hn : i < c.n) (hk : k < MAXFILE) :
    addrAt t.img (dinode sb t.img i) (place k) ≠ 0 ↔ k < c.blocks i := by
  have hn' : i < t.freeinode := hf.n ▸ hn
  rw [← hf.laid.slot_eq hi hn']
  exact hf.laid.mapping.mapped i hi hn' k hk

theorem Final.bytesFrom_eq (hf : Final t c) (hi : 1 ≤ i) (hn : i < c.n) {off len : ℕ}
    (hk : off+len ≤ c.blocks i*BSIZE) :
    bytesFrom t.img (dinode sb t.img i) off len =
      (range len).map fun j => (c.data i).getD (off+j) 0 := by
  refine map_congr_left fun j hj => hf.fileByte_eq hi hn ?_
  have := mem_range.mp hj
  omega

theorem length_le_blocks (c : Content) (i : ℕ) : (c.data i).length ≤ c.blocks i*BSIZE :=
  length_le_of_blocks_le le_rfl

/-- The entries of the root directory are those that `mkfs` wrote. -/
theorem Final.entry_eq {ns : List Str} {de : Dirent} (hf : Final t c) (hl : Listed c ns)
    (hi : ns.length+2 ≤ 2^16) (hns : ∀ name ∈ ns, name.length ≤ DIRSIZ ∧ 0 ∉ name)
    (hk : (rootEntries ns)[k]? = some de) : entry t.img (dinode sb t.img ROOTINO) k = de := by
  obtain ⟨hlt,rfl⟩ := List.getElem?_eq_some_iff.mp hk
  have hroot : ROOTINO < c.n := by
    rw [hl.n]
    simp only [ROOTINO]
    omega
  have hlen : (c.data ROOTINO).length = DESIZE*(rootEntries ns).length := by
    rw [hl.root,flatMap_bytes_length]
  have hle := length_le_blocks c ROOTINO
  have hend : DESIZE*k+DESIZE ≤ c.blocks ROOTINO*BSIZE := by
    have := Nat.mul_le_mul_left DESIZE (Nat.succ_le_of_lt hlt)
    rw [Nat.mul_succ] at this
    omega
  have hbytes : bytesFrom t.img (dinode sb t.img ROOTINO) (DESIZE*k) DESIZE =
      ((rootEntries ns)[k]).bytes := by
    rw [hf.bytesFrom_eq le_rfl hroot hend]
    refine ext_getElem (by simp) fun j hj hj' => ?_
    rw [length_map,length_range] at hj
    rw [getElem_map,getElem_range,hl.root,entry_byte hlt hj,getD_eq_getElem _ _ hj']
  rw [entry,hbytes,ofBytes_of_mem hi hns hk]

/-- Behind the entries the mapped part of the root directory is empty. -/
theorem Final.entry_inum_eq_zero {ns : List Str} (hf : Final t c) (hl : Listed c ns)
    (hk : ns.length+2 ≤ k) (hend : DESIZE*k+DESIZE ≤ c.blocks ROOTINO*BSIZE) :
    (entry t.img (dinode sb t.img ROOTINO) k).inum = 0 := by
  have hroot : ROOTINO < c.n := by
    rw [hl.n]
    simp only [ROOTINO]
    omega
  have hlen : (c.data ROOTINO).length ≤ DESIZE*k := by
    rw [hl.root,flatMap_bytes_length,rootEntries_length]
    exact Nat.mul_le_mul_left _ hk
  have hzero : bytesFrom t.img (dinode sb t.img ROOTINO) (DESIZE*k) DESIZE =
      replicate DESIZE 0 := by
    rw [hf.bytesFrom_eq le_rfl hroot hend,eq_replicate_iff]
    refine ⟨by simp,fun x hx => ?_⟩
    obtain ⟨j,-,rfl⟩ := mem_map.mp hx
    exact getD_eq_default _ _ (hlen.trans (Nat.le_add_right _ _))
  rw [entry,hzero]
  rfl

theorem mem_path_of_mem_shortname {f : HostFile} {x : UInt8} (h : x ∈ f.shortname) : x ∈ f.path := by
  have hdir : x ∈ stripDir f.path := by
    unfold HostFile.shortname stripMark at h
    split at h
    · exact mem_of_mem_drop h
    · exact h
  unfold stripDir at hdir
  split at hdir
  · exact mem_of_mem_drop hdir
  · exact hdir

theorem shortnames_ok (hacc : ∀ f ∈ files, f.Accepted) :
    ∀ name ∈ files.map HostFile.shortname, name.length ≤ DIRSIZ ∧ 0 ∉ name := by
  intro name hname
  obtain ⟨f,hf,rfl⟩ := mem_map.mp hname
  exact ⟨(hacc f hf).short,fun h0 => f.nul (mem_path_of_mem_shortname h0)⟩

theorem contentOf_listed (hn : files.length ≤ NINODES-2) :
    Listed (contentOf files) (files.map HostFile.shortname) := by
  rw [← names_callsFrom 2]
  refine content_listed (legal_callsFrom (by decide) ?_)
  simp only [NINODES] at *
  omega

/-- The size of the root directory at the end, in blocks. -/
theorem Final.root_blocks {ns : List Str} (hf : Final t c) (hl : Listed c ns) :
    blocks (dinode sb t.img ROOTINO).size = (ns.length+2)/(BSIZE/DESIZE)+1 ∧
      (dinode sb t.img ROOTINO).size = blocks (dinode sb t.img ROOTINO).size*BSIZE := by
  have hroot : ROOTINO < c.n := by
    rw [hl.n]
    simp only [ROOTINO]
    omega
  rw [hf.size ROOTINO le_rfl hroot,if_pos rfl,hl.root,flatMap_bytes_length,rootEntries_length]
  simp only [blocks,BSIZE,DESIZE]
  omega

theorem Listed.root_blocks {ns : List Str} (hl : Listed c ns) :
    c.blocks ROOTINO = (ns.length+2+63)/(BSIZE/DESIZE) := by
  rw [Content.blocks,hl.root,flatMap_bytes_length,rootEntries_length]
  simp only [blocks,BSIZE,DESIZE]
  omega

/-- Behind a full block the rounded size reaches into one that has never been allocated. -/
theorem Final.hole (hf : Final t c) {ns : List Str} (hl : Listed c ns)
    (hmod : (ns.length+2) % (BSIZE/DESIZE) = 0) (hn : ns.length+2 ≤ NINODES) :
    (ns.length+2)/(BSIZE/DESIZE) < blocks (dinode sb t.img ROOTINO).size ∧
      addrAt t.img (dinode sb t.img ROOTINO) (place ((ns.length+2)/(BSIZE/DESIZE))) = 0 := by
  have hroot : ROOTINO < c.n := by
    rw [hl.n]
    simp only [ROOTINO]
    omega
  refine ⟨by rw [(hf.root_blocks hl).1]; omega,?_⟩
  have hmax : (ns.length+2)/(BSIZE/DESIZE) < MAXFILE :=
    lt_of_le_of_lt (Nat.div_le_div_right hn) (by decide)
  refine not_ne_iff.mp fun hne => ?_
  have hlt := (hf.addrAt_ne_zero_iff le_rfl hroot hmax).mp hne
  rw [hl.root_blocks] at hlt
  simp only [BSIZE,DESIZE] at *
  omega

theorem Final.namedOnce {ns : List Str} (hf : Final t c) (hl : Listed c ns)
    (hi : ns.length+2 ≤ 2^16) (hns : ∀ name ∈ ns, name.length ≤ DIRSIZ ∧ 0 ∉ name)
    (hmod : (ns.length+2) % (BSIZE/DESIZE) ≠ 0) {j : ℕ} {name : Str} (hj : ns[j]? = some name) :
    NamedOnce t.img (dinode sb t.img ROOTINO) (j+2) name := by
  obtain ⟨hlt,-⟩ := List.getElem?_eq_some_iff.mp hj
  have hb := hl.root_blocks
  obtain ⟨hb',hsize⟩ := hf.root_blocks hl
  have hent : (rootEntries ns)[j+2]? = some ⟨j+2,name⟩ := by
    rw [rootEntries_add_two,hj]
    rfl
  refine ⟨j+2,?_,hf.entry_eq hl hi hns hent,fun l hl' hinum => ?_⟩
  · rw [hsize,hb']
    simp only [BSIZE,DESIZE] at *
    omega
  by_cases hin : l < ns.length+2
  · obtain ⟨de,hde⟩ : ∃ de, (rootEntries ns)[l]? = some de :=
      ⟨_,List.getElem?_eq_getElem (by rwa [rootEntries_length])⟩
    rw [hf.entry_eq hl hi hns hde] at hinum
    match l with
    | 0 | 1 =>
      obtain rfl := Option.some.inj hde
      exact absurd hinum (by simp only [ROOTINO]; omega)
    | l+2 =>
      rw [rootEntries_add_two,Option.map_eq_some_iff] at hde
      obtain ⟨_,-,rfl⟩ := hde
      exact hinum
  · have hzero := hf.entry_inum_eq_zero hl (Nat.not_lt.mp hin) (by
      rw [hsize,hb'] at hl'
      rw [hb]
      simp only [BSIZE,DESIZE] at *
      omega)
    omega

theorem regions_eq : range sb.logstart++range' sb.logstart sb.nlog ++
    range' sb.inodestart (sb.ninodes/IPB+1)++range' sb.bmapstart (sb.size/BPB+1) ++
    range' sb.datastart nblocks = range FSSIZE := by
  have hjoin (m k : ℕ) : range m++range' m k = range (m+k) := by
    rw [range_eq_range',range_eq_range']
    simpa using @range'_append 0 m k 1
  rw [hjoin,show sb.inodestart = sb.logstart+sb.nlog from rfl,hjoin,
    show sb.bmapstart = sb.logstart+sb.nlog+(sb.ninodes/IPB+1) from rfl,hjoin,
    show sb.datastart = sb.logstart+sb.nlog+(sb.ninodes/IPB+1)+(sb.size/BPB+1) from rfl,
    hjoin]
  rfl

theorem Final.wellFormed (hf : Final t (contentOf files)) (hacc : ∀ f ∈ files, f.Accepted)
    (hn : files.length ≤ NINODES-2) (hmod : (files.length+2) % (BSIZE/DESIZE) ≠ 0) :
    WellFormed files t := by
  have hl := contentOf_listed hn
  have hcn : t.freeinode = files.length+2 := by
    rw [hf.n,hl.n,length_map]
  have hsmall : (files.map HostFile.shortname).length+2 ≤ 2^16 := by
    rw [length_map]
    simp only [NINODES] at hn
    omega
  have hmod' : ((files.map HostFile.shortname).length+2) % (BSIZE/DESIZE) ≠ 0 := by
    rwa [length_map]
  refine ⟨by rw [hf.super]; rfl,?_,fun b hb => hf.inUse_iff hb,?_,?_,fun i hi hin => ?_,
    fun j hj => ?_,fun i hi hin k hk => ?_⟩
  · rw [hf.super,hf.laid.len]
    exact regions_eq
  · exact fun σ τ hne he => hf.laid.books.accounts.inj he hne
  · exact fun σ hne => hf.laid.books.bounds hne
  · have hlt := hin.trans_le hf.laid.inums
    exact ⟨hlt,Nat.le_add_left ..,sb_layout.iblock_lt ⟨hi,hlt⟩⟩
  · have hmade := hf.laid.made (j+2) (by omega) (by omega)
    refine ⟨hmade.type.trans (if_neg (by simp only [ROOTINO]; omega)),hmade.nlink,?_⟩
    refine hf.namedOnce hl hsmall (shortnames_ok hacc) hmod' ?_
    rw [List.getElem?_map,List.getElem?_eq_getElem hj]
    rfl
  · have hin' : i < (contentOf files).n := hf.n ▸ hin
    have hmax := hf.laid.mapping.le i hi hin
    have hb : blocks (dinode sb t.img i).size = (contentOf files).blocks i := by
      by_cases he : i = ROOTINO
      · subst he
        rw [(hf.root_blocks hl).1,hl.root_blocks]
        simp only [BSIZE,DESIZE] at *
        omega
      · rw [hf.size i hi hin',if_neg he,Content.blocks]
    rw [hb] at hk
    exact (hf.addrAt_ne_zero_iff hi hin' (hk.trans_le hmax)).mpr hk

/-- On the files `mkfs` accepts, the image is well formed unless there are too many of them for
the inodes, or as many as fill the blocks of the root directory. -/
theorem mkfs_image_wellFormed {files : List HostFile} {t : Host}
    (hrun : (main files).run .start = .ok ((),t)) :
    WellFormed files t ↔
      files.length ≤ NINODES - 2 ∧ (files.length + 2) % (BSIZE/DESIZE) ≠ 0 := by
  constructor
  · intro hw
    have hfree := main_freeinode hrun
    have hn : files.length ≤ NINODES-2 := by
      by_contra hlt
      have := (hw.inums (files.length+1) (by simp only [ROOTINO]; omega) (by omega)).1
      simp only [sb,NINODES] at *
      omega
    refine ⟨hn,fun hmod => ?_⟩
    obtain ⟨-,hf⟩ := (main_spec hn).of_ok hrun
    have hl := contentOf_listed hn
    obtain ⟨hlt,h0⟩ := hf.hole hl (by rwa [length_map]) (by
      rw [length_map]
      simp only [NINODES] at *
      omega)
    exact hw.mapped ROOTINO le_rfl (by simp only [ROOTINO]; omega) _ hlt h0
  · rintro ⟨hn,hmod⟩
    obtain ⟨hacc,hf⟩ := (main_spec hn).of_ok hrun
    exact hf.wellFormed hacc hn hmod

/-- A bound on the blocks that `files` take. -/
theorem contentOf_fits {B : ℕ → ℕ} (hn : files.length ≤ NINODES-2)
    (hroot : (files.length+2+63)/(BSIZE/DESIZE) = B ROOTINO)
    (hB : ∀ i < files.length+2, 2 ≤ i → blocks (appended i (callsFrom 2 files)).length = B i)
    (hmax : ∀ i < files.length+2, B i ≤ MAXFILE) (hneed : need (files.length+2) B ≤ FSSIZE) :
    (contentOf files).Fits := by
  have hl := contentOf_listed hn
  have hcn : (contentOf files).n = files.length+2 := by
    rw [hl.n,length_map]
  have hlegal : Legal 2 (callsFrom 2 files) := legal_callsFrom (by decide) (by
    simp only [NINODES] at *
    omega)
  have hblocks (i : ℕ) (hi : 1 ≤ i) (hlt : i < files.length+2) :
      (contentOf files).blocks i = B i := by
    by_cases he : i = ROOTINO
    · subst he
      rw [hl.root_blocks,length_map,hroot]
    · have h2 : 2 ≤ i := by
        simp only [ROOTINO] at he
        omega
      rw [← hB i hlt h2,Content.blocks,contentOf,content_data hlegal h2 (hcn.symm ▸ hlt)]
  refine ⟨fun i hi hlt => ?_,?_⟩
  · rw [hcn] at hlt
    exact length_le_of_blocks_le ((hblocks i hi hlt).le.trans (hmax i hlt))
  · rw [hcn,show need _ _ = need _ B from congrArg (nmeta + ·) (Finset.sum_congr rfl fun i hi => by
      rw [hblocks i (Finset.mem_Ico.mp hi).1 (Finset.mem_Ico.mp hi).2])]
    exact hneed

theorem main_run (hacc : ∀ f ∈ files, f.Accepted) (hn : files.length ≤ NINODES-2)
    (hfits : (contentOf files).Fits) : ∃ t, (main files).run .start = .ok ((),t) := by
  obtain ⟨_,t,hrun,-⟩ := (main_spec hn).ends fun _ he => he ⟨hacc,hfits⟩
  exact ⟨t,hrun⟩

end Image

/-- `user/_cat` with three bytes. -/
def catFile : HostFile where
  path := userDir ++ [underscore,99,97,116]
  reads := some [[1,2,3]]
  nul := by decide
  size := by simp [BSIZE]

theorem mkfs_image_wellFormed_cat : ∃ t, (main [catFile]).run .start = .ok ((),t) ∧
    WellFormed [catFile] t := by
  have hacc : ∀ f ∈ [catFile], f.Accepted := by
    simp only [mem_singleton,forall_eq]
    exact ⟨by decide,rfl,by decide⟩
  obtain ⟨t,hrun⟩ := main_run hacc (by decide)
    (contentOf_fits (B := fun _ => 1) (by decide) rfl (by decide) (by decide) (by decide))
  exact ⟨t,hrun,(mkfs_image_wellFormed hrun).mpr ⟨by decide,by decide⟩⟩

/-- An empty file with a name of two letters. -/
def spareFile (i : Fin 62) : HostFile where
  path := [UInt8.ofNat (97 + i % 26),UInt8.ofNat (97 + i/26)]
  reads := some []
  nul := by revert i; decide
  size := by simp

/-- Together with `.` and `..` the names of 62 files fill a block, and the root directory gets a
size of two. -/
theorem root_hole_of_sixty_two_files :
    (((List.finRange 62).map spareFile).map HostFile.shortname).Nodup ∧
    ∃ t, (main ((List.finRange 62).map spareFile)).run .start = .ok ((),t) ∧
      ¬ WellFormed ((List.finRange 62).map spareFile) t := by
  have hacc : ∀ f ∈ (finRange 62).map spareFile, f.Accepted := by
    intro f hf
    obtain ⟨i,-,rfl⟩ := mem_map.mp hf
    clear hf
    exact ⟨by revert i; decide,rfl,by revert i; decide⟩
  have hn : ((finRange 62).map spareFile).length = 62 := by
    rw [length_map,length_finRange]
  have hle : ((finRange 62).map spareFile).length ≤ NINODES-2 := by
    rw [hn]
    decide
  obtain ⟨t,hrun⟩ := main_run hacc hle (contentOf_fits
    (B := fun i => if i = ROOTINO then 1 else 0) hle (by rw [hn]; rfl)
    (by rw [hn]; decide +kernel) (by rw [hn]; decide) (by rw [hn]; decide))
  refine ⟨by decide +kernel,t,hrun,fun hw => ?_⟩
  obtain ⟨-,hf⟩ := (main_spec hle).of_ok hrun
  obtain ⟨hlt,h0⟩ := hf.hole (contentOf_listed hle) (by rw [length_map,hn]; rfl)
    (by rw [length_map,hn]; decide)
  exact hw.mapped ROOTINO le_rfl (by rw [main_freeinode hrun]; simp) _ hlt h0

end Mkfs
end Xv6
