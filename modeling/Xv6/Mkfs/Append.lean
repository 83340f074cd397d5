import Xv6.Mkfs.Layout

/-! `iappend` puts bytes behind the end of a file. -/
namespace Xv6
namespace Mkfs

open Prog Function List
open Fs (Superblock Dinode NDIRECT NINDIRECT MAXFILE IPB BPB IBLOCK dinodeOff dinode slot place addrAt)
open Names (ROOTINO T_DIR T_FILE)

theorem sb_layout : sb.Layout := by decide

theorem isInum_iff {i : ℕ} : sb.IsInum i ↔ 1 ≤ i ∧ i < NINODES := Iff.rfl

/-- The type `mkfs` gives to inode `i`. -/
def kind (i : ℕ) : ℕ := if i = ROOTINO then T_DIR else T_FILE

theorem kind_ne_zero (i : ℕ) : kind i ≠ 0 := by
  unfold kind
  split <;> decide

/-- Inode `i` as `mkfs` makes it. -/
structure Made (i : ℕ) (d : Dinode) : Prop where
  type : d.type = kind i
  nlink : d.nlink = 1
  fits : d.Fits

/-- The blocks behind the metadata and below `fb` are those in the block maps, and the blocks
from `fb` on are zero. -/
structure Books (img : ℕ → Block) (D : ℕ → Dinode) (fb : ℕ) : Prop where
  accounts : Accounts (slot sb img D) fun b => nmeta ≤ b ∧ b < fb
  zero : ∀ b, fb ≤ b → img b = Bytes.zero BSIZE
  ge : nmeta ≤ fb

section Books

variable {img : ℕ → Block} {D : ℕ → Dinode} {fb i j k : ℕ} {σ : ℕ × ℕ}

theorem Books.bounds (h : Books img D fb) (hσ : slot sb img D σ ≠ 0) :
    nmeta ≤ slot sb img D σ ∧ slot sb img D σ < fb := h.accounts.used_of_ne hσ

theorem Books.assign (h : Books img D fb) (hσ : slot sb img D σ = 0) :
    Accounts (update (slot sb img D) σ fb) fun b => nmeta ≤ b ∧ b < fb+1 := by
  have hge := h.ge
  refine h.accounts.assign hσ ?_ (by omega) fun c => by omega
  have : 0 < nmeta := by decide
  omega

/-- The next block becomes a direct block or the indirect block of inode `i`. -/
theorem Books.takeAddr (h : Books img D fb) (hi : sb.IsInum i) (ht : (D i).type ≠ 0)
    (hk : k ≤ NDIRECT) (h0 : (D i).addr k = 0) :
    Books img (update D i ((D i).setAddr k fb)) (fb+1) ∧
      slot sb img (update D i ((D i).setAddr k fb)) =
        update (slot sb img D) (i,k) fb := by
  have hslot : slot sb img (update D i ((D i).setAddr k fb)) =
      update (slot sb img D) (i,k) fb :=
    Fs.slot_setAddr hi ht hk fun he => ⟨he ▸ h0,h.zero fb le_rfl⟩
  refine ⟨⟨?_,fun b hb => h.zero b (by omega),by have := h.ge; omega⟩,hslot⟩
  rw [hslot]
  exact h.assign (by rw [Fs.slot_of_alloc hi ht,Fs.addrAt_direct hk,h0])

/-- The next block goes into an entry of the indirect block of inode `i`. -/
theorem Books.takeEntry (h : Books img D fb) (hi : sb.IsInum i) (ht : (D i).type ≠ 0)
    (hj : j < NINDIRECT) (hind : (D i).addr NDIRECT ≠ 0)
    (h0 : (img ((D i).addr NDIRECT)).getLE (4*j) 4 = 0) (hfb : fb < 2^32) :
    Books (update img ((D i).addr NDIRECT)
        ((img ((D i).addr NDIRECT)).setLE (4*j) 4 fb)) D (fb+1) ∧
      slot sb (update img ((D i).addr NDIRECT)
        ((img ((D i).addr NDIRECT)).setLE (4*j) 4 fb)) D =
        update (slot sb img D) (i,NDIRECT+1+j) fb := by
  have hat : slot sb img D (i,NDIRECT) = (D i).addr NDIRECT := by
    rw [Fs.slot_of_alloc hi ht,Fs.addrAt_ndirect]
  have hslot : slot sb (update img ((D i).addr NDIRECT)
      ((img ((D i).addr NDIRECT)).setLE (4*j) 4 fb)) D =
      update (slot sb img D) (i,NDIRECT+1+j) fb :=
    Fs.slot_setEntry hi ht hj hind hfb fun l hl =>
      (Prod.mk.inj (h.accounts.inj (hl.trans hat.symm) (by rwa [hl]))).1
  refine ⟨⟨?_,fun b hb => ?_,by have := h.ge; omega⟩,hslot⟩
  · rw [hslot]
    exact h.assign (by rw [Fs.slot_of_alloc hi ht,Fs.addrAt_entry hj hind,h0])
  · have hlt := (h.bounds (hat ▸ hind)).2
    rw [update_of_ne (by omega),h.zero b (by omega)]

end Books

/-- The image with the inodes `D` holds the files `C`, of which `B i` blocks are mapped. -/
structure Base (h : Host) (D : ℕ → Dinode) (B : ℕ → ℕ) (C : ℕ → List UInt8) : Prop where
  len : h.len = FSSIZE
  inums : h.freeinode ≤ NINODES
  made : ∀ i, 1 ≤ i → i < h.freeinode → Made i (D i)
  free : ∀ i, h.freeinode ≤ i → i < NINODES → (D i).type = 0
  books : Books h.img D h.freeblock
  mapping : Mapping (slot sb h.img D) h.img h.freeinode B C

/-- Besides, there are indirect blocks just where they are needed. -/
structure Laid (h : Host) (D : ℕ → Dinode) (B : ℕ → ℕ) (C : ℕ → List UInt8) : Prop
    extends Base h D B C where
  indirect : ∀ i, 1 ≤ i → i < h.freeinode → (slot sb h.img D (i,NDIRECT) ≠ 0 ↔ NDIRECT < B i)
  count : h.freeblock = need h.freeinode B

/-- What appending leaves alone. -/
structure Grown (h t : Host) : Prop where
  len : t.len = h.len
  freeinode : t.freeinode = h.freeinode
  metadata : ∀ b < nmeta, t.img b = h.img b

theorem Grown.refl (h : Host) : Grown h h := ⟨rfl,rfl,fun _ _ => rfl⟩

theorem Grown.trans {h t u : Host} (a : Grown h t) (b : Grown t u) : Grown h u :=
  ⟨b.len.trans a.len,b.freeinode.trans a.freeinode,
    fun c hc => (b.metadata c hc).trans (a.metadata c hc)⟩

/-- The image with block `b` overwritten. -/
def Host.put (h : Host) (b : ℕ) (x : Block) : Host :=
  { h with img := update h.img b x }

/-- The next block is taken. -/
def Host.taken (h : Host) : Host := { h with freeblock := h.freeblock + 1 }

section Sectors

variable {h : Host} {b : ℕ}

theorem sector_eq (hb : b < 2^22) : sector b = b := Nat.mod_eq_of_lt hb

theorem rsect_run (hlen : h.len = FSSIZE) (hb : b < FSSIZE) : (rsect b).run h = .ok (h.img b,h) := by
  have hs : sector b = b := sector_eq (hb.trans (by decide))
  show rsect b h = _
  rw [rsect,hs,if_pos (by omega)]

theorem rsect_stops (hlen : h.len = FSSIZE) (hb : FSSIZE ≤ b) (hlt : b < 2^22) :
    (rsect b).run h = .error .read := by
  show rsect b h = _
  rw [rsect,sector_eq hlt,if_neg (by omega)]

theorem wsect_run (hlen : h.len = FSSIZE) (hb : b < FSSIZE) (x : Block) :
    (wsect b x).run h = .ok ((),h.put b x) := by
  have hs : sector b = b := sector_eq (hb.trans (by decide))
  show wsect b x h = _
  rw [wsect,hs,Nat.max_eq_left (by omega)]
  rfl

end Sectors

section Blocks

variable {h t : Host} {D D' : ℕ → Dinode} {B : ℕ → ℕ} {C : ℕ → List UInt8} {i j k : ℕ}

theorem Base.isInum (hb : Base h D B C) (hi : 1 ≤ i) (hn : i < h.freeinode) : sb.IsInum i :=
  isInum_iff.mpr ⟨hi,hn.trans_le hb.inums⟩

theorem Base.type_ne (hb : Base h D B C) (hi : 1 ≤ i) (hn : i < h.freeinode) : (D i).type ≠ 0 := by
  rw [(hb.made i hi hn).type]
  exact kind_ne_zero i

theorem Base.slot_eq (hb : Base h D B C) (hi : 1 ≤ i) (hn : i < h.freeinode) (p : ℕ) :
    slot sb h.img D (i,p) = addrAt h.img (D i) p :=
  Fs.slot_of_alloc (hb.isInum hi hn) (hb.type_ne hi hn) p

theorem Base.addr_ndirect (hb : Base h D B C) (hi : 1 ≤ i) (hn : i < h.freeinode) :
    slot sb h.img D (i,NDIRECT) = (D i).addr NDIRECT := by
  rw [hb.slot_eq hi hn,Fs.addrAt_ndirect]

theorem place_direct (hk : k < NDIRECT) : place k = k := if_pos hk

theorem place_indirect (hk : ¬ k < NDIRECT) : place k = NDIRECT+1+(k-NDIRECT) := by
  rw [place,if_neg hk]
  omega

/-- The block of a part of the file that has one already. -/
theorem blockFor_present (hb : Laid h D B C) (hle : h.freeblock ≤ FSSIZE) (hi : 1 ≤ i)
    (hn : i < h.freeinode) (hk : k < B i) :
    (blockFor (D i) k).run h = .ok ((slot sb h.img D (i,place k),D i),h) := by
  have hne := hb.mapping.ne_zero hi hn hk
  rw [hb.slot_eq hi hn] at hne ⊢
  unfold blockFor
  by_cases hd : k < NDIRECT
  · rw [place_direct hd,Fs.addrAt_direct hd.le] at hne ⊢
    rw [if_pos hd,addrOrTake,if_neg hne]
    rfl
  · have hj : k-NDIRECT < NINDIRECT := by
      have := hb.mapping.le i hi hn
      unfold MAXFILE at this
      omega
    have hind : (D i).addr NDIRECT ≠ 0 := by
      rw [← hb.addr_ndirect hi hn]
      exact (hb.indirect i hi hn).mpr (by omega)
    have hlt := (hb.books.bounds (by rwa [hb.addr_ndirect hi hn])).2
    rw [hb.addr_ndirect hi hn] at hlt
    rw [place_indirect hd,Fs.addrAt_entry hj hind] at hne ⊢
    rw [if_neg hd,addrOrTake,if_neg hind,run_bind_of_run rfl,entryOrTake,
      run_bind_of_run (t := h) (a := _) (by
        rw [run_bind_of_run (rsect_run hb.len (by omega)),if_neg hne]; rfl)]
    rfl

/-- The next block, which is zero, becomes the next block of file `i`. -/
theorem Base.extend (hb : Base h D B C) (hi : 1 ≤ i) (hn : i < h.freeinode) (hk : B i = k)
    (hmax : k < MAXFILE) (hlen : (C i).length ≤ k*BSIZE) (htl : t.len = h.len)
    (htn : t.freeinode = h.freeinode) (htb : t.freeblock = h.freeblock+1)
    (hmade : ∀ i, 1 ≤ i → i < h.freeinode → Made i (D' i))
    (hfree : ∀ i, h.freeinode ≤ i → i < NINODES → (D' i).type = 0)
    (hbooks : Books t.img D' (h.freeblock+1))
    (hslot : slot sb t.img D' = update (slot sb h.img D) (i,place k) h.freeblock)
    (hsame : ∀ b, nmeta ≤ b → (∀ l, slot sb h.img D (l,NDIRECT) ≠ 0 →
      slot sb h.img D (l,NDIRECT) ≠ b) → t.img b = h.img b) :
    Base t D' (update B i (k+1)) C where
  len := htl.trans hb.len
  inums := htn ▸ hb.inums
  made := htn ▸ hmade
  free := htn ▸ hfree
  books := htb ▸ hbooks
  mapping := by
    have hnot (l : ℕ) (hl : slot sb h.img D (l,NDIRECT) ≠ 0) :
        slot sb h.img D (l,NDIRECT) < h.freeblock := (hb.books.bounds hl).2
    have hge := hb.books.ge
    have hpos : 0 < nmeta := by decide
    have hmap : Mapping (slot sb h.img D) t.img h.freeinode B C := by
      refine hb.mapping.congr fun j l hl => hsame _ (hb.books.bounds hl).1 fun m hm he => ?_
      exact Fs.place_ne_ndirect l (Prod.mk.inj (hb.books.accounts.inj he hm)).2.symm
    rw [hslot,htn]
    refine hmap.extend hi hn hk hmax (by omega) ?_ hlen
    rw [hsame _ hge fun l hl => (hnot l hl).ne,hb.books.zero _ le_rfl]

theorem Made.setAddr {d : Dinode} (hd : Made i d) (k : ℕ) {a : ℕ} (ha : a < 2^32) :
    Made i (d.setAddr k a) where
  type := hd.type
  nlink := hd.nlink
  fits :=
    { type := hd.fits.type
      major := hd.fits.major
      minor := hd.fits.minor
      nlink := hd.fits.nlink
      size := hd.fits.size
      addrs := fun l => by
        simp only [Dinode.setAddr]
        split
        · exact ha
        · exact hd.fits.addrs l }

/-- The outcome of `blockFor` for block `k` of file `i`. -/
structure Placed (h t : Host) (D : ℕ → Dinode) (B : ℕ → ℕ) (C : ℕ → List UInt8) (i k : ℕ)
    (r : ℕ × Dinode) : Prop where
  laid : Laid t (update D i r.2) (update B i (k+1)) C
  block : r.1 = slot sb t.img (update D i r.2) (i,place k)
  grown : Grown h t
  /-- At most the block returned lies behind the end of the image. -/
  fresh : t.freeblock ≤ FSSIZE ∨ t.freeblock = FSSIZE + 1 ∧ r.1 = FSSIZE

theorem span_direct (hk : k < NDIRECT) : span (k+1) = span k+1 := by
  unfold span
  rw [if_neg (by omega),if_neg (by omega)]

theorem span_entry (hk : NDIRECT < k) : span (k+1) = span k+1 := by
  unfold span
  rw [if_pos (by omega),if_pos hk]

theorem span_indirect : span (NDIRECT+1) = span NDIRECT+2 := by decide

theorem blockFor_direct (hb : Laid h D B C) (hle : h.freeblock ≤ FSSIZE) (hi : 1 ≤ i)
    (hn : i < h.freeinode) (hk : B i = k) (hd : k < NDIRECT) (hlen : (C i).length ≤ k*BSIZE) :
    Ends (blockFor (D i) k) h fun r t => Placed h t D B C i k r := by
  have hmax : k < MAXFILE := hd.trans (by decide)
  have h0 : (D i).addr k = 0 := by
    have hat : Fs.addrAt h.img (D i) k = (D i).addr k := Fs.addrAt_direct hd.le
    rw [← hat,← place_direct hd,← hb.slot_eq hi hn]
    exact not_ne_iff.mp fun hne => absurd ((hb.mapping.mapped i hi hn k hmax).mp hne) (by omega)
  have hrun : (blockFor (D i) k).run h =
      .ok (((((D i).setAddr k h.freeblock).addr k,(D i).setAddr k h.freeblock)),h.taken) := by
    rw [blockFor,if_pos hd,addrOrTake,if_pos h0]
    rfl
  obtain ⟨hbooks,hslot⟩ := hb.books.takeAddr (hb.isInum hi hn) (hb.type_ne hi hn) hd.le h0
  have hmade : ∀ l, 1 ≤ l → l < h.freeinode →
      Made l (update D i ((D i).setAddr k h.freeblock) l) := fun l hl hln => by
    by_cases hli : l = i
    · subst hli
      rw [update_self]
      exact (hb.made l hl hln).setAddr k (hle.trans_lt (by decide))
    · rw [update_of_ne hli]
      exact hb.made l hl hln
  have hbase : Base h.taken (update D i ((D i).setAddr k h.freeblock))
      (update B i (k+1)) C :=
    hb.extend hi hn hk hmax hlen rfl rfl rfl hmade
      (fun l hl hln => by rw [update_of_ne (by omega)]; exact hb.free l hl hln) hbooks
      (by rw [place_direct hd]; exact hslot) fun _ _ _ => rfl
  have haddr : ((D i).setAddr k h.freeblock).addr k = h.freeblock := by
    rw [Dinode.addr_setAddr _ (by omega),if_pos rfl]
  refine ⟨_,_,hrun,⟨⟨hbase,fun l hl hln => ?_,?_⟩,?_,⟨rfl,rfl,fun _ _ => rfl⟩,?_⟩⟩
  · have hne : (l,NDIRECT) ≠ (i,k) := fun he => by
      have := (Prod.mk.inj he).2
      omega
    rw [show slot sb h.taken.img _ = _ from hslot,update_of_ne hne,hb.indirect l hl hln]
    by_cases hli : l = i
    · subst hli
      rw [update_self]
      omega
    · rw [update_of_ne hli]
  · have hneed := need_update B (k+1) hi hn
    rw [hk,span_direct hd] at hneed
    have hcount := hb.count
    show h.freeblock+1 = need h.freeinode _
    omega
  · rw [show slot sb h.taken.img _ = _ from hslot,place_direct hd,update_self]
    exact haddr
  · show h.freeblock+1 ≤ FSSIZE ∨ h.freeblock+1 = FSSIZE+1 ∧ _
    rw [haddr]
    omega

/-- The next block goes into the indirect block of inode `i`. -/
theorem entryOrTake_absent (hb : Base h D B C) (hle : h.freeblock ≤ FSSIZE) (hi : 1 ≤ i)
    (hn : i < h.freeinode) (hk : B i = k) (hd : ¬ k < NDIRECT) (hmax : k < MAXFILE)
    (hlen : (C i).length ≤ k*BSIZE) (hind : (D i).addr NDIRECT ≠ 0) :
    Ends (entryOrTake ((D i).addr NDIRECT) (k-NDIRECT)) h fun x t =>
      Base t D (update B i (k+1)) C ∧ x = h.freeblock ∧
      slot sb t.img D = update (slot sb h.img D) (i,place k) h.freeblock ∧
      Grown h t ∧ t.freeblock = h.freeblock+1 := by
  have hj : k-NDIRECT < NINDIRECT := by
    unfold MAXFILE at hmax
    omega
  have h0 : (h.img ((D i).addr NDIRECT)).getLE (4*(k-NDIRECT)) 4 = 0 := by
    rw [← Fs.addrAt_entry hj hind,← place_indirect hd,← hb.slot_eq hi hn]
    exact not_ne_iff.mp fun hne => absurd ((hb.mapping.mapped i hi hn k hmax).mp hne) (by omega)
  have hat := hb.addr_ndirect hi hn
  obtain ⟨hge,hlt⟩ := hb.books.bounds (σ := (i,NDIRECT)) (hat ▸ hind)
  rw [hat] at hge hlt
  obtain ⟨hbooks,hslot⟩ := hb.books.takeEntry (hb.isInum hi hn) (hb.type_ne hi hn) hj hind h0
    (hle.trans_lt (by decide))
  rw [← place_indirect hd] at hslot
  refine ⟨h.freeblock,h.taken.put ((D i).addr NDIRECT) _,?_,?_,rfl,hslot,
    ⟨rfl,rfl,fun b hb => update_of_ne (by omega) _ _⟩,rfl⟩
  · rw [entryOrTake,run_bind_of_run (rsect_run hb.len (by omega)),if_pos h0,
      run_bind_of_run (t := h.taken) rfl,run_bind_of_run (wsect_run (h := h.taken) hb.len (hlt.trans_le hle) _)]
    rfl
  · refine hb.extend hi hn hk hmax hlen rfl rfl rfl hb.made hb.free hbooks hslot fun b _ hne => ?_
    exact update_of_ne (fun he => hne i (hat ▸ hind) (hat.trans he.symm)) _ _

theorem blockFor_entry (hb : Laid h D B C) (hle : h.freeblock ≤ FSSIZE) (hi : 1 ≤ i)
    (hn : i < h.freeinode) (hk : B i = k) (hd : NDIRECT < k) (hmax : k < MAXFILE)
    (hlen : (C i).length ≤ k*BSIZE) :
    Ends (blockFor (D i) k) h fun r t => Placed h t D B C i k r := by
  have hind : (D i).addr NDIRECT ≠ 0 := by
    rw [← hb.addr_ndirect hi hn]
    exact (hb.indirect i hi hn).mpr (by omega)
  rw [blockFor,if_neg (by omega),addrOrTake,if_neg hind]
  refine ends_bind_of_run rfl ?_
  refine (entryOrTake_absent hb.toBase hle hi hn hk (by omega) hmax hlen hind).bind
    fun x t ⟨hbase,hx,hslot,hgrown,htb⟩ => ends_pure ?_
  have hself : update D i (D i) = D := update_eq_self i D
  refine ⟨?_,?_,hgrown,?_⟩
  · rw [hself]
    refine ⟨hbase,fun l hl hln => ?_,?_⟩
    · rw [hgrown.freeinode] at hln
      have hne : (l,NDIRECT) ≠ (i,place k) := fun he =>
        Fs.place_ne_ndirect k (Prod.mk.inj he).2.symm
      rw [hslot,update_of_ne hne,hb.indirect l hl hln]
      by_cases hli : l = i
      · subst hli
        rw [update_self]
        omega
      · rw [update_of_ne hli]
    · have hneed := need_update B (k+1) hi hn
      rw [hk,span_entry hd] at hneed
      have hcount := hb.count
      rw [htb,hgrown.freeinode]
      omega
  · rw [hself,hslot,update_self]
    exact hx
  · rw [htb]
    dsimp only
    omega

/-- The indirect block itself is taken first. -/
theorem blockFor_indirect (hb : Laid h D B C) (hle : h.freeblock ≤ FSSIZE) (hi : 1 ≤ i)
    (hn : i < h.freeinode) (hk : B i = NDIRECT) (hlen : (C i).length ≤ NDIRECT*BSIZE) :
    Meets (blockFor (D i) NDIRECT) h (fun r t => Placed h t D B C i NDIRECT r)
      fun _ => FSSIZE < need h.freeinode (update B i (NDIRECT+1)) := by
  have hat := hb.addr_ndirect hi hn
  have h0 : (D i).addr NDIRECT = 0 := by
    rw [← hat]
    exact not_ne_iff.mp fun hne => absurd ((hb.indirect i hi hn).mp hne) (by omega)
  have hneed := need_update B (NDIRECT+1) hi hn
  rw [hk,span_indirect,← hb.count] at hneed
  obtain ⟨hbooks,hslot⟩ := hb.books.takeAddr (hb.isInum hi hn) (hb.type_ne hi hn) le_rfl h0
  have haddr : ((D i).setAddr NDIRECT h.freeblock).addr NDIRECT = h.freeblock := by
    rw [Dinode.addr_setAddr _ (by omega),if_pos rfl]
  rw [blockFor,if_neg (by omega),addrOrTake,if_pos h0]
  refine meets_bind_of_run (a := (D i).setAddr NDIRECT h.freeblock) (t := h.taken) rfl ?_
  by_cases hfull : h.freeblock = FSSIZE
  · -- the indirect block would lie behind the end of the image
    have hstop : (rsect (((D i).setAddr NDIRECT h.freeblock).addr NDIRECT)).run h.taken =
        .error .read := by
      rw [haddr,hfull]
      exact rsect_stops hb.len le_rfl (by decide)
    exact meets_of_error (stops_bind (stops_bind hstop)) (by omega)
  have hnz : h.freeblock ≠ 0 := by
    have := hb.books.ge
    have : 0 < nmeta := by decide
    omega
  have hself : update D i ((D i).setAddr NDIRECT h.freeblock) i =
      (D i).setAddr NDIRECT h.freeblock := update_self ..
  have hbase : Base h.taken (update D i ((D i).setAddr NDIRECT h.freeblock)) B C := by
    refine ⟨hb.len,hb.inums,fun l hl hln => ?_,fun l hl hln => ?_,hbooks,?_⟩
    · by_cases hli : l = i
      · subst hli
        rw [hself]
        exact (hb.made l hl hln).setAddr NDIRECT (hle.trans_lt (by decide))
      · rw [update_of_ne hli]
        exact hb.made l hl hln
    · rw [update_of_ne (fun he => by subst he; exact absurd hn (Nat.not_lt.mpr hl))]
      exact hb.free l hl hln
    · exact (show slot sb h.taken.img _ = _ from hslot) ▸ hb.mapping.indirect i h.freeblock
  have hentry := entryOrTake_absent hbase (show h.freeblock+1 ≤ FSSIZE by omega) hi hn hk
    (by omega) (by decide) hlen (by rwa [hself,haddr])
  rw [hself] at hentry
  refine ((hentry.bind fun x t ⟨hbase',hx,hslot',hgrown,htb⟩ => ends_pure ?_).meets _)
  have hgrown' : Grown h t := ⟨hgrown.len,hgrown.freeinode,hgrown.metadata⟩
  refine ⟨⟨hbase',fun l hl hln => ?_,?_⟩,?_,hgrown',?_⟩
  · rw [hgrown'.freeinode] at hln
    have hne : (l,NDIRECT) ≠ (i,place NDIRECT) := fun he =>
      Fs.place_ne_ndirect NDIRECT (Prod.mk.inj he).2.symm
    rw [hslot',update_of_ne hne,show slot sb h.taken.img _ = _ from hslot]
    by_cases hli : l = i
    · subst hli
      simp [hnz]
    · rw [update_of_ne fun he => hli (Prod.mk.inj he).1,update_of_ne hli]
      exact hb.indirect l hl hln
  · rw [htb,hgrown'.freeinode]
    show h.freeblock+1+1 = _
    omega
  · rw [hslot',update_self]
    exact hx
  · rw [htb]
    show h.freeblock+1+1 ≤ FSSIZE ∨ _
    have hx' : x = h.freeblock+1 := hx
    dsimp only
    omega

theorem blockFor_spec (hb : Laid h D B C) (hle : h.freeblock ≤ FSSIZE) (hi : 1 ≤ i)
    (hn : i < h.freeinode) (hk : B i = k ∧ (C i).length ≤ k*BSIZE ∨ B i = k+1)
    (hmax : k < MAXFILE) :
    Meets (blockFor (D i) k) h (fun r t => Placed h t D B C i k r)
      fun _ => FSSIZE < need h.freeinode (update B i (k+1)) := by
  obtain ⟨hk,hlen⟩ | hk := hk
  · obtain hd | rfl | hd := lt_trichotomy k NDIRECT
    · exact (blockFor_direct hb hle hi hn hk hd hlen).meets _
    · exact blockFor_indirect hb hle hi hn hk hlen
    · exact (blockFor_entry hb hle hi hn hk hd hmax hlen).meets _
  · refine meets_of_run (blockFor_present hb hle hi hn (by omega)) ?_
    have hD : update D i (D i) = D := update_eq_self i D
    have hB : update B i (k+1) = B := by rw [← hk,update_eq_self]
    exact ⟨by rw [hD,hB]; exact hb,by rw [hD],Grown.refl h,.inl hle⟩

end Blocks

section Pieces

variable {m off : ℕ}

theorem piece_pos (hm : 0 < m) (off : ℕ) : 0 < piece m off := by
  simp only [piece,BSIZE]
  omega

theorem piece_le (m off : ℕ) : piece m off ≤ m := min_le_left ..

theorem piece_fits (m off : ℕ) : off % BSIZE+piece m off ≤ BSIZE := by
  simp only [piece,BSIZE]
  omega

theorem blocks_piece (hm : 0 < m) (off : ℕ) : blocks (off+piece m off) = off/BSIZE+1 := by
  simp only [blocks,piece,BSIZE]
  omega

theorem sub_div_mul (off : ℕ) : off-off/BSIZE*BSIZE = off % BSIZE := by
  simp only [BSIZE]
  omega

theorem blocks_cases (off : ℕ) :
    blocks off = off/BSIZE ∧ off ≤ off/BSIZE*BSIZE ∨ blocks off = off/BSIZE+1 := by
  simp only [blocks,BSIZE]
  omega

theorem length_le_of_blocks_le {l b : ℕ} (h : blocks l ≤ b) : l ≤ b*BSIZE := by
  simp only [blocks,BSIZE] at *
  omega

end Pieces

section Loop

variable {h t : Host} {D : ℕ → Dinode} {B : ℕ → ℕ} {C : ℕ → List UInt8} {i k : ℕ}

/-- The bytes of one round go behind the end of file `i`. -/
theorem Laid.write {xs : List UInt8} (hb : Laid h D B C) (hi : 1 ≤ i) (hn : i < h.freeinode)
    (hk : (C i).length/BSIZE < B i) (hfit : (C i).length % BSIZE+xs.length ≤ BSIZE) :
    Laid (h.put (slot sb h.img D (i,place ((C i).length/BSIZE)))
        ((h.img (slot sb h.img D (i,place ((C i).length/BSIZE)))).splice ((C i).length % BSIZE) xs))
      D B (update C i (C i++xs)) ∧
    Grown h (h.put (slot sb h.img D (i,place ((C i).length/BSIZE)))
        ((h.img (slot sb h.img D (i,place ((C i).length/BSIZE)))).splice ((C i).length % BSIZE) xs))
    := by
  set x := slot sb h.img D (i,place ((C i).length/BSIZE)) with hx
  have hne : x ≠ 0 := hb.mapping.ne_zero hi hn hk
  obtain ⟨hge,hlt⟩ := hb.books.bounds hne
  have hslot (y : Block) : slot sb (update h.img x y) D = slot sb h.img D := by
    refine Fs.slot_congr fun j hj => update_of_ne (fun he => ?_) _ _
    exact Fs.place_ne_ndirect _ (Prod.mk.inj (hb.books.accounts.inj (he.trans hx) hj)).2.symm
  refine ⟨⟨⟨hb.len,hb.inums,hb.made,hb.free,⟨?_,fun b hb' => ?_,hb.books.ge⟩,?_⟩,?_,hb.count⟩,
    ⟨rfl,rfl,fun b hb' => update_of_ne (by omega) _ _⟩⟩
  · exact (hslot _).symm ▸ hb.books.accounts
  · exact (update_of_ne (show b ≠ x by have := hb'; simp only [Host.put] at this; omega)
      _ _).trans (hb.books.zero b hb')
  · exact (hslot _).symm ▸ hb.mapping.write hb.books.accounts hi hn hk hfit rfl
  · exact (hslot _).symm ▸ hb.indirect

/-- The outcome of the loop of `iappend`. -/
structure Appended (h t : Host) (D : ℕ → Dinode) (B : ℕ → ℕ) (C : ℕ → List UInt8) (i : ℕ)
    (p : List UInt8) (r : Dinode × ℕ) : Prop where
  laid : Laid t (update D i r.1) (update B i (blocks ((C i).length + p.length)))
    (update C i (C i ++ p))
  off : r.2 = (C i).length + p.length
  grown : Grown h t
  le : t.freeblock ≤ FSSIZE

theorem appended_nil (hb : Laid h D B C) (hle : h.freeblock ≤ FSSIZE)
    (hk : B i = blocks (C i).length) : Appended h h D B C i [] (D i,(C i).length) where
  laid := by
    rw [update_eq_self,append_nil,update_eq_self,length_nil,
      Nat.add_zero,← hk,update_eq_self]
    exact hb
  off := rfl
  grown := Grown.refl h
  le := hle

/-- The bytes `p` do not fit behind the end of file `i`. -/
def Overflows (n : ℕ) (B : ℕ → ℕ) (i len : ℕ) : Prop :=
  MAXFILE*BSIZE < len ∨ FSSIZE < need n (update B i (blocks len))

theorem appendLoop_spec (fuel : ℕ) {p : List UInt8} (hb : Laid h D B C)
    (hle : h.freeblock ≤ FSSIZE) (hi : 1 ≤ i) (hn : i < h.freeinode)
    (hk : B i = blocks (C i).length) (hfuel : p.length ≤ fuel) :
    Meets (appendLoop fuel (D i) (C i).length p) h (fun r t => Appended h t D B C i p r)
      fun _ => Overflows h.freeinode B i ((C i).length+p.length) := by
  induction fuel generalizing h D B C p with
  | zero =>
    obtain rfl : p = [] := length_eq_zero_iff.mp (by omega)
    exact meets_of_run rfl (appended_nil hb hle hk)
  | succ fuel ih =>
    unfold appendLoop
    by_cases hp : 0 < p.length
    swap
    · obtain rfl : p = [] := length_eq_zero_iff.mp (by omega)
      exact meets_of_run rfl (appended_nil hb hle hk)
    rw [if_pos hp]
    set off := (C i).length with hoff
    set m := piece p.length off with hm
    have hmle : m ≤ p.length := piece_le ..
    have hblk : blocks (off+m) = off/BSIZE+1 := blocks_piece hp off
    have hgrow : off/BSIZE+1 ≤ blocks (off+p.length) :=
      hblk ▸ blocks_mono (by omega)
    by_cases hmax : off/BSIZE < MAXFILE
    swap
    · rw [if_neg hmax]
      refine meets_of_error rfl (.inl ?_)
      have := Nat.div_mul_le_self off BSIZE
      have := Nat.mul_le_mul_right BSIZE (Nat.not_lt.mp hmax)
      omega
    rw [if_pos hmax]
    -- a block too many for the next piece is one too many for the whole of `p`
    have hover : FSSIZE < need h.freeinode (update B i (off/BSIZE+1)) →
        Overflows h.freeinode B i (off+p.length) := fun hlt => by
      refine .inr (hlt.trans_le (need_mono le_rfl fun j _ => ?_))
      by_cases hj : j = i
      · subst hj
        rwa [update_self,update_self]
      · rw [update_of_ne hj,update_of_ne hj]
    refine ((blockFor_spec hb hle hi hn (hk ▸ blocks_cases off) hmax).error
      fun _ => hover).bind fun r t hr => ?_
    have hlaid := hr.laid
    have htn := hr.grown.freeinode
    by_cases hin : r.1 < FSSIZE
    swap
    · have hfull : t.freeblock = FSSIZE+1 ∧ r.1 = FSSIZE := by
        have hlt := (hlaid.books.bounds (hlaid.mapping.ne_zero hi (htn ▸ hn)
          (by rw [update_self]; exact Nat.lt_succ_self _))).2
        rw [← hr.block] at hlt
        have := hr.fresh
        omega
      refine meets_of_error (stops_bind (rsect_stops hlaid.len (by omega) ?_)) (hover ?_)
      · rw [hfull.2]
        decide
      · rw [← htn,← hlaid.count]
        omega
    have htle : t.freeblock ≤ FSSIZE := by
      have := hr.fresh
      omega
    refine meets_bind_of_run (rsect_run hlaid.len hin) ?_
    refine meets_bind_of_run (wsect_run hlaid.len hin _) ?_
    obtain ⟨hlaid',hgrown'⟩ := hlaid.write hi (htn ▸ hn)
      (by rw [update_self]; exact Nat.lt_succ_self _)
      (by rw [length_take,Nat.min_eq_left hmle]; exact piece_fits ..)
    rw [← hoff,← hr.block,← sub_div_mul] at hlaid' hgrown'
    have hlen : (update C i (C i++p.take m) i).length = off+m := by
      rw [update_self,length_append,length_take,Nat.min_eq_left hmle]
    have hrest := ih (p := p.drop m) hlaid' htle (by exact htn ▸ hn)
      (by rw [update_self,hlen,hblk])
      (by have := piece_pos hp off; rw [length_drop]; omega)
    rw [hlen,update_self] at hrest
    have hsum : off+m+(p.drop m).length = off+p.length := by
      rw [length_drop]
      omega
    refine (hrest.error fun e he => ?_).mono fun r' u hu => ?_
    · simpa only [Overflows,hsum,update_idem,Host.put,htn] using he
    · have hl := hu.laid
      rw [hlen,hsum,update_idem,update_idem,update_self,
        update_idem,append_assoc,take_append_drop] at hl
      exact ⟨hl,by rw [hu.off,hlen,hsum],hr.grown.trans (hgrown'.trans hu.grown),hu.le⟩

end Loop

end Mkfs
end Xv6
