import Xv6.Fs.Invariant

/-! A file is a byte array: `writei` overwrites or extends it, `readi` reads it. -/
namespace Xv6
namespace Fs

open Prog List

/-- The bytes of a file. -/
def contents (view : ℕ → Block) (d : Dinode) : List UInt8 := bytesFrom view d 0 d.size

/-- `c` with `xs` in place of what it has from `off` on, extended if need be. -/
def overwrite (c : List UInt8) (off : ℕ) (xs : List UInt8) : List UInt8 :=
  c.take off ++ xs ++ c.drop (off + xs.length)

/-- A source buffer that can be read throughout. -/
def readable (src : List UInt8) (tot m : ℕ) : List UInt8 × Bool := ((src.drop tot).take m,true)

/-- A source of which only the bytes `src` can be read; `copyin` copies what there is before it
fails. -/
def readableUpTo (src : List UInt8) (tot m : ℕ) : List UInt8 × Bool :=
  ((src.drop tot).take m,decide (tot + m ≤ src.length))

/-- The places of the block map that `n` bytes from `off` on need. -/
def placesFor (off n : ℕ) : Finset ℕ :=
  (Finset.Ico (off/BSIZE) ((off + n + BSIZE - 1)/BSIZE)).biUnion bmapPlaces

variable {sb : Superblock} {s t u : State} {ip : Fin NINODE} {view : ℕ → Block} {d : Dinode}

theorem spans_placesFor (off n : ℕ) : Spans (placesFor off n) off n := fun k hk hlt => by
  refine Finset.subset_biUnion_of_mem bmapPlaces (Finset.mem_Ico.mpr ⟨hk,?_⟩)
  simp only [BSIZE] at *
  omega

theorem readable_eq {src : List UInt8} (tot m : ℕ) (h : tot+m ≤ src.length) :
    readable src tot m = readableUpTo src tot m := by
  rw [readable,readableUpTo,decide_eq_true h]

theorem Busy.fileByte_eq (h : Busy sb s ip) (j : ℕ) : fileByte s.view (s.itable ip).d j =
    (s.view (slots sb s ip ((s.itable ip).inum,place (j/BSIZE)))).byte (j % BSIZE) := by
  rw [fileByte,h.slots_self]

/-- One round changes the bytes of its chunk and no other byte the file had. -/
theorem Round.fileByte {a off : ℕ} {xs : List UInt8} (h : Round sb ip s a off xs t)
    (hs : Busy sb s ip) (hxs : off % BSIZE+xs.length ≤ BSIZE) {j : ℕ}
    (hj : (off ≤ j ∧ j < off+xs.length) ∨
      slots sb s ip ((s.itable ip).inum,place (j/BSIZE)) ≠ 0) :
    fileByte t.view (t.itable ip).d j =
      if off ≤ j ∧ j < off+xs.length then xs.getD (j-off) 0
      else fileByte s.view (s.itable ip).d j := by
  rw [h.busy.fileByte_eq,hs.fileByte_eq,h.wrote.kept.inum]
  have hmod := Nat.mod_lt j (show 0 < BSIZE by decide)
  by_cases hq : j/BSIZE = off/BSIZE
  · obtain ⟨y,hy,hold⟩ := h.block
    have hrange : (off ≤ j ∧ j < off+xs.length) ↔
        (off % BSIZE ≤ j % BSIZE ∧ j % BSIZE < off % BSIZE+xs.length) := by
      simp only [BSIZE] at *
      omega
    rw [hq] at hj ⊢
    rw [h.addr,hy]
    by_cases hin : off ≤ j ∧ j < off+xs.length
    · rw [if_pos hin,Bytes.byte_splice_of_mem y hmod (hrange.mp hin)]
      congr 1
      simp only [BSIZE] at *
      omega
    · have hne := hj.resolve_left hin
      have hsame : slots sb s ip ((s.itable ip).inum,place (off/BSIZE)) = a := by
        rw [← h.wrote.maps _ hne,h.addr]
      rw [if_neg hin,hsame,hold hne,Bytes.byte_splice_of_not_mem _ (by omega)]
  · have hout : ¬ (off ≤ j ∧ j < off+xs.length) := by
      simp only [BSIZE] at *
      omega
    have hne := hj.resolve_left hout
    rw [if_neg hout,h.wrote.maps _ hne,h.old _ hq hne]

section Partly

variable {src : List UInt8} {n tot m : ℕ} {copyin : ℕ → ℕ → List UInt8 × Bool}

theorem readableUpTo_length (src : List UInt8) (tot m : ℕ) :
    (readableUpTo src tot m).1.length = min m (src.length-tot) := by
  simp only [readableUpTo,length_take,length_drop]

theorem readableUpTo_getD {j : ℕ} (hj : j < m) :
    (readableUpTo src tot m).1.getD j 0 = src.getD (tot+j) 0 := by
  simp [readableUpTo,getD_eq_getElem?_getD,hj]

/-- How the loop of `writei` ends that has written `r` bytes: all is written, the next block has no
address and none is free, or the source has failed after `k` bytes of the next chunk. -/
inductive Stopped (sb : Superblock) (s : State) (ip : Fin NINODE) (src : List UInt8) (n : ℕ) :
    ℕ → ℕ → ℕ → Prop
  | done {off} (h : n ≤ src.length) : Stopped sb s ip src n n off 0
  | full {r off} (hr : r < n) (hr' : r ≤ src.length)
      (h : slots sb s ip ((s.itable ip).inum,place (off/BSIZE)) = 0) : Stopped sb s ip src n r off 0
  | source {r off} (hr : r < n) (hr' : r ≤ src.length) (h : src.length < r + chunk n r off) :
      Stopped sb s ip src n r off (src.length - r)

/-- The loop of `writei` from `tot` on has written up to `r`. -/
structure Partly (sb : Superblock) (ip : Fin NINODE) (src : List UInt8) (n tot off : ℕ) (s : State)
    (r : ℕ × ℕ) (t : State) : Prop extends Swept sb ip n tot off s r t where
  aligned : r.1 = tot ∨ r.1 = n ∨ r.2 % BSIZE = 0
  bytes : ∃ k, Stopped sb s ip src n r.1 r.2 k ∧ ∀ j,
    ((off ≤ j ∧ j < r.2 + k) ∨ slots sb s ip ((s.itable ip).inum,place (j/BSIZE)) ≠ 0) →
      fileByte t.view (t.itable ip).d j =
        if off ≤ j ∧ j < r.2 + k then src.getD (tot + (j - off)) 0
        else fileByte s.view (s.itable ip).d j
  room : ∀ P, Spans P off (n - tot) → Room sb s ip P → n ≤ src.length →
    r.1 = n ∧ Room sb t ip P

theorem Stopped.of_wrote {r off k : ℕ} (h : Stopped sb t ip src n r off k) (hw : Wrote sb ip s t) :
    Stopped sb s ip src n r off k := by
  cases h with
  | done h => exact .done h
  | full hr hr' h =>
    refine .full hr hr' ?_
    by_contra hne
    rw [hw.kept.inum,hw.maps _ hne] at h
    exact hne h
  | source hr hr' h => exact .source hr hr' h

/-- A source that can be read throughout leaves nothing unreported. -/
theorem Stopped.eq_zero {r off k : ℕ} (h : Stopped sb s ip src n r off k) (hsrc : n ≤ src.length) :
    k = 0 := by
  cases h with
  | done _ => rfl
  | full _ _ _ => rfl
  | source hr _ h =>
    have hle := chunk_le n r off
    omega

theorem partly_done {off : ℕ} (hs : Busy sb s ip) (hcov : Covered sb s ip off)
    (hsrc : n ≤ src.length) : Partly sb ip src n n off s (n,off) s where
  toSwept := swept_refl hs hcov le_rfl
  aligned := .inl rfl
  bytes := ⟨0,.done hsrc,fun j _ => (if_neg (by simp only; omega)).symm⟩
  room _ _ hr _ := ⟨rfl,hr⟩

/-- One round and what the rest of the loop does. -/
theorem Partly.round {off a : ℕ} {r : ℕ × ℕ} {v : State} (hs : Busy sb s ip) (htot : tot < n)
    (hok : tot+chunk n tot off ≤ src.length)
    (hu : Round sb ip s a off (readableUpTo src tot (chunk n tot off)).1 u)
    (h : Partly sb ip src n (tot+chunk n tot off) (off+chunk n tot off) u r v) :
    Partly sb ip src n tot off s r v := by
  have hswept := hu.swept htot h.toSwept
  have hle := chunk_le n tot off
  have hfit := chunk_fits n tot off
  have hlen := readableUpTo_length src tot (chunk n tot off)
  have hend : chunk n tot off = n-tot ∨ (off+chunk n tot off) % BSIZE = 0 := by
    have hmod := Nat.mod_lt off (show 0 < BSIZE by decide)
    unfold chunk
    simp only [BSIZE] at *
    omega
  generalize hm : chunk n tot off = m at *
  have hlen : (readableUpTo src tot m).1.length = m := by omega
  obtain ⟨h1,h2⟩ := h.le
  obtain ⟨k,hk,hbytes⟩ := h.bytes
  refine ⟨hswept,?_,⟨k,hk.of_wrote hu.wrote,fun j hj => ?_⟩,fun P hP hr hsrc => ?_⟩
  · rcases h.aligned with he | he | he
    · rcases hend with hend | hend
      · exact .inr (.inl (by omega))
      · refine .inr (.inr ?_)
        rwa [h.off_eq,he,Nat.sub_self,Nat.add_zero]
    · exact .inr (.inl he)
    · exact .inr (.inr he)
  · have hoff := h.off_eq
    have hmap : (off+m ≤ j ∧ j < r.2+k) ∨
        slots sb u ip ((u.itable ip).inum,place (j/BSIZE)) ≠ 0 := by
      rw [hu.wrote.kept.inum]
      by_cases hin : off ≤ j ∧ j < off+m
      · have hq : j/BSIZE = off/BSIZE := by
          simp only [BSIZE] at *
          omega
        rw [hq,hu.addr]
        exact .inr hu.ne
      · rcases hj with hj | hj
        · exact .inl (by omega)
        · rw [hu.wrote.maps _ hj]
          exact .inr hj
    rw [hbytes j hmap]
    by_cases hlate : off+m ≤ j ∧ j < r.2+k
    · rw [if_pos hlate,if_pos (by omega)]
      congr 1
      omega
    · rw [if_neg hlate,hu.fileByte hs (by omega) (by rw [hlen]; omega),hlen]
      by_cases hin : off ≤ j ∧ j < off+m
      · rw [if_pos hin,if_pos (by omega),readableUpTo_getD (by omega)]
      · rw [if_neg hin,if_neg (by omega)]
  · refine h.room P ?_ (hu.room P (hP.self (by omega)) hr) hsrc
    rw [← Nat.sub_sub]
    exact hP.tail hle

/-- However much can be read and however many blocks are free. -/
theorem writeLoop_partly (hl : sb.Layout)
    (hc : ∀ tot m, tot+m ≤ n → copyin tot m = readableUpTo src tot m) (fuel tot off : ℕ)
    (hs : Busy sb s ip) (hcov : Covered sb s ip off) (htot : tot ≤ n) (hsrc : tot ≤ src.length)
    (hfuel : n-tot ≤ fuel) (hend : off+(n-tot) ≤ MAXFILE*BSIZE) :
    Ends (writeLoop sb ip copyin n fuel tot off) s (Partly sb ip src n tot off s) := by
  induction fuel generalizing s tot off with
  | zero =>
    obtain rfl : tot = n := by omega
    exact ends_pure (partly_done hs hcov hsrc)
  | succ fuel ih =>
    by_cases hlt : tot < n
    · have hle := chunk_le n tot off
      have hpos := chunk_pos off hlt
      have hfit := chunk_fits n tot off
      refine writeLoop_round hl hs _ fuel hlt (by omega) (fun t ht => ?_) (fun a t hno ht => ?_)
        fun a u hok hu => ?_
      · -- no block is free
        have hzero : slots sb s ip ((s.itable ip).inum,place (off/BSIZE)) = 0 := by
          by_contra hne
          exact (ht.room _ subset_rfl (hs.room_of_mapped hne)).1 rfl
        refine ⟨swept_stop ht.busy ht.grown.wrote ht.charged hcov hlt,.inl rfl,
          ⟨0,.full hlt hsrc hzero,fun j hj => ?_⟩,fun P hP hr _ => ?_⟩
        · have hne : slots sb s ip ((s.itable ip).inum,place (j/BSIZE)) ≠ 0 :=
            hj.resolve_left (by simp only; omega)
          rw [if_neg (by simp only; omega),ht.busy.fileByte_eq,hs.fileByte_eq,ht.grown.kept.inum,
            ht.grown.maps _ hne,ht.grown.data _ hne (by simp [place_ne_ndirect])]
        · exact absurd rfl (ht.room P (hP.self (by omega)) hr).1
      · -- the source fails inside this chunk
        rw [hc tot _ (by omega)] at hno ht
        have hno : src.length < tot+chunk n tot off := by simpa [readableUpTo] using hno
        have hlen := readableUpTo_length src tot (chunk n tot off)
        have hlen : (readableUpTo src tot (chunk n tot off)).1.length = src.length-tot := by omega
        refine ⟨swept_stop ht.busy ht.wrote ht.charged hcov hlt,.inl rfl,
          ⟨_,.source hlt hsrc hno,fun j hj => ?_⟩,fun _ _ _ hall => by omega⟩
        rw [ht.fileByte hs (by omega) (by rw [hlen]; exact hj),hlen]
        by_cases hin : off ≤ j ∧ j < off+(src.length-tot)
        · rw [if_pos hin,if_pos hin,readableUpTo_getD (by omega)]
        · rw [if_neg hin,if_neg hin]
      · rw [hc tot _ (by omega)] at hok hu
        have hok : tot+chunk n tot off ≤ src.length := by simpa [readableUpTo] using hok
        exact (ih (tot+chunk n tot off) (off+chunk n tot off) hu.busy (hu.covered hcov hfit)
          (by omega) hok (by omega) (by omega)).mono fun r v hv => hv.round hs hlt hok hu
    · obtain rfl : tot = n := by omega
      rw [writeLoop,if_neg hlt]
      exact ends_pure (partly_done hs hcov hsrc)

end Partly

theorem contents_length (view : ℕ → Block) (d : Dinode) : (contents view d).length = d.size := by
  simp [contents,bytesFrom]

theorem contents_getElem {j : ℕ} (hj : j < (contents view d).length) :
    (contents view d)[j] = fileByte view d j := by
  simp [contents,bytesFrom]

theorem contents_congr {view' : ℕ → Block} {d' : Dinode} (hsize : d'.size = d.size)
    (h : ∀ j < d.size, fileByte view' d' j = fileByte view d j) :
    contents view' d' = contents view d := by
  apply ext_getElem
  · rw [contents_length,contents_length,hsize]
  · intro j hj hj'
    rw [contents_getElem,contents_getElem]
    exact h j (by rwa [contents_length] at hj')

theorem Owned.block_isData {D : ℕ → Dinode} (h : Owned sb view D) {i : ℕ} (hi : sb.IsInum i)
    (ht : (D i).type ≠ 0) {p : ℕ} (hp : addrAt view (D i) p ≠ 0) :
    sb.IsData (addrAt view (D i) p) := by
  rw [← slot_of_alloc hi ht] at hp ⊢
  exact h.held.isData hp

/-- `iupdate` changes no byte of any file. -/
theorem Busy.fileByte_updated (h : Busy sb s ip) (hl : sb.Layout) {i j : ℕ} (hi : sb.IsInum i)
    (ht : (current sb s ip i).type ≠ 0) (hj : j < (current sb s ip i).size) :
    fileByte (s.updated sb ip).view (current sb s ip i) j =
      fileByte s.view (current sb s ip i) j := by
  have haddr : addrAt (s.updated sb ip).view (current sb s ip i) (place (j/BSIZE)) =
      addrAt s.view (current sb s ip i) (place (j/BSIZE)) := by
    refine addrAt_congr _ fun hne => stored_of_data hl h.isInum ?_
    rw [← addrAt_ndirect s.view] at hne ⊢
    exact h.owned.block_isData hi ht hne
  rw [fileByte,haddr,fileByte]
  congr 1
  exact stored_of_data hl h.isInum
    (h.owned.block_isData hi ht ((h.owned.sized i hi ht).mapped_at hj))

theorem Wrote.fileByte_other (h : Wrote sb ip s t) (hs : Busy sb s ip) {i j : ℕ}
    (hi : sb.IsInum i) (ht : (dinode sb s.view i).type ≠ 0) (hne : i ≠ (s.itable ip).inum)
    (hj : j < (dinode sb s.view i).size) :
    fileByte t.view (dinode sb t.view i) j = fileByte s.view (dinode sb s.view i) j := by
  have hcs : current sb s ip i = dinode sb s.view i := current_other hne
  have hct : current sb t ip i = dinode sb s.view i :=
    (current_other (h.kept.inum ▸ hne)).trans (h.dinodes i hi)
  have hslot (p : ℕ) : slots sb s ip (i,p) = addrAt s.view (dinode sb s.view i) p := by
    rw [slots,slot_of_alloc hi (hcs ▸ ht),hcs]
  have hslot' (p : ℕ) : slots sb t ip (i,p) = addrAt t.view (dinode sb s.view i) p := by
    rw [slots,slot_of_alloc hi (hct ▸ ht),hct]
  have hmap : slots sb s ip (i,place (j/BSIZE)) ≠ 0 := by
    have hsz := hs.owned.sized i hi (hcs ▸ ht)
    rw [hcs] at hsz
    rw [hslot]
    exact hsz.mapped_at hj
  rw [h.dinodes i hi,fileByte,fileByte,← hslot',← hslot,h.maps _ hmap,h.others i _ hne hmap]

/-- What the end of `writei` leaves alone. -/
structure Finished (sb : Superblock) (ip : Fin NINODE) (o : ℕ) (s t : State) : Prop where
  steady : Steady ip s t
  inode : (t.itable ip).d = (s.itable ip).d.extend o
  disk : dinode sb t.view (s.itable ip).inum = (t.itable ip).d
  bytes : ∀ j < (t.itable ip).d.size,
    fileByte t.view (t.itable ip).d j = fileByte s.view (s.itable ip).d j
  dinodes : ∀ i ≠ (s.itable ip).inum, dinode sb t.view i = dinode sb s.view i
  others : ∀ i, sb.IsInum i → (dinode sb s.view i).type ≠ 0 → i ≠ (s.itable ip).inum →
    ∀ j < (dinode sb s.view i).size,
      fileByte t.view (dinode sb s.view i) j = fileByte s.view (dinode sb s.view i) j

theorem Busy.finish {o : ℕ} (h : Busy sb s ip) (hl : sb.Layout) (hc : Covered sb s ip o)
    (ho : o ≤ MAXFILE*BSIZE) : Finished sb ip o s (s.finish sb ip o) := by
  have hx : Busy sb (s.edited ip (Dinode.extend o)) ip := h.extend hc ho
  have hself : (s.edited ip (Dinode.extend o)).itable ip =
      { s.itable ip with d := (s.itable ip).d.extend o } := s.edited_self ip _
  have hcur : current sb (s.edited ip (Dinode.extend o)) ip (s.itable ip).inum =
      (s.itable ip).d.extend o := by
    rw [current_edited,Function.update_self,current_self]
  have hother {i : ℕ} (hi : i ≠ (s.itable ip).inum) :
      current sb (s.edited ip (Dinode.extend o)) ip i = dinode sb s.view i := by
    rw [current_edited,Function.update_of_ne hi,current_other hi]
  have hdisk : dinode sb (s.finish sb ip o).view = current sb (s.edited ip (Dinode.extend o)) ip :=
    dinode_updated hx.fits
  have hd : ((s.finish sb ip o).itable ip).d = (s.itable ip).d.extend o := by
    rw [State.finish,State.updated_itable,hself]
  have hst := steady_edited s ip (Dinode.extend o)
  refine ⟨⟨hst.other,hst.inum,hst.ref,hst.valid,hst.locked⟩,hd,?_,fun j hj => ?_,fun i hi => ?_,
    fun i hi ht hne j hj => ?_⟩
  · rw [hdisk,hcur,hd]
  · rw [hd] at hj ⊢
    have hupd := hx.fileByte_updated hl h.isInum (by rw [hcur]; exact h.type) (j := j)
      (by rw [hcur]; exact hj)
    rw [hcur] at hupd
    exact hupd
  · rw [hdisk,hother hi]
  · have hupd := hx.fileByte_updated hl hi (by rw [hother hne]; exact ht) (j := j)
      (by rw [hother hne]; exact hj)
    rw [hother hne] at hupd
    exact hupd

theorem Busy.slots_updated (h : Busy sb s ip) (hl : sb.Layout) :
    slots sb (s.updated sb ip) ip = slots sb s ip := by
  have hcur : current sb (s.updated sb ip) ip = current sb s ip := by
    rw [current,dinode_updated h.fits,State.updated_itable,current,Function.update_idem]
  rw [slots,hcur]
  exact slot_congr fun i hi => stored_of_data hl h.isInum (h.owned.held.isData hi)

theorem Busy.room_finish {o : ℕ} {P : Finset ℕ} (h : Busy sb s ip) (hl : sb.Layout)
    (hc : Covered sb s ip o) (ho : o ≤ MAXFILE*BSIZE) (hr : Room sb s ip P) :
    Room sb (s.finish sb ip o) ip P := by
  have hx : Busy sb (s.edited ip (Dinode.extend o)) ip := h.extend hc ho
  have hslots : slots sb (s.finish sb ip o) ip = slots sb s ip :=
    (hx.slots_updated hl).trans (slots_edited (fun _ => rfl) fun _ _ => rfl)
  have hfree : freeBlocks sb (s.finish sb ip o).view = freeBlocks sb s.view := by
    ext c
    rw [mem_freeBlocks,mem_freeBlocks]
    have hbit : inUse sb (s.finish sb ip o).view c = inUse sb s.view c :=
      inUse_stored hl hx.isInum c
    rw [hbit]
  rw [Room,wanting,hslots,hfree,(h.finish hl hc ho).steady.inum]
  exact hr

/-- The whole of `writei`, with the bytes that can be read afterwards. -/
structure Left (sb : Superblock) (ip : Fin NINODE) (src : List UInt8) (n off : ℕ) (s : State)
    (r k : ℕ) (t : State) : Prop where
  wellFormed : WellFormed sb t
  steady : Steady ip s t
  stopped : Stopped sb s ip src n r (off + r) k
  le : r ≤ n
  aligned : r = 0 ∨ r = n ∨ (off + r) % BSIZE = 0
  disk : dinode sb t.view (s.itable ip).inum = (t.itable ip).d
  size : (t.itable ip).d.size = max (s.itable ip).d.size (off + r)
  bytes : ∀ j < (t.itable ip).d.size, fileByte t.view (t.itable ip).d j =
    if off ≤ j ∧ j < off + r + k then src.getD (j - off) 0 else fileByte s.view (s.itable ip).d j
  others : ∀ i, sb.IsInum i → (dinode sb s.view i).type ≠ 0 → i ≠ (s.itable ip).inum →
    dinode sb t.view i = dinode sb s.view i ∧ ∀ j < (dinode sb s.view i).size,
      fileByte t.view (dinode sb s.view i) j = fileByte s.view (dinode sb s.view i) j
  room : ∀ P, Spans P off n → Room sb s ip P → n ≤ src.length → r = n ∧ Room sb t ip P

theorem Left.locked {src : List UInt8} {n off r k : ℕ} (h : Left sb ip src n off s r k t)
    (hlock : Locked s ip) : Locked t ip :=
  ⟨h.steady.ref.symm ▸ hlock.1,h.steady.valid.trans hlock.2⟩

theorem writei_left (hl : sb.Layout) (h : WellFormed sb s) (hlock : Locked s ip)
    {copyin : ℕ → ℕ → List UInt8 × Bool} {src : List UInt8} {n off : ℕ}
    (hc : ∀ tot m, tot+m ≤ n → copyin tot m = readableUpTo src tot m)
    (hoff : off ≤ (s.itable ip).d.size) (hend : off+n ≤ MAXFILE*BSIZE) :
    Ends (writei sb ip copyin off n) s fun z t => ∃ r k : ℕ, z = r ∧ Left sb ip src n off s r k t := by
  have hb := h.busy hlock.1 hlock.2
  have hsz := hb.sized
  refine (writei_of_loop hoff hend (writeLoop_partly hl hc n 0 off hb (hb.covered hoff)
    (Nat.zero_le _) (Nat.zero_le _) le_rfl hend)).mono ?_
  rintro z t ⟨⟨r,o⟩,u,hu,rfl,rfl⟩
  obtain ⟨k,hk,hbytes⟩ := hu.bytes
  have ho : o = off+r := by simpa using hu.off_eq
  subst ho
  have hle : r ≤ n := hu.le.2
  have hmax : off+r ≤ MAXFILE*BSIZE := by omega
  have hfin := hu.busy.finish hl hu.covered hmax
  have hkept := hu.wrote.kept
  have hsize : ((u.finish sb ip (off+r)).itable ip).d.size =
      max (s.itable ip).d.size (off+r) := by
    rw [hfin.inode]
    simp only [Dinode.extend,hkept.size]
    split <;> omega
  refine ⟨r,k,rfl,hu.toSwept.finish hl hend,hkept.toSteady.trans hfin.steady,hk,hle,hu.aligned,
    hkept.inum ▸ hfin.disk,hsize,fun j hj => ?_,fun i hi ht hne => ?_,fun P hP hr hsrc => ?_⟩
  · refine (hfin.bytes j hj).trans ((hbytes j ?_).trans (by simp))
    simp only [hsize] at hj ⊢
    by_cases hlt : j < (s.itable ip).d.size
    · refine .inr ?_
      rw [hb.slots_self]
      exact hsz.mapped_at hlt
    · exact .inl (by omega)
  · have hd := hu.wrote.dinodes i hi
    have hne' : i ≠ (u.itable ip).inum := hkept.inum ▸ hne
    refine ⟨(hfin.dinodes i hne').trans hd,fun j hj => ?_⟩
    have hold := hu.wrote.fileByte_other hb hi ht hne hj
    rw [hd] at hold
    rw [← hold,← hd]
    exact hfin.others i hi (hd ▸ ht) hne' j (hd ▸ hj)
  · obtain ⟨hrn,hroom⟩ := hu.room P hP hr hsrc
    exact ⟨hrn,hu.busy.room_finish hl hu.covered hmax hroom⟩

theorem overwrite_getElem {c xs : List UInt8} {off j : ℕ} (hoff : off ≤ c.length)
    (hj : j < (overwrite c off xs).length) :
    (overwrite c off xs)[j] = if off ≤ j ∧ j < off+xs.length then xs.getD (j-off) 0
      else c.getD j 0 := by
  have hlen : (c.take off).length = off := by simpa using hoff
  simp only [overwrite,getElem_append,length_append,hlen,getElem_take,
    getElem_drop,getD_eq_getElem?_getD]
  split
  · rename_i h1
    split
    · rw [if_neg (by omega),List.getElem?_eq_getElem (by omega),Option.getD_some]
    · rw [if_pos (by omega),List.getElem?_eq_getElem (by omega),Option.getD_some]
  · rename_i h1
    have hjc : j < c.length := by
      simp only [overwrite,length_append,hlen,length_drop] at hj
      omega
    rw [if_neg (by omega),List.getElem?_eq_getElem hjc,Option.getD_some]
    congr 1
    omega

theorem overwrite_length {c xs : List UInt8} {off : ℕ} (hoff : off ≤ c.length) :
    (overwrite c off xs).length = max c.length (off+xs.length) := by
  simp only [overwrite,length_append,length_take,length_drop]
  omega

theorem contents_overwrite {view' : ℕ → Block} {d' : Dinode} {off : ℕ} {src : List UInt8}
    (hoff : off ≤ d.size) (hsize : d'.size = max d.size (off+src.length))
    (h : ∀ j < d'.size, fileByte view' d' j =
      if off ≤ j ∧ j < off+src.length then src.getD (j-off) 0 else fileByte view d j) :
    contents view' d' = overwrite (contents view d) off src := by
  have hc : off ≤ (contents view d).length := by rwa [contents_length]
  apply ext_getElem
  · rw [contents_length,overwrite_length hc,contents_length,hsize]
  · intro j hj hj'
    rw [contents_length] at hj
    rw [contents_getElem,overwrite_getElem hc,h j hj]
    refine ite_congr rfl (fun _ => rfl) fun hout => ?_
    have hjd : j < (contents view d).length := by
      rw [contents_length]
      omega
    rw [getD_eq_getElem?_getD,List.getElem?_eq_getElem hjd,Option.getD_some,contents_getElem]

theorem Left.contents {src : List UInt8} {n off r k : ℕ} (h : Left sb ip src n off s r k t)
    (hoff : off ≤ (s.itable ip).d.size) (hsrc : n ≤ src.length) : contents t.view (t.itable ip).d =
      overwrite (contents s.view (s.itable ip).d) off (src.take r) := by
  obtain rfl := h.stopped.eq_zero hsrc
  have hlen : (src.take r).length = r := length_take_of_le (h.le.trans hsrc)
  refine contents_overwrite hoff (by rw [hlen]; exact h.size) fun j hj => ?_
  rw [hlen,h.bytes j hj]
  refine ite_congr rfl (fun hin => ?_) fun _ => rfl
  rw [getD_eq_getElem?_getD,getD_eq_getElem?_getD,List.getElem?_take_of_lt (by omega)]

theorem bytesFrom_eq_take_drop (view : ℕ → Block) (d : Dinode) (off n : ℕ) :
    bytesFrom view d off (min n (d.size-off)) = ((contents view d).drop off).take n := by
  apply ext_getElem
  · simp [bytesFrom,contents]
  · intro j hj hj'
    simp [bytesFrom,contents]

/-- Files behave as byte arrays: a write with enough free blocks replaces or extends the
contents of its file by the source and touches no other file; a read returns what is there. -/
theorem files_are_byte_arrays (hl : sb.Layout) (h : WellFormed sb s) (hlock : Locked s ip) :
    (∀ (off : ℕ) (src : List UInt8), off ≤ (s.itable ip).d.size →
      off + src.length ≤ MAXFILE*BSIZE → Room sb s ip (placesFor off src.length) →
      ∃ t, (writei sb ip (readable src) off src.length).run s = .ok ((src.length : ℤ),t) ∧
        dinode sb t.view (s.itable ip).inum = (t.itable ip).d ∧
        contents t.view (t.itable ip).d = overwrite (contents s.view (s.itable ip).d) off src ∧
        (t.itable ip).d.size = max (s.itable ip).d.size (off + src.length) ∧
        ∀ i, sb.IsInum i → (dinode sb s.view i).type ≠ 0 → i ≠ (s.itable ip).inum →
          (dinode sb t.view i).size = (dinode sb s.view i).size ∧
          contents t.view (dinode sb t.view i) = contents s.view (dinode sb s.view i)) ∧
    ∀ (off n : ℕ) (copyout : ℕ → List UInt8 → Bool), off + n < 2^32 →
      (∀ i xs, copyout i xs = true) →
      (readi sb ip copyout off n).run s = .ok (((min n ((s.itable ip).d.size - off) : ℕ),
        ((contents s.view (s.itable ip).d).drop off).take n),s) := by
  constructor
  · intro off src hoff hend hroom
    obtain ⟨z,t,hrun,r,k,rfl,hleft⟩ := writei_left hl h hlock readable_eq hoff hend
    obtain ⟨rfl,-⟩ := hleft.room _ (spans_placesFor off src.length) hroom le_rfl
    have hcontents := hleft.contents hoff le_rfl
    rw [take_length] at hcontents
    refine ⟨t,hrun,hleft.disk,hcontents,hleft.size,fun i hi ht hne => ?_⟩
    obtain ⟨hsame,hbytes⟩ := hleft.others i hi ht hne
    rw [hsame]
    exact ⟨rfl,contents_congr rfl hbytes⟩
  · intro off n copyout hw hall
    have hspec : Ends (readi sb ip copyout off n) s _ :=
      readi_spec (h.busy hlock.1 hlock.2).sized copyout off n
    obtain ⟨r,t,hrun,rfl,hr⟩ := hspec
    rw [hrun,hr hw hall,bytesFrom_eq_take_drop]

theorem emptyFile_wellFormed : WellFormed smallDisk (oneInode emptyFile) := by
  have hbare (p : ℕ) : addrAt (oneInode emptyFile).view emptyFile p = 0 :=
    addrAt_bare emptyFile_addr p
  refine wellFormed_iff.mpr ⟨oneInode_booked emptyFile_fits rfl fun p => ?_,fun σ hσ => ?_,
    oneInode_synced emptyFile_fits (by decide)⟩
  · rw [hbare]
    omega
  · exact absurd ((oneInode_slot emptyFile_fits hσ).trans (hbare _)) hσ

theorem emptyFile_room : Room smallDisk (oneInode emptyFile) 0 (placesFor 0 3) := by
  have hfree : 5 ∈ freeBlocks smallDisk (oneInode emptyFile).view :=
    mem_freeBlocks.mpr ⟨by decide,oneInode_bits emptyFile (by decide)⟩
  have hone : (placesFor 0 3).card = 1 := by decide
  have hle : (wanting smallDisk (oneInode emptyFile) 0 (placesFor 0 3)).card ≤
      (placesFor 0 3).card := Finset.card_filter_le ..
  have hpos := Finset.card_pos.mpr ⟨5,hfree⟩
  unfold Room
  omega

theorem files_are_byte_arrays_emptyFile :
    ∃ t, (writei smallDisk 0 (readable [1,2,3]) 0 3).run (oneInode emptyFile) = .ok (3,t) ∧
      contents t.view (t.itable 0).d = [1,2,3] := by
  obtain ⟨t,hrun,-,hc,-⟩ := (files_are_byte_arrays smallDisk_layout emptyFile_wellFormed
    (show Locked (oneInode emptyFile) 0 by decide)).1 0 [1,2,3] (Nat.zero_le _) (by norm_num)
    emptyFile_room
  exact ⟨t,hrun,hc⟩

end Fs
end Xv6
