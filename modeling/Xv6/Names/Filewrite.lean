import Xv6.Fs.File
import Xv6.Names.Disk

/-! `filewrite` over an inode.  A request is cut into sections from `begin_op` to `end_op`, each
of which passes at most `MAXOPBLOCKS` block numbers to `log_write`; together they have the effect
of a single `writei`. -/
namespace Xv6

open Prog Finset

namespace Fs

variable {sb : Superblock} {s t : State} {ip : Fin NINODE} {inum : ℕ}

/-! The blocks a `writei` logs. -/

/-- The blocks of a range, and the indirect block. -/
theorem placesFor_subset (off n : ℕ) : placesFor off n ⊆
    insert NDIRECT ((Ico (off/BSIZE) ((off+n+BSIZE-1)/BSIZE)).image place) := by
  intro p hp
  obtain ⟨k,hk,hp⟩ := mem_biUnion.mp hp
  unfold bmapPlaces at hp
  split at hp
  · rename_i hd
    rw [mem_singleton.mp hp]
    exact mem_insert_of_mem (mem_image.mpr ⟨k,hk,if_pos hd⟩)
  · rename_i hd
    rcases mem_union.mp hp with hp | hp
    · rw [mem_singleton.mp hp]
      exact mem_insert_self ..
    · rw [mem_singleton.mp hp]
      exact mem_insert_of_mem (mem_image.mpr ⟨k,hk,if_neg hd⟩)

theorem card_insert_image_place_le (a b : ℕ) :
    (insert NDIRECT ((Ico a b).image place)).card ≤ b-a+1 := by
  have himage : ((Ico a b).image place).card ≤ (Ico a b).card :=
    card_image_le
  rw [Nat.card_Ico] at himage
  exact (card_insert_le ..).trans (by omega)

/-- A block that begins below the end of the file has an address. -/
theorem Busy.wanting_subset (hb : Busy sb s ip) {off n : ℕ} (hoff : off ≤ (s.itable ip).d.size) :
    wanting sb s ip (placesFor off n) ⊆ insert NDIRECT
      ((Ico ((off+BSIZE-1)/BSIZE) ((off+n+BSIZE-1)/BSIZE)).image place) := by
  intro p hp
  obtain ⟨hmem,hzero⟩ := mem_filter.mp hp
  rcases mem_insert.mp (placesFor_subset off n hmem) with rfl | hmem
  · exact mem_insert_self ..
  · obtain ⟨k,hk,rfl⟩ := mem_image.mp hmem
    rw [mem_Ico] at hk
    refine mem_insert_of_mem (mem_image_of_mem place (mem_Ico.mpr ⟨?_,hk.2⟩))
    by_contra hlt
    refine hb.covered hoff k ?_ hzero
    simp only [BSIZE] at *
    omega

/-- A range of three blocks' length meets four blocks at most, and if it meets four the first of
them has an address. -/
theorem Busy.card_places (hb : Busy sb s ip) {off n : ℕ} (hoff : off ≤ (s.itable ip).d.size)
    (hn : n ≤ 3*BSIZE) :
    (placesFor off n).card+(wanting sb s ip (placesFor off n)).card ≤ 9 := by
  have h1 := (card_le_card (placesFor_subset off n)).trans (card_insert_image_place_le ..)
  have h2 := (card_le_card (hb.wanting_subset hoff (n := n))).trans
    (card_insert_image_place_le ..)
  simp only [BSIZE] at *
  omega

/-- What `writei` does to the file and the log, whatever its source. -/
structure Fitted (sb : Superblock) (ip : Fin NINODE) (off n : ℕ) (s : State) (z : ℤ) (t : State) :
    Prop where
  wellFormed : WellFormed sb t
  steady : Steady ip s t
  le : z ≤ n
  covers : off + z.toNat ≤ (t.itable ip).d.size
  log : ∃ l, t.logged = s.logged ++ l ∧ l.toFinset.card ≤ 10

theorem writei_fits (hl : sb.Layout) (h : WellFormed sb s) (hlock : Locked s ip)
    (copyin : ℕ → ℕ → List UInt8 × Bool) {off n : ℕ} (hoff : off ≤ (s.itable ip).d.size)
    (hn : n ≤ 3*BSIZE) : Ends (writei sb ip copyin off n) s (Fitted sb ip off n s) := by
  have hb := h.busy hlock.1 hlock.2
  have hmax : (s.itable ip).d.size ≤ MAXFILE*BSIZE := hb.sized.le
  have hbig : MAXFILE*BSIZE+3*BSIZE < 2^32 := by norm_num
  by_cases hend : off+n ≤ MAXFILE*BSIZE
  · refine (writei_of_loop hoff hend (writeLoop_keeps hl copyin n 0 off hb (hb.covered hoff)
      (Nat.zero_le n) hend)).mono ?_
    rintro z t ⟨⟨r,o⟩,u,hu,rfl,rfl⟩
    have ho : o = off+r := by simpa using hu.off_eq
    subst ho
    have hle : r ≤ n := hu.le.2
    have hfin := hu.busy.finish hl hu.covered (show off+r ≤ _ by omega)
    refine ⟨hu.finish hl hend,hu.wrote.kept.toSteady.trans hfin.steady,by simpa using hle,?_,?_⟩
    · rw [hfin.inode]
      simp only [Dinode.extend,Int.toNat_natCast]
      split <;> omega
    · obtain ⟨l,hlog,hcard⟩ := (hu.charged _ (spans_placesFor off n)).card
      have hplaces := hb.card_places hoff hn
      refine ⟨l++[IBLOCK sb (u.itable ip).inum],?_,?_⟩
      · simp [State.finish,State.updated,State.edited,State.put,hlog]
      · rw [List.toFinset_append]
        refine (card_union_le ..).trans ?_
        simp only [List.toFinset_cons,List.toFinset_nil,insert_empty_eq,card_singleton]
        omega
  · refine ⟨-1,s,writei_refuses copyin (by omega) (by omega) (by omega),h,⟨fun _ _ => rfl,rfl,rfl,
      rfl,rfl⟩,by omega,?_,[],by simp,by simp⟩
    simpa using hoff

/-- There are enough free blocks on the disk to fill the places `P` of an inode. -/
def DiskRoom (sb : Superblock) (view : ℕ → Block) (inum : ℕ) (P : Finset ℕ) : Prop :=
  (P.filter fun p => slot sb view (dinode sb view) (inum,p) = 0).card ≤ (freeBlocks sb view).card

theorem WellFormed.room_iff (h : WellFormed sb s) (hlock : Locked s ip) {P : Finset ℕ} :
    Room sb s ip P ↔ DiskRoom sb s.view (s.itable ip).inum P := by
  rw [Room,wanting,slots,h.current_eq hlock.1 hlock.2,DiskRoom]

theorem overwrite_overwrite {c xs ys : List UInt8} {off : ℕ} (hoff : off ≤ c.length) :
    overwrite (overwrite c off xs) (off+xs.length) ys = overwrite c off (xs++ys) := by
  have hlen : (c.take off++xs).length = off+xs.length := by simp [hoff]
  have htake : (overwrite c off xs).take (off+xs.length) = c.take off++xs := by
    rw [overwrite,← hlen,List.take_left]
  have hdrop : (overwrite c off xs).drop (off+xs.length+ys.length) =
      c.drop (off+xs.length+ys.length) := by
    rw [overwrite,← List.drop_drop,← hlen,List.drop_left,hlen,List.drop_drop]
  rw [overwrite,htake,hdrop,overwrite,List.length_append,← List.append_assoc,Nat.add_assoc]

/-! An inode between two sections. -/

/-- `ip` is a reference to the inode `inum`, which nobody has locked. -/
structure Ready (sb : Superblock) (s : State) (ip : Fin NINODE) (inum : ℕ) : Prop where
  wellFormed : WellFormed sb s
  ref : 0 < (s.itable ip).ref
  inum_eq : (s.itable ip).inum = inum
  unlocked : (s.itable ip).locked = false
  type : (dinode sb s.view inum).type ≠ 0

/-- The state after `ilock(ip)`. -/
def State.load (sb : Superblock) (s : State) (ip : Fin NINODE) : State :=
  s.put ip ⟨(s.itable ip).inum,(s.itable ip).ref,true,true,dinode sb s.view (s.itable ip).inum⟩

/-- The state after `iunlock(ip)`. -/
def State.unlock (s : State) (ip : Fin NINODE) : State :=
  s.put ip { s.itable ip with locked := false }

theorem State.load_self (sb : Superblock) (s : State) (ip : Fin NINODE) : (s.load sb ip).itable ip =
    ⟨(s.itable ip).inum,(s.itable ip).ref,true,true,dinode sb s.view (s.itable ip).inum⟩ :=
  Function.update_self ..

theorem Ready.ilock (h : Ready sb s ip inum) :
    (ilock sb ip).run s = .ok ((),s.load sb ip) ∧ WellFormed sb (s.load sb ip) ∧
      Locked (s.load sb ip) ip := by
  have hrun : (Fs.ilock sb ip).run s = .ok ((),s.load sb ip) := by
    have href := h.ref
    have htype := h.type
    rw [← h.inum_eq] at htype
    unfold Fs.ilock
    rw [run_bind_of_run (rfl : (inode ip).run s = .ok (s.itable ip,s)),if_neg (by omega),
      if_neg (by simp [h.unlocked])]
    split
    · rename_i hv
      have hd := (h.wellFormed.agrees ip href hv).1
      rw [State.load,← hd,← hv]
      rfl
    · rw [run_bind_of_run (rfl : (bread _).run s = .ok (_,s)),run_bind_of_run (setInode_run ..)]
      exact congrArg (fun x : Op Unit => x.run _) (if_neg htype)
  refine ⟨hrun,(h.wellFormed.ilock h.ref).of_ok hrun,?_⟩
  rw [Locked,State.load_self]
  exact ⟨h.ref,rfl⟩

/-- What one section has done to the inode table. -/
theorem Ready.iunlock (h : Ready sb s ip inum) (ht : WellFormed sb t)
    (hst : Steady ip (s.load sb ip) t) :
    (iunlock ip).run t = .ok ((),t.unlock ip) ∧ Ready sb (t.unlock ip) ip inum ∧
      (t.itable ip).d = dinode sb t.view inum := by
  obtain ⟨-,hinum,href,hvalid,hlocked⟩ := hst
  rw [State.load_self] at hinum href hvalid hlocked
  have hpos : 0 < (t.itable ip).ref := href ▸ h.ref
  have hinum : (t.itable ip).inum = inum := hinum.trans h.inum_eq
  obtain ⟨hd,htype⟩ := ht.agrees ip hpos hvalid
  rw [hinum] at hd
  refine ⟨?_,⟨ht.putSame hpos rfl fun hv => ⟨hv,rfl⟩,?_,?_,?_,hd ▸ htype⟩,hd⟩
  · unfold Fs.iunlock
    rw [run_bind_of_run (rfl : (inode ip).run t = .ok (t.itable ip,t)),
      if_neg (by simp [hlocked]; omega)]
    rfl
  all_goals simp only [State.unlock,State.put,Function.update_self]
  · exact hpos
  · exact hinum

end Fs

namespace Names

open Fs (NINODE Panic Superblock State dinode Ready MAXFILE)

/-- The system, and the block numbers passed to `log_write` in each of the sections that are over;
`start` is where in the log the section in progress has begun. -/
structure Watched where
  sys : Sys State
  start : ℕ
  sections : List (List ℕ)

/-- `begin_op` raises `outstanding` and `end_op` lowers it. -/
def Watched.setProcs (w : Watched) (q : Procs) : Watched where
  sys := { w.sys with ps := q }
  start := if w.sys.ps.outstanding < q.outstanding then w.sys.fs.logged.length else w.start
  sections := if q.outstanding < w.sys.ps.outstanding then
    w.sections ++ [w.sys.fs.logged.drop w.start] else w.sections

def Watched.setFs (w : Watched) (t : State) : Watched := { w with sys := { w.sys with fs := t } }

/-- Run code over the file system on disk, noting its sections. -/
def watch (sb : Superblock) : (c : Cmd) → Prog Panic Watched c.Result
  | .inode c => fun w =>
    match Disk.serve sb c w.sys.fs with
    | .ok (r,t) => .ok (r,w.setFs t)
    | .error e => .error e
  | .procs => fun w => .ok (w.sys.ps,w)
  | .setProcs q => fun w => .ok ((),w.setProcs q)
  | .panic e => fun _ => .error e

section Watch

variable {α : Type} {sb : Superblock} {w : Watched} {Q : α → Watched → Prop}

/-- Watching changes nothing. -/
theorem run_watch (x : Code α) (w : Watched) : (x.run (handle (Disk.serve sb))).run w.sys =
    ((x.run (watch sb)).run w).map fun r => (r.1,r.2.sys) := by
  induction x generalizing w with
  | pure a => rfl
  | call c k ih =>
    rw [Free.run,Free.run,StateT.run_bind,StateT.run_bind]
    cases c with
    | inode c =>
      simp only [StateT.run,handle,watch]
      cases Disk.serve sb c w.sys.fs with
      | ok r => exact ih r.1 (w.setFs r.2)
      | error e => rfl
    | procs => exact ih _ w
    | setProcs q => exact ih _ (w.setProcs q)
    | panic e => rfl

theorem ends_procs {k : Procs → Code α} (h : Ends ((k w.sys.ps).run (watch sb)) w Q) :
    Ends ((procs >>= k).run (watch sb)) w Q := h

theorem ends_setProcs {q : Procs} {k : Unit → Code α}
    (h : Ends ((k ()).run (watch sb)) (w.setProcs q) Q) :
    Ends ((setProcs q >>= k).run (watch sb)) w Q := h

theorem ends_inode {c : InodeCmd} {k : c.Result → Code α} {r : c.Result} {t : State}
    (hrun : (Disk.serve sb c).run w.sys.fs = .ok (r,t))
    (h : Ends ((k r).run (watch sb)) (w.setFs t) Q) :
    Ends ((inode c >>= k).run (watch sb)) w Q := by
  refine ends_bind_of_run (x := watch sb (.inode c)) (a := r) (t := w.setFs t) ?_ h
  simp only [StateT.run] at hrun
  simp only [StateT.run,watch,hrun]

end Watch

/-- The tables after a section that has written `z` bytes. -/
def Procs.advanced (q : Procs) (f : Fin NFILE) (z : ℤ) : Procs :=
  if 0 < z then q.setFile f { q.ftable f with off := ((q.ftable f).off + z.toNat) % 2^32 } else q

/-- The state after a section in which `writei` has returned `z` and left `t`. -/
def Watched.after (w : Watched) (f : Fin NFILE) (ip : Fin NINODE) (z : ℤ) (t : State) : Watched where
  sys := ⟨t.unlock ip,w.sys.ps.advanced f z⟩
  start := w.sys.fs.logged.length
  sections := w.sections ++ [t.logged.drop w.sys.fs.logged.length]

section Sections

variable {sb : Superblock} {w : Watched} {f : Fin NFILE} {ip : Fin NINODE} {inum n i : ℕ}
  {copyin : ℕ → ℕ → List UInt8 × Bool}

theorem advance_run (w : Watched) (z : ℤ) : ((advance f z).run (watch sb)).run w =
    .ok ((),{ w with sys := { w.sys with ps := w.sys.ps.advanced f z } }) := by
  unfold advance Procs.advanced
  refine (run_bind_of_run (rfl : (watch sb Cmd.procs).run w = .ok (w.sys.ps,w))).trans ?_
  split
  · exact congrArg (fun w' : Watched => Except.ok ((),w')) (by simp [Watched.setProcs,Procs.setFile])
  · rfl

/-- One section of `filewrite`. -/
theorem filewriteFrom_round {P : ℤ → State → Prop} {Q : ℤ → Watched → Prop} (fuel : ℕ)
    (h : Ready sb w.sys.fs ip inum) (hi : i < n)
    (hwrite : Ends (Fs.writei sb ip (fun tot m => copyin (i+tot) m) (w.sys.ps.ftable f).off
      (min (n-i) maxWrite)) (w.sys.fs.load sb ip) P)
    (hP : ∀ z t, P z t → Fs.WellFormed sb t ∧ Fs.Steady ip (w.sys.fs.load sb ip) t)
    (hstop : ∀ z t, P z t → z ≠ (min (n-i) maxWrite : ℕ) → Q (-1) (w.after f ip z t))
    (hnext : ∀ z t, P z t → z = (min (n-i) maxWrite : ℕ) →
      Ends ((filewriteFrom f ip copyin n fuel (i+z.toNat)).run (watch sb)) (w.after f ip z t) Q) :
    Ends ((filewriteFrom f ip copyin n (fuel+1) i).run (watch sb)) w Q := by
  obtain ⟨z,t,hrun,hz⟩ := hwrite
  obtain ⟨hwf,hst⟩ := hP z t hz
  rw [filewriteFrom,if_pos hi]
  refine ends_procs (ends_setProcs (ends_inode h.ilock.1 (ends_procs (ends_inode hrun ?_))))
  rw [Free.run_bind]
  refine ends_bind_of_run (advance_run _ z) (ends_inode (h.iunlock hwf hst).1 (ends_procs
    (ends_setProcs ?_)))
  have hafter : ∀ w', w' = w.after f ip z t → Ends ((if z ≠ (min (n-i) maxWrite : ℕ) then
      pure (if i = n then (n : ℤ) else -1)
      else filewriteFrom f ip copyin n fuel (i+z.toNat)).run (watch sb)) w' Q := by
    rintro w' rfl
    by_cases hc : z = (min (n-i) maxWrite : ℕ)
    · rw [if_neg (not_not.mpr hc)]
      exact hnext z t hz hc
    · rw [if_pos hc,if_neg (by omega)]
      exact ends_pure (hstop z t hz hc)
  refine hafter _ ?_
  have hout : ∀ q : Procs, (q.advanced f z).outstanding = q.outstanding := fun q => by
    unfold Procs.advanced
    split <;> rfl
  have hback : (w.sys.ps.begun.advanced f z).ended = w.sys.ps.advanced f z := by
    unfold Procs.advanced
    split <;> simp [Procs.begun,Procs.ended,Procs.setFile]
  simp only [Watched.setFs,Watched.setProcs,Watched.after,hback,hout]
  simp [Procs.begun,Fs.State.unlock,Fs.State.put]

theorem advanced_off (q : Procs) {z : ℤ} (h : (q.ftable f).off+z.toNat < 2^32) :
    ((q.advanced f z).ftable f).off = (q.ftable f).off+z.toNat := by
  unfold Procs.advanced
  split
  · simpa [Procs.setFile] using h
  · omega

theorem maxWrite_eq : maxWrite = 3*BSIZE := rfl

/-- Where the sections of a `filewrite` have got to. -/
structure Sections (sb : Superblock) (f : Fin NFILE) (ip : Fin NINODE) (inum : ℕ) (log : List ℕ)
    (w : Watched) : Prop where
  ready : Ready sb w.sys.fs ip inum
  off : (w.sys.ps.ftable f).off ≤ (dinode sb w.sys.fs.view inum).size
  logged : w.sys.fs.logged = log ++ w.sections.flatten
  fit : ∀ l ∈ w.sections, l.toFinset.card ≤ MAXOPBLOCKS

theorem Sections.after {log : List ℕ} {m : ℕ} {z : ℤ} {t : State}
    (h : Sections sb f ip inum log w)
    (hz : Fs.Fitted sb ip (w.sys.ps.ftable f).off m (w.sys.fs.load sb ip) z t) :
    Sections sb f ip inum log (w.after f ip z t) := by
  obtain ⟨-,hready,hd⟩ := h.ready.iunlock hz.wellFormed hz.steady
  have hcovers := hz.covers
  rw [hd] at hcovers
  have hle : (dinode sb t.view inum).size ≤ MAXFILE*BSIZE :=
    (hz.wellFormed.owned.sized inum (hready.inum_eq ▸ hready.wellFormed.table.inum ip hready.ref)
      hready.type).le
  have hbig : MAXFILE*BSIZE < 2^32 := by norm_num
  obtain ⟨l,hlog,hcard⟩ := hz.log
  have hdrop : t.logged.drop w.sys.fs.logged.length = l := by
    rw [hlog]
    exact List.drop_left
  refine ⟨hready,?_,?_,fun l' hl' => ?_⟩
  · exact (advanced_off w.sys.ps (by omega)).trans_le hcovers
  · simp only [Watched.after,hdrop,List.flatten_append,List.flatten_singleton]
    rw [← List.append_assoc,← h.logged]
    exact hlog
  · simp only [Watched.after,hdrop] at hl'
    rcases List.mem_append.mp hl' with hl' | hl'
    · exact h.fit l' hl'
    · rw [List.mem_singleton.mp hl']
      exact hcard

theorem filewriteFrom_sections (hl : sb.Layout) {log : List ℕ} (fuel i : ℕ)
    (h : Sections sb f ip inum log w) :
    Ends ((filewriteFrom f ip copyin n fuel i).run (watch sb)) w fun _ w' =>
      Sections sb f ip inum log w' := by
  induction fuel generalizing w i with
  | zero => exact ends_pure h
  | succ fuel ih =>
    by_cases hi : i < n
    · obtain ⟨-,hwf,hlock⟩ := h.ready.ilock
      have hoff : (w.sys.ps.ftable f).off ≤ ((w.sys.fs.load sb ip).itable ip).d.size := by
        rw [Fs.State.load_self]
        exact h.ready.inum_eq ▸ h.off
      refine filewriteFrom_round fuel h.ready hi (Fs.writei_fits hl hwf hlock _ hoff
        (maxWrite_eq ▸ min_le_right ..)) (fun z t hz => ⟨hz.wellFormed,hz.steady⟩)
        (fun z t hz _ => h.after hz) fun z t hz _ => ih _ (h.after hz)
    · rw [filewriteFrom,if_neg hi]
      exact ends_pure h

/-- `filewrite` has got as far as byte `i` of its source. -/
structure Written (sb : Superblock) (f : Fin NFILE) (ip : Fin NINODE) (inum off : ℕ)
    (c src : List UInt8) (i : ℕ) (w : Watched) : Prop where
  ready : Ready sb w.sys.fs ip inum
  le : i ≤ src.length
  off_eq : (w.sys.ps.ftable f).off = off + i
  contents : Fs.contents w.sys.fs.view (dinode sb w.sys.fs.view inum) =
    Fs.overwrite c off (src.take i)

section Written

variable {off : ℕ} {c src : List UInt8}

theorem Written.size (h : Written sb f ip inum off c src i w) (hoff : off ≤ c.length) :
    (dinode sb w.sys.fs.view inum).size = max c.length (off+i) := by
  rw [← Fs.contents_length w.sys.fs.view,h.contents,Fs.overwrite_length hoff,
    List.length_take_of_le h.le]

theorem Written.after {m r k : ℕ} {t : State} (h : Written sb f ip inum off c src i w)
    (hoff : off ≤ c.length) (hm : m ≤ src.length-i) (hend : off+i+m ≤ MAXFILE*BSIZE)
    (hz : Fs.Left sb ip (src.drop i) m (off+i) (w.sys.fs.load sb ip) r k t) :
    Written sb f ip inum off c src (i+r) (w.after f ip r t) := by
  obtain ⟨-,hready,hd⟩ := h.ready.iunlock hz.wellFormed hz.steady
  have hsize := h.size hoff
  have hle := hz.le
  have hi := h.le
  have hbig : MAXFILE*BSIZE < 2^32 := by norm_num
  have hload : ((w.sys.fs.load sb ip).itable ip).d = dinode sb w.sys.fs.view inum := by
    rw [Fs.State.load_self,h.ready.inum_eq]
  refine ⟨hready,by omega,?_,?_⟩
  · rw [← Nat.add_assoc,← h.off_eq]
    exact advanced_off w.sys.ps (by rw [h.off_eq,Int.toNat_natCast]; omega)
  · have hcontents := hz.contents (by rw [hload,hsize]; omega) (by simpa using hm)
    rw [hload,hd] at hcontents
    refine hcontents.trans ?_
    change Fs.overwrite (Fs.contents w.sys.fs.view _) _ _ = _
    have hlen : (src.take i).length = i := List.length_take_of_le hi
    rw [h.contents]
    nth_rewrite 2 [← hlen]
    rw [Fs.overwrite_overwrite hoff,← List.take_add]

/-- The part of the request that one section has to write: `r` of its `m` bytes are written. -/
structure Section (sb : Superblock) (f : Fin NFILE) (ip : Fin NINODE) (inum off : ℕ)
    (c src : List UInt8) (i m : ℕ) (w : Watched) (z : ℤ) (t : State) : Prop where
  wellFormed : Fs.WellFormed sb t
  steady : Fs.Steady ip (w.sys.fs.load sb ip) t
  written : ∃ r ≤ m, (z = r ∨ r = 0 ∧ z = -1) ∧
    Written sb f ip inum off c src (i + r) (w.after f ip z t)
  room : off + i + m ≤ MAXFILE*BSIZE → ∀ P, Fs.Spans P (off + i) m →
    Fs.DiskRoom sb w.sys.fs.view inum P → z = m ∧ Fs.DiskRoom sb t.view inum P

theorem Written.writei {m : ℕ} (hl : sb.Layout) (hoff : off ≤ c.length) (hm : m ≤ src.length-i)
    (hm' : m ≤ 3*BSIZE) (h : Written sb f ip inum off c src i w) :
    Ends (Fs.writei sb ip (fun tot m => Fs.readable src (i+tot) m) (off+i) m)
      (w.sys.fs.load sb ip) (Section sb f ip inum off c src i m w) := by
  obtain ⟨-,hwf,hlock⟩ := h.ready.ilock
  have hd : ((w.sys.fs.load sb ip).itable ip).d = dinode sb w.sys.fs.view inum := by
    rw [Fs.State.load_self,h.ready.inum_eq]
  have hsize := h.size hoff
  have hmax := (hwf.busy hlock.1 hlock.2).sized.le
  have hbig : MAXFILE*BSIZE+3*BSIZE < 2^32 := by norm_num
  rw [hd] at hmax
  have hat : off+i ≤ ((w.sys.fs.load sb ip).itable ip).d.size := by
    rw [hd,hsize]
    omega
  by_cases hend : off+i+m ≤ MAXFILE*BSIZE
  · have hcopy : ∀ tot l, tot+l ≤ m →
        Fs.readable src (i+tot) l = Fs.readableUpTo (src.drop i) tot l := by
      intro tot l htot
      have hlt : tot+l ≤ (src.drop i).length := by
        rw [List.length_drop]
        omega
      rw [← Fs.readable_eq tot l hlt,Fs.readable,Fs.readable,List.drop_drop]
    refine (Fs.writei_left hl hwf hlock hcopy hat hend).mono ?_
    rintro _ t ⟨r,k,rfl,hz⟩
    refine ⟨hz.wellFormed,hz.steady,⟨r,hz.le,.inl rfl,h.after hoff hm hend hz⟩,
      fun _ P hP hroom => ?_⟩
    have hinum : ((w.sys.fs.load sb ip).itable ip).inum = inum := by
      rw [Fs.State.load_self,h.ready.inum_eq]
    have hload : Fs.Room sb (w.sys.fs.load sb ip) ip P :=
      (hwf.room_iff hlock).mpr (hinum.symm ▸ hroom)
    obtain ⟨rfl,hafter⟩ := hz.room P hP hload (by rwa [List.length_drop])
    have hroom' := (hz.wellFormed.room_iff (hz.locked hlock)).mp hafter
    rw [hz.steady.inum,hinum] at hroom'
    exact ⟨rfl,hroom'⟩
  · have hst : Fs.Steady ip (w.sys.fs.load sb ip) (w.sys.fs.load sb ip) :=
      ⟨fun _ _ => rfl,rfl,rfl,rfl,rfl⟩
    refine ⟨-1,_,Fs.writei_refuses _ (by omega) (by omega) (by omega),hwf,hst,
      ⟨0,Nat.zero_le _,.inr ⟨rfl,rfl⟩,?_⟩,fun hfits => absurd hfits hend⟩
    exact ⟨(h.ready.iunlock hwf hst).2.1,h.le,h.off_eq,h.contents⟩

/-- The request is written up to some byte, all of it if it fits in a file and on the disk. -/
theorem filewriteFrom_writes (hl : sb.Layout) (hoff : off ≤ c.length) (fuel i : ℕ)
    (h : Written sb f ip inum off c src i w) (hfuel : src.length-i ≤ fuel) :
    Ends ((filewriteFrom f ip (Fs.readable src) src.length fuel i).run (watch sb)) w fun z w' =>
      ∃ r, Written sb f ip inum off c src r w' ∧
        z = (if r = src.length then (src.length : ℤ) else -1) ∧
        (off+src.length ≤ MAXFILE*BSIZE → ∀ P, Fs.Spans P (off+i) (src.length-i) →
          Fs.DiskRoom sb w.sys.fs.view inum P → r = src.length) := by
  induction fuel generalizing w i with
  | zero =>
    have hle := h.le
    exact ends_pure ⟨i,h,rfl,fun _ _ _ _ => by omega⟩
  | succ fuel ih =>
    by_cases hi : i < src.length
    · have hm : min (src.length-i) maxWrite ≤ 3*BSIZE := maxWrite_eq ▸ min_le_right ..
      have hpos : 0 < min (src.length-i) maxWrite := lt_min (by omega) (by decide)
      have hle : min (src.length-i) maxWrite ≤ src.length-i := min_le_left ..
      have hwrite := h.writei hl hoff hle hm
      rw [← h.off_eq] at hwrite
      refine filewriteFrom_round fuel h.ready hi hwrite (fun z t hz => ⟨hz.wellFormed,hz.steady⟩)
        (fun z t hz hne => ?_) fun z t hz hall => ?_
      all_goals
        obtain ⟨r,hr,hzr,hw⟩ := hz.written
        generalize min (src.length-i) maxWrite = m at *
      · refine ⟨i+r,hw,by rw [if_neg (by omega)],fun hfits P hP hroom => ?_⟩
        exact absurd (hz.room (by omega) P (fun k hk hlt => hP k hk (by omega)) hroom).1 hne
      · obtain rfl : r = m := by omega
        subst hall
        rw [Int.toNat_natCast]
        refine (ih (i+r) hw (by omega)).mono ?_
        rintro z' w' ⟨q,hq,hz',hroom'⟩
        refine ⟨q,hq,hz',fun hfits P hP hroom => hroom' hfits P ?_ ?_⟩
        · rw [← Nat.sub_sub,← Nat.add_assoc]
          exact hP.tail hle
        · exact (hz.room (by omega) P (fun k hk hlt => hP k hk (by omega)) hroom).2
    · have hle := h.le
      rw [filewriteFrom,if_neg hi]
      exact ends_pure ⟨i,h,rfl,fun _ _ _ _ => by omega⟩

end Written

end Sections

/-- Every section of `filewrite` fits in its reservation, whatever the disk, the file, the request
and its source; nothing is logged outside a section. -/
theorem filewrite_fits {sb : Superblock} {s : Sys State} {f : Fin NFILE} {ip : Fin NINODE}
    {inum : ℕ} (hl : sb.Layout) (hready : Ready sb s.fs ip inum)
    (htype : (s.ps.ftable f).type = .inode) (hip : (s.ps.ftable f).ip = some ip)
    (hoff : (s.ps.ftable f).off ≤ (dinode sb s.fs.view inum).size) (io : Io) (n : ℤ) :
    ∃ z w, ((filewrite f io n).run (watch sb)).run ⟨s,s.fs.logged.length,[]⟩ = .ok (z,w) ∧
      w.sys.fs.logged = s.fs.logged ++ w.sections.flatten ∧
      ∀ l ∈ w.sections, l.toFinset.card ≤ MAXOPBLOCKS := by
  have hstart : Sections sb f ip inum s.fs.logged ⟨s,s.fs.logged.length,[]⟩ :=
    ⟨hready,hoff,(List.append_nil _).symm,fun _ hl => nomatch hl⟩
  have hends : Ends ((filewrite f io n).run (watch sb)) ⟨s,s.fs.logged.length,[]⟩ fun _ w' =>
      Sections sb f ip inum s.fs.logged w' := by
    unfold filewrite
    refine ends_procs ?_
    dsimp only
    split
    · exact ends_pure hstart
    split
    · exact ends_pure hstart
    rw [htype,hip]
    exact filewriteFrom_sections hl _ 0 hstart
  obtain ⟨z,w,hrun,hw⟩ := hends
  exact ⟨z,w,hrun,hw.logged,hw.fit⟩

/-- The empty file of the small disk, open for writing. -/
def smallSys : Sys State where
  fs := Fs.oneInode Fs.emptyFile
  ps := Procs.start.setFile 0 { File.closed with type := .inode, ref := 1, writable := true, ip := some 0 }

theorem smallSys_ready : Ready Fs.smallDisk smallSys.fs 0 1 :=
  ⟨Fs.emptyFile_wellFormed,by decide,rfl,rfl,by
    rw [show smallSys.fs = Fs.oneInode Fs.emptyFile from rfl,(Fs.oneInode_dinode Fs.emptyFile_fits).1]
    decide⟩

/-- A buffer of three bytes. -/
def threeBytes : Io := ⟨false,fun _ => true,fun _ _ => true,Fs.readable [1,2,3],0⟩

theorem filewrite_fits_emptyFile :
    ∃ z w, ((filewrite 0 threeBytes 3).run (watch Fs.smallDisk)).run ⟨smallSys,0,[]⟩ = .ok (z,w) ∧
      ∀ l ∈ w.sections, l.toFinset.card ≤ MAXOPBLOCKS := by
  obtain ⟨z,w,hrun,-,hfit⟩ := filewrite_fits Fs.smallDisk_layout smallSys_ready (f := 0) rfl rfl
    (Nat.zero_le _) threeBytes 3
  exact ⟨z,w,hrun,hfit⟩

/-- A single write of the whole source. -/
def writeOnce (sb : Superblock) (ip : Fin NINODE) (src : List UInt8) (off : ℕ) : Fs.Op ℤ := do
  Fs.ilock sb ip
  let r ← Fs.writei sb ip (Fs.readable src) off src.length
  Fs.iunlock ip
  pure r

theorem writeOnce_writes {sb : Superblock} {s : State} {ip : Fin NINODE} {inum off : ℕ}
    {src : List UInt8} (hl : sb.Layout) (h : Ready sb s ip inum)
    (hoff : off ≤ (dinode sb s.view inum).size) (hend : off+src.length ≤ MAXFILE*BSIZE)
    (hroom : Fs.DiskRoom sb s.view inum (Fs.placesFor off src.length)) :
    Ends (writeOnce sb ip src off) s fun z t => z = src.length ∧
      Fs.contents t.view (dinode sb t.view inum) =
        Fs.overwrite (Fs.contents s.view (dinode sb s.view inum)) off src := by
  obtain ⟨hlock,hwf,hlocked⟩ := h.ilock
  have hload := Fs.State.load_self sb s ip
  rw [h.inum_eq] at hload
  refine ends_bind_of_run hlock ?_
  refine (Fs.writei_left hl hwf hlocked Fs.readable_eq (by rwa [hload]) hend).bind ?_
  rintro _ t ⟨r,k,rfl,hz⟩
  have hbefore : Fs.Room sb (s.load sb ip) ip (Fs.placesFor off src.length) := by
    rw [hwf.room_iff hlocked,hload]
    exact hroom
  obtain ⟨rfl,-⟩ := hz.room _ (Fs.spans_placesFor off src.length) hbefore le_rfl
  obtain ⟨hunlock,-,hd⟩ := h.iunlock hz.wellFormed hz.steady
  have hcontents := hz.contents (by rwa [hload]) le_rfl
  rw [List.take_length,hload,hd] at hcontents
  exact ends_bind_of_run hunlock (ends_pure ⟨rfl,hcontents⟩)

/-- `filewrite` writes a prefix of its source at the old offset and advances the offset by its
length.  When the request fits in a file and on the disk, it is as good as a single write. -/
theorem filewrite_chunks {sb : Superblock} {s : Sys State} {f : Fin NFILE} {ip : Fin NINODE}
    {inum : ℕ} {io : Io} {src : List UInt8} (hl : sb.Layout) (hready : Ready sb s.fs ip inum)
    (htype : (s.ps.ftable f).type = .inode) (hip : (s.ps.ftable f).ip = some ip)
    (hwritable : (s.ps.ftable f).writable = true)
    (hoff : (s.ps.ftable f).off ≤ (dinode sb s.fs.view inum).size)
    (hsrc : io.copyin = Fs.readable src) (hpos : 0 < src.length) :
    ∃ z t, ((filewrite f io src.length).run (handle (Disk.serve sb))).run s = .ok (z,t) ∧
      (∃ r ≤ src.length, z = (if r = src.length then (src.length : ℤ) else -1) ∧
        (t.ps.ftable f).off = (s.ps.ftable f).off + r ∧
        Fs.contents t.fs.view (dinode sb t.fs.view inum) =
          Fs.overwrite (Fs.contents s.fs.view (dinode sb s.fs.view inum)) (s.ps.ftable f).off
            (src.take r)) ∧
      ((s.ps.ftable f).off + src.length ≤ MAXFILE*BSIZE →
        Fs.DiskRoom sb s.fs.view inum (Fs.placesFor (s.ps.ftable f).off src.length) →
        z = src.length ∧ (t.ps.ftable f).off = (s.ps.ftable f).off + src.length ∧
        ∃ u, (writeOnce sb ip src (s.ps.ftable f).off).run s.fs = .ok (z,u) ∧
          (dinode sb t.fs.view inum).size = (dinode sb u.view inum).size ∧
          Fs.contents t.fs.view (dinode sb t.fs.view inum) =
            Fs.contents u.view (dinode sb u.view inum)) := by
  have hc : (s.ps.ftable f).off ≤ (Fs.contents s.fs.view (dinode sb s.fs.view inum)).length := by
    rwa [Fs.contents_length]
  have hstart : Written sb f ip inum (s.ps.ftable f).off
      (Fs.contents s.fs.view (dinode sb s.fs.view inum)) src 0 ⟨s,s.fs.logged.length,[]⟩ :=
    ⟨hready,Nat.zero_le _,rfl,by simp [Fs.overwrite]⟩
  have hloop := filewriteFrom_writes hl hc src.length 0 hstart (by omega)
  obtain ⟨z,w,hrun,r,hw,hz,hall⟩ := hloop
  have hfile : ((filewrite f io src.length).run (handle (Disk.serve sb))).run s = .ok (z,w.sys) := by
    refine (run_watch (filewrite f io src.length) ⟨s,s.fs.logged.length,[]⟩).trans ?_
    have hwatch : ((filewrite f io src.length).run (watch sb)).run ⟨s,s.fs.logged.length,[]⟩ =
        .ok (z,w) := by
      unfold filewrite
      refine (run_bind_of_run (x := watch sb Cmd.procs) (a := s.ps)
        (t := ⟨s,s.fs.logged.length,[]⟩) rfl).trans ?_
      change StateT.run (Free.run (watch sb) (if _ then _ else if _ then _ else _)) _ = _
      rw [if_neg (by simp [hwritable]),if_neg (by omega),htype,hip,hsrc]
      exact hrun
    rw [hwatch]
    rfl
  refine ⟨z,w.sys,hfile,⟨r,hw.le,hz,hw.off_eq,hw.contents⟩,fun hend hroom => ?_⟩
  obtain rfl := hall hend _ (Fs.spans_placesFor _ _) hroom
  rw [if_pos rfl] at hz
  subst hz
  obtain ⟨z',u,hone,rfl,hcontents⟩ := writeOnce_writes hl hready hoff hend hroom
  have heq := hw.contents
  rw [List.take_length,← hcontents] at heq
  refine ⟨rfl,hw.off_eq,u,hone,?_,heq⟩
  rw [← Fs.contents_length w.sys.fs.view,heq,Fs.contents_length]

theorem smallSys_room : Fs.DiskRoom Fs.smallDisk smallSys.fs.view 1 (Fs.placesFor 0 3) := by
  have hlock : Fs.Locked (Fs.oneInode Fs.emptyFile) 0 := by decide
  exact (Fs.emptyFile_wellFormed.room_iff hlock).mp Fs.emptyFile_room

theorem filewrite_chunks_threeBytes :
    ∃ t, ((filewrite 0 threeBytes 3).run (handle (Disk.serve Fs.smallDisk))).run smallSys =
        .ok (3,t) ∧ (t.ps.ftable 0).off = 3 ∧
      ∃ u, (writeOnce Fs.smallDisk 0 [1,2,3] 0).run smallSys.fs = .ok (3,u) ∧
        Fs.contents t.fs.view (dinode Fs.smallDisk t.fs.view 1) =
          Fs.contents u.view (dinode Fs.smallDisk u.view 1) := by
  obtain ⟨z,t,hrun,-,hall⟩ := @filewrite_chunks Fs.smallDisk smallSys 0 0 1 threeBytes [1,2,3]
    Fs.smallDisk_layout smallSys_ready rfl rfl rfl (Nat.zero_le _) rfl (by decide)
  have hoff : (smallSys.ps.ftable 0).off = 0 := rfl
  rw [hoff] at hall
  obtain ⟨rfl,hadvanced,u,hone,-,hsame⟩ := hall (by norm_num) smallSys_room
  exact ⟨t,hrun,hadvanced,u,hone,hsame⟩

end Names
end Xv6
