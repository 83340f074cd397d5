import Xv6.Fs.Reclaim
import Xv6.Mkfs.Image

/-! The kernel reads what `mkfs` wrote: `readi` returns the bytes appended to a file, and
`dirlookup` finds every entry of the root directory. -/
namespace Xv6
namespace Mkfs

open Prog List
open Fs (NINODE Superblock Dinode NDIRECT MAXFILE dinode place addrAt bytesFrom Readable Sized
  Unreferenced)
open Names (Str Dirent DIRSIZ DESIZE ROOTINO T_DIR dot dotdot)

/-- The kernel has just booted on the image `img`. -/
structure Booted (img : ℕ → Block) (s : Fs.State) : Prop where
  view : s.view = img
  table : Unreferenced s

/-- `readi` on inode `inum`, from `iget` on. -/
def readFile (S : Superblock) (inum off n : ℕ) : Fs.Op (ℤ × List UInt8) := do
  let ip ← Fs.iget inum
  Fs.ilock S ip
  Fs.readi S ip (fun _ _ => true) off n

/-- `dirlookup` in the root directory, from `iget` on. -/
def lookupRoot (name : Str) : Names.Code (Option (Fin NINODE × ℕ)) := do
  let dp ← Names.iget ROOTINO
  Names.ilock dp
  Names.dirlookup dp name

section Files

variable {t : Host} {c : Content} {s : Fs.State} {i off n : ℕ}

theorem Final.type_ne (hf : Final t c) (hi : 1 ≤ i) (hn : i < c.n) :
    (dinode sb t.img i).type ≠ 0 := hf.laid.type_ne hi (hf.n ▸ hn)

/-- Mapped blocks can be read. -/
theorem Final.readable (hf : Final t c) (hi : 1 ≤ i) (hn : i < c.n) {len : ℕ}
    (hend : off+len ≤ c.blocks i*BSIZE) : Readable t.img (dinode sb t.img i) off len := by
  intro k _ hk
  have hlt := div_lt_of_lt_mul (hk.trans_le hend)
  have hmax := hlt.trans_le (hf.laid.mapping.le i hi (hf.n ▸ hn))
  exact ⟨hmax,(hf.addrAt_ne_zero_iff hi hn hmax).mpr hlt⟩

theorem map_getD_range (l : List UInt8) (off n : ℕ) :
    (range (min n (l.length-off))).map (fun j => l.getD (off+j) 0) =
      (l.drop off).take n := by
  refine ext_getElem (by simp) fun j hj hj' => ?_
  rw [length_take,length_drop] at hj'
  rw [getElem_map,getElem_range,getElem_take,getElem_drop,
    getD_eq_getElem _ _ (by omega)]

/-- What `readi` delivers of a file with bytes `l`; a range that wraps around is refused. -/
def slice (l : List UInt8) (off n : ℕ) : List UInt8 :=
  if off + n < 2^32 then (l.drop off).take n else []

theorem Final.read (hf : Final t c) (hs : Booted t.img s) (hi : ROOTINO < i) (hn : i < c.n)
    (hoff : off < 2^32) (hlen : n < 2^32) :
    Ends (readFile sb i off n) s fun r _ =>
      r = (((slice (c.data i) off n).length : ℤ),slice (c.data i) off n) := by
  have hsize : (dinode sb t.img i).size = (c.data i).length := by
    rw [hf.size i hi.le hn,if_neg hi.ne']
  obtain ⟨ip,x,hget,hlock⟩ := hs.table.opened (by rw [hs.view]; exact hf.type_ne hi.le hn)
  refine ends_bind_of_run hget (ends_bind_of_run hlock ?_)
  rw [hs.view]
  set u := s.put ip ⟨i,1,true,true,dinode sb t.img i⟩ with hu
  have hd : (u.itable ip).d = dinode sb t.img i := by rw [hu,Fs.State.put_self]
  have hv : u.view = t.img := hs.view
  have hle := length_le_blocks c i
  have hmap : Readable u.view (u.itable ip).d off (min n ((u.itable ip).d.size-off)) := by
    rw [hv,hd,hsize]
    by_cases hin : off ≤ (c.data i).length
    · exact hf.readable hi.le hn (by omega)
    · intro k _ _
      omega
  by_cases hwrap : off+n < 2^32
  · refine (Fs.readi_readable _ hmap).mono fun r _ hr => ?_
    rw [hr.2 hwrap fun _ _ => rfl,hv,hd,hsize,slice,if_pos hwrap]
    by_cases hin : off ≤ (c.data i).length
    · rw [hf.bytesFrom_eq hi.le hn (by omega),map_getD_range]
      simp
    · rw [drop_of_length_le (by omega),take_nil,
        show min n ((c.data i).length-off) = 0 by omega]
      rfl
  · rw [slice,if_neg hwrap]
    unfold Fs.readi
    refine ends_bind_of_run rfl ?_
    rw [if_pos (.inr (by omega))]
    exact ends_pure rfl

end Files

section Root

variable {t : Host} {c : Content} {s : Fs.State} {ps : Names.Procs} {dp : Fin NINODE} {name : Str}
  {k : ℕ}

/-- A new reference leads to the inode asked for. -/
theorem iget_inum {inum : ℕ} {ip : Fin NINODE} (hempty : (s.itable ip).ref = 0) :
    Ends (Fs.iget inum) s fun jp u => (u.itable jp).inum = inum := by
  unfold Fs.iget
  refine ends_bind_of_run rfl ?_
  split
  · rename_i jp hjp
    refine ⟨jp,_,rfl,?_⟩
    simpa [Fs.setInode] using (Fs.findEntry_some hjp).2
  · split
    · rename_i jp _
      exact ⟨jp,_,rfl,by simp⟩
    · rename_i hnone
      have := find?_eq_none.mp hnone ip (mem_finRange ip)
      simp [hempty] at this

/-- The inode operations of the kernel under the code of the name layer. -/
abbrev kernel : (c : Names.Cmd) → Prog Fs.Panic (Names.Sys Fs.State) c.Result :=
  Names.handle (Names.Disk.serve sb)

theorem inode_run {c : Names.InodeCmd} {r : c.Result} {u : Fs.State}
    (h : (Names.Disk.serve sb c).run s = .ok (r,u)) :
    ((Names.inode c).run kernel).run ⟨s,ps⟩ = .ok (r,⟨u,ps⟩) := by
  have hc : (Names.inode c).run kernel = kernel (.inode c) := Free.run_command (Names.Cmd.inode c)
  have hrun : Names.Disk.serve sb c s = .ok (r,u) := h
  rw [hc]
  show Names.handle (Names.Disk.serve sb) (.inode c) ⟨s,ps⟩ = _
  simp only [Names.handle,hrun]
  rfl

theorem readi_entry (hmap : Readable s.view (s.itable dp).d (DESIZE*k) DESIZE)
    (hsize : DESIZE*k+DESIZE ≤ (s.itable dp).d.size) (hsmall : (s.itable dp).d.size < 2^32) :
    ((Names.readi dp k).run kernel).run ⟨s,ps⟩ =
      .ok (some (entry s.view (s.itable dp).d k),⟨s,ps⟩) := by
  have hmin : min DESIZE ((s.itable dp).d.size-DESIZE*k) = DESIZE := by omega
  obtain ⟨r,u,hrun,rfl,hr⟩ := @Fs.readi_readable sb _ _ (fun _ _ => true) _ _
    (show Readable s.view (s.itable dp).d (DESIZE*k) (min DESIZE _) from hmin.symm ▸ hmap)
  refine inode_run ?_
  show (Names.Disk.readi sb dp k).run u = _
  rw [Names.Disk.readi,run_bind_of_run hrun,hr (by omega) fun _ _ => rfl,hmin]
  rfl

/-- `dirlookup` runs up to the first entry with the name. -/
theorem lookupFrom_run {n k : ℕ} {de : Dirent} (j : ℕ)
    (hmap : ∀ l, k ≤ l → l ≤ j → Readable s.view (s.itable dp).d (DESIZE*l) DESIZE)
    (hsize : DESIZE*j+DESIZE ≤ (s.itable dp).d.size) (hsmall : (s.itable dp).d.size < 2^32)
    (hkj : k ≤ j) (hjn : j < k+n)
    (hother : ∀ l, k ≤ l → l < j → (entry s.view (s.itable dp).d l).name ≠ de.name)
    (hde : entry s.view (s.itable dp).d j = de) (hinum : de.inum ≠ 0) :
    ((Names.lookupFrom dp de.name n k).run kernel).run ⟨s,ps⟩ =
      (((do
        let ip ← Names.iget de.inum
        pure (some (ip,j))) : Names.Code _).run kernel).run ⟨s,ps⟩ := by
  induction n generalizing k with
  | zero => omega
  | succ n ih =>
    have hread : ((Names.readi dp k).run kernel).run ⟨s,ps⟩ =
        .ok (some (entry s.view (s.itable dp).d k),⟨s,ps⟩) := readi_entry (hmap k le_rfl hkj)
      (le_trans (Nat.add_le_add_right (Nat.mul_le_mul_left _ hkj) _) hsize) hsmall
    unfold Names.lookupFrom
    rw [Free.run_bind,run_bind_of_run hread]
    dsimp only
    obtain rfl | hlt := hkj.eq_or_lt
    · rw [hde,if_pos ⟨hinum,rfl⟩]
    · rw [if_neg fun he => hother k le_rfl hlt he.2.symm]
      exact ih (fun l hl => hmap l (by omega)) (by omega) (by omega)
        fun l hl => hother l (by omega)

/-- The slots of the inode table are not all taken by one inode. -/
theorem Booted.exists_empty {img : ℕ → Block} (hs : Booted img s) (ip : Fin NINODE) (x : Fs.Inode) :
    ∃ jp, ((s.put ip x).itable jp).ref = 0 := by
  refine ⟨if ip = 0 then 1 else 0,?_⟩
  have hne : (if ip = 0 then 1 else 0) ≠ ip := by
    split
    · rename_i h
      rw [h]
      decide
    · rename_i h
      exact fun he => h he.symm
  show (Function.update s.itable ip x _).ref = 0
  rw [Function.update_of_ne hne]
  exact (hs.table _).1

/-- The first entry with a name is the one found. -/
theorem Final.lookup {ns : List Str} {de : Dirent} (hf : Final t c) (hl : Listed c ns)
    (hi : ns.length+2 ≤ 2^16) (hns : ∀ name ∈ ns, name.length ≤ DIRSIZ ∧ 0 ∉ name)
    (hs : Booted t.img s) (hk : (rootEntries ns)[k]? = some de)
    (hfirst : ∀ l < k, ∀ e, (rootEntries ns)[l]? = some e → e.name ≠ de.name) :
    Ends ((lookupRoot de.name).run kernel) ⟨s,ps⟩ fun r u =>
      ∃ ip, r = some (ip,k) ∧ (u.fs.itable ip).inum = de.inum := by
  have hroot : ROOTINO < c.n := by
    rw [hl.n]
    simp only [ROOTINO]
    omega
  obtain ⟨hlt,-⟩ := List.getElem?_eq_some_iff.mp hk
  rw [rootEntries_length] at hlt
  have htype : (dinode sb t.img ROOTINO).type = T_DIR :=
    (hf.laid.made ROOTINO le_rfl (hf.n ▸ hroot)).type
  have hinum : de.inum ≠ 0 := by
    match k with
    | 0 | 1 =>
      obtain rfl := Option.some.inj hk
      decide
    | k+2 =>
      rw [rootEntries_add_two,Option.map_eq_some_iff] at hk
      obtain ⟨_,-,rfl⟩ := hk
      exact Nat.succ_ne_zero _
  obtain ⟨hb,hsize⟩ := hf.root_blocks hl
  have hblocks := hl.root_blocks
  have hmax := hf.laid.mapping.le ROOTINO le_rfl (hf.n ▸ hroot)
  obtain ⟨dp,x,hget,hlock⟩ := hs.table.opened (by rw [hs.view]; exact hf.type_ne le_rfl hroot)
  rw [hs.view] at hlock
  obtain ⟨jp,hempty⟩ := hs.exists_empty dp ⟨ROOTINO,1,true,true,dinode sb t.img ROOTINO⟩
  set u := s.put dp ⟨ROOTINO,1,true,true,dinode sb t.img ROOTINO⟩ with hu
  have hd : u.itable dp = ⟨ROOTINO,1,true,true,dinode sb t.img ROOTINO⟩ := by
    rw [hu,Fs.State.put_self]
  have hv : u.view = t.img := hs.view
  have hfits : (dinode sb t.img ROOTINO).size < 2^32 :=
    (hf.laid.made ROOTINO le_rfl (hf.n ▸ hroot)).fits.size
  have hend : DESIZE*k+DESIZE ≤ (dinode sb t.img ROOTINO).size := by
    rw [hsize,hb]
    simp only [BSIZE,DESIZE]
    omega
  have hloop : ((Names.lookupFrom dp de.name (Names.rounds (dinode sb t.img ROOTINO).size) 0).run
      kernel).run ⟨u,ps⟩ =
      (((do
        let ip ← Names.iget de.inum
        pure (some (ip,k))) : Names.Code _).run kernel).run ⟨u,ps⟩ := lookupFrom_run k
    (fun l _ hlk => by
      rw [hv,hd]
      refine hf.readable le_rfl hroot ?_
      rw [hblocks]
      simp only [BSIZE,DESIZE]
      omega)
    (by rwa [hd]) (by rwa [hd]) (Nat.zero_le k)
    (by simp only [Names.rounds,DESIZE] at *; omega)
    (fun l _ hlk => by
      obtain ⟨e,he⟩ : ∃ e, (rootEntries ns)[l]? = some e :=
        ⟨_,List.getElem?_eq_getElem (by rw [rootEntries_length]; omega)⟩
      rw [hv,hd,hf.entry_eq hl hi hns he]
      exact hfirst l hlk e he)
    (by rw [hv,hd,hf.entry_eq hl hi hns hk]) hinum
  have hstat : ((Names.stat dp).run kernel).run ⟨u,ps⟩ =
      .ok (⟨ROOTINO,T_DIR,_,_,_⟩,⟨u,ps⟩) := inode_run (by
    show (Names.Disk.stat dp).run u = _
    rw [Names.Disk.stat,run_bind_of_run rfl,hd,htype]
    rfl)
  have hsz : ((Names.size dp).run kernel).run ⟨u,ps⟩ =
      .ok ((dinode sb t.img ROOTINO).size,⟨u,ps⟩) := inode_run (by
    show ((do let x ← Fs.inode dp; pure x.d.size : Fs.Op ℕ)).run u = _
    rw [run_bind_of_run rfl,hd]
    rfl)
  unfold lookupRoot Names.dirlookup
  rw [Free.run_bind]
  refine ends_bind_of_run (inode_run (c := .iget ROOTINO) hget) ?_
  rw [Free.run_bind]
  refine ends_bind_of_run (inode_run (c := .ilock dp) hlock) ?_
  rw [Free.run_bind]
  refine ends_bind_of_run hstat ?_
  rw [if_neg (not_ne_iff.mpr rfl),Free.run_bind]
  refine ends_bind_of_run hsz ?_
  obtain ⟨ip,v,higet,hv'⟩ := iget_inum hempty
  refine ⟨some (ip,k),⟨v,ps⟩,hloop.trans ?_,ip,rfl,hv'⟩
  rw [Free.run_bind]
  exact run_bind_of_run (inode_run (c := .iget de.inum) higet)

end Root

section Agreement

variable {calls : List Call} {t : Host} {k : ℕ} {de : Dirent}

theorem rootEntries_names (ns : List Str) :
    (rootEntries ns).map Dirent.name = dot::dotdot::ns := by
  simp only [rootEntries,map_cons]
  congr 2
  refine ext_getElem? fun i => ?_
  rw [List.getElem?_map,List.getElem?_mapIdx,Option.map_map]
  exact Option.map_id'

/-- The inode numbers fit the two bytes an entry has for them. -/
theorem Final.names_length (hl : Legal 2 calls) (hf : Final t (content calls)) :
    (names calls).length+2 ≤ 2^16 := by
  rw [← (content_listed hl).n,← hf.n]
  exact hf.laid.inums.trans (by decide)

/-- Names that differ are found where they were entered. -/
theorem first_of_nodup {ns : List Str} (hnd : (dot::dotdot::ns).Nodup)
    (hk : (rootEntries ns)[k]? = some de) :
    ∀ l < k, ∀ e, (rootEntries ns)[l]? = some e → e.name ≠ de.name := by
  intro l hlk e he hname
  rw [← rootEntries_names] at hnd
  have hl : ((rootEntries ns).map Dirent.name)[l]? = some de.name := by
    rw [List.getElem?_map,he,← hname]
    rfl
  have hk' : ((rootEntries ns).map Dirent.name)[k]? = some de.name := by
    rw [List.getElem?_map,hk]
    rfl
  obtain ⟨hlt,h1⟩ := List.getElem?_eq_some_iff.mp hl
  obtain ⟨hlt',h2⟩ := List.getElem?_eq_some_iff.mp hk'
  exact absurd (hnd.getElem_inj_iff.mp (h1.trans h2.symm)) hlk.ne

/-- `mkfs` comes to its end, and the kernel that boots on the image finds the bytes appended to
each file and the names entered in the root directory. -/
theorem reader_agrees (hl : Legal 2 calls) (hfits : (content calls).Fits)
    (hok : ∀ name ∈ names calls, name.length ≤ DIRSIZ ∧ 0 ∉ name)
    (hnd : (dot::dotdot::names calls).Nodup) :
    ∃ t, (build calls).run .start = .ok ((),t) ∧ ∀ s ps, Booted t.img s →
      (∀ i, ROOTINO < i → i < (names calls).length + 2 → ∀ off n, off < 2^32 → n < 2^32 →
        Ends (readFile (readsb (t.img 1)) i off n) s fun r _ =>
          r = (((slice (appended i calls) off n).length : ℤ),slice (appended i calls) off n)) ∧
      ∀ k de, (rootEntries (names calls))[k]? = some de →
        Ends ((lookupRoot de.name).run (Names.handle (Names.Disk.serve (readsb (t.img 1))))) ⟨s,ps⟩
          fun r u => ∃ ip, r = some (ip,k) ∧ (u.fs.itable ip).inum = de.inum := by
  obtain ⟨_,t,hrun,hf⟩ := (build_spec hl).ends fun _ he => he hfits
  refine ⟨t,hrun,fun s ps hs => ⟨fun i hi hn off n hoff hlen => ?_,fun k de hk => ?_⟩⟩
  · rw [← (content_listed hl).n] at hn
    rw [hf.super,readsb_superBlock,← content_data hl hi hn]
    exact hf.read hs hi hn hoff hlen
  · rw [hf.super,readsb_superBlock]
    exact hf.lookup (content_listed hl) (hf.names_length hl) hok hs hk (first_of_nodup hnd hk)

end Agreement

/-- A file `a` that is written in two steps. -/
def twoChunks : List Call := [.create [97],.append 2 [5],.append 2 [6,7]]

theorem twoChunks_legal : Legal 2 twoChunks :=
  ⟨by decide,by decide,by decide,by decide,by decide,trivial⟩

theorem twoChunks_fits : (content twoChunks).Fits := by
  refine ⟨fun i hi hn => ?_,by decide +kernel⟩
  obtain rfl | rfl : i = 1 ∨ i = 2 := by
    have : i < 3 := hn
    omega
  all_goals decide +kernel

theorem kernel_zeroed_booted (img : ℕ → Block) :
    Booted img ⟨img,[],fun _ => ⟨0,0,false,false,.blank⟩⟩ := ⟨rfl,fun _ => ⟨rfl,rfl⟩⟩

theorem reader_agrees_two_chunks : ∃ t, (build twoChunks).run .start = .ok ((),t) ∧
    Ends (readFile (readsb (t.img 1)) 2 1 10)
      ⟨t.img,[],fun _ => ⟨0,0,false,false,.blank⟩⟩ fun r _ => r = (2,[6,7]) := by
  obtain ⟨t,hrun,hread⟩ := reader_agrees twoChunks_legal twoChunks_fits (by decide) (by decide)
  exact ⟨t,hrun,(hread _ .start (kernel_zeroed_booted t.img)).1 2 (by decide) (by decide) 1 10
    (by decide) (by decide)⟩

/-- A file whose name is that of the first entry of the root directory. -/
def dotFile : List Call := [.create dot,.append 2 [7,8]]

theorem dotFile_fits : (content dotFile).Fits := by
  refine ⟨fun i hi hn => ?_,by decide +kernel⟩
  obtain rfl | rfl : i = 1 ∨ i = 2 := by
    have : i < 3 := hn
    omega
  all_goals decide +kernel

/-- `readi` refuses to read to the end of a file when offset and length add up to `2^32`, and
`dirlookup` does not get to a file called `.`. -/
theorem reader_disagrees : Legal 2 dotFile ∧ (content dotFile).Fits ∧ (names dotFile).Nodup ∧
    ∃ t, (build dotFile).run .start = .ok ((),t) ∧ ∀ s ps, Booted t.img s →
      (Ends (readFile (readsb (t.img 1)) 2 1 (2^32 - 1)) s fun r _ =>
        r = (0,[]) ∧ ((appended 2 dotFile).drop 1).take (2^32 - 1) = [8]) ∧
      (rootEntries (names dotFile))[2]? = some ⟨2,dot⟩ ∧
      Ends ((lookupRoot dot).run (Names.handle (Names.Disk.serve (readsb (t.img 1))))) ⟨s,ps⟩
        fun r u => ∃ ip, r = some (ip,0) ∧ (u.fs.itable ip).inum = ROOTINO := by
  have hl : Legal 2 dotFile := ⟨by decide,by decide,by decide,trivial⟩
  obtain ⟨_,t,hrun,hf⟩ := (build_spec hl).ends fun _ he => he dotFile_fits
  have hlist := content_listed hl
  refine ⟨hl,dotFile_fits,by decide,t,hrun,fun s ps hs => ⟨?_,rfl,?_⟩⟩
  · rw [hf.super,readsb_superBlock]
    have hn : 2 < (content dotFile).n := by decide
    exact (hf.read hs (by decide) hn (by decide) (by decide)).mono fun r _ hr => ⟨hr,rfl⟩
  · rw [hf.super,readsb_superBlock]
    have hfirst : (rootEntries (names dotFile))[0]? = some ⟨ROOTINO,dot⟩ := rfl
    have hlook (de : Dirent) (hde : (rootEntries (names dotFile))[0]? = some de) :
        Ends ((lookupRoot de.name).run kernel) ⟨s,ps⟩ fun r u =>
          ∃ ip, r = some (ip,0) ∧ (u.fs.itable ip).inum = de.inum :=
      hf.lookup hlist (hf.names_length hl) (by decide) hs hde
        fun l hlt => absurd hlt (Nat.not_lt_zero l)
    exact hlook _ hfirst

end Mkfs
end Xv6
