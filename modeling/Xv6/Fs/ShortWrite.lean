import Xv6.Fs.File

/-! `writei` when it fails: the disk is full, or the source can be read up to a point only. -/
namespace Xv6
namespace Fs

open Prog

variable {sb : Superblock} {s t u : State} {ip : Fin NINODE} {src : List UInt8} {n tot m : ℕ}

/-- The byte that `readi` delivers from offset `j`. -/
def delivers (sb : Superblock) (ip : Fin NINODE) (s : State) (j : ℕ) : Option UInt8 :=
  match (readi sb ip (fun _ _ => true) j 1).run s with
  | .ok (r,_) => r.2.head?
  | .error _ => none

theorem delivers_eq (h : WellFormed sb s) (hlock : Locked s ip) (j : ℕ) :
    delivers sb ip s j = (contents s.view (s.itable ip).d)[j]? := by
  have hsz := (h.busy hlock.1 hlock.2).sized
  unfold delivers
  by_cases hw : j+1 < 2^32
  · have hspec : Ends (readi sb ip (fun _ _ => true) j 1) s _ := readi_spec hsz (fun _ _ => true) j 1
    obtain ⟨r,t,hrun,-,hr⟩ := hspec
    rw [hrun]
    simp only
    rw [hr hw fun _ _ => rfl]
    simp only
    rw [bytesFrom_eq_take_drop,List.head?_take,if_neg Nat.one_ne_zero,List.head?_drop]
  · have hrun : (readi sb ip (fun _ _ => true) j 1).run s = .ok ((0,[]),s) := by
      unfold readi
      refine (run_bind_of_run (rfl : (inode ip).run s = .ok (s.itable ip,s))).trans ?_
      rw [if_pos (.inr (by omega))]
      rfl
    rw [hrun]
    refine (List.getElem?_eq_none ?_).symm
    rw [contents_length]
    have hle := hsz.le
    have hbig : MAXFILE*BSIZE+1 < 2^32 := by norm_num
    omega

/-- What a write that returns `z` has changed: nothing if `z` is -1, and if fewer than `n` bytes are
reported, only those and the size. -/
def Reported (sb : Superblock) (ip : Fin NINODE) (off n : ℕ) (s : State) (z : ℤ) (t : State) : Prop :=
  (z = -1 → t = s) ∧ ∀ r : ℕ, z = r → r < n →
    (t.itable ip).d.size =
      (if 0 < r then max (s.itable ip).d.size (off + r) else (s.itable ip).d.size) ∧
    ∀ j, ¬(off ≤ j ∧ j < off + r) → delivers sb ip t j = delivers sb ip s j

/-- Where the readable part of the source ends inside a block, what it has for that block is in the
file already. -/
def Harmless (sb : Superblock) (ip : Fin NINODE) (off n : ℕ) (src : List UInt8) (s : State) : Prop :=
  off ≤ (s.itable ip).d.size → off + n ≤ MAXFILE*BSIZE → src.length < n →
    ∀ j b, off ≤ j → BSIZE*((off + src.length)/BSIZE) ≤ j → j < off + src.length →
      delivers sb ip s j = some b → src.getD (j - off) 0 = b

/-- The bytes of a chunk that was not finished are the only ones that are not reported. -/
theorem Left.reported_iff {off r k : ℕ} (hleft : Left sb ip src n off s r k t)
    (h : WellFormed sb s) (hlock : Locked s ip) (hoff : off ≤ (s.itable ip).d.size) :
    Reported sb ip off n s r t ↔ (r < n → ∀ j b, off+r ≤ j → j < off+r+k →
      delivers sb ip s j = some b → src.getD (j-off) 0 = b) := by
  have hs (j : ℕ) (hj : j < (s.itable ip).d.size) :
      delivers sb ip s j = some (fileByte s.view (s.itable ip).d j) := by
    rw [delivers_eq h hlock,List.getElem?_eq_getElem (by rwa [contents_length]),contents_getElem]
  have ht (j : ℕ) (hj : j < (t.itable ip).d.size) :
      delivers sb ip t j = some (fileByte t.view (t.itable ip).d j) := by
    rw [delivers_eq hleft.wellFormed (hleft.locked hlock),
      List.getElem?_eq_getElem (by rwa [contents_length]),contents_getElem]
  have hnone (j : ℕ) (hj : (s.itable ip).d.size ≤ j) : delivers sb ip s j = none := by
    rw [delivers_eq h hlock,List.getElem?_eq_none (by rwa [contents_length])]
  have hnone' (j : ℕ) (hj : (t.itable ip).d.size ≤ j) : delivers sb ip t j = none := by
    rw [delivers_eq hleft.wellFormed (hleft.locked hlock),List.getElem?_eq_none (by rwa [contents_length])]
  have hsize := hleft.size
  constructor
  · intro hrep hr j b hj hjk hb
    have hjs : j < (s.itable ip).d.size := by
      by_contra hge
      rw [hnone j (by omega)] at hb
      cases hb
    have hsame := (hrep.2 r rfl hr).2 j (by omega)
    rw [hb,ht j (by omega),hleft.bytes j (by omega),if_pos (by omega)] at hsame
    exact Option.some.inj hsame
  · intro hall
    refine ⟨fun hz => by omega,fun r' hr' hlt => ?_⟩
    obtain rfl : r = r' := Int.ofNat_inj.mp hr'
    refine ⟨by rw [hsize]; split <;> omega,fun j hj => ?_⟩
    by_cases hjs : j < (s.itable ip).d.size
    · rw [ht j (by omega),hleft.bytes j (by omega),hs j hjs]
      by_cases hin : off ≤ j ∧ j < off+r+k
      · rw [if_pos hin,hall hlt j _ (by omega) hin.2 (hs j hjs)]
      · rw [if_neg hin]
    · rw [hnone j (by omega),hnone' j (by omega)]

/-- `writei` changes only what it reports just if the condition holds. -/
theorem short_write (hl : sb.Layout) (h : WellFormed sb s) (hlock : Locked s ip) (off n : ℕ)
    (ho : off < 2^32) (hn : n < 2^32) (src : List UInt8) :
    ∃ z t, (writei sb ip (readableUpTo src) off n).run s = .ok (z,t) ∧
      (Reported sb ip off n s z t ↔ Harmless sb ip off n src s) := by
  by_cases hin : off ≤ (s.itable ip).d.size ∧ off+n ≤ MAXFILE*BSIZE
  · obtain ⟨z,t,hrun,r,k,rfl,hleft⟩ := writei_left hl h hlock (fun _ _ _ => rfl) hin.1 hin.2
    refine ⟨r,t,hrun,(hleft.reported_iff h hlock hin.1).trans ?_⟩
    have hle := hleft.le
    have haligned := hleft.aligned
    have hsz := (h.busy hlock.1 hlock.2).sized
    cases hleft.stopped with
    | done hsrc =>
      exact ⟨fun _ _ _ hlt => absurd hlt (by omega),fun _ hlt => absurd hlt (by omega)⟩
    | full hr hr' hzero =>
      refine ⟨fun _ _ _ hlt j b hj hblock hjl hb => ?_,fun _ _ j b hj hjk => by omega⟩
      -- the file ends before the block that has no address
      exfalso
      have hjs : j < (s.itable ip).d.size := by
        rw [delivers_eq h hlock,List.getElem?_eq_some_iff] at hb
        obtain ⟨hjs,-⟩ := hb
        rwa [contents_length] at hjs
      rw [(h.busy hlock.1 hlock.2).slots_self] at hzero
      refine hsz.mapped ((off+r)/BSIZE) ?_ hzero
      simp only [BSIZE] at *
      omega
    | source hr hr' hlt =>
      have hfit := chunk_fits n r (off+r)
      have hle' := chunk_le n r (off+r)
      have hrange : ∀ j, (off ≤ j ∧ BSIZE*((off+src.length)/BSIZE) ≤ j ∧ j < off+src.length) ↔
          (off+r ≤ j ∧ j < off+r+(src.length-r)) := by
        intro j
        simp only [BSIZE] at *
        omega
      constructor
      · intro hall _ _ _ j b h1 h2 h3 hb
        obtain ⟨h4,h5⟩ := (hrange j).mp ⟨h1,h2,h3⟩
        exact hall hr j b h4 h5 hb
      · intro hharm _ j b h4 h5 hb
        obtain ⟨h1,h2,h3⟩ := (hrange j).mpr ⟨h4,h5⟩
        exact hharm hin.1 hin.2 (by omega) j b h1 h2 h3 hb
  · have hrun : (writei sb ip (readableUpTo src) off n).run s = .ok (-1,s) :=
      writei_refuses _ ho hn hin
    refine ⟨-1,s,hrun,fun _ hoff hend => absurd ⟨hoff,hend⟩ hin,fun _ => ⟨fun _ => rfl,?_⟩⟩
    intro r hr
    omega

/-- A write to an empty file whose source ends too early. -/
theorem short_write_emptyFile :
    ∃ z t, (writei smallDisk 0 (readableUpTo [9]) 0 2).run (oneInode emptyFile) = .ok (z,t) ∧
      Reported smallDisk 0 0 2 (oneInode emptyFile) z t := by
  have hlock : Locked (oneInode emptyFile) 0 := by decide
  obtain ⟨z,t,hrun,hiff⟩ := short_write smallDisk_layout emptyFile_wellFormed hlock 0 2 (by decide)
    (by decide) [9]
  refine ⟨z,t,hrun,hiff.mpr fun _ _ _ j b _ _ _ hb => ?_⟩
  rw [delivers_eq emptyFile_wellFormed hlock] at hb
  cases hb

/-- A file with the bytes 1, 2 and 3. -/
theorem exists_threeBytes : ∃ s, WellFormed smallDisk s ∧ Locked s 0 ∧
    contents s.view (s.itable 0).d = [1,2,3] := by
  have hlock : Locked (oneInode emptyFile) 0 := by decide
  obtain ⟨z,s,-,r,k,rfl,hleft⟩ := writei_left smallDisk_layout emptyFile_wellFormed hlock
    (@readable_eq [1,2,3]) (Nat.zero_le _) (by norm_num)
  obtain ⟨rfl,-⟩ := hleft.room _ (spans_placesFor 0 3) emptyFile_room le_rfl
  exact ⟨s,hleft.wellFormed,hleft.locked hlock,hleft.contents (Nat.zero_le _) le_rfl⟩

/-- The first of two bytes is overwritten, but no byte is reported. -/
theorem unreported_byte : ∃ s t, WellFormed smallDisk s ∧ Locked s 0 ∧
    (writei smallDisk 0 (readableUpTo [9]) 0 2).run s = .ok (0,t) ∧
    delivers smallDisk 0 s 0 = some 1 ∧ delivers smallDisk 0 t 0 = some 9 ∧
    ¬Reported smallDisk 0 0 2 s 0 t := by
  obtain ⟨s,hwf,hlock,hc⟩ := exists_threeBytes
  have hsize : (s.itable 0).d.size = 3 := by
    rw [← contents_length s.view,hc]
    rfl
  have hends : Ends (writei smallDisk 0 (readableUpTo [9]) 0 2) s _ :=
    writei_left smallDisk_layout hwf hlock (fun _ _ _ => rfl) (Nat.zero_le _) (by norm_num)
  obtain ⟨z,t,hrun,r,k,rfl,hleft⟩ := hends
  have hk : r = 0 ∧ k = 1 := by
    have haligned := hleft.aligned
    cases hleft.stopped with
    | done h => exact absurd h (by decide)
    | full hr hr' hzero =>
      have hsz := (hwf.busy hlock.1 hlock.2).sized
      rw [(hwf.busy hlock.1 hlock.2).slots_self] at hzero
      refine absurd hzero (hsz.mapped ((0+r)/BSIZE) ?_)
      simp only [BSIZE] at *
      omega
    | source hr hr' h =>
      simp only [BSIZE,List.length_singleton] at *
      omega
  obtain ⟨rfl,rfl⟩ := hk
  have hs : delivers smallDisk 0 s 0 = some 1 := by
    rw [delivers_eq hwf hlock,hc]
    rfl
  have ht : delivers smallDisk 0 t 0 = some 9 := by
    have hpos : 0 < (t.itable 0).d.size := by
      rw [hleft.size]
      omega
    rw [delivers_eq hleft.wellFormed (hleft.locked hlock),
      List.getElem?_eq_getElem (by rwa [contents_length]),contents_getElem,hleft.bytes 0 hpos]
    rfl
  refine ⟨s,t,hwf,hlock,hrun,hs,ht,fun hrep => ?_⟩
  have hsame := (hrep.2 0 rfl (by decide)).2 0 (by omega)
  rw [hs,ht] at hsame
  exact absurd hsame (by decide)

end Fs
end Xv6
