import Xv6.Fs.Truncate

/-! `readi` and `writei`.  A transfer is cut at block boundaries into chunks. -/
namespace Xv6
namespace Fs

open Prog Function List

/-- Byte `k` of the file of `d`. -/
def fileByte (view : ℕ → Block) (d : Dinode) (k : ℕ) : UInt8 :=
  (view (addrAt view d (place (k/BSIZE)))).byte (k % BSIZE)

/-- `len` bytes of the file of `d`, from `off` on. -/
def bytesFrom (view : ℕ → Block) (d : Dinode) (off len : ℕ) : List UInt8 :=
  (List.range len).map fun k => fileByte view d (off + k)

variable {sb : Superblock} {s t u : State} {ip : Fin NINODE} {view : ℕ → Block} {d : Dinode}

theorem chunk_le (n tot off : ℕ) : chunk n tot off ≤ n-tot := min_le_left ..

theorem chunk_pos {n tot : ℕ} (off : ℕ) (h : tot < n) : 0 < chunk n tot off := by
  have := Nat.mod_lt off (show 0 < BSIZE by decide)
  exact lt_min (by omega) (by omega)

theorem chunk_fits (n tot off : ℕ) : off % BSIZE+chunk n tot off ≤ BSIZE := by
  have h1 := Nat.mod_lt off (show 0 < BSIZE by decide)
  have h2 : chunk n tot off ≤ BSIZE-off % BSIZE := min_le_right ..
  omega

/-- Offsets of one chunk lie in one block. -/
theorem div_mod_chunk {off m j : ℕ} (h : off % BSIZE+m ≤ BSIZE) (hj : j < m) :
    (off+j)/BSIZE = off/BSIZE ∧ (off+j) % BSIZE = off % BSIZE+j := by
  simp only [BSIZE] at *
  omega

theorem bytesFrom_add (view : ℕ → Block) (d : Dinode) (off m l : ℕ) :
    bytesFrom view d off (m+l) = bytesFrom view d off m++bytesFrom view d (off+m) l := by
  simp only [bytesFrom,range_add,map_append,map_map,comp_def,Nat.add_assoc]

theorem slice_chunk {off m : ℕ} (h : off % BSIZE+m ≤ BSIZE) :
    (view (addrAt view d (place (off/BSIZE)))).slice (off % BSIZE) m = bytesFrom view d off m := by
  apply map_congr_left
  intro j hj
  obtain ⟨hq,hr⟩ := div_mod_chunk h (mem_range.mp hj)
  rw [fileByte,hq,hr]

theorem Sized.lt_maxfile (h : Sized view d) {off : ℕ} (hoff : off < d.size) :
    off/BSIZE < MAXFILE := Nat.div_lt_of_lt_mul (by have := h.le; rw [Nat.mul_comm] at this; omega)

theorem Sized.mapped_at (h : Sized view d) {off : ℕ} (hoff : off < d.size) :
    addrAt view d (place (off/BSIZE)) ≠ 0 := by
  refine h.mapped _ ?_
  simp only [BSIZE] at *
  omega

/-- The blocks of `len` bytes from `off` on have addresses. -/
def Readable (view : ℕ → Block) (d : Dinode) (off len : ℕ) : Prop :=
  ∀ k, off ≤ k → k < off + len → k/BSIZE < MAXFILE ∧ addrAt view d (place (k/BSIZE)) ≠ 0

theorem Sized.readable (h : Sized view d) {off len : ℕ} (hend : off+len ≤ d.size) :
    Readable view d off len := fun _ _ hk =>
  ⟨h.lt_maxfile (hk.trans_le hend),h.mapped_at (hk.trans_le hend)⟩

/-- Reading mapped blocks never changes the state. -/
theorem readLoop_spec (copyout : ℕ → List UInt8 → Bool)
    {n : ℕ} (fuel tot off : ℕ) (acc : List UInt8) (hfuel : n-tot ≤ fuel)
    (hmap : Readable s.view (s.itable ip).d off (n-tot)) (htot : tot ≤ n) :
    Ends (readLoop sb ip copyout n fuel tot off acc) s fun r t => t = s ∧
      ((∀ i xs, copyout i xs = true) →
        r = ((n : ℤ),acc++bytesFrom s.view (s.itable ip).d off (n-tot))) := by
  induction fuel generalizing tot off acc with
  | zero =>
    obtain rfl : tot = n := by omega
    exact ends_pure ⟨rfl,fun _ => by simp [bytesFrom]⟩
  | succ fuel ih =>
    unfold readLoop
    by_cases hlt : tot < n
    · rw [if_pos hlt]
      obtain ⟨hmax,hne⟩ := hmap off le_rfl (by omega)
      refine ends_bind_of_run (bmap_present hmax hne) ?_
      rw [if_neg hne]
      refine ends_bind_of_run rfl ?_
      have hpos := chunk_pos off hlt
      have hle := chunk_le n tot off
      dsimp only
      split
      · refine (ih (tot+chunk n tot off) (off+chunk n tot off) _ (by omega)
          (fun k hk hk' => hmap k (by omega) (by omega)) (by omega)).mono
          fun r t hr => ⟨hr.1,fun hall => ?_⟩
        rw [hr.2 hall,slice_chunk (chunk_fits n tot off),append_assoc,← bytesFrom_add]
        congr 3
        omega
      · rename_i hfail
        exact ends_pure ⟨rfl,fun hall => absurd (hall _ _) hfail⟩
    · rw [if_neg hlt]
      obtain rfl : tot = n := by omega
      exact ends_pure ⟨rfl,fun _ => by simp [bytesFrom]⟩

theorem readi_readable (copyout : ℕ → List UInt8 → Bool) {off n : ℕ}
    (hmap : Readable s.view (s.itable ip).d off (min n ((s.itable ip).d.size-off))) :
    Ends (readi sb ip copyout off n) s fun r t => t = s ∧
      (off+n < 2^32 → (∀ i xs, copyout i xs = true) →
        r = (((min n ((s.itable ip).d.size-off) : ℕ) : ℤ),
          bytesFrom s.view (s.itable ip).d off (min n ((s.itable ip).d.size-off)))) := by
  unfold readi
  refine ends_bind_of_run rfl ?_
  split
  · rename_i hc
    refine ends_pure ⟨rfl,fun hw _ => ?_⟩
    rw [Nat.mod_eq_of_lt hw] at hc
    have hmin : min n ((s.itable ip).d.size-off) = 0 := by omega
    rw [hmin]
    rfl
  · rename_i hc
    dsimp only
    have hn : (if (s.itable ip).d.size < off+n then (s.itable ip).d.size-off else n) =
        min n ((s.itable ip).d.size-off) := by
      split <;> omega
    rw [hn]
    generalize min n ((s.itable ip).d.size-off) = m at hmap ⊢
    refine (readLoop_spec copyout m 0 off [] le_rfl hmap (Nat.zero_le m)).mono
      fun r t hr => ⟨hr.1,fun _ hall => ?_⟩
    simpa using hr.2 hall

theorem readi_spec (hsz : Sized s.view (s.itable ip).d) (copyout : ℕ → List UInt8 → Bool)
    (off n : ℕ) :
    Ends (readi sb ip copyout off n) s fun r t => t = s ∧
      (off+n < 2^32 → (∀ i xs, copyout i xs = true) →
        r = (((min n ((s.itable ip).d.size-off) : ℕ) : ℤ),
          bytesFrom s.view (s.itable ip).d off (min n ((s.itable ip).d.size-off)))) := by
  by_cases hoff : off ≤ (s.itable ip).d.size
  · exact readi_readable copyout (hsz.readable (by omega))
  · refine readi_readable copyout fun k hk hk' => ?_
    omega

/-- The state with block `b` replaced in the cache. -/
def State.poke (s : State) (b : ℕ) (x : Block) : State :=
  { s with view := update s.view b x }

def State.log (s : State) (b : ℕ) : State := { s with logged := s.logged ++ [b] }

@[simp] theorem State.poke_itable (s : State) (b : ℕ) (x : Block) :
    (s.poke b x).itable = s.itable := rfl

theorem bstore_run (s : State) (b : ℕ) (x : Block) :
    (bstore b x).run s = .ok ((),s.poke b x) := rfl

theorem logWrite_run (s : State) (b : ℕ) : (logWrite b).run s = .ok ((),s.log b) := rfl

theorem place_ne_ndirect (bn : ℕ) : place bn ≠ NDIRECT := by
  unfold place
  split <;> omega

theorem place_inj {j k : ℕ} (h : place j = place k) : j = k := by
  unfold place at h
  split at h <;> split at h <;> omega

theorem Owned.congr_inodes {D D' : ℕ → Dinode} (h : Owned sb view D)
    (hD : ∀ i, sb.IsInum i → D' i = D i) : Owned sb view D' where
  held := by
    rw [slot_congr_inodes hD]
    exact h.held
  sized i hi ht := by
    rw [hD i hi] at ht ⊢
    exact h.sized i hi ht

section Poke

variable {a p : ℕ} (hl : sb.Layout) (h : Busy sb s ip)
  (ha : slots sb s ip ((s.itable ip).inum,p) = a) (hne : a ≠ 0) (hp : p ≠ NDIRECT) (x : Block)

include ha hne h in
theorem Busy.slot_isData : sb.IsData a := by
  subst ha
  exact h.owned.held.isData hne

include hl ha hne h in
theorem Busy.dinode_poke (i : ℕ) (hi : sb.IsInum i) :
    dinode sb (s.poke a x).view i = dinode sb s.view i :=
  dinode_update_of_ne x (iblock_ne_data hl hi (h.slot_isData ha hne))

include ha h hp in
/-- A block of file data is nobody's indirect block. -/
theorem Busy.ne_indirect (i : ℕ) (hi : slots sb s ip (i,NDIRECT) ≠ 0) :
    slots sb s ip (i,NDIRECT) ≠ a := by
  intro heq
  have hinj := h.owned.held.accounts.inj (heq.trans ha.symm) hi
  exact hp (congrArg Prod.snd hinj).symm

include hl ha hne h hp in
theorem Busy.slots_poke : slots sb (s.poke a x) ip = slots sb s ip := by
  have hcur : slots sb (s.poke a x) ip = slot sb (s.poke a x).view (current sb s ip) :=
    slot_congr_inodes fun i hi => current_congr (s.poke_itable a x) (h.dinode_poke hl ha hne x) hi
  rw [hcur]
  exact slot_congr fun i hi => update_of_ne (h.ne_indirect ha hp i hi) ..

include hl ha hne h hp in
theorem Busy.poke : Busy sb (s.poke a x) ip := by
  have hd := h.dinode_poke hl ha hne x
  refine h.of_owned (Kept.of_itable ip (s.poke_itable a x)).toSteady h.fits h.type hd ?_
  refine Owned.congr_inodes ?_ fun i hi => current_congr (s.poke_itable a x) hd hi
  exact h.owned.store hl (.inr (h.slot_isData ha hne).1) (h.ne_indirect ha hp) x

end Poke

/-- What a write through `ip` leaves alone: other files, and all addresses that exist. -/
structure Wrote (sb : Superblock) (ip : Fin NINODE) (s t : State) : Prop where
  kept : Kept ip s t
  maps : ∀ σ, slots sb s ip σ ≠ 0 → slots sb t ip σ = slots sb s ip σ
  others : ∀ i p, i ≠ (s.itable ip).inum → slots sb s ip (i,p) ≠ 0 →
    t.view (slots sb s ip (i,p)) = s.view (slots sb s ip (i,p))
  dinodes : ∀ i, sb.IsInum i → dinode sb t.view i = dinode sb s.view i

theorem Wrote.refl (sb : Superblock) (ip : Fin NINODE) (s : State) : Wrote sb ip s s :=
  ⟨.of_itable ip rfl,fun _ _ => rfl,fun _ _ _ _ => rfl,fun _ _ => rfl⟩

theorem Wrote.trans (h : Wrote sb ip s t) (h' : Wrote sb ip t u) : Wrote sb ip s u where
  kept := h.kept.trans h'.kept
  maps σ hσ := by
    have hσt := h.maps σ hσ
    rw [h'.maps σ (hσt ▸ hσ),hσt]
  others i p hi hσ := by
    have hσt := h.maps _ hσ
    have h2 := h'.others i p (by rwa [h.kept.inum]) (hσt ▸ hσ)
    rw [hσt] at h2
    rw [h2,h.others i p hi hσ]
  dinodes i hi := (h'.dinodes i hi).trans (h.dinodes i hi)

theorem Grown.wrote (h : Grown sb ip s t) : Wrote sb ip s t where
  kept := h.kept
  maps := h.maps
  others i p hi hσ := h.data (i,p) hσ fun heq => hi (congrArg Prod.fst heq)
  dinodes := h.dinodes

theorem Busy.wrote_poke {a p : ℕ} (hl : sb.Layout) (h : Busy sb s ip)
    (ha : slots sb s ip ((s.itable ip).inum,p) = a) (hne : a ≠ 0) (hp : p ≠ NDIRECT) (x : Block) :
    Wrote sb ip s (s.poke a x) where
  kept := .of_itable ip rfl
  maps σ _ := by rw [h.slots_poke hl ha hne hp]
  others i q hi hσ := by
    refine update_of_ne (fun heq => hi ?_) ..
    exact congrArg Prod.fst (h.owned.held.accounts.inj (heq.trans ha.symm) hσ)
  dinodes := h.dinode_poke hl ha hne x

/-- Every block with a byte below `o` has an address. -/
def Covered (sb : Superblock) (s : State) (ip : Fin NINODE) (o : ℕ) : Prop :=
  ∀ k, k*BSIZE < o → slots sb s ip ((s.itable ip).inum,place k) ≠ 0

/-- The block map of `ip` has an address for the next chunk, and the chunk has been stored. -/
structure Round (sb : Superblock) (ip : Fin NINODE) (s : State) (a off : ℕ) (xs : List UInt8)
    (t : State) : Prop where
  busy : Busy sb t ip
  wrote : Wrote sb ip s t
  addr : slots sb t ip ((s.itable ip).inum,place (off/BSIZE)) = a
  ne : a ≠ 0
  old : ∀ k ≠ off/BSIZE, slots sb s ip ((s.itable ip).inum,place k) ≠ 0 →
    t.view (slots sb s ip ((s.itable ip).inum,place k)) =
      s.view (slots sb s ip ((s.itable ip).inum,place k))
  block : ∃ y : Block, t.view a = y.splice (off % BSIZE) xs ∧
    (slots sb s ip ((s.itable ip).inum,place (off/BSIZE)) ≠ 0 → y = s.view a)
  room : ∀ P, bmapPlaces (off/BSIZE) ⊆ P → Room sb s ip P → Room sb t ip P
  charged : Charged sb ip (bmapPlaces (off/BSIZE)) s t

theorem place_mem_bmapPlaces (bn : ℕ) : place bn ∈ bmapPlaces bn := by
  unfold place bmapPlaces
  split <;> simp

theorem Busy.room_poke {a p : ℕ} (hl : sb.Layout) (h : Busy sb s ip)
    (ha : slots sb s ip ((s.itable ip).inum,p) = a) (hne : a ≠ 0) (hp : p ≠ NDIRECT) (x : Block)
    {P : Finset ℕ} (hr : Room sb s ip P) : Room sb (s.poke a x) ip P := by
  have hoff : OffBitmap sb a := .inr (h.slot_isData ha hne).1
  have hfree : freeBlocks sb (s.poke a x).view = freeBlocks sb s.view := by
    ext c
    rw [mem_freeBlocks,mem_freeBlocks]
    refine and_congr_right fun hc => ?_
    rw [State.poke,inUse_update_of_ne x (hoff.ne_bblock hl hc.2)]
  rw [Room,wanting,h.slots_poke hl ha hne hp,hfree]
  exact hr

theorem Placed.round {a off : ℕ} (hl : sb.Layout)
    (h : Placed sb ip s (bmapPlaces (off/BSIZE)) (place (off/BSIZE)) a t) (hne : a ≠ 0) (xs : List UInt8) :
    Round sb ip s a off xs (t.poke a ((t.view a).splice (off % BSIZE) xs)) := by
  have hinum := h.grown.kept.inum
  have hat : slots sb t ip ((t.itable ip).inum,place (off/BSIZE)) = a := hinum ▸ h.addr hne
  have hp := place_ne_ndirect (off/BSIZE)
  refine ⟨h.busy.poke hl hat hne hp _,h.grown.wrote.trans (h.busy.wrote_poke hl hat hne hp _),
    ?_,hne,fun k hk hσ => ?_,⟨t.view a,update_self ..,fun hσ => ?_⟩,fun P hP hr => ?_,?_⟩
  · rw [h.busy.slots_poke hl hat hne hp]
    exact h.addr hne
  · have hd := h.grown.data _ hσ (by simp [place_ne_ndirect])
    rw [← hd]
    refine update_of_ne (fun heq => hk (place_inj ?_)) ..
    have hσt : slots sb t ip ((s.itable ip).inum,place k) ≠ 0 := by
      rw [h.grown.maps _ hσ]
      exact hσ
    rw [← h.grown.maps _ hσ,← h.addr hne] at heq
    exact congrArg Prod.snd (h.busy.owned.held.accounts.inj heq hσt)
  · have hd := h.grown.data _ hσ (by simp [place_ne_ndirect])
    rwa [← h.grown.maps _ hσ,h.addr hne] at hd
  · exact h.busy.room_poke hl hat hne hp _ (h.room P hP hr).2
  · obtain ⟨l,hl',hall⟩ := h.charged
    refine ⟨l,hl',?_⟩
    rwa [h.busy.slots_poke hl hat hne hp]

theorem Round.covered {a off m : ℕ} {xs : List UInt8} (h : Round sb ip s a off xs t)
    (hc : Covered sb s ip off) (hm : off % BSIZE+m ≤ BSIZE) : Covered sb t ip (off+m) := by
  intro k hk
  rw [h.wrote.kept.inum]
  by_cases hko : k*BSIZE < off
  · rw [h.wrote.maps _ (hc k hko)]
    exact hc k hko
  · have hkq : k = off/BSIZE := by
      simp only [BSIZE] at *
      omega
    rw [hkq,h.addr]
    exact h.ne

theorem Busy.congr (h : Busy sb s ip) (hv : t.view = s.view) (hit : t.itable = s.itable) :
    Busy sb t ip := by
  have hst : Steady ip s t := (Kept.of_itable ip hit).toSteady
  refine h.of_owned hst (hit ▸ h.fits) (hit ▸ h.type) (fun i _ => by rw [hv]) ?_
  have hcur : current sb t ip = current sb s ip := by rw [current,hv,hit,current]
  rw [hcur,hv]
  exact h.owned

theorem Round.log {a off : ℕ} {xs : List UInt8} (h : Round sb ip s a off xs t) :
    Round sb ip s a off xs (t.log a) where
  busy := h.busy.congr rfl rfl
  wrote := ⟨h.wrote.kept.trans (.of_itable (t := t.log a) ip rfl),h.wrote.maps,h.wrote.others,
    h.wrote.dinodes⟩
  addr := h.addr
  ne := h.ne
  old := h.old
  block := h.block
  room := h.room
  charged := by
    obtain ⟨l,hl,hall⟩ := h.charged
    refine ⟨l++[a],?_,fun b hb => ?_⟩
    · rw [State.log,hl,append_assoc]
    · rcases mem_append.mp hb with hb | hb
      · exact hall b hb
      · exact ⟨_,place_mem_bmapPlaces _,a,h.ne,h.addr,.inl (mem_singleton.mp hb)⟩

/-- The next round of `writeLoop`: the disk is full, the source fails, or the loop goes on. -/
theorem writeLoop_round (hl : sb.Layout) (hs : Busy sb s ip)
    (copyin : ℕ → ℕ → List UInt8 × Bool) {n tot off : ℕ} (fuel : ℕ) (htot : tot < n)
    (hoff : off < MAXFILE*BSIZE) {Q : ℕ × ℕ → State → Prop}
    (hfull : ∀ t, Placed sb ip s (bmapPlaces (off/BSIZE)) (place (off/BSIZE)) 0 t → Q (tot,off) t)
    (hfail : ∀ a t, (copyin tot (chunk n tot off)).2 = false →
      Round sb ip s a off (copyin tot (chunk n tot off)).1 t → Q (tot,off) t)
    (hnext : ∀ a t, (copyin tot (chunk n tot off)).2 = true →
      Round sb ip s a off (copyin tot (chunk n tot off)).1 t →
      Ends (writeLoop sb ip copyin n fuel (tot+chunk n tot off) (off+chunk n tot off)) t Q) :
    Ends (writeLoop sb ip copyin n (fuel+1) tot off) s Q := by
  have hbn : off/BSIZE < MAXFILE := Nat.div_lt_of_lt_mul (by rwa [Nat.mul_comm])
  rw [writeLoop,if_pos htot]
  refine (bmap_spec hl hs hbn).bind fun a t ht => ?_
  by_cases ha : a = 0
  · subst ha
    exact ends_pure (hfull t ht)
  · rw [if_neg ha]
    refine ends_bind_of_run rfl (ends_bind_of_run (bstore_run ..) ?_)
    have hround := ht.round hl ha (copyin tot (chunk n tot off)).1
    split
    · rename_i hok
      exact ends_bind_of_run (logWrite_run ..) (hnext a _ hok hround.log)
    · rename_i hno
      exact ends_pure (hfail a _ (by simpa using hno) hround)

theorem Covered.wrote {o : ℕ} (hc : Covered sb s ip o) (h : Wrote sb ip s t) :
    Covered sb t ip o := by
  intro k hk
  rw [h.kept.inum,h.maps _ (hc k hk)]
  exact hc k hk

/-- `P` has all the places that the blocks of `n` bytes from `off` on need. -/
def Spans (P : Finset ℕ) (off n : ℕ) : Prop :=
  ∀ k, off/BSIZE ≤ k → k*BSIZE < off + n → bmapPlaces k ⊆ P

theorem Spans.self {P : Finset ℕ} {off n : ℕ} (h : Spans P off n) (hn : 0 < n) :
    bmapPlaces (off/BSIZE) ⊆ P := h _ le_rfl (by simp only [BSIZE]; omega)

theorem Spans.tail {P : Finset ℕ} {off n m : ℕ} (h : Spans P off n) (hm : m ≤ n) :
    Spans P (off+m) (n-m) := fun k hk hlt =>
  h k (le_trans (Nat.div_le_div_right (Nat.le_add_right ..)) hk) (by omega)

/-- However the loop of `writei` ends that has begun with `tot` bytes written, the inode is
consistent and covers what has been written. -/
structure Swept (sb : Superblock) (ip : Fin NINODE) (n tot off : ℕ) (s : State) (r : ℕ × ℕ)
    (t : State) : Prop where
  busy : Busy sb t ip
  wrote : Wrote sb ip s t
  le : tot ≤ r.1 ∧ r.1 ≤ n
  off_eq : r.2 = off + (r.1 - tot)
  covered : Covered sb t ip r.2
  charged : ∀ P, Spans P off (n - tot) → Charged sb ip P s t

section Swept

variable {n tot off : ℕ}

theorem swept_refl (hs : Busy sb s ip) (hcov : Covered sb s ip off) (htot : tot ≤ n) :
    Swept sb ip n tot off s (tot,off) s :=
  ⟨hs,.refl sb ip s,⟨le_rfl,htot⟩,by simp,hcov,fun P _ => .refl sb ip P s⟩

/-- The loop ends in its first round. -/
theorem swept_stop (ht : Busy sb t ip) (hw : Wrote sb ip s t)
    (hc : Charged sb ip (bmapPlaces (off/BSIZE)) s t) (hcov : Covered sb s ip off) (htot : tot < n) :
    Swept sb ip n tot off s (tot,off) t :=
  ⟨ht,hw,⟨le_rfl,htot.le⟩,by simp,hcov.wrote hw,fun _ hP => hc.mono (hP.self (by omega))⟩

theorem Round.swept {a : ℕ} {xs : List UInt8} {r : ℕ × ℕ} {v : State}
    (hu : Round sb ip s a off xs u) (htot : tot < n)
    (h : Swept sb ip n (tot+chunk n tot off) (off+chunk n tot off) u r v) :
    Swept sb ip n tot off s r v := by
  have hle := chunk_le n tot off
  obtain ⟨h1,h2⟩ := h.le
  refine ⟨h.busy,hu.wrote.trans h.wrote,⟨by omega,h2⟩,by rw [h.off_eq]; omega,h.covered,
    fun P hP => ?_⟩
  refine (hu.charged.mono (hP.self (by omega))).trans (h.charged P ?_) hu.wrote.kept.inum
    hu.wrote.maps h.wrote.maps
  rw [← Nat.sub_sub]
  exact hP.tail hle

theorem writeLoop_keeps (hl : sb.Layout) (copyin : ℕ → ℕ → List UInt8 × Bool) (fuel tot off : ℕ)
    (hs : Busy sb s ip) (hcov : Covered sb s ip off) (htot : tot ≤ n)
    (hend : off+(n-tot) ≤ MAXFILE*BSIZE) :
    Ends (writeLoop sb ip copyin n fuel tot off) s (Swept sb ip n tot off s) := by
  induction fuel generalizing s tot off with
  | zero => exact ends_pure (swept_refl hs hcov htot)
  | succ fuel ih =>
    by_cases hlt : tot < n
    · have hle := chunk_le n tot off
      refine writeLoop_round hl hs copyin fuel hlt (by omega) (fun t ht => ?_)
        (fun a t _ ht => ?_) fun a u _ hu => ?_
      · exact swept_stop ht.busy ht.grown.wrote ht.charged hcov hlt
      · exact swept_stop ht.busy ht.wrote ht.charged hcov hlt
      · exact (ih (tot+chunk n tot off) (off+chunk n tot off) hu.busy
          (hu.covered hcov (chunk_fits n tot off)) (by omega) (by omega)).mono
          fun r v hv => hu.swept hlt hv
    · rw [writeLoop,if_neg hlt]
      exact ends_pure (swept_refl hs hcov htot)

end Swept

/-- `if(off > ip->size) ip->size = off`. -/
def Dinode.extend (o : ℕ) (d : Dinode) : Dinode :=
  { d with size := if d.size < o then o else d.size }

section Edit

variable {g : Dinode → Dinode} (ht : ∀ d, (g d).type = d.type) (ha : ∀ d k, (g d).addr k = d.addr k)
include ht ha

theorem slots_edited : slots sb (s.edited ip g) ip = slots sb s ip := by
  ext ⟨i,p⟩
  rw [slots,current_edited,slots,slot,slot,State.edited_view]
  by_cases hi : i = (s.itable ip).inum
  · subst hi
    simp only [update_self,ht,addrAt,ha]
  · simp only [update_of_ne hi]

/-- Fields of a locked inode other than its type and addresses may change freely. -/
theorem Busy.edit (hs : Busy sb s ip) (hf : (g (s.itable ip).d).Fits)
    (hsz : Sized s.view (g (s.itable ip).d)) : Busy sb (s.edited ip g) ip := by
  refine hs.of_owned (steady_edited s ip _) ?_ ?_ (fun _ _ => rfl) ⟨?_,fun i hi hti => ?_⟩
  · rw [State.edited_self]
    exact hf
  · rw [State.edited_self,ht]
    exact hs.type
  · change Held sb s.view (slots sb (s.edited ip g) ip)
    rw [slots_edited ht ha]
    exact hs.owned.held
  · rw [current_edited] at hti ⊢
    by_cases hii : i = (s.itable ip).inum
    · subst hii
      rw [update_self,current_self]
      exact hsz
    · rw [update_of_ne hii] at hti ⊢
      exact hs.owned.sized i hi hti

end Edit

theorem Busy.sized (hs : Busy sb s ip) : Sized s.view (s.itable ip).d := by
  have h := hs.owned.sized _ hs.isInum hs.current_type
  rwa [current_self] at h

theorem addrAt_extend (view : ℕ → Block) (o : ℕ) (d : Dinode) (p : ℕ) :
    addrAt view (d.extend o) p = addrAt view d p := rfl

theorem Busy.extend {o : ℕ} (hs : Busy sb s ip) (hc : Covered sb s ip o) (ho : o ≤ MAXFILE*BSIZE) :
    Busy sb (s.edited ip (Dinode.extend o)) ip := by
  have hf := hs.fits
  have hmax : ((s.itable ip).d.extend o).size ≤ MAXFILE*BSIZE := by
    unfold Dinode.extend
    dsimp only
    split
    · exact ho
    · exact hs.sized.le
  refine hs.edit (fun _ => rfl) (fun _ _ => rfl) ?_ ⟨hmax,fun k hk => ?_⟩
  · exact ⟨hf.type,hf.major,hf.minor,hf.nlink,lt_of_le_of_lt hmax (by norm_num),hf.addrs⟩
  · rw [addrAt_extend]
    by_cases hko : k*BSIZE < o
    · rw [← hs.slots_self]
      exact hc k hko
    · refine hs.sized.mapped k ?_
      simp only [Dinode.extend,BSIZE] at *
      split at hk <;> omega

/-- The end of `writei`: the size is raised to `o` and the inode written back. -/
def State.finish (sb : Superblock) (s : State) (ip : Fin NINODE) (o : ℕ) : State :=
  (s.edited ip (Dinode.extend o)).updated sb ip

/-- A file has no holes. -/
theorem Busy.covered {off : ℕ} (hs : Busy sb s ip) (hoff : off ≤ (s.itable ip).d.size) :
    Covered sb s ip off := fun k hk => by
  rw [hs.slots_self]
  refine hs.sized.mapped k ?_
  simp only [BSIZE] at *
  omega

theorem writei_refuses (copyin : ℕ → ℕ → List UInt8 × Bool) {off n : ℕ} (ho : off < 2^32)
    (hn : n < 2^32) (hc : ¬(off ≤ (s.itable ip).d.size ∧ off+n ≤ MAXFILE*BSIZE)) :
    (writei sb ip copyin off n).run s = .ok (-1,s) := by
  unfold writei
  refine (run_bind_of_run (rfl : (inode ip).run s = .ok (s.itable ip,s))).trans ?_
  have hbig : MAXFILE*BSIZE < 2^32 := by norm_num
  by_cases hsz : (s.itable ip).d.size < off ∨ (off+n) % 2^32 < off
  · rw [if_pos hsz]
    rfl
  · rw [if_neg hsz,if_pos (by omega)]
    rfl

/-- `writei` of a range it accepts. -/
theorem writei_of_loop {copyin : ℕ → ℕ → List UInt8 × Bool} {off n : ℕ}
    {Q : ℕ × ℕ → State → Prop} (hoff : off ≤ (s.itable ip).d.size) (hend : off+n ≤ MAXFILE*BSIZE)
    (hloop : Ends (writeLoop sb ip copyin n n 0 off) s Q) :
    Ends (writei sb ip copyin off n) s fun z t => ∃ r u, Q r u ∧ z = r.1 ∧ t = u.finish sb ip r.2 := by
  have hbig : MAXFILE*BSIZE < 2^32 := by norm_num
  have hmod : (off+n) % 2^32 = off+n := by omega
  unfold writei
  refine ends_bind_of_run rfl ?_
  rw [if_neg (by omega),if_neg (by omega)]
  refine hloop.bind fun r u hu => ?_
  refine ends_bind_of_run (setDinode_run u ip _) (ends_bind_of_run (iupdate_run ..) ?_)
  exact ends_pure ⟨r,u,hu,rfl,rfl⟩

theorem Swept.finish {n off : ℕ} {r : ℕ × ℕ} (hl : sb.Layout) (h : Swept sb ip n 0 off s r u)
    (hend : off+n ≤ MAXFILE*BSIZE) : WellFormed sb (u.finish sb ip r.2) := by
  refine (h.busy.extend h.covered ?_).updated hl
  have hle := h.le.2
  rw [h.off_eq]
  omega

theorem writei_keeps (hl : sb.Layout) (h : WellFormed sb s) (href : 0 < (s.itable ip).ref)
    (hv : (s.itable ip).valid = true) (copyin : ℕ → ℕ → List UInt8 × Bool) {off n : ℕ}
    (ho : off < 2^32) (hn : n < 2^32) :
    Ends (writei sb ip copyin off n) s fun _ t => WellFormed sb t := by
  have hb := h.busy href hv
  by_cases hc : off ≤ (s.itable ip).d.size ∧ off+n ≤ MAXFILE*BSIZE
  · refine (writei_of_loop hc.1 hc.2 (writeLoop_keeps hl copyin n 0 off hb (hb.covered hc.1)
      (Nat.zero_le n) hc.2)).mono ?_
    rintro z t ⟨r,u,hu,-,rfl⟩
    exact hu.finish hl hc.2
  · exact ⟨-1,s,writei_refuses copyin ho hn hc,h⟩

end Fs
end Xv6
