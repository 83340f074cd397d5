import Xv6.Names.Link

/-! `create` as a change of the name space: a new inode with a name, or nothing at all. -/
namespace Xv6
namespace Names

open Function
open Fs (NINODE Panic)
open Relation (ReflTransGen)

variable {n : ℕ} {s : Sys Store} {K H : Multiset (Fin NINODE)} {L : Fin NINODE → Bool}
  {ip dp : Fin NINODE} {E : Panic → Prop} {A B U : (ℕ → Node) → ℕ → Prop}
  {D : ℕ → Prop} {p : Fin NPROC} {name : Str} {d i type : ℕ} {major minor : UInt16}

section Alloc

variable {x t : Sys Store}

/-- The state after `ialloc`: inode `i` is taken, and `ip` is a new reference to it. -/
structure Allocated (n : ℕ) (x : Sys Store) (K H : Multiset (Fin NINODE)) (type i : ℕ)
    (ip : Fin NINODE) (t : Sys Store) : Prop where
  inum : IsInum n i
  free : (x.fs.node i).type = 0
  unused : (x.fs.itable ip).ref = 0
  ps : t.ps = x.ps
  itable : t.fs.itable = update x.fs.itable ip ⟨i,1,false,false⟩
  node : t.fs.node = update x.fs.node i ⟨type % 2^16,0,0,0,[]⟩

theorem Stable.unlocked_of_unused {s : Store} (h : Stable n s K H L) (hz : (s.itable ip).ref = 0) :
    ip ∉ K+H ∧ (s.itable ip).locked = false := by
  have hout : ip ∉ K+H := fun hin => by
    have := h.ref_pos.mpr hin
    omega
  refine ⟨hout,?_⟩
  rw [h.lock]
  by_contra hc
  exact hout (h.held ip (by simpa using hc)).1

/-- No referenced entry is for a free inode. -/
def AllLive (x : Sys Store) (R : Multiset (Fin NINODE)) : Prop :=
  ∀ jp ∈ R, (x.fs.nodeOf jp).type ≠ 0

theorem ialloc_does (h : Stable n x.fs K H L) (hlive : AllLive x (K+H))
    (hroom : Room E (K+H) 1) :
    Does n (ialloc type) x (fun r t => (r = none ∧ t = x) ∨
      ∃ ip i, r = some ip ∧ Allocated n x K H type i ip t) E := by
  cases hf : Store.freeInum n x.fs with
  | none =>
    exact does_inode (c := .ialloc type) (Store.ialloc_none hf) (.inl ⟨rfl,rfl⟩)
  | some i =>
    have hfree := List.find?_some hf
    have hz : (x.fs.node i).type = 0 := of_decide_eq_true hfree
    have hi : IsInum n i := by
      have hmem := List.mem_of_find?_eq_some hf
      rw [List.mem_range'_1] at hmem
      exact ⟨hmem.1,by omega⟩
    have hnone : (x.fs.setNode i { Node.free with type := type % 2^16 }).findEntry i = none := by
      refine List.find?_eq_none.mpr fun jp _ hc => ?_
      obtain ⟨hpos,heq⟩ := of_decide_eq_true hc
      refine hlive jp (h.ref_pos.mp hpos) ?_
      rw [Store.nodeOf,show (x.fs.itable jp).inum = i from heq,hz]
    cases he : (x.fs.setNode i { Node.free with type := type % 2^16 }).emptyEntry with
    | none =>
      exact stops_inode (c := .ialloc type) (Store.ialloc_full hf (Store.iget_full hnone he))
        (h.full hroom he)
    | some ip =>
      have hempty := List.find?_some he
      have hunused : (x.fs.itable ip).ref = 0 := of_decide_eq_true hempty
      refine does_inode (c := .ialloc type) (Store.ialloc_some hf (Store.iget_new hnone he))
        (.inr ⟨ip,i,rfl,hi,hz,hunused,rfl,?_,rfl⟩)
      exact congrArg (fun l => update x.fs.itable ip ⟨i,1,l,false⟩)
        (h.unlocked_of_unused hunused).2

/-- Make a free inode that nothing refers to. -/
theorem Stable.make {y : Node} {s : Store} (h : Stable n s K H L) (hfree : (s.node i).type = 0)
    (hlive : ∀ jp ∈ K+H, (s.nodeOf jp).type ≠ 0) (hy : y.nlink ≠ 0) :
    Stable n (s.setNode i y) K H L := by
  have hnode {jp : Fin NINODE} (hj : jp ∈ K+H) : (s.setNode i y).nodeOf jp = s.nodeOf jp :=
    Store.setNode_other fun heq => hlive jp hj (by
      rw [Store.nodeOf,show (s.itable jp).inum = i from heq,hfree])
  refine ⟨h.ref,h.inum,h.unique,fun jp hj => ?_,fun jp hj hv => ?_,h.lock,h.held,fun j hj hz => ?_⟩
  · rw [hnode (Multiset.mem_add.mpr (.inl hj))]
    exact h.alive jp hj
  · rw [hnode hj]
    exact h.valid jp hj hv
  · have hji : j ≠ i := by
      rintro rfl
      rw [Store.setNode_self] at hz
      exact hy hz
    rw [Live,Store.setNode_other hji] at hj
    rw [Store.setNode_other hji] at hz
    exact h.firm j hj hz

/-- Inode `i` has been made as `y`, is referenced by `ip` and locked. -/
structure Made (n : ℕ) (x : Sys Store) (K H : Multiset (Fin NINODE)) (L : Fin NINODE → Bool)
    (i : ℕ) (ip : Fin NINODE) (y : Node) (v : Sys Store) : Prop where
  inum : IsInum n i
  free : (x.fs.node i).type = 0
  unused : ip ∉ K + H
  stable : Stable n v.fs K (ip ::ₘ H) (update L ip true)
  carries : Carries (K + H) x v
  inum_ip : (v.fs.itable ip).inum = i
  node : v.fs.node = update x.fs.node i y

theorem Made.nodeOf {y : Node} {v : Sys Store} (m : Made n x K H L i ip y v) :
    v.fs.nodeOf ip = y := by
  rw [Store.nodeOf,m.inum_ip,m.node,update_self]

/-- The first lines of `create` behind `ialloc`. -/
theorem Allocated.made (a : Allocated n x K H type i ip t) (h : Stable n x.fs K H L)
    (major minor : UInt16) (E : Panic → Prop) (hlive : AllLive x (K+H)) (ht : type % 2^16 ≠ 0) :
    Does n (ilock ip) t (fun _ u => Does n (iupdate ip major minor 1) u (fun _ v =>
      Made n x K H L i ip ⟨type % 2^16,major,minor,1,[]⟩ v) E) E := by
  obtain ⟨hi,hfree,hunused,hps,hit,hnode⟩ := a
  obtain ⟨hout,hl⟩ := h.unlocked_of_unused hunused
  have hnew : ∀ jp ∈ K+H, (x.fs.itable jp).inum ≠ i := fun jp hj heq =>
    hlive jp hj (by rw [Store.nodeOf,heq,hfree])
  -- The table is the one a reference to the finished inode would give.
  have hmade := (h.make (y := ⟨type % 2^16,major,minor,1,[]⟩) hfree hlive one_ne_zero).fresh
    (show IsInum n i from hi) (show ((x.fs.setNode i _).itable ip).ref = 0 from hunused) hnew
  have hlocked := hmade.put (x := ⟨i,1,true,true⟩)
    (show i = _ by rw [Store.put_self])
    (by rw [count_self,Multiset.count_eq_zero.mpr hout]) (fun _ _ => rfl) id
    (fun _ => by rw [Store.nodeOf,Store.put_self,Store.put_node,Store.setNode_self]; exact ht) rfl
    (fun _ => ⟨mem_self K H ip,rfl⟩) fun _ _ _ => ⟨mem_self K H ip,rfl⟩
  have hti : t.fs.itable ip = ⟨i,1,false,false⟩ := by rw [hit,update_self]
  have htn : t.fs.nodeOf ip = ⟨type % 2^16,0,0,0,[]⟩ := by
    rw [Store.nodeOf,hti,hnode,update_self]
  refine does_inode (c := .ilock ip) (Store.ilock_ok (by rw [hti]; exact one_pos) (by rw [hti])
    (by rw [htn]; exact fun hc => ht hc.2)) ?_
  rw [hti]
  refine does_inode (c := .iupdate ip major minor 1) (if_pos ?_) ?_
  · rw [Store.Held,Store.put_self]
    exact ⟨one_pos,rfl,rfl⟩
  · have hitable : update t.fs.itable ip ⟨i,1,true,true⟩ =
        update x.fs.itable ip ⟨i,1,true,true⟩ := by rw [hit,update_idem]
    have hsaved : update t.fs.node
        ((t.fs.put ip ⟨i,1,true,true⟩).itable ip).inum
        { (t.fs.put ip ⟨i,1,true,true⟩).nodeOf ip with major := major, minor := minor, nlink := 1 } =
        update x.fs.node i ⟨type % 2^16,major,minor,1,[]⟩ := by
      rw [Store.nodeOf,Store.put_self,Store.put_node,hnode,update_idem,update_self]
    refine ⟨hi,hfree,hout,Stable.congr (s := ⟨_,x.ps⟩) hlocked ?_ hsaved,⟨hps,fun jp hj => ?_⟩,
      congrArg Entry.inum (Store.put_self ..),hsaved⟩
    · exact hitable.trans (update_idem ..).symm
    · exact congrArg Entry.inum ((congrFun hitable jp).trans
        (update_of_ne (fun heq : jp = ip => hout (heq ▸ hj)) ..))

theorem Made.wrote {y z : Node} {v w : Sys Store} (m : Made n x K H L i ip y v)
    (hw : Wrote ip z v w) (hz : z.type ≠ 0) : Made n x K H L i ip z w where
  inum := m.inum
  free := m.free
  unused := m.unused
  stable := m.stable.wrote (update_self ..) hz hw
  carries := m.carries.trans (hw.carries _)
  inum_ip := by rw [hw.itable,m.inum_ip]
  node := by rw [hw.node,m.inum_ip,m.node,update_idem]

theorem Made.same {y : Node} {v w : Sys Store} (m : Made n x K H L i ip y v)
    (hw : Same (K+ip ::ₘ H) v w)
    (hst : Stable n w.fs K (ip ::ₘ H) (update L ip true)) : Made n x K H L i ip y w where
  inum := m.inum
  free := m.free
  unused := m.unused
  stable := hst
  carries := m.carries.trans (hw.toCarries.mono (subset_more K H ip))
  inum_ip := (hw.inum ip (mem_self K H ip)).trans m.inum_ip
  node := hw.node.trans m.node

end Alloc

section Create

variable {x v : Sys Store} {y : Node}

/-- `dp` is the locked directory `d`, into which `name` is to be entered. -/
structure Ready (n : ℕ) (s : Sys Store) (K : Multiset (Fin NINODE)) (dp : Fin NINODE) (d : ℕ)
    (name : Str) (x : Sys Store) : Prop where
  stable : Stable n x.fs K (dp ::ₘ 0) (update unlocked dp true)
  same : Same (K + 0) s x
  inum_dp : (x.fs.itable dp).inum = d
  dir : IsDir n s.fs.node d
  vacant : Vacant (s.fs.node d) name

theorem Ready.allLive (h : Ready n s K dp d name x) : AllLive x (K+dp ::ₘ 0) := by
  intro jp hj
  by_cases hjd : jp = dp
  · rw [hjd]
    exact h.stable.nodeOf_type (update_self ..)
  · have hin := mem_fewer hjd hj
    rw [add_zero] at hin
    exact h.stable.alive jp hin

/-- The new inode `i` is `y`, and both it and its parent are locked. -/
abbrev Fresh (n : ℕ) (x : Sys Store) (K : Multiset (Fin NINODE)) (dp : Fin NINODE) (i : ℕ)
    (ip : Fin NINODE) (y : Node) (v : Sys Store) : Prop :=
  Made n x K (dp ::ₘ 0) (update unlocked dp true) i ip y v

theorem Ready.ne (h : Ready n s K dp d name x) (m : Fresh n x K dp i ip y v) : d ≠ i ∧ ip ≠ dp := by
  have hdp := mem_self K 0 dp
  constructor
  · rintro rfl
    have := h.dir.live.2
    rw [← h.same.node,m.free] at this
    exact this rfl
  · rintro rfl
    exact m.unused hdp

theorem Ready.inum_dp' (h : Ready n s K dp d name x) (m : Fresh n x K dp i ip y v) :
    (v.fs.itable dp).inum = d := by rw [m.carries.inum dp (mem_self K 0 dp),h.inum_dp]

theorem Ready.nodeOf_dp (h : Ready n s K dp d name x) (m : Fresh n x K dp i ip y v) :
    v.fs.nodeOf dp = s.fs.node d := by
  rw [Store.nodeOf,h.inum_dp' m,m.node,h.same.node,update_of_ne (h.ne m).1]

theorem createDots_does (h : Ready n s K dp d name x) (e : Env n s K D E p)
    (m : Fresh n x K dp i ip y v) (hy : y.type = type) (hempty : y.entries = []) (ht : type ≠ 0) :
    Does n (createDots dp ip type) v (fun r w => ∃ z, Fresh n x K dp i ip z w ∧ z.type = type ∧
      z.nlink = y.nlink ∧ (r = true → type = T_DIR → z.entries = [⟨i,dot⟩,⟨d,dotdot⟩])) E := by
  have hi0 : i ≠ 0 := by have := m.inum.1; omega
  have hi16 : i % 2^16 = i := Nat.mod_eq_of_lt (m.inum.2.trans_le e.small)
  have hd16 : d % 2^16 = d := Nat.mod_eq_of_lt (h.dir.1.2.trans_le e.small)
  have hlip := twoLocks_ip dp ip
  unfold createDots
  split
  · rename_i htd
    refine (m.stable.stat hlip).bind fun st v' hv' => ?_
    obtain ⟨rfl,rfl⟩ := hv'
    rw [show (statOf v' ip).inum = i from m.inum_ip]
    refine (dirlink_does m.stable hlip (by rw [m.nodeOf,hy,htd]) ((e.room.more dp).more ip) fun a ha => by
      rw [m.nodeOf,hempty] at ha
      cases ha).bind fun r w hw => ?_
    obtain ⟨hwst,⟨rfl,hsame⟩ | ⟨rfl,-,k,hslot,hwrote⟩⟩ := hw
    · exact does_pure ⟨y,m.same hsame hwst,hy,rfl,fun hf => absurd hf Bool.false_ne_true⟩
    · rw [m.nodeOf] at hslot hwrote
      have hk : k = 0 := by
        rcases hslot with ⟨a,ha,-⟩ | ⟨hk,-⟩
        · simp [hempty] at ha
        · simpa [hempty] using hk
      subst hk
      have hz : y.enter 0 ⟨i % 2^16,dot.take DIRSIZ⟩ = { y with entries := [⟨i,dot⟩] } := by
        rw [Node.enter,hempty,hi16]
        rfl
      rw [hz] at hwrote
      have mw := m.wrote hwrote (by rw [← hy] at ht; exact ht)
      have hwd := h.inum_dp' mw
      rw [if_pos rfl]
      refine (mw.stable.stat (twoLocks_dp dp ip)).bind fun st w' hw' => ?_
      obtain ⟨rfl,rfl⟩ := hw'
      rw [show (statOf w' dp).inum = d from hwd]
      refine (dirlink_does mw.stable hlip (by rw [mw.nodeOf,← htd,← hy]) ((e.room.more dp).more ip)
        fun a ha _ => by
          rw [mw.nodeOf] at ha
          rw [List.mem_singleton.mp ha]
          exact m.inum).mono fun r u hu => ?_
      obtain ⟨hust,⟨rfl,hsame⟩ | ⟨rfl,-,k,hslot,hwrote⟩⟩ := hu
      · exact ⟨_,mw.same hsame hust,hy,rfl,fun hf => absurd hf Bool.false_ne_true⟩
      · rw [mw.nodeOf] at hslot hwrote
        have hk : k = 1 := by
          rcases hslot with ⟨a,ha,haz⟩ | ⟨hk,-⟩
          · cases k with
            | zero =>
              obtain rfl : ⟨i,dot⟩ = a := by simpa using ha
              exact absurd haz hi0
            | succ k => simp at ha
          · exact hk
        subst hk
        refine ⟨_,mw.wrote hwrote (by rw [← hy] at ht; exact ht),hy,rfl,fun _ _ => ?_⟩
        rw [hd16]
        rfl
  · rename_i htd
    exact does_pure ⟨y,m,hy,rfl,fun _ hf => absurd hf htd⟩

/-- The references that remain cover the inodes without links, when only `i` and the entries
and links of `d` have changed and no link was lost. -/
theorem Ready.firm (h : Ready n s K dp d name x) (e : Env n s K D E p) {w : Sys Store}
    (hcar : Carries (K+0) s w)
    (hi : (w.fs.node i).type = 0 ∨ (w.fs.node i).nlink ≠ 0)
    (hd : (w.fs.node d).nlink = 0 → (s.fs.node d).nlink = 0)
    (hother : ∀ j, j ≠ i → j ≠ d → w.fs.node j = s.fs.node j) : Firm n w (K+0) := by
  intro j hj hz
  have hji : j ≠ i := by
    rintro rfl
    rcases hi with ht | hl
    · exact hj.2 ht
    · exact hl hz
  have hold : Live n s.fs.node j ∧ (s.fs.node j).nlink = 0 := by
    by_cases hjd : j = d
    · rw [hjd] at hz ⊢
      exact ⟨h.dir.live,hd hz⟩
    · rw [Live,hother j hji hjd] at hj
      rw [hother j hji hjd] at hz
      exact ⟨hj,hz⟩
  obtain ⟨jp,hin,heq⟩ := e.stable.firm' j hold.1 hold.2
  exact ⟨jp,hin,by rw [hcar.inum jp hin,heq]⟩

theorem createFail_does (h : Ready n s K dp d name x) (e : Env n s K D E p)
    (m : Fresh n x K dp i ip y v) (hy : y.type ≠ 0) :
    Does n (createFail dp ip) v (fun r t => r = none ∧ Done n A B U K 0 unlocked s t) E := by
  have hlip := twoLocks_ip dp ip
  refine (m.stable.stat hlip).bind fun st v' hv' => ?_
  obtain ⟨rfl,rfl⟩ := hv'
  refine (m.stable.iupdate hlip).bind fun _ w hw => ?_
  have mw := m.wrote hw (by rw [m.nodeOf]; exact hy)
  refine (mw.stable.iunlockput hlip).bind fun _ u hu => ?_
  rw [show update (update (update unlocked dp true) ip true) ip false =
    update unlocked dp true from twoLocks_unlock_ip (h.ne m).2] at hu
  obtain ⟨hust,hucar,hdrop⟩ := hu
  have hxu : Carries (K+dp ::ₘ 0) x u := mw.carries.trans hucar
  have hN : s.fs.node = x.fs.node := h.same.node.symm
  have hunode : u.fs.node = update s.fs.node i .free := by
    rcases hdrop with heq | ⟨-,heq⟩
    · -- no other reference to `i` is left that could keep it
      have hui : u.fs.node i = { v'.fs.nodeOf ip with
          major := (statOf v' ip).major, minor := (statOf v' ip).minor, nlink := 0 % 2^16 } := by
        rw [heq,mw.node,update_self]
      obtain ⟨jp,hj,hji⟩ := hust.firm' i ⟨m.inum,by rw [hui,m.nodeOf]; exact hy⟩ (by rw [hui]; rfl)
      rw [hxu.inum jp hj] at hji
      exact absurd (by rw [Store.nodeOf,hji,m.free]) (h.allLive jp hj)
    · rw [heq,mw.inum_ip,mw.node,update_idem,hN]
  have hsu : Carries (K+0) s u := h.same.toCarries.trans (hxu.mono (subset_more K 0 dp))
  have hfirm : Firm n u (K+0) := h.firm (i := i) e hsu
    (.inl (by rw [hunode,update_self]; rfl))
    (by rw [hunode,update_of_ne (h.ne m).1]; exact id)
    fun j hji _ => by rw [hunode,update_of_ne hji]
  refine (hust.iunlockput_same (update_self ..) hfirm).bind fun _ t ht => ?_
  rw [unlock rfl] at ht
  refine does_pure ⟨rfl,?_,ht.1,(hsu.trans ht.2.toCarries).of_zero⟩
  rw [ht.2.node,hunode]
  exact .single (.free m.inum (.inr (by rw [hN]; exact m.free)))

/-- `create` once the name is entered and the links of `dp` are counted. -/
theorem Ready.finish (h : Ready n s K dp d name x) (e : Env n s K D E p) {w : Sys Store} {v : ℕ}
    {z : Node} {k : ℕ} (hne : d ≠ i) (hip : ip ≠ dp)
    (hst : Stable n w.fs K (ip ::ₘ dp ::ₘ 0) (twoLocks dp ip)) (hcar : Carries (K+0) s w)
    (hnode : w.fs.node = both s.fs.node d (((s.fs.node d).enter k ⟨i,name⟩).relink v) i z)
    (hz : z.nlink = 1) (hv : v = 0 → (s.fs.node d).nlink = 0)
    (hc : Change n A B U s.fs.node
      (both s.fs.node d (((s.fs.node d).enter k ⟨i,name⟩).relink v) i z)) :
    Does n (do iunlockput dp; pure (some ip)) w (fun r t => ∃ jp, r = some jp ∧
      Done n A B U K (jp ::ₘ 0) (update unlocked jp true) s t) E := by
  have hswap : Stable n w.fs K (dp ::ₘ ip ::ₘ 0) (twoLocks dp ip) := by
    rw [Multiset.cons_swap]
    exact hst
  have hfirm : Firm n w (K+ip ::ₘ 0) := by
    refine (h.firm (i := i) e hcar (.inr ?_) (fun hz => ?_) fun j hji hjd => ?_).mono
      (subset_more K 0 ip)
    · rw [hnode,both_i hne,hz]
      exact one_ne_zero
    · rw [hnode,both_d] at hz
      exact hv hz
    · rw [hnode,both_other hjd hji]
  refine (hswap.iunlockput_same (twoLocks_dp dp ip) hfirm).bind fun _ t ht => ?_
  rw [twoLocks_unlock_dp hip] at ht
  refine does_pure ⟨ip,rfl,?_,ht.1,(hcar.trans (ht.2.toCarries.mono (subset_more K 0 ip))).of_zero⟩
  rw [ht.2.node,hnode]
  exact .single hc

theorem createNew_does (h : Ready n s K dp d name x) (e : Env n s K D E p)
    (hD : D d) (ht : type ≠ 0) (ht16 : type < 2^16)
    (hA : type ≠ T_DIR → A s.fs.node d) (hB : type = T_DIR → B s.fs.node d) :
    Does n (createNew dp name type major minor) x (fun r t =>
      (r = none ∧ Done n A B U K 0 unlocked s t) ∨
      ∃ ip, r = some ip ∧ Done n A B U K (ip ::ₘ 0) (update unlocked ip true) s t) E := by
  have hmod : type % 2^16 = type := Nat.mod_eq_of_lt ht16
  refine (ialloc_does h.stable h.allLive ((e.room.fewer (by decide)).more dp)).bind fun r t hr => ?_
  rcases hr with ⟨rfl,rfl⟩ | ⟨ip,i,rfl,ha⟩
  · refine (h.stable.iunlockput_same (update_self ..)
      (h.same.firm e.stable.firm')).bind fun _ u hu => ?_
    rw [unlock rfl] at hu
    exact does_pure (.inl ⟨rfl,(h.same.trans hu.2).done hu.1⟩)
  · refine (ha.made h.stable major minor E h.allLive
      (by rw [hmod]; exact ht)).bind fun _ u hu => ?_
    refine hu.bind fun _ v m => ?_
    rw [hmod] at m
    refine (createDots_does h e m rfl rfl ht).bind fun ok w hw => ?_
    obtain ⟨z,mz,hzt,hz1,hdots⟩ := hw
    cases ok with
    | false =>
      rw [if_neg Bool.false_ne_true]
      exact (createFail_does h e mz (by rw [hzt]; exact ht)).mono fun r t hr => .inl hr
    | true =>
      rw [if_pos rfl]
      refine (mz.stable.stat (twoLocks_ip dp ip)).bind fun st w' hw' => ?_
      obtain ⟨rfl,rfl⟩ := hw'
      rw [show (statOf w' ip).inum = i from mz.inum_ip]
      have hdp := h.nodeOf_dp mz
      refine (dirlink_does mz.stable (twoLocks_dp dp ip) (by rw [hdp]; exact h.dir.2)
        ((e.room.more dp).more ip)
        fun a ha ha0 => e.walk.inum _ (e.walk.entry d hD h.dir.2 a (hdp ▸ ha) ha0)).bind
        fun ok u hu => ?_
      obtain ⟨hust,⟨rfl,hsame⟩ | ⟨rfl,-,k,hslot,hwrote⟩⟩ := hu
      · rw [if_neg Bool.false_ne_true]
        exact (createFail_does h e (mz.same hsame hust) (by rw [hzt]; exact ht)).mono
          fun r t hr => .inl hr
      · rw [if_pos rfl]
        obtain ⟨hne,hip⟩ := h.ne mz
        rw [hdp] at hslot hwrote
        rw [Nat.mod_eq_of_lt (mz.inum.2.trans_le e.small),
          List.take_of_length_le h.vacant.2] at hwrote
        have hfree : (s.fs.node i).type = 0 := by rw [← h.same.node]; exact mz.free
        have hcar : Carries (K+0) s u := (h.same.toCarries.trans
          (mz.carries.mono (subset_more K 0 dp))).trans (hwrote.carries _)
        have hunode : u.fs.node = both s.fs.node d ((s.fs.node d).enter k ⟨i,name⟩) i z := by
          rw [hwrote.node,h.inum_dp' mz,mz.node,h.same.node]
          rfl
        by_cases htd : type = T_DIR
        · rw [if_pos htd]
          have hudp : u.fs.nodeOf dp = (s.fs.node d).enter k ⟨i,name⟩ := hwrote.nodeOf
          have hnl : (u.fs.nodeOf dp).nlink = (s.fs.node d).nlink := by
            rw [hudp]
            rfl
          refine (hust.incNlink (twoLocks_dp dp ip) (by rw [hnl]; exact e.few d h.dir.1)).bind
            fun _ q hq => ?_
          rw [hnl,hudp] at hq
          have hqst := hust.wrote (twoLocks_dp dp ip) (by exact h.dir.live.2) hq
          refine (h.finish e hne hip hqst (hcar.trans (hq.carries _)) ?_ hz1 (by omega)
            (.dir h.dir (hB htd) hslot h.vacant mz.inum hfree (hzt.trans htd) hz1
              (hdots rfl htd))).mono fun r t hr => .inr hr
          rw [hq.node,hwrote.itable,h.inum_dp' mz,hunode,both,both,update_idem]
        · rw [if_neg htd]
          refine (does_pure (Q := fun _ q => q = u) rfl).bind fun _ q hq => ?_
          subst hq
          exact (h.finish e (v := (s.fs.node d).nlink) hne hip hust hcar hunode hz1 id
            (.file h.dir (hA htd) hslot h.vacant mz.inum hfree (by rw [hzt]; exact ht)
              (by rw [hzt]; exact htd) hz1)).mono fun r t hr => .inr hr

theorem create_does (e : Env n s K D E p) (path : Str) (ht : type ≠ 0) (ht16 : type < 2^16)
    (hA : ∀ d nm, target true s p path = some (d,nm) → find (s.fs.node d).entries nm = none →
      type ≠ T_DIR → A s.fs.node d)
    (hB : ∀ d nm, target true s p path = some (d,nm) → find (s.fs.node d).entries nm = none →
      type = T_DIR → B s.fs.node d) :
    Does n (create p path type major minor) s (fun r t =>
      (r = none ∧ Done n A B U K 0 unlocked s t) ∨
      ∃ ip, r = some ip ∧ Done n A B U K (ip ::ₘ 0) (update unlocked ip true) s t) E := by
  have hfirm : Firm n s (K+0) := e.stable.firm'
  refine (namex_does true path e.stable hfirm (e.room.fewer (by decide)) e.walk e.root e.running).bind fun r t hr => ?_
  obtain ⟨hsame,hr⟩ := hr
  match r, hr with
  | none, hr => exact does_pure (.inl ⟨rfl,hsame.done hr.2⟩)
  | some (dp,name), hr =>
    obtain ⟨hres,hst⟩ := hr
    generalize hdi : (t.fs.itable dp).inum = d at hres
    obtain ⟨hD,hdir⟩ := e.walk.target e.root e.running hres
    have hisdir : IsDir n s.fs.node d := ⟨e.walk.inum d hD,hdir rfl⟩
    have hin := mem_self K 0 dp
    have htn : t.fs.nodeOf dp = s.fs.node d := by rw [Store.nodeOf,hdi,hsame.node]
    refine (hst.ilock hin e.walk.dead (.inl (by rw [htn]; exact hisdir.live.2))).bind
      fun _ u hu => ?_
    obtain ⟨-,hust,husame,-⟩ := hu
    have hsu : Same (K+0) s u := hsame.trans (husame.mono (subset_more K 0 dp))
    have hun : u.fs.nodeOf dp = s.fs.node d := (husame.nodeOf hin).trans htn
    have hlt : update unlocked dp true dp = true := update_self ..
    refine (dirlookup_does hust hlt (by rw [hun]; exact hisdir.2) _ ((e.room.fewer (by decide)).more dp)
      (fun a ha ha0 => e.walk.inum _ (e.walk.entry d hD hisdir.2 a (hun ▸ ha) ha0))).bind
      fun r v hv => ?_
    rw [hun] at hv
    rcases hv with ⟨hnone,rfl,rfl⟩ | ⟨de,ip,k,hfind,rfl,hit⟩
    · refine createNew_does ⟨hust,hsu,?_,hisdir,⟨hnone,target_length hres⟩⟩ e hD ht ht16
        (hA d name hres hnone) (hB d name hres hnone)
      rw [husame.inum dp hin,hdi]
    · have hfound := find_some hfind
      have hDe := e.walk.entry d hD hisdir.2 de hfound.1 hfound.2.1
      have hsv : Same (K+0) s v := hsu.trans (hit.same.mono (subset_more K 0 dp))
      have hswap : Stable n v.fs K (dp ::ₘ ip ::ₘ 0) (update unlocked dp true) := by
        rw [Multiset.cons_swap]
        exact hit.stable
      refine (hswap.iunlockput_same hlt ((hsv.firm hfirm).mono (subset_more K 0 ip))).bind
        fun _ w hw => ?_
      rw [unlock rfl] at hw
      have hsw : Same (K+0) s w := hsv.trans (hw.2.mono (subset_more K 0 ip))
      have hiw := mem_self K 0 ip
      have hwi : (w.fs.itable ip).inum = de.inum := by rw [hw.2.inum ip hiw,hit.inum]
      refine (hw.1.ilock hiw e.walk.dead (by
        rw [Store.nodeOf,hwi,hsw.node]
        exact e.walk.type _ hDe)).bind fun _ q hq => ?_
      obtain ⟨-,hqst,hqsame,-⟩ := hq
      have hsq : Same (K+0) s q := hsw.trans (hqsame.mono (subset_more K 0 ip))
      have hlq : update unlocked ip true ip = true := update_self ..
      refine (hqst.stat hlq).bind fun st q' hq' => ?_
      obtain ⟨rfl,rfl⟩ := hq'
      split
      · exact does_pure (.inr ⟨ip,rfl,by rw [hsq.node],hqst,hsq.toCarries.of_zero⟩)
      · refine (hqst.iunlockput_same hlq (hsq.firm hfirm)).bind fun _ z hz => ?_
        rw [unlock rfl] at hz
        exact does_pure (.inl ⟨rfl,(hsq.trans hz.2).done hz.1⟩)

end Create

end Names
end Xv6
