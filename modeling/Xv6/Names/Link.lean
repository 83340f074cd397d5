import Mathlib.Logic.Relation
import Xv6.Names.Change
import Xv6.Names.Walk

/-! `link` and `unlink` as changes of the name space. -/
namespace Xv6
namespace Names

open Function
open Fs (NINODE Panic)
open Relation (ReflTransGen)

variable {n : ℕ} {s t : Sys Store} {K H : Multiset (Fin NINODE)} {L : Fin NINODE → Bool}
  {ip dp : Fin NINODE} {E : Panic → Prop} {A B U : (ℕ → Node) → ℕ → Prop}
  {D : ℕ → Prop} {p : Fin NPROC} {name : Str}

def unlocked : Fin NINODE → Bool := fun _ => false

/-- What a system call of process `p` finds: no locks held, the tree in order, fewer than
32767 links to any inode, numbers that fit a directory entry, and the three entries of the inode
table that a call may need. -/
structure Env (n : ℕ) (s : Sys Store) (K : Multiset (Fin NINODE)) (D : ℕ → Prop)
    (E : Panic → Prop) (p : Fin NPROC) : Prop where
  stable : Stable n s.fs K 0 unlocked
  walk : Walk n s.fs.node D E
  root : D ROOTINO
  running : Running s K D p
  tree : Tree n s.fs.node
  small : n ≤ 2^16
  few : ∀ i, IsInum n i → (s.fs.node i).nlink < 32767
  room : Room E (K + 0) 3

/-- What it leaves behind, when it keeps the tables of files and processes. -/
structure Done (n : ℕ) (A B U : (ℕ → Node) → ℕ → Prop) (K H : Multiset (Fin NINODE))
    (L : Fin NINODE → Bool) (s t : Sys Store) : Prop where
  changes : ReflTransGen (Change n A B U) s.fs.node t.fs.node
  stable : Stable n t.fs K H L
  carries : Carries K s t

theorem unlock (hl : L ip = false) : update (update L ip true) ip false = L := by
  rw [update_idem,← hl,update_eq_self]

theorem Carries.of_zero (h : Carries (K+0) s t) : Carries K s t := by rwa [add_zero] at h

/-- A call that failed has changed no inode. -/
theorem Same.done (h : Same (K+0) s t) (hst : Stable n t.fs K 0 unlocked) :
    Done n A B U K 0 unlocked s t :=
  ⟨by rw [h.node],hst,h.toCarries.of_zero⟩

theorem Done.ended (h : Done n A B U K H L s t) : Done n A B U K H L s.ended t.ended :=
  ⟨h.changes,h.stable,⟨congrArg Procs.ended h.carries.ps,h.carries.inum⟩⟩

theorem Env.begun (e : Env n s K D E p) : Env n s.begun K D E p :=
  ⟨e.stable,e.walk,e.root,e.running,e.tree,e.small,e.few,e.room⟩

theorem Dropped.changes (h : Dropped ip s t) (hi : IsInum n (s.fs.itable ip).inum) :
    ReflTransGen (Change n A B U) s.fs.node t.fs.node := by
  rcases h with heq | ⟨hz,heq⟩
  · rw [heq]
  · rw [heq]
    exact .single (.free hi (.inl hz))

/-- An inode with a link is not freed. -/
theorem Dropped.linked {i : ℕ} (h : Dropped ip s t) (hi : (s.fs.node i).nlink ≠ 0) :
    t.fs.node i = s.fs.node i := by
  rcases h with heq | ⟨hz,heq⟩
  · rw [heq]
  · have hne : i ≠ (s.fs.itable ip).inum := fun he => hi (he ▸ hz)
    rw [heq,update_of_ne hne]

theorem Stable.incNlink (h : Stable n s.fs K H L) (hl : L ip = true)
    (hfew : (s.fs.nodeOf ip).nlink < 32767) : Does n (incNlink ip) s (fun _ t =>
      Wrote ip ((s.fs.nodeOf ip).relink ((s.fs.nodeOf ip).nlink+1)) s t) E := by
  refine (h.stat hl).bind fun st t ht => ?_
  obtain ⟨rfl,rfl⟩ := ht
  refine (h.iupdate hl).mono fun _ u hu => ?_
  rwa [Nat.mod_mod,Nat.mod_eq_of_lt (show (statOf t ip).nlink+1 < 2^16 from
    Nat.lt_of_lt_of_le (Nat.succ_lt_succ hfew) (by norm_num))] at hu

theorem Stable.decNlink (h : Stable n s.fs K H L) (hl : L ip = true)
    (hpos : 0 < (s.fs.nodeOf ip).nlink) (hfew : (s.fs.nodeOf ip).nlink ≤ 32767) :
    Does n (decNlink ip) s (fun _ t =>
      Wrote ip ((s.fs.nodeOf ip).relink ((s.fs.nodeOf ip).nlink-1)) s t) E := by
  refine (h.stat hl).bind fun st t ht => ?_
  obtain ⟨rfl,rfl⟩ := ht
  refine (h.iupdate hl).mono fun _ u hu => ?_
  have hv : (((statOf t ip).nlink+2^16-1) % 2^16) % 2^16 = (t.fs.nodeOf ip).nlink-1 := by
    change (((t.fs.nodeOf ip).nlink+2^16-1) % 2^16) % 2^16 = _
    omega
  rwa [hv] at hu

section Link

variable {i : ℕ} {v : Sys Store}

/-- `s` with one more link to the inode of `ip`, to which the call holds a reference. -/
structure OneMore (n : ℕ) (s : Sys Store) (K : Multiset (Fin NINODE)) (ip : Fin NINODE) (i : ℕ)
    (v : Sys Store) : Prop where
  stable : Stable n v.fs K (ip ::ₘ 0) unlocked
  carries : Carries K s v
  inum : (v.fs.itable ip).inum = i
  node : v.fs.node = update s.fs.node i ((s.fs.node i).relink ((s.fs.node i).nlink + 1))

theorem OneMore.nodeOf (h : OneMore n s K ip i v) :
    v.fs.nodeOf ip = (s.fs.node i).relink ((s.fs.node i).nlink+1) := by
  rw [Store.nodeOf,h.inum,h.node,update_self]

theorem OneMore.type (h : OneMore n s K ip i v) (j : ℕ) :
    (v.fs.node j).type = (s.fs.node j).type := by
  rw [h.node,update_apply]
  split
  · rename_i hj
    rw [hj]
    rfl
  · rfl

theorem OneMore.entries (h : OneMore n s K ip i v) (j : ℕ) :
    (v.fs.node j).entries = (s.fs.node j).entries := by
  rw [h.node,update_apply]
  split
  · rename_i hj
    rw [hj]
    rfl
  · rfl

theorem OneMore.same {w : Sys Store} (h : OneMore n s K ip i v) (hs : Same (K+ip ::ₘ 0) v w)
    (hst : Stable n w.fs K (ip ::ₘ 0) unlocked) : OneMore n s K ip i w where
  stable := hst
  carries := h.carries.trans (hs.toCarries.mono fun _ hj => Multiset.mem_add.mpr (.inl hj))
  inum := (hs.inum ip (mem_self K 0 ip)).trans h.inum
  node := hs.node.trans h.node

theorem Env.firm (e : Env n s K D E p) : Firm n s K := by
  have := e.stable.firm'
  rwa [add_zero] at this

/-- After `sys_link`; if it succeeds, the new link is counted. -/
def Linked (n : ℕ) (A B U : (ℕ → Node) → ℕ → Prop) (K : Multiset (Fin NINODE)) (s : Sys Store)
    (i : ℕ) (r : ℤ) (t : Sys Store) : Prop :=
  Done n A B U K 0 unlocked s.ended t ∧
    (r = 0 → (t.fs.node i).nlink = (s.fs.node i).nlink + 1)

/-- The undo of `sys_link` restores every inode. -/
theorem OneMore.bad (h : OneMore n s K ip i v) (e : Env n s K D E p)
    (hlive : (s.fs.node i).type ≠ 0) : Does n (linkBad ip) v (Linked n A B U K s i) E := by
  have hin := mem_self K 0 ip
  have hfew := e.few i (h.inum ▸ h.stable.inum ip hin)
  refine (h.stable.ilock hin e.walk.dead (.inl (by rw [h.nodeOf]; exact hlive))).bind fun _ w hw => ?_
  obtain ⟨-,hst,hsame,-⟩ := hw
  have hlt : update unlocked ip true ip = true := update_self ..
  have hnode : w.fs.nodeOf ip = (s.fs.node i).relink ((s.fs.node i).nlink+1) :=
    (hsame.nodeOf hin).trans h.nodeOf
  refine (hst.decNlink hlt (by rw [hnode]; exact Nat.succ_pos _)
    (by rw [hnode]; exact hfew)).bind fun _ x hx => ?_
  rw [hnode] at hx
  have hxnode : x.fs.node = s.fs.node := by
    rw [hx.node,hsame.node,hsame.inum ip hin,h.inum,h.node,update_idem]
    exact update_eq_self ..
  have hcar : Carries K s x := h.carries.trans ((hsame.toCarries.mono fun _ hj =>
    Multiset.mem_add.mpr (.inl hj)).trans (hx.carries K))
  have hsx : Same (K+0) s x := ⟨by rwa [add_zero],hxnode⟩
  refine ((hst.wrote hlt hlive hx).iunlockput_same hlt (hsx.firm (by
    rw [add_zero]
    exact e.firm))).bind fun _ y hy => ?_
  rw [unlock rfl] at hy
  exact does_endWith ⟨((hsx.trans hy.2).done hy.1).ended,fun hr => absurd hr (by decide)⟩

/-- The entry is written and both references are given back. -/
theorem OneMore.finish {d k : ℕ} {x : Sys Store} (h : OneMore n s K ip i v)
    (hst : Stable n x.fs K (dp ::ₘ ip ::ₘ 0) (update unlocked dp true))
    (hcar : Carries (K+ip ::ₘ 0) v x) (hne : d ≠ i)
    (hnode : x.fs.node = both s.fs.node d ((s.fs.node d).enter k ⟨i,name⟩) i
      ((s.fs.node i).relink ((s.fs.node i).nlink+1)))
    (hc : Change n A B U s.fs.node (both s.fs.node d ((s.fs.node d).enter k ⟨i,name⟩) i
      ((s.fs.node i).relink ((s.fs.node i).nlink+1)))) :
    Does n (do iunlockput dp; iput ip; endWith (0 : ℤ)) x (Linked n A B U K s i) E := by
  refine (hst.iunlockput (update_self ..)).bind fun _ y hy => ?_
  rw [unlock rfl] at hy
  refine (hy.1.iput rfl).bind fun _ z hz => ?_
  have hsub : K ⊆ K+ip ::ₘ 0 := fun _ hj => Multiset.mem_add.mpr (.inl hj)
  refine does_endWith ⟨Done.ended ⟨?_,hz.1,
    h.carries.trans (((hcar.trans hy.2.1).mono hsub).trans hz.2.1.of_zero)⟩,fun _ => ?_⟩
  · have hfirst : ReflTransGen (Change n A B U) s.fs.node x.fs.node := .single (hnode ▸ hc)
    refine (hfirst.trans (hy.2.2.changes ?_)).trans (hz.2.2.changes ?_)
    · exact hst.inum dp (mem_self K (ip ::ₘ 0) dp)
    · exact hy.1.inum ip (mem_self K 0 ip)
  · have hxi : (x.fs.node i).nlink = (s.fs.node i).nlink+1 := by
      rw [hnode,both_i hne]
      rfl
    have hyi := hy.2.2.linked (by rw [hxi]; exact Nat.succ_ne_zero _)
    have hzi := hz.2.2.linked (by rw [hyi,hxi]; exact Nat.succ_ne_zero _)
    change (z.fs.node i).nlink = _
    rw [hzi,hyi,hxi]

theorem argstr_some {path q : Str} (h : argstr path = some q) : q = path := by
  unfold argstr at h
  split at h
  · exact (Option.some.inj h).symm
  · cases h

/-- `sys_link` once the new link is counted. -/
theorem OneMore.enter (h : OneMore n s K ip i v) (e : Env n s K D E p) (new : Str)
    (hi : Live n s.fs.node i) (ht : (s.fs.node i).type ≠ T_DIR)
    (hA : ∀ d nm, target true s p new = some (d,nm) → find (s.fs.node d).entries nm = none →
      A s.fs.node d) :
    Does n (do
      match ← nameiparent p new with
      | none => linkBad ip
      | some (dp,name) => do
        ilock dp
        if ← dirlink dp name i then do
          iunlockput dp
          iput ip
          endWith 0
        else do
          iunlockput dp
          linkBad ip) v (Linked n A B U K s i) E := by
  have hwalk : Walk n v.fs.node D E := e.walk.congr h.type h.entries
  have hrun : Running v K D p := e.running.carry (H := 0) (by rw [add_zero]; exact h.carries)
  have htarget : target true v p new = target true s p new := by
    obtain ⟨c,hc,hcwd,-⟩ := e.running
    have hstart : start v p new = start s p new := by
      rw [start,start,h.carries.ps,hcwd]
      simp only [Option.map_some,h.carries.inum c hc]
    rw [target,target,hstart]
    congr 1
    funext j
    exact resolve_congr h.type h.entries ..
  refine (namex_does true new h.stable h.stable.firm' (e.room.more ip) hwalk e.root hrun).bind fun r w hw => ?_
  obtain ⟨hsame,hr⟩ := hw
  rcases r with _ | ⟨dp,name⟩
  · exact (h.same hsame hr.2).bad e hi.2
  · obtain ⟨hres,hst⟩ := hr
    generalize hdi : (w.fs.itable dp).inum = d at hres
    obtain ⟨hD,hdir⟩ := hwalk.target e.root hrun hres
    have hds : (s.fs.node d).type = T_DIR := (h.type d).symm.trans (hdir rfl)
    have hne : d ≠ i := fun heq => ht (heq ▸ hds)
    have hisdir : IsDir n s.fs.node d := ⟨hwalk.inum d hD,hds⟩
    have hwnode : w.fs.nodeOf dp = s.fs.node d := by
      rw [Store.nodeOf,hdi,hsame.node,h.node,update_of_ne hne]
    have hin := mem_self K (ip ::ₘ 0) dp
    refine (hst.ilock hin e.walk.dead (.inl (by rw [hwnode]; exact hisdir.live.2))).bind
      fun _ x hx => ?_
    obtain ⟨-,hxst,hxsame,-⟩ := hx
    have hxnode : x.fs.nodeOf dp = s.fs.node d := (hxsame.nodeOf hin).trans hwnode
    have hsx : Same (K+ip ::ₘ 0) v x := hsame.trans (hxsame.mono (subset_more K _ dp))
    have hlt : update unlocked dp true dp = true := update_self ..
    refine (dirlink_does hxst hlt (by rw [hxnode,hds]) ((e.room.more ip).more dp) (fun a ha ha0 => ?_)).bind
      fun r y hy => ?_
    · rw [hxnode] at ha
      exact e.walk.inum _ (e.walk.entry d hD hds a ha ha0)
    · obtain ⟨hyst,⟨rfl,hysame⟩ | ⟨rfl,hfind,k,hslot,hwrote⟩⟩ := hy
      · have hsy : Same (K+ip ::ₘ 0) v y := hsx.trans (hysame.mono (subset_more K _ dp))
        refine (hyst.iunlockput_same hlt (hsy.firm h.stable.firm')).bind fun _ z hz => ?_
        rw [unlock rfl] at hz
        exact (h.same (hsy.trans hz.2) hz.1).bad e hi.2
      · rw [hxnode] at hfind hslot hwrote
        rw [Nat.mod_eq_of_lt (Nat.lt_of_lt_of_le hi.1.2 e.small),
          List.take_of_length_le (target_length hres)] at hwrote
        have hcar : Carries (K+ip ::ₘ 0) v y := hsx.toCarries.trans (hwrote.carries _)
        refine h.finish hyst hcar hne ?_ (.link hisdir (hA d name (htarget ▸ hres) hfind) hslot ⟨hfind,target_length hres⟩
          hi ht)
        rw [hwrote.node,hxsame.inum dp hin,hdi,hsx.node,h.node]
        rfl

theorem sysLink_does (e : Env n s K D E p) (old new : Str)
    (hA : ∀ d nm, target true s p new = some (d,nm) → find (s.fs.node d).entries nm = none →
      A s.fs.node d) :
    Does n (sysLink p old new) s (fun r t => Done n A B U K 0 unlocked s t ∧
      (r = 0 → ∃ i nm, target false s p old = some (i,nm) ∧
        (t.fs.node i).nlink = (s.fs.node i).nlink+1)) E := by
  unfold sysLink
  split
  · rename_i old' new' ho hn
    obtain rfl := argstr_some ho
    obtain rfl := argstr_some hn
    refine Does.bind (does_beginOp (Q := fun _ t => t = s.begun) rfl) fun _ b hb => ?_
    replace hA : ∀ d nm, target true b p new' = some (d,nm) →
        find (b.fs.node d).entries nm = none → A b.fs.node d := hb ▸ hA
    rw [← s.begun_ended,← hb]
    replace e : Env n b K D E p := hb ▸ e.begun
    have hfirm : Firm n b (K+0) := e.stable.firm'
    have hfailed : ((-1 : ℤ) = 0) → False := by decide
    refine (namei_does old' e.stable hfirm (e.room.fewer (by decide)) e.walk e.root e.running).bind
      fun r t ht => ?_
    obtain ⟨hsame,⟨rfl,hst⟩ | ⟨ip,rfl,hst,hD,nm,htarget⟩⟩ := ht
    · exact does_endWith ⟨(hsame.done hst).ended,fun hr => (hfailed hr).elim⟩
    · have hin := mem_self K 0 ip
      refine (hst.ilock hin e.walk.dead (by
        have := e.walk.type _ hD
        rwa [← hsame.node] at this)).bind fun _ u hu => ?_
      obtain ⟨-,hust,husame,htype⟩ := hu
      have hlt : update unlocked ip true ip = true := update_self ..
      refine (hust.stat hlt).bind fun st u' hu' => ?_
      obtain ⟨rfl,rfl⟩ := hu'
      have hsu : Same (K+0) b u' := hsame.trans (husame.mono (subset_more K 0 ip))
      by_cases hd : (u'.fs.nodeOf ip).type = T_DIR
      · rw [if_pos (show (statOf u' ip).type = T_DIR from hd)]
        refine (hust.iunlockput_same hlt (hsu.firm hfirm)).bind fun _ v hv => ?_
        rw [unlock rfl] at hv
        exact does_endWith ⟨((hsu.trans hv.2).done hv.1).ended,fun hr => (hfailed hr).elim⟩
      · rw [if_neg (show ¬ (statOf u' ip).type = T_DIR from hd)]
        have hnode : u'.fs.nodeOf ip = b.fs.node (u'.fs.itable ip).inum := by
          rw [Store.nodeOf,hsu.node]
        refine (hust.incNlink hlt (by rw [hnode]; exact e.few _ (hust.inum ip hin))).bind fun _ v hv => ?_
        have hvst := hust.wrote hlt (by exact hust.nodeOf_type hlt) hv
        refine (hvst.iunlock hlt).bind fun _ w hw => ?_
        rw [unlock rfl] at hw
        have hlive : Live n b.fs.node (u'.fs.itable ip).inum :=
          ⟨hust.inum ip hin,hnode ▸ hust.nodeOf_type hlt⟩
        have hcar : Carries (K+0) b w := (hsu.toCarries.trans (hv.carries _)).trans
          (hw.2.toCarries.mono (subset_more K 0 ip))
        have hlinked : OneMore n b K ip (u'.fs.itable ip).inum w := by
          refine ⟨hw.1,hcar.of_zero,?_,?_⟩
          · rw [hw.2.inum ip hin,hv.itable]
          · rw [hw.2.node,hv.node,hsu.node,hnode]
        refine (hlinked.enter e new' hlive (hnode ▸ hd) hA).mono fun r x hx => ⟨hx.1,fun hr => ?_⟩
        refine ⟨_,nm,htarget,?_⟩
        rw [← husame.inum ip hin]
        exact hx.2 hr
  · exact does_pure ⟨(Same.refl _ s).done e.stable,fun hr => absurd hr (by decide)⟩

end Link

section Unlink

variable {d i k : ℕ} {x : Sys Store}

/-- An inode that has a name has a link. -/
theorem Tree.nlink_pos {N : ℕ → Node} {e : Dirent} (h : Tree n N) (hd : IsDir n N d)
    (he : e ∈ (N d).rest) (hne : e.inum ≠ 0) : 0 < (N e.inum).nlink := by
  have hpos := names_pos hd he
  have hlive := h.entry d hd e he hne
  by_cases ht : (N e.inum).type = T_DIR
  · have := h.dir _ ⟨hlive.1,ht⟩
    omega
  · have := h.file _ hlive ht
    omega

theorem short_pos {v : ℕ} (h : 0 < v) (hv : v < 32767) : ¬ short v < 1 := by
  unfold short
  rw [Nat.mod_eq_of_lt (by omega),if_pos (by omega)]
  omega

/-- Entry `k` of the locked directory `dp` names the inode of `ip`; the call holds both. -/
structure Aimed (n : ℕ) (s : Sys Store) (K : Multiset (Fin NINODE)) (dp : Fin NINODE) (d k : ℕ)
    (ip : Fin NINODE) (i : ℕ) (name : Str) (x : Sys Store) : Prop where
  stable : Stable n x.fs K (ip ::ₘ dp ::ₘ 0) (update unlocked dp true)
  same : Same (K + 0) s x
  dir : IsDir n s.fs.node d
  inum_dp : (x.fs.itable dp).inum = d
  inum_ip : (x.fs.itable ip).inum = i
  entry : (s.fs.node d).entries[k]? = some ⟨i,name⟩
  ne : i ≠ 0
  plain : Plain name

theorem isFullDir_does (h : Stable n x.fs K H L) (hl : L ip = true)
    (htwo : (x.fs.nodeOf ip).type = T_DIR → 2 ≤ (x.fs.nodeOf ip).entries.length) :
    Does n (isFullDir ip (x.fs.nodeOf ip).type) x (fun r t => t = x ∧ (r = false →
      (x.fs.nodeOf ip).type = T_DIR → ∀ e ∈ (x.fs.nodeOf ip).rest, e.inum = 0)) E := by
  unfold isFullDir
  split
  · rename_i hd
    refine (isdirempty_does h hl hd (htwo hd)).bind fun r t ht => ?_
    refine does_pure ⟨ht.2,fun hr _ => ht.1 (by simpa using hr)⟩
  · rename_i hd
    exact does_pure ⟨rfl,fun _ ht => absurd ht hd⟩

/-- Both locks of `sys_unlink`. -/
def twoLocks (dp ip : Fin NINODE) : Fin NINODE → Bool :=
  update (update unlocked dp true) ip true

theorem twoLocks_dp (dp ip : Fin NINODE) : twoLocks dp ip dp = true := by
  unfold twoLocks
  by_cases h : dp = ip
  · rw [h,update_self]
  · rw [update_of_ne h,update_self]

theorem twoLocks_ip (dp ip : Fin NINODE) : twoLocks dp ip ip = true := update_self ..

theorem twoLocks_unlock_ip (h : ip ≠ dp) :
    update (twoLocks dp ip) ip false = update unlocked dp true := by
  rw [twoLocks,unlock (by rw [update_of_ne h]; rfl)]

theorem twoLocks_unlock_dp (h : ip ≠ dp) :
    update (twoLocks dp ip) dp false = update unlocked ip true := by
  rw [twoLocks,update_comm h,unlock rfl]

/-- The end of `sys_unlink`, when the entry is cleared and `dp` has `v` links. -/
theorem Env.unlinked {z : Sys Store} {v : ℕ} (e : Env n s K D E p) (hd : IsDir n s.fs.node d)
    (hne : ip ≠ dp) (hdi : d ≠ i)
    (hst : Stable n z.fs K (ip ::ₘ dp ::ₘ 0) (twoLocks dp ip)) (hcar : Carries (K+0) s z)
    (hdp : (z.fs.itable dp).inum = d) (hi : (z.fs.itable ip).inum = i)
    (hnode : z.fs.node =
      update s.fs.node d (((s.fs.node d).enter k ⟨0,[]⟩).relink v))
    (hpos : 0 < (s.fs.node i).nlink)
    (hc : Change n A B U s.fs.node (both s.fs.node d (((s.fs.node d).enter k ⟨0,[]⟩).relink v) i
      ((s.fs.node i).relink ((s.fs.node i).nlink-1)))) :
    Does n (do iunlockput dp; decNlink ip; iunlockput ip; endWith (0 : ℤ)) z
      (fun _ t => Done n A B U K 0 unlocked s.ended t) E := by
  have hswap : Stable n z.fs K (dp ::ₘ ip ::ₘ 0) (twoLocks dp ip) := by
    rw [Multiset.cons_swap]
    exact hst
  refine (hswap.iunlockput (twoLocks_dp dp ip)).bind fun _ y hy => ?_
  rw [twoLocks_unlock_dp hne] at hy
  obtain ⟨hyst,hycar,hdrop⟩ := hy
  have hin := mem_self K 0 ip
  have hyi : (y.fs.itable ip).inum = i := by rw [hycar.inum ip hin,hi]
  have hyn : y.fs.nodeOf ip = s.fs.node i := by
    rw [Store.nodeOf,hyi]
    rcases hdrop with heq | ⟨-,heq⟩
    · rw [heq,hnode,update_of_ne (Ne.symm hdi)]
    · rw [heq,hdp,hnode,update_of_ne (Ne.symm hdi),update_of_ne (Ne.symm hdi)]
  have hlt : update unlocked ip true ip = true := update_self ..
  refine (hyst.decNlink hlt (by rw [hyn]; exact hpos) (by rw [hyn]; exact (e.few i (hyi ▸ hyst.inum ip hin)).le)).bind
    fun _ w hw => ?_
  have hwst := hyst.wrote hlt (by exact hyst.nodeOf_type hlt) hw
  have hchg : ReflTransGen (Change n A B U) s.fs.node w.fs.node := by
    refine (ReflTransGen.single hc).trans ?_
    rw [hw.node,hyi,hyn]
    rcases hdrop with heq | ⟨hz,heq⟩
    · rw [heq,hnode,both,update_comm hdi]
    · -- `dp` was removed before, and this was its last entry for a directory
      rw [heq,hdp,hnode,update_idem,update_comm hdi]
      refine .single ?_
      have hfree : update (both s.fs.node d (((s.fs.node d).enter k ⟨0,[]⟩).relink v) i
          ((s.fs.node i).relink ((s.fs.node i).nlink-1))) d .free = update
          (update s.fs.node i ((s.fs.node i).relink ((s.fs.node i).nlink-1))) d .free :=
        update_idem ..
      rw [← hfree]
      refine .free hd.1 (.inl ?_)
      rw [Store.nodeOf,hdp,hnode,update_self] at hz
      rw [both_d]
      exact hz
  refine (hwst.iunlockput hlt).bind fun _ u hu => ?_
  rw [unlock rfl] at hu
  have hcw : Carries (K+0) s w :=
    (hcar.trans (hycar.mono (subset_more K 0 ip))).trans (hw.carries _)
  refine does_endWith (Done.ended ⟨?_,hu.1,(hcw.trans hu.2.1).of_zero⟩)
  exact hchg.trans (hu.2.2.changes (hwst.inum ip (mem_self K 0 ip)))

theorem unlinkBad_does (h : Stable n x.fs K (dp ::ₘ 0) (update unlocked dp true))
    (hs : Same (K+0) s x) (e : Env n s K D E p) :
    Does n (unlinkBad dp) x (fun _ t => Done n A B U K 0 unlocked s.ended t) E := by
  refine (h.iunlockput_same (update_self ..) (hs.firm e.stable.firm')).bind fun _ y hy => ?_
  rw [unlock rfl] at hy
  exact does_endWith ((hs.trans hy.2).done hy.1).ended

theorem unlinkEntry_does (h : Aimed n s K dp d k ip i name x) (e : Env n s K D E p) (hD : D i)
    (hU : (s.fs.node i).type = T_DIR → (∀ e ∈ (s.fs.node i).rest, e.inum = 0) → U s.fs.node i) :
    Does n (unlinkEntry dp k ip) x (fun _ t => Done n A B U K 0 unlocked s.ended t) E := by
  have hin := mem_self K (dp ::ₘ 0) ip
  have hmem := e.tree.mem_rest h.dir h.entry h.plain
  have hpos : 0 < (s.fs.node i).nlink := e.tree.nlink_pos h.dir hmem.2 h.ne
  have hnode : x.fs.nodeOf ip = s.fs.node i := by rw [Store.nodeOf,h.inum_ip,h.same.node]
  refine (h.stable.ilock hin e.walk.dead (by rw [hnode]; exact e.walk.type i hD)).bind fun _ y hy => ?_
  obtain ⟨hfree,hyst,hysame,htype⟩ := hy
  have hne : ip ≠ dp := fun heq => by
    rw [heq,update_self] at hfree
    exact Bool.false_ne_true hfree.symm
  have hdi : d ≠ i := fun heq => by
    refine hne (h.stable.unique ip hin dp ?_ (by rw [h.inum_ip,h.inum_dp,heq]))
    exact mem_more (mem_self K 0 dp)
  have hsub : K+0 ⊆ K+ip ::ₘ dp ::ₘ 0 := fun _ hj => mem_more (mem_more hj)
  have hsy : Same (K+0) s y := h.same.trans (hysame.mono hsub)
  have hyn : y.fs.nodeOf ip = s.fs.node i := (hysame.nodeOf hin).trans hnode
  have hydp : y.fs.nodeOf dp = s.fs.node d := by
    rw [Store.nodeOf,hysame.inum dp (mem_more (mem_self K 0 dp)),h.inum_dp,hsy.node]
  refine (hyst.stat (twoLocks_ip dp ip)).bind fun st y' hy' => ?_
  obtain ⟨rfl,rfl⟩ := hy'
  rw [if_neg (show ¬ short (statOf y' ip).nlink < 1 by
    rw [statOf,hyn]
    exact short_pos hpos (e.few i (e.walk.inum i hD)))]
  have htwo : (y'.fs.nodeOf ip).type = T_DIR → 2 ≤ (y'.fs.nodeOf ip).entries.length := by
    rw [hyn]
    intro hd
    rw [(e.tree.shaped i ⟨e.walk.inum i hD,hd⟩).1.length]
    omega
  refine (isFullDir_does hyst (twoLocks_ip dp ip) htwo).bind fun full z hz => ?_
  obtain ⟨rfl,hbare⟩ := hz
  cases full with
  | true =>
    rw [if_pos rfl]
    have hfirm := (hsy.firm e.stable.firm').mono (subset_more K 0 dp)
    refine (hyst.iunlockput_same (twoLocks_ip dp ip) hfirm).bind fun _ w hw => ?_
    rw [show update (update (update unlocked dp true) ip true) ip false =
      update unlocked dp true from twoLocks_unlock_ip hne] at hw
    exact unlinkBad_does hw.1 (hsy.trans (hw.2.mono (subset_more K 0 dp))) e
  | false =>
    rw [if_neg Bool.false_ne_true]
    have hlt := (List.getElem?_eq_some_iff.mp h.entry).1
    refine (hyst.writei (twoLocks_dp dp ip) (by rw [hydp]; exact h.dir.2)
      (by rw [hydp]; exact hlt.le)).bind fun r w hw => ?_
    obtain ⟨hwst,⟨rfl,hwrote⟩ | ⟨rfl,hk,-⟩⟩ := hw
    · rw [if_pos rfl]
      rw [hydp] at hwrote
      have hzd : (z.fs.itable dp).inum = d := by
        rw [hysame.inum dp (mem_more (mem_self K 0 dp)),h.inum_dp]
      have hzi : (z.fs.itable ip).inum = i := by rw [hysame.inum ip hin,h.inum_ip]
      have hwn : w.fs.node = update s.fs.node d ((s.fs.node d).enter k ⟨0,[]⟩) := by
        rw [hwrote.node,hzd,hsy.node]
      have hcar : Carries (K+0) s w := hsy.toCarries.trans (hwrote.carries _)
      by_cases hd : (s.fs.node i).type = T_DIR
      · rw [if_pos (show (statOf z ip).type = T_DIR by rw [statOf,hyn]; exact hd)]
        have hdir : IsDir n s.fs.node i := ⟨e.walk.inum i hD,hd⟩
        have hb := hbare rfl (by rw [hyn]; exact hd)
        rw [hyn] at hb
        have hparent := e.tree.parent_nlink h.dir h.entry h.plain hdir
        have hwdp : w.fs.nodeOf dp = (s.fs.node d).enter k ⟨0,[]⟩ := hwrote.nodeOf
        have hnl : (w.fs.nodeOf dp).nlink = (s.fs.node d).nlink := by
          rw [hwdp]
          rfl
        refine (hwst.decNlink (twoLocks_dp dp ip) (by omega)
          (by have := e.few d h.dir.1; omega)).bind fun _ u hu => ?_
        rw [hnl,hwdp] at hu
        have hust := hwst.wrote (twoLocks_dp dp ip) (by exact h.dir.live.2) hu
        refine e.unlinked h.dir hne hdi hust (hcar.trans (hu.carries _)) ?_ ?_ ?_ hpos
          (.rmdir h.dir h.entry h.ne h.plain hd hb (hU hd hb) hdi)
        · rw [hu.itable,hwrote.itable,hzd]
        · rw [hu.itable,hwrote.itable,hzi]
        · rw [hu.node,hwrote.itable,hzd,hwn,update_idem]
      · rw [if_neg (show ¬ (statOf z ip).type = T_DIR by rw [statOf,hyn]; exact hd)]
        refine (does_pure (Q := fun _ u => u = w) rfl).bind fun _ u hu => ?_
        subst hu
        refine e.unlinked (v := (s.fs.node d).nlink) h.dir hne hdi hwst hcar ?_ ?_ hwn hpos
          (.unlink h.dir h.entry h.ne h.plain hd)
        · rw [hwrote.itable,hzd]
        · rw [hwrote.itable,hzi]
    · rw [hydp] at hk
      omega

theorem sysUnlink_does (e : Env n s K D E p) (path : Str)
    (hU : ∀ d nm de, target true s p path = some (d,nm) →
      find (s.fs.node d).entries nm = some de → (s.fs.node de.inum).type = T_DIR →
      (∀ e ∈ (s.fs.node de.inum).rest, e.inum = 0) → U s.fs.node de.inum) :
    Does n (sysUnlink p path) s (fun _ t => Done n A B U K 0 unlocked s t) E := by
  unfold sysUnlink
  split
  · exact does_pure ((Same.refl _ s).done e.stable)
  · rename_i path' hpath
    obtain rfl := argstr_some hpath
    refine Does.bind (does_beginOp (Q := fun _ t => t = s.begun) rfl) fun _ b hb => ?_
    replace hU : ∀ d nm de, target true b p path' = some (d,nm) →
        find (b.fs.node d).entries nm = some de → (b.fs.node de.inum).type = T_DIR →
        (∀ e ∈ (b.fs.node de.inum).rest, e.inum = 0) → U b.fs.node de.inum := hb ▸ hU
    rw [← s.begun_ended,← hb]
    replace e : Env n b K D E p := hb ▸ e.begun
    have hfirm : Firm n b (K+0) := e.stable.firm'
    refine (namex_does true path' e.stable hfirm (e.room.fewer (by decide)) e.walk e.root
      e.running).bind fun r t ht => ?_
    obtain ⟨hsame,hr⟩ := ht
    match r, hr with
    | none, hr => exact does_endWith (hsame.done hr.2).ended
    | some (dp,name), hr =>
      obtain ⟨hres,hst⟩ := hr
      generalize hdi : (t.fs.itable dp).inum = d at hres
      obtain ⟨hD,hdir⟩ := e.walk.target e.root e.running hres
      have hisdir : IsDir n b.fs.node d := ⟨e.walk.inum d hD,hdir rfl⟩
      have hin := mem_self K 0 dp
      have htn : t.fs.nodeOf dp = b.fs.node d := by rw [Store.nodeOf,hdi,hsame.node]
      refine (hst.ilock hin e.walk.dead (.inl (by rw [htn]; exact hisdir.live.2))).bind
        fun _ u hu => ?_
      obtain ⟨-,hust,husame,-⟩ := hu
      have hsu : Same (K+0) b u := hsame.trans (husame.mono (subset_more K 0 dp))
      split
      · exact unlinkBad_does hust hsu e
      · rename_i hname
        have hun : u.fs.nodeOf dp = b.fs.node d := (husame.nodeOf hin).trans htn
        refine (dirlookup_does hust (update_self ..)
          (by rw [hun]; exact hisdir.2) name ((e.room.fewer (by decide)).more dp)
          (fun a ha ha0 => ?_)).bind fun r v hv => ?_
        · rw [hun] at ha
          exact e.walk.inum _ (e.walk.entry d hD hisdir.2 a ha ha0)
        · rw [hun] at hv
          rcases hv with ⟨-,rfl,rfl⟩ | ⟨de,ip,k,hfind,rfl,hit⟩
          · exact unlinkBad_does hust hsu e
          · have hfound := find_some hfind
            have hDe := e.walk.entry d hD hisdir.2 de hfound.1 hfound.2.1
            have haim : Aimed n b K dp d k ip de.inum de.name v := by
              refine ⟨hit.stable,hsu.trans (hit.same.mono (subset_more K 0 dp)),hisdir,?_,hit.inum,
                by rw [← hun]; exact hit.entry,hfound.2.1,?_⟩
              · rw [hit.same.inum dp hin,husame.inum dp hin,hdi]
              · rw [← hfound.2.2]
                exact not_or.mp hname
            exact unlinkEntry_does haim e hDe (hU d name de hres hfind)

end Unlink

end Names
end Xv6
