import Mathlib.Data.Multiset.Count
import Xv6.Names.Tree

/-! References to inodes and locks: what holds while a system call runs, and how each inode
operation changes it. -/
namespace Xv6
namespace Names

open Fs (NINODE Panic)
open Prog Function Multiset

/-! Rules for code over the store. -/

section Rules

variable {n : ℕ} {α β : Type} {s : Sys Store} {x : Code α} {f : α → Code β} {E : Panic → Prop}

/-- From `s`, the code returns as `Q` says or stops with an error that meets `E`. -/
def Does (n : ℕ) (x : Code α) (s : Sys Store) (Q : α → Sys Store → Prop) (E : Panic → Prop) : Prop :=
  Meets (x.run (handle (Store.serve n))) s Q E

theorem does_pure {Q : α → Sys Store → Prop} {a : α} (h : Q a s) : Does n (pure a) s Q E :=
  meets_of_run rfl h

theorem Does.bind {R : α → Sys Store → Prop} {Q : β → Sys Store → Prop} (h : Does n x s R E)
    (hf : ∀ a t, R a t → Does n (f a) t Q E) : Does n (x >>= f) s Q E := by
  rw [Does,Free.run_bind]
  exact Meets.bind h hf

theorem Does.mono {Q Q' : α → Sys Store → Prop} (h : Does n x s Q E)
    (hQ : ∀ a t, Q a t → Q' a t) : Does n x s Q' E := by
  rw [Does,← bind_pure (x.run _)]
  exact Meets.bind h fun a t ht => meets_of_run rfl (hQ a t ht)

theorem does_inode {c : InodeCmd} {r : c.Result} {t : Store} {Q : c.Result → Sys Store → Prop}
    (hr : Store.serve n c s.fs = .ok (r,t)) (h : Q r { s with fs := t }) :
    Does n (inode c) s Q E := by
  have hc : (handle (Store.serve n) (.inode c)).run s = .ok (r,{ s with fs := t }) := by
    simp only [handle,StateT.run,hr]
  exact meets_of_run (run_bind_of_run hc) h

theorem stops_inode {c : InodeCmd} {e : Panic} {Q : c.Result → Sys Store → Prop}
    (hr : Store.serve n c s.fs = .error e) (h : E e) : Does n (inode c) s Q E := by
  have hc : (handle (Store.serve n) (.inode c)).run s = .error e := by
    simp only [handle,StateT.run,hr]
  exact meets_of_error (stops_bind hc) h

theorem does_procs {Q : Procs → Sys Store → Prop} (h : Q s.ps s) : Does n procs s Q E :=
  meets_of_run rfl h

theorem does_setProcs {q : Procs} {Q : Unit → Sys Store → Prop} (h : Q () { s with ps := q }) :
    Does n (setProcs q) s Q E :=
  meets_of_run rfl h

/-- The state in which one more operation is outstanding. -/
def Sys.begun {σ : Type} (s : Sys σ) : Sys σ := { s with ps := s.ps.begun }

def Sys.ended {σ : Type} (s : Sys σ) : Sys σ := { s with ps := s.ps.ended }

theorem Sys.begun_ended {σ : Type} (s : Sys σ) : s.begun.ended = s := by
  simp only [Sys.begun,Sys.ended,Procs.begun,Procs.ended,add_sub_cancel_right]

theorem does_beginOp {Q : Unit → Sys Store → Prop} (h : Q () s.begun) : Does n beginOp s Q E :=
  meets_of_run rfl h

theorem does_endWith {Q : α → Sys Store → Prop} {a : α} (h : Q a s.ended) :
    Does n (endWith a) s Q E :=
  meets_of_run rfl h

end Rules

namespace Store

variable {s : Store} {ip jp : Fin NINODE} {x : Entry} {i j : ℕ} {y : Node}

@[simp] theorem put_node (s : Store) (ip : Fin NINODE) (x : Entry) : (s.put ip x).node = s.node := rfl

@[simp] theorem put_self (s : Store) (ip : Fin NINODE) (x : Entry) : (s.put ip x).itable ip = x :=
  update_self ..

theorem put_other (h : jp ≠ ip) : (s.put ip x).itable jp = s.itable jp := update_of_ne h ..

@[simp] theorem setNode_itable (s : Store) (i : ℕ) (y : Node) : (s.setNode i y).itable = s.itable :=
  rfl

@[simp] theorem setNode_self (s : Store) (i : ℕ) (y : Node) : (s.setNode i y).node i = y :=
  update_self ..

theorem setNode_other (h : j ≠ i) : (s.setNode i y).node j = s.node j := update_of_ne h ..

/-! The outcomes of the operations. -/

theorem iget_found (h : s.findEntry i = some ip) :
    iget i s = .ok (ip,s.put ip { s.itable ip with ref := (s.itable ip).ref+1 }) := by
  simp only [iget,h]

theorem iget_new (h : s.findEntry i = none) (he : s.emptyEntry = some ip) :
    iget i s = .ok (ip,s.put ip { s.itable ip with inum := i, ref := 1, valid := false }) := by
  simp only [iget,h,he]

theorem iget_full (h : s.findEntry i = none) (he : s.emptyEntry = none) :
    iget i s = .error .noInodes := by
  simp only [iget,h,he]

theorem ialloc_none {n type : ℕ} (h : freeInum n s = none) : ialloc n type s = .ok (none,s) := by
  simp only [ialloc,h]

theorem ialloc_full {n type : ℕ} (h : freeInum n s = some i)
    (hg : iget i (s.setNode i { Node.free with type := type % 2^16 }) = .error .noInodes) :
    ialloc n type s = .error .noInodes := by
  simp only [ialloc,h,hg]

theorem ialloc_some {n type : ℕ} {t : Store} (h : freeInum n s = some i)
    (hg : iget i (s.setNode i { Node.free with type := type % 2^16 }) = .ok (ip,t)) :
    ialloc n type s = .ok (some ip,t) := by
  simp only [ialloc,h,hg]

theorem ilock_ok (href : 0 < (s.itable ip).ref) (hl : (s.itable ip).locked = false)
    (hz : ¬ ((s.itable ip).valid = false ∧ (s.nodeOf ip).type = 0)) :
    ilock ip s = .ok ((),s.put ip { s.itable ip with locked := true, valid := true }) := by
  simp only [ilock,hl,Bool.false_eq_true,if_neg hz,if_false]
  rw [if_neg (by omega)]

theorem ilock_deadlock (href : 0 < (s.itable ip).ref) (hl : (s.itable ip).locked = true) :
    ilock ip s = .error .deadlock := by
  simp only [ilock,hl,if_true]
  rw [if_neg (by omega)]

theorem ilock_noType (href : 0 < (s.itable ip).ref) (hl : (s.itable ip).locked = false)
    (hz : (s.itable ip).valid = false ∧ (s.nodeOf ip).type = 0) :
    ilock ip s = .error .noType := by
  simp only [ilock,hl,Bool.false_eq_true,if_pos hz,if_false]
  rw [if_neg (by omega)]

theorem iunlock_ok (href : 0 < (s.itable ip).ref) (hl : (s.itable ip).locked = true) :
    iunlock ip s = .ok ((),s.put ip { s.itable ip with locked := false }) := by
  have hc : ¬ ((s.itable ip).locked = false ∨ (s.itable ip).ref < 1) := by
    rw [hl]
    rintro (hf | hlt)
    · exact absurd hf.symm Bool.false_ne_true
    · omega
  simp only [iunlock,if_neg hc]

theorem iput_free (hc : (s.itable ip).ref = 1 ∧ (s.itable ip).valid = true ∧ (s.nodeOf ip).nlink = 0)
    (hl : (s.itable ip).locked = false) : iput ip s = .ok ((),(s.setNode (s.itable ip).inum .free).put
      ip { s.itable ip with ref := 0, valid := false }) := by
  simp only [iput,if_pos hc,hl,Bool.false_eq_true,if_false]

theorem iput_keep (hc : ¬ ((s.itable ip).ref = 1 ∧ (s.itable ip).valid = true ∧
    (s.nodeOf ip).nlink = 0)) :
    iput ip s = .ok ((),s.put ip { s.itable ip with ref := (s.itable ip).ref-1 }) := by
  simp only [iput,if_neg hc]

end Store

/-- The state of the inodes while a system call runs.  `K` are the references held by
processes, `H` those of the running call, and `L` tells which entries are locked. -/
structure Stable (n : ℕ) (s : Store) (K H : Multiset (Fin NINODE)) (L : Fin NINODE → Bool) :
    Prop where
  ref : ∀ ip, (s.itable ip).ref = (K + H).count ip
  inum : ∀ ip ∈ K + H, IsInum n (s.itable ip).inum
  unique : ∀ ip ∈ K + H, ∀ jp ∈ K + H, (s.itable ip).inum = (s.itable jp).inum → ip = jp
  alive : ∀ ip ∈ K, (s.nodeOf ip).type ≠ 0
  valid : ∀ ip ∈ K + H, (s.itable ip).valid = true → (s.nodeOf ip).type ≠ 0
  lock : ∀ ip, (s.itable ip).locked = L ip
  held : ∀ ip, L ip = true → ip ∈ K + H ∧ (s.itable ip).valid = true
  firm : ∀ i, Live n s.node i → (s.node i).nlink = 0 →
    ∃ ip ∈ K + H, (s.itable ip).inum = i ∧ (s.itable ip).valid = true

section Stable

variable {n : ℕ} {s : Store} {K H H' : Multiset (Fin NINODE)} {L L' : Fin NINODE → Bool}
  {ip : Fin NINODE} {x : Entry}

theorem Stable.ref_pos (h : Stable n s K H L) : 0 < (s.itable ip).ref ↔ ip ∈ K+H := by
  rw [h.ref,count_pos]

/-- Change an entry but not the inode it is for. -/
theorem Stable.put (h : Stable n s K H L) (hinum : x.inum = (s.itable ip).inum)
    (href : x.ref = (K+H').count ip)
    (hcount : ∀ jp ≠ ip, (K+H').count jp = (K+H).count jp) (hsub : ip ∈ K+H' → ip ∈ K+H)
    (hvalid : x.valid = true → (s.nodeOf ip).type ≠ 0)
    (hlock : L' = update L ip x.locked)
    (hheld : x.locked = true → ip ∈ K+H' ∧ x.valid = true)
    (hfirm : (s.itable ip).valid = true → ip ∈ K+H → (s.nodeOf ip).nlink = 0 →
      ip ∈ K+H' ∧ x.valid = true) : Stable n (s.put ip x) K H' L' := by
  have hmem (jp : Fin NINODE) (hj : jp ∈ K+H') : jp ∈ K+H := by
    by_cases hji : jp = ip
    · exact hji ▸ hsub (hji ▸ hj)
    · rwa [← count_pos,hcount jp hji,count_pos] at hj
  have hinum' (jp : Fin NINODE) : ((s.put ip x).itable jp).inum = (s.itable jp).inum := by
    by_cases hji : jp = ip
    · rw [hji,Store.put_self,hinum]
    · rw [Store.put_other hji]
  have hnode (jp : Fin NINODE) : (s.put ip x).nodeOf jp = s.nodeOf jp := by
    rw [Store.nodeOf,Store.nodeOf,hinum',Store.put_node]
  refine ⟨fun jp => ?_,fun jp hj => ?_,fun jp hj kp hk heq => ?_,fun jp hj => ?_,
    fun jp hj hv => ?_,fun jp => ?_,fun jp hl => ?_,fun i hi hz => ?_⟩
  · by_cases hji : jp = ip
    · rw [hji,Store.put_self,href]
    · rw [Store.put_other hji,hcount jp hji,h.ref]
  · exact hinum' jp ▸ h.inum jp (hmem jp hj)
  · rw [hinum',hinum'] at heq
    exact h.unique jp (hmem jp hj) kp (hmem kp hk) heq
  · exact hnode jp ▸ h.alive jp hj
  · rw [hnode]
    by_cases hji : jp = ip
    · rw [hji,Store.put_self] at hv
      exact hji ▸ hvalid hv
    · rw [Store.put_other hji] at hv
      exact h.valid jp (hmem jp hj) hv
  · by_cases hji : jp = ip
    · rw [hji,Store.put_self,hlock,update_self]
    · rw [Store.put_other hji,hlock,update_of_ne hji,h.lock]
  · by_cases hji : jp = ip
    · rw [hji,Store.put_self]
      rw [hlock,hji,update_self] at hl
      exact hheld hl
    · rw [hlock,update_of_ne hji] at hl
      rw [Store.put_other hji,← count_pos,hcount jp hji,count_pos]
      exact h.held jp hl
  · obtain ⟨jp,hj,heq,hv⟩ := h.firm i hi hz
    by_cases hji : jp = ip
    · subst hji
      obtain ⟨hin,hxv⟩ := hfirm hv hj (by rw [Store.nodeOf,heq]; exact hz)
      exact ⟨jp,hin,by rw [hinum',heq],by rw [Store.put_self,hxv]⟩
    · refine ⟨jp,?_,by rw [hinum',heq],by rw [Store.put_other hji,hv]⟩
      rwa [← count_pos,hcount jp hji,count_pos]

/-- Change an inode whose entry is locked. -/
theorem Stable.write {y : Node} (h : Stable n s K H L) (hl : L ip = true) (hy : y.type ≠ 0) :
    Stable n (s.setNode (s.itable ip).inum y) K H L := by
  obtain ⟨hin,hv⟩ := h.held ip hl
  have hnode (jp : Fin NINODE) (hj : (s.nodeOf jp).type ≠ 0) :
      ((s.setNode (s.itable ip).inum y).nodeOf jp).type ≠ 0 := by
    by_cases heq : (s.itable jp).inum = (s.itable ip).inum
    · rw [Store.nodeOf,Store.setNode_itable,heq,Store.setNode_self]
      exact hy
    · rw [Store.nodeOf,Store.setNode_itable,Store.setNode_other heq]
      exact hj
  refine ⟨h.ref,h.inum,h.unique,fun jp hj => hnode jp (h.alive jp hj),
    fun jp hj hv => hnode jp (h.valid jp hj hv),h.lock,h.held,fun i hi hz => ?_⟩
  by_cases heq : i = (s.itable ip).inum
  · exact ⟨ip,hin,heq.symm,hv⟩
  · rw [Live,Store.setNode_other heq] at hi
    rw [Store.setNode_other heq] at hz
    exact h.firm i hi hz

theorem count_self (K H : Multiset (Fin NINODE)) (ip : Fin NINODE) :
    (K+ip ::ₘ H).count ip = (K+H).count ip+1 := by
  rw [add_cons,count_cons_self]

theorem count_other {jp : Fin NINODE} (h : jp ≠ ip) (K H : Multiset (Fin NINODE)) :
    (K+ip ::ₘ H).count jp = (K+H).count jp := by
  rw [add_cons,count_cons_of_ne h]

theorem mem_self (K H : Multiset (Fin NINODE)) (ip : Fin NINODE) : ip ∈ K+ip ::ₘ H := by
  rw [add_cons]
  exact mem_cons_self ..

theorem mem_more {jp : Fin NINODE} (h : jp ∈ K+H) : jp ∈ K+ip ::ₘ H := by
  rw [add_cons]
  exact mem_cons_of_mem h

theorem mem_fewer {jp : Fin NINODE} (hne : jp ≠ ip) (h : jp ∈ K+ip ::ₘ H) : jp ∈ K+H := by
  rw [add_cons] at h
  exact (mem_cons.mp h).resolve_left hne

/-- One more reference to an entry in use. -/
theorem Stable.dup (h : Stable n s K H L) (hin : ip ∈ K+H) :
    Stable n (s.put ip { s.itable ip with ref := (s.itable ip).ref+1 }) K (ip ::ₘ H) L := by
  refine h.put rfl ?_ (fun jp hj => count_other hj K H) (fun _ => hin) (h.valid ip hin) ?_
    (fun hl => ⟨mem_self K H ip,(h.held ip (h.lock ip ▸ hl)).2⟩) fun hv _ _ => ⟨mem_self K H ip,hv⟩
  · rw [count_self,← h.ref]
  · rw [h.lock,update_eq_self]

/-- The first reference, to an inode not in the table. -/
theorem Stable.fresh {i : ℕ} (h : Stable n s K H L) (hi : IsInum n i)
    (hz : (s.itable ip).ref = 0) (hnew : ∀ jp ∈ K+H, (s.itable jp).inum ≠ i) :
    Stable n (s.put ip { s.itable ip with inum := i, ref := 1, valid := false }) K (ip ::ₘ H) L := by
  have hout : ip ∉ K+H := fun hin => by
    have := h.ref_pos.mpr hin
    omega
  have hne {jp : Fin NINODE} (hj : jp ∈ K+H) : jp ≠ ip := fun hji => hout (hji ▸ hj)
  have hnode {jp : Fin NINODE} (hj : jp ≠ ip) : (s.put ip
      { s.itable ip with inum := i, ref := 1, valid := false }).nodeOf jp = s.nodeOf jp := by
    rw [Store.nodeOf,Store.put_other hj]
    rfl
  refine ⟨fun jp => ?_,fun jp hj => ?_,fun jp hj kp hk heq => ?_,fun jp hj => ?_,
    fun jp hj hv => ?_,fun jp => ?_,fun jp hl => ?_,fun j hj hjz => ?_⟩
  · by_cases hji : jp = ip
    · rw [hji,Store.put_self,count_self,← h.ref,hz]
    · rw [Store.put_other hji,count_other hji,h.ref]
  · by_cases hji : jp = ip
    · rw [hji,Store.put_self]
      exact hi
    · rw [Store.put_other hji]
      exact h.inum jp (mem_fewer hji hj)
  · by_cases hji : jp = ip
    · by_cases hki : kp = ip
      · rw [hji,hki]
      · rw [hji,Store.put_self,Store.put_other hki] at heq
        exact absurd heq.symm (hnew kp (mem_fewer hki hk))
    · by_cases hki : kp = ip
      · rw [hki,Store.put_self,Store.put_other hji] at heq
        exact absurd heq (hnew jp (mem_fewer hji hj))
      · rw [Store.put_other hji,Store.put_other hki] at heq
        exact h.unique jp (mem_fewer hji hj) kp (mem_fewer hki hk) heq
  · rw [hnode (hne (mem_add.mpr (.inl hj)))]
    exact h.alive jp hj
  · by_cases hji : jp = ip
    · rw [hji,Store.put_self] at hv
      exact absurd hv Bool.false_ne_true
    · rw [Store.put_other hji] at hv
      rw [hnode hji]
      exact h.valid jp (mem_fewer hji hj) hv
  · by_cases hji : jp = ip
    · rw [hji,Store.put_self,← h.lock]
    · rw [Store.put_other hji,h.lock]
  · obtain ⟨hin,hv⟩ := h.held jp hl
    rw [Store.put_other (hne hin)]
    exact ⟨mem_more hin,hv⟩
  · obtain ⟨jp,hin,heq,hv⟩ := h.firm j hj hjz
    refine ⟨jp,mem_more hin,?_,?_⟩
    · rw [Store.put_other (hne hin),heq]
    · rw [Store.put_other (hne hin),hv]

/-- Give back a reference that is not the last one to an inode without links. -/
theorem Stable.drop (h : Stable n s K (ip ::ₘ H) L) (hlast : L ip = true → ip ∈ K+H)
    (hkeep : ¬ ((s.itable ip).ref = 1 ∧ (s.itable ip).valid = true ∧ (s.nodeOf ip).nlink = 0)) :
    Stable n (s.put ip { s.itable ip with ref := (s.itable ip).ref-1 }) K H L := by
  have href := h.ref ip
  rw [count_self] at href
  refine h.put rfl ?_ (fun jp hj => (count_other hj K H).symm) (fun _ => mem_self K H ip)
    (h.valid ip (mem_self K H ip)) ?_
    (fun hl => ⟨hlast (h.lock ip ▸ hl),(h.held ip (h.lock ip ▸ hl)).2⟩) fun hv _ hz => ⟨?_,hv⟩
  · simp only [href]
    omega
  · rw [h.lock,update_eq_self]
  · rw [← count_pos]
    by_contra hc
    exact hkeep ⟨by omega,hv,hz⟩

/-- Free the inode with the last reference to it. -/
theorem Stable.free (h : Stable n s K (ip ::ₘ H) L) (hl : L ip = false) (hone : (s.itable ip).ref = 1) :
    Stable n ((s.setNode (s.itable ip).inum .free).put ip
      { s.itable ip with ref := 0, valid := false }) K H L := by
  have href := h.ref ip
  rw [count_self] at href
  have hout : ip ∉ K+H := fun hin => by
    have := count_pos.mpr hin
    omega
  have hne {jp : Fin NINODE} (hj : jp ∈ K+H) : jp ≠ ip := fun hji => hout (hji ▸ hj)
  have hinum {jp : Fin NINODE} (hj : jp ∈ K+H) : (s.itable jp).inum ≠ (s.itable ip).inum :=
    fun heq => hne hj (h.unique jp (mem_more hj) ip (mem_self K H ip) heq)
  have hnode {jp : Fin NINODE} (hj : jp ∈ K+H) : ((s.setNode (s.itable ip).inum .free).put ip
      { s.itable ip with ref := 0, valid := false }).nodeOf jp = s.nodeOf jp := by
    rw [Store.nodeOf,Store.put_other (hne hj),Store.put_node,Store.setNode_itable,
      Store.setNode_other (hinum hj)]
    rfl
  refine ⟨fun jp => ?_,fun jp hj => ?_,fun jp hj kp hk heq => ?_,fun jp hj => ?_,
    fun jp hj hv => ?_,fun jp => ?_,fun jp hl => ?_,fun j hj hjz => ?_⟩
  · by_cases hji : jp = ip
    · rw [hji,Store.put_self]
      exact (count_eq_zero.mpr hout).symm
    · rw [Store.put_other hji,Store.setNode_itable,h.ref,count_other hji]
  · rw [Store.put_other (hne hj)]
    exact h.inum jp (mem_more hj)
  · rw [Store.put_other (hne hj),Store.put_other (hne hk)] at heq
    exact h.unique jp (mem_more hj) kp (mem_more hk) heq
  · rw [hnode (mem_add.mpr (.inl hj))]
    exact h.alive jp hj
  · rw [Store.put_other (hne hj)] at hv
    rw [hnode hj]
    exact h.valid jp (mem_more hj) hv
  · by_cases hji : jp = ip
    · rw [hji,Store.put_self,← h.lock]
    · rw [Store.put_other hji,Store.setNode_itable,h.lock]
  · obtain ⟨hin,hv⟩ := h.held jp hl
    have hji : jp ≠ ip := by
      rintro rfl
      simp_all
    rw [Store.put_other hji]
    exact ⟨mem_fewer hji hin,hv⟩
  · rw [Store.put_node] at hj hjz
    have hji : j ≠ (s.itable ip).inum := by
      rintro rfl
      simp [Live,Node.free] at hj
    rw [Live,Store.setNode_other hji] at hj
    rw [Store.setNode_other hji] at hjz
    obtain ⟨jp,hin,heq,hv⟩ := h.firm j hj hjz
    have hjp : jp ≠ ip := fun hjp => hji (hjp ▸ heq.symm)
    refine ⟨jp,mem_fewer hjp hin,?_,?_⟩
    · rw [Store.put_other hjp,Store.setNode_itable,heq]
    · rw [Store.put_other hjp,Store.setNode_itable,hv]

end Stable

/-! Operations. -/

/-- From `s` to `t` the tables of processes and files stay, and so do the entries of `R`. -/
structure Carries (R : Multiset (Fin NINODE)) (s t : Sys Store) : Prop where
  ps : t.ps = s.ps
  inum : ∀ ip ∈ R, (t.fs.itable ip).inum = (s.fs.itable ip).inum

/-- The inodes stay as well. -/
structure Same (R : Multiset (Fin NINODE)) (s t : Sys Store) : Prop extends Carries R s t where
  node : t.fs.node = s.fs.node

section Carries

variable {R R' : Multiset (Fin NINODE)} {s t u : Sys Store} {ip : Fin NINODE}

theorem Carries.mono (h : Carries R' s t) (hsub : R ⊆ R') : Carries R s t :=
  ⟨h.ps,fun ip hip => h.inum ip (hsub hip)⟩

theorem Carries.trans (h : Carries R s t) (h' : Carries R t u) : Carries R s u :=
  ⟨h'.ps.trans h.ps,fun ip hip => (h'.inum ip hip).trans (h.inum ip hip)⟩

theorem Same.refl (R : Multiset (Fin NINODE)) (s : Sys Store) : Same R s s :=
  ⟨⟨rfl,fun _ _ => rfl⟩,rfl⟩

theorem Same.mono (h : Same R' s t) (hsub : R ⊆ R') : Same R s t := ⟨h.toCarries.mono hsub,h.node⟩

theorem Same.trans (h : Same R s t) (h' : Same R t u) : Same R s u :=
  ⟨h.toCarries.trans h'.toCarries,h'.node.trans h.node⟩

theorem subset_more (K H : Multiset (Fin NINODE)) (ip : Fin NINODE) : K+H ⊆ K+ip ::ₘ H :=
  fun _ => mem_more

theorem Same.nodeOf (h : Same R s t) (hip : ip ∈ R) : t.fs.nodeOf ip = s.fs.nodeOf ip := by
  rw [Store.nodeOf,Store.nodeOf,h.node,h.inum ip hip]

end Carries

section Operations

variable {n i : ℕ} {s : Sys Store} {K H : Multiset (Fin NINODE)} {L : Fin NINODE → Bool}
  {ip : Fin NINODE} {E : Panic → Prop}

theorem same_put {x : Entry} (hx : ip ∈ K+H → x.inum = (s.fs.itable ip).inum) :
    Same (K+H) s { s with fs := s.fs.put ip x } := by
  refine ⟨⟨rfl,fun jp hj => ?_⟩,rfl⟩
  by_cases hji : jp = ip
  · subst hji
    exact (congrArg Entry.inum (Store.put_self ..)).trans (hx hj)
  · exact congrArg Entry.inum (Store.put_other hji)

/-- References `R` leave `k` entries of the table unused, unless a full table is expected. -/
def Room (E : Panic → Prop) (R : Multiset (Fin NINODE)) (k : ℕ) : Prop :=
  E .noInodes ∨ R.toFinset.card + k ≤ NINODE

theorem Room.fewer {R : Multiset (Fin NINODE)} {j k : ℕ} (h : Room E R k) (hjk : j ≤ k) : Room E R j :=
  h.imp_right fun hle => (Nat.add_le_add_left hjk _).trans hle

theorem Room.more {k : ℕ} (h : Room E (K+H) (k+1)) (ip : Fin NINODE) :
    Room E (K+ip ::ₘ H) k := by
  refine h.imp_right fun hle => ?_
  have hcard := Finset.card_insert_le ip (K+H).toFinset
  rw [add_cons,toFinset_cons]
  omega

/-- The table is full only if all entries are referenced. -/
theorem Stable.full {s : Store} (h : Stable n s K H L) (hroom : Room E (K+H) 1)
    (he : s.emptyEntry = none) : E .noInodes := by
  refine hroom.resolve_right fun hle => ?_
  have hall : (K+H).toFinset = Finset.univ := by
    refine Finset.eq_univ_iff_forall.mpr fun ip => mem_toFinset.mpr (h.ref_pos.mp ?_)
    have hip := List.find?_eq_none.mp he ip (List.mem_finRange ip)
    exact Nat.pos_of_ne_zero fun hz => hip (decide_eq_true hz)
  rw [hall,Finset.card_univ,Fintype.card_fin] at hle
  omega

theorem Stable.iget (h : Stable n s.fs K H L) (hi : IsInum n i) (hroom : Room E (K+H) 1) :
    Does n (iget i) s (fun ip t => Stable n t.fs K (ip ::ₘ H) L ∧ Same (K+H) s t ∧
      (t.fs.itable ip).inum = i) E := by
  cases hf : s.fs.findEntry i with
  | some ip =>
    have hfound := List.find?_some hf
    obtain ⟨hpos,heq⟩ := of_decide_eq_true hfound
    refine does_inode (c := .iget i) (Store.iget_found hf) ⟨h.dup (h.ref_pos.mp hpos),
      same_put fun _ => rfl,?_⟩
    exact (congrArg Entry.inum (Store.put_self ..)).trans heq
  | none =>
    have hnone : ∀ jp ∈ K+H, (s.fs.itable jp).inum ≠ i := fun jp hj heq => by
      have := List.find?_eq_none.mp hf jp (List.mem_finRange jp)
      exact this (decide_eq_true ⟨h.ref_pos.mpr hj,heq⟩)
    cases he : s.fs.emptyEntry with
    | some ip =>
      have hempty := List.find?_some he
      have hz : (s.fs.itable ip).ref = 0 := of_decide_eq_true hempty
      refine does_inode (c := .iget i) (Store.iget_new hf he) ⟨h.fresh hi hz hnone,
        same_put fun hin => ?_,congrArg Entry.inum (Store.put_self ..)⟩
      have := h.ref_pos.mpr hin
      omega
    | none => exact stops_inode (c := .iget i) (Store.iget_full hf he) (h.full hroom he)

theorem Stable.idup (h : Stable n s.fs K H L) (hin : ip ∈ K+H) :
    Does n (idup ip) s (fun _ t => Stable n t.fs K (ip ::ₘ H) L ∧ Same (K+H) s t) E :=
  does_inode (c := .idup ip) rfl ⟨h.dup hin,same_put fun _ => rfl⟩

theorem Stable.ilock (h : Stable n s.fs K H L) (hin : ip ∈ K+H) (hdead : E .deadlock)
    (htype : (s.fs.nodeOf ip).type ≠ 0 ∨ E .noType) :
    Does n (ilock ip) s (fun _ t => L ip = false ∧ Stable n t.fs K H (update L ip true) ∧
      Same (K+H) s t ∧ (s.fs.nodeOf ip).type ≠ 0) E := by
  have href := h.ref_pos.mpr hin
  cases hl : (s.fs.itable ip).locked with
  | true => exact stops_inode (c := .ilock ip) (Store.ilock_deadlock href hl) hdead
  | false =>
    by_cases hz : (s.fs.itable ip).valid = false ∧ (s.fs.nodeOf ip).type = 0
    · exact stops_inode (c := .ilock ip) (Store.ilock_noType href hl hz)
        (htype.resolve_left fun hne => hne hz.2)
    · have ht : (s.fs.nodeOf ip).type ≠ 0 := fun ht => by
        cases hv : (s.fs.itable ip).valid with
        | true => exact h.valid ip hin hv ht
        | false => exact hz ⟨hv,ht⟩
      refine does_inode (c := .ilock ip) (Store.ilock_ok href hl hz)
        ⟨h.lock ip ▸ hl,?_,same_put fun _ => rfl,ht⟩
      exact h.put rfl (h.ref ip) (fun _ _ => rfl) id (fun _ => ht) rfl (fun _ => ⟨hin,rfl⟩)
        fun _ _ _ => ⟨hin,rfl⟩

theorem Stable.iunlock (h : Stable n s.fs K H L) (hl : L ip = true) :
    Does n (iunlock ip) s (fun _ t => Stable n t.fs K H (update L ip false) ∧
      Same (K+H) s t) E := by
  obtain ⟨hin,hv⟩ := h.held ip hl
  refine does_inode (c := .iunlock ip)
    (Store.iunlock_ok (h.ref_pos.mpr hin) ((h.lock ip).trans hl)) ⟨?_,same_put fun _ => rfl⟩
  exact h.put rfl (h.ref ip) (fun _ _ => rfl) id (h.valid ip hin) rfl
    (fun hf => absurd hf Bool.false_ne_true) fun hv _ _ => ⟨hin,hv⟩

/-- `iput` frees an inode without links with the last reference, and does nothing else to
the inodes. -/
def Dropped (ip : Fin NINODE) (s t : Sys Store) : Prop :=
  t.fs.node = s.fs.node ∨ ((s.fs.nodeOf ip).nlink = 0 ∧
    t.fs.node = update s.fs.node (s.fs.itable ip).inum .free)

theorem Stable.iput (h : Stable n s.fs K (ip ::ₘ H) L) (hl : L ip = false) :
    Does n (iput ip) s (fun _ t => Stable n t.fs K H L ∧ Carries (K+H) s t ∧ Dropped ip s t) E := by
  by_cases hc : (s.fs.itable ip).ref = 1 ∧ (s.fs.itable ip).valid = true ∧ (s.fs.nodeOf ip).nlink = 0
  · refine does_inode (c := .iput ip) (Store.iput_free hc ((h.lock ip).trans hl))
      ⟨h.free hl hc.1,⟨rfl,fun jp _ => ?_⟩,.inr ⟨hc.2.2,rfl⟩⟩
    by_cases hji : jp = ip
    · rw [hji]
      exact (congrArg Entry.inum (Store.put_self ..)).trans rfl
    · exact congrArg Entry.inum (Store.put_other hji)
  · exact does_inode (c := .iput ip) (Store.iput_keep hc)
      ⟨h.drop (fun ht => by simp [hl] at ht) hc,Same.toCarries (same_put fun _ => rfl),.inl rfl⟩

/-- Every inode without links is referenced by `R`. -/
def Firm (n : ℕ) (s : Sys Store) (R : Multiset (Fin NINODE)) : Prop :=
  ∀ i, Live n s.fs.node i → (s.fs.node i).nlink = 0 → ∃ ip ∈ R, (s.fs.itable ip).inum = i

theorem Stable.firm' (h : Stable n s.fs K H L) : Firm n s (K+H) := fun i hi hz =>
  let ⟨ip,hin,heq,_⟩ := h.firm i hi hz
  ⟨ip,hin,heq⟩

theorem Same.firm {t : Sys Store} {R : Multiset (Fin NINODE)} (h : Same R s t) (hf : Firm n s R) :
    Firm n t R := by
  intro i hi hz
  rw [h.node] at hi hz
  obtain ⟨ip,hin,heq⟩ := hf i hi hz
  exact ⟨ip,hin,by rw [h.inum ip hin,heq]⟩

/-- Nothing is freed when the references that remain cover every inode without links. -/
theorem Stable.iput_same (h : Stable n s.fs K (ip ::ₘ H) L) (hl : L ip = true → ip ∈ K+H)
    (hf : Firm n s (K+H)) :
    Does n (Names.iput ip) s (fun _ t => Stable n t.fs K H L ∧ Same (K+H) s t) E := by
  have hc : ¬ ((s.fs.itable ip).ref = 1 ∧ (s.fs.itable ip).valid = true ∧
      (s.fs.nodeOf ip).nlink = 0) := by
    rintro ⟨hone,hv,hz⟩
    have hin := mem_self K H ip
    obtain ⟨jp,hj,heq⟩ := hf _ ⟨h.inum ip hin,h.valid ip hin hv⟩ hz
    obtain rfl := h.unique jp (mem_more hj) ip hin heq
    have href := h.ref jp
    rw [count_self] at href
    have := count_pos.mpr hj
    omega
  exact does_inode (c := .iput ip) (Store.iput_keep hc) ⟨h.drop hl hc,same_put fun _ => rfl⟩

theorem Firm.mono {R R' : Multiset (Fin NINODE)} (h : Firm n s R) (hsub : R ⊆ R') : Firm n s R' :=
  fun i hi hz => let ⟨ip,hin,heq⟩ := h i hi hz; ⟨ip,hsub hin,heq⟩

theorem Stable.iunlockput (h : Stable n s.fs K (ip ::ₘ H) L) (hl : L ip = true) :
    Does n (iunlockput ip) s (fun _ t => Stable n t.fs K H (update L ip false) ∧
      Carries (K+H) s t ∧ Dropped ip s t) E := by
  refine (h.iunlock hl).bind fun _ t ht => ?_
  refine (ht.1.iput (update_self ..)).mono fun _ u hu => ⟨hu.1,?_,?_⟩
  · exact (ht.2.toCarries.mono (subset_more K H ip)).trans hu.2.1
  · have hu := hu.2.2
    rwa [Dropped,ht.2.node,ht.2.nodeOf (mem_self K H ip),ht.2.inum ip (mem_self K H ip)] at hu

theorem Stable.iunlockput_same (h : Stable n s.fs K (ip ::ₘ H) L) (hl : L ip = true)
    (hf : Firm n s (K+H)) :
    Does n (Names.iunlockput ip) s (fun _ t => Stable n t.fs K H (update L ip false) ∧
      Same (K+H) s t) E := by
  refine (h.iunlock hl).bind fun _ t ht => ?_
  have hsame := ht.2.mono (subset_more K H ip)
  refine (ht.1.iput_same (fun hf => ?_) (hsame.firm hf)).mono fun _ u hu => ⟨hu.1,hsame.trans hu.2⟩
  rw [update_self] at hf
  exact absurd hf Bool.false_ne_true

/-! Reading and writing a locked inode. -/

theorem Stable.holds (h : Stable n s.fs K H L) (hl : L ip = true) : s.fs.Held ip :=
  ⟨h.ref_pos.mpr (h.held ip hl).1,(h.lock ip).trans hl,(h.held ip hl).2⟩

theorem Stable.nodeOf_type (h : Stable n s.fs K H L) (hl : L ip = true) :
    (s.fs.nodeOf ip).type ≠ 0 := h.valid ip (h.held ip hl).1 (h.held ip hl).2

/-- What `stat` returns. -/
def statOf (s : Sys Store) (ip : Fin NINODE) : Stat where
  inum := (s.fs.itable ip).inum
  type := (s.fs.nodeOf ip).type
  major := (s.fs.nodeOf ip).major
  minor := (s.fs.nodeOf ip).minor
  nlink := (s.fs.nodeOf ip).nlink

theorem Stable.stat (h : Stable n s.fs K H L) (hl : L ip = true) :
    Does n (stat ip) s (fun st t => st = statOf s ip ∧ t = s) E := by
  have hr : Store.stat ip s.fs = .ok (statOf s ip,s.fs) := by
    rw [Store.stat,if_pos (h.holds hl)]
    rfl
  exact does_inode (c := .stat ip) hr ⟨rfl,rfl⟩

theorem Stable.size (h : Stable n s.fs K H L) (hl : L ip = true)
    (hd : (s.fs.nodeOf ip).type = T_DIR) :
    Does n (size ip) s (fun r t => r = DESIZE*(s.fs.nodeOf ip).entries.length ∧ t = s) E := by
  have hr : Store.size ip s.fs = .ok (DESIZE*(s.fs.nodeOf ip).entries.length,s.fs) := by
    rw [Store.size,if_pos ⟨h.holds hl,hd⟩]
  exact does_inode (c := .size ip) hr ⟨rfl,rfl⟩

theorem Stable.readi {k : ℕ} (h : Stable n s.fs K H L) (hl : L ip = true)
    (hd : (s.fs.nodeOf ip).type = T_DIR) :
    Does n (readi ip k) s (fun r t => r = (s.fs.nodeOf ip).entries[k]? ∧ t = s) E := by
  have hr : Store.readi ip k s.fs = .ok ((s.fs.nodeOf ip).entries[k]?,s.fs) := by
    rw [Store.readi,if_pos ⟨h.holds hl,hd⟩]
  exact does_inode (c := .readi ip k) hr ⟨rfl,rfl⟩

/-- The inode of `ip` becomes `y`. -/
structure Wrote (ip : Fin NINODE) (y : Node) (s t : Sys Store) : Prop where
  ps : t.ps = s.ps
  itable : t.fs.itable = s.fs.itable
  node : t.fs.node = update s.fs.node (s.fs.itable ip).inum y

theorem Wrote.carries {t : Sys Store} {y : Node} (h : Wrote ip y s t)
    (R : Multiset (Fin NINODE)) : Carries R s t := ⟨h.ps,fun jp _ => by rw [h.itable]⟩

theorem Wrote.nodeOf {t : Sys Store} {y : Node} (h : Wrote ip y s t) : t.fs.nodeOf ip = y := by
  rw [Store.nodeOf,h.itable,h.node,update_self]

theorem Stable.congr {t : Store} (h : Stable n s.fs K H L) (hi : t.itable = s.fs.itable)
    (hn : t.node = s.fs.node) : Stable n t K H L := by
  obtain ⟨a,b,c,d,e,f,g,k⟩ := h
  have hnode (ip : Fin NINODE) : t.nodeOf ip = s.fs.nodeOf ip := by
    rw [Store.nodeOf,Store.nodeOf,hi,hn]
  simp only [← hi,← hn,← hnode] at a b c d e f g k
  exact ⟨a,b,c,d,e,f,g,k⟩

theorem Stable.wrote {t : Sys Store} {y : Node} (h : Stable n s.fs K H L) (hl : L ip = true)
    (hy : y.type ≠ 0) (hw : Wrote ip y s t) : Stable n t.fs K H L :=
  Stable.congr (s := { s with fs := s.fs.setNode (s.fs.itable ip).inum y }) (h.write hl hy)
    hw.itable hw.node

theorem Stable.iupdate {major minor : UInt16} {nlink : ℕ} (h : Stable n s.fs K H L)
    (hl : L ip = true) : Does n (iupdate ip major minor nlink) s (fun _ t => Wrote ip
      { s.fs.nodeOf ip with major := major, minor := minor, nlink := nlink % 2^16 } s t) E := by
  have hr : Store.iupdate ip major minor nlink s.fs = .ok ((),_) := if_pos (h.holds hl)
  exact does_inode (c := .iupdate ip major minor nlink) hr ⟨rfl,rfl,rfl⟩

theorem Stable.itrunc (h : Stable n s.fs K H L) (hl : L ip = true) :
    Does n (itrunc ip) s (fun _ t => Wrote ip { s.fs.nodeOf ip with entries := [] } s t) E := by
  have hr : Store.itrunc ip s.fs = .ok ((),_) := if_pos (h.holds hl)
  exact does_inode (c := .itrunc ip) hr ⟨rfl,rfl,rfl⟩

/-- Writing an entry that is there succeeds; writing the next one may fail. -/
theorem Stable.writei {k : ℕ} {de : Dirent} (h : Stable n s.fs K H L) (hl : L ip = true)
    (hd : (s.fs.nodeOf ip).type = T_DIR) (hk : k ≤ (s.fs.nodeOf ip).entries.length) :
    Does n (writei ip k de) s (fun r t => Stable n t.fs K H L ∧
      ((r = true ∧ Wrote ip ((s.fs.nodeOf ip).enter k de) s t) ∨
        (r = false ∧ k = (s.fs.nodeOf ip).entries.length ∧ Same (K+H) s t))) E := by
  have hc : s.fs.Held ip ∧ (s.fs.nodeOf ip).type = T_DIR := ⟨h.holds hl,hd⟩
  have hy : ((s.fs.nodeOf ip).enter k de).type ≠ 0 := h.nodeOf_type hl
  by_cases hlt : k < (s.fs.nodeOf ip).entries.length
  · have hr : Store.writei ip k de s.fs = .ok (true,_) := (if_pos hc).trans (if_pos hlt)
    exact does_inode (c := .writei ip k de) hr
      ⟨h.wrote hl hy ⟨rfl,rfl,rfl⟩,.inl ⟨rfl,⟨rfl,rfl,rfl⟩⟩⟩
  · by_cases hluck : k = (s.fs.nodeOf ip).entries.length ∧ s.fs.luck.headD true = true
    · have hr : Store.writei ip k de s.fs = .ok (true,_) :=
        (if_pos hc).trans ((if_neg hlt).trans (if_pos hluck))
      exact does_inode (c := .writei ip k de) hr
        ⟨h.wrote hl hy ⟨rfl,rfl,rfl⟩,.inl ⟨rfl,⟨rfl,rfl,rfl⟩⟩⟩
    · have hr : Store.writei ip k de s.fs = .ok (false,_) :=
        (if_pos hc).trans ((if_neg hlt).trans (if_neg hluck))
      exact does_inode (c := .writei ip k de) hr
        ⟨h.congr rfl rfl,.inr ⟨rfl,by omega,⟨⟨rfl,fun _ _ => rfl⟩,rfl⟩⟩⟩

end Operations

end Names
end Xv6
