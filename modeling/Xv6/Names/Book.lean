import Mathlib.Data.Multiset.AddSub
import Xv6.Lib.Count
import Xv6.Lib.Effect
import Xv6.Names.Code

/-! What the code on names does to references and locks, whatever the inodes hold.  The
contracts of the inode operations speak of the references taken so far and of the locks held;
every function is shown to give back what it does not return. -/
namespace Xv6
namespace Names

open Function Multiset
open Fs (NINODE Panic)
open Free (Safe)

/-- The references to inodes that are out, the locks that are held, and the tables. -/
structure Book where
  refs : Multiset (Fin NINODE)
  held : Fin NINODE → Bool
  ps : Procs

namespace Book

/-- An inode is looked at and changed only under its lock, and only a reference that is out is
used or given back.  The code follows no null pointer, and it is `ilock` that finds an inode
without a type and `iget` that finds the table full. -/
def pre : Cmd → Book → Prop
  | .inode c, t =>
    match c with
    | .iget _ | .ialloc _ => True
    | .idup ip | .ilock ip | .iput ip => ip ∈ t.refs
    | .iunlock ip | .itrunc ip | .stat ip | .size ip | .iupdate ip _ _ _ | .readi ip _
    | .writei ip _ _ | .readu ip _ _ _ | .writeu ip _ _ _ => ip ∈ t.refs ∧ t.held ip = true
  | .procs, _ | .setProcs _, _ => True
  | .panic e, _ => e ≠ .misuse ∧ e ≠ .noType ∧ e ≠ .noInodes

def post : (c : Cmd) → c.Result → Book → Book → Prop
  | .inode c, r, t, u =>
    match c, r with
    | .iget _, ip => u = { t with refs := ip ::ₘ t.refs }
    | .idup ip, _ => u = { t with refs := ip ::ₘ t.refs }
    | .iput ip, _ => u = { t with refs := t.refs.erase ip }
    | .ialloc _, none => u = t
    | .ialloc _, some ip => u = { t with refs := ip ::ₘ t.refs }
    | .ilock ip, _ => t.held ip = false ∧ u = { t with held := update t.held ip true }
    | .iunlock ip, _ => u = { t with held := update t.held ip false }
    | .itrunc _, _ | .stat _, _ | .size _, _ | .iupdate _ _ _ _, _ | .readi _ _, _
    | .writei _ _ _, _ | .readu _ _ _ _, _ | .writeu _ _ _ _, _ => u = t
  | .procs, q, t, u => q = t.ps ∧ u = t
  | .setProcs q, _, t, u => u = { t with ps := q }
  | .panic _, _, _, _ => False

def contract : Contract Cmd Cmd.Result Book := ⟨pre,post⟩

end Book

open Book (contract)

variable {R : Multiset (Fin NINODE)} {L : Fin NINODE → Bool} {q : Procs} {ip dp : Fin NINODE}

/-- The commands of code that only copies references and gives them back. -/
def Gives : Cmd → Prop
  | .inode (.idup _) | .inode (.iput _) | .procs | .setProcs _ | .panic _ => True
  | _ => False

/-- The contracts without the other commands. -/
abbrev giving : Contract Cmd Cmd.Result Book := contract.only Gives

section Rules

theorem gives_idup (h : ip ∈ R) : Safe giving (idup ip) ⟨R,L,q⟩ fun _ u => u = ⟨ip ::ₘ R,L,q⟩ :=
  Free.safe_command ⟨trivial,h⟩ fun _ _ hu => hu

theorem gives_iput : Safe giving (iput ip) ⟨ip ::ₘ R,L,q⟩ fun _ u => u = ⟨R,L,q⟩ :=
  Free.safe_command ⟨trivial,mem_cons_self ..⟩ fun _ _ hu =>
    hu.trans (by rw [erase_cons_head])

theorem gives_procs : Safe giving procs ⟨R,L,q⟩ fun r u => r = q ∧ u = ⟨R,L,q⟩ :=
  Free.safe_command ⟨trivial,trivial⟩ fun _ _ hu => hu

theorem gives_setProcs (q' : Procs) : Safe giving (setProcs q') ⟨R,L,q⟩ fun _ u => u = ⟨R,L,q'⟩ :=
  Free.safe_command ⟨trivial,trivial⟩ fun _ _ hu => hu

theorem gives_panic {α : Type} {e : Panic} {t : Book} {Q : α → Book → Prop} 
    (he : e ≠ .misuse ∧ e ≠ .noType ∧ e ≠ .noInodes) :
    Safe giving (panic e) t Q := ⟨⟨trivial,he⟩,fun r => r.elim⟩


theorem safe_iget (inum : ℕ) :
    Safe contract (iget inum) ⟨R,L,q⟩ fun ip u => u = ⟨ip ::ₘ R,L,q⟩ :=
  Free.safe_command trivial fun _ _ hu => hu

theorem safe_ilock (h : ip ∈ R) : Safe contract (ilock ip) ⟨R,L,q⟩
    fun _ u => L ip = false ∧ u = ⟨R,update L ip true,q⟩ :=
  Free.safe_command h fun _ _ hu => hu

theorem safe_iunlock (h : ip ∈ R) (hl : L ip = true) :
    Safe contract (iunlock ip) ⟨R,L,q⟩ fun _ u => u = ⟨R,update L ip false,q⟩ :=
  Free.safe_command ⟨h,hl⟩ fun _ _ hu => hu

theorem safe_ialloc (type : ℕ) : Safe contract (ialloc type) ⟨R,L,q⟩
    fun r u => u = ⟨single r+R,L,q⟩ := by
  refine Free.safe_command trivial fun r u hu => ?_
  cases r with
  | none => exact hu.trans (by rw [single_none_add])
  | some ip => exact hu.trans (by rw [single_some_add])

/-- Operations on a locked inode that move no reference and no lock. -/
def Local (ip : Fin NINODE) : InodeCmd → Prop
  | .itrunc i | .stat i | .size i | .iupdate i _ _ _ | .readi i _ | .writei i _ _
  | .readu i _ _ _ | .writeu i _ _ _ => i = ip
  | _ => False

theorem safe_local {c : InodeCmd} (hc : Local ip c) (h : ip ∈ R) (hl : L ip = true) :
    Safe contract (inode c) ⟨R,L,q⟩ fun _ u => u = ⟨R,L,q⟩ := by
  refine Free.safe_command ?_ ?_ <;> cases c <;> first | exact hc.elim | subst hc
  all_goals first | exact ⟨h,hl⟩ | exact fun _ _ hu => hu

theorem safe_panic {α : Type} {e : Panic} {t : Book} {Q : α → Book → Prop} 
    (he : e ≠ .misuse ∧ e ≠ .noType ∧ e ≠ .noInodes) :
    Safe contract (panic e) t Q := (gives_panic he).of_only

end Rules

/-- A lock that is taken and let go again. -/
theorem relock (h : L ip = false) :
    update (update L ip true) ip false = L := by
  rw [update_idem,← h,update_eq_self]

/-- Of two locks, the one taken first is let go first. -/
theorem relock_first (hne : dp ≠ ip) (h : L dp = false) :
    update (update (update L dp true) ip true) dp false =
      update L ip true := by
  rw [update_comm hne,relock]
  rwa [update_of_ne hne]

theorem ne_of_locked (h : update L dp true ip = false) : dp ≠ ip := by
  rintro rfl
  rw [update_self] at h
  cases h

theorem safe_iunlockput {R' : Multiset (Fin NINODE)} (hR : R = ip ::ₘ R') (hl : L ip = true) :
    Safe contract (iunlockput ip) ⟨R,L,q⟩ fun _ u => u = ⟨R',update L ip false,q⟩ := by
  subst hR
  exact (safe_iunlock (mem_cons_self ..) hl).then fun _ => gives_iput.of_only

section Directories

variable (hm : dp ∈ R) (hl : L dp = true)
include hm hl

theorem safe_stat : Safe contract (stat dp) ⟨R,L,q⟩ fun _ u => u = ⟨R,L,q⟩ :=
  safe_local (c := .stat dp) rfl hm hl

theorem safe_iupdate (major minor : UInt16) (nlink : ℕ) :
    Safe contract (iupdate dp major minor nlink) ⟨R,L,q⟩ fun _ u => u = ⟨R,L,q⟩ :=
  safe_local (c := .iupdate dp major minor nlink) rfl hm hl

theorem safe_readi (k : ℕ) : Safe contract (readi dp k) ⟨R,L,q⟩ fun _ u => u = ⟨R,L,q⟩ :=
  safe_local (c := .readi dp k) rfl hm hl

theorem safe_size : Safe contract (size dp) ⟨R,L,q⟩ fun _ u => u = ⟨R,L,q⟩ :=
  safe_local (c := .size dp) rfl hm hl

theorem safe_writei (k : ℕ) (de : Dirent) :
    Safe contract (writei dp k de) ⟨R,L,q⟩ fun _ u => u = ⟨R,L,q⟩ :=
  safe_local (c := .writei dp k de) rfl hm hl

theorem safe_readu (copyout : ℕ → List UInt8 → Bool) (off n : ℕ) :
    Safe contract (readu dp copyout off n) ⟨R,L,q⟩ fun _ u => u = ⟨R,L,q⟩ :=
  safe_local (c := .readu dp copyout off n) rfl hm hl

theorem safe_writeu (copyin : ℕ → ℕ → List UInt8 × Bool) (off n : ℕ) :
    Safe contract (writeu dp copyin off n) ⟨R,L,q⟩ fun _ u => u = ⟨R,L,q⟩ :=
  safe_local (c := .writeu dp copyin off n) rfl hm hl

theorem incNlink_safe : Safe contract (incNlink dp) ⟨R,L,q⟩ fun _ u => u = ⟨R,L,q⟩ := by
  exact (safe_stat hm hl).then fun st => safe_iupdate hm hl ..

theorem decNlink_safe : Safe contract (decNlink dp) ⟨R,L,q⟩ fun _ u => u = ⟨R,L,q⟩ := by
  exact (safe_stat hm hl).then fun st => safe_iupdate hm hl ..

theorem lookupFrom_safe (name : Str) (n k : ℕ) : Safe contract (lookupFrom dp name n k) ⟨R,L,q⟩
    fun r u => u = ⟨single (r.map (·.1))+R,L,q⟩ := by
  induction n generalizing k with
  | zero => exact Free.safe_pure (by rw [Option.map_none,single_none_add])
  | succ n ih =>
    refine (safe_readi hm hl k).then fun de => ?_
    cases de with
    | none => exact safe_panic (by decide)
    | some de =>
      refine Free.safe_ite (fun _ => ?_) fun _ => ih (k+1)
      exact (safe_iget _).then fun ip => Free.safe_pure (by rw [Option.map_some,single_some_add])

theorem dirlookup_safe (name : Str) : Safe contract (dirlookup dp name) ⟨R,L,q⟩
    fun r u => u = ⟨single (r.map (·.1))+R,L,q⟩ := by
  refine (safe_stat hm hl).then fun st => ?_
  refine Free.safe_ite (fun _ => safe_panic (by decide)) fun _ => ?_
  exact (safe_size hm hl).then fun sz => lookupFrom_safe hm hl name _ 0

theorem emptyFrom_safe (n k : ℕ) :
    Safe contract (emptyFrom dp n k) ⟨R,L,q⟩ fun _ u => u = ⟨R,L,q⟩ := by
  induction n generalizing k with
  | zero => exact Free.safe_pure rfl
  | succ n ih =>
    refine (safe_readi hm hl k).then fun de => ?_
    cases de with
    | none => exact safe_panic (by decide)
    | some de => exact Free.safe_ite (fun _ => Free.safe_pure rfl) fun _ => ih (k+1)

theorem dirlink_safe (name : Str) (inum : ℕ) :
    Safe contract (dirlink dp name inum) ⟨R,L,q⟩ fun _ u => u = ⟨R,L,q⟩ := by
  refine (dirlookup_safe hm hl name).bind ?_
  rintro (_ | ⟨ip,k⟩) _ rfl
  · simp only [Option.map_none,single_none_add]
    refine (safe_size hm hl).then fun sz => ?_
    exact (emptyFrom_safe hm hl _ 0).then fun k => safe_writei hm hl k _
  · simp only [Option.map_some,single_some_add]
    exact gives_iput.of_only.then fun _ => Free.safe_pure rfl

theorem emptyDirFrom_safe (n k : ℕ) :
    Safe contract (emptyDirFrom dp n k) ⟨R,L,q⟩ fun _ u => u = ⟨R,L,q⟩ := by
  induction n generalizing k with
  | zero => exact Free.safe_pure rfl
  | succ n ih =>
    refine (safe_readi hm hl k).then fun de => ?_
    cases de with
    | none => exact safe_panic (by decide)
    | some de => exact Free.safe_ite (fun _ => Free.safe_pure rfl) fun _ => ih (k+1)

theorem isFullDir_safe (type : ℕ) :
    Safe contract (isFullDir dp type) ⟨R,L,q⟩ fun _ u => u = ⟨R,L,q⟩ := by
  refine Free.safe_ite (fun _ => ?_) fun _ => Free.safe_pure rfl
  refine Free.Safe.bind (P := fun _ u => u = ⟨R,L,q⟩) ?_ ?_
  · exact (safe_size hm hl).then fun sz => emptyDirFrom_safe hm hl _ 2
  · rintro empty _ rfl
    exact Free.safe_pure rfl

end Directories

/-! Paths.  A path function starts with one reference and ends with the one it returns. -/

/-- The end of the path. -/
theorem namexEnd_safe (nameiparent : Bool) :
    Safe contract (if nameiparent then do
        iput ip
        pure none
      else pure (some (ip,[])) : Code (Option (Fin NINODE × Str))) ⟨ip ::ₘ R,L,q⟩
      fun r u => u = ⟨single (r.map (·.1))+R,L,q⟩ := by
  refine Free.safe_ite (fun _ => ?_) fun _ => ?_
  · exact gives_iput.of_only.then fun _ => Free.safe_pure (by rw [Option.map_none,single_none_add])
  · exact Free.safe_pure (by rw [Option.map_some,single_some_add])

theorem namexFrom_safe (nameiparent : Bool) (n : ℕ) (path : Str) :
    Safe contract (namexFrom nameiparent n ip path) ⟨ip ::ₘ R,L,q⟩
      fun r u => u = ⟨single (r.map (·.1))+R,L,q⟩ := by
  induction n generalizing ip path with
  | zero =>
    unfold namexFrom
    exact namexEnd_safe nameiparent
  | succ n ih =>
    unfold namexFrom
    cases hs : skipelem path with
    | none => exact namexEnd_safe nameiparent
    | some e =>
      have hmem : ip ∈ ip ::ₘ R := mem_cons_self ..
      refine (safe_ilock hmem).bind ?_
      rintro _ _ ⟨hfree,rfl⟩
      have hl : update L ip true ip = true := update_self ..
      have hput : ∀ {R'}, Safe contract (iunlockput ip) ⟨ip ::ₘ R',update L ip true,q⟩
          fun _ u => u = ⟨R',L,q⟩ := by
        intro R'
        refine (safe_iunlockput rfl hl).mono fun _ u hu => ?_
        rw [hu,relock hfree]
      refine (safe_stat hmem hl).then fun st => ?_
      refine Free.safe_ite (fun _ => ?_) fun _ => Free.safe_ite (fun _ => ?_) fun _ => ?_
      · exact hput.then fun _ => Free.safe_pure (by rw [Option.map_none,single_none_add])
      · refine (safe_iunlock hmem hl).then fun _ => ?_
        exact Free.safe_pure (by rw [relock hfree,Option.map_some,single_some_add])
      · refine (dirlookup_safe hmem hl e.1).bind ?_
        rintro (_ | ⟨next,k⟩) _ rfl
        · simp only [Option.map_none,single_none_add]
          exact hput.then fun _ => Free.safe_pure (by rw [Option.map_none,single_none_add])
        · simp only [Option.map_some,single_some_add]
          rw [cons_swap]
          exact hput.then fun _ => ih e.2

variable {p : Fin NPROC}

/-- Process `p` has a current directory, and its reference is out. -/
def HasCwd (R : Multiset (Fin NINODE)) (q : Procs) (p : Fin NPROC) : Prop :=
  ∃ c ∈ R, (q.proc p).cwd = some c

theorem HasCwd.cons (h : HasCwd R q p) : HasCwd (ip ::ₘ R) q p := by
  obtain ⟨c,hc,heq⟩ := h
  exact ⟨c,mem_cons_of_mem hc,heq⟩

theorem dupCwd_gives (h : HasCwd R q p) :
    Safe giving (dupCwd p) ⟨R,L,q⟩ fun ip u => u = ⟨ip ::ₘ R,L,q⟩ := by
  obtain ⟨c,hc,heq⟩ := h
  refine gives_procs.bind ?_
  rintro _ _ ⟨rfl,rfl⟩
  simp only [heq]
  exact (gives_idup hc).then fun _ => Free.safe_pure rfl

theorem namex_safe (h : HasCwd R q p) (path : Str) (nameiparent : Bool) :
    Safe contract (namex p path nameiparent) ⟨R,L,q⟩
      fun r u => u = ⟨single (r.map (·.1))+R,L,q⟩ := by
  refine Free.Safe.bind (P := fun ip u => u = ⟨ip ::ₘ R,L,q⟩) ?_ ?_
  · exact Free.safe_ite (fun _ => safe_iget _) fun _ => (dupCwd_gives h).of_only
  · rintro ip _ rfl
    exact namexFrom_safe nameiparent _ path

theorem namei_safe (h : HasCwd R q p) (path : Str) :
    Safe contract (namei p path) ⟨R,L,q⟩ fun r u => u = ⟨single r+R,L,q⟩ := by
  exact (namex_safe h path false).then fun r => Free.safe_pure rfl

theorem Procs.begun_ended (q : Procs) : q.begun.ended = q := by
  simp only [Procs.begun,Procs.ended,add_sub_cancel_right]

theorem Procs.ended_begun (q : Procs) : q.ended.begun = q := by
  simp only [Procs.begun,Procs.ended,sub_add_cancel]

theorem beginOp_gives : Safe giving beginOp ⟨R,L,q⟩ fun _ u => u = ⟨R,L,q.begun⟩ := by
  refine gives_procs.bind ?_
  rintro _ _ ⟨rfl,rfl⟩
  exact gives_setProcs _

theorem endOp_gives : Safe giving endOp ⟨R,L,q⟩ fun _ u => u = ⟨R,L,q.ended⟩ := by
  refine gives_procs.bind ?_
  rintro _ _ ⟨rfl,rfl⟩
  exact gives_setProcs _

theorem endWith_safe {α : Type} (r : α) :
    Safe contract (endWith r) ⟨R,L,q.begun⟩ fun _ u => u = ⟨R,L,q⟩ := by
  exact endOp_gives.of_only.then fun _ => Free.safe_pure (by rw [q.begun_ended])

theorem HasCwd.begun (h : HasCwd R q p) : HasCwd R q.begun p := h

/-! System calls on names.  Each one leaves references, locks and tables as they were, and
`create` returns its inode locked. -/

/-- `iunlockput(ip); end_op(); return r` -/
theorem putAndEnd_safe {α : Type} (hf : L ip = false) (r : α) :
    Safe contract (do
        iunlockput ip
        endWith r) ⟨ip ::ₘ R,update L ip true,q.begun⟩ fun _ u => u = ⟨R,L,q⟩ := by
  refine (safe_iunlockput rfl (update_self ..)).then fun _ => ?_
  rw [relock hf]
  exact endWith_safe r

theorem linkBad_safe : Safe contract (linkBad ip) ⟨ip ::ₘ R,L,q.begun⟩ fun _ u => u = ⟨R,L,q⟩ := by
  have hmem : ip ∈ ip ::ₘ R := mem_cons_self ..
  refine (safe_ilock hmem).bind ?_
  rintro _ _ ⟨hfree,rfl⟩
  exact (decNlink_safe hmem (update_self ..)).then fun _ => putAndEnd_safe hfree _

theorem sysLink_safe (h : HasCwd R q p) (old new : Str) :
    Safe contract (sysLink p old new) ⟨R,L,q⟩ fun _ u => u = ⟨R,L,q⟩ := by
  unfold sysLink
  split
  next old new _ _ =>
    refine beginOp_gives.of_only.then fun _ => ?_
    refine (namei_safe h.begun old).bind ?_
    rintro (_ | ip) _ rfl
    · rw [single_none_add]
      exact endWith_safe _
    rw [single_some_add]
    have hmem : ip ∈ ip ::ₘ R := mem_cons_self ..
    refine (safe_ilock hmem).bind ?_
    rintro _ _ ⟨hfree,rfl⟩
    have hl : update L ip true ip = true := update_self ..
    refine (safe_stat hmem hl).then fun st => ?_
    refine Free.safe_ite (fun _ => putAndEnd_safe hfree _) fun _ => ?_
    refine (incNlink_safe hmem hl).then fun _ => ?_
    refine (safe_iunlock hmem hl).then fun _ => ?_
    rw [relock hfree]
    refine (namex_safe h.begun.cons new true).bind ?_
    rintro (_ | ⟨dp,name⟩) _ rfl
    · rw [Option.map_none,single_none_add]
      exact linkBad_safe
    simp only [Option.map_some,single_some_add]
    have hdp : dp ∈ dp ::ₘ ip ::ₘ R := mem_cons_self ..
    refine (safe_ilock hdp).bind ?_
    rintro _ _ ⟨hdfree,rfl⟩
    refine (dirlink_safe hdp (update_self ..) name st.inum).then fun ok => ?_
    refine Free.safe_ite (fun _ => ?_) fun _ => ?_
    all_goals
      refine (safe_iunlockput rfl (update_self ..)).then fun _ => ?_
      rw [relock hdfree]
    · exact gives_iput.of_only.then fun _ => endWith_safe _
    · exact linkBad_safe
  next => exact Free.safe_pure rfl

theorem unlinkEntry_safe (hfree : L dp = false) (k : ℕ) :
    Safe contract (unlinkEntry dp k ip) ⟨ip ::ₘ dp ::ₘ R,update L dp true,q.begun⟩
      fun _ u => u = ⟨R,L,q⟩ := by
  have hmem : ip ∈ ip ::ₘ dp ::ₘ R := mem_cons_self ..
  have hdm : dp ∈ ip ::ₘ dp ::ₘ R := mem_cons_of_mem (mem_cons_self ..)
  refine (safe_ilock hmem).bind ?_
  rintro _ _ ⟨hifree,rfl⟩
  have hne := ne_of_locked hifree
  set M := update (update L dp true) ip true with hM
  have hl : M ip = true := update_self ..
  have hdl : M dp = true := by rw [hM,update_of_ne hne,update_self]
  refine (safe_stat hmem hl).then fun st => ?_
  refine Free.safe_ite (fun _ => safe_panic (by decide)) fun _ => ?_
  refine (isFullDir_safe hmem hl st.type).then fun full => ?_
  refine Free.safe_ite (fun _ => ?_) fun _ => ?_
  · refine (safe_iunlockput rfl hl).then fun _ => ?_
    rw [hM,relock hifree]
    exact putAndEnd_safe hfree _
  refine (safe_writei hdm hdl k ⟨0,[]⟩).then fun ok => ?_
  refine Free.safe_ite (fun _ => ?_) fun _ => safe_panic (by decide)
  refine Free.Safe.bind (P := fun _ u => u = ⟨ip ::ₘ dp ::ₘ R,M,q.begun⟩) ?_ ?_
  · exact Free.safe_ite (fun _ => decNlink_safe hdm hdl) fun _ => Free.safe_pure rfl
  rintro _ _ rfl
  refine (safe_iunlockput (cons_swap ..) hdl).then fun _ => ?_
  rw [hM,relock_first hne hfree]
  have hl' : update L ip true ip = true := update_self ..
  refine (decNlink_safe (mem_cons_self ..) hl').then fun _ => ?_
  exact putAndEnd_safe (by rwa [update_of_ne hne.symm] at hifree) _

theorem sysUnlink_safe (h : HasCwd R q p) (path : Str) :
    Safe contract (sysUnlink p path) ⟨R,L,q⟩ fun _ u => u = ⟨R,L,q⟩ := by
  unfold sysUnlink
  cases argstr path with
  | none => exact Free.safe_pure rfl
  | some path =>
    refine beginOp_gives.of_only.then fun _ => ?_
    refine (namex_safe h.begun path true).bind ?_
    rintro (_ | ⟨dp,name⟩) _ rfl
    · rw [Option.map_none,single_none_add]
      exact endWith_safe _
    simp only [Option.map_some,single_some_add]
    have hmem : dp ∈ dp ::ₘ R := mem_cons_self ..
    refine (safe_ilock hmem).bind ?_
    rintro _ _ ⟨hfree,rfl⟩
    refine Free.safe_ite (fun _ => putAndEnd_safe hfree _) fun _ => ?_
    refine (dirlookup_safe hmem (update_self ..) name).bind ?_
    rintro (_ | ⟨ip,k⟩) _ rfl
    · rw [Option.map_none,single_none_add]
      exact putAndEnd_safe hfree _
    · simp only [Option.map_some,single_some_add]
      exact unlinkEntry_safe hfree k

/-- What `create` leaves behind: the inode it returns is referenced and locked. -/
def Created (R : Multiset (Fin NINODE)) (L : Fin NINODE → Bool) (q : Procs) :
    Option (Fin NINODE) → Book → Prop
  | none, u => u = ⟨R,L,q⟩
  | some ip, u => L ip = false ∧ u = ⟨ip ::ₘ R,update L ip true,q⟩

theorem createFail_safe (hfree : L dp = false) (hifree : update L dp true ip = false) :
    Safe contract (createFail dp ip)
      ⟨ip ::ₘ dp ::ₘ R,update (update L dp true) ip true,q⟩ (Created R L q) := by
  have hmem : ip ∈ ip ::ₘ dp ::ₘ R := mem_cons_self ..
  have hl : update (update L dp true) ip true ip = true :=
    update_self ..
  refine (safe_stat hmem hl).then fun st => ?_
  refine (safe_iupdate hmem hl ..).then fun _ => ?_
  refine (safe_iunlockput rfl hl).then fun _ => ?_
  rw [relock hifree]
  refine (safe_iunlockput rfl (update_self ..)).then fun _ => ?_
  exact Free.safe_pure (by rw [relock hfree]; rfl)

theorem createDots_safe (hifree : update L dp true ip = false) (type : ℕ) :
    Safe contract (createDots dp ip type)
      ⟨ip ::ₘ dp ::ₘ R,update (update L dp true) ip true,q⟩
      fun _ u => u = ⟨ip ::ₘ dp ::ₘ R,update (update L dp true) ip true,q⟩ := by
  have hmem : ip ∈ ip ::ₘ dp ::ₘ R := mem_cons_self ..
  have hdm : dp ∈ ip ::ₘ dp ::ₘ R := mem_cons_of_mem (mem_cons_self ..)
  have hl : update (update L dp true) ip true ip = true :=
    update_self ..
  have hdl : update (update L dp true) ip true dp = true := by
    rw [update_of_ne (ne_of_locked hifree),update_self]
  refine Free.safe_ite (fun _ => ?_) fun _ => Free.safe_pure rfl
  refine (safe_stat hmem hl).then fun st => ?_
  refine (dirlink_safe hmem hl ..).then fun ok => ?_
  refine Free.safe_ite (fun _ => ?_) fun _ => Free.safe_pure rfl
  exact (safe_stat hdm hdl).then fun up => dirlink_safe hmem hl ..

theorem createNew_safe (hfree : L dp = false) (name : Str) (type : ℕ) (major minor : UInt16) :
    Safe contract (createNew dp name type major minor) ⟨dp ::ₘ R,update L dp true,q⟩
      (Created R L q) := by
  refine (safe_ialloc type).bind ?_
  rintro (_ | ip) _ rfl
  · rw [single_none_add]
    refine (safe_iunlockput rfl (update_self ..)).then fun _ => ?_
    exact Free.safe_pure (by rw [relock hfree]; rfl)
  rw [single_some_add]
  have hmem : ip ∈ ip ::ₘ dp ::ₘ R := mem_cons_self ..
  have hdm : dp ∈ ip ::ₘ dp ::ₘ R := mem_cons_of_mem (mem_cons_self ..)
  refine (safe_ilock hmem).bind ?_
  rintro _ _ ⟨hifree,rfl⟩
  have hl : update (update L dp true) ip true ip = true :=
    update_self ..
  have hne := ne_of_locked hifree
  have hdl : update (update L dp true) ip true dp = true := by
    rw [update_of_ne hne,update_self]
  refine (safe_iupdate hmem hl ..).then fun _ => ?_
  refine (createDots_safe hifree type).then fun ok => ?_
  refine Free.safe_ite (fun _ => ?_) fun _ => createFail_safe hfree hifree
  refine (safe_stat hmem hl).then fun st => ?_
  refine (dirlink_safe hdm hdl ..).then fun ok => ?_
  refine Free.safe_ite (fun _ => ?_) fun _ => createFail_safe hfree hifree
  refine Free.Safe.bind (P := fun _ u =>
    u = ⟨ip ::ₘ dp ::ₘ R,update (update L dp true) ip true,q⟩) ?_ ?_
  · exact Free.safe_ite (fun _ => incNlink_safe hdm hdl) fun _ => Free.safe_pure rfl
  rintro _ _ rfl
  refine (safe_iunlockput (cons_swap ..) hdl).then fun _ => ?_
  refine Free.safe_pure ⟨?_,by rw [relock_first hne hfree]⟩
  rwa [update_of_ne hne.symm] at hifree

theorem create_safe (h : HasCwd R q p) (path : Str) (type : ℕ) (major minor : UInt16) :
    Safe contract (create p path type major minor) ⟨R,L,q⟩ (Created R L q) := by
  refine (namex_safe h path true).bind ?_
  rintro (_ | ⟨dp,name⟩) _ rfl
  · exact Free.safe_pure (by rw [Option.map_none,single_none_add]; rfl)
  simp only [Option.map_some,single_some_add]
  have hdm : dp ∈ dp ::ₘ R := mem_cons_self ..
  refine (safe_ilock hdm).bind ?_
  rintro _ _ ⟨hfree,rfl⟩
  refine (dirlookup_safe hdm (update_self ..) name).bind ?_
  rintro (_ | ⟨ip,k⟩) _ rfl
  · rw [Option.map_none,single_none_add]
    exact createNew_safe hfree name type major minor
  simp only [Option.map_some,single_some_add]
  refine (safe_iunlockput (cons_swap ..) (update_self ..)).then fun _ => ?_
  rw [relock hfree]
  have hmem : ip ∈ ip ::ₘ R := mem_cons_self ..
  refine (safe_ilock hmem).bind ?_
  rintro _ _ ⟨hifree,rfl⟩
  refine (safe_stat hmem (update_self ..)).then fun st => ?_
  refine Free.safe_ite (fun _ => Free.safe_pure ⟨hifree,rfl⟩) fun _ => ?_
  refine (safe_iunlockput rfl (update_self ..)).then fun _ => ?_
  exact Free.safe_pure (by rw [relock hifree]; rfl)

theorem createAndPut_safe (h : HasCwd R q p) (path : Str) (type : ℕ) (major minor : UInt16) :
    Safe contract (createAndPut p path type major minor) ⟨R,L,q⟩ fun _ u => u = ⟨R,L,q⟩ := by
  refine beginOp_gives.of_only.then fun _ => ?_
  cases argstr path with
  | none => exact endWith_safe _
  | some path =>
    refine (create_safe h.begun path type major minor).bind ?_
    rintro (_ | ip) u hu
    · rw [show u = _ from hu]
      exact endWith_safe _
    · obtain ⟨hfree,rfl⟩ := hu
      exact putAndEnd_safe hfree _

end Names
end Xv6
