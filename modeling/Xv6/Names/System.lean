import Xv6.Names.Calls
import Xv6.Names.Create

/-! Whole system calls as changes of the name space.  Between two calls the references to inodes
are those of the tables, and a call takes the inodes from one such state to another by changes of
the tree. -/
namespace Xv6
namespace Names

open Function Multiset
open Fs (NINODE Panic)
open Relation (ReflTransGen)
open Free (Safe)
open Book (contract)

variable {n : ℕ} {s t : Sys Store} {K H : Multiset (Fin NINODE)} {L : Fin NINODE → Bool}
  {ip : Fin NINODE} {E : Panic → Prop} {A B U : (ℕ → Node) → ℕ → Prop}

/-! References move between the running call and the tables. -/

theorem Stable.release {s : Store} (h : Stable n s (ip ::ₘ K) H L) : Stable n s K (ip ::ₘ H) L := by
  have heq : K+ip ::ₘ H = ip ::ₘ K+H := by rw [add_cons,cons_add]
  refine ⟨?_,?_,?_,fun jp hj => h.alive jp (mem_cons_of_mem hj),?_,h.lock,?_,?_⟩ <;> rw [heq]
  · exact h.ref
  · exact h.inum
  · exact h.unique
  · exact h.valid
  · exact h.held
  · exact h.firm

theorem Stable.adopt {s : Store} (h : Stable n s K (ip ::ₘ H) L) (ht : (s.nodeOf ip).type ≠ 0) :
    Stable n s (ip ::ₘ K) H L := by
  have heq : ip ::ₘ K+H = K+ip ::ₘ H := by rw [add_cons,cons_add]
  refine ⟨?_,?_,?_,fun jp hj => ?_,?_,h.lock,?_,?_⟩
  · rw [heq]
    exact h.ref
  · rw [heq]
    exact h.inum
  · rw [heq]
    exact h.unique
  · rcases mem_cons.mp hj with rfl | hj
    · exact ht
    · exact h.alive jp hj
  · rw [heq]
    exact h.valid
  · rw [heq]
    exact h.held
  · rw [heq]
    exact h.firm

/-- Code that only copies references and gives them back runs over inodes in order. -/
structure Steady (n : ℕ) (A B U : (ℕ → Node) → ℕ → Prop) (N : ℕ → Node)
    (s : Sys Store) (t : Book) : Prop where
  ps : s.ps = t.ps
  held : t.held = unlocked
  stable : Stable n s.fs t.refs 0 unlocked
  changes : ReflTransGen (Change n A B U) N s.fs.node

/-- A single command. -/
theorem Does.handled {c : Cmd} {Q : c.Result → Sys Store → Prop}
    (h : Does n (Free.command c) s Q E) : Prog.Meets (handle (Store.serve n) c) s Q E := by
  rwa [Does,Free.run_command] at h

theorem handle_steady {N : ℕ → Node} (hE : ∀ e, e ≠ .misuse → e ≠ .noType → e ≠ .noInodes → E e) (c : Cmd)
    (s : Sys Store) (t : Book) (h : Steady n A B U N s t) (hpre : giving.pre c t) :
    Prog.Meets (handle (Store.serve n) c) s
      (fun r s' => ∃ t', Steady n A B U N s' t' ∧ giving.post c r t t') E := by
  obtain ⟨hok,hpre⟩ := hpre
  match c, hok, hpre with
  | .inode (.idup ip), _, hin =>
    have hdo := h.stable.idup (E := E) (mem_add.mpr (.inl hin))
    refine (Does.handled (c := .inode (.idup ip)) hdo).mono fun _ s' hs' => ⟨⟨ip ::ₘ t.refs,t.held,t.ps⟩,⟨hs'.2.ps.trans h.ps,h.held,?_,?_⟩,rfl⟩
    · refine hs'.1.adopt ?_
      rw [hs'.2.nodeOf (mem_add.mpr (.inl hin))]
      exact h.stable.alive ip hin
    · rw [hs'.2.node]
      exact h.changes
  | .inode (.iput ip), _, hin =>
    have hcons : ip ::ₘ t.refs.erase ip = t.refs := cons_erase hin
    have hst : Stable n s.fs (t.refs.erase ip) (ip ::ₘ 0) unlocked :=
      Stable.release (hcons.symm ▸ h.stable)
    have hdo := hst.iput (E := E) rfl
    refine (Does.handled (c := .inode (.iput ip)) hdo).mono fun _ s' hs' => ⟨⟨t.refs.erase ip,t.held,t.ps⟩,⟨hs'.2.1.ps.trans h.ps,h.held,hs'.1,?_⟩,rfl⟩
    exact h.changes.trans (hs'.2.2.changes (h.stable.inum ip (mem_add.mpr (.inl hin))))
  | .procs, _, _ => exact Prog.meets_of_run rfl ⟨t,h,h.ps,rfl⟩
  | .setProcs q, _, _ =>
    exact Prog.meets_of_run rfl ⟨⟨t.refs,t.held,q⟩,⟨rfl,h.held,h.stable,h.changes⟩,rfl⟩
  | .panic e, _, he => exact Prog.meets_of_error rfl (hE e he.1 he.2.1 he.2.2)

/-- The state between two calls: the tables are in order, and their references are the only
ones. -/
structure Quiet (n : ℕ) (M : Set ℕ) (s : Sys Store) : Prop where
  kept : Kept M s.ps
  stable : Stable n s.fs (s.ps.inodes + s.ps.cwds) 0 unlocked

/-- What a call does, seen from between the calls. -/
structure Called (n : ℕ) (A B U : (ℕ → Node) → ℕ → Prop) (M : Set ℕ)
    (s t : Sys Store) : Prop where
  quiet : Quiet n M t
  changes : ReflTransGen (Change n A B U) s.fs.node t.fs.node

variable {M : Set ℕ} {p : Fin NPROC} {α : Type}

/-- Calls that only copy references and give them back. -/
theorem Quiet.gives {x : Code α} (h : Quiet n M s) (hE : ∀ e, e ≠ .misuse → e ≠ .noType → e ≠ .noInodes → E e)
    (hx : Safe giving x s.ps.book fun _ u => Settled M u) :
    Does n x s (fun _ t => Called n A B U M s t) E := by
  have hrun := hx.run (handle_steady (A := A) (B := B) (U := U) hE) ⟨rfl,rfl,h.stable,.refl⟩
  refine Prog.Meets.mono hrun fun _ t ht => ?_
  obtain ⟨_,hst,q,rfl,hq⟩ := ht
  have hps : t.ps = q := hst.ps
  subst hps
  exact ⟨⟨hq,hst.stable⟩,hst.changes⟩

/-- Calls that keep the tables. -/
theorem Done.called (hd : Done n A B U (s.ps.inodes+s.ps.cwds) 0 unlocked s t)
    (h : Quiet n M s) : Called n A B U M s t := by
  have hps := hd.carries.ps
  refine ⟨⟨by rw [hps]; exact h.kept,?_⟩,hd.changes⟩
  rw [hps]
  exact hd.stable

/-! Calls that walk along paths. -/

variable {D : ℕ → Prop} {type : ℕ} {major minor : UInt16}

/-- `iunlockput(ip)` when nothing else is held. -/
theorem Done.put (h : Done n A B U K (ip ::ₘ 0) (update unlocked ip true) s t) :
    Does n (iunlockput ip) t (fun _ u => Done n A B U K 0 unlocked s u) E := by
  have hin := mem_self K 0 ip
  refine (h.stable.iunlockput (update_self ..)).mono fun _ u hu => ?_
  refine ⟨h.changes.trans (hu.2.2.changes (h.stable.inum ip hin)),?_,h.carries.trans hu.2.1.of_zero⟩
  have hst := hu.1
  rwa [unlock rfl] at hst

theorem createAndPut_does (e : Env n s K D E p) (path : Str) (ht : type ≠ 0) (ht16 : type < 2^16)
    (hA : ∀ d nm, target true s p path = some (d,nm) → find (s.fs.node d).entries nm = none →
      type ≠ T_DIR → A s.fs.node d)
    (hB : ∀ d nm, target true s p path = some (d,nm) → find (s.fs.node d).entries nm = none →
      type = T_DIR → B s.fs.node d) :
    Does n (createAndPut p path type major minor) s (fun _ t => Done n A B U K 0 unlocked s t) E := by
  refine Does.bind (does_beginOp (Q := fun _ t => t = s.begun) rfl) fun _ b hb => ?_
  cases hpath : argstr path with
  | none =>
    rw [hb]
    refine does_endWith ?_
    rw [s.begun_ended]
    exact (Same.refl _ s).done e.stable
  | some path' =>
    obtain rfl := argstr_some hpath
    have hcreate : Does n (create p path' type major minor) s.begun _ E :=
      create_does (U := U) e.begun path' ht ht16 hA hB
    rw [← hb] at hcreate
    refine hcreate.bind fun r t hr => ?_
    rw [← s.begun_ended,← hb]
    rcases hr with ⟨rfl,hd⟩ | ⟨ip,rfl,hd⟩
    · exact does_endWith hd.ended
    · exact hd.put.bind fun _ u hu => does_endWith hu.ended

theorem openInode_does (e : Env n s K D E p) (path : Str) (omode : ℕ)
    (hA : omode &&& O_CREATE ≠ 0 → ∀ d nm, target true s p path = some (d,nm) →
      find (s.fs.node d).entries nm = none → A s.fs.node d) :
    Does n (openInode p path omode) s (fun r t =>
      (r = none ∧ Done n A B U K 0 unlocked s t) ∨
      ∃ ip, r = some ip ∧ Done n A B U K (ip ::ₘ 0) (update unlocked ip true) s t) E := by
  unfold openInode
  split
  · rename_i hc
    exact create_does e path (by decide) (by decide) (fun d nm ht hf _ => hA hc d nm ht hf)
      fun _ _ _ _ hd => absurd hd (by decide)
  · have hfirm : Firm n s (K+0) := e.stable.firm'
    refine (namei_does path e.stable hfirm (e.room.fewer (by decide)) e.walk e.root e.running).bind fun r t ht => ?_
    obtain ⟨hsame,⟨rfl,hst⟩ | ⟨ip,rfl,hst,hD,-⟩⟩ := ht
    · exact does_pure (.inl ⟨rfl,hsame.done hst⟩)
    have hin := mem_self K 0 ip
    refine (hst.ilock hin e.walk.dead ?_).bind fun _ u hu => ?_
    · rw [Store.nodeOf,hsame.node]
      exact e.walk.type _ hD
    obtain ⟨-,hust,husame,-⟩ := hu
    have hdone : Done n A B U K (ip ::ₘ 0) (update unlocked ip true) s u := by
      have hcar := hsame.toCarries.trans (husame.toCarries.mono (subset_more K 0 ip))
      refine ⟨?_,hust,hcar.of_zero⟩
      rw [husame.node,hsame.node]
    refine (hust.stat (update_self ..)).bind fun st v hv => ?_
    obtain ⟨rfl,rfl⟩ := hv
    split
    · exact hdone.put.bind fun _ w hw => does_pure (.inl ⟨rfl,hw⟩)
    · exact does_pure (.inr ⟨ip,rfl,hdone⟩)

section Tables

theorem filealloc_does : Does n filealloc s (fun r t =>
    match r with
    | none => t = s
    | some f => (s.ps.ftable f).ref = 0 ∧ t = ⟨s.fs,s.ps.setFile f .fresh⟩) E := by
  refine Does.bind (does_procs (Q := fun q t => q = s.ps ∧ t = s) ⟨rfl,rfl⟩) fun q t ht => ?_
  obtain ⟨rfl,rfl⟩ := ht
  cases hf : t.ps.freeFile with
  | none => exact does_pure rfl
  | some f =>
    have href := List.find?_some hf
    exact Does.bind (does_setProcs rfl) fun _ u hu => does_pure ⟨of_decide_eq_true href,hu⟩

theorem fdalloc_does {f : Fin NFILE} : Does n (fdalloc p f) s (fun r t =>
    match r with
    | none => t = s
    | some fd => (s.ps.proc p).ofile fd = none ∧ t = ⟨s.fs,s.ps.setOfile p fd (some f)⟩) E := by
  refine Does.bind (does_procs (Q := fun q t => q = s.ps ∧ t = s) ⟨rfl,rfl⟩) fun q t ht => ?_
  obtain ⟨rfl,rfl⟩ := ht
  cases hfd : t.ps.freeFd p with
  | none => exact does_pure rfl
  | some fd =>
    have hnone := List.find?_some hfd
    exact Does.bind (Q := _) (R := fun _ u => u = ⟨t.fs,t.ps.setOfile p fd (some f)⟩)
      (Prog.meets_of_run rfl rfl) fun _ u hu => does_pure ⟨of_decide_eq_true hnone,hu⟩

/-- Closing a file that was never filled in. -/
theorem fileclose_fresh_does {f : Fin NFILE} (hf : s.ps.ftable f = .fresh) :
    Does n (fileclose f) s (fun _ t => t = ⟨s.fs,s.ps.setFile f File.closed⟩) E := by
  refine Does.bind (does_procs (Q := fun q t => q = s.ps ∧ t = s) ⟨rfl,rfl⟩) fun q t ht => ?_
  obtain ⟨rfl,rfl⟩ := ht
  simp only [hf,lt_irrefl,if_false]
  exact Does.bind (does_setProcs rfl) fun _ u hu => does_pure hu

end Tables

/-- The tables do not matter to the inodes. -/
theorem Done.retable (h : Done n A B U K H L s t) (q : Procs) :
    Done n A B U K H L ⟨s.fs,q⟩ ⟨t.fs,q⟩ := ⟨h.changes,h.stable,rfl,h.carries.inum⟩

/-- Truncating a file. -/
theorem Done.trunc (h : Done n A B U K H L s t) (hl : L ip = true)
    (ht : (t.fs.nodeOf ip).type ≠ T_DIR) :
    Does n (itrunc ip) t (fun _ u => Done n A B U K H L s u) E := by
  refine (h.stable.itrunc hl).mono fun _ u hu => ⟨?_,?_,h.carries.trans (hu.carries K)⟩
  · refine h.changes.tail ?_
    rw [hu.node]
    exact .trunc (h.stable.inum ip (h.stable.held ip hl).1) ht
  · exact h.stable.wrote hl (by exact h.stable.nodeOf_type hl) hu

/-- `sys_open` from the inode on. -/
theorem openFile_does (h : Quiet n M s) (hp : (s.ps.proc p).state = .live)
    (hd : Done n A B U (s.ps.inodes+s.ps.cwds) (ip ::ₘ 0) (update unlocked ip true)
      s.begun t) (omode : ℕ) :
    Does n (openFile p ip omode) t (fun _ u => Called n A B U M s u) E := by
  have hlt : update unlocked ip true ip = true := update_self ..
  have hps : t.ps = s.ps.begun := hd.carries.ps
  have hput : Does n (do
      iunlockput ip
      endWith (-1 : ℤ)) t (fun _ u => Called n A B U M s u) E := by
    refine hd.put.bind fun _ u hu => does_endWith ?_
    have hend := hu.ended
    rw [s.begun_ended] at hend
    exact hend.called h
  refine (hd.stable.stat hlt).bind fun st u hu => ?_
  obtain ⟨rfl,rfl⟩ := hu
  split
  · exact hput
  refine filealloc_does.bind fun r v hv => ?_
  match r, hv with
  | none, hv =>
    rw [hv]
    exact hput
  | some f, ⟨href,hv⟩ =>
    rw [hps] at href hv
    obtain ⟨htab,hin⟩ := h.kept.fresh href
    refine fdalloc_does.bind fun r w hw => ?_
    match r, hw with
    | none, hw =>
      have hf : w.ps.ftable f = .fresh := by
        rw [hw,hv]
        exact ftable_setFile_self
      refine (fileclose_fresh_does hf).bind fun _ x hx => ?_
      set q1 := (s.ps.begun.setFile f .fresh).setFile f File.closed with hq1
      obtain rfl : x = ⟨u.fs,q1⟩ := by rw [hx,hw,hv]
      refine (hd.retable q1).put.bind fun _ y hy => does_endWith ?_
      have hyps : y.ended.ps = q1.ended := congrArg Procs.ended hy.carries.ps
      have htab1 : Table M s.ps.slots q1 := by
        refine htab.close (h.kept.table.not_mem href) ?_
        rw [ftable_setFile_self]
        decide
      have hin1 : q1.ended.inodes = s.ps.inodes := by
        refine Eq.trans (inodes_setFile_same (q := s.ps.begun.setFile f .fresh) ?_) hin
        rw [ftable_setFile_self]
        rfl
      refine ⟨⟨hyps ▸ h.kept.unopened htab1 rfl rfl,?_⟩,hy.changes⟩
      rw [hyps,hin1]
      exact hy.stable
    | some fd, ⟨hnone,hw⟩ =>
      refine Does.bind (does_procs (Q := fun q z => q = w.ps ∧ z = w) ⟨rfl,rfl⟩) fun q z hz => ?_
      obtain ⟨rfl,rfl⟩ := hz
      refine Does.bind (does_setProcs (Q := fun _ x =>
        x = ⟨z.fs,z.ps.setFile f (openedFile (statOf u ip) ip omode)⟩) rfl) fun _ x hx => ?_
      set q3 := s.ps.opened p fd f (openedFile (statOf u ip) ip omode) with hq3
      obtain rfl : x = ⟨u.fs,q3⟩ := by rw [hx,hw,hv]; rfl
      rw [hv] at hnone
      have hd3 := hd.retable q3
      have hdt : Does n (if omode &&& O_TRUNC ≠ 0 ∧ (statOf u ip).type = T_FILE then itrunc ip
          else pure ()) ⟨u.fs,q3⟩ (fun _ y => Done n A B U (s.ps.inodes+s.ps.cwds) (ip ::ₘ 0)
          (update unlocked ip true) ⟨s.fs,q3⟩ y) E := by
        split
        · rename_i hc
          refine hd3.trunc hlt ?_
          rw [show (u.fs.nodeOf ip).type = T_FILE from hc.2]
          decide
        · exact does_pure hd3
      refine hdt.bind fun _ y hy => ?_
      refine (hy.stable.iunlock hlt).bind fun _ z hz => does_endWith ?_
      have hin := mem_self (s.ps.inodes+s.ps.cwds) 0 ip
      have hzps : z.ended.ps = q3.ended :=
        congrArg Procs.ended (hz.2.ps.trans hy.carries.ps)
      have hzst := hz.1
      rw [unlock rfl] at hzst
      refine ⟨⟨hzps ▸ h.kept.opened hp href hnone _ omode,?_⟩,?_⟩
      · rw [hzps,h.kept.opened_refs href]
        refine hzst.adopt ?_
        rw [hz.2.nodeOf hin]
        exact hy.stable.nodeOf_type hlt
      · show ReflTransGen _ _ z.fs.node
        rw [hz.2.node]
        exact hy.changes

theorem sysOpen_does (h : Quiet n M s) (hp : (s.ps.proc p).state = .live)
    (e : Env n s (s.ps.inodes+s.ps.cwds) D E p) (path : Str) (omode : ℕ)
    (hA : omode &&& O_CREATE ≠ 0 → ∀ d nm, target true s p path = some (d,nm) →
      find (s.fs.node d).entries nm = none → A s.fs.node d) :
    Does n (sysOpen p path omode) s (fun _ t => Called n A B U M s t) E := by
  unfold sysOpen
  cases hpath : argstr path with
  | none => exact does_pure ⟨h,.refl⟩
  | some path' =>
    obtain rfl := argstr_some hpath
    dsimp only
    split
    · exact does_pure ⟨h,.refl⟩
    refine Does.bind (does_beginOp (Q := fun _ t => t = s.begun) rfl) fun _ b hb => ?_
    subst hb
    have hopen : Does n (openInode p path' omode) s.begun _ E :=
      openInode_does (B := B) (U := U) e.begun path' omode hA
    refine hopen.bind fun r t hr => ?_
    rcases hr with ⟨rfl,hd⟩ | ⟨ip,rfl,hd⟩
    · refine does_endWith ?_
      have hend := hd.ended
      rw [s.begun_ended] at hend
      exact hend.called h
    · exact openFile_does h hp hd omode

theorem sysChdir_does (h : Quiet n M s) (hp : (s.ps.proc p).state = .live)
    (e : Env n s (s.ps.inodes+s.ps.cwds) D E p) (hE : ∀ e, e ≠ .misuse → e ≠ .noType → e ≠ .noInodes → E e)
    (path : Str) : Does n (sysChdir p path) s (fun _ t => Called n A B U M s t) E := by
  have hfail : ∀ {t : Sys Store}, Done n A B U (s.ps.inodes+s.ps.cwds) 0 unlocked s.begun t →
      Does n (endWith (-1 : ℤ)) t (fun _ u => Called n A B U M s u) E := by
    intro t hd
    refine does_endWith ?_
    have hend := hd.ended
    rw [s.begun_ended] at hend
    exact hend.called h
  refine Does.bind (does_beginOp (Q := fun _ t => t = s.begun) rfl) fun _ b hb => ?_
  subst hb
  have e := e.begun
  cases hpath : argstr path with
  | none => exact hfail ((Same.refl _ s.begun).done e.stable)
  | some path' =>
    have hfirm : Firm n s.begun (s.ps.inodes+s.ps.cwds+0) := e.stable.firm'
    refine (namei_does path' e.stable hfirm (e.room.fewer (by decide)) e.walk e.root e.running).bind fun r t ht => ?_
    obtain ⟨hsame,⟨rfl,hst⟩ | ⟨ip,rfl,hst,hD,-⟩⟩ := ht
    · exact hfail (hsame.done hst)
    have hin := mem_self (s.ps.inodes+s.ps.cwds) 0 ip
    refine (hst.ilock hin e.walk.dead ?_).bind fun _ u hu => ?_
    · rw [Store.nodeOf,hsame.node]
      exact e.walk.type _ hD
    obtain ⟨-,hust,husame,htype⟩ := hu
    have hlt : update unlocked ip true ip = true := update_self ..
    have hcar := hsame.trans (husame.mono (subset_more (s.ps.inodes+s.ps.cwds) 0 ip))
    refine (hust.stat hlt).bind fun st v hv => ?_
    obtain ⟨rfl,rfl⟩ := hv
    split
    · have hdone : Done n A B U (s.ps.inodes+s.ps.cwds) (ip ::ₘ 0)
          (update unlocked ip true) s.begun v :=
        ⟨by rw [hcar.node],hust,hcar.toCarries.of_zero⟩
      exact hdone.put.bind fun _ w hw => hfail hw
    · refine (hust.iunlock hlt).bind fun _ w hw => ?_
      have hwst := hw.1
      rw [unlock rfl] at hwst
      have hwsame := hcar.trans (hw.2.mono (subset_more (s.ps.inodes+s.ps.cwds) 0 ip))
      have hwtype : (w.fs.nodeOf ip).type ≠ 0 := by
        rw [hw.2.nodeOf hin]
        exact hust.nodeOf_type hlt
      have hsafe : Safe giving (do
          putCwd p
          endWithCwd p (some ip)
          pure (0 : ℤ)) _ _ := changeCwd_gives h.kept hp
      have hrun := hsafe.run
        (handle_steady (n := n) (A := A) (B := B) (U := U) (N := s.fs.node) hE)
        ⟨hwsame.ps,rfl,hwst.adopt hwtype,by rw [hwsame.node]; exact .refl⟩
      refine Prog.Meets.mono hrun fun _ x hx => ?_
      obtain ⟨_,hst,q,rfl,hq⟩ := hx
      have hps : x.ps = q := hst.ps
      subst hps
      exact ⟨⟨hq,hst.stable⟩,hst.changes⟩

/-! What a call is about to do to names. -/

/-- The last element of `path` is not yet a name in directory `d`, which the rest leads to. -/
def NewName (s : Sys Store) (p : Fin NPROC) (path : Str) (d : ℕ) : Prop :=
  ∃ nm, target true s p path = some (d,nm) ∧ find (s.fs.node d).entries nm = none

namespace Call

/-- The call may enter a new name for a file into directory `d`. -/
def EntersFile (s : Sys Store) : Call → ℕ → Prop
  | .open p path omode, d => omode &&& O_CREATE ≠ 0 ∧ NewName s p path d
  | .mknod p path _ _, d => NewName s p path d
  | .link p _ new, d => NewName s p new d
  | _, _ => False

/-- The call may make a new directory in directory `d`. -/
def EntersDir (s : Sys Store) : Call → ℕ → Prop
  | .mkdir p path, d => NewName s p path d
  | _, _ => False

/-- The call may remove the empty directory `i`. -/
def Removes (s : Sys Store) : Call → ℕ → Prop
  | .unlink p path, i => ∃ d nm de, target true s p path = some (d,nm) ∧
      find (s.fs.node d).entries nm = some de ∧ de.inum = i ∧ (s.fs.node i).type = T_DIR ∧
      ∀ e ∈ (s.fs.node i).rest, e.inum = 0
  | _, _ => False

/-- Every call takes the inodes from one state in order to another, by changes of the kinds it
may make. -/
theorem does (c : Call) (h : Quiet n M s) (hp : (s.ps.proc c.proc).state = .live)
    (e : Env n s (s.ps.inodes+s.ps.cwds) D E c.proc)
    (hE : ∀ e, e ≠ .misuse → e ≠ .noType → e ≠ .noInodes → E e) (hA : ∀ d, c.EntersFile s d → A s.fs.node d)
    (hB : ∀ d, c.EntersDir s d → B s.fs.node d) (hU : ∀ i, c.Removes s i → U s.fs.node i) :
    Does n c.code s (fun _ t => Called n A B U M s t) E := by
  cases c with
  | «open» p path omode =>
    exact sysOpen_does h hp e path omode fun hc d nm ht hf => hA d ⟨hc,nm,ht,hf⟩
  | mkdir p path =>
    refine (createAndPut_does e path (by decide) (by decide)
      (fun _ _ _ _ hne => absurd rfl hne) fun d nm ht hf _ => hB d ⟨nm,ht,hf⟩).mono
      fun _ _ hd => hd.called h
  | mknod p path major minor =>
    refine (createAndPut_does e path (by decide) (by decide)
      (fun d nm ht hf _ => hA d ⟨nm,ht,hf⟩) fun _ _ _ _ heq => absurd heq (by decide)).mono
      fun _ _ hd => hd.called h
  | link p old new =>
    exact (sysLink_does e old new fun d nm ht hf => hA d ⟨nm,ht,hf⟩).mono fun _ _ hd => hd.1.called h
  | unlink p path =>
    exact (sysUnlink_does e path fun d nm de ht hf hd hb => hU _ ⟨d,nm,de,ht,hf,rfl,hd,hb⟩).mono
      fun _ _ hd => hd.called h
  | chdir p path => exact sysChdir_does h hp e hE path
  | dup p fd => exact h.gives hE (sysDup_gives h.kept hp fd)
  | close p fd => exact h.gives hE (sysClose_gives h.kept hp fd)
  | fork p mem => exact h.gives hE (kfork_gives h.kept hp mem)
  | exit p => exact h.gives hE ((kexit_gives h.kept hp).bind fun _ _ hu => Free.safe_pure hu)
  | wait p killed copy => exact h.gives hE (kwait_gives h.kept killed copy)

end Call

end Names
end Xv6
