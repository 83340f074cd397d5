import Mathlib.Data.Fintype.Prod
import Xv6.Names.Files
import Xv6.Names.Store

/-! System calls on processes and open files.  Between two calls every reference to a file
stands in a descriptor, every reference to an inode in a file or a current directory, no lock is
held and no transaction is open. -/
namespace Xv6
namespace Names

open Function Multiset
open Fs (NINODE)
open Free (Safe)
open Book (contract)

/-- The references from descriptors to files. -/
def Procs.slots (q : Procs) : Multiset (Fin NFILE) :=
  bag fun x : Fin NPROC × Fin NOFILE => (q.proc x.1).ofile x.2

/-- The references from current directories to inodes. -/
def Procs.cwds (q : Procs) : Multiset (Fin NINODE) := bag fun p => (q.proc p).cwd

/-- Only a live process has files and a current directory. -/
structure Tidy (proc : Fin NPROC → Proc) : Prop where
  cwd : ∀ p, (proc p).state = .live → (proc p).cwd ≠ none
  noCwd : ∀ p, (proc p).state ≠ .live → (proc p).cwd = none
  noFile : ∀ p, (proc p).state ≠ .live → ∀ fd, (proc p).ofile fd = none

/-- The tables between two system calls. -/
structure Kept (M : Set ℕ) (q : Procs) : Prop where
  table : Table M q.slots q
  tidy : Tidy q.proc
  outstanding : q.outstanding = 0

/-- What is out between two system calls. -/
def Procs.book (q : Procs) : Book := ⟨q.inodes + q.cwds,fun _ => false,q⟩

/-- A call ends with the books in order. -/
def Settled (M : Set ℕ) (u : Book) : Prop := ∃ q, u = q.book ∧ Kept M q

variable {M : Set ℕ} {S : Multiset (Fin NFILE)} {q q' : Procs} {p : Fin NPROC} {fd : Fin NOFILE}
  {f : Fin NFILE} {R : Multiset (Fin NINODE)} {L : Fin NINODE → Bool}

theorem slots_congr (h : q'.proc = q.proc) : q'.slots = q.slots := by
  rw [Procs.slots,h,Procs.slots]

theorem cwds_congr (h : q'.proc = q.proc) : q'.cwds = q.cwds := by
  rw [Procs.cwds,h,Procs.cwds]

section SetOfile

@[grind =] theorem proc_setProc {c : Fin NPROC} (x : Proc) :
    (q.setProc p x).proc c = if c = p then x else q.proc c := update_apply ..

@[grind =] theorem proc_setOfile {c : Fin NPROC} (v : Option (Fin NFILE)) :
    (q.setOfile p fd v).proc c =
      if c = p then { q.proc p with ofile := update (q.proc p).ofile fd v } else q.proc c :=
  proc_setProc _

theorem proc_setOfile_of_ne {c : Fin NPROC} (h : c ≠ p) (v : Option (Fin NFILE)) :
    (q.setOfile p fd v).proc c = q.proc c := update_of_ne h ..

theorem ofile_setOfile (v : Option (Fin NFILE)) : ((q.setOfile p fd v).proc p).ofile =
    update (q.proc p).ofile fd v :=
  congrArg Proc.ofile (update_self p _ q.proc)

theorem state_setOfile (v : Option (Fin NFILE)) (c : Fin NPROC) :
    ((q.setOfile p fd v).proc c).state = (q.proc c).state := by
  grind

theorem cwd_setOfile (v : Option (Fin NFILE)) (c : Fin NPROC) :
    ((q.setOfile p fd v).proc c).cwd = (q.proc c).cwd := by
  grind

theorem slot_family (q : Procs) (p : Fin NPROC) (fd : Fin NOFILE) (v : Option (Fin NFILE)) :
    (fun x : Fin NPROC × Fin NOFILE => ((q.setOfile p fd v).proc x.1).ofile x.2) =
      update (fun x => (q.proc x.1).ofile x.2) (p,fd) v := by
  funext ⟨c,d⟩
  rw [proc_setOfile,update_apply]
  by_cases hc : c = p <;> simp [hc,update_apply]

theorem slots_setOfile_none (h : (q.proc p).ofile fd = some f) :
    q.slots = f ::ₘ (q.setOfile p fd none).slots := by
  rw [Procs.slots,Procs.slots,slot_family]
  exact bag_update_none (f := fun x : Fin NPROC × Fin NOFILE => (q.proc x.1).ofile x.2)
    (i := (p,fd)) h

theorem slots_setOfile_some (h : (q.proc p).ofile fd = none) (f : Fin NFILE) :
    (q.setOfile p fd (some f)).slots = f ::ₘ q.slots := by
  rw [Procs.slots,Procs.slots,slot_family]
  exact bag_update_some (f := fun x : Fin NPROC × Fin NOFILE => (q.proc x.1).ofile x.2)
    (i := (p,fd)) h f

theorem mem_slots (h : (q.proc p).ofile fd = some f) : f ∈ q.slots := by
  rw [slots_setOfile_none h]
  exact mem_cons_self ..

theorem cwds_setOfile (q : Procs) (p : Fin NPROC) (fd : Fin NOFILE) (v : Option (Fin NFILE)) : (q.setOfile p fd v).cwds = q.cwds :=
  congrArg bag (funext (cwd_setOfile v))

theorem Tidy.setOfile (h : Tidy q.proc) (hp : (q.proc p).state = .live) (v : Option (Fin NFILE)) :
    Tidy (q.setOfile p fd v).proc := by
  obtain ⟨cwd,noCwd,noFile⟩ := h
  constructor <;> grind

theorem Table.setOfile (h : Table M S q) (p : Fin NPROC) (fd : Fin NOFILE) (v : Option (Fin NFILE)) :
    Table M S (q.setOfile p fd v) := h.of_eq rfl rfl rfl

end SetOfile

/-! Closing and duplicating descriptors. -/

theorem argfd_gives (fd : ℤ) : Safe giving (argfd p fd) ⟨R,L,q⟩ fun r u => u = ⟨R,L,q⟩ ∧
    ∀ d f, r = some (d,f) → (q.proc p).ofile d = some f := by
  refine gives_procs.bind ?_
  rintro q _ ⟨rfl,rfl⟩
  split
  · refine Free.safe_pure ⟨rfl,fun d f hr => ?_⟩
    obtain ⟨g,hg,heq⟩ := Option.map_eq_some_iff.mp hr
    cases heq
    exact hg
  · exact Free.safe_pure ⟨rfl,fun d f hr => nomatch hr⟩

theorem setOfile_gives (v : Option (Fin NFILE)) :
    Safe giving (setOfile p fd v) ⟨R,L,q⟩ fun _ u => u = ⟨R,L,q.setOfile p fd v⟩ := by
  refine gives_procs.bind ?_
  rintro q _ ⟨rfl,rfl⟩
  exact gives_setProcs _

theorem fdalloc_gives : Safe giving (fdalloc p f) ⟨R,L,q⟩ fun r u =>
    match r with
    | none => u = ⟨R,L,q⟩
    | some fd => (q.proc p).ofile fd = none ∧ u = ⟨R,L,q.setOfile p fd (some f)⟩ := by
  refine gives_procs.bind ?_
  rintro q _ ⟨rfl,rfl⟩
  cases hfd : q.freeFd p with
  | none => exact Free.safe_pure rfl
  | some fd =>
    have hnone := List.find?_some hfd
    exact (setOfile_gives _).then fun _ => Free.safe_pure ⟨of_decide_eq_true hnone,rfl⟩

/-- Operations on files settle the books when the table counts the descriptors. -/
theorem Filed.settled {u : Book} (h : Filed M S q q.cwds (fun _ => false) u) (hS : S = q.slots)
    (ht : Tidy q.proc) (ho : q.outstanding = 0) : Settled M u := by
  obtain ⟨q',rfl,htab,hproc,hout⟩ := h
  refine ⟨q',?_,?_,hproc ▸ ht,hout.trans ho⟩
  · rw [Procs.book,cwds_congr hproc]
  · rwa [slots_congr hproc,← hS]

theorem Kept.settled (h : Kept M q) : Settled M q.book := ⟨q,rfl,h⟩

theorem sysClose_gives (h : Kept M q) (hp : (q.proc p).state = .live) (fd : ℤ) :
    Safe giving (sysClose p fd) q.book fun _ u => Settled M u := by
  refine (argfd_gives fd).bind ?_
  rintro (_ | ⟨d,f⟩) _ ⟨rfl,hf⟩
  · exact Free.safe_pure h.settled
  have hd := hf d f rfl
  refine (setOfile_gives none).then fun _ => ?_
  have htab := h.table.setOfile p d none
  rw [slots_setOfile_none hd] at htab
  refine (fileclose_gives htab).bind fun _ u hu => Free.safe_pure ?_
  rw [← cwds_setOfile q p d none] at hu
  exact hu.settled rfl (h.tidy.setOfile hp none) h.outstanding

theorem sysDup_gives (h : Kept M q) (hp : (q.proc p).state = .live) (fd : ℤ) :
    Safe giving (sysDup p fd) q.book fun _ u => Settled M u := by
  refine (argfd_gives fd).bind ?_
  rintro (_ | ⟨d,f⟩) _ ⟨rfl,hf⟩
  · exact Free.safe_pure h.settled
  have hmem := mem_slots (hf d f rfl)
  refine fdalloc_gives.bind ?_
  rintro (_ | d') u hu
  · rw [show u = _ from hu]
    exact Free.safe_pure h.settled
  obtain ⟨hnone,rfl⟩ := hu
  have htab := h.table.setOfile p d' (some f)
  refine (filedup_gives htab hmem).bind fun _ u hu => Free.safe_pure ?_
  rw [← cwds_setOfile q p d' (some f)] at hu
  exact hu.settled (slots_setOfile_some hnone f).symm (h.tidy.setOfile hp (some f)) h.outstanding

theorem pipeBad_gives {rf wf : Fin NFILE} (h : Table M (rf ::ₘ wf ::ₘ q.slots) q)
    (ht : Tidy q.proc) (ho : q.outstanding = 0) :
    Safe giving (pipeBad rf wf) q.book fun _ u => Settled M u :=
  (closeBoth_gives h).mono fun _ _ hu => hu.2.settled rfl ht ho

/-- A descriptor that is set and cleared again. -/
theorem slots_setOfile_undo (h : (q.proc p).ofile fd = none) :
    ((q.setOfile p fd (some f)).setOfile p fd none).slots = q.slots := by
  refine cons_inj_right f |>.mp ?_
  rw [← slots_setOfile_none,slots_setOfile_some h]
  rw [ofile_setOfile,update_self]

theorem sysPipe_gives (h : Kept M q) (hp : (q.proc p).state = .live) (mem copy : Bool) :
    Safe giving (sysPipe p mem copy) q.book fun _ u => Settled M u := by
  refine (pipealloc_gives h.table mem).bind ?_
  rintro (_ | ⟨rf,wf⟩) u hu
  · exact Free.safe_pure (hu.settled rfl h.tidy h.outstanding)
  obtain ⟨q,rfl,htab,hproc,hout⟩ := hu
  have ht : Tidy q.proc := hproc ▸ h.tidy
  have ho : q.outstanding = 0 := hout.trans h.outstanding
  rw [← hproc] at hp
  rw [← slots_congr hproc] at htab
  rw [← cwds_congr hproc]
  refine fdalloc_gives.bind ?_
  rintro (_ | fd0) u hu
  · rw [show u = _ from hu]
    exact pipeBad_gives htab ht ho
  obtain ⟨hn0,rfl⟩ := hu
  set q0 := q.setOfile p fd0 (some rf) with hq0
  have ht0 : Tidy q0.proc := ht.setOfile hp (some rf)
  have hp0 : (q0.proc p).state = .live := (state_setOfile ..).trans hp
  refine fdalloc_gives.bind ?_
  rintro (_ | fd1) u hu
  · rw [show u = _ from hu]
    refine (setOfile_gives none).then fun _ => ?_
    have hslots := slots_setOfile_undo (f := rf) hn0
    have hcwds : q.cwds = (q0.setOfile p fd0 none).cwds := by
      rw [cwds_setOfile,cwds_setOfile]
    rw [hcwds]
    refine pipeBad_gives ?_ (ht0.setOfile hp0 none) ho
    rw [hslots]
    exact htab.of_eq rfl rfl rfl
  obtain ⟨hn1,rfl⟩ := hu
  set q1 := q0.setOfile p fd1 (some wf) with hq1
  have ht1 : Tidy q1.proc := ht0.setOfile hp0 (some wf)
  have hp1 : (q1.proc p).state = .live := (state_setOfile ..).trans hp0
  have hslots1 : q1.slots = wf ::ₘ rf ::ₘ q.slots := by
    rw [slots_setOfile_some hn1,slots_setOfile_some hn0]
  have hcwds1 : q1.cwds = q.cwds := by rw [cwds_setOfile,cwds_setOfile]
  refine Free.safe_ite (fun _ => Free.safe_pure ⟨q1,?_,?_,ht1,ho⟩) fun _ => ?_
  · rw [Procs.book,hcwds1]
    rfl
  · rw [hslots1,cons_swap]
    exact htab.of_eq rfl rfl rfl
  -- Both descriptors are cleared again.
  have hfd0 : (q0.proc p).ofile fd0 = some rf := by rw [ofile_setOfile,update_self]
  have hne : fd0 ≠ fd1 := by
    rintro rfl
    cases hfd0.symm.trans hn1
  refine (setOfile_gives none).then fun _ => ?_
  refine (setOfile_gives none).then fun _ => ?_
  set q2 := q1.setOfile p fd0 none with hq2
  have hp2 : (q2.proc p).state = .live := (state_setOfile ..).trans hp1
  have hfd0' : (q1.proc p).ofile fd0 = some rf := by
    rw [ofile_setOfile,update_of_ne hne,hfd0]
  have hfd1 : (q2.proc p).ofile fd1 = some wf := by
    rw [ofile_setOfile,update_of_ne hne.symm,ofile_setOfile,update_self]
  have hslots : (q2.setOfile p fd1 none).slots = q.slots := by
    have h1 := slots_setOfile_none hfd0'
    rw [slots_setOfile_none hfd1,hslots1,cons_swap] at h1
    exact ((cons_inj_right wf).mp ((cons_inj_right rf).mp h1)).symm
  have hcwds : (q2.setOfile p fd1 none).cwds = q.cwds := by
    rw [cwds_setOfile,cwds_setOfile,hcwds1]
  rw [← hcwds]
  refine pipeBad_gives ?_ ((ht1.setOfile hp1 none).setOfile hp2 none) ho
  rw [hslots]
  exact htab.of_eq rfl rfl rfl

/-! Processes. -/

/-- The state of `kfork` between two rounds of its loop: the child is not in use yet and holds
copies of the descriptors handled so far. -/
structure Forking (M : Set ℕ) (q₀ : Procs) (np : Fin NPROC) (l : List (Fin NOFILE)) (q : Procs) :
    Prop where
  table : Table M q.slots q
  other : ∀ c, c ≠ np → q.proc c = q₀.proc c
  state : (q.proc np).state = .unused
  cwd : (q.proc np).cwd = none
  ahead : ∀ fd ∈ l, (q.proc np).ofile fd = none
  nodup : l.Nodup
  outstanding : q.outstanding = 0

variable {q₀ : Procs} {np : Fin NPROC} {l : List (Fin NOFILE)}

theorem Forking.cwds (h : Forking M q₀ np l q) (hn : (q₀.proc np).cwd = none) :
    q.cwds = q₀.cwds := by
  refine congrArg bag (funext fun c => ?_)
  by_cases hc : c = np
  · rw [hc,h.cwd,hn]
  · rw [h.other c hc]

theorem forkFile_gives (h : Forking M q₀ np (fd :: l) q) :
    Safe giving (forkFile p np fd) ⟨q.inodes+R,L,q⟩
      fun _ u => ∃ q', u = ⟨q'.inodes+R,L,q'⟩ ∧ Forking M q₀ np l q' := by
  refine gives_procs.bind ?_
  rintro q _ ⟨rfl,rfl⟩
  have hl : ∀ d ∈ l, d ≠ fd ∧ (q.proc np).ofile d = none := fun d hd =>
    ⟨fun heq => (List.nodup_cons.mp h.nodup).1 (heq ▸ hd),h.ahead d (List.mem_cons_of_mem fd hd)⟩
  cases hf : (q.proc p).ofile fd with
  | none =>
    exact Free.safe_pure ⟨q,rfl,h.table,h.other,h.state,h.cwd,fun d hd => (hl d hd).2,
      (List.nodup_cons.mp h.nodup).2,h.outstanding⟩
  | some f =>
    have hnone := h.ahead fd (List.mem_cons_self ..)
    refine (filedup_gives h.table (mem_slots hf)).bind ?_
    rintro _ _ ⟨q1,rfl,h1,hproc,hout⟩
    refine (setOfile_gives (some f)).mono fun _ u hu => ⟨q1.setOfile np fd (some f),hu,?_,
      fun c hc => ?_,?_,?_,fun d hd => ?_,(List.nodup_cons.mp h.nodup).2,hout.trans h.outstanding⟩
    · rw [slots_setOfile_some (hproc ▸ hnone),slots_congr hproc]
      exact h1.setOfile np fd (some f)
    · rw [proc_setOfile_of_ne hc,hproc,h.other c hc]
    · rw [state_setOfile,hproc,h.state]
    · rw [cwd_setOfile,hproc,h.cwd]
    · rw [ofile_setOfile,update_of_ne (hl d hd).1,hproc,(hl d hd).2]

theorem proc_setProc_self (x : Proc) : (q.setProc p x).proc p = x := update_self ..

theorem cwds_setProc_some {x : Proc} {ip : Fin NINODE} (hx : x.cwd = some ip)
    (h : (q.proc p).cwd = none) : (q.setProc p x).cwds = ip ::ₘ q.cwds := by
  have hfam : (fun c => ((q.setProc p x).proc c).cwd) =
      update (fun c => (q.proc c).cwd) p (some ip) := by
    funext c
    grind [update_apply]
  rw [Procs.cwds,hfam]
  exact bag_update_some (f := fun c => (q.proc c).cwd) h ip

theorem slots_setProc {x : Proc} (h : x.ofile = (q.proc p).ofile) :
    (q.setProc p x).slots = q.slots := by
  refine congrArg bag (funext fun y => ?_)
  grind

theorem Tidy.hasCwd (h : Tidy q.proc) (hp : (q.proc p).state = .live) (R : Multiset (Fin NINODE)) :
    HasCwd (R+q.cwds) q p := by
  obtain ⟨c,hc⟩ := Option.ne_none_iff_exists'.mp (h.cwd p hp)
  exact ⟨c,mem_add.mpr (.inr (mem_bag.mpr ⟨p,hc⟩)),hc⟩

/-- The end of `kfork`. -/
theorem Forking.live {ip : Fin NINODE} (h : Forking M q₀ np [] q) (ht : Tidy q₀.proc) :
    Kept M (q.setProc np ⟨.live,some p,some ip,(q.proc np).ofile⟩) := by
  refine ⟨?_,?_,h.outstanding⟩
  · rw [slots_setProc (p := np) (x := ⟨.live,some p,some ip,(q.proc np).ofile⟩) rfl]
    exact h.table.of_eq rfl rfl rfl
  · have hother := h.other
    obtain ⟨cwd,noCwd,noFile⟩ := ht
    constructor <;> grind

theorem kfork_gives (h : Kept M q) (hp : (q.proc p).state = .live) (mem : Bool) :
    Safe giving (kfork p mem) q.book fun _ u => Settled M u := by
  refine gives_procs.bind ?_
  rintro q _ ⟨rfl,rfl⟩
  cases hnp : q.freeProc with
  | none => exact Free.safe_pure h.settled
  | some np =>
    have hfind := List.find?_some hnp
    have hunused : (q.proc np).state = .unused := of_decide_eq_true hfind
    have hdead : (q.proc np).state ≠ .live := by rw [hunused]; decide
    have hnoCwd := h.tidy.noCwd np hdead
    refine Free.safe_ite (fun _ => ?_) fun _ => Free.safe_pure h.settled
    have hstart : Forking M q np (List.finRange NOFILE) q := ⟨h.table,fun _ _ => rfl,hunused,hnoCwd,
      fun fd _ => h.tidy.noFile np hdead fd,List.nodup_finRange _,h.outstanding⟩
    refine (Free.safe_forM (I := fun l u => ∃ q', u = ⟨q'.inodes+q.cwds,fun _ => false,q'⟩ ∧
      Forking M q np l q') ?_ ⟨q,rfl,hstart⟩).bind ?_
    · rintro fd l _ ⟨q',rfl,hq'⟩
      exact forkFile_gives hq'
    · rintro _ _ ⟨q',rfl,hq'⟩
      have hne : p ≠ np := by
        rintro rfl
        exact hdead hp
      have hcwd : HasCwd (q'.inodes+q.cwds) q' p := by
        obtain ⟨c,hc,heq⟩ := h.tidy.hasCwd hp q'.inodes
        exact ⟨c,hc,by rwa [hq'.other p hne]⟩
      refine (dupCwd_gives hcwd).then fun ip => ?_
      refine Free.Safe.bind (P := fun _ u => Settled M u) ?_ fun _ u hu => Free.safe_pure hu
      refine gives_procs.bind ?_
      rintro q' _ ⟨rfl,rfl⟩
      refine (gives_setProcs _).mono fun _ u hu =>
        ⟨q'.setProc np ⟨.live,some p,some ip,(q'.proc np).ofile⟩,?_,hq'.live h.tidy⟩
      rw [hu,Procs.book,cwds_setProc_some rfl hq'.cwd,hq'.cwds hnoCwd,add_cons]
      rfl

theorem cwds_setProc_none {x : Proc} {ip : Fin NINODE} (hx : x.cwd = none)
    (h : (q.proc p).cwd = some ip) : q.cwds = ip ::ₘ (q.setProc p x).cwds := by
  have hself : ((q.setProc p x).setProc p (q.proc p)).cwds = q.cwds := by
    refine congrArg bag (funext fun c => ?_)
    grind
  rw [← hself,cwds_setProc_some h (by rw [proc_setProc_self,hx])]

/-- The state of `kexit` between two rounds of its loop: the descriptors handled so far are
closed. -/
structure Exiting (M : Set ℕ) (q₀ : Procs) (p : Fin NPROC) (l : List (Fin NOFILE)) (q : Procs) :
    Prop where
  table : Table M q.slots q
  other : ∀ c, c ≠ p → q.proc c = q₀.proc c
  cwd : (q.proc p).cwd = (q₀.proc p).cwd
  behind : ∀ fd, fd ∉ l → (q.proc p).ofile fd = none
  outstanding : q.outstanding = 0

theorem Exiting.cwds (h : Exiting M q₀ p l q) : q.cwds = q₀.cwds := by
  refine congrArg bag (funext fun c => ?_)
  by_cases hc : c = p
  · rw [hc,h.cwd]
  · rw [h.other c hc]

theorem exitFile_gives (h : Exiting M q₀ p (fd :: l) q) :
    Safe giving (exitFile p fd) ⟨q.inodes+R,L,q⟩
      fun _ u => ∃ q', u = ⟨q'.inodes+R,L,q'⟩ ∧ Exiting M q₀ p l q' := by
  refine gives_procs.bind ?_
  rintro q _ ⟨rfl,rfl⟩
  have hrest : ∀ d, d ∉ l → d ≠ fd → (q.proc p).ofile d = none := fun d hd hne =>
    h.behind d fun hm => (List.mem_cons.mp hm).elim hne hd
  cases hf : (q.proc p).ofile fd with
  | none =>
    refine Free.safe_pure ⟨q,rfl,h.table,h.other,h.cwd,fun d hd => ?_,h.outstanding⟩
    by_cases hdf : d = fd
    · rw [hdf,hf]
    · exact hrest d hd hdf
  | some f =>
    have htab := h.table
    rw [slots_setOfile_none hf] at htab
    refine (fileclose_gives htab).bind ?_
    rintro _ _ ⟨q1,rfl,h1,hproc,hout⟩
    refine (setOfile_gives none).mono fun _ u hu => ⟨q1.setOfile p fd none,hu,?_,fun c hc => ?_,?_,
      fun d hd => ?_,hout.trans h.outstanding⟩
    · have hf1 : (q1.proc p).ofile fd = some f := hproc ▸ hf
      have hslots := slots_setOfile_none hf1
      rw [slots_congr hproc,slots_setOfile_none hf] at hslots
      rw [← (cons_inj_right f).mp hslots]
      exact h1.setOfile p fd none
    · rw [proc_setOfile_of_ne hc,hproc,h.other c hc]
    · rw [cwd_setOfile,hproc,h.cwd]
    · rw [ofile_setOfile,hproc,update_apply]
      grind

theorem putCwd_gives {ip : Fin NINODE} (h : (q.proc p).cwd = some ip) :
    Safe giving (putCwd p) ⟨ip ::ₘ R,L,q⟩ fun _ u => u = ⟨R,L,q⟩ := by
  refine gives_procs.bind ?_
  rintro q _ ⟨rfl,rfl⟩
  simp only [h]
  exact gives_iput

theorem endWithCwd_gives (c : Option (Fin NINODE)) :
    Safe giving (endWithCwd p c) ⟨R,L,q.begun⟩ fun _ u => u = ⟨R,L,q.setCwd p c⟩ := by
  refine endOp_gives.then fun _ => ?_
  rw [q.begun_ended]
  refine gives_procs.bind ?_
  rintro q _ ⟨rfl,rfl⟩
  exact gives_setProcs _

/-- The tables after `exitZombie`. -/
def Procs.exited (q : Procs) (p : Fin NPROC) : Procs :=
  let q' := { q with proc := fun c =>
    if (q.proc c).parent = some p then { q.proc c with parent := some initproc } else q.proc c }
  q'.setProc p { q'.proc p with state := .zombie }

section Exited

theorem cwd_exited (c : Fin NPROC) : ((q.exited p).proc c).cwd = (q.proc c).cwd := by
  rw [Procs.exited,proc_setProc]
  grind

theorem ofile_exited (c : Fin NPROC) : ((q.exited p).proc c).ofile = (q.proc c).ofile := by
  rw [Procs.exited,proc_setProc]
  grind

theorem state_exited (c : Fin NPROC) :
    ((q.exited p).proc c).state = if c = p then .zombie else (q.proc c).state := by
  rw [Procs.exited,proc_setProc]
  grind

end Exited

/-- A process that has given back everything becomes a zombie. -/
theorem Kept.exited (htab : Table M q.slots q) (hother : ∀ c, c ≠ p → q.proc c = q₀.proc c)
    (ht : Tidy q₀.proc) (hcwd : (q.proc p).cwd = none) (hfile : ∀ fd, (q.proc p).ofile fd = none)
    (ho : q.outstanding = 0) : Kept M (q.exited p) := by
  refine ⟨?_,?_,ho⟩
  · have hslots : (q.exited p).slots = q.slots :=
      congrArg bag (funext fun x => by rw [ofile_exited])
    rw [hslots]
    exact htab.of_eq rfl rfl rfl
  · obtain ⟨cwd,noCwd,noFile⟩ := ht
    constructor <;> simp only [cwd_exited,ofile_exited,state_exited] <;> grind

theorem kexit_gives (h : Kept M q) (hp : (q.proc p).state = .live) :
    Safe giving (kexit p) q.book fun _ u => Settled M u := by
  refine Free.safe_ite (fun _ => gives_panic (by decide)) fun _ => ?_
  have hstart : Exiting M q p (List.finRange NOFILE) q :=
    ⟨h.table,fun _ _ => rfl,rfl,fun fd hfd => absurd (List.mem_finRange fd) hfd,h.outstanding⟩
  refine (Free.safe_forM (I := fun l u => ∃ q', u = ⟨q'.inodes+q.cwds,fun _ => false,q'⟩ ∧
    Exiting M q p l q') ?_ ⟨q,rfl,hstart⟩).bind ?_
  · rintro fd l _ ⟨q',rfl,hq'⟩
    exact exitFile_gives hq'
  rintro _ _ ⟨q',rfl,hq'⟩
  obtain ⟨c,hc⟩ := Option.ne_none_iff_exists'.mp (h.tidy.cwd p hp)
  have hc' : (q'.proc p).cwd = some c := hq'.cwd.trans hc
  refine beginOp_gives.then fun _ => ?_
  have hcwds : q'.cwds = c ::ₘ (q'.setCwd p none).cwds := cwds_setProc_none rfl hc'
  rw [← hq'.cwds,hcwds,add_cons]
  refine (putCwd_gives (q := q'.begun) hc').then fun _ => ?_
  refine (endWithCwd_gives none).then fun _ => ?_
  refine gives_procs.bind ?_
  rintro q1 _ ⟨rfl,rfl⟩
  have hslots : (q'.setCwd p none).slots = q'.slots := slots_setProc rfl
  have hself : ((q'.setCwd p none).proc p) = { q'.proc p with cwd := none } := proc_setProc_self _
  refine (gives_setProcs _).mono fun _ u hu => ⟨(q'.setCwd p none).exited p,?_,
    .exited ?_ (fun d hd => ?_) h.tidy ?_ (fun fd => ?_) hq'.outstanding⟩
  · have hcwds' : ((q'.setCwd p none).exited p).cwds = (q'.setCwd p none).cwds :=
      congrArg bag (funext cwd_exited)
    rw [hu,Procs.book,hcwds']
    rfl
  · rw [hslots]
    exact hq'.table.of_eq rfl rfl rfl
  · rw [Procs.setCwd,proc_setProc,if_neg hd,hq'.other d hd]
  · rw [hself]
  · rw [hself]
    exact hq'.behind fd (List.not_mem_nil)

theorem freeproc_gives {c : Fin NPROC} (h : Kept M q) (hc : (q.proc c).state = .zombie) :
    Safe giving (freeproc c) q.book fun _ u => Settled M u := by
  refine gives_procs.bind ?_
  rintro q _ ⟨rfl,rfl⟩
  have hdead : (q.proc c).state ≠ .live := by rw [hc]; decide
  set x : Proc := ⟨.unused,none,(q.proc c).cwd,(q.proc c).ofile⟩ with hx
  refine (gives_setProcs _).mono fun _ u hu => ⟨q.setProc c x,?_,?_,?_,h.outstanding⟩
  · have hcwds : (q.setProc c x).cwds = q.cwds := by
      refine congrArg bag (funext fun d => ?_)
      grind
    rw [hu,Procs.book,hcwds]
    rfl
  · rw [slots_setProc (p := c) (x := x) rfl]
    exact h.table.of_eq rfl rfl rfl
  · obtain ⟨cwd,noCwd,noFile⟩ := h.tidy
    constructor <;> intro d <;> rw [proc_setProc] <;> split <;> grind

theorem kwait_gives (h : Kept M q) (killed copy : Bool) :
    Safe giving (kwait p killed copy) q.book fun _ u => Settled M u := by
  refine gives_procs.bind ?_
  rintro q _ ⟨rfl,rfl⟩
  dsimp only
  split
  next c hc =>
    have hfind := List.find?_some hc
    rw [Bool.and_eq_true] at hfind
    refine Free.safe_ite (fun _ => ?_) fun _ => Free.safe_pure h.settled
    exact (freeproc_gives h (of_decide_eq_true hfind.2)).bind fun _ _ hu => Free.safe_pure hu
  next =>
    exact Free.safe_ite (fun _ => gives_panic (by decide)) fun _ => Free.safe_pure h.settled

/-! Calls that look at inodes. -/

theorem Tidy.setCwd {ip : Fin NINODE} (h : Tidy q.proc) (hp : (q.proc p).state = .live) :
    Tidy (q.setCwd p (some ip)).proc := by
  obtain ⟨cwd,noCwd,noFile⟩ := h
  constructor <;> grind [Procs.setCwd]

theorem setCwd_setCwd (c d : Option (Fin NINODE)) : (q.setCwd p c).setCwd p d = q.setCwd p d := by
  simp only [Procs.setCwd,Procs.setProc,update_self,update_idem]

/-- `iput(p->cwd); end_op(); p->cwd = ip` -/
theorem changeCwd_gives {ip : Fin NINODE} {α : Type} {r : α} (h : Kept M q)
    (hp : (q.proc p).state = .live) :
    Safe giving (do
        putCwd p
        endWithCwd p (some ip)
        pure r) ⟨ip ::ₘ (q.inodes+q.cwds),fun _ => false,q.begun⟩
      fun _ u => Settled M u := by
  obtain ⟨c,hc⟩ := Option.ne_none_iff_exists'.mp (h.tidy.cwd p hp)
  have hcwds : q.cwds = c ::ₘ (q.setCwd p none).cwds := cwds_setProc_none rfl hc
  have hcwds' : (q.setCwd p (some ip)).cwds = ip ::ₘ (q.setCwd p none).cwds := by
    rw [← setCwd_setCwd none (some ip)]
    refine cwds_setProc_some rfl ?_
    rw [Procs.setCwd,proc_setProc_self]
  rw [hcwds,add_cons,cons_swap]
  refine (putCwd_gives (q := q.begun) hc).then fun _ => ?_
  refine (endWithCwd_gives (some ip)).bind fun _ u hu => Free.safe_pure
    ⟨q.setCwd p (some ip),?_,?_,h.tidy.setCwd hp,h.outstanding⟩
  · rw [hu,Procs.book,hcwds',add_cons]
    rfl
  · have hslots : (q.setCwd p (some ip)).slots = q.slots := slots_setProc rfl
    rw [hslots]
    exact h.table.of_eq rfl rfl rfl

theorem sysChdir_safe (h : Kept M q) (hp : (q.proc p).state = .live) (path : Str) :
    Safe contract (sysChdir p path) q.book fun _ u => Settled M u := by
  refine beginOp_gives.of_only.then fun _ => ?_
  cases argstr path with
  | none => exact (endWith_safe _).mono fun _ u hu => hu ▸ h.settled
  | some path =>
    refine (namei_safe (h.tidy.hasCwd hp _).begun path).bind ?_
    rintro (_ | ip) _ rfl
    · rw [single_none_add]
      exact (endWith_safe _).mono fun _ u hu => hu ▸ h.settled
    rw [single_some_add]
    have hmem : ip ∈ ip ::ₘ (q.inodes+q.cwds) := mem_cons_self ..
    refine (safe_ilock hmem).bind ?_
    rintro _ _ ⟨hfree,rfl⟩
    have hl : update (fun _ => false) ip true ip = true := update_self ..
    refine (safe_stat hmem hl).then fun st => ?_
    refine Free.safe_ite (fun _ => ?_) fun _ => ?_
    · exact (putAndEnd_safe hfree _).mono fun _ u hu => hu ▸ h.settled
    refine (safe_iunlock hmem hl).then fun _ => ?_
    rw [relock hfree]
    exact (changeCwd_gives h hp).of_only

theorem openInode_safe (h : HasCwd R q p) (path : Str) (omode : ℕ) :
    Safe contract (openInode p path omode) ⟨R,L,q⟩ (Created R L q) := by
  refine Free.safe_ite (fun _ => create_safe h path _ _ _) fun _ => ?_
  refine (namei_safe h path).bind ?_
  rintro (_ | ip) _ rfl
  · exact Free.safe_pure (by rw [single_none_add]; rfl)
  rw [single_some_add]
  have hmem : ip ∈ ip ::ₘ R := mem_cons_self ..
  refine (safe_ilock hmem).bind ?_
  rintro _ _ ⟨hfree,rfl⟩
  refine (safe_stat hmem (update_self ..)).then fun st => ?_
  refine Free.safe_ite (fun _ => ?_) fun _ => Free.safe_pure ⟨hfree,rfl⟩
  refine (safe_iunlockput rfl (update_self ..)).then fun _ => ?_
  exact Free.safe_pure (by rw [relock hfree]; rfl)

/-- A new file is filled in with the inode it opens. -/
theorem Table.fill {ip : Fin NINODE} (h : Table M (f ::ₘ S) q) (hf : q.ftable f = .fresh)
    (st : Stat) (omode : ℕ) : Table M (f ::ₘ S) (q.setFile f (openedFile st ip omode)) := by
  have hcount := h.ref f
  rw [hf] at hcount
  refine h.setFile (fun _ _ => rfl) hcount (fun _ _ => Option.some_ne_none ip) (fun _ ht => ?_)
    fun a w => ⟨fun hw => ?_,fun hw => ?_⟩
  · simp only [openedFile] at ht
    split at ht <;> cases ht
  · have ht := hw.2.1
    simp only [openedFile] at ht
    split at ht <;> cases ht
  · rw [hf] at hw
    cases hw.2.1

theorem openedFile_inode (st : Stat) (ip : Fin NINODE) (omode : ℕ) :
    (openedFile st ip omode).inode = some ip := by
  refine if_pos ⟨Nat.one_pos,?_⟩
  simp only [openedFile]
  split
  · exact .inr rfl
  · exact .inl rfl

theorem ended_outstanding (h : q.outstanding = 0+1) : q.ended.outstanding = 0 := by
  rw [Procs.ended,h]
  rfl

/-- `sys_open` finds no descriptor for its new file. -/
theorem Kept.unopened (h : Kept M q) (htab : Table M q.slots q') (hproc : q'.proc = q.proc)
    (hout : q'.outstanding = q.outstanding+1) : Kept M q'.ended := by
  refine ⟨?_,hproc ▸ h.tidy,ended_outstanding (hout.trans (congrArg (· + 1) h.outstanding))⟩
  have hslots : q'.ended.slots = q.slots := slots_congr hproc
  rw [hslots]
  exact htab.of_eq rfl rfl rfl

/-- The tables after `sys_open` has filled in its file. -/
def Procs.opened (q : Procs) (p : Fin NPROC) (fd : Fin NOFILE) (f : Fin NFILE) (x : File) : Procs :=
  ((q.begun.setFile f .fresh).setOfile p fd (some f)).setFile f x

section Opened

variable {ip : Fin NINODE}

theorem Kept.fresh (h : Kept M q) (href : (q.ftable f).ref = 0) :
    Table M (f ::ₘ q.slots) (q.begun.setFile f .fresh) ∧
      (q.begun.setFile f .fresh).inodes = q.inodes :=
  ⟨Table.alloc (h.table.of_eq rfl rfl rfl) href,
    inodes_setFile_same (q := q.begun) (inode_of_ref_zero href).symm⟩

theorem Kept.opened (h : Kept M q) (hp : (q.proc p).state = .live) (href : (q.ftable f).ref = 0)
    (hnone : (q.proc p).ofile fd = none) (st : Stat) (omode : ℕ) :
    Kept M (q.opened p fd f (openedFile st ip omode)).ended := by
  obtain ⟨htab,-⟩ := h.fresh href
  have hf2 : ((q.begun.setFile f .fresh).setOfile p fd (some f)).ftable f = .fresh :=
    ftable_setFile_self
  refine ⟨?_,?_,ended_outstanding (congrArg (· + 1) h.outstanding)⟩
  · have hslots : (q.opened p fd f (openedFile st ip omode)).ended.slots = f ::ₘ q.slots :=
      slots_setOfile_some (q := q.begun.setFile f .fresh) hnone f
    rw [hslots]
    exact ((htab.setOfile p fd (some f)).fill hf2 st omode).of_eq rfl rfl rfl
  · exact Tidy.setOfile (q := q.begun.setFile f .fresh) h.tidy hp (some f)

/-- Opening adds one reference to the inode. -/
theorem Kept.opened_refs (h : Kept M q) (href : (q.ftable f).ref = 0) (st : Stat) (omode : ℕ) :
    (q.opened p fd f (openedFile st ip omode)).ended.inodes +
      (q.opened p fd f (openedFile st ip omode)).ended.cwds = ip ::ₘ (q.inodes+q.cwds) := by
  have hf2 : ((q.begun.setFile f .fresh).setOfile p fd (some f)).ftable f = .fresh :=
    ftable_setFile_self
  have hin : (q.opened p fd f (openedFile st ip omode)).ended.inodes =
      ip ::ₘ (q.begun.setFile f .fresh).inodes :=
    inodes_setFile_some (openedFile_inode st ip omode) (by rw [hf2]; rfl)
  have hcwds : (q.opened p fd f (openedFile st ip omode)).ended.cwds = q.cwds :=
    cwds_setOfile (q.begun.setFile f .fresh) p fd (some f)
  rw [hin,(h.fresh href).2,hcwds,cons_add]

end Opened

theorem openFile_safe {ip : Fin NINODE} (h : Kept M q) (hp : (q.proc p).state = .live)
    (omode : ℕ) :
    Safe contract (openFile p ip omode)
      ⟨ip ::ₘ (q.inodes+q.cwds),update (fun _ => false) ip true,q.begun⟩
      fun _ u => Settled M u := by
  have hmem : ip ∈ ip ::ₘ (q.inodes+q.cwds) := mem_cons_self ..
  have hl : update (fun _ => false) ip true ip = true := update_self ..
  have hput : Safe contract (do
      iunlockput ip
      endWith (-1)) ⟨ip ::ₘ (q.inodes+q.cwds),update (fun _ => false) ip true,q.begun⟩
      fun _ u => Settled M u :=
    (putAndEnd_safe rfl (-1 : ℤ)).mono fun _ u hu => hu ▸ h.settled
  refine (safe_stat hmem hl).then fun st => ?_
  refine Free.safe_ite (fun _ => hput) fun _ => ?_
  refine filealloc_gives.of_only.bind ?_
  rintro (_ | f) u hu
  · rw [show u = _ from hu]
    exact hput
  obtain ⟨href,rfl⟩ := hu
  obtain ⟨htab,hin⟩ := h.fresh href
  refine fdalloc_gives.of_only.bind ?_
  rintro (_ | fd) u hu
  · rw [show u = _ from hu,← add_cons,← hin]
    refine (fileclose_gives htab).of_only.bind ?_
    rintro _ _ ⟨q1,rfl,h1,hproc,hout⟩
    have hend : Safe contract (do
        iunlockput ip
        endWith (-1 : ℤ)) ⟨ip ::ₘ (q1.inodes+q.cwds),update (fun _ => false) ip true,
          q1.ended.begun⟩ fun _ u => u = ⟨q1.inodes+q.cwds,fun _ => false,q1.ended⟩ :=
      putAndEnd_safe rfl _
    rw [q1.ended_begun,← add_cons] at hend
    refine hend.mono fun _ u hu => ⟨q1.ended,?_,h.unopened h1 hproc hout⟩
    have hcwds : q1.ended.cwds = q.cwds := cwds_congr hproc
    rw [hu,Procs.book,hcwds]
    rfl
  obtain ⟨hnone,rfl⟩ := hu
  refine gives_procs.of_only.bind ?_
  rintro q2 _ ⟨rfl,rfl⟩
  refine (gives_setProcs _).of_only.then fun _ => ?_
  set q3 := q.opened p fd f (openedFile st ip omode) with hq3
  refine Free.Safe.bind (P := fun _ u =>
    u = ⟨ip ::ₘ (q.inodes+q.cwds),update (fun _ => false) ip true,q3⟩) ?_ ?_
  · exact Free.safe_ite (fun _ => safe_local (c := .itrunc ip) rfl hmem hl) fun _ =>
      Free.safe_pure rfl
  rintro _ _ rfl
  refine (safe_iunlock hmem hl).then fun _ => ?_
  have hend := endWith_safe (R := ip ::ₘ (q.inodes+q.cwds)) (L := fun _ => false)
    (q := q3.ended) (fd : ℤ)
  rw [q3.ended_begun] at hend
  rw [relock rfl]
  refine hend.mono fun _ u hu => ⟨q3.ended,?_,h.opened hp href hnone st omode⟩
  rw [hu,Procs.book,h.opened_refs href]

theorem sysOpen_safe (h : Kept M q) (hp : (q.proc p).state = .live) (path : Str) (omode : ℕ) :
    Safe contract (sysOpen p path omode) q.book fun _ u => Settled M u := by
  unfold sysOpen
  cases argstr path with
  | none => exact Free.safe_pure h.settled
  | some path =>
    refine Free.safe_ite (fun _ => Free.safe_pure h.settled) fun _ => ?_
    refine beginOp_gives.of_only.then fun _ => ?_
    refine (openInode_safe (h.tidy.hasCwd hp _).begun path omode).bind ?_
    rintro (_ | ip) u hu
    · rw [show u = _ from hu]
      exact (endWith_safe _).mono fun _ u hu => hu ▸ h.settled
    · obtain ⟨-,rfl⟩ := hu
      exact openFile_safe h hp omode

/-! The first state. -/

/-- The tables when the first process starts: it has a current directory, no file is open and
the pages in `M` are free. -/
structure Procs.Booted (M : Set ℕ) (q : Procs) : Prop where
  live : (q.proc initproc).state = .live
  other : ∀ p, p ≠ initproc → (q.proc p).state = .unused ∧ (q.proc p).cwd = none
  cwd : (q.proc initproc).cwd ≠ none
  ofile : ∀ p fd, (q.proc p).ofile fd = none
  file : ∀ f, (q.ftable f).ref = 0
  pipe : ∀ a, q.pipe a = none
  nodup : q.free.Nodup
  free : ∀ a, a ∈ M ↔ a ∈ q.free
  outstanding : q.outstanding = 0

section Booted

variable (h : q.Booted M)
include h

theorem Procs.Booted.slots : q.slots = 0 := bag_eq_zero fun x => h.ofile x.1 x.2

theorem Procs.Booted.inodes : q.inodes = 0 := bag_eq_zero fun f => inode_of_ref_zero (h.file f)

theorem Procs.Booted.table : Table M q.slots q := by
  rw [h.slots]
  have hnone := fun f => notMem_zero (α := Fin NFILE) f
  obtain ⟨live,other,cwd,ofile,file,pipe,nodup,free,outstanding⟩ := h
  constructor <;> grind [count_zero]

theorem Procs.Booted.kept : Kept M q := by
  refine ⟨h.table,?_,h.outstanding⟩
  obtain ⟨live,other,cwd,ofile,file,pipe,nodup,free,outstanding⟩ := h
  constructor <;> grind

/-- The only reference is the current directory of the first process. -/
theorem Procs.Booted.cwds {c : Fin NINODE} (hc : (q.proc initproc).cwd = some c) : q.cwds = {c} := by
  rw [cwds_setProc_none (x := ⟨.live,none,none,fun _ => none⟩) rfl hc]
  refine congrArg (c ::ₘ ·) (bag_eq_zero fun p => ?_)
  have hother := h.other p
  grind

end Booted

/-- The tables of a machine that has just booted with two free pages. -/
def Procs.start : Procs :=
  ⟨fun p => ⟨if p = 0 then .live else .unused,none,if p = 0 then some 0 else none,fun _ => none⟩,
    fun _ => File.closed,fun _ => none,[1,2],0⟩

theorem Procs.start_booted : start.Booted {1,2} where
  live := rfl
  other := fun p hp => ⟨if_neg hp,if_neg hp⟩
  cwd := Option.some_ne_none 0
  ofile := fun _ _ => rfl
  file := fun _ => rfl
  pipe := fun _ => rfl
  nodup := by decide
  free := fun a => by simp [start]
  outstanding := rfl

/-! All system calls. -/

/-- A call on names or processes changes no count that is not settled at its end. -/
theorem Call.safe (c : Call) (h : Kept M q) (hp : (q.proc c.proc).state = .live) :
    Safe contract c.code q.book fun _ u => Settled M u := by
  have hcwd := h.tidy.hasCwd hp q.inodes
  have hsame : ∀ {x : Code ℤ}, Safe contract x q.book (fun _ u => u = q.book) →
      Safe contract x q.book fun _ u => Settled M u := fun hx => hx.mono fun _ u hu => hu ▸ h.settled
  cases c with
  | «open» p path omode => exact sysOpen_safe h hp path omode
  | mkdir p path => exact hsame (createAndPut_safe hcwd ..)
  | mknod p path major minor => exact hsame (createAndPut_safe hcwd ..)
  | link p old new => exact hsame (sysLink_safe hcwd ..)
  | unlink p path => exact hsame (sysUnlink_safe hcwd ..)
  | chdir p path => exact sysChdir_safe h hp path
  | dup p fd => exact (sysDup_gives h hp fd).of_only
  | close p fd => exact (sysClose_gives h hp fd).of_only
  | fork p mem => exact (kfork_gives h hp mem).of_only
  | exit p => exact (kexit_gives h hp).of_only.bind fun _ _ hu => Free.safe_pure hu
  | wait p killed copy => exact (kwait_gives h killed copy).of_only

/-- A system call on files, processes or names. -/
inductive Syscall
  | name (c : Call)
  | pipe (p : Fin NPROC) (mem copy : Bool)
  | read (p : Fin NPROC) (fd : ℤ) (io : Io) (n : ℤ)
  | write (p : Fin NPROC) (fd : ℤ) (io : Io) (n : ℤ)
  | fstat (p : Fin NPROC) (fd : ℤ) (io : Io)

namespace Syscall

def proc : Syscall → Fin NPROC
  | .name c => c.proc
  | .pipe p _ _ | .read p _ _ _ | .write p _ _ _ | .fstat p _ _ => p

def code : Syscall → Code ℤ
  | .name c => c.code
  | .pipe p mem copy => sysPipe p mem copy
  | .read p fd io n => sysRead p fd io n
  | .write p fd io n => sysWrite p fd io n
  | .fstat p fd io => sysFstat p fd io

end Syscall

theorem Moved.settled {u : Book} (hu : Moved M q.slots q (q.inodes+q.cwds) (fun _ => false) u)
    (h : Kept M q) : Settled M u := by
  obtain ⟨q',rfl,hq'⟩ := hu
  refine ⟨q',?_,?_,hq'.proc ▸ h.tidy,hq'.outstanding.trans h.outstanding⟩
  · rw [Procs.book,hq'.inodes,cwds_congr hq'.proc]
  · rw [slots_congr hq'.proc]
    exact hq'.table

/-- `argfd`, and then something on the file it finds. -/
theorem withFile_safe {x : Option (Fin NOFILE × Fin NFILE) → Code ℤ} (fd : ℤ)
    (hnone : Safe contract (x none) q.book fun _ u => Settled M u)
    (hx : ∀ d f, f ∈ q.slots → Safe contract (x (some (d,f))) q.book fun _ u => Settled M u) :
    Safe contract (argfd p fd >>= x) q.book fun _ u => Settled M u := by
  refine (argfd_gives fd).of_only.bind ?_
  rintro (_ | ⟨d,f⟩) _ ⟨rfl,hf⟩
  · exact hnone
  · exact hx d f (mem_slots (hf d f rfl))

theorem Syscall.safe (c : Syscall) (h : Kept M q) (hp : (q.proc c.proc).state = .live) :
    Safe contract c.code q.book fun _ u => Settled M u := by
  have hin : ∀ ip ∈ q.inodes, ip ∈ q.inodes+q.cwds := fun ip hip =>
    mem_add.mpr (.inl hip)
  cases c with
  | name c => exact c.safe h hp
  | pipe p mem copy => exact (sysPipe_gives h hp mem copy).of_only
  | read p fd io n =>
    refine Free.safe_ite (fun _ => Free.safe_pure h.settled) fun _ =>
      withFile_safe fd (Free.safe_pure h.settled) ?_
    exact fun d f hf => (fileread_safe h.table hf hin io n).mono fun _ _ hu => hu.settled h
  | write p fd io n =>
    refine Free.safe_ite (fun _ => Free.safe_pure h.settled) fun _ =>
      withFile_safe fd (Free.safe_pure h.settled) ?_
    exact fun d f hf => (filewrite_safe h.table hf hin io n).mono fun _ _ hu => hu.settled h
  | fstat p fd io =>
    refine withFile_safe fd (Free.safe_pure h.settled) fun d f hf => ?_
    exact (filestat_safe h.table hf hin io).mono fun _ u hu => hu ▸ h.settled

end Names
end Xv6
