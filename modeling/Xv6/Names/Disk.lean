import Xv6.Fs.Invariant
import Xv6.Fs.Parts
import Xv6.Names.Calls

/-! The system calls over the inode layer of `fs.c`, on the bytes of the disk.  The contracts of
the inode operations hold for any contents of the disk, so the counts of references are exact
whatever a disk holds. -/
namespace Xv6
namespace Names

open Multiset
open Fs (NINODE Panic Superblock)

namespace Dirent

/-- The 16 bytes of a directory entry. -/
def bytes (de : Dirent) : List UInt8 :=
  Bytes.toLE 2 de.inum ++ (de.name ++ List.replicate DIRSIZ 0).take DIRSIZ

def ofBytes (xs : List UInt8) : Dirent :=
  ⟨Bytes.ofLE (xs.take 2),(xs.drop 2).takeWhile (· ≠ 0)⟩

end Dirent

namespace Disk

variable (sb : Superblock)

def stat (ip : Fin NINODE) : Fs.Op Stat := do
  let x ← Fs.inode ip
  pure ⟨x.inum,x.d.type,UInt16.ofNat x.d.major,UInt16.ofNat x.d.minor,x.d.nlink⟩

def iupdate (ip : Fin NINODE) (major minor : UInt16) (nlink : ℕ) : Fs.Op Unit := do
  Fs.setDinode ip fun d => { d with major := major.toNat, minor := minor.toNat, nlink := nlink % 2^16 }
  Fs.iupdate sb ip

def readi (ip : Fin NINODE) (k : ℕ) : Fs.Op (Option Dirent) := do
  let r ← Fs.readi sb ip (fun _ _ => true) (DESIZE*k) DESIZE
  pure (if r.1 = DESIZE then some (.ofBytes r.2) else none)

def writei (ip : Fin NINODE) (k : ℕ) (de : Dirent) : Fs.Op Bool := do
  let r ← Fs.writei sb ip (fun tot m => ((de.bytes.drop tot).take m,true)) (DESIZE*k) DESIZE
  pure (r = DESIZE)

/-- The inode operations of `fs.c`. -/
def serve : (c : InodeCmd) → Fs.Op c.Result
  | .iget inum => Fs.iget inum
  | .idup ip => do
    let _ ← Fs.idup ip
    pure ()
  | .ilock ip => Fs.ilock sb ip
  | .iunlock ip => Fs.iunlock ip
  | .iput ip => Fs.iput sb ip
  | .ialloc type => Fs.ialloc sb type
  | .itrunc ip => Fs.itrunc sb ip
  | .stat ip => stat ip
  | .size ip => do
    let x ← Fs.inode ip
    pure x.d.size
  | .iupdate ip major minor nlink => iupdate sb ip major minor nlink
  | .readi ip k => readi sb ip k
  | .writei ip k de => writei sb ip k de
  | .readu ip copyout off n => do
    let r ← Fs.readi sb ip copyout off n
    pure r.1
  | .writeu ip copyin off n => Fs.writei sb ip copyin off n

end Disk

/-! Operations below the references. -/

/-- No reference and no lock has changed. -/
def SameRefs (s t : Fs.State) : Prop :=
  ∀ ip, (t.itable ip).ref = (s.itable ip).ref ∧ (t.itable ip).locked = (s.itable ip).locked

/-- The operation leaves references and locks alone. -/
def Still {α : Type} (x : Fs.Op α) : Prop :=
  ∀ s, Prog.Meets x s (fun _ t => SameRefs s t) (· ≠ .misuse)

namespace Still

variable {α β : Type} {x : Fs.Op α} {ip : Fin NINODE} {sb : Superblock}

theorem pure (a : α) : Still (Pure.pure a : Fs.Op α) := fun _ =>
  Prog.meets_of_run rfl fun _ => ⟨rfl,rfl⟩

theorem bind {f : α → Fs.Op β} (hx : Still x) (hf : ∀ a, Still (f a)) : Still (x >>= f) := fun s => by
  refine (hx s).bind fun a t ht => ?_
  refine Prog.Meets.mono (hf a t) fun b u hu ip => ?_
  exact ⟨(hu ip).1.trans (ht ip).1,(hu ip).2.trans (ht ip).2⟩

theorem ite {c : Prop} [Decidable c] {y : Fs.Op α} (hx : Still x) (hy : Still y) :
    Still (if c then x else y) := by
  split
  · exact hx
  · exact hy

theorem throw {e : Panic} (he : e ≠ .misuse) : Still (MonadExcept.throw e : Fs.Op α) := fun _ =>
  Prog.meets_of_error rfl he

theorem bread (b : ℕ) : Still (Fs.bread b) := fun _ => Prog.meets_of_run rfl fun _ => ⟨rfl,rfl⟩

theorem bstore (b : ℕ) (x : Block) : Still (Fs.bstore b x) := fun _ =>
  Prog.meets_of_run rfl fun _ => ⟨rfl,rfl⟩

theorem logWrite (b : ℕ) : Still (Fs.logWrite b) := fun _ => Prog.meets_of_run rfl fun _ => ⟨rfl,rfl⟩

theorem inode (ip : Fin NINODE) : Still (Fs.inode ip) := fun _ =>
  Prog.meets_of_run rfl fun _ => ⟨rfl,rfl⟩

theorem setDinode (ip : Fin NINODE) (f : Fs.Dinode → Fs.Dinode) : Still (Fs.setDinode ip f) := fun s => by
  refine Prog.meets_of_run rfl fun j => ?_
  by_cases hj : j = ip
  · subst hj
    simp only [Function.update_self,and_self]
  · simp only [Function.update_of_ne hj,and_self]

theorem parts (ip : Fin NINODE) : Fs.Parts (fun _ x => Still x) ip where
  pure := pure
  bind := bind
  throw := throw
  bread := bread
  bstore := bstore
  logWrite := logWrite
  inode := inode ip
  setDinode := setDinode ip

end Still

/-! The contracts. -/

/-- The table counts the references that are out, and the locks are those held. -/
def Counts (s : Fs.State) (R : Multiset (Fin NINODE)) (L : Fin NINODE → Bool) : Prop :=
  ∀ ip, (s.itable ip).ref = R.count ip ∧ (s.itable ip).locked = L ip

section Counts

variable {s t : Fs.State} {R : Multiset (Fin NINODE)} {L : Fin NINODE → Bool} {ip : Fin NINODE}
  {sb : Superblock}

theorem Counts.same (h : Counts s R L) (hst : SameRefs s t) : Counts t R L := fun ip =>
  ⟨(hst ip).1.trans (h ip).1,(hst ip).2.trans (h ip).2⟩

/-- One entry of the table changes. -/
theorem Counts.update {R' : Multiset (Fin NINODE)} {L' : Fin NINODE → Bool} {x : Fs.Inode}
    (h : Counts s R L) (hR : ∀ j, j ≠ ip → R'.count j = R.count j) (hL : ∀ j, j ≠ ip → L' j = L j)
    (href : x.ref = R'.count ip) (hlock : x.locked = L' ip) :
    Counts { s with itable := Function.update s.itable ip x } R' L' := by
  intro j
  by_cases hj : j = ip
  · subst hj
    simp only [Function.update_self]
    exact ⟨href,hlock⟩
  · simp only [Function.update_of_ne hj]
    exact ⟨(h j).1.trans (hR j hj).symm,(h j).2.trans (hL j hj).symm⟩

theorem Counts.ref_cons {x : Fs.Inode} (h : Counts s R L) (href : x.ref = (s.itable ip).ref+1)
    (hlock : x.locked = (s.itable ip).locked) :
    Counts { s with itable := Function.update s.itable ip x } (ip ::ₘ R) L :=
  h.update (fun _ hj => count_cons_of_ne hj R) (fun _ _ => rfl)
    (by rw [href,(h ip).1,count_cons_self]) (hlock.trans (h ip).2)

theorem Counts.lock {x : Fs.Inode} {b : Bool} (h : Counts s R L) (href : x.ref = (s.itable ip).ref)
    (hlock : x.locked = b) :
    Counts { s with itable := Function.update s.itable ip x } R (Function.update L ip b) :=
  h.update (fun _ _ => rfl) (fun _ hj => Function.update_of_ne hj ..) (href.trans (h ip).1)
    (by rw [hlock,Function.update_self])

theorem iget_counts (h : Counts s R L) (inum : ℕ) :
    Prog.Meets (Fs.iget inum) s (fun ip t => Counts t (ip ::ₘ R) L) (· ≠ .misuse) := by
  unfold Fs.iget
  refine Prog.meets_bind_of_run rfl ?_
  split
  next ip _ => exact Prog.meets_of_run rfl (h.ref_cons (x := ⟨_,_,_,_,_⟩) rfl rfl)
  next =>
    split
    next ip hip =>
      have href := Fs.emptyEntry_some hip
      exact Prog.meets_of_run rfl (h.ref_cons (x := ⟨_,1,_,_,_⟩) (by rw [href]) rfl)
    next => exact Prog.meets_of_error rfl (by decide)

theorem iallocFrom_counts (h : Counts s R L) (type : ℕ) (l : List ℕ) :
    Prog.Meets (Fs.iallocFrom sb type l) s (fun r t => Counts t (single r+R) L) (· ≠ .misuse) := by
  induction l with
  | nil => exact Prog.meets_of_run rfl (by rwa [single_none_add])
  | cons inum l ih =>
    unfold Fs.iallocFrom
    refine Prog.meets_bind_of_run rfl ?_
    split
    · refine Prog.meets_bind_of_run (Fs.bstore_run ..) (Prog.meets_bind_of_run (Fs.logWrite_run ..) ?_)
      have hnew : Counts ((s.poke (Fs.IBLOCK sb inum)
        ({ Fs.Dinode.blank with type := type % 2^16 }.write (s.view (Fs.IBLOCK sb inum))
          (Fs.dinodeOff inum))).log (Fs.IBLOCK sb inum)) R L := h
      refine (iget_counts hnew inum).bind fun ip t ht => Prog.meets_of_run rfl ?_
      rwa [single_some_add]
    · exact ih

theorem ilock_counts (h : Counts s R L) : Prog.Meets (Fs.ilock sb ip) s
    (fun _ t => L ip = false ∧ Counts t R (Function.update L ip true)) (· ≠ .misuse) := by
  unfold Fs.ilock
  refine Prog.meets_bind_of_run rfl ?_
  split
  · exact Prog.meets_of_error rfl (by decide)
  split
  · exact Prog.meets_of_error rfl (by decide)
  next hfree =>
    have hfree : L ip = false := by rw [← (h ip).2]; exact Bool.eq_false_iff.mpr hfree
    split
    · exact Prog.meets_of_run rfl ⟨hfree,h.lock (x := ⟨_,_,true,_,_⟩) rfl rfl⟩
    · refine Prog.meets_bind_of_run rfl (Prog.meets_bind_of_run rfl ?_)
      split
      · exact Prog.meets_of_error rfl (by decide)
      · exact Prog.meets_of_run rfl ⟨hfree,h.lock (x := ⟨_,_,true,_,_⟩) rfl rfl⟩

theorem iunlock_counts (h : Counts s R L) : Prog.Meets (Fs.iunlock ip) s
    (fun _ t => Counts t R (Function.update L ip false)) (· ≠ .misuse) := by
  unfold Fs.iunlock
  refine Prog.meets_bind_of_run rfl ?_
  split
  · exact Prog.meets_of_error rfl (by decide)
  · exact Prog.meets_of_run rfl (h.lock (x := ⟨_,_,false,_,_⟩) rfl rfl)

theorem iputFree_still : Still (Fs.iputFree sb ip) := by
  refine (Still.parts ip).itrunc.bind fun _ => (Still.setDinode ip _).bind fun _ =>
    (Still.parts ip).iupdate.bind fun _ s => ?_
  refine Prog.meets_of_run rfl fun j => ?_
  by_cases hj : j = ip
  · subst hj
    simp only [Function.update_self,and_self]
  · simp only [Function.update_of_ne hj,and_self]

theorem iput_counts (h : Counts s (ip ::ₘ R) L) :
    Prog.Meets (Fs.iput sb ip) s (fun _ t => Counts t R L) (· ≠ .misuse) := by
  unfold Fs.iput
  refine Prog.meets_bind_of_run rfl ?_
  have hfree : Still (if (s.itable ip).ref = 1 ∧ (s.itable ip).valid = true ∧
      (s.itable ip).d.nlink = 0 then
        if (s.itable ip).locked then MonadExcept.throw Panic.deadlock else Fs.iputFree sb ip
      else Pure.pure ()) :=
    .ite (.ite (.throw (by decide)) iputFree_still) (.pure ())
  refine (hfree s).bind fun _ t ht => ?_
  have ht := h.same ht
  refine Prog.meets_bind_of_run rfl (Prog.meets_of_run rfl ?_)
  refine ht.update (fun _ hj => (count_cons_of_ne hj R).symm) (fun _ _ => rfl) ?_ (ht ip).2
  show (t.itable ip).ref-1 = _
  rw [(ht ip).1,count_cons_self,Nat.add_sub_cancel]

end Counts

/-- The state of the machine and what is out. -/
def Booked (s : Sys Fs.State) (t : Book) : Prop := s.ps = t.ps ∧ Counts s.fs t.refs t.held

/-- An inode operation of the machine changes no table. -/
theorem handle_inode {σ : Type} {impl : (c : InodeCmd) → Prog Panic σ c.Result} {c : InodeCmd}
    {s : Sys σ} {Q : c.Result → σ → Prop} {E : Panic → Prop} (h : Prog.Meets (impl c) s.fs Q E) :
    Prog.Meets (handle impl (.inode c)) s (fun r t => t.ps = s.ps ∧ Q r t.fs) E := by
  cases hrun : (impl c).run s.fs with
  | ok rt =>
    obtain ⟨r,u⟩ := rt
    have hh : (handle impl (.inode c)).run s = .ok (r,{ s with fs := u }) := by
      simp only [StateT.run] at hrun
      simp only [StateT.run,handle,hrun]
    exact Prog.meets_of_run hh ⟨rfl,h.of_ok hrun⟩
  | error e =>
    have hh : (handle impl (.inode c)).run s = .error e := by
      simp only [StateT.run] at hrun
      simp only [StateT.run,handle,hrun]
    exact Prog.meets_of_error hh (h.of_error hrun)

/-- The operations of `fs.c` keep the contracts. -/
theorem serve_counts (sb : Superblock) (c : InodeCmd) {s : Fs.State} {t : Book}
    (h : Counts s t.refs t.held) (hpre : Book.pre (.inode c) t) :
    Prog.Meets (Disk.serve sb c) s
      (fun r s' => ∃ t', t'.ps = t.ps ∧ Counts s' t'.refs t'.held ∧ Book.post (.inode c) r t t')
      (· ≠ .misuse) := by
  have hstill : ∀ {α : Type} {x : Fs.Op α}, Still x → Prog.Meets x s
      (fun _ s' => Counts s' t.refs t.held) (· ≠ .misuse) := fun hx =>
    (hx s).mono fun _ _ hs' => h.same hs'
  cases c with
  | iget inum => exact (iget_counts h inum).mono fun ip s' hs' =>
      ⟨⟨ip ::ₘ t.refs,t.held,t.ps⟩,rfl,hs',rfl⟩
  | idup ip =>
    exact Prog.meets_of_run rfl ⟨⟨ip ::ₘ t.refs,t.held,t.ps⟩,rfl,
      h.ref_cons (x := ⟨_,_,_,_,_⟩) rfl rfl,rfl⟩
  | ilock ip => exact (ilock_counts h).mono fun _ s' hs' =>
      ⟨⟨t.refs,Function.update t.held ip true,t.ps⟩,rfl,hs'.2,hs'.1,rfl⟩
  | iunlock ip => exact (iunlock_counts h).mono fun _ s' hs' =>
      ⟨⟨t.refs,Function.update t.held ip false,t.ps⟩,rfl,hs',rfl⟩
  | iput ip =>
    have hcons : ip ::ₘ t.refs.erase ip = t.refs := cons_erase hpre
    refine (iput_counts (R := t.refs.erase ip) (hcons.symm ▸ h)).mono fun _ s' hs' =>
      ⟨⟨t.refs.erase ip,t.held,t.ps⟩,rfl,hs',rfl⟩
  | ialloc type =>
    refine (iallocFrom_counts h type _).mono fun r s' hs' => ?_
    cases r with
    | none => exact ⟨t,rfl,by rwa [single_none_add] at hs',rfl⟩
    | some ip =>
      rw [single_some_add] at hs'
      exact ⟨⟨ip ::ₘ t.refs,t.held,t.ps⟩,rfl,hs',rfl⟩
  | itrunc ip => exact (hstill (Still.parts ip).itrunc).mono fun _ s' hs' => ⟨t,rfl,hs',rfl⟩
  | stat ip =>
    refine (hstill ((Still.inode ip).bind fun _ => .pure _)).mono fun _ s' hs' => ⟨t,rfl,hs',rfl⟩
  | size ip =>
    refine (hstill ((Still.inode ip).bind fun _ => .pure _)).mono fun _ s' hs' => ⟨t,rfl,hs',rfl⟩
  | iupdate ip major minor nlink =>
    refine (hstill ((Still.setDinode ip _).bind fun _ => (Still.parts ip).iupdate)).mono
      fun _ s' hs' => ⟨t,rfl,hs',rfl⟩
  | readi ip k =>
    refine (hstill (((Still.parts ip).readi _ _ _).bind fun _ => .pure _)).mono fun _ s' hs' => ⟨t,rfl,hs',rfl⟩
  | writei ip k de =>
    refine (hstill (((Still.parts ip).writei _ _ _).bind fun _ => .pure _)).mono fun _ s' hs' => ⟨t,rfl,hs',rfl⟩
  | readu ip copyout off n =>
    refine (hstill (((Still.parts ip).readi _ _ _).bind fun _ => .pure _)).mono fun _ s' hs' => ⟨t,rfl,hs',rfl⟩
  | writeu ip copyin off n =>
    refine (hstill ((Still.parts ip).writei copyin off n)).mono fun _ s' hs' => ⟨t,rfl,hs',rfl⟩

theorem handle_booked (sb : Superblock) (c : Cmd) (s : Sys Fs.State) (t : Book) (h : Booked s t)
    (hpre : Book.contract.pre c t) :
    Prog.Meets (handle (Disk.serve sb) c) s
      (fun r s' => ∃ t', Booked s' t' ∧ Book.contract.post c r t t') (· ≠ .misuse) := by
  cases c with
  | inode c =>
    refine (handle_inode (serve_counts sb c h.2 hpre)).mono fun r s' hs' => ?_
    obtain ⟨hps,t',hps',hcounts,hpost⟩ := hs'
    exact ⟨t',⟨hps.trans (h.1.trans hps'.symm),hcounts⟩,hpost⟩
  | procs => exact Prog.meets_of_run rfl ⟨t,h,h.1,rfl⟩
  | setProcs q => exact Prog.meets_of_run rfl ⟨{ t with ps := q },⟨rfl,h.2⟩,rfl⟩
  | panic e => exact Prog.meets_of_error rfl hpre.1

/-! Runs. -/

namespace Disk

/-- One system call of a live process, run to its end; none if it does not return. -/
def step (sb : Superblock) (s : Sys Fs.State) (c : Syscall) : Option (Sys Fs.State) :=
  if (s.ps.proc c.proc).state = .live then
    match (c.code.run (handle (serve sb))).run s with
    | .ok (_,t) => some t
    | .error _ => none
  else none

/-- The state when the first process starts: the tables are as after boot, and its current
directory is the only reference to an inode. -/
structure Booted (M : Set ℕ) (s : Sys Fs.State) : Prop where
  tables : s.ps.Booted M
  ref : ∀ ip, (s.fs.itable ip).ref = if (s.ps.proc initproc).cwd = some ip then 1 else 0
  locked : ∀ ip, (s.fs.itable ip).locked = false

/-- Every count is what it is meant to count. -/
structure Exact (M : Set ℕ) (s : Sys Fs.State) : Prop where
  /-- `f->ref` is the number of descriptors of `f`. -/
  file : ∀ f, (s.ps.ftable f).ref = (Finset.univ.filter fun x : Fin NPROC × Fin NOFILE =>
    (s.ps.proc x.1).ofile x.2 = some f).card
  /-- `ip->ref` is the number of open files and current directories at `ip`. -/
  inode : ∀ ip, (s.fs.itable ip).ref =
    (Finset.univ.filter fun f => 0 < (s.ps.ftable f).ref ∧
      ((s.ps.ftable f).type = .inode ∨ (s.ps.ftable f).type = .device) ∧
      (s.ps.ftable f).ip = some ip).card +
    (Finset.univ.filter fun p => (s.ps.proc p).cwd = some ip).card
  /-- An end of a pipe is open as long as some open file is that end. -/
  readopen : ∀ a pi, s.ps.pipe a = some pi → (pi.readopen = true ↔ ∃ f, 0 < (s.ps.ftable f).ref ∧
    (s.ps.ftable f).type = .pipe ∧ (s.ps.ftable f).pipe = some a ∧ (s.ps.ftable f).readable = true)
  writeopen : ∀ a pi, s.ps.pipe a = some pi → (pi.writeopen = true ↔ ∃ f, 0 < (s.ps.ftable f).ref ∧
    (s.ps.ftable f).type = .pipe ∧ (s.ps.ftable f).pipe = some a ∧ (s.ps.ftable f).writable = true)
  /-- A pipe has an open end, an open file on a pipe finds one, and the pages of `M` without a
  pipe are free, once each. -/
  isOpen : ∀ a pi, s.ps.pipe a = some pi → pi.readopen = true ∨ pi.writeopen = true
  exists_pipe : ∀ f, 0 < (s.ps.ftable f).ref → (s.ps.ftable f).type = .pipe →
    ∃ a pi, (s.ps.ftable f).pipe = some a ∧ s.ps.pipe a = some pi
  page : ∀ a, a ∈ M → (a ∈ s.ps.free ↔ s.ps.pipe a = none)
  nodup : s.ps.free.Nodup
  unused : ∀ p, (s.ps.proc p).state = .unused →
    (s.ps.proc p).cwd = none ∧ ∀ fd, (s.ps.proc p).ofile fd = none
  locked : ∀ ip, (s.fs.itable ip).locked = false
  outstanding : s.ps.outstanding = 0

end Disk

variable {M : Set ℕ} {s t : Sys Fs.State} {sb : Superblock}

/-- The invariant between two calls. -/
def InOrder (M : Set ℕ) (s : Sys Fs.State) : Prop := Kept M s.ps ∧ Booked s s.ps.book

theorem Disk.Booted.inOrder (h : Disk.Booted M s) : InOrder M s := by
  obtain ⟨c,hc⟩ := Option.ne_none_iff_exists'.mp h.tables.cwd
  refine ⟨h.tables.kept,rfl,fun ip => ⟨?_,h.locked ip⟩⟩
  show (s.fs.itable ip).ref = (s.ps.inodes+s.ps.cwds).count ip
  rw [h.ref ip,h.tables.inodes,h.tables.cwds hc,zero_add,hc,count_singleton]
  simp only [Option.some.injEq,eq_comm]

/-- The files that are an end of the pipe at `a`. -/
theorem Table.isOpen_iff {S : Multiset (Fin NFILE)} {q : Procs} {a : ℕ} {pi : Pipe} {w : Bool}
    (h : Table M S q) (ha : q.pipe a = some pi) :
    pi.isOpen w = true ↔ ∃ f, 0 < (q.ftable f).ref ∧ (q.ftable f).IsEnd a w := by
  refine ⟨fun hw => ?_,fun ⟨f,href,hend⟩ => ?_⟩
  · obtain ⟨f,hf,hend⟩ := h.file a pi w ha hw
    exact ⟨f,h.mem_iff.mp hf,hend⟩
  · obtain ⟨pj,hpj,hw⟩ := h.pipe f (h.mem_iff.mpr href) a w hend
    cases ha.symm.trans hpj
    exact hw

/-- An open file on a pipe is an end of it by what it allows. -/
theorem Table.isEnd_iff {S : Multiset (Fin NFILE)} {q : Procs} {a : ℕ} {f : Fin NFILE} {w : Bool}
    (h : Table M S q) (href : 0 < (q.ftable f).ref) :
    (q.ftable f).IsEnd a w ↔ (q.ftable f).type = .pipe ∧ (q.ftable f).pipe = some a ∧
      (if w then (q.ftable f).writable else (q.ftable f).readable) = true := by
  refine ⟨fun hend => ⟨hend.1,hend.2.1,?_⟩,fun ⟨ht,hp,hw⟩ => ?_⟩
  · cases w
    · exact hend.2.2.2
    · exact hend.2.2.1
  · obtain ⟨b,v,hend⟩ := h.isEnd f (h.mem_iff.mpr href) ht
    cases hp.symm.trans hend.2.1
    have hv : v = w := by
      cases v <;> cases w <;> simp [hend.2.2.1,hend.2.2.2] at hw ⊢
    exact hv ▸ hend

theorem InOrder.exact (h : InOrder M s) : Disk.Exact M s := by
  obtain ⟨⟨ht,htidy,hout⟩,-,hcounts⟩ := h
  have hends : ∀ a pi w, s.ps.pipe a = some pi → (pi.isOpen w = true ↔ ∃ f,
      0 < (s.ps.ftable f).ref ∧ (s.ps.ftable f).type = .pipe ∧ (s.ps.ftable f).pipe = some a ∧
      (if w then (s.ps.ftable f).writable else (s.ps.ftable f).readable) = true) := fun a pi w ha =>
    (ht.isOpen_iff ha).trans (exists_congr fun f => and_congr_right fun href => ht.isEnd_iff href)
  refine ⟨fun f => ?_,fun ip => ?_,fun a pi ha => hends a pi false ha,fun a pi ha => hends a pi true ha,
    fun a pi ha => ?_,fun f href htype => ?_,fun a ha => ⟨ht.page a,fun hnone => ?_⟩,ht.nodup,
    fun p hp => ?_,fun ip => (hcounts ip).2,hout⟩
  · rw [ht.ref f,Procs.slots,count_bag]
  · have hfiles : s.ps.inodes.count ip = (Finset.univ.filter fun f => 0 < (s.ps.ftable f).ref ∧
        ((s.ps.ftable f).type = .inode ∨ (s.ps.ftable f).type = .device) ∧
        (s.ps.ftable f).ip = some ip).card := by
      rw [Procs.inodes,count_bag]
      refine congrArg Finset.card (Finset.filter_congr fun f _ => ?_)
      rw [File.inode,Option.ite_none_right_eq_some,and_assoc]
    rw [(hcounts ip).1,Procs.book,count_add,hfiles,Procs.cwds,count_bag]
  · obtain ⟨w,hw⟩ := ht.isOpen a pi ha
    cases w
    · exact .inl hw
    · exact .inr hw
  · have hf := ht.mem_iff.mpr href
    obtain ⟨a,w,hend⟩ := ht.isEnd f hf htype
    obtain ⟨pi,hpi,-⟩ := ht.pipe f hf a w hend
    exact ⟨a,pi,hend.2.1,hpi⟩
  · exact ((ht.pages a).mp ha).resolve_right fun hne => hne hnone
  · have hdead : (s.ps.proc p).state ≠ .live := by rw [hp]; decide
    exact ⟨htidy.noCwd p hdead,htidy.noFile p hdead⟩

theorem InOrder.step {c : Syscall} (h : InOrder M s) (hstep : Disk.step sb s c = some t) :
    InOrder M t := by
  unfold Disk.step at hstep
  split at hstep
  next hlive =>
    have hrun := (c.safe h.1 hlive).run (handle_booked sb) h.2
    split at hstep
    next r u hu =>
      obtain ⟨b,hb,q,rfl,hq⟩ := hrun.of_ok hu
      cases hstep
      have hps : t.ps = q := hb.1
      subst hps
      exact ⟨hq,hb⟩
    next => cases hstep
  next => cases hstep

/-- From boot on, between any two system calls the references to files, inodes and pipes are
counted exactly. -/
theorem counts_exact {s₀ : Sys Fs.State} (h₀ : Disk.Booted M s₀)
    (h : Reaches (Disk.step sb) (fun _ _ => True) s₀ s) : Disk.Exact M s :=
  (h.invariant h₀.inOrder fun _ _ _ ha _ hstep => ha.step hstep).exact

namespace Disk

/-- A machine that has just booted on an empty disk, with two free pages. -/
def start : Sys Fs.State where
  fs := ⟨fun _ => Bytes.zero BSIZE,[],fun ip => ⟨1,if ip = 0 then 1 else 0,false,false,Fs.Dinode.blank⟩⟩
  ps := .start

theorem start_booted : Booted {1,2} start where
  tables := Procs.start_booted
  ref ip := by
    by_cases h : ip = 0
    · simp [start,Procs.start,h,initproc]
    · simp [start,Procs.start,h,initproc,eq_comm]
  locked _ := rfl

end Disk

/-- A pipe is made and shared with a child, which closes one end and exits. -/
theorem counts_exact_after_child : ∃ t, Reaches (Disk.step ⟨1,1,0,0,0,0⟩) (fun _ _ => True)
    Disk.start t ∧ Disk.Exact {1,2} t ∧ (t.ps.ftable 0).ref = 1 := by
  let es : List Syscall := [.pipe 0 true true,.name (.fork 0 true),.name (.close 1 0),
    .name (.exit 1),.name (.wait 0 false true)]
  have hrun : (runEvents (Disk.step ⟨1,1,0,0,0,0⟩) (fun _ _ => true) Disk.start es).map
      (fun t => decide ((t.ps.ftable 0).ref = 1)) = some true := by decide +kernel
  obtain ⟨t,ht,href⟩ := Option.map_eq_some_iff.mp hrun
  have hreach : Reaches (Disk.step ⟨1,1,0,0,0,0⟩) (fun _ _ => True) Disk.start t :=
    (reaches_of_runEvents ht).mono fun _ _ _ => trivial
  exact ⟨t,hreach,counts_exact Disk.start_booted hreach,of_decide_eq_true href⟩

end Names
end Xv6
