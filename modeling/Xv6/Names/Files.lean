import Xv6.Names.Book

/-! The table of open files and the pipes behind it.  `Table M S q` says that the table
counts exactly the references `S` to its files, and that every page of `M` is free or holds a
pipe with an open end. -/
namespace Xv6
namespace Names

open Function Multiset
open Fs (NINODE)
open Free (Safe)
open Book (contract)

/-- Whether the end for writing, or for reading, is open. -/
def Pipe.isOpen (pi : Pipe) (w : Bool) : Bool := if w then pi.writeopen else pi.readopen

/-- The pipe with one end closed. -/
def Pipe.shut (pi : Pipe) (w : Bool) : Pipe :=
  if w then { pi with writeopen := false } else { pi with readopen := false }

/-- `x` is the end of the pipe at `a` for writing, or for reading. -/
def File.IsEnd (x : File) (a : ℕ) (w : Bool) : Prop :=
  x.type = .pipe ∧ x.pipe = some a ∧ x.writable = w ∧ x.readable = !w

/-- The inode an open file refers to. -/
def File.inode (x : File) : Option (Fin NINODE) :=
  if 0 < x.ref ∧ (x.type = .inode ∨ x.type = .device) then x.ip else none

/-- The references from files to inodes. -/
def Procs.inodes (q : Procs) : Multiset (Fin NINODE) := bag fun f => (q.ftable f).inode

structure Table (M : Set ℕ) (S : Multiset (Fin NFILE)) (q : Procs) : Prop where
  ref : ∀ f, (q.ftable f).ref = S.count f
  ip : ∀ f ∈ S, (q.ftable f).type = .inode ∨ (q.ftable f).type = .device → (q.ftable f).ip ≠ none
  isEnd : ∀ f ∈ S, (q.ftable f).type = .pipe → ∃ a w, (q.ftable f).IsEnd a w
  pipe : ∀ f ∈ S, ∀ a w, (q.ftable f).IsEnd a w → ∃ pi, q.pipe a = some pi ∧ pi.isOpen w = true
  file : ∀ a pi w, q.pipe a = some pi → pi.isOpen w = true → ∃ f ∈ S, (q.ftable f).IsEnd a w
  once : ∀ f ∈ S, ∀ g ∈ S, ∀ a w, (q.ftable f).IsEnd a w → (q.ftable g).IsEnd a w → f = g
  isOpen : ∀ a pi, q.pipe a = some pi → ∃ w, pi.isOpen w = true
  nodup : q.free.Nodup
  page : ∀ a ∈ q.free, q.pipe a = none
  pages : ∀ a, a ∈ M ↔ a ∈ q.free ∨ q.pipe a ≠ none

variable {M : Set ℕ} {S S' : Multiset (Fin NFILE)} {q : Procs} {f g : Fin NFILE} {x : File}

section SetFile

theorem ftable_setFile_self : (q.setFile f x).ftable f = x := update_self ..

theorem ftable_setFile_of_ne (h : g ≠ f) : (q.setFile f x).ftable g = q.ftable g :=
  update_of_ne h ..

@[grind =] theorem ftable_setFile :
    (q.setFile f x).ftable g = if g = f then x else q.ftable g := update_apply ..

@[grind =] theorem pipe_setFile (a : ℕ) : (q.setFile f x).pipe a = q.pipe a := rfl

@[grind =] theorem free_setFile : (q.setFile f x).free = q.free := rfl

theorem inode_family (q : Procs) (f : Fin NFILE) (x : File) :
    (fun g => ((q.setFile f x).ftable g).inode) =
      update (fun g => (q.ftable g).inode) f x.inode := by
  funext g
  by_cases h : g = f
  · subst h
    rw [ftable_setFile_self,update_self]
  · rw [ftable_setFile_of_ne h,update_of_ne h]

theorem inodes_setFile_same (h : x.inode = (q.ftable f).inode) :
    (q.setFile f x).inodes = q.inodes := by
  rw [Procs.inodes,inode_family,h,Procs.inodes]
  exact congrArg bag (update_eq_self f fun g => (q.ftable g).inode)

theorem inodes_setFile_none {ip : Fin NINODE} (hx : x.inode = none)
    (h : (q.ftable f).inode = some ip) : q.inodes = ip ::ₘ (q.setFile f x).inodes := by
  rw [Procs.inodes,Procs.inodes,inode_family,hx]
  exact bag_update_none (f := fun g => (q.ftable g).inode) h

theorem inodes_setFile_some {ip : Fin NINODE} (hx : x.inode = some ip)
    (h : (q.ftable f).inode = none) : (q.setFile f x).inodes = ip ::ₘ q.inodes := by
  rw [Procs.inodes,Procs.inodes,inode_family,hx]
  exact bag_update_some (f := fun g => (q.ftable g).inode) h ip

end SetFile

namespace Table

theorem of_eq {q' : Procs} (h : Table M S q) (hf : q'.ftable = q.ftable) (hp : q'.pipe = q.pipe)
    (hfree : q'.free = q.free) : Table M S q' := by
  obtain ⟨proc,ftable,pipe,free,outstanding⟩ := q'
  cases hf
  cases hp
  cases hfree
  exact ⟨h.ref,h.ip,h.isEnd,h.pipe,h.file,h.once,h.isOpen,h.nodup,h.page,h.pages⟩

theorem mem_iff (h : Table M S q) : f ∈ S ↔ 0 < (q.ftable f).ref := by
  rw [h.ref f,count_pos]

/-- One file changes, and so does the number of references to it; it stays the same end of
the same pipe. -/
theorem setFile (h : Table M S q) (hother : ∀ g, g ≠ f → S'.count g = S.count g)
    (href : x.ref = S'.count f)
    (hip : f ∈ S' → x.type = .inode ∨ x.type = .device → x.ip ≠ none)
    (hend : f ∈ S' → x.type = .pipe → ∃ a w, x.IsEnd a w)
    (hpipe : ∀ a w, f ∈ S' ∧ x.IsEnd a w ↔ f ∈ S ∧ (q.ftable f).IsEnd a w) :
    Table M S' (q.setFile f x) := by
  have hmem : ∀ {g}, g ≠ f → (g ∈ S' ↔ g ∈ S) := fun {g} hg => by
    rw [← count_pos,← count_pos,hother g hg]
  obtain ⟨ref,ip,isEnd,pipe,file,once,isOpen,nodup,page,pages⟩ := h
  constructor <;> grind

/-- `f->ref` changes together with the number of references, and not to or from zero. -/
theorem setRef (h : Table M S q) (hf : f ∈ S) (hf' : f ∈ S')
    (hother : ∀ g, g ≠ f → S'.count g = S.count g) :
    Table M S' (q.setFile f { q.ftable f with ref := S'.count f }) :=
  h.setFile hother rfl (fun _ => h.ip f hf) (fun _ => h.isEnd f hf)
    fun _ _ => ⟨fun hw => ⟨hf,hw.2⟩,fun hw => ⟨hf',hw.2⟩⟩

theorem not_mem (h : Table M S q) (hf : (q.ftable f).ref = 0) : f ∉ S := by
  rw [h.mem_iff]
  omega

/-- What `filealloc` does to a file not in use. -/
theorem alloc (h : Table M S q) (hf : (q.ftable f).ref = 0) :
    Table M (f ::ₘ S) (q.setFile f { File.closed with ref := 1 }) := by
  refine h.setFile (fun g hg => count_cons_of_ne hg S) ?_ (fun _ ht => ?_) (fun _ ht => ?_)
    fun a w => ⟨fun hw => ?_,fun hw => (h.not_mem hf hw.1).elim⟩
  · rw [count_cons_self,count_eq_zero.mpr (h.not_mem hf)]
  · rcases ht with ht | ht <;> cases ht
  · cases ht
  · cases hw.2.1

theorem dup (h : Table M S q) (hf : f ∈ S) :
    Table M (f ::ₘ S) (q.setFile f { q.ftable f with ref := (q.ftable f).ref+1 }) := by
  have h' := h.setRef hf (mem_cons_self f S) fun g hg => count_cons_of_ne hg S
  rwa [count_cons_self,← h.ref] at h'

/-- A reference that is not the last one is dropped. -/
theorem drop (h : Table M (f ::ₘ S) q) (hf : 1 < (q.ftable f).ref) :
    Table M S (q.setFile f { q.ftable f with ref := (q.ftable f).ref-1 }) := by
  have hcount := h.ref f
  rw [count_cons_self] at hcount
  have hmem : f ∈ S := count_pos.mp (by omega)
  have h' := h.setRef (mem_cons_self f S) hmem
    fun g hg => (count_cons_of_ne hg S).symm
  rwa [show S.count f = (q.ftable f).ref-1 by omega] at h'

/-- The last reference to a file that is no pipe. -/
theorem close (h : Table M (f ::ₘ S) q) (hf : f ∉ S) (ht : (q.ftable f).type ≠ .pipe) :
    Table M S (q.setFile f File.closed) :=
  h.setFile (fun _ hg => (count_cons_of_ne hg S).symm)
    (count_eq_zero.mpr hf).symm (fun hm => (hf hm).elim) (fun hm => (hf hm).elim)
    fun _ _ => ⟨fun hw => (hf hw.1).elim,fun hw => (ht hw.2.1).elim⟩

end Table

section ClosePipe

variable {pi : Pipe} {a : ℕ} {w v : Bool}

theorem Pipe.isOpen_shut : (pi.shut w).isOpen v = true ↔ v ≠ w ∧ pi.isOpen v = true := by
  cases w <;> cases v <;> simp [Pipe.shut,Pipe.isOpen]

theorem Pipe.isOpen_iff_not_closed (pi : Pipe) :
    (∃ w, pi.isOpen w = true) ↔ ¬(pi.readopen = false ∧ pi.writeopen = false) := by
  rw [Bool.exists_bool]
  cases h : pi.readopen <;> cases h' : pi.writeopen <;> simp [Pipe.isOpen,h,h']

/-- The tables after `pipeclose`. -/
def Procs.shut (q : Procs) (a : ℕ) (pi : Pipe) (w : Bool) : Procs :=
  if (pi.shut w).readopen = false ∧ (pi.shut w).writeopen = false then
    { q.setPipe a none with free := a :: q.free }
  else q.setPipe a (some (pi.shut w))

theorem pipe_shut_of_ne {b : ℕ} (hb : b ≠ a) : (q.shut a pi w).pipe b = q.pipe b := by
  unfold Procs.shut
  split <;> exact update_of_ne hb ..

theorem pipe_shut (q : Procs) (a : ℕ) (pi : Pipe) (w : Bool) (v : Pipe) :
    (q.shut a pi w).pipe a = some v ↔ v = pi.shut w ∧ ∃ w, v.isOpen w = true := by
  unfold Procs.shut
  split
  next h =>
    refine ⟨fun hv => ?_,fun hv => ?_⟩
    · cases (update_self ..).symm.trans hv
    · exact absurd h ((pi.shut w).isOpen_iff_not_closed.mp (hv.1 ▸ hv.2))
  next h =>
    refine ⟨fun hv => ?_,fun hv => ?_⟩
    · cases (update_self ..).symm.trans hv
      exact ⟨rfl,(Pipe.isOpen_iff_not_closed _).mpr h⟩
    · exact (update_self ..).trans (congrArg _ hv.1.symm)

theorem ftable_shut : (q.shut a pi w).ftable = q.ftable := by
  unfold Procs.shut
  split <;> rfl

theorem proc_shut : (q.shut a pi w).proc = q.proc := by
  unfold Procs.shut
  split <;> rfl

theorem outstanding_shut : (q.shut a pi w).outstanding = q.outstanding := by
  unfold Procs.shut
  split <;> rfl

theorem inodes_shut : (q.shut a pi w).inodes = q.inodes := by
  rw [Procs.inodes,ftable_shut,Procs.inodes]

theorem mem_free_shut {b : ℕ} : b ∈ (q.shut a pi w).free ↔
    b ∈ q.free ∨ b = a ∧ (q.shut a pi w).pipe a = none := by
  unfold Procs.shut
  split
  next =>
    have hnone : update q.pipe a none a = none := update_self ..
    refine List.mem_cons.trans ⟨fun hb => ?_,fun hb => ?_⟩
    · exact hb.symm.imp_right fun hb => ⟨hb,hnone⟩
    · exact hb.symm.imp_left And.left
  next =>
    have hsome : update q.pipe a (some (pi.shut w)) a = some (pi.shut w) :=
      update_self ..
    refine ⟨Or.inl,fun hb => hb.resolve_right fun hb => ?_⟩
    cases hsome.symm.trans hb.2

theorem nodup_free_shut (h : q.free.Nodup) (ha : a ∉ q.free) : (q.shut a pi w).free.Nodup := by
  unfold Procs.shut
  split
  · exact List.nodup_cons.mpr ⟨ha,h⟩
  · exact h

/-- The last reference to one end of a pipe. -/
theorem Table.closePipe (h : Table M (f ::ₘ S) q) (hf : f ∉ S) (hend : (q.ftable f).IsEnd a w)
    (ha : q.pipe a = some pi) : Table M S ((q.setFile f File.closed).shut a pi w) := by
  have hcons : ∀ {g}, g ∈ f ::ₘ S ↔ g = f ∨ g ∈ S := mem_cons
  have hcount : ∀ g, S.count g = if g = f then 0 else (f ::ₘ S).count g := by
    intro g
    split
    next heq => rw [heq,count_eq_zero.mpr hf]
    next hne => rw [count_cons_of_ne hne]
  have hclosed : File.closed.ref = 0 := rfl
  have hshut : ∀ v, (pi.shut w).isOpen v = true ↔ v ≠ w ∧ pi.isOpen v = true := fun _ =>
    Pipe.isOpen_shut
  set q' := (q.setFile f File.closed).shut a pi w with hq'
  have hft : ∀ {g}, q'.ftable g = if g = f then File.closed else q.ftable g := by
    rw [hq',ftable_shut]
    exact ftable_setFile
  have hb : ∀ {b}, b ≠ a → q'.pipe b = q.pipe b := fun hne => pipe_shut_of_ne hne
  have hopen : ∀ v, q'.pipe a = some v ↔ v = pi.shut w ∧ ∃ w, v.isOpen w = true :=
    pipe_shut _ a pi w
  have hfree : ∀ b, b ∈ q'.free ↔ b ∈ q.free ∨ b = a ∧ q'.pipe a = none := fun _ => mem_free_shut
  obtain ⟨ref,ip,isEnd,pipe,file,once,isOpen,nodup,page,pages⟩ := h
  have hnodup : q'.free.Nodup := nodup_free_shut nodup fun hmem => by
    cases ha.symm.trans (page a hmem)
  clear_value q'
  constructor
  case file =>
    intro b pj v hb' hv
    -- the files of an end that is still open are not the one that is closed
    obtain ⟨g,hg,hgv⟩ : ∃ g ∈ f ::ₘ S, (q.ftable g).IsEnd b v := by grind
    refine ⟨g,?_,?_⟩ <;> grind [File.IsEnd]
  all_goals grind

end ClosePipe

variable {R : Multiset (Fin NINODE)} {L : Fin NINODE → Bool}

theorem inode_of_ref_zero (h : x.ref = 0) : x.inode = none :=
  if_neg fun hr => absurd hr.1 (by omega)

/-- What `filealloc` returns is not in use before. -/
theorem filealloc_gives : Safe giving filealloc ⟨R,L,q⟩ fun r u =>
    match r with
    | none => u = ⟨R,L,q⟩
    | some f => (q.ftable f).ref = 0 ∧ u = ⟨R,L,q.setFile f { File.closed with ref := 1 }⟩ := by
  refine gives_procs.bind ?_
  rintro q _ ⟨rfl,rfl⟩
  cases hf : q.freeFile with
  | none => exact Free.safe_pure rfl
  | some f =>
    have href := List.find?_some hf
    exact (gives_setProcs _).then fun _ => Free.safe_pure ⟨of_decide_eq_true href,rfl⟩

theorem inode_setRef {n : ℕ} (h : 0 < x.ref) (hn : 0 < n) :
    File.inode { x with ref := n } = x.inode := by
  simp only [File.inode,h,hn,true_and]

theorem inode_of_type (h : x.type ≠ .inode) (h' : x.type ≠ .device) : x.inode = none :=
  if_neg fun hx => hx.2.elim h h'

theorem pipeclose_gives {a : ℕ} {pi : Pipe} (ha : q.pipe a = some pi) (w : Bool) :
    Safe giving (pipeclose a w) ⟨R,L,q⟩ fun _ u => u = ⟨R,L,q.shut a pi w⟩ := by
  refine gives_procs.bind ?_
  rintro q _ ⟨rfl,rfl⟩
  simp only [ha]
  refine Free.safe_ite (fun hc => ?_) fun hc => ?_
  · exact (gives_setProcs _).mono fun _ u hu => hu.trans (by rw [Procs.shut,Pipe.shut,if_pos hc])
  · exact (gives_setProcs _).mono fun _ u hu => hu.trans (by rw [Procs.shut,Pipe.shut,if_neg hc])

/-- The state after an operation on files: the table counts the references `S`, and no process
has changed. -/
def Filed (M : Set ℕ) (S : Multiset (Fin NFILE)) (q : Procs) (R : Multiset (Fin NINODE))
    (L : Fin NINODE → Bool) (u : Book) : Prop :=
  ∃ q', u = ⟨q'.inodes + R,L,q'⟩ ∧ Table M S q' ∧ q'.proc = q.proc ∧ q'.outstanding = q.outstanding

theorem filedup_gives (h : Table M S q) (hf : f ∈ S) :
    Safe giving (filedup f) ⟨q.inodes+R,L,q⟩ fun _ u => Filed M (f ::ₘ S) q R L u := by
  refine gives_procs.bind ?_
  rintro q _ ⟨rfl,rfl⟩
  have href := h.mem_iff.mp hf
  refine Free.safe_ite (fun hr => absurd hr (by omega)) fun _ => ?_
  refine (gives_setProcs _).mono fun _ u hu => ⟨_,?_,h.dup hf,rfl,rfl⟩
  rw [hu,inodes_setFile_same (inode_setRef href (Nat.succ_pos _))]

/-- The last reference to a file on an inode gives back the file's reference to the inode. -/
theorem closeInode_gives {ip : Fin NINODE} (h : Table M S q) :
    Safe giving (do
        beginOp
        iput ip
        endOp) ⟨(ip ::ₘ q.inodes)+R,L,q⟩ fun _ u => Filed M S q R L u := by
  refine beginOp_gives.then fun _ => ?_
  rw [cons_add]
  refine gives_iput.then fun _ => ?_
  refine endOp_gives.mono fun _ u hu => ⟨q,?_,h,rfl,rfl⟩
  rw [hu,q.begun_ended]

theorem fileclose_gives (h : Table M (f ::ₘ S) q) :
    Safe giving (fileclose f) ⟨q.inodes+R,L,q⟩ fun _ u => Filed M S q R L u := by
  refine gives_procs.bind ?_
  rintro q _ ⟨rfl,rfl⟩
  have href := h.mem_iff.mp (mem_cons_self f S)
  refine Free.safe_ite (fun hr => absurd hr (by omega)) fun _ => ?_
  refine Free.safe_ite (fun hr => ?_) fun hr => ?_
  · refine (gives_setProcs _).mono fun _ u hu => ⟨_,?_,h.drop hr,rfl,rfl⟩
    rw [hu,inodes_setFile_same (inode_setRef href (by omega))]
  have hcount := h.ref f
  rw [count_cons_self] at hcount
  have hf : f ∉ S := count_eq_zero.mp (by omega)
  have hclosed : File.closed.inode = none := rfl
  have hmem : f ∈ f ::ₘ S := mem_cons_self ..
  refine (gives_setProcs _).then fun _ => ?_
  have hinode : ∀ {ip}, (q.ftable f).ip = some ip →
      (q.ftable f).type = .inode ∨ (q.ftable f).type = .device →
      q.inodes = ip ::ₘ (q.setFile f File.closed).inodes := fun hip ht =>
    inodes_setFile_none hclosed ((if_pos ⟨href,ht⟩).trans hip)
  have hplain : ∀ {ip}, (q.ftable f).ip = some ip →
      (q.ftable f).type = .inode ∨ (q.ftable f).type = .device →
      Safe giving (do
        beginOp
        iput ip
        endOp) ⟨q.inodes+R,L,q.setFile f File.closed⟩ fun _ u => Filed M S q R L u := by
    intro ip hip ht
    rw [hinode hip ht]
    refine closeInode_gives (h.close hf ?_)
    rcases ht with ht | ht <;> rw [ht] <;> decide
  have hsame : (q.ftable f).type ≠ .inode → (q.ftable f).type ≠ .device →
      (q.setFile f File.closed).inodes = q.inodes := fun h1 h2 =>
    inodes_setFile_same (hclosed.trans (inode_of_type h1 h2).symm)
  split
  next a ht hp =>
    obtain ⟨b,w,hend⟩ := h.isEnd f hmem ht
    cases hp.symm.trans hend.2.1
    obtain ⟨pi,ha,-⟩ := h.pipe f hmem a w hend
    have hclose := pipeclose_gives (R := q.inodes+R) (L := L) (q := q.setFile f File.closed) ha w
    rw [hend.2.2.1]
    refine hclose.mono fun _ u hu => ⟨_,?_,h.closePipe hf hend ha,?_,?_⟩
    · rw [hu,inodes_shut,hsame (by rw [ht]; decide) (by rw [ht]; decide)]
    · rw [proc_shut]
      rfl
    · rw [outstanding_shut]
      rfl
  next ht hp =>
    obtain ⟨b,w,hend⟩ := h.isEnd f hmem ht
    cases hp.symm.trans hend.2.1
  next ip ht hip => exact hplain hip (.inl ht)
  next ip ht hip => exact hplain hip (.inr ht)
  next ht hip => exact absurd hip (h.ip f hmem (.inl ht))
  next ht hip => exact absurd hip (h.ip f hmem (.inr ht))
  next ht =>
    refine Free.safe_pure ⟨_,?_,h.close hf (by rw [ht]; decide),rfl,rfl⟩
    rw [hsame (by rw [ht]; decide) (by rw [ht]; decide)]

/-! Making a pipe. -/

/-- What `filealloc` hands out. -/
abbrev File.fresh : File := { File.closed with ref := 1 }

/-- The tables once the pipe at the first free page exists, with its ends in `f0` and `f1`. -/
def Procs.newPipe (q : Procs) (a : ℕ) (rest : List ℕ) (f0 f1 : Fin NFILE) : Procs :=
  ((Procs.setPipe { q with free := rest } a (some ⟨0,0,true,true⟩)).setFile f0 (readEnd a)).setFile
    f1 (writeEnd a)

section NewPipe

variable {f0 f1 : Fin NFILE} {a : ℕ} {rest : List ℕ}

theorem ftable_newPipe_read (hne : f0 ≠ f1) : (q.newPipe a rest f0 f1).ftable f0 = readEnd a :=
  (update_of_ne hne ..).trans (update_self ..)

theorem ftable_newPipe_write : (q.newPipe a rest f0 f1).ftable f1 = writeEnd a :=
  update_self ..

theorem ftable_newPipe_of_ne (h0 : g ≠ f0) (h1 : g ≠ f1) :
    (q.newPipe a rest f0 f1).ftable g = q.ftable g :=
  (update_of_ne h1 ..).trans (update_of_ne h0 ..)

theorem readEnd_isEnd {b : ℕ} {w : Bool} : (readEnd a).IsEnd b w ↔ b = a ∧ w = false := by
  constructor
  · rintro ⟨-,hb,hw,-⟩
    exact ⟨(Option.some.inj hb).symm,hw.symm⟩
  · rintro ⟨rfl,rfl⟩
    exact ⟨rfl,rfl,rfl,rfl⟩

theorem writeEnd_isEnd {b : ℕ} {w : Bool} : (writeEnd a).IsEnd b w ↔ b = a ∧ w = true := by
  constructor
  · rintro ⟨-,hb,hw,-⟩
    exact ⟨(Option.some.inj hb).symm,hw.symm⟩
  · rintro ⟨rfl,rfl⟩
    exact ⟨rfl,rfl,rfl,rfl⟩

/-- The files of the new pipe are its two ends, and the others are what they were. -/
theorem isEnd_newPipe (hne : f0 ≠ f1) (h0 : q.ftable f0 = .fresh) (h1 : q.ftable f1 = .fresh)
    {b : ℕ} {w : Bool} : ((q.newPipe a rest f0 f1).ftable g).IsEnd b w ↔
      b = a ∧ g = (if w then f1 else f0) ∨ (q.ftable g).IsEnd b w := by
  by_cases hg1 : g = f1
  · subst hg1
    rw [ftable_newPipe_write,writeEnd_isEnd,h1]
    cases w
    · simp [File.IsEnd,File.closed,Ne.symm hne]
    · simp [File.IsEnd,File.closed]
  · by_cases hg0 : g = f0
    · subst hg0
      rw [ftable_newPipe_read hne,readEnd_isEnd,h0]
      cases w
      · simp [File.IsEnd,File.closed]
      · simp [File.IsEnd,File.closed,hne]
    · rw [ftable_newPipe_of_ne hg0 hg1]
      cases w
      · simp [hg0]
      · simp [hg1]

theorem Table.newPipe (h : Table M S q) (hm0 : f0 ∈ S) (hm1 : f1 ∈ S) (hne : f0 ≠ f1)
    (h0 : q.ftable f0 = .fresh) (h1 : q.ftable f1 = .fresh) (hfree : q.free = a :: rest) :
    Table M S (q.newPipe a rest f0 f1) := by
  have hend : ∀ {g b w}, ((q.newPipe a rest f0 f1).ftable g).IsEnd b w ↔
      b = a ∧ g = (if w then f1 else f0) ∨ (q.ftable g).IsEnd b w := isEnd_newPipe hne h0 h1
  have hft : ∀ g, (q.newPipe a rest f0 f1).ftable g =
      if g = f1 then writeEnd a else if g = f0 then readEnd a else q.ftable g := fun g => by
    simp only [Procs.newPipe,ftable_setFile,Procs.setPipe]
  have hpipe : ∀ b, (q.newPipe a rest f0 f1).pipe b =
      if b = a then some ⟨0,0,true,true⟩ else q.pipe b := fun b => update_apply ..
  have hrest : (q.newPipe a rest f0 f1).free = rest := rfl
  have hnone : q.pipe a = none := h.page a (hfree ▸ List.mem_cons_self ..)
  have hopen : ∀ w, (⟨0,0,true,true⟩ : Pipe).isOpen w = true := by decide
  have hr : (readEnd a).ref = 1 ∧ (readEnd a).type = .pipe := ⟨rfl,rfl⟩
  have hw : (writeEnd a).ref = 1 ∧ (writeEnd a).type = .pipe := ⟨rfl,rfl⟩
  have hfresh : File.fresh.ref = 1 := rfl
  generalize q.newPipe a rest f0 f1 = q' at *
  obtain ⟨ref,ip,isEnd,pipe,file,once,isOpen,nodup,page,pages⟩ := h
  constructor
  case isEnd =>
    intro g hg ht
    by_cases hg1 : g = f1
    · exact ⟨a,true,hend.mpr (.inl ⟨rfl,hg1⟩)⟩
    by_cases hg0 : g = f0
    · exact ⟨a,false,hend.mpr (.inl ⟨rfl,hg0⟩)⟩
    obtain ⟨b,w,hw⟩ := isEnd g hg (by grind)
    exact ⟨b,w,hend.mpr (.inr hw)⟩
  case isOpen =>
    intro b pi hpi
    by_cases hba : b = a
    · exact ⟨true,by grind⟩
    · exact isOpen b pi (by grind)
  all_goals grind

theorem inodes_newPipe (hne : f0 ≠ f1) (h0 : q.ftable f0 = .fresh) (h1 : q.ftable f1 = .fresh) :
    (q.newPipe a rest f0 f1).inodes = q.inodes := by
  refine congrArg bag (funext fun g => ?_)
  by_cases hg1 : g = f1
  · rw [hg1,ftable_newPipe_write,h1]
    rfl
  by_cases hg0 : g = f0
  · rw [hg0,ftable_newPipe_read hne,h0]
    rfl
  rw [ftable_newPipe_of_ne hg0 hg1]

end NewPipe

theorem kalloc_gives (mem : Bool) : Safe giving (kalloc mem) ⟨R,L,q⟩ fun r u =>
    match r with
    | none => u = ⟨R,L,q⟩
    | some a => ∃ rest, q.free = a :: rest ∧ u = ⟨R,L,{ q with free := rest }⟩ := by
  refine gives_procs.bind ?_
  rintro q _ ⟨rfl,rfl⟩
  split
  next a rest hfree =>
    refine Free.safe_ite (fun _ => ?_) fun _ => Free.safe_pure rfl
    exact (gives_setProcs _).then fun _ => Free.safe_pure ⟨rest,hfree,rfl⟩
  next => exact Free.safe_pure rfl

/-- Two files are closed one after the other. -/
theorem closeBoth_gives {α : Type} {r : α} (h : Table M (f ::ₘ g ::ₘ S) q) :
    Safe giving (do
        fileclose f
        fileclose g
        pure r) ⟨q.inodes+R,L,q⟩ fun r' u => r' = r ∧ Filed M S q R L u := by
  refine (fileclose_gives h).bind ?_
  rintro _ _ ⟨q1,rfl,h1,hproc1,hout1⟩
  refine (fileclose_gives h1).bind ?_
  rintro _ _ ⟨q2,rfl,h2,hproc2,hout2⟩
  exact Free.safe_pure ⟨rfl,q2,rfl,h2,hproc2.trans hproc1,hout2.trans hout1⟩

theorem pipealloc_gives (h : Table M S q) (mem : Bool) :
    Safe giving (pipealloc mem) ⟨q.inodes+R,L,q⟩ fun r u =>
      match r with
      | none => Filed M S q R L u
      | some (f0,f1) => Filed M (f0 ::ₘ f1 ::ₘ S) q R L u := by
  refine filealloc_gives.bind ?_
  rintro (_ | f0) u hu
  · rw [show u = _ from hu]
    exact Free.safe_pure ⟨q,rfl,h,rfl,rfl⟩
  obtain ⟨h0,rfl⟩ := hu
  have hT0 := h.alloc h0
  have hI0 : (q.setFile f0 File.fresh).inodes = q.inodes :=
    inodes_setFile_same (inode_of_ref_zero h0).symm
  rw [← hI0]
  refine filealloc_gives.bind ?_
  rintro (_ | f1) u hu
  · rw [show u = _ from hu]
    refine (fileclose_gives hT0).bind ?_
    rintro _ _ ⟨q1,rfl,h1,hproc1,hout1⟩
    exact Free.safe_pure ⟨q1,rfl,h1,hproc1,hout1⟩
  obtain ⟨h1,rfl⟩ := hu
  have hne : f0 ≠ f1 := by
    rintro rfl
    rw [ftable_setFile_self] at h1
    cases h1
  set q2 := (q.setFile f0 File.fresh).setFile f1 File.fresh with hq2
  have hT1 : Table M (f1 ::ₘ f0 ::ₘ S) q2 := hT0.alloc h1
  rw [cons_swap] at hT1
  have hI1 : q2.inodes = (q.setFile f0 File.fresh).inodes :=
    inodes_setFile_same (inode_of_ref_zero h1).symm
  rw [← hI1]
  refine (kalloc_gives mem).bind ?_
  rintro (_ | a) u hu
  · rw [show u = _ from hu]
    exact (closeBoth_gives hT1).mono fun r u hr => hr.1 ▸ hr.2
  obtain ⟨rest,hfree,rfl⟩ := hu
  have hf0 : q2.ftable f0 = .fresh := (ftable_setFile_of_ne hne).trans ftable_setFile_self
  have hf1 : q2.ftable f1 = .fresh := ftable_setFile_self
  refine gives_procs.bind ?_
  rintro q3 _ ⟨rfl,rfl⟩
  refine (gives_setProcs _).then fun _ => ?_
  refine Free.safe_pure ⟨q2.newPipe a rest f0 f1,?_,
    hT1.newPipe (mem_cons_self ..) (mem_cons_of_mem (mem_cons_self ..))
      hne hf0 hf1 hfree,rfl,rfl⟩
  rw [inodes_newPipe hne hf0 hf1]
  rfl

/-! Reading and writing change offsets and the counters of pipes, and nothing that is counted. -/

/-- What reading and writing leave of the tables. -/
structure Touched (M : Set ℕ) (S : Multiset (Fin NFILE)) (q q' : Procs) : Prop where
  table : Table M S q'
  inodes : q'.inodes = q.inodes
  proc : q'.proc = q.proc
  outstanding : q'.outstanding = q.outstanding

theorem Touched.refl (h : Table M S q) : Touched M S q q := ⟨h,rfl,rfl,rfl⟩

theorem Touched.trans {q' q'' : Procs} (h : Touched M S q q') (h' : Touched M S q' q'') :
    Touched M S q q'' :=
  ⟨h'.table,h'.inodes.trans h.inodes,h'.proc.trans h.proc,h'.outstanding.trans h.outstanding⟩

/-- The state after a transfer. -/
def Moved (M : Set ℕ) (S : Multiset (Fin NFILE)) (q : Procs) (R : Multiset (Fin NINODE))
    (L : Fin NINODE → Bool) (u : Book) : Prop := ∃ q', u = ⟨R,L,q'⟩ ∧ Touched M S q q'

theorem Moved.trans {q' : Procs} {u : Book} (h' : Moved M S q' R L u) (h : Touched M S q q') :
    Moved M S q R L u := by
  obtain ⟨q'',hu,h''⟩ := h'
  exact ⟨q'',hu,h.trans h''⟩

theorem Table.advance (h : Table M S q) (off : ℕ) :
    Touched M S q (q.setFile f { q.ftable f with off := off }) := by
  refine ⟨h.setFile (fun _ _ => rfl) (h.ref f) (h.ip f) (h.isEnd f) fun _ _ => Iff.rfl,
    inodes_setFile_same rfl,rfl,rfl⟩

theorem advance_gives (h : Table M S q) (r : ℤ) :
    Safe giving (advance f r) ⟨R,L,q⟩ fun _ u => Moved M S q R L u := by
  refine gives_procs.bind ?_
  rintro q _ ⟨rfl,rfl⟩
  refine Free.safe_ite (fun _ => ?_) fun _ => Free.safe_pure ⟨q,rfl,.refl h⟩
  exact (gives_setProcs _).mono fun _ u hu => ⟨_,hu,h.advance _⟩

section Pipes

variable {a : ℕ} {pi : Pipe}

theorem Table.setPipe (h : Table M S q) (ha : q.pipe a = some pi) (pj : Pipe)
    (hopen : ∀ w, pj.isOpen w = pi.isOpen w) : Touched M S q (q.setPipe a (some pj)) := by
  have hpipe : ∀ b, (q.setPipe a (some pj)).pipe b = if b = a then some pj else q.pipe b :=
    fun b => update_apply ..
  have hft : ∀ g, (q.setPipe a (some pj)).ftable g = q.ftable g := fun _ => rfl
  have hfree : (q.setPipe a (some pj)).free = q.free := rfl
  obtain ⟨ref,ip,isEnd,pipe,file,once,isOpen,nodup,page,pages⟩ := h
  refine ⟨?_,rfl,rfl,rfl⟩
  constructor
  case isOpen =>
    intro b pk hpk
    obtain ⟨w,hw⟩ := isOpen b (if b = a then pi else pk) (by grind)
    exact ⟨w,by grind⟩
  all_goals grind

theorem pipereadFrom_gives (h : Table M S q) (ha : q.pipe a ≠ none) (copyout : ℕ → Bool) (n i : ℕ) :
    Safe giving (pipereadFrom a copyout n i) ⟨R,L,q⟩ fun _ u => Moved M S q R L u := by
  induction n generalizing q i with
  | zero => exact Free.safe_pure ⟨q,rfl,.refl h⟩
  | succ n ih =>
    refine gives_procs.bind ?_
    rintro q _ ⟨rfl,rfl⟩
    cases hpi : q.pipe a with
    | none => exact absurd hpi ha
    | some pi =>
      refine Free.safe_ite (fun _ => Free.safe_pure ⟨q,rfl,.refl h⟩) fun _ => ?_
      have ht := h.setPipe hpi { pi with nread := pi.nread+1 } fun _ => rfl
      refine (gives_setProcs _).then fun _ => ?_
      refine Free.safe_ite (fun _ => ?_) fun _ => Free.safe_pure ⟨_,rfl,ht⟩
      refine (ih ht.table ?_ (i+1)).mono fun _ u hu => hu.trans ht
      exact fun hnone => by cases (update_self ..).symm.trans hnone

theorem piperead_gives (h : Table M S q) (ha : q.pipe a ≠ none) (killed : Bool)
    (copyout : ℕ → Bool) (n : ℕ) :
    Safe giving (piperead a killed copyout n) ⟨R,L,q⟩ fun _ u => Moved M S q R L u := by
  refine gives_procs.bind ?_
  rintro q _ ⟨rfl,rfl⟩
  cases hpi : q.pipe a with
  | none => exact absurd hpi ha
  | some pi =>
    refine Free.safe_ite (fun _ => ?_) fun _ => pipereadFrom_gives h ha copyout n 0
    exact Free.safe_ite (fun _ => Free.safe_pure ⟨q,rfl,.refl h⟩) fun _ => gives_panic (by decide)

theorem pipewriteFrom_gives (h : Table M S q) (ha : q.pipe a ≠ none) (killed : Bool)
    (copyin : ℕ → Bool) (n i : ℕ) :
    Safe giving (pipewriteFrom a killed copyin n i) ⟨R,L,q⟩ fun _ u => Moved M S q R L u := by
  induction n generalizing q i with
  | zero => exact Free.safe_pure ⟨q,rfl,.refl h⟩
  | succ n ih =>
    refine gives_procs.bind ?_
    rintro q _ ⟨rfl,rfl⟩
    cases hpi : q.pipe a with
    | none => exact absurd hpi ha
    | some pi =>
      refine Free.safe_ite (fun _ => Free.safe_pure ⟨q,rfl,.refl h⟩) fun _ => ?_
      refine Free.safe_ite (fun _ => gives_panic (by decide)) fun _ => ?_
      refine Free.safe_ite (fun _ => ?_) fun _ => Free.safe_pure ⟨q,rfl,.refl h⟩
      have ht := h.setPipe hpi { pi with nwrite := pi.nwrite+1 } fun _ => rfl
      refine (gives_setProcs _).then fun _ => ?_
      refine (ih ht.table ?_ (i+1)).mono fun _ u hu => hu.trans ht
      exact fun hnone => by cases (update_self ..).symm.trans hnone

end Pipes

section Transfer

/-- A file that is open as an inode holds a reference to it. -/
theorem Table.mem_inodes {ip : Fin NINODE} (h : Table M S q) (hf : f ∈ S)
    (ht : (q.ftable f).type = .inode ∨ (q.ftable f).type = .device)
    (hip : (q.ftable f).ip = some ip) : ip ∈ q.inodes :=
  mem_bag.mpr ⟨f,(if_pos ⟨h.mem_iff.mp hf,ht⟩).trans hip⟩

/-- A file that is open as a pipe has one. -/
theorem Table.pipe_ne_none {a : ℕ} (h : Table M S q) (hf : f ∈ S) (ht : (q.ftable f).type = .pipe)
    (ha : (q.ftable f).pipe = some a) : q.pipe a ≠ none := by
  obtain ⟨b,w,hend⟩ := h.isEnd f hf ht
  cases ha.symm.trans hend.2.1
  obtain ⟨pi,hpi,-⟩ := h.pipe f hf a w hend
  exact fun hnone => by cases hnone.symm.trans hpi

variable (h : Table M S q) (hf : f ∈ S) (hR : ∀ ip ∈ q.inodes, ip ∈ R)
include h hf hR

theorem fileread_safe (io : Io) (n : ℤ) :
    Safe contract (fileread f io n) ⟨R,L,q⟩ fun _ u => Moved M S q R L u := by
  refine gives_procs.of_only.bind ?_
  rintro q _ ⟨rfl,rfl⟩
  have hsame : Moved M S q R L ⟨R,L,q⟩ := ⟨q,rfl,.refl h⟩
  refine Free.safe_ite (fun _ => Free.safe_pure hsame) fun _ => ?_
  refine Free.safe_ite (fun _ => Free.safe_pure hsame) fun _ => ?_
  cases ht : (q.ftable f).type with
  | none => exact safe_panic (by decide)
  | pipe =>
    cases ha : (q.ftable f).pipe with
    | none =>
      obtain ⟨a,w,hend⟩ := h.isEnd f hf ht
      cases ha.symm.trans hend.2.1
    | some a => exact (piperead_gives h (h.pipe_ne_none hf ht ha) ..).of_only
  | device => exact Free.safe_ite (fun _ => Free.safe_pure hsame) fun _ => Free.safe_pure hsame
  | inode =>
    cases hip : (q.ftable f).ip with
    | none => exact Free.safe_pure hsame
    | some ip =>
      have hmem := hR ip (h.mem_inodes hf (.inl ht) hip)
      refine (safe_ilock hmem).bind ?_
      rintro _ _ ⟨hfree,rfl⟩
      refine (safe_readu hmem (update_self ..) ..).then fun r => ?_
      refine (advance_gives h r).of_only.bind ?_
      rintro _ _ ⟨q',rfl,hq'⟩
      refine (safe_iunlock hmem (update_self ..)).then fun _ => ?_
      exact Free.safe_pure ⟨q',by rw [relock hfree],hq'⟩

omit hf in
theorem filewriteFrom_safe {ip : Fin NINODE} (hmem : ip ∈ q.inodes)
    (copyin : ℕ → ℕ → List UInt8 × Bool) (n fuel i : ℕ) :
    Safe contract (filewriteFrom f ip copyin n fuel i) ⟨R,L,q⟩ fun _ u => Moved M S q R L u := by
  induction fuel generalizing q i with
  | zero => exact Free.safe_pure ⟨q,rfl,.refl h⟩
  | succ fuel ih =>
    refine Free.safe_ite (fun _ => ?_) fun _ => Free.safe_pure ⟨q,rfl,.refl h⟩
    refine beginOp_gives.of_only.then fun _ => ?_
    have hR' := hR ip hmem
    refine (safe_ilock hR').bind ?_
    rintro _ _ ⟨hfree,rfl⟩
    refine gives_procs.of_only.bind ?_
    rintro q' _ ⟨rfl,rfl⟩
    refine (safe_writeu hR' (update_self ..) ..).then fun r => ?_
    have hbegun : Table M S q.begun := h.of_eq rfl rfl rfl
    refine (advance_gives hbegun r).of_only.bind ?_
    rintro _ _ ⟨q',rfl,hq'⟩
    refine (safe_iunlock hR' (update_self ..)).then fun _ => ?_
    refine endOp_gives.of_only.then fun _ => ?_
    rw [relock hfree]
    have hround : Touched M S q q'.ended := by
      refine ⟨hq'.table.of_eq rfl rfl rfl,hq'.inodes,hq'.proc,?_⟩
      rw [Procs.ended,hq'.outstanding,Procs.begun]
      exact add_sub_cancel_right ..
    refine Free.safe_ite (fun _ => Free.safe_pure ⟨_,rfl,hround⟩) fun _ => ?_
    refine (ih hround.table (fun ip hip => hR ip (hround.inodes ▸ hip)) (hround.inodes ▸ hmem) _).mono
      fun _ u hu => hu.trans hround

theorem filewrite_safe (io : Io) (n : ℤ) :
    Safe contract (filewrite f io n) ⟨R,L,q⟩ fun _ u => Moved M S q R L u := by
  refine gives_procs.of_only.bind ?_
  rintro q _ ⟨rfl,rfl⟩
  have hsame : Moved M S q R L ⟨R,L,q⟩ := ⟨q,rfl,.refl h⟩
  refine Free.safe_ite (fun _ => Free.safe_pure hsame) fun _ => ?_
  refine Free.safe_ite (fun _ => Free.safe_pure hsame) fun _ => ?_
  cases ht : (q.ftable f).type with
  | none => exact safe_panic (by decide)
  | pipe =>
    cases ha : (q.ftable f).pipe with
    | none =>
      obtain ⟨a,w,hend⟩ := h.isEnd f hf ht
      cases ha.symm.trans hend.2.1
    | some a => exact (pipewriteFrom_gives h (h.pipe_ne_none hf ht ha) ..).of_only
  | device => exact Free.safe_ite (fun _ => Free.safe_pure hsame) fun _ => Free.safe_pure hsame
  | inode =>
    cases hip : (q.ftable f).ip with
    | none => exact Free.safe_pure hsame
    | some ip => exact filewriteFrom_safe h hR (h.mem_inodes hf (.inl ht) hip) ..

theorem filestat_safe (io : Io) :
    Safe contract (filestat f io) ⟨R,L,q⟩ fun _ u => u = ⟨R,L,q⟩ := by
  refine gives_procs.of_only.bind ?_
  rintro q _ ⟨rfl,rfl⟩
  have hstat : ∀ {ip}, ip ∈ R → Safe contract (do
      ilock ip
      let _ ← stat ip
      iunlock ip
      pure (if io.copyByte 0 then 0 else -1)) ⟨R,L,q⟩ fun (_ : ℤ) u => u = ⟨R,L,q⟩ := by
    intro ip hmem
    refine (safe_ilock hmem).bind ?_
    rintro _ _ ⟨hfree,rfl⟩
    refine (safe_stat hmem (update_self ..)).then fun _ => ?_
    refine (safe_iunlock hmem (update_self ..)).then fun _ => ?_
    exact Free.safe_pure (by rw [relock hfree])
  dsimp only
  split
  next ip ht hip => exact hstat (hR ip (h.mem_inodes hf (.inl ht) hip))
  next ip ht hip => exact hstat (hR ip (h.mem_inodes hf (.inr ht) hip))
  next => exact Free.safe_pure rfl

end Transfer

end Names
end Xv6
