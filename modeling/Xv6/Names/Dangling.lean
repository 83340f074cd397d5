import Xv6.Names.Runs

/-! Entries that name no inode.  A removed directory that is still in use keeps its `..`, and
nothing keeps the directory named there allocated but that it has not been removed itself. -/
namespace Xv6
namespace Names

open Fs (NINODE Panic)

variable {n d i j : ℕ} {N N' : ℕ → Node} {A B U : (ℕ → Node) → ℕ → Prop}

/-- The `..` of every removed directory names a directory that has not been removed. -/
def Moored (n : ℕ) (N : ℕ → Node) : Prop := ∀ x, IsDir n N x → ¬ Attached n N x →
  IsDir n N (N x).up ∧ Attached n N (N x).up

/-- The `..` of no removed directory names `i`. -/
def Unmoored (n : ℕ) (N : ℕ → Node) (i : ℕ) : Prop :=
  ∀ x, IsDir n N x → ¬ Attached n N x → (N x).up ≠ i

theorem IsDir.ne_zero (h : IsDir n N d) : d ≠ 0 := by
  have := h.1.1
  omega

theorem Move.moored {a : ℕ} {de : Dirent} (m : Move n N d i a de N') (h : Moored n N)
    (hi : IsDir n N' i → Attached n N' i ∨ ((N' i).up = d ∧ Attached n N d))
    (hkeep : IsDir n N i → Unmoored n N i) : Moored n N' := by
  intro x hx hrem
  by_cases hxi : x = i
  · subst hxi
    obtain ⟨hup,ha⟩ := (hi hx).resolve_left hrem
    rw [hup]
    exact ⟨m.isDir_d,(m.attached m.dir.ne_zero m.ne).mpr ha⟩
  · have hdir := (m.isDir hxi).mp hx
    rw [m.attached hx.ne_zero hxi] at hrem
    obtain ⟨hup,ha⟩ := h x hdir hrem
    have hne : (N x).up ≠ i := fun heq => hkeep (heq ▸ hup) x hdir hrem heq
    rw [m.up hxi]
    exact ⟨(m.isDir hne).mpr hup,(m.attached hup.ne_zero hne).mpr ha⟩

/-- A change of files moves no directory. -/
theorem Move.moored_file {a : ℕ} {de : Dirent} (m : Move n N d i a de N') (h : Moored n N)
    (ht : (N i).type ≠ T_DIR) (ht' : (N' i).type ≠ T_DIR) : Moored n N' :=
  m.moored h (fun hi => absurd hi.2 ht') fun hi => absurd hi.2 ht

theorem Moored.free (h : Moored n N) (ht : Tree n N) (hi : IsInum n i)
    (hz : (N i).nlink = 0 ∨ (N i).type = 0) : Moored n (Function.update N i .free) := by
  have hatt : ∀ {x}, IsDir n N x → (Attached n (Function.update N i .free) x ↔ Attached n N x) := by
    intro x hx
    rw [Attached,Attached,ht.free_names hi hz hx]
  intro x hx hrem
  obtain ⟨hx,hxi⟩ := isDir_free.mp hx
  obtain ⟨hup,ha⟩ := h x hx fun hax => hrem ((hatt hx).mpr hax)
  have hne : (N x).up ≠ i := by
    intro heq
    rw [heq] at ha
    rcases ha with hr | hname
    · exact ht.freed_ne_root hz hr
    · exact hname (ht.freed_unnamed hi hz)
  rw [Function.update_of_ne hxi]
  exact ⟨isDir_free.mpr ⟨hup,hne⟩,(hatt hup).mpr ha⟩

theorem Alike.moored (a : Alike N N') (h : Moored n N) : Moored n N' := by
  intro x hx hrem
  have hx := a.isDir.mp hx
  rw [a.attached] at hrem
  rw [a.up hx,a.isDir,a.attached]
  exact h x hx hrem

theorem Moored.change (h : Moored n N) (ht : Tree n N) (hcl : Closed n N)
    (hU : ∀ i, U N i → Unmoored n N i) (hc : Change n A B U N N') : Moored n N' := by
  have hfree : ∀ {i}, (N i).type = 0 → ¬ IsDir n N i := fun hz hd => hd.live.2 hz
  cases hc with
  | @link d k i name hd _ hk hname hi hf =>
    have hne : d ≠ i := fun hdi => hf (hdi ▸ hd.2)
    exact (ht.linkMove hd hk hname hi hf).moored_file h hf (by rwa [both_i hne])
  | @file d k i name y hd _ hk hname hi hz hy hf _ =>
    have hne : d ≠ i := fun hdi => hfree hz (hdi ▸ hd)
    exact (ht.fileMove hd hk hname hi hz hy hf).moored_file h (by simp [hz]) (by rwa [both_i hne])
  | @dir d k i name y hd _ hk hname hi hz hy _ hes =>
    have m := ht.dirMove (v := (N d).nlink+1) hd hk hname hi hz hy hes
    have hi0 : i ≠ 0 := by have := hi.1; omega
    refine m.moored h (fun _ => .inl (.inr ?_)) fun hdi => absurd hdi (hfree hz)
    have hn := m.names hi0
    rw [if_neg (Ne.symm hi0),if_pos rfl] at hn
    omega
  | @unlink d k i name hd hk hi hname hf =>
    have hne : d ≠ i := fun hdi => hf (hdi ▸ hd.2)
    exact (ht.unlinkMove hd hk hname hi hf).moored_file h hf (by rwa [both_i hne])
  | @rmdir d k i name hd hk hi hname hti hbare hu hne =>
    have hmem := (ht.mem_rest hd hk hname).2
    have hdir : IsDir n N i := ⟨(ht.entry _ hd _ hmem hi).1,hti⟩
    refine (ht.rmdirMove hd hk hname hdir hne hbare).moored h (fun _ => .inr ⟨?_,?_⟩) fun _ => hU i hu
    · rw [both_i hne]
      exact ht.parent d hd _ hmem hdir
    · -- a directory that names another one has not been removed
      by_contra hrem
      obtain hatt | ⟨hr,hz⟩ := attached_or_removed n N d
      · exact hrem hatt
      · have hpos : 0 < (N d).count i := Node.count_pos.mpr ⟨_,hmem,rfl⟩
        have hle := count_le_children (d := d) hdir
        have := hcl d hd hr hz
        omega
  | free hi hz => exact h.free ht hi hz
  | trunc _ hf => exact (alike_trunc hf).moored h

theorem Tree.up_isDir (h : Tree n N) (hm : Moored n N) (hd : IsDir n N d) : IsDir n N (N d).up := by
  by_cases ha : Attached n N d
  · by_cases hr : d = ROOTINO
    · rw [hr,h.root.2]
      exact h.root.1
    · exact (h.named_above hd hr ha).1
  · exact (hm d hd ha).1

theorem Tree.entry_live (h : Tree n N) (hm : Moored n N) (hd : IsDir n N d) :
    ∀ e ∈ (N d).entries, e.inum ≠ 0 → Live n N e.inum := by
  intro e he hne
  rw [(h.shaped d hd).1.head] at he
  rcases List.mem_cons.mp he with rfl | he
  · exact hd.live
  rcases List.mem_cons.mp he with rfl | he
  · exact (h.up_isDir hm hd).live
  · exact h.entry d hd e he hne

variable {M : Set ℕ} {s s₀ t : Sys Store} {c : Call} {p : Fin NPROC}

/-- The inodes that some process can name, from the root or from its current directory. -/
inductive Nameable (s : Sys Store) : ℕ → Prop
  | root : Nameable s ROOTINO
  | cwd {p : Fin NPROC} {ip : Fin NINODE} : (s.ps.proc p).state = .live →
      (s.ps.proc p).cwd = some ip → Nameable s (s.fs.itable ip).inum
  | entry {d : ℕ} {e : Dirent} : Nameable s d → (s.fs.node d).type = T_DIR →
      e ∈ (s.fs.node d).entries → e.inum ≠ 0 → Nameable s e.inum

/-- Resolve a path and lock the inode it leads to. -/
def lockPath (p : Fin NPROC) (path : Str) : Code Unit := do
  match ← namei p path with
  | none => pure ()
  | some ip => ilock ip

/-- The state between two calls, with every entry in use naming an inode. -/
structure Firmed (n : ℕ) (M : Set ℕ) (s : Sys Store) : Prop extends Sound n M s where
  closed : Closed n s.fs.node
  moored : Moored n s.fs.node

theorem Store.Booted.firmed (h : Store.Booted n M s) : Firmed n M s :=
  ⟨h.sound,fun d hd hr hz => absurd hz ((h.image.attached d hd).resolve_left hr),
    fun x hx hrem => absurd (h.image.attached x hx) hrem⟩

/-- What a call may do for entries to stay in order: make no directory in a removed one, and
remove none that the `..` of a removed one names. -/
structure Call.Keeps (n : ℕ) (s : Sys Store) (c : Call) : Prop where
  few : Store.Few n s
  dir : ∀ d, c.EntersDir s d → Attached n s.fs.node d
  removes : ∀ i, c.Removes s i → Unmoored n s.fs.node i

theorem Firmed.step (h : Firmed n M s) (hc : c.Keeps n s) (hstep : Store.step n s c = some t) :
    Firmed n M t := by
  have hcalled : Called n (fun _ _ => True) (Attached n) (Unmoored n) M s t :=
    h.quiet.called h.tree h.small hc.few hstep (fun _ _ => trivial) hc.dir hc.removes
  have hall : Tree n t.fs.node ∧ Closed n t.fs.node ∧ Moored n t.fs.node :=
    hcalled.along (P := fun N => Tree n N ∧ Closed n N ∧ Moored n N) ⟨h.tree,h.closed,h.moored⟩
      fun N N' hN hch => ⟨hN.1.change hch,hN.2.1.change hN.1 (fun _ => id) hch,
        hN.2.2.change hN.1 hN.2.1 (fun _ => id) hch⟩
  exact ⟨⟨h.small,hcalled.quiet,hall.1⟩,hall.2.1,hall.2.2⟩

section Firmed

variable (h : Firmed n M s)
include h

/-- No path leads to a free inode. -/
theorem Firmed.walk : Walk n s.fs.node (Live n s.fs.node) (· ≠ .noType) where
  dead := by decide
  inum _ hi := hi.1
  type _ hi := .inl hi.2
  entry _ hi hd := h.tree.entry_live h.moored ⟨hi.1,hd⟩

theorem Firmed.running (hp : (s.ps.proc p).state = .live) :
    Running s (s.ps.inodes+s.ps.cwds) (Live n s.fs.node) p := by
  obtain ⟨c,hin,hc⟩ := h.quiet.cwd hp
  exact ⟨c,hin,hc,h.quiet.stable.inum c (by rwa [add_zero]),h.quiet.stable.alive c hin⟩

theorem Firmed.nameable (hd : Nameable s d) : Live n s.fs.node d := by
  induction hd with
  | root => exact h.tree.root.1.live
  | cwd hp hc =>
    obtain ⟨c,-,hc',hlive⟩ := h.running hp
    cases hc.symm.trans hc'
    exact hlive
  | entry _ hd he hne ih => exact h.tree.entry_live h.moored ⟨ih.1,hd⟩ _ he hne

theorem Firmed.lockPath (hp : (s.ps.proc p).state = .live) (path : Str) :
    Does n (Names.lockPath p path) s (fun _ _ => True) (· ≠ .noType) := by
  refine (namei_does path h.quiet.stable h.quiet.stable.firm' (.inl (by decide)) h.walk h.tree.root.1.live
    (h.running hp)).bind fun r t ht => ?_
  obtain ⟨hsame,⟨rfl,-⟩ | ⟨ip,rfl,hst,hlive,-⟩⟩ := ht
  · exact does_pure trivial
  · refine (hst.ilock (mem_self _ 0 ip) (by decide) (.inl ?_)).mono fun _ _ _ => trivial
    rw [Store.nodeOf,hsame.node]
    exact hlive.2

end Firmed

/-- In every run whose calls keep the entries in order, every entry of every directory that can
be named is an inode, and no path ends in `panic("ilock: no type")`. -/
theorem no_dangling_entry (h₀ : Store.Booted n M s₀)
    (h : Reaches (Store.step n) (fun s c => c.Keeps n s) s₀ s) :
    (∀ d, Nameable s d → (s.fs.node d).type = T_DIR → ∀ e ∈ (s.fs.node d).entries, e.inum ≠ 0 →
      Live n s.fs.node e.inum) ∧
    ∀ p, (s.ps.proc p).state = .live → ∀ path,
      ((lockPath p path).run (handle (Store.serve n))).run s ≠ .error .noType := by
  have hs : Firmed n M s := h.invariant h₀.firmed fun _ _ _ ha hc hstep => ha.step hc hstep
  refine ⟨fun d hd ht => hs.tree.entry_live hs.moored ⟨(hs.nameable hd).1,ht⟩,fun p hp path herr => ?_⟩
  exact Prog.Meets.of_error (hs.lockPath hp path) herr rfl

/-- Nothing is removed: `mkdir a`, after which `a/..` can be locked. -/
theorem no_dangling_entry_after_mkdir : ∃ t, Store.step 4 Store.fresh (.mkdir 0 [97]) = some t ∧
    Live 4 t.fs.node 2 ∧
    ((lockPath 0 [97,47,46,46]).run (handle (Store.serve 4))).run t ≠ .error .noType := by
  have hrun : (Store.step 4 Store.fresh (.mkdir 0 [97])).map (fun t => decide
      (⟨2,[97]⟩ ∈ (t.fs.node 1).entries ∧ (t.fs.node 1).type = T_DIR ∧
        (t.ps.proc 0).state = .live)) = some true := by decide +kernel
  obtain ⟨t,ht,hdec⟩ := Option.map_eq_some_iff.mp hrun
  obtain ⟨hmem,hdir,hlive⟩ := of_decide_eq_true hdec
  have hkeeps : Call.Keeps 4 Store.fresh (.mkdir 0 [97]) := by
    refine ⟨by decide,?_,fun _ => False.elim⟩
    rintro d ⟨nm,hd,-⟩
    have hroot : target true Store.fresh 0 [97] = some (ROOTINO,[97]) := by decide +kernel
    obtain ⟨rfl,-⟩ := Prod.mk.inj (Option.some.inj (hroot.symm.trans hd))
    exact .inl rfl
  have hres := no_dangling_entry (Store.fresh_booted (by decide) (by decide))
    (.tail (.refl _) hkeeps ht)
  exact ⟨t,ht,hres.1 ROOTINO .root hdir _ hmem (by decide),hres.2 0 hlive _⟩

/-- `mkdir a; mkdir a/b; chdir a/b; unlink /a/b; unlink /a`: the `..` of the current directory
names the free inode 2, and looking it up panics. -/
theorem parent_dangling : ∃ s, Reaches (Store.step 4) (fun s _ => Store.Few 4 s) Store.fresh s ∧
    (s.ps.proc 0).state = .live ∧ Nameable s 3 ∧ (s.fs.node 3).type = T_DIR ∧
    ⟨2,dotdot⟩ ∈ (s.fs.node 3).entries ∧ ¬ Live 4 s.fs.node 2 ∧
    ((lockPath 0 dotdot).run (handle (Store.serve 4))).run s = .error .noType := by
  have hrun : (Store.after 4 [.mkdir 0 [97],.mkdir 0 [97,47,98],.chdir 0 [97,47,98],
      .unlink 0 [47,97,47,98],.unlink 0 [47,97]]).map (fun s => decide
        ((s.ps.proc 0).state = .live ∧ ((s.ps.proc 0).cwd = some 2 ∧ (s.fs.itable 2).inum = 3) ∧ (s.fs.node 3).type = T_DIR ∧
        ⟨2,dotdot⟩ ∈ (s.fs.node 3).entries ∧ ¬ Live 4 s.fs.node 2) &&
      (match ((lockPath 0 dotdot).run (handle (Store.serve 4))).run s with
      | .error .noType => true
      | _ => false)) = some true := by decide +kernel
  obtain ⟨s,hs,hall⟩ := Option.map_eq_some_iff.mp hrun
  obtain ⟨hdec,hpanic⟩ := Bool.and_eq_true_iff.mp hall
  obtain ⟨hlive,⟨hcwd,hinum⟩,hrest⟩ := of_decide_eq_true hdec
  refine ⟨s,Store.reaches_after hs,hlive,hinum ▸ .cwd hlive hcwd,hrest.1,hrest.2.1,hrest.2.2,?_⟩
  split at hpanic
  next herr => exact herr
  next => exact absurd hpanic Bool.false_ne_true

end Names
end Xv6
