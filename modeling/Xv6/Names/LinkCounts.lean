import Xv6.Names.Runs

/-! Link counts.  The count of an inode is the number of entries that name it, as long as no file
gets a name in a directory that has been removed. -/
namespace Xv6
namespace Names

open Finset
open Fs (NINODE)

variable {n i c : ℕ} {N : ℕ → Node}

/-- Entry `e` of directory `c` is a link to `i`: `.` is not one, and `..` only as long as `c`
has not been removed. -/
def IsLink (n : ℕ) (N : ℕ → Node) (i c : ℕ) (e : Dirent) : Prop :=
  e.inum = i ∧ e.name ≠ dot ∧ (e.name = dotdot → Attached n N c)

instance (n : ℕ) (N : ℕ → Node) (i c : ℕ) (e : Dirent) : Decidable (IsLink n N i c e) :=
  inferInstanceAs (Decidable (_ ∧ _ ∧ _))

/-- The links to `i` in all directories. -/
def links (n : ℕ) (N : ℕ → Node) (i : ℕ) : ℕ :=
  ∑ c ∈ Finset.range n,
    if IsDir n N c then (N c).entries.countP fun e => decide (IsLink n N i c e) else 0

/-- Every link is counted, and an inode that is neither named nor in use is free. -/
structure LinksExact (n : ℕ) (s : Sys Store) : Prop where
  nlink : ∀ i, Live n s.fs.node i → (s.fs.node i).nlink = links n s.fs.node i
  free : ∀ i, IsInum n i → (s.fs.node i).nlink = 0 →
    (∀ ip, 0 < (s.fs.itable ip).ref → (s.fs.itable ip).inum ≠ i) → (s.fs.node i).type = 0

/-- The share of the `..` entry of `c` in the links to `i`. -/
def upward (n : ℕ) (N : ℕ → Node) (i c : ℕ) : ℕ := if (N c).up = i ∧ Attached n N c then 1 else 0

section Tree

variable (h : Tree n N)
include h

theorem Tree.count_links (hi : i ≠ 0) (hc : IsDir n N c) :
    (N c).entries.countP (fun e => decide (IsLink n N i c e)) = (N c).count i+upward n N i c := by
  have hs := (h.shaped c hc).1
  have hrest : (N c).rest.countP (fun e => decide (IsLink n N i c e)) = (N c).count i := by
    refine List.countP_congr fun e he => ?_
    simp only [decide_eq_true_eq]
    refine ⟨fun hl => hl.1,fun hei => ⟨hei,?_⟩⟩
    have hp := hs.plain e he (hei ▸ hi)
    exact ⟨hp.1,fun hdd => absurd hdd hp.2⟩
  have hdot : ¬ IsLink n N i c ⟨c,dot⟩ := fun hl => hl.2.1 rfl
  have hup : IsLink n N i c ⟨(N c).up,dotdot⟩ ↔ (N c).up = i ∧ Attached n N c :=
    ⟨fun hl => ⟨hl.1,hl.2.2 rfl⟩,fun hl => ⟨hl.1,show dotdot ≠ dot by decide,fun _ => hl.2⟩⟩
  rw [hs.head,List.countP_cons,List.countP_cons,hrest,upward]
  simp only [hdot,hup,decide_eq_true_eq,if_false,add_zero]

/-- Below `i`, entries and their `..` go in pairs; the root is its own. -/
theorem Tree.upward_eq (hi : IsDir n N i) (hc : IsDir n N c) :
    upward n N i c = (N i).count c+if c = ROOTINO ∧ i = ROOTINO then 1 else 0 := by
  by_cases hroot : c = ROOTINO
  · subst hroot
    have hzero : (N i).count ROOTINO = 0 := by
      have := count_le_names hi ROOTINO
      rw [h.unnamed] at this
      omega
    have hatt : Attached n N ROOTINO := .inl rfl
    rw [upward,h.root.2,hzero,zero_add]
    simp only [hatt,and_true,true_and,eq_comm]
  · rw [if_neg fun hr => hroot hr.1,add_zero,upward]
    split
    next hup =>
      obtain ⟨rfl,ha⟩ := hup
      exact (h.named_above hc hroot ha).2.symm
    next hup =>
      by_contra hne
      obtain ⟨e,he,rfl⟩ := Node.count_pos.mp (Nat.pos_of_ne_zero (Ne.symm hne))
      exact hup ⟨h.parent i hi e he hc,.inr (Nat.pos_iff_ne_zero.mp (names_pos hi he))⟩

theorem Tree.upward_file (hi : ¬ IsDir n N i) (hc : IsDir n N c) : upward n N i c = 0 := by
  refine if_neg fun hup => hi ?_
  obtain ⟨rfl,ha⟩ := hup
  by_cases hroot : c = ROOTINO
  · rw [hroot,h.root.2]
    exact h.root.1
  · exact (h.named_above hc hroot ha).1

theorem Tree.links_eq (hi : i ≠ 0) : links n N i =
    names n N i + ∑ c ∈ range n, if IsDir n N c then upward n N i c else 0 := by
  rw [links,names,tally,← sum_add_distrib]
  refine sum_congr rfl fun c hc => ?_
  by_cases hdir : IsDir n N c
  · rw [if_pos hdir,if_pos hdir,h.count_links hi hdir,hdir.named]
  · rw [if_neg hdir,if_neg hdir,named,if_neg fun hcd => hdir ⟨⟨hcd.1,mem_range.mp hc⟩,hcd.2⟩]

/-- The `..` entries that name a directory are those of the directories in it. -/
theorem Tree.sum_upward (hi : IsDir n N i) :
    (∑ c ∈ range n, if IsDir n N c then upward n N i c else 0) =
      children n N i+if i = ROOTINO then 1 else 0 := by
  have hterm : ∀ c ∈ range n, (if IsDir n N c then upward n N i c else 0) =
      child N (N i) c+if c = ROOTINO then (if i = ROOTINO then 1 else 0) else 0 := by
    intro c hc
    by_cases hdir : IsDir n N c
    · rw [if_pos hdir,child_of_dir hdir,h.upward_eq hi hdir,ite_and]
    · have hne : c ≠ ROOTINO := fun hr => hdir (hr ▸ h.root.1)
      rw [if_neg hdir,if_neg hne,child,
        if_neg fun hcd => hdir ⟨⟨hcd.1,mem_range.mp hc⟩,hcd.2⟩]
  rw [sum_congr rfl hterm,sum_add_distrib,sum_ite_eq',
    if_pos (mem_range.mpr h.root.1.1.2)]
  rfl

theorem Tree.nlink_eq (hs : Strict n N) (hi : Live n N i) : (N i).nlink = links n N i := by
  have hi0 : i ≠ 0 := by have := hi.1.1; omega
  rw [h.links_eq hi0]
  by_cases hdir : IsDir n N i
  · rw [h.sum_upward hdir,h.dir i hdir,add_assoc]
  · have hzero : (∑ c ∈ range n, if IsDir n N c then upward n N i c else 0) = 0 := by
      refine sum_eq_zero fun c _ => ?_
      split
      next hc => exact h.upward_file hdir hc
      next => rfl
    rw [hzero,add_zero]
    exact hs.file i hi fun ht => hdir ⟨hi.1,ht⟩

end Tree

variable {M : Set ℕ} {s s₀ t : Sys Store} {cl : Call}

/-- A call keeps link counts exact if it enters no file into a removed directory. -/
theorem Strict.step (hs : Strict n s.fs.node) (h : Sound n M s) (hfew : Store.Few n s)
    (hcl : ∀ d, cl.EntersFile s d → Attached n s.fs.node d) (hstep : Store.step n s cl = some t) :
    Strict n t.fs.node := by
  have hcalled : Called n (Attached n) (fun _ _ => True) (fun _ _ => True) M s t :=
    h.quiet.called h.tree h.small hfew hstep hcl (fun _ _ => trivial) fun _ _ => trivial
  have hboth : Tree n t.fs.node ∧ Strict n t.fs.node :=
    hcalled.along (P := fun N => Tree n N ∧ Strict n N) ⟨h.tree,hs⟩ fun N N' hN hc =>
      ⟨hN.1.change hc,hN.2.change hN.1 (fun _ => id) hc⟩
  exact hboth.2

theorem Sound.linksExact (h : Sound n M s) (hs : Strict n s.fs.node) : LinksExact n s := by
  refine ⟨fun i hi => h.tree.nlink_eq hs hi,fun i hi hz hfree => ?_⟩
  by_contra ht
  obtain ⟨ip,hin,heq,-⟩ := h.quiet.stable.firm i ⟨hi,ht⟩ hz
  exact hfree ip (h.quiet.stable.ref_pos.mpr hin) heq

/-- In every run in which `open`, `mknod` and `link` enter no file into a removed directory, link
counts are exact. -/
theorem links_exact (h₀ : Store.Booted n M s₀) (h : Reaches (Store.step n) (fun s cl =>
      Store.Few n s ∧ ∀ d, cl.EntersFile s d → Attached n s.fs.node d) s₀ s) :
    LinksExact n s := by
  have hinv : Sound n M s ∧ Strict n s.fs.node :=
    h.invariant (P := fun s => Sound n M s ∧ Strict n s.fs.node) ⟨h₀.sound,h₀.image.strict⟩
      fun _ _ _ ha hok hstep => ⟨ha.1.step hok.1 hstep,ha.2.step ha.1 hok.1 hok.2 hstep⟩
  exact hinv.1.linksExact hinv.2

/-- A file is made in the root. -/
theorem links_exact_after_open : ∃ t, Store.step 4 Store.fresh (.open 0 [102] O_CREATE) = some t ∧
    LinksExact 4 t ∧ (t.fs.node 2).nlink = 1 := by
  have hrun : (Store.step 4 Store.fresh (.open 0 [102] O_CREATE)).map
      (fun t => decide ((t.fs.node 2).nlink = 1)) = some true := by decide +kernel
  obtain ⟨t,ht,hlink⟩ := Option.map_eq_some_iff.mp hrun
  have hnew : ∀ d, Call.EntersFile Store.fresh (.open 0 [102] O_CREATE) d →
      Attached 4 Store.fresh.fs.node d := by
    rintro d ⟨-,nm,hd,-⟩
    have hroot : target true Store.fresh 0 [102] = some (ROOTINO,[102]) := by decide +kernel
    obtain ⟨rfl,-⟩ := Prod.mk.inj (Option.some.inj (hroot.symm.trans hd))
    exact .inl rfl
  exact ⟨t,ht,links_exact (Store.fresh_booted (by decide) (by decide))
    (.tail (.refl _) ⟨by decide,hnew⟩ ht),of_decide_eq_true hlink⟩

/-- `mkdir a; chdir a; unlink ../a; open f; close; chdir /` leaves the file behind: inode 3 has a
link but no name. -/
theorem link_without_name : ∃ s, Reaches (Store.step 4) (fun s _ => Store.Few 4 s) Store.fresh s ∧
    Live 4 s.fs.node 3 ∧ (s.fs.node 3).nlink = 1 ∧ links 4 s.fs.node 3 = 0 := by
  have hrun : (Store.after 4 [.mkdir 0 [97],.chdir 0 [97],.unlink 0 [46,46,47,97],
      .open 0 [102] O_CREATE,.close 0 0,.chdir 0 [47]]).map (fun s => decide (Live 4 s.fs.node 3 ∧
        (s.fs.node 3).nlink = 1 ∧ links 4 s.fs.node 3 = 0)) = some true := by decide +kernel
  obtain ⟨s,hs,hdec⟩ := Option.map_eq_some_iff.mp hrun
  exact ⟨s,Store.reaches_after hs,of_decide_eq_true hdec⟩

end Names
end Xv6
