import Xv6.Names.System

/-! Runs of system calls from a well-formed image, and the tree of directories they keep. -/
namespace Xv6
namespace Names

open List
open Fs (NINODE Panic)
open Relation (ReflTransGen)

/-- An image as a freshly made or cleanly unmounted disk has it: a tree with exact link counts, no
removed directory and no inode without links. -/
structure Image (n : ℕ) (N : ℕ → Node) : Prop where
  small : n ≤ 2^16
  tree : Tree n N
  strict : Strict n N
  attached : ∀ d, IsDir n N d → Attached n N d
  linked : ∀ i, Live n N i → (N i).nlink ≠ 0

namespace Store

/-- One system call of a live process, run to its end; none if it does not return. -/
def step (n : ℕ) (s : Sys Store) (c : Call) : Option (Sys Store) :=
  if (s.ps.proc c.proc).state = .live then
    match (c.code.run (handle (serve n))).run s with
    | .ok (_,t) => some t
    | .error _ => none
  else none

/-- The first process starts in the root of a well-formed image. -/
structure Booted (n : ℕ) (M : Set ℕ) (s : Sys Store) : Prop where
  image : Image n s.fs.node
  tables : s.ps.Booted M
  cwd : ∀ ip, (s.ps.proc initproc).cwd = some ip → (s.fs.itable ip).inum = ROOTINO
  ref : ∀ ip, (s.fs.itable ip).ref = if (s.ps.proc initproc).cwd = some ip then 1 else 0
  locked : ∀ ip, (s.fs.itable ip).locked = false

/-- Every inode has fewer than 32767 links. -/
def Few (n : ℕ) (s : Sys Store) : Prop := ∀ i, IsInum n i → (s.fs.node i).nlink < 32767

instance (n : ℕ) (s : Sys Store) : Decidable (Few n s) :=
  decidable_of_iff (∀ i < n, 1 ≤ i → (s.fs.node i).nlink < 32767)
    ⟨fun h i hi => h i hi.2 hi.1,fun h i hlt hge => h i ⟨hge,hlt⟩⟩

end Store

variable {n : ℕ} {M : Set ℕ} {s s₀ t : Sys Store} {N : ℕ → Node} {c : Call}
  {A B U : (ℕ → Node) → ℕ → Prop}

theorem Store.Booted.quiet (h : Store.Booted n M s) : Quiet n M s := by
  obtain ⟨c,hc⟩ := Option.ne_none_iff_exists'.mp h.tables.cwd
  have hrefs : s.ps.inodes+s.ps.cwds+0 = {c} := by
    rw [h.tables.inodes,h.tables.cwds hc,zero_add,add_zero]
  have hroot : ∀ ip ∈ s.ps.inodes+s.ps.cwds+0, (s.fs.itable ip).inum = ROOTINO := by
    intro ip hip
    rw [hrefs,Multiset.mem_singleton] at hip
    exact hip ▸ h.cwd c hc
  have hlive : ∀ ip ∈ s.ps.inodes+s.ps.cwds+0, (s.fs.nodeOf ip).type ≠ 0 := by
    intro ip hip
    rw [Store.nodeOf,hroot ip hip]
    exact h.image.tree.root.1.live.2
  refine ⟨h.tables.kept,fun ip => ?_,fun ip hip => ?_,fun ip hip jp hjp _ => ?_,fun ip hip => ?_,
    fun ip hip _ => hlive ip hip,h.locked,fun ip hl => absurd hl Bool.false_ne_true,
    fun i hi hz => absurd hz (h.image.linked i hi)⟩
  · rw [h.ref ip,hrefs,Multiset.count_singleton,hc]
    simp only [Option.some.injEq,eq_comm]
  · rw [hroot ip hip]
    exact h.image.tree.root.1.1
  · rw [hrefs,Multiset.mem_singleton] at hip hjp
    rw [hip,hjp]
  · rw [← add_zero (s.ps.inodes+s.ps.cwds)] at hip
    exact hlive ip hip

/-- The entries of a directory, `.` and `..` among them, are inode numbers. -/
theorem Tree.entry_inum {d : ℕ} (h : Tree n N) (hd : IsDir n N d) :
    ∀ e ∈ (N d).entries, e.inum ≠ 0 → IsInum n e.inum := by
  intro e he hne
  obtain ⟨hs,hup⟩ := h.shaped d hd
  rw [hs.head] at he
  rcases mem_cons.mp he with rfl | he
  · exact hd.1
  rcases mem_cons.mp he with rfl | he
  · exact hup
  · exact (h.entry d hd e he hne).1

/-- A live process has a current directory, to which there is a reference. -/
theorem Quiet.cwd {p : Fin NPROC} (h : Quiet n M s) (hp : (s.ps.proc p).state = .live) :
    ∃ c ∈ s.ps.inodes+s.ps.cwds, (s.ps.proc p).cwd = some c := by
  obtain ⟨c,hc⟩ := Option.ne_none_iff_exists'.mp (h.kept.tidy.cwd p hp)
  exact ⟨c,Multiset.mem_add.mpr (.inr (mem_bag.mpr ⟨p,hc⟩)),hc⟩

section Step

variable (h : Quiet n M s) (htree : Tree n s.fs.node)
include h htree

/-- Without a promise about `panic("ilock: no type")`, a path may lead anywhere. -/
theorem Quiet.env {E : Panic → Prop} (hn : n ≤ 2^16) (hfew : Store.Few n s) {p : Fin NPROC}
    (hp : (s.ps.proc p).state = .live) (hdead : E .deadlock) (htype : E .noType)
    (hroom : Room E (s.ps.inodes+s.ps.cwds+0) 3) :
    Env n s (s.ps.inodes+s.ps.cwds) (IsInum n) E p := by
  obtain ⟨c,hin,hc⟩ := h.cwd hp
  refine ⟨h.stable,⟨hdead,fun _ => id,fun _ _ => .inr htype,fun i hi hd => ?_⟩,
    htree.root.1.1,⟨c,hin,hc,h.stable.inum c (by rwa [add_zero])⟩,htree,hn,hfew,hroom⟩
  exact htree.entry_inum ⟨hi,hd⟩

theorem Quiet.called (hn : n ≤ 2^16) (hfew : Store.Few n s) (hstep : Store.step n s c = some t)
    (hA : ∀ d, c.EntersFile s d → A s.fs.node d) (hB : ∀ d, c.EntersDir s d → B s.fs.node d)
    (hU : ∀ i, c.Removes s i → U s.fs.node i) : Called n A B U M s t := by
  unfold Store.step at hstep
  split at hstep
  next hp =>
    have hdoes := c.does h hp (h.env htree hn hfew hp trivial trivial (.inl trivial)) (fun _ _ _ _ => trivial) hA hB hU
    split at hstep
    next r u hu =>
      cases hstep
      have hmeets : Prog.Meets _ s (fun _ t => Called n A B U M s t) fun _ => True := hdoes
      exact hmeets.of_ok hu
    next => cases hstep
  next => cases hstep

end Step

/-- What every change keeps, a call keeps. -/
theorem Called.along {P : (ℕ → Node) → Prop} (h : Called n A B U M s t) (hs : P s.fs.node)
    (hP : ∀ N N', P N → Change n A B U N N' → P N') : P t.fs.node := by
  have hchanges := h.changes
  generalize t.fs.node = N' at hchanges ⊢
  induction hchanges with
  | refl => exact hs
  | tail _ hc ih => exact hP _ _ ih hc

/-- The state between two calls, with the directories in order. -/
structure Sound (n : ℕ) (M : Set ℕ) (s : Sys Store) : Prop where
  small : n ≤ 2^16
  quiet : Quiet n M s
  tree : Tree n s.fs.node

theorem Store.Booted.sound (h : Store.Booted n M s) : Sound n M s := ⟨h.image.small,h.quiet,h.image.tree⟩

theorem Sound.called (h : Sound n M s) (hfew : Store.Few n s) (hstep : Store.step n s c = some t) :
    Called n (fun _ _ => True) (fun _ _ => True) (fun _ i => c.Removes s i) M s t :=
  h.quiet.called h.tree h.small hfew hstep (fun _ _ => trivial) (fun _ _ => trivial) fun _ => id

theorem Sound.step (h : Sound n M s) (hfew : Store.Few n s) (hstep : Store.step n s c = some t) :
    Sound n M t :=
  have hcalled := h.called hfew hstep
  ⟨h.small,hcalled.quiet,hcalled.along h.tree fun _ _ hN hc => hN.change hc⟩

/-! The tree below the root. -/

/-- Entries `ks`, none of them `.` or `..`, lead from the root to `d`. -/
inductive Leads (N : ℕ → Node) : List ℕ → ℕ → Prop
  | root : Leads N [] ROOTINO
  | step {ks : List ℕ} {d k : ℕ} {e : Dirent} : Leads N ks d → (N d).type = T_DIR →
      (N d).entries[k]? = some e → e.inum ≠ 0 → Plain e.name → Leads N (ks ++ [k]) e.inum

/-- Some entries, `.` and `..` among them, lead from the root to `d`. -/
inductive Reachable (N : ℕ → Node) : ℕ → Prop
  | root : Reachable N ROOTINO
  | step {d : ℕ} {e : Dirent} : Reachable N d → (N d).type = T_DIR → e ∈ (N d).entries →
      e.inum ≠ 0 → Reachable N e.inum

/-- Directory `d` has one place in the tree. -/
structure Placed (N : ℕ → Node) (d : ℕ) : Prop where
  path : ∃! ks, Leads N ks d
  self : (N d).entries[0]? = some ⟨d,dot⟩
  parent : ∃ up, (N d).entries[1]? = some ⟨up,dotdot⟩ ∧ (d = ROOTINO → up = ROOTINO) ∧
    ∀ ks k, Leads N (ks ++ [k]) d → Leads N ks up
  names : ∀ (j k : ℕ) (e f : Dirent), j ≠ k → (N d).entries[j]? = some e → (N d).entries[k]? = some f →
    e.inum ≠ 0 → f.inum ≠ 0 → e.name.take DIRSIZ ≠ f.name.take DIRSIZ

theorem eq_of_count_le_one {α : Type} [DecidableEq α] {l : List α} {a : α} (hc : l.count a ≤ 1)
    {j k : ℕ} (hj : l[j]? = some a) (hk : l[k]? = some a) : j = k := by
  have hlt : ∀ {j k : ℕ}, l[j]? = some a → l[k]? = some a → ¬ j < k := by
    intro j k hj hk hjk
    obtain ⟨hjl,hja⟩ := List.getElem?_eq_some_iff.mp hj
    obtain ⟨hkl,hka⟩ := List.getElem?_eq_some_iff.mp hk
    have hdup : l.Duplicate a :=
      duplicate_iff_exists_distinct_get.mpr ⟨⟨j,hjl⟩,⟨k,hkl⟩,hjk,hja.symm,hka.symm⟩
    have := duplicate_iff_two_le_count.mp hdup
    omega
  exact Nat.le_antisymm (not_lt.mp (hlt hk hj)) (not_lt.mp (hlt hj hk))

section Below

variable {d k : ℕ} {ks js : List ℕ} {e f : Dirent} (h : Tree n N)
include h

theorem Tree.leads_live (hl : Leads N ks d) : Live n N d := by
  induction hl with
  | root => exact h.root.1.live
  | step _ hd hk hne hp ih => exact h.entry _ ⟨ih.1,hd⟩ _ (h.mem_rest ⟨ih.1,hd⟩ hk hp).2 hne

/-- The last entry on the way to a directory is in the directory that `..` names. -/
theorem Tree.leads_up (hl : Leads N (ks++[k]) d) (hd : IsDir n N d) :
    Leads N ks (N d).up ∧ IsDir n N (N d).up ∧ ∃ e ∈ (N (N d).up).rest,
      (N (N d).up).entries[k]? = some e ∧ 2 ≤ k ∧ e.inum = d := by
  generalize hks : ks++[k] = ks' at hl
  cases hl with
  | root => exact absurd hks (by simp)
  | @step js d' k' e hl hd' hk hne hp =>
    obtain ⟨rfl,hkk⟩ := append_inj' hks rfl
    obtain rfl : k = k' := singleton_inj.mp hkk
    have hdir : IsDir n N d' := ⟨(h.leads_live hl).1,hd'⟩
    obtain ⟨hk2,hmem⟩ := h.mem_rest hdir hk hp
    rw [h.parent d' hdir e hmem hd]
    exact ⟨hl,hdir,e,hmem,hk,hk2,rfl⟩

theorem Tree.leads_root (hl : Leads N ks ROOTINO) : ks = [] := by
  cases ks using reverseRecOn with
  | nil => rfl
  | append_singleton ks k =>
    obtain ⟨-,hup,e,he,-,-,hr⟩ := h.leads_up hl h.root.1
    exact absurd hr (h.ne_root_of_named hup he)

/-- A directory names another one at most once. -/
theorem Tree.index_unique {i l : ℕ} (hd : IsDir n N d) (hi : IsDir n N i) (hk2 : 2 ≤ k) (hl2 : 2 ≤ l)
    (hk : (N d).entries[k]? = some e) (hl : (N d).entries[l]? = some f) (he : e.inum = i)
    (hf : f.inum = i) : k = l := by
  have hcount : ((N d).rest.map Dirent.inum).count i ≤ 1 := by
    have heq : ((N d).rest.map Dirent.inum).count i = (N d).count i := by
      rw [count,countP_map,Node.count]
      exact countP_congr fun e _ => by simp
    rw [heq]
    exact (count_le_names hd i).trans (h.once i hi)
  have hget : ∀ {k e}, 2 ≤ k → (N d).entries[k]? = some e → e.inum = i →
      ((N d).rest.map Dirent.inum)[k-2]? = some i := by
    intro k e hk2 hk he
    rw [List.getElem?_map,Node.rest,List.getElem?_drop,Nat.add_sub_cancel' hk2,hk,Option.map_some,he]
  have := eq_of_count_le_one hcount (hget hk2 hk he) (hget hl2 hl hf)
  omega

theorem Tree.leads_unique (hks : Leads N ks d) (hjs : Leads N js d) (hd : IsDir n N d) : ks = js := by
  induction ks using reverseRecOn generalizing js d with
  | nil =>
    generalize hnil : ([] : List ℕ) = ks at hks
    cases hks with
    | root => exact hnil ▸ (h.leads_root hjs).symm
    | step => exact absurd hnil (by simp)
  | append_singleton ks k ih =>
    cases js using reverseRecOn with
    | nil =>
      generalize hnil : ([] : List ℕ) = js at hjs
      cases hjs with
      | root => exact hnil ▸ h.leads_root hks
      | step => exact absurd hnil (by simp)
    | append_singleton js l =>
      obtain ⟨hks,hup,e,-,hk,hk2,he⟩ := h.leads_up hks hd
      obtain ⟨hjs,-,f,-,hl,hl2,hf⟩ := h.leads_up hjs hd
      rw [ih hks hjs hup,h.index_unique hup hd hk2 hl2 hk hl he hf]

theorem Tree.exists_leads (hr : Reachable N d) : ∃ ks, Leads N ks d := by
  induction hr with
  | root => exact ⟨[],.root⟩
  | @step d e _ hd he hne ih =>
    obtain ⟨ks,hks⟩ := ih
    have hdir : IsDir n N d := ⟨(h.leads_live hks).1,hd⟩
    have hs := (h.shaped d hdir).1
    obtain ⟨k,hk⟩ := mem_iff_getElem?.mp he
    by_cases hp : Plain e.name
    · exact ⟨ks++[k],hks.step hd hk hne hp⟩
    rw [hs.head] at he
    rcases mem_cons.mp he with rfl | he
    · exact ⟨ks,hks⟩
    rcases mem_cons.mp he with rfl | he
    · cases ks using reverseRecOn with
      | nil =>
        generalize hnil : ([] : List ℕ) = ks at hks
        cases hks with
        | root =>
          refine ⟨[],?_⟩
          rw [h.root.2]
          exact .root
        | step => exact absurd hnil (by simp)
      | append_singleton ks k => exact ⟨ks,(h.leads_up hks hdir).1⟩
    · exact absurd (hs.plain e he hne) hp

end Below

/-- The entries in use have different names, `.` and `..` included. -/
theorem Shaped.pairwise {d : ℕ} {x : Node} (h : Shaped d x) : x.entries.Pairwise Apart := by
  rw [h.head]
  refine pairwise_cons.mpr ⟨fun e he _ hne hname => ?_,
    pairwise_cons.mpr ⟨fun e he _ hne hname => ?_,h.apart⟩⟩
  · rcases mem_cons.mp he with rfl | he
    · exact absurd hname (show dot ≠ dotdot by decide)
    · exact (h.plain e he hne).1 hname.symm
  · exact (h.plain e he hne).2 hname.symm

theorem Shaped.name_short {d : ℕ} {x : Node} (h : Shaped d x) :
    ∀ e ∈ x.entries, e.name.take DIRSIZ = e.name := by
  intro e he
  rw [h.head] at he
  rcases mem_cons.mp he with rfl | he
  · rfl
  rcases mem_cons.mp he with rfl | he
  · rfl
  · exact take_of_length_le (h.short e he)

theorem Shaped.names_ne {d j k : ℕ} {x : Node} {e f : Dirent} (h : Shaped d x) (hjk : j ≠ k)
    (hj : x.entries[j]? = some e) (hk : x.entries[k]? = some f) (he : e.inum ≠ 0) (hf : f.inum ≠ 0) :
    e.name.take DIRSIZ ≠ f.name.take DIRSIZ := by
  rw [h.name_short e (mem_of_getElem? hj),h.name_short f (mem_of_getElem? hk)]
  obtain ⟨hjl,rfl⟩ := List.getElem?_eq_some_iff.mp hj
  obtain ⟨hkl,rfl⟩ := List.getElem?_eq_some_iff.mp hk
  rcases Nat.lt_or_gt_of_ne hjk with hlt | hlt
  · exact pairwise_iff_getElem.mp h.pairwise j k hjl hkl hlt he hf
  · exact (pairwise_iff_getElem.mp h.pairwise k j hkl hjl hlt hf he).symm

theorem Tree.placed {d : ℕ} (h : Tree n N) (hr : Reachable N d) (ht : (N d).type = T_DIR) :
    Placed N d := by
  obtain ⟨ks,hks⟩ := h.exists_leads hr
  have hd : IsDir n N d := ⟨(h.leads_live hks).1,ht⟩
  have hs := (h.shaped d hd).1
  refine ⟨⟨ks,hks,fun js hjs => h.leads_unique hjs hks hd⟩,by rw [hs.head]; rfl,
    ⟨(N d).up,by rw [hs.head]; rfl,?_,fun ks k hl => (h.leads_up hl hd).1⟩,
    fun j k e f hjk hj hk => hs.names_ne hjk hj hk⟩
  rintro rfl
  exact h.root.2

/-- What a call leaves without a name was empty. -/
theorem Sound.removes (h : Sound n M s) (hfew : Store.Few n s) (hstep : Store.step n s c = some t)
    {d : ℕ} (hd : IsDir n s.fs.node d) (ha : Attached n s.fs.node d)
    (hgone : ¬ (IsDir n t.fs.node d ∧ Attached n t.fs.node d)) : c.Removes s d := by
  have hcalled := h.called hfew hstep
  have hkeep : Tree n t.fs.node ∧
      ((IsDir n t.fs.node d ∧ Attached n t.fs.node d) ∨ c.Removes s d) := by
    refine hcalled.along (P := fun N => Tree n N ∧ ((IsDir n N d ∧ Attached n N d) ∨ c.Removes s d))
      ⟨h.tree,.inl ⟨hd,ha⟩⟩ fun N N' hN hc => ⟨hN.1.change hc,?_⟩
    rcases hN.2 with ⟨hdir,hatt⟩ | hrem
    · exact hN.1.attached_change hc hdir hatt
    · exact .inr hrem
  exact hkeep.2.resolve_left hgone

/-- The directories that can be reached from the root form a tree, and a call that takes a
directory out of it is an `unlink` of an empty one. -/
theorem reachable_form_tree (h₀ : Store.Booted n M s₀)
    (h : Reaches (Store.step n) (fun s _ => Store.Few n s) s₀ s) :
    (∀ d, Reachable s.fs.node d → (s.fs.node d).type = T_DIR → Placed s.fs.node d) ∧
    ∀ c t, Store.Few n s → Store.step n s c = some t → ∀ d, IsDir n s.fs.node d →
      Attached n s.fs.node d → ¬ (IsDir n t.fs.node d ∧ Attached n t.fs.node d) →
      (∃ p path, c = .unlink p path) ∧
        ∀ (k : ℕ) (e : Dirent), 2 ≤ k → (s.fs.node d).entries[k]? = some e → e.inum = 0 := by
  have hs : Sound n M s := h.invariant h₀.sound fun _ _ _ ha hfew hstep => ha.step hfew hstep
  refine ⟨fun d hr ht => hs.tree.placed hr ht,fun c t hfew hstep d hd ha hgone => ?_⟩
  have hrem := hs.removes hfew hstep hd ha hgone
  cases c with
  | unlink p path =>
    obtain ⟨_,_,_,-,-,-,-,hbare⟩ := hrem
    refine ⟨⟨p,path,rfl⟩,fun k e hk2 hk => hbare e (mem_of_getElem? (i := k-2) ?_)⟩
    rw [Node.rest,List.getElem?_drop,Nat.add_sub_cancel' hk2,hk]
  | _ => exact hrem.elim

/-! A disk as `mkfs` leaves it, without files. -/

def Node.root : Node := ⟨T_DIR,0,0,1,[⟨ROOTINO,dot⟩,⟨ROOTINO,dotdot⟩]⟩

def blank (i : ℕ) : Node := if i = ROOTINO then .root else .free

theorem isDir_blank {d : ℕ} (h : IsDir n blank d) : d = ROOTINO := by
  by_contra hne
  have hd := h.2
  rw [blank,if_neg hne] at hd
  exact absurd hd (by decide)

theorem names_blank (n i : ℕ) : names n blank i = 0 := by
  by_contra hne
  obtain ⟨d,hd,e,he,-⟩ := exists_entry_of_names_pos (Nat.pos_of_ne_zero hne)
  rw [isDir_blank hd] at he
  exact absurd he not_mem_nil

theorem live_blank {i : ℕ} (h : Live n blank i) : i = ROOTINO := by
  by_contra hne
  exact h.2 (by rw [blank,if_neg hne]; rfl)

theorem image_blank (h2 : 2 ≤ n) (hn : n ≤ 2^16) : Image n blank := by
  have hroot : IsDir n blank ROOTINO := ⟨⟨le_rfl,h2⟩,rfl⟩
  have hrest : ∀ d, IsDir n blank d → (blank d).rest = [] := by
    intro d hd
    rw [isDir_blank hd]
    rfl
  refine ⟨hn,⟨⟨hroot,rfl⟩,names_blank n _,fun d hd => ?_,fun d hd e he => ?_,fun d hd e he => ?_,
    fun d _ => ?_,fun d hd => ?_,fun i hi ht => ?_⟩,⟨fun i hi ht => ?_,fun d hd _ e he => ?_⟩,
    fun d hd => .inl (isDir_blank hd),fun i hi => ?_⟩
  · rw [isDir_blank hd]
    exact ⟨⟨rfl,fun _ he => absurd he not_mem_nil,fun _ he => absurd he not_mem_nil,.nil⟩,
      ⟨le_rfl,h2⟩⟩
  · rw [hrest d hd] at he
    exact absurd he not_mem_nil
  · rw [hrest d hd] at he
    exact absurd he not_mem_nil
  · rw [names_blank]
    exact Nat.zero_le 1
  · rw [names_blank,children_of_bare (by simp [hrest d hd]),isDir_blank hd]
    rfl
  · exact absurd (by rw [live_blank hi]; rfl) ht
  · exact absurd (by rw [live_blank hi]; rfl) ht
  · rw [hrest d hd] at he
    exact absurd he not_mem_nil
  · rw [live_blank hi]
    decide

namespace Store

/-- A machine that has just booted on such a disk. -/
def fresh : Sys Store :=
  ⟨⟨blank,fun ip => ⟨ROOTINO,if ip = 0 then 1 else 0,false,false⟩,[]⟩,.start⟩

theorem fresh_booted (h2 : 2 ≤ n) (hn : n ≤ 2^16) : Booted n {1,2} fresh where
  image := image_blank h2 hn
  tables := Procs.start_booted
  cwd _ _ := rfl
  ref ip := by
    by_cases h : ip = 0
    · simp [fresh,Procs.start,h,initproc]
    · simp [fresh,Procs.start,h,initproc,eq_comm]
  locked _ := rfl

/-- The calls that follow each other on such a machine with `n` inodes, `few` links each. -/
def after (n : ℕ) (cs : List Call) : Option (Sys Store) :=
  runEvents (step n) (fun s _ => decide (Few n s)) fresh cs

theorem reaches_after {cs : List Call} {s : Sys Store} (h : after n cs = some s) :
    Reaches (step n) (fun s _ => Few n s) fresh s :=
  (reaches_of_runEvents h).mono fun _ _ hok => of_decide_eq_true hok

end Store

/-- `mkdir a; mkdir a/b; unlink a/b`, where the last call removes the empty directory 3. -/
theorem reachable_form_tree_after_mkdir : ∃ s t,
    Reaches (Store.step 4) (fun s _ => Store.Few 4 s) Store.fresh s ∧
    Store.step 4 s (.unlink 0 [97,47,98]) = some t ∧ Placed s.fs.node 2 ∧
    ∀ (k : ℕ) (e : Dirent), 2 ≤ k → (s.fs.node 3).entries[k]? = some e → e.inum = 0 := by
  have hrun : (Store.after 4 [.mkdir 0 [97],.mkdir 0 [97,47,98]]).map (fun s =>
      decide (Store.Few 4 s ∧ (s.fs.node 1).type = T_DIR ∧ (s.fs.node 1).entries[2]? = some ⟨2,[97]⟩ ∧
        (s.fs.node 2).type = T_DIR ∧ IsDir 4 s.fs.node 3 ∧ Attached 4 s.fs.node 3) &&
      (Store.step 4 s (.unlink 0 [97,47,98])).any fun t => decide (¬ IsDir 4 t.fs.node 3)) =
      some true := by decide +kernel
  obtain ⟨s,hs,hall⟩ := Option.map_eq_some_iff.mp hrun
  obtain ⟨hdec,hany⟩ := Bool.and_eq_true_iff.mp hall
  obtain ⟨hfew,h1,hname,h2,h3,ha⟩ := of_decide_eq_true hdec
  obtain ⟨t,ht,hgone⟩ := (Option.any_eq_true ..).mp hany
  have hreach := Store.reaches_after hs
  have hres := reachable_form_tree (Store.fresh_booted (by decide) (by decide)) hreach
  exact ⟨s,t,hreach,ht,hres.1 2 (.step .root h1 (mem_of_getElem? hname) (by decide)) h2,
    (hres.2 _ t hfew ht 3 h3 ha fun hboth => of_decide_eq_true hgone hboth.1).2⟩

end Names
end Xv6
