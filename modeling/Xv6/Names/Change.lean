import Xv6.Names.Tree

/-! What a system call does to the inodes, one change at a time, and that the tree survives. -/
namespace Xv6
namespace Names

open Function

variable {n d i j k : ℕ} {N N' : ℕ → Node} {name : Str} {x : Node}

/-- Directory `d` becomes `x` and inode `i` becomes `y`. -/
def both (N : ℕ → Node) (d : ℕ) (x : Node) (i : ℕ) (y : Node) : ℕ → Node :=
  update (update N i y) d x

/-- One change of the name space.  `A` says into which directories a file may be entered, `B`
into which a directory, and `U` which directories may be removed. -/
inductive Change (n : ℕ) (A B U : (ℕ → Node) → ℕ → Prop) (N : ℕ → Node) :
    (ℕ → Node) → Prop
  | link {d k i : ℕ} {name : Str} : IsDir n N d → A N d → (N d).Slot k 0 → Vacant (N d) name →
      Live n N i → (N i).type ≠ T_DIR →
      Change n A B U N (both N d ((N d).enter k ⟨i,name⟩) i ((N i).relink ((N i).nlink + 1)))
  | file {d k i : ℕ} {name : Str} {y : Node} : IsDir n N d → A N d → (N d).Slot k 0 →
      Vacant (N d) name → IsInum n i → (N i).type = 0 → y.type ≠ 0 → y.type ≠ T_DIR → y.nlink = 1 →
      Change n A B U N (both N d ((N d).enter k ⟨i,name⟩) i y)
  | dir {d k i : ℕ} {name : Str} {y : Node} : IsDir n N d → B N d → (N d).Slot k 0 →
      Vacant (N d) name → IsInum n i → (N i).type = 0 → y.type = T_DIR → y.nlink = 1 →
      y.entries = [⟨i,dot⟩,⟨d,dotdot⟩] →
      Change n A B U N
        (both N d (((N d).enter k ⟨i,name⟩).relink ((N d).nlink + 1)) i y)
  | unlink {d k i : ℕ} {name : Str} : IsDir n N d → (N d).entries[k]? = some ⟨i,name⟩ → i ≠ 0 →
      Plain name → (N i).type ≠ T_DIR →
      Change n A B U N (both N d ((N d).enter k ⟨0,[]⟩) i ((N i).relink ((N i).nlink - 1)))
  | rmdir {d k i : ℕ} {name : Str} : IsDir n N d → (N d).entries[k]? = some ⟨i,name⟩ → i ≠ 0 →
      Plain name → (N i).type = T_DIR → (∀ e ∈ (N i).rest, e.inum = 0) → U N i → d ≠ i →
      Change n A B U N (both N d (((N d).enter k ⟨0,[]⟩).relink ((N d).nlink - 1))
        i ((N i).relink ((N i).nlink - 1)))
  | free {i : ℕ} : IsInum n i → (N i).nlink = 0 ∨ (N i).type = 0 →
      Change n A B U N (update N i .free)
  | trunc {i : ℕ} : IsInum n i → (N i).type ≠ T_DIR →
      Change n A B U N (update N i { N i with entries := [] })

namespace Tree

variable (h : Tree n N)
include h

theorem names_free (hi : IsInum n i) (ht : (N i).type = 0) : names n N i = 0 := by
  by_contra hne
  obtain ⟨d,hd,e,he,rfl⟩ := exists_entry_of_names_pos (Nat.pos_of_ne_zero hne)
  exact (h.entry d hd e he (by have := hi.1; omega)).2 ht

theorem ne_root_of_named {e : Dirent} (hd : IsDir n N d) (he : e ∈ (N d).rest) :
    e.inum ≠ ROOTINO := fun hr => by
  have := names_pos hd he
  rw [hr,h.unnamed] at this
  omega

theorem two_le (hd : IsDir n N d) (hk : (N d).Slot k 0) : 2 ≤ k := by
  obtain ⟨hs,hup⟩ := h.shaped d hd
  exact hs.two_le_of_vacant (by have := hd.1.1; omega) (by have := hup.1; omega) hk

theorem plain_of_vacant (hd : IsDir n N d) (hv : Vacant (N d) name) : Plain name := by
  obtain ⟨hs,hup⟩ := h.shaped d hd
  exact hs.plain_of_vacant (by have := hd.1.1; omega) (by have := hup.1; omega) hv

theorem mem_rest (hd : IsDir n N d) (hk : (N d).entries[k]? = some ⟨i,name⟩) (hp : Plain name) :
    2 ≤ k ∧ ⟨i,name⟩ ∈ (N d).rest := by
  have hk2 := (h.shaped d hd).1.two_le_of_plain hk hp
  obtain ⟨k,rfl⟩ : ∃ j, k = 2+j := ⟨k-2,by omega⟩
  exact ⟨hk2,List.mem_of_getElem? (by rwa [Node.rest,List.getElem?_drop])⟩

end Tree

@[simp] theorem both_d (N : ℕ → Node) (d : ℕ) (x : Node) (i : ℕ) (y : Node) :
    both N d x i y d = x := update_self ..

theorem both_i {y : Node} (hne : d ≠ i) : both N d x i y i = y := by
  rw [both,update_of_ne (Ne.symm hne),update_self]

theorem both_other {y : Node} (hd : j ≠ d) (hi : j ≠ i) : both N d x i y j = N j := by
  rw [both,update_of_ne hd,update_of_ne hi]

/-- Enter `⟨i,name⟩` into the empty entry `k` of `d`. -/
theorem Tree.moveIn {y : Node} {v : ℕ} (h : Tree n N) (hd : IsDir n N d) (hk : (N d).Slot k 0)
    (hname : Vacant (N d) name) (hi : IsInum n i) (hne : d ≠ i) (hlive : y.type ≠ 0)
    (hbare : (N i).type ≠ T_DIR) (hstay : y.type ≠ T_DIR ∨ (N i).type = 0)
    (hbare' : y.type = T_DIR → y.rest = []) :
    Move n N d i 0 ⟨i,name⟩ (both N d (((N d).enter k ⟨i,name⟩).relink v) i y) where
  dir := hd
  inum := hi
  ne := hne
  kind := .inl ⟨rfl,rfl⟩
  edit := by
    rw [both_d]
    exact (h.shaped d hd).1.edit (h.two_le hd hk) hk
      (fun _ => ⟨h.plain_of_vacant hd hname,hname.1⟩) hname.2 v
  other := fun j => both_other
  live := by rwa [both_i hne]
  stays := by
    rw [both_i hne]
    rcases hstay with ht | hz
    · exact .inl ⟨fun hy => absurd hy ht,fun hy => absurd hy hbare⟩
    · exact .inr (h.names_free hi hz)
  bare := fun ht => absurd ht hbare
  bare' := by
    rw [both_i hne]
    intro ht e he
    simp [hbare' ht] at he

/-- Clear entry `k` of `d`, which names `i`. -/
theorem Tree.moveOut {v w : ℕ} (h : Tree n N) (hd : IsDir n N d)
    (hk : (N d).entries[k]? = some ⟨i,name⟩) (hi : i ≠ 0) (hname : Plain name) (hne : d ≠ i)
    (hbare : (N i).type = T_DIR → ∀ e ∈ (N i).rest, e.inum = 0) :
    Move n N d i i ⟨0,[]⟩
      (both N d (((N d).enter k ⟨0,[]⟩).relink v) i ((N i).relink w)) where
  dir := hd
  inum := (h.entry d hd _ (h.mem_rest hd hk hname).2 hi).1
  ne := hne
  kind := .inr ⟨rfl,rfl⟩
  edit := by
    rw [both_d]
    exact (h.shaped d hd).1.edit (h.mem_rest hd hk hname).1 (.inl ⟨_,hk,rfl⟩) (absurd rfl)
      (Nat.zero_le _) v
  other := fun j => both_other
  live := by
    rw [both_i hne]
    exact (h.entry d hd _ (h.mem_rest hd hk hname).2 hi).2
  stays := by
    rw [both_i hne]
    exact .inl .rfl
  bare := hbare
  bare' := by
    rw [both_i hne]
    exact hbare

section File

variable {a : ℕ} {de : Dirent} (m : Move n N d i a de N') (ht : (N i).type ≠ T_DIR)
  (ht' : (N' i).type ≠ T_DIR)
include m ht ht'

/-- When `i` is no directory, only the names of `i` have to be checked. -/
theorem Move.tree_file (h : Tree n N) (hd : (N' d).nlink = (N d).nlink)
    (hfile : Names.names n N' i ≤ (N' i).nlink) : Tree n N' := by
  refine m.tree h (fun hr => ht (hr ▸ h.root.1.2)) (absurd · ht') (absurd · ht') (absurd · ht') ?_
    (absurd · ht') fun _ => hfile
  rw [child_of_not_dir ht,child_of_not_dir ht',hd]

omit ht in
theorem Move.closed_file (h : Closed n N) : Closed n N' :=
  m.closed h (.inl (by rw [child_of_not_dir ht']; exact Nat.zero_le _))

end File

section Link

variable (h : Tree n N) (hd : IsDir n N d) (hk : (N d).Slot k 0) (hname : Vacant (N d) name)
include h hd hk hname

section

variable (hi : Live n N i) (ht : (N i).type ≠ T_DIR)
include hi ht

theorem Tree.linkMove : Move n N d i 0 ⟨i,name⟩
    (both N d ((N d).enter k ⟨i,name⟩) i ((N i).relink ((N i).nlink+1))) :=
  h.moveIn (v := (N d).nlink) hd hk hname hi.1 (fun hdi => ht (hdi ▸ hd.2)) hi.2 ht (.inl ht)
    (absurd · ht)

theorem Tree.link_names :
    names n (both N d ((N d).enter k ⟨i,name⟩) i ((N i).relink ((N i).nlink+1))) i =
      names n N i+1 := by
  have hi0 : i ≠ 0 := by have := hi.1.1; omega
  have hn := (h.linkMove hd hk hname hi ht).names hi0
  rwa [if_neg (Ne.symm hi0),if_pos rfl] at hn

theorem Tree.link :
    Tree n (both N d ((N d).enter k ⟨i,name⟩) i ((N i).relink ((N i).nlink+1))) := by
  have hne : d ≠ i := fun hdi => ht (hdi ▸ hd.2)
  refine (h.linkMove hd hk hname hi ht).tree_file ht (by rwa [both_i hne]) h
    (by rw [both_d]; rfl) ?_
  rw [h.link_names hd hk hname hi ht,both_i hne]
  exact Nat.succ_le_succ (h.file i hi ht)

end

variable {y : Node} (hi : IsInum n i) (hfree : (N i).type = 0)
include hi hfree

section

variable (hy : y.type ≠ 0) (ht : y.type ≠ T_DIR)
include hy ht

theorem Tree.fileMove : Move n N d i 0 ⟨i,name⟩ (both N d ((N d).enter k ⟨i,name⟩) i y) := by
  have ht0 : (N i).type ≠ T_DIR := by simp [hfree]
  exact h.moveIn (v := (N d).nlink) hd hk hname hi (fun hdi => ht0 (hdi ▸ hd.2)) hy ht0 (.inl ht)
    (absurd · ht)

theorem Tree.file_names : names n (both N d ((N d).enter k ⟨i,name⟩) i y) i = 1 := by
  have hi0 : i ≠ 0 := by have := hi.1; omega
  have hn := (h.fileMove hd hk hname hi hfree hy ht).names hi0
  rwa [if_neg (Ne.symm hi0),if_pos rfl,h.names_free hi hfree] at hn

theorem Tree.makeFile (hl : y.nlink = 1) : Tree n (both N d ((N d).enter k ⟨i,name⟩) i y) := by
  have ht0 : (N i).type ≠ T_DIR := by simp [hfree]
  have hne : d ≠ i := fun hdi => ht0 (hdi ▸ hd.2)
  refine (h.fileMove hd hk hname hi hfree hy ht).tree_file ht0 (by rwa [both_i hne]) h
    (by rw [both_d]; rfl) ?_
  rw [h.file_names hd hk hname hi hfree hy ht,both_i hne,hl]

end

variable (hy : y.type = T_DIR) (hes : y.entries = [⟨i,dot⟩,⟨d,dotdot⟩])
include hy hes

theorem Tree.dirMove {v : ℕ} :
    Move n N d i 0 ⟨i,name⟩ (both N d (((N d).enter k ⟨i,name⟩).relink v) i y) := by
  have ht0 : (N i).type ≠ T_DIR := by simp [hfree]
  exact h.moveIn hd hk hname hi (fun hdi => ht0 (hdi ▸ hd.2)) (by simp [hy]) ht0 (.inr hfree)
    fun _ => by simp [Node.rest,hes]

theorem Tree.makeDir (hy1 : y.nlink = 1) :
    Tree n (both N d (((N d).enter k ⟨i,name⟩).relink ((N d).nlink+1)) i y) := by
  have ht0 : (N i).type ≠ T_DIR := by simp [hfree]
  have hne : d ≠ i := fun hdi => ht0 (hdi ▸ hd.2)
  have hup : y.up = d := by simp [Node.up,hes]
  have hrest : y.rest = [] := by simp [Node.rest,hes]
  have hi0 : i ≠ 0 := by have := hi.1; omega
  have m := h.dirMove (v := (N d).nlink+1) hd hk hname hi hfree hy hes
  have hzero := h.names_free hi hfree
  have hnames := m.names hi0
  rw [if_neg (Ne.symm hi0),if_pos rfl,hzero,Nat.add_zero,Nat.zero_add] at hnames
  refine m.tree h (fun hr => ht0 (hr ▸ h.root.1.2)) (fun _ => ?_) (fun _ j hj e he hei => ?_)
    (fun _ => hnames.le) ?_ (fun _ => by rw [both_i hne,hnames,hy1])
    fun ht => absurd (by rw [both_i hne,hy]) ht
  · rw [both_i hne,hup]
    refine ⟨⟨?_,fun e he => ?_,fun e he => ?_,?_⟩,hd.1⟩
    · rw [hup,hrest,hes]
    · simp [hrest] at he
    · simp [hrest] at he
    · rw [hrest]
      exact .nil
  · have hjdir : IsDir n (both N d (((N d).enter k ⟨i,name⟩).relink ((N d).nlink+1)) i y) j :=
      (m.isDir fun hji => ht0 (hji ▸ hj.2)).mpr hj
    obtain ⟨hji,hold | ⟨rfl,-⟩⟩ := m.mem hjdir he (hei ▸ hi0)
    · have := names_pos hj hold
      rw [hei,hzero] at this
      omega
    · rw [both_i hne,hup]
  · -- the new directory is one more child of `d`
    have hold := count_le_names hd i
    have hcount := m.edit.count i hi0
    rw [if_neg (Ne.symm hi0),if_pos rfl] at hcount
    rw [child_of_not_dir ht0,child_of_dir ⟨hi,by rw [both_i hne,hy]⟩,both_d,Node.relink_nlink]
    rw [both_d] at hcount
    omega

end Link

section Unlink

variable (h : Tree n N) (hd : IsDir n N d) (hk : (N d).entries[k]? = some ⟨i,name⟩)
  (hname : Plain name)
include h hd hk hname

section

variable (hi : i ≠ 0) (ht : (N i).type ≠ T_DIR)
include hi ht

theorem Tree.unlinkMove : Move n N d i i ⟨0,[]⟩
    (both N d ((N d).enter k ⟨0,[]⟩) i ((N i).relink ((N i).nlink-1))) :=
  h.moveOut (v := (N d).nlink) (w := (N i).nlink-1) hd hk hi hname (fun hdi => ht (hdi ▸ hd.2))
    (absurd · ht)

theorem Tree.unlink_names :
    names n (both N d ((N d).enter k ⟨0,[]⟩) i ((N i).relink ((N i).nlink-1))) i+1 =
      names n N i := by
  have hn := (h.unlinkMove hd hk hname hi ht).names hi
  rwa [if_pos rfl,if_neg (Ne.symm hi)] at hn

theorem Tree.unlink :
    Tree n (both N d ((N d).enter k ⟨0,[]⟩) i ((N i).relink ((N i).nlink-1))) := by
  have hne : d ≠ i := fun hdi => ht (hdi ▸ hd.2)
  refine (h.unlinkMove hd hk hname hi ht).tree_file ht (by rwa [both_i hne]) h
    (by rw [both_d]; rfl) ?_
  have hn := h.unlink_names hd hk hname hi ht
  have hle := h.file i (h.entry d hd _ (h.mem_rest hd hk hname).2 hi) ht
  rw [both_i hne,Node.relink_nlink]
  omega

end

variable (hi : IsDir n N i)
include hi

theorem Tree.removed_parent : (N i).up = d ∧ i ≠ ROOTINO :=
  have hmem := (h.mem_rest hd hk hname).2
  ⟨h.parent d hd _ hmem hi,h.ne_root_of_named hd hmem⟩

theorem Tree.removed_names : names n N i = 1 ∧ (N d).count i = 1 := by
  have hpos : 0 < (N d).count i := Node.count_pos.mpr ⟨_,(h.mem_rest hd hk hname).2,rfl⟩
  have hle := count_le_names hd i
  have := h.once i hi
  omega

theorem Tree.removed_nlink (hbare : ∀ e ∈ (N i).rest, e.inum = 0) : (N i).nlink = 1 := by
  rw [h.dir i hi,(h.removed_names hd hk hname hi).1,children_of_bare hbare,
    if_neg (h.removed_parent hd hk hname hi).2]

/-- A directory that names another one has a link for it. -/
theorem Tree.parent_nlink : 0 < (N d).nlink := by
  have hone := (h.removed_names hd hk hname hi).2
  have hle := count_le_children (d := d) hi
  have := h.dir d hd
  omega

theorem Tree.rmdirMove {v w : ℕ} (hne : d ≠ i) (hbare : ∀ e ∈ (N i).rest, e.inum = 0) :
    Move n N d i i ⟨0,[]⟩ (both N d (((N d).enter k ⟨0,[]⟩).relink v) i ((N i).relink w)) :=
  h.moveOut hd hk (by have := hi.1.1; omega) hname hne fun _ => hbare

theorem Tree.removeDir (hne : d ≠ i) (hbare : ∀ e ∈ (N i).rest, e.inum = 0) :
    Tree n (both N d (((N d).enter k ⟨0,[]⟩).relink ((N d).nlink-1))
      i ((N i).relink ((N i).nlink-1))) := by
  obtain ⟨hup,hr⟩ := h.removed_parent hd hk hname hi
  obtain ⟨hone,hcount⟩ := h.removed_names hd hk hname hi
  have hl := h.removed_nlink hd hk hname hi hbare
  have hpos := h.parent_nlink hd hk hname hi
  have hi0 : i ≠ 0 := by have := hi.1.1; omega
  have m := h.rmdirMove hd hk hname hi (v := (N d).nlink-1) (w := (N i).nlink-1) hne hbare
  have hnames := m.names hi0
  rw [if_pos rfl,if_neg (Ne.symm hi0),hone] at hnames
  refine m.tree h hr (fun _ => ?_) (fun _ j hj e he hei => ?_) (fun _ => by omega) ?_
    (fun _ => ?_) fun ht => absurd (by rw [both_i hne]; exact hi.2) ht
  · rw [both_i hne]
    obtain ⟨hs,hinum⟩ := h.shaped i hi
    exact ⟨⟨hs.head,hs.plain,hs.short,hs.apart⟩,hinum⟩
  · have hjdir : IsDir n (both N d (((N d).enter k ⟨0,[]⟩).relink ((N d).nlink-1))
        i ((N i).relink ((N i).nlink-1))) j := by
      by_cases hji : j = i
      · rw [hji,IsDir,both_i hne]
        exact hi
      · exact (m.isDir hji).mpr hj
    have := names_pos hjdir he
    rw [hei] at this
    omega
  · have hc := m.edit.count i hi0
    rw [if_pos rfl,if_neg (Ne.symm hi0),both_d] at hc
    rw [child_of_dir hi,child_of_dir ⟨hi.1,by rw [both_i hne]; exact hi.2⟩,both_d,Node.relink_nlink]
    omega
  · rw [both_i hne,Node.relink_nlink]
    omega

end Unlink

section FreeInode

variable (h : Tree n N) (hi : IsInum n i) (hz : (N i).nlink = 0 ∨ (N i).type = 0)

theorem isDir_free : IsDir n (update N i .free) j ↔ IsDir n N j ∧ j ≠ i := by
  by_cases hji : j = i
  · simp [IsDir,hji,Node.free]
  · simp [IsDir,hji]

theorem names_update_free (hi : IsInum n i) (j : ℕ) :
    names n (update N i .free) j+named j i (N i) = names n N j := by
  have ht := tally_update (c := named j) (f := N) hi.2 .free
  rwa [show named j i .free = 0 from if_neg fun hc => absurd hc.2 (by decide)] at ht

include h hz

theorem Tree.freed_childless (hd : IsDir n N i) : children n N i = 0 ∧ i ≠ ROOTINO := by
  have hdir := h.dir i hd
  rw [hz.resolve_right hd.live.2] at hdir
  refine ⟨by omega,fun hr => ?_⟩
  rw [if_pos hr] at hdir
  omega

theorem Tree.freed_ne_root : i ≠ ROOTINO := fun hr =>
  (h.freed_childless hz (hr ▸ h.root.1)).2 hr

include hi

theorem Tree.freed_unnamed : names n N i = 0 := by
  by_cases ht : (N i).type = 0
  · exact h.names_free hi ht
  · have hz : (N i).nlink = 0 := hz.resolve_right ht
    by_cases hd : (N i).type = T_DIR
    · have := h.dir i ⟨hi,hd⟩
      omega
    · have := h.file i ⟨hi,ht⟩ hd
      omega

/-- A directory without links names no directory. -/
theorem Tree.freed_named (hj : IsDir n N j) : named j i (N i) = 0 := by
  unfold named
  split
  · rename_i hc
    have hzero := (h.freed_childless hz ⟨hi,hc.2⟩).1
    have hle := count_le_children (d := i) hj
    omega
  · rfl

theorem Tree.free_names (hj : IsDir n N j) :
    names n (update N i .free) j = names n N j := by
  have := names_update_free (N := N) hi j
  rwa [h.freed_named hi hz hj] at this

theorem Tree.free_children (hj : IsDir n N j) (hji : j ≠ i) :
    children n (update N i .free) j = children n N j := by
  refine Finset.sum_congr rfl fun c _ => ?_
  rw [update_of_ne hji]
  by_cases hci : c = i
  · have hle := count_le_names hj i
    rw [h.freed_unnamed hi hz] at hle
    have hzero : (N j).count c = 0 := by rw [hci]; omega
    simp only [child,hzero,ite_self]
  · rw [child,child,update_of_ne hci]

theorem Tree.free : Tree n (update N i .free) := by
  have hunnamed := h.freed_unnamed hi hz
  have hroot := h.freed_ne_root hz
  refine ⟨⟨isDir_free.mpr ⟨h.root.1,hroot.symm⟩,?_⟩,?_,?_,?_,?_,?_,?_,?_⟩
  · rw [update_of_ne hroot.symm]
    exact h.root.2
  · rw [h.free_names hi hz h.root.1]
    exact h.unnamed
  · intro j hj
    obtain ⟨hj,hji⟩ := isDir_free.mp hj
    rw [update_of_ne hji]
    exact h.shaped j hj
  · intro j hdir e he hne
    obtain ⟨hj,hji⟩ := isDir_free.mp hdir
    rw [update_of_ne hji] at he
    have hei : e.inum ≠ i := fun hei => by
      have := names_pos hj he
      rw [hei] at this
      omega
    have hlive := h.entry j hj e he hne
    exact ⟨hlive.1,by rw [update_of_ne hei]; exact hlive.2⟩
  · intro j hj e he hed
    obtain ⟨hj,hji⟩ := isDir_free.mp hj
    obtain ⟨hed,hei⟩ := isDir_free.mp hed
    rw [update_of_ne hji] at he
    rw [update_of_ne hei]
    exact h.parent j hj e he hed
  · intro j hj
    obtain ⟨hj,-⟩ := isDir_free.mp hj
    rw [h.free_names hi hz hj]
    exact h.once j hj
  · intro j hj
    obtain ⟨hj,hji⟩ := isDir_free.mp hj
    rw [update_of_ne hji,h.free_names hi hz hj,h.free_children hi hz hj hji]
    exact h.dir j hj
  · intro j hj ht
    have hji : j ≠ i := by
      rintro rfl
      have := hj.2
      simp [Node.free] at this
    rw [Live,update_of_ne hji] at hj
    rw [update_of_ne hji] at ht ⊢
    have := names_update_free (N := N) hi j
    have := h.file j hj ht
    omega

theorem Closed.free (hc : Closed n N) : Closed n (update N i .free) := by
  intro j hj hr hzero
  obtain ⟨hj,hji⟩ := isDir_free.mp hj
  rw [h.free_names hi hz hj] at hzero
  rw [h.free_children hi hz hj hji]
  exact hc j hj hr hzero

/-- A directory that is freed is empty. -/
theorem Tree.freed_bare (hs : Strict n N) (hd : (N i).type = T_DIR) :
    ∀ e ∈ (N i).rest, e.inum = 0 := by
  intro e he
  by_contra hne
  have hdir : IsDir n N i := ⟨hi,hd⟩
  have hrem : ¬Attached n N i := fun hatt =>
    hatt.elim (h.freed_ne_root hz) fun hnz => hnz (h.freed_unnamed hi hz)
  have hed : IsDir n N e.inum := ⟨(h.entry i hdir e he hne).1,hs.fileless i hdir hrem e he hne⟩
  have hpos := Node.count_pos.mpr ⟨e,he,rfl⟩
  have hle := count_le_children (d := i) hed
  have hzero := (h.freed_childless hz hdir).1
  omega

theorem Strict.free (hs : Strict n N) : Strict n (update N i .free) := by
  have hnames (j : ℕ) (hj : j ≠ 0) : names n (update N i .free) j = names n N j := by
    have ht := names_update_free (N := N) hi j
    rwa [named_of_bare (fun hd => h.freed_bare hi hz hs hd) hj] at ht
  refine ⟨fun j hj ht => ?_,fun j hj hrem e he hne => ?_⟩
  · have hji : j ≠ i := by
      rintro rfl
      have := hj.2
      simp [Node.free] at this
    rw [Live,update_of_ne hji] at hj
    rw [update_of_ne hji] at ht ⊢
    rw [hnames j (by have := hj.1.1; omega)]
    exact hs.file j hj ht
  · obtain ⟨hj,hji⟩ := isDir_free.mp hj
    rw [update_of_ne hji] at he
    rw [Attached,h.free_names hi hz hj] at hrem
    have hei : e.inum ≠ i := by
      intro hei
      have hpos := names_pos hj he
      rw [hei,h.freed_unnamed hi hz] at hpos
      omega
    rw [update_of_ne hei]
    exact hs.fileless j hj hrem e he hne

end FreeInode

/-! What is in a file does not matter. -/

/-- The same but for the contents of files. -/
structure Alike (N N' : ℕ → Node) : Prop where
  type : ∀ j, (N' j).type = (N j).type
  nlink : ∀ j, (N' j).nlink = (N j).nlink
  entries : ∀ j, (N j).type = T_DIR → (N' j).entries = (N j).entries

section Alike

variable (a : Alike N N')
include a

theorem Alike.isDir : IsDir n N' j ↔ IsDir n N j := by rw [IsDir,IsDir,a.type]

theorem Alike.live : Live n N' j ↔ Live n N j := by rw [Live,Live,a.type]

theorem Alike.rest (hd : IsDir n N d) : (N' d).rest = (N d).rest := by
  rw [Node.rest,Node.rest,a.entries d hd.2]

theorem Alike.up (hd : IsDir n N d) : (N' d).up = (N d).up := by
  rw [Node.up,Node.up,a.entries d hd.2]

theorem Alike.count (hd : IsDir n N d) (i : ℕ) : (N' d).count i = (N d).count i := by
  rw [Node.count,Node.count,a.rest hd]

theorem Alike.names (i : ℕ) : names n N' i = names n N i := by
  unfold Names.names tally
  refine Finset.sum_congr rfl fun d hd => ?_
  unfold named
  rw [a.type]
  split
  · rename_i hc
    exact a.count ⟨⟨hc.1,Finset.mem_range.mp hd⟩,hc.2⟩ i
  · rfl

theorem Alike.children (hd : IsDir n N d) : children n N' d = children n N d := by
  unfold Names.children
  refine Finset.sum_congr rfl fun c _ => ?_
  unfold child
  rw [a.type,a.count hd]

theorem Alike.attached : Attached n N' d ↔ Attached n N d := by rw [Attached,Attached,a.names]

theorem Alike.tree (h : Tree n N) : Tree n N' := by
  refine ⟨⟨a.isDir.mpr h.root.1,(a.up h.root.1).trans h.root.2⟩,(a.names _).trans h.unnamed,
    fun d hd => ?_,fun d hd e he hne => ?_,fun d hd e he hed => ?_,fun d hd => ?_,fun d hd => ?_,
    fun i hi ht => ?_⟩
  · have hd := a.isDir.mp hd
    obtain ⟨hs,hup⟩ := h.shaped d hd
    rw [a.up hd]
    refine ⟨⟨?_,?_,?_,?_⟩,hup⟩
    · rw [a.entries d hd.2,a.up hd,a.rest hd]
      exact hs.head
    · rw [a.rest hd]
      exact hs.plain
    · rw [a.rest hd]
      exact hs.short
    · rw [a.rest hd]
      exact hs.apart
  · have hd := a.isDir.mp hd
    rw [a.rest hd] at he
    exact a.live.mpr (h.entry d hd e he hne)
  · have hd := a.isDir.mp hd
    have hed := a.isDir.mp hed
    rw [a.rest hd] at he
    rw [a.up hed]
    exact h.parent d hd e he hed
  · rw [a.names]
    exact h.once d (a.isDir.mp hd)
  · have hd := a.isDir.mp hd
    rw [a.nlink,a.names,a.children hd]
    exact h.dir d hd
  · rw [a.type] at ht
    rw [a.names,a.nlink]
    exact h.file i (a.live.mp hi) ht

theorem Alike.closed (h : Closed n N) : Closed n N' := by
  intro d hd hr hz
  have hd := a.isDir.mp hd
  rw [a.names] at hz
  rw [a.children hd]
  exact h d hd hr hz

theorem Alike.strict (h : Strict n N) : Strict n N' := by
  refine ⟨fun i hi ht => ?_,fun d hd hrem e he hne => ?_⟩
  · rw [a.type] at ht
    rw [a.names,a.nlink]
    exact h.file i (a.live.mp hi) ht
  · have hd := a.isDir.mp hd
    rw [a.attached] at hrem
    rw [a.rest hd] at he
    rw [a.type]
    exact h.fileless d hd hrem e he hne

end Alike

theorem alike_trunc (ht : (N i).type ≠ T_DIR) :
    Alike N (update N i { N i with entries := [] }) := by
  refine ⟨fun j => ?_,fun j => ?_,fun j hj => ?_⟩ <;> by_cases hji : j = i
  · subst hji
    rw [update_self]
  · rw [update_of_ne hji]
  · subst hji
    rw [update_self]
  · rw [update_of_ne hji]
  · exact absurd (hji ▸ hj) ht
  · rw [update_of_ne hji]

section Change

variable {A B U : (ℕ → Node) → ℕ → Prop}

theorem Tree.change (h : Tree n N) (hc : Change n A B U N N') : Tree n N' := by
  cases hc with
  | link hd _ hk hname hi ht => exact h.link hd hk hname hi ht
  | file hd _ hk hname hi hfree hy ht hl => exact h.makeFile hd hk hname hi hfree hy ht hl
  | dir hd _ hk hname hi hfree hy hy1 hes => exact h.makeDir hd hk hname hi hfree hy hes hy1
  | unlink hd hk hi hname ht => exact h.unlink hd hk hname hi ht
  | rmdir hd hk hi hname ht hbare _ hne =>
    have hi := (h.entry _ hd _ (h.mem_rest hd hk hname).2 hi).1
    exact h.removeDir hd hk hname ⟨hi,ht⟩ hne hbare
  | free hi hz => exact h.free hi hz
  | trunc _ ht => exact (alike_trunc ht).tree h

theorem Closed.change (hcl : Closed n N) (h : Tree n N) (hB : ∀ d, B N d → Attached n N d)
    (hc : Change n A B U N N') : Closed n N' := by
  cases hc with
  | @link d k i name hd _ hk hname hi ht =>
    have hne : d ≠ i := fun hdi => ht (hdi ▸ hd.2)
    exact (h.linkMove hd hk hname hi ht).closed_file (by rwa [both_i hne]) hcl
  | @file d k i name y hd _ hk hname hi hfree hy ht hl =>
    have hne : d ≠ i := fun hdi => by
      have := hd.2
      rw [hdi,hfree] at this
      exact absurd this (by decide)
    exact (h.fileMove hd hk hname hi hfree hy ht).closed_file (by rwa [both_i hne]) hcl
  | dir hd hb hk hname hi hfree hy hy1 hes =>
    exact (h.dirMove hd hk hname hi hfree hy hes).closed hcl (.inr (hB _ hb))
  | @unlink d k i name hd hk hi hname ht =>
    have hne : d ≠ i := fun hdi => ht (hdi ▸ hd.2)
    exact (h.unlinkMove hd hk hname hi ht).closed_file (by rwa [both_i hne]) hcl
  | @rmdir d k i name hd hk hi hname ht hbare _ hne =>
    have hdir : IsDir n N i := ⟨(h.entry _ hd _ (h.mem_rest hd hk hname).2 hi).1,ht⟩
    have m := h.rmdirMove (v := (N d).nlink-1) (w := (N i).nlink-1) hd hk hname hdir hne hbare
    refine m.closed hcl (.inl ?_)
    have hcount := m.edit.count i hi
    rw [if_pos rfl,if_neg (Ne.symm hi)] at hcount
    rw [child_of_dir hdir,child_of_dir ⟨hdir.1,by rw [both_i hne]; exact ht⟩]
    omega
  | free hi hz => exact Closed.free h hi hz hcl
  | trunc _ ht => exact (alike_trunc ht).closed hcl

/-- Link counts stay exact when no file is entered into a removed directory. -/
theorem Strict.change (hs : Strict n N) (h : Tree n N) (hA : ∀ d, A N d → Attached n N d) (hc : Change n A B U N N') : Strict n N' := by
  cases hc with
  | @link d k i name hd ha hk hname hi ht =>
    have hne : d ≠ i := fun hdi => ht (hdi ▸ hd.2)
    refine (h.linkMove hd hk hname hi ht).strict hs (fun _ _ => hA d ha) fun _ => ?_
    rw [h.link_names hd hk hname hi ht,both_i hne,Node.relink_nlink,hs.file i hi ht]
  | @file d k i name y hd ha hk hname hi hfree hy ht hl =>
    have hne : d ≠ i := fun hdi => by
      have := hd.2
      rw [hdi,hfree] at this
      exact absurd this (by decide)
    refine (h.fileMove hd hk hname hi hfree hy ht).strict hs (fun _ _ => hA d ha) fun _ => ?_
    rw [h.file_names hd hk hname hi hfree hy ht,both_i hne,hl]
  | @dir d k i name y hd hb hk hname hi hfree hy hy1 hes =>
    have hne : d ≠ i := fun hdi => by
      have := hd.2
      rw [hdi,hfree] at this
      exact absurd this (by decide)
    exact (h.dirMove hd hk hname hi hfree hy hes).strict hs
      (fun _ ht => absurd (by rw [both_i hne,hy]) ht) fun ht => absurd (by rw [both_i hne,hy]) ht
  | @unlink d k i name hd hk hi hname ht =>
    have hne : d ≠ i := fun hdi => ht (hdi ▸ hd.2)
    refine (h.unlinkMove hd hk hname hi ht).strict hs (fun hz => absurd rfl hz) fun _ => ?_
    have hn := h.unlink_names hd hk hname hi ht
    have hold := hs.file i (h.entry d hd _ (h.mem_rest hd hk hname).2 hi) ht
    rw [both_i hne,Node.relink_nlink]
    omega
  | @rmdir d k i name hd hk hi hname ht hbare _ hne =>
    have hdir : IsDir n N i := ⟨(h.entry _ hd _ (h.mem_rest hd hk hname).2 hi).1,ht⟩
    exact (h.rmdirMove hd hk hname hdir hne hbare).strict hs (fun hz => absurd rfl hz)
      fun hnt => absurd (by rw [both_i hne]; exact ht) hnt
  | free hi hz => exact Strict.free h hi hz hs
  | trunc _ ht => exact (alike_trunc ht).strict hs

/-- A directory keeps its name unless it is removed. -/
theorem Tree.attached_change (h : Tree n N) (hc : Change n A B U N N') (hj : IsDir n N j)
    (ha : Attached n N j) : (IsDir n N' j ∧ Attached n N' j) ∨ U N j := by
  have hj0 : j ≠ 0 := by have := hj.1.1; omega
  have hmove : ∀ {d i a de}, Move n N d i a de N' → j ≠ i → IsDir n N' j ∧ Attached n N' j :=
    fun m hji => ⟨(m.isDir hji).mpr hj,(m.attached hj0 hji).mpr ha⟩
  have hfree : ∀ {i}, (N i).type = 0 → j ≠ i := fun hz hji => hj.live.2 (hji ▸ hz)
  have hfile : ∀ {i}, (N i).type ≠ T_DIR → j ≠ i := fun ht hji => ht (hji ▸ hj.2)
  cases hc with
  | link hd _ hk hname hi ht => exact .inl (hmove (h.linkMove hd hk hname hi ht) (hfile ht))
  | file hd _ hk hname hi hz hy ht _ =>
    exact .inl (hmove (h.fileMove hd hk hname hi hz hy ht) (hfree hz))
  | dir hd _ hk hname hi hz hy _ hes =>
    exact .inl (hmove (h.dirMove hd hk hname hi hz hy hes) (hfree hz))
  | unlink hd hk hi hname ht => exact .inl (hmove (h.unlinkMove hd hk hname hi ht) (hfile ht))
  | @rmdir d k i name hd hk hi hname ht hbare hu hne =>
    by_cases hji : j = i
    · exact .inr (hji ▸ hu)
    · have hi := (h.entry _ hd _ (h.mem_rest hd hk hname).2 hi).1
      exact .inl (hmove (h.rmdirMove hd hk hname ⟨hi,ht⟩ hne hbare) hji)
  | @free i hi hz =>
    have hji : j ≠ i := by
      rintro rfl
      rcases ha with hr | hname
      · exact h.freed_ne_root hz hr
      · exact hname (h.freed_unnamed hi hz)
    refine .inl ⟨isDir_free.mpr ⟨hj,hji⟩,?_⟩
    rwa [Attached,h.free_names hi hz hj]
  | trunc _ ht => exact .inl ⟨(alike_trunc ht).isDir.mpr hj,(alike_trunc ht).attached.mpr ha⟩

end Change

end Names
end Xv6
