import Mathlib.Data.List.Basic
import Xv6.Lib.Count
import Xv6.Names.Store

/-! The directory tree and its link counts, as a property of the inodes alone. -/
namespace Xv6
namespace Names

open Function List

variable {n : ℕ} {N : ℕ → Node} {d i k : ℕ} {x : Node} {de : Dirent}

/-- The numbers of the inodes of a disk with `n` of them; number 0 is not used. -/
def IsInum (n i : ℕ) : Prop := 1 ≤ i ∧ i < n

instance (n i : ℕ) : Decidable (IsInum n i) := inferInstanceAs (Decidable (_ ∧ _))

def Live (n : ℕ) (N : ℕ → Node) (i : ℕ) : Prop := IsInum n i ∧ (N i).type ≠ 0

instance (n : ℕ) (N : ℕ → Node) (i : ℕ) : Decidable (Live n N i) :=
  inferInstanceAs (Decidable (_ ∧ _))

def IsDir (n : ℕ) (N : ℕ → Node) (d : ℕ) : Prop := IsInum n d ∧ (N d).type = T_DIR

instance (n : ℕ) (N : ℕ → Node) (d : ℕ) : Decidable (IsDir n N d) :=
  inferInstanceAs (Decidable (_ ∧ _))

theorem IsDir.live (h : IsDir n N d) : Live n N d := ⟨h.1,by rw [h.2]; decide⟩

/-- A name that is neither `.` nor `..`. -/
def Plain (name : Str) : Prop := name ≠ dot ∧ name ≠ dotdot

instance (name : Str) : Decidable (Plain name) := inferInstanceAs (Decidable (_ ∧ _))

namespace Node

/-- The entries behind `.` and `..`. -/
def rest (x : Node) : List Dirent := x.entries.drop 2

/-- The inode `..` names. -/
def up (x : Node) : ℕ := (x.entries.getD 1 ⟨0,[]⟩).inum

/-- Write entry `k`. -/
def enter (x : Node) (k : ℕ) (de : Dirent) : Node :=
  { x with entries := Store.writeEntry x.entries k de }

def relink (x : Node) (v : ℕ) : Node := { x with nlink := v }

@[simp] theorem relink_nlink (x : Node) (v : ℕ) : (x.relink v).nlink = v := rfl

@[simp] theorem relink_type (x : Node) (v : ℕ) : (x.relink v).type = x.type := rfl

/-- Entry `k` names `a`; the next entry, not there yet, counts as naming 0. -/
def Slot (x : Node) (k a : ℕ) : Prop :=
  (∃ e, x.entries[k]? = some e ∧ e.inum = a) ∨ (k = x.entries.length ∧ a = 0)

/-- The number of entries behind `.` and `..` that name `i`. -/
def count (x : Node) (i : ℕ) : ℕ := x.rest.countP fun e => e.inum = i

theorem count_pos : 0 < x.count i ↔ ∃ e ∈ x.rest, e.inum = i := by simp [count,countP_pos_iff]

end Node

/-- The first entry in use with the name. -/
def find (es : List Dirent) (name : Str) : Option Dirent :=
  es.find? fun e => decide (e.inum ≠ 0 ∧ name = e.name)

theorem find_some {es : List Dirent} {name : Str} (h : find es name = some de) :
    de ∈ es ∧ de.inum ≠ 0 ∧ name = de.name := by
  have hde := find?_some h
  exact ⟨List.mem_of_find?_eq_some h,of_decide_eq_true hde⟩

theorem find_none {es : List Dirent} {name : Str} (h : find es name = none) :
    ∀ e ∈ es, e.inum ≠ 0 → e.name ≠ name := fun e he hne hname =>
  find?_eq_none.mp h e he (decide_eq_true ⟨hne,hname.symm⟩)

/-- Two entries that are both in use have different names. -/
def Apart (e f : Dirent) : Prop := e.inum ≠ 0 → f.inum ≠ 0 → e.name ≠ f.name

/-- What `create` makes of a directory: `.`, `..` and then entries with other names, which
are different and fit an entry. -/
structure Shaped (d : ℕ) (x : Node) : Prop where
  head : x.entries = ⟨d,dot⟩ :: ⟨x.up,dotdot⟩ :: x.rest
  plain : ∀ e ∈ x.rest, e.inum ≠ 0 → Plain e.name
  short : ∀ e ∈ x.rest, e.name.length ≤ DIRSIZ
  apart : x.rest.Pairwise Apart

/-- A name that may be entered into a directory. -/
def Vacant (x : Node) (name : Str) : Prop := find x.entries name = none ∧ name.length ≤ DIRSIZ

theorem mem_writeEntry {es : List Dirent} {e : Dirent} (h : e ∈ Store.writeEntry es k de) :
    e ∈ es ∨ e = de := by
  unfold Store.writeEntry at h
  split at h
  · exact mem_or_eq_of_mem_set h
  · simpa using h

/-- An entry that is apart from all others can be written. -/
theorem pairwise_writeEntry {es : List Dirent} (h : es.Pairwise Apart)
    (hde : ∀ e ∈ es, Apart e de) : (Store.writeEntry es k de).Pairwise Apart := by
  have hsymm {e : Dirent} (he : Apart e de) : Apart de e := fun a b c => he b a c.symm
  unfold Store.writeEntry
  split
  · induction es generalizing k with
    | nil => exact .nil
    | cons e es ih =>
      obtain ⟨he,hes⟩ := pairwise_cons.mp h
      cases k with
      | zero =>
        exact pairwise_cons.mpr ⟨fun f hf => hsymm (hde f (mem_cons_of_mem _ hf)),hes⟩
      | succ k =>
        rename_i hlt
        refine pairwise_cons.mpr ⟨fun f hf => ?_,ih hes
          (fun f hf => hde f (mem_cons_of_mem _ hf)) (Nat.lt_of_succ_lt_succ hlt)⟩
        rcases mem_or_eq_of_mem_set hf with hf | rfl
        · exact he f hf
        · exact hde e (mem_cons_self ..)
  · exact pairwise_append.mpr ⟨h,pairwise_singleton ..,fun e he f hf =>
      mem_singleton.mp hf ▸ hde e he⟩

section Entries

variable (h : Shaped d x)
include h

theorem Shaped.length : x.entries.length = x.rest.length+2 := by
  rw [h.head]
  rfl

/-- `.` and `..` are not empty. -/
theorem Shaped.two_le_of_vacant (hd : d ≠ 0) (hup : x.up ≠ 0) (hk : x.Slot k 0) : 2 ≤ k := by
  rcases hk with ⟨e,he,hz⟩ | ⟨rfl,-⟩
  · match k with
    | 0 =>
      rw [h.head] at he
      obtain rfl : ⟨d,dot⟩ = e := by simpa using he
      exact absurd hz hd
    | 1 =>
      rw [h.head] at he
      obtain rfl : ⟨x.up,dotdot⟩ = e := by simpa using he
      exact absurd hz hup
    | k+2 => omega
  · rw [h.length]
    omega

theorem Shaped.two_le_of_plain {e : Dirent} (he : x.entries[k]? = some e) (hp : Plain e.name) :
    2 ≤ k := by
  match k with
  | 0 =>
    rw [h.head] at he
    obtain rfl : ⟨d,dot⟩ = e := by simpa using he
    exact absurd rfl hp.1
  | 1 =>
    rw [h.head] at he
    obtain rfl : ⟨x.up,dotdot⟩ = e := by simpa using he
    exact absurd rfl hp.2
  | k+2 => omega

theorem Shaped.enter_entries : (x.enter (k+2) de).entries =
    ⟨d,dot⟩ :: ⟨x.up,dotdot⟩ :: Store.writeEntry x.rest k de := by
  simp only [Node.enter,Store.writeEntry]
  rw [h.head]
  simp only [length_cons,Nat.add_lt_add_iff_right,set_cons_succ]
  split <;> rfl

theorem Shaped.count_enter {a : ℕ} (hk : x.Slot (k+2) a) (hi : i ≠ 0) :
    (Store.writeEntry x.rest k de).countP (fun e => decide (e.inum = i)) +
      (if a = i then 1 else 0) = x.count i+if de.inum = i then 1 else 0 := by
  rcases hk with ⟨e,he,rfl⟩ | ⟨hk,rfl⟩
  · have hlt : k < x.rest.length := by
      have := (List.getElem?_eq_some_iff.mp he).1
      rw [h.length] at this
      omega
    have hget : x.rest[k] = e := by
      rw [h.head,List.getElem?_cons_succ,List.getElem?_cons_succ,
        List.getElem?_eq_getElem hlt] at he
      exact Option.some.inj he
    have hle : 0 < x.count i ∨ e.inum ≠ i := by
      by_cases hei : e.inum = i
      · exact .inl (Node.count_pos.mpr ⟨e,hget ▸ getElem_mem hlt,hei⟩)
      · exact .inr hei
    rw [Store.writeEntry,if_pos hlt,countP_set hlt,hget]
    simp only [Node.count,decide_eq_true_eq] at hle ⊢
    split <;> omega
  · have hge : ¬ k < x.rest.length := by
      rw [h.length] at hk
      omega
    rw [Store.writeEntry,if_neg hge,countP_append,if_neg (Ne.symm hi)]
    simp [Node.count,countP_cons]

end Entries

/-- Directory `d` changes from `x` to `x'` by replacing an entry that names `a` by `de`. -/
structure Edit (d a : ℕ) (de : Dirent) (x x' : Node) : Prop where
  shaped : Shaped d x'
  type : x'.type = x.type
  up : x'.up = x.up
  count : ∀ i ≠ 0, x'.count i + (if a = i then 1 else 0) = x.count i + if de.inum = i then 1 else 0
  mem : ∀ e ∈ x'.rest, e ∈ x.rest ∨ e = de

/-- A name that may be entered is neither `.` nor `..`. -/
theorem Shaped.plain_of_vacant {name : Str} (h : Shaped d x) (hd : d ≠ 0) (hup : x.up ≠ 0)
    (hv : Vacant x name) : Plain name := by
  have hnone := find_none hv.1
  rw [h.head] at hnone
  exact ⟨fun hn => hnone ⟨d,dot⟩ (by simp) hd hn.symm,
    fun hn => hnone ⟨x.up,dotdot⟩ (by simp) hup hn.symm⟩

theorem Shaped.edit {a : ℕ} (h : Shaped d x) (hk : 2 ≤ k) (hs : x.Slot k a)
    (hp : de.inum ≠ 0 → Plain de.name ∧ find x.entries de.name = none) (hlen : de.name.length ≤ DIRSIZ)
    (v : ℕ) : Edit d a de x ((x.enter k de).relink v) := by
  obtain ⟨k,rfl⟩ : ∃ j, k = j+2 := ⟨k-2,by omega⟩
  have hup : ((x.enter (k+2) de).relink v).up = x.up := by
    rw [Node.up,Node.relink,h.enter_entries]
    rfl
  have hrest : ((x.enter (k+2) de).relink v).rest = Store.writeEntry x.rest k de := by
    rw [Node.rest,Node.relink,h.enter_entries]
    rfl
  refine ⟨⟨?_,fun e he hne => ?_,fun e he => ?_,?_⟩,rfl,hup,fun i hi => ?_,fun e he => ?_⟩
  · rw [hup,hrest]
    exact h.enter_entries
  · rw [hrest] at he
    rcases mem_writeEntry he with he | rfl
    · exact h.plain e he hne
    · exact (hp hne).1
  · rw [hrest] at he
    rcases mem_writeEntry he with he | rfl
    · exact h.short e he
    · exact hlen
  · rw [hrest]
    exact pairwise_writeEntry h.apart fun e he hne hde =>
      find_none (hp hde).2 e (mem_of_mem_drop he) hne
  · rw [Node.count,hrest]
    exact h.count_enter hs hi
  · exact mem_writeEntry (hrest ▸ he)

/-! Counting. -/

/-- The share of inode `d` in the names of `i`. -/
def named (i d : ℕ) (x : Node) : ℕ := if 1 ≤ d ∧ x.type = T_DIR then x.count i else 0

/-- The number of entries other than `.` and `..` that name `i`. -/
def names (n : ℕ) (N : ℕ → Node) (i : ℕ) : ℕ := tally n (named i) N

/-- The share of inode `c` in the directories named by the entries of `x`. -/
def child (N : ℕ → Node) (x : Node) (c : ℕ) : ℕ :=
  if 1 ≤ c ∧ (N c).type = T_DIR then x.count c else 0

/-- The number of entries of directory `d` other than `.` and `..` that name directories. -/
def children (n : ℕ) (N : ℕ → Node) (d : ℕ) : ℕ := ∑ c ∈ Finset.range n, child N (N d) c

theorem IsDir.named (h : IsDir n N d) (i : ℕ) : named i d (N d) = (N d).count i :=
  if_pos ⟨h.1.1,h.2⟩

theorem count_le_names (h : IsDir n N d) (i : ℕ) : (N d).count i ≤ names n N i :=
  h.named i ▸ share_le_tally h.1.2

theorem exists_entry_of_names_pos (h : 0 < names n N i) :
    ∃ d, IsDir n N d ∧ ∃ e ∈ (N d).rest, e.inum = i := by
  obtain ⟨d,hd,hpos⟩ := exists_share_of_tally_pos h
  unfold Names.named at hpos
  split at hpos
  · rename_i hc
    exact ⟨d,⟨⟨hc.1,hd⟩,hc.2⟩,Node.count_pos.mp hpos⟩
  · omega

theorem names_pos (h : IsDir n N d) {e : Dirent} (he : e ∈ (N d).rest) : 0 < names n N e.inum :=
  (Node.count_pos.mpr ⟨e,he,rfl⟩).trans_le (count_le_names h e.inum)

theorem child_of_dir {c : ℕ} (hc : IsDir n N c) (x : Node) : child N x c = x.count c :=
  if_pos ⟨hc.1.1,hc.2⟩

theorem child_of_not_dir {c : ℕ} (hc : (N c).type ≠ T_DIR) (x : Node) : child N x c = 0 :=
  if_neg fun h => hc h.2

theorem count_le_children {c : ℕ} (hc : IsDir n N c) : (N d).count c ≤ children n N d :=
  child_of_dir hc (N d) ▸ Finset.single_le_sum (f := child N (N d)) (fun _ _ => Nat.zero_le _)
    (Finset.mem_range.mpr hc.1.2)

theorem children_of_bare (hbare : ∀ e ∈ (N d).rest, e.inum = 0) : children n N d = 0 := by
  refine Finset.sum_eq_zero fun c _ => ?_
  unfold child
  split
  · rename_i hc
    by_contra hne
    obtain ⟨e,he,rfl⟩ := Node.count_pos.mp (Nat.pos_of_ne_zero hne)
    have := hbare e he
    omega
  · rfl

/-- The tree of directories.  A directory without a name, other than the root, has been
removed but is still in use. -/
structure Tree (n : ℕ) (N : ℕ → Node) : Prop where
  root : IsDir n N ROOTINO ∧ (N ROOTINO).up = ROOTINO
  unnamed : names n N ROOTINO = 0
  shaped : ∀ d, IsDir n N d → Shaped d (N d) ∧ IsInum n (N d).up
  entry : ∀ d, IsDir n N d → ∀ e ∈ (N d).rest, e.inum ≠ 0 → Live n N e.inum
  parent : ∀ d, IsDir n N d → ∀ e ∈ (N d).rest, IsDir n N e.inum → (N e.inum).up = d
  once : ∀ d, IsDir n N d → names n N d ≤ 1
  dir : ∀ d, IsDir n N d →
    (N d).nlink = names n N d + children n N d + if d = ROOTINO then 1 else 0
  file : ∀ i, Live n N i → (N i).type ≠ T_DIR → names n N i ≤ (N i).nlink

/-- The root, or a directory with a name. -/
def Attached (n : ℕ) (N : ℕ → Node) (d : ℕ) : Prop := d = ROOTINO ∨ names n N d ≠ 0

instance (n : ℕ) (N : ℕ → Node) (d : ℕ) : Decidable (Attached n N d) :=
  inferInstanceAs (Decidable (_ ∨ _))

theorem attached_or_removed (n : ℕ) (N : ℕ → Node) (d : ℕ) :
    Attached n N d ∨ (d ≠ ROOTINO ∧ names n N d = 0) := by
  rcases Decidable.em (Attached n N d) with h | h
  · exact .inl h
  · exact .inr ⟨fun hr => h (.inl hr),not_not.mp fun hz => h (.inr hz)⟩

/-- A directory with a name is named in the directory its `..` names. -/
theorem Tree.named_above {c : ℕ} (h : Tree n N) (hc : IsDir n N c) (hne : c ≠ ROOTINO) (ha : Attached n N c) :
    IsDir n N (N c).up ∧ (N (N c).up).count c = 1 := by
  have hpos : names n N c ≠ 0 := ha.resolve_left hne
  obtain ⟨d,hd,e,he,rfl⟩ := exists_entry_of_names_pos (Nat.pos_of_ne_zero hpos)
  rw [h.parent d hd e he hc]
  have hcount : 0 < (N d).count e.inum := Node.count_pos.mpr ⟨e,he,rfl⟩
  exact ⟨hd,le_antisymm ((count_le_names hd _).trans (h.once _ hc)) hcount⟩

/-- No directory is named by a removed one. -/
def Closed (n : ℕ) (N : ℕ → Node) : Prop :=
  ∀ d, IsDir n N d → d ≠ ROOTINO → names n N d = 0 → children n N d = 0

/-- Files are counted exactly, and a removed directory names no file. -/
structure Strict (n : ℕ) (N : ℕ → Node) : Prop where
  file : ∀ i, Live n N i → (N i).type ≠ T_DIR → (N i).nlink = names n N i
  fileless : ∀ d, IsDir n N d → ¬Attached n N d →
    ∀ e ∈ (N d).rest, e.inum ≠ 0 → (N e.inum).type = T_DIR

/-- Directory `d` is edited, and inode `i`, which the entry names before or after, changes
its link count or is made. -/
structure Move (n : ℕ) (N : ℕ → Node) (d i a : ℕ) (de : Dirent) (N' : ℕ → Node) : Prop where
  dir : IsDir n N d
  inum : IsInum n i
  ne : d ≠ i
  kind : (a = 0 ∧ de.inum = i) ∨ (a = i ∧ de.inum = 0)
  edit : Edit d a de (N d) (N' d)
  other : ∀ j, j ≠ d → j ≠ i → N' j = N j
  live : (N' i).type ≠ 0
  stays : ((N' i).type = T_DIR ↔ (N i).type = T_DIR) ∨ names n N i = 0
  bare : (N i).type = T_DIR → ∀ e ∈ (N i).rest, e.inum = 0
  bare' : (N' i).type = T_DIR → ∀ e ∈ (N' i).rest, e.inum = 0

section Move

variable {N' : ℕ → Node} {a j : ℕ} (m : Move n N d i a de N')
include m

theorem Move.tally (c : ℕ → Node → ℕ) :
    tally n c N'+(c d (N d)+c i (N i)) = tally n c N+(c d (N' d)+c i (N' i)) := by
  have hN : N' = update (update N i (N' i)) d (N' d) := by
    funext j
    by_cases hjd : j = d
    · rw [hjd,update_self]
    · by_cases hji : j = i
      · rw [update_of_ne hjd,hji,update_self]
      · rw [update_of_ne hjd,update_of_ne hji,m.other j hjd hji]
  have hi := tally_update (c := c) (f := N) m.inum.2 (N' i)
  have hd := tally_update (c := c) (f := update N i (N' i)) m.dir.1.2 (N' d)
  rw [← hN,update_of_ne m.ne] at hd
  omega

omit m in
theorem named_of_bare (hbare : x.type = T_DIR → ∀ e ∈ x.rest, e.inum = 0) (hj : j ≠ 0) (i : ℕ) :
    named j i x = 0 := by
  unfold Names.named
  split
  · rename_i hc
    by_contra hne
    obtain ⟨e,he,hej⟩ := Node.count_pos.mp (Nat.pos_of_ne_zero hne)
    exact hj (hej ▸ hbare hc.2 e he)
  · rfl

theorem Move.isDir_d : IsDir n N' d := ⟨m.dir.1,m.edit.type.trans m.dir.2⟩

theorem Move.names (hj : j ≠ 0) : names n N' j+(if a = j then 1 else 0) =
    names n N j+if de.inum = j then 1 else 0 := by
  have ht := m.tally (Names.named j)
  rw [named_of_bare m.bare hj,named_of_bare m.bare' hj,m.dir.named,m.isDir_d.named] at ht
  have hc := m.edit.count j hj
  unfold Names.names
  omega

theorem Move.names_other (hj : j ≠ 0) (hji : j ≠ i) : Names.names n N' j = Names.names n N j := by
  have h := m.names hj
  rcases m.kind with ⟨rfl,hde⟩ | ⟨rfl,hde⟩
  · rwa [hde,if_neg (Ne.symm hj),if_neg (Ne.symm hji)] at h
  · rwa [hde,if_neg (Ne.symm hj),if_neg (Ne.symm hji)] at h

theorem Move.type (hj : j ≠ i) : (N' j).type = (N j).type := by
  by_cases hjd : j = d
  · rw [hjd,m.edit.type]
  · rw [m.other j hjd hj]

theorem Move.up (hj : j ≠ i) : (N' j).up = (N j).up := by
  by_cases hjd : j = d
  · rw [hjd,m.edit.up]
  · rw [m.other j hjd hj]

theorem Move.isDir (hj : j ≠ i) : IsDir n N' j ↔ IsDir n N j := by rw [IsDir,IsDir,m.type hj]

/-- The directories `d` names, before and after. -/
theorem Move.children_d :
    children n N' d+child N (N d) i = children n N d+child N' (N' d) i := by
  refine sum_range_except m.inum.2 fun c hc => ?_
  unfold child
  rw [m.type hc]
  by_cases hc1 : 1 ≤ c
  · have hcount := m.edit.count c (by omega)
    have ha : a ≠ c := by rcases m.kind with ⟨rfl,-⟩ | ⟨rfl,-⟩ <;> omega
    have hde : de.inum ≠ c := by rcases m.kind with ⟨-,h⟩ | ⟨-,h⟩ <;> omega
    rw [if_neg ha,if_neg hde] at hcount
    rw [show (N' d).count c = (N d).count c from hcount]
  · rw [if_neg fun h => hc1 h.1,if_neg fun h => hc1 h.1]

theorem Move.children_other (hjd : j ≠ d) (hji : j ≠ i) (hj : IsDir n N j) :
    Names.children n N' j = Names.children n N j := by
  have hnode := m.other j hjd hji
  have hsum := sum_range_except (f := child N' (N' j)) (g := child N (N j)) m.inum.2 fun c hc => by
    unfold child
    rw [m.type hc,hnode]
  have hi : child N' (N' j) i = child N (N j) i := by
    unfold child
    rw [hnode]
    rcases m.stays with hiff | hz
    · simp only [hiff]
    · have hle := count_le_names hj i
      have : (N j).count i = 0 := by omega
      simp only [this,ite_self]
  unfold Names.children
  omega

theorem Move.children_i (hi : (N' i).type = T_DIR) : Names.children n N' i = 0 :=
  children_of_bare (m.bare' hi)

theorem Move.live_of (h : Live n N j) : Live n N' j := by
  by_cases hj : j = i
  · exact ⟨h.1,hj ▸ m.live⟩
  · exact ⟨h.1,by rw [m.type hj]; exact h.2⟩

/-- An entry in use after the change was there before, or is the new one. -/
theorem Move.mem {e : Dirent} (hj : IsDir n N' j) (he : e ∈ (N' j).rest) (hne : e.inum ≠ 0) :
    j ≠ i ∧ (e ∈ (N j).rest ∨ (j = d ∧ e = de)) := by
  have hji : j ≠ i := by
    rintro rfl
    exact hne (m.bare' hj.2 e he)
  refine ⟨hji,?_⟩
  by_cases hjd : j = d
  · subst hjd
    exact (m.edit.mem e he).imp_right fun h => ⟨rfl,h⟩
  · rw [m.other j hjd hji] at he
    exact .inl he

theorem Move.tree (h : Tree n N) (hroot : i ≠ ROOTINO)
    (hshaped : (N' i).type = T_DIR → Shaped i (N' i) ∧ IsInum n (N' i).up)
    (hparent : (N' i).type = T_DIR → ∀ j, IsDir n N j → ∀ e ∈ (N' j).rest, e.inum = i →
      (N' i).up = j)
    (honce : (N' i).type = T_DIR → Names.names n N' i ≤ 1)
    (hdir : (N' d).nlink+child N (N d) i = (N d).nlink+child N' (N' d) i)
    (hlink : (N' i).type = T_DIR → (N' i).nlink = Names.names n N' i)
    (hfile : (N' i).type ≠ T_DIR → Names.names n N' i ≤ (N' i).nlink) : Tree n N' where
  root := ⟨(m.isDir hroot.symm).mpr h.root.1,(m.up hroot.symm).trans h.root.2⟩
  unnamed := (m.names_other (by decide) hroot.symm).trans h.unnamed
  shaped := by
    intro j hj
    by_cases hji : j = i
    · exact hji ▸ hshaped (hji ▸ hj.2)
    · have hold := h.shaped j ((m.isDir hji).mp hj)
      by_cases hjd : j = d
      · subst hjd
        exact ⟨m.edit.shaped,m.edit.up ▸ hold.2⟩
      · rw [m.other j hjd hji]
        exact hold
  entry := by
    intro j hj e he hne
    obtain ⟨hji,hold | ⟨rfl,rfl⟩⟩ := m.mem hj he hne
    · exact m.live_of (h.entry j ((m.isDir hji).mp hj) e hold hne)
    · rcases m.kind with ⟨-,hde⟩ | ⟨-,hde⟩
      · exact hde ▸ ⟨m.inum,m.live⟩
      · exact absurd hde hne
  parent := by
    intro j hj e he hedir
    obtain ⟨hji,hmem⟩ := m.mem hj he (by have := hedir.1.1; omega)
    by_cases hei : e.inum = i
    · rw [hei]
      exact hparent (hei ▸ hedir.2) j ((m.isDir hji).mp hj) e he hei
    · rw [m.up hei]
      rcases hmem with hold | ⟨rfl,rfl⟩
      · exact h.parent j ((m.isDir hji).mp hj) e hold ((m.isDir hei).mp hedir)
      · have := hedir.1.1
        rcases m.kind with ⟨-,hde⟩ | ⟨-,hde⟩
        · exact absurd hde hei
        · omega
  once := by
    intro j hj
    by_cases hji : j = i
    · exact hji ▸ honce (hji ▸ hj.2)
    · have := hj.1.1
      rw [m.names_other (by omega) hji]
      exact h.once j ((m.isDir hji).mp hj)
  dir := by
    intro j hj
    have := hj.1.1
    by_cases hji : j = i
    · subst hji
      rw [m.children_i hj.2,if_neg hroot]
      exact hlink hj.2
    · have hold := h.dir j ((m.isDir hji).mp hj)
      rw [m.names_other (by omega) hji]
      by_cases hjd : j = d
      · subst hjd
        have hc := m.children_d
        omega
      · rw [m.children_other hjd hji ((m.isDir hji).mp hj),m.other j hjd hji]
        exact hold
  file := by
    intro j hj ht
    by_cases hji : j = i
    · exact hji ▸ hfile (hji ▸ ht)
    · have hjd : j ≠ d := by
        rintro rfl
        exact ht m.isDir_d.2
      have := hj.1.1
      rw [m.names_other (by omega) hji,m.other j hjd hji]
      rw [m.type hji] at ht
      exact h.file j ⟨hj.1,by rw [← m.type hji]; exact hj.2⟩ ht

/-- `Closed` is kept when a directory is entered only into one that is not removed. -/
theorem Move.closed (h : Closed n N)
    (hd : child N' (N' d) i ≤ child N (N d) i ∨ d = ROOTINO ∨ Names.names n N d ≠ 0) :
    Closed n N' := by
  intro j hj hr hz
  have := hj.1.1
  by_cases hji : j = i
  · subst hji
    exact m.children_i hj.2
  · rw [m.names_other (by omega) hji] at hz
    have hold := h j ((m.isDir hji).mp hj) hr hz
    by_cases hjd : j = d
    · subst hjd
      have hc := m.children_d
      rcases hd with hle | hroot | hne
      · omega
      · exact absurd hroot hr
      · exact absurd hz hne
    · rw [m.children_other hjd hji ((m.isDir hji).mp hj)]
      exact hold

theorem Move.attached (hj : j ≠ 0) (hji : j ≠ i) : Attached n N' j ↔ Attached n N j := by
  rw [Attached,Attached,m.names_other hj hji]

/-- What is named stays a directory. -/
theorem Move.type_of_named {e : Dirent} (hj : IsDir n N j) (he : e ∈ (N j).rest)
    (ht : (N e.inum).type = T_DIR) : (N' e.inum).type = T_DIR := by
  by_cases hei : e.inum = i
  · have hpos := names_pos hj he
    rw [hei] at ht hpos ⊢
    exact (m.stays.resolve_right (by omega)).mpr ht
  · rw [m.type hei]
    exact ht

/-- Strictness is kept when no file is entered into a removed directory. -/
theorem Move.strict (h : Strict n N)
    (hd : de.inum ≠ 0 → (N' de.inum).type ≠ T_DIR → Attached n N d)
    (hfile : (N' i).type ≠ T_DIR → (N' i).nlink = Names.names n N' i) : Strict n N' where
  file := by
    intro j hj ht
    by_cases hji : j = i
    · exact hji ▸ hfile (hji ▸ ht)
    · have hjd : j ≠ d := by
        rintro rfl
        exact ht m.isDir_d.2
      have := hj.1.1
      rw [m.names_other (by omega) hji,m.other j hjd hji]
      rw [m.type hji] at ht
      exact h.file j ⟨hj.1,by rw [← m.type hji]; exact hj.2⟩ ht
  fileless := by
    intro j hj hrem e he hne
    have := hj.1.1
    obtain ⟨hji,hmem⟩ := m.mem hj he hne
    rw [m.attached (by omega) hji] at hrem
    have hjd := (m.isDir hji).mp hj
    rcases hmem with hold | ⟨rfl,rfl⟩
    · exact m.type_of_named hjd hold (h.fileless j hjd hrem e hold hne)
    · by_contra ht
      exact hrem (hd hne ht)

end Move

end Names
end Xv6
