import Xv6.Mkfs.Build

/-! What a sequence of calls amounts to: the entries of the root directory and the bytes of
each file. -/
namespace Xv6
namespace Mkfs

open List
open Names (Str Dirent DIRSIZ DESIZE ROOTINO dot dotdot)

section Bytes

variable {de : Dirent}

@[simp] theorem bytes_length (de : Dirent) : de.bytes.length = DESIZE := by
  simp [Dirent.bytes,DIRSIZ,DESIZE]

/-- The name on disk is filled up with NULs, and one of `DIRSIZ` bytes has none behind it. -/
theorem padded (name : Str) (h : name.length ≤ DIRSIZ) :
    (name++replicate DIRSIZ 0).take DIRSIZ =
      name++replicate (DIRSIZ-name.length) (0 : UInt8) := by
  rw [take_append,take_of_length_le h,take_replicate]
  congr 2
  omega

theorem ofBytes_bytes (hi : de.inum < 2^16) (hn : de.name.length ≤ DIRSIZ) (h0 : 0 ∉ de.name) :
    Dirent.ofBytes de.bytes = de := by
  have hlen : (Bytes.toLE 2 de.inum).length = 2 := Bytes.toLE_length ..
  have htake : de.bytes.take 2 = Bytes.toLE 2 de.inum := by
    rw [Dirent.bytes,take_append_of_le_length hlen.ge,take_of_length_le hlen.le]
  have hdrop : de.bytes.drop 2 = de.name++replicate (DIRSIZ-de.name.length) 0 := by
    rw [Dirent.bytes,drop_append_of_le_length hlen.ge,drop_of_length_le hlen.le,
      nil_append,padded _ hn]
  have hname : (de.bytes.drop 2).takeWhile (· ≠ 0) = de.name := by
    rw [hdrop,takeWhile_append_of_pos fun x hx => by
      simpa using fun he : x = 0 => h0 (he ▸ hx)]
    cases hr : DIRSIZ-de.name.length <;> simp [replicate_succ]
  have hinum : Bytes.ofLE (de.bytes.take 2) = de.inum := by
    rw [htake,Bytes.ofLE_toLE]
    exact Nat.mod_eq_of_lt hi
  rw [Dirent.ofBytes,hname,hinum]

/-- Byte `j` of entry `k` of a directory. -/
theorem entry_byte {es : List Dirent} {k j : ℕ} (hk : k < es.length) (hj : j < DESIZE) :
    (es.flatMap Dirent.bytes).getD (DESIZE*k+j) 0 = (es[k]).bytes.getD j 0 := by
  induction es generalizing k with
  | nil => exact absurd hk (Nat.not_lt_zero k)
  | cons de es ih =>
    have hlen := bytes_length de
    rw [flatMap_cons]
    cases k with
    | zero =>
      rw [Nat.mul_zero,Nat.zero_add,getD_append _ _ _ _ (by rwa [hlen])]
      rfl
    | succ k =>
      rw [getD_append_right _ _ _ _ (by rw [hlen]; simp only [DESIZE]; omega),hlen,
        show DESIZE*(k+1)+j-DESIZE = DESIZE*k+j by simp only [DESIZE]; omega,
        ih (by simpa using hk)]
      rfl

theorem flatMap_bytes_length (es : List Dirent) :
    (es.flatMap Dirent.bytes).length = DESIZE*es.length := by
  induction es with
  | nil => rfl
  | cons de es ih =>
    rw [flatMap_cons,length_append,bytes_length,ih,length_cons]
    ring

end Bytes

/-- The names of the files made, oldest first. -/
def names (calls : List Call) : List Str :=
  calls.filterMap fun
    | .create name => some name
    | .append _ _ => none

/-- The bytes appended to file `inum`. -/
def appended (inum : ℕ) (calls : List Call) : List UInt8 :=
  calls.flatMap fun
    | .create _ => []
    | .append i chunk => if i = inum then chunk else []

/-- The entries of the root directory; the first file gets inode 2. -/
def rootEntries (names : List Str) : List Dirent :=
  ⟨ROOTINO,dot⟩::⟨ROOTINO,dotdot⟩::names.mapIdx fun k name => ⟨k+2,name⟩

@[simp] theorem rootEntries_length (names : List Str) :
    (rootEntries names).length = names.length+2 := by
  simp [rootEntries]

theorem rootEntries_add_two (names : List Str) (k : ℕ) :
    (rootEntries names)[k+2]? = names[k]?.map fun name => ⟨k+2,name⟩ := by
  simp [rootEntries]

/-- Every entry can be read back. -/
theorem ofBytes_of_mem {ns : List Str} (hi : ns.length+2 ≤ 2^16)
    (hns : ∀ name ∈ ns, name.length ≤ DIRSIZ ∧ 0 ∉ name) {k : ℕ} {de : Dirent}
    (hk : (rootEntries ns)[k]? = some de) : Dirent.ofBytes de.bytes = de := by
  match k with
  | 0 | 1 =>
    obtain rfl := Option.some.inj hk
    decide
  | k+2 =>
    rw [rootEntries_add_two,Option.map_eq_some_iff] at hk
    obtain ⟨name,hname,rfl⟩ := hk
    obtain ⟨hlt,rfl⟩ := List.getElem?_eq_some_iff.mp hname
    obtain ⟨hlen,h0⟩ := hns _ (getElem_mem hlt)
    exact ofBytes_bytes (show k+2 < 2^16 by omega) hlen h0

theorem rootEntries_append (names : List Str) (name : Str) :
    rootEntries (names++[name]) = rootEntries names++[⟨names.length+2,name⟩] := by
  simp [rootEntries]

/-- The root directory of `c` has entries for `names`. -/
structure Listed (c : Content) (names : List Str) : Prop where
  n : c.n = names.length + 2
  root : c.data ROOTINO = (rootEntries names).flatMap Dirent.bytes

section Calls

variable {c : Content} {ns : List Str} {calls : List Call} {i n : ℕ}

theorem root_listed : Listed .root [] where
  n := rfl
  root := by
    simp [Content.root,Content.add,Content.append,Content.empty,rootEntries]

theorem Content.create_data (c : Content) (name : Str) (hroot : ROOTINO < c.n) (i : ℕ) :
    (c.create name).data i =
      if i = ROOTINO then c.data ROOTINO++Dirent.bytes ⟨c.n,name⟩
      else if i = c.n then [] else c.data i := by
  simp only [create,append,add,Function.update_apply]
  split
  · rw [if_neg hroot.ne]
  · rfl

theorem Listed.call {x : Call} (h : Listed c ns) (hl : Legal c.n [x]) :
    Listed (c.call x) (ns++names [x]) := by
  have hroot : ROOTINO < c.n := by
    rw [h.n]
    simp only [ROOTINO]
    omega
  cases x with
  | create name =>
    refine ⟨?_,?_⟩
    · show c.n+1 = _
      simp [names,h.n]
    · show (c.create name).data ROOTINO = (rootEntries (ns++[name])).flatMap _
      rw [c.create_data name hroot,if_pos rfl,rootEntries_append,flatMap_append,h.root,h.n]
      simp
  | append inum chunk =>
    refine ⟨by simpa [names,Content.call,Content.append] using h.n,?_⟩
    show Function.update c.data inum _ ROOTINO = (rootEntries (ns++[])).flatMap _
    rw [Function.update_of_ne hl.1.ne,append_nil,h.root]

theorem legal_cons {x : Call} (hl : Legal n (x::calls)) (hn : c.n = n) :
    Legal c.n [x] ∧ Legal (c.call x).n calls := by
  subst hn
  cases x with
  | create name => exact ⟨⟨hl.1,trivial⟩,hl.2⟩
  | append inum chunk => exact ⟨⟨hl.1,hl.2.1,trivial⟩,hl.2.2⟩

theorem Listed.run (h : Listed c ns) (hl : Legal c.n calls) :
    Listed (calls.foldl Content.call c) (ns++names calls) := by
  induction calls generalizing c ns with
  | nil => simpa [names] using h
  | cons x xs ih =>
    obtain ⟨hx,hxs⟩ := legal_cons hl rfl
    have hsplit : names (x::xs) = names [x]++names xs := by
      rw [names,names,names,← filterMap_append]
      rfl
    rw [hsplit,← append_assoc]
    exact ih (h.call hx) hxs

/-- A file holds what has been appended to it since it was made. -/
theorem data_calls (hroot : ROOTINO < c.n) (hl : Legal c.n calls) (hi : ROOTINO < i) :
    i < (calls.foldl Content.call c).n → (calls.foldl Content.call c).data i =
      (if i < c.n then c.data i else [])++appended i calls := by
  induction calls generalizing c with
  | nil =>
    intro hlt
    rw [if_pos (show i < c.n from hlt)]
    simp [appended]
  | cons x xs ih =>
    obtain ⟨-,hxs⟩ := legal_cons hl rfl
    intro hlt
    have hcons : appended i (x::xs) = appended i [x]++appended i xs := by
      simp [appended]
    cases x with
    | create name =>
      rw [foldl_cons,ih (c := c.call (.create name)) (Nat.lt_succ_of_lt hroot) hxs hlt,hcons,
        Content.call,c.create_data name hroot,if_neg hi.ne']
      have hn : (c.create name).n = c.n+1 := rfl
      rw [hn]
      by_cases he : i = c.n
      · simp [he,appended]
      · rw [if_neg he]
        simp only [appended,flatMap_cons,flatMap_nil,nil_append]
        congr 1
        split <;> split <;> first | rfl | omega
    | append inum chunk =>
      rw [foldl_cons,ih (c := c.call (.append inum chunk)) hroot hxs hlt,hcons,← append_assoc,
        Content.call]
      congr 1
      have hn : (c.append inum chunk).n = c.n := rfl
      rw [hn]
      by_cases he : inum = i
      · subst he
        have hlt' : inum < c.n := hl.2.1
        simp [Content.append,appended,hlt']
      · simp [Content.append,appended,he,Ne.symm he]

theorem Content.n_calls (c : Content) (calls : List Call) :
    (calls.foldl Content.call c).n = c.n+(names calls).length := by
  induction calls generalizing c with
  | nil => rfl
  | cons x xs ih =>
    rw [foldl_cons,ih]
    cases x with
    | create name =>
      simp [names,Content.call,Content.create,Content.append,Content.add]
      omega
    | append inum chunk => simp [names,Content.call,Content.append]

theorem content_listed (hl : Legal 2 calls) : Listed (content calls) (names calls) := by
  have h := root_listed.run (by rwa [root_n] : Legal Content.root.n calls)
  rwa [nil_append] at h

theorem content_data (hl : Legal 2 calls) (hi : ROOTINO < i) (hn : i < (content calls).n) :
    (content calls).data i = appended i calls := by
  have h := data_calls (c := .root) (by rw [root_n]; decide) (by rwa [root_n]) hi hn
  rw [root_n,if_neg (by simp only [ROOTINO] at hi; omega)] at h
  exact h

end Calls

end Mkfs
end Xv6
