import Mathlib.Data.List.TakeWhile
import Xv6.Names.Refs

/-! Directories and paths: `dirlookup` finds the first entry with a name, `dirlink` uses an
empty one, and `namex` is a walk through the directories. -/
namespace Xv6
namespace Names

open Function List
open Fs (NINODE Panic)

variable {n : ℕ} {s : Sys Store} {K H : Multiset (Fin NINODE)} {L : Fin NINODE → Bool}
  {ip dp : Fin NINODE} {E : Panic → Prop} {name : Str}

theorem rounds_mul (k : ℕ) : rounds (DESIZE*k) = k := by
  simp only [rounds,DESIZE]
  omega

section Directory

variable (h : Stable n s.fs K H L) (hl : L dp = true) (hd : (s.fs.nodeOf dp).type = T_DIR)
include h hl hd

/-- An entry found at `k`, with a reference to its inode. -/
structure Hit (n : ℕ) (s : Sys Store) (K H : Multiset (Fin NINODE)) (L : Fin NINODE → Bool)
    (dp : Fin NINODE) (de : Dirent) (ip : Fin NINODE) (k : ℕ) (t : Sys Store) : Prop where
  entry : (s.fs.nodeOf dp).entries[k]? = some de
  stable : Stable n t.fs K (ip ::ₘ H) L
  same : Same (K + H) s t
  inum : (t.fs.itable ip).inum = de.inum

theorem lookupFrom_does (name : Str) (hroom : Room E (K+H) 1)
    (hes : ∀ e ∈ (s.fs.nodeOf dp).entries, e.inum ≠ 0 → IsInum n e.inum) (m k : ℕ)
    (hm : k+m = (s.fs.nodeOf dp).entries.length) :
    Does n (lookupFrom dp name m k) s (fun r t =>
      (find ((s.fs.nodeOf dp).entries.drop k) name = none ∧ r = none ∧ t = s) ∨
      ∃ de ip j, find ((s.fs.nodeOf dp).entries.drop k) name = some de ∧ r = some (ip,j) ∧
        Hit n s K H L dp de ip j t) E := by
  induction m generalizing k with
  | zero =>
    rw [drop_of_length_le (by omega)]
    exact does_pure (.inl ⟨rfl,rfl,rfl⟩)
  | succ m ih =>
    have hlt : k < (s.fs.nodeOf dp).entries.length := by omega
    refine (h.readi hl hd).bind fun r t ht => ?_
    obtain ⟨rfl,rfl⟩ := ht
    rw [List.getElem?_eq_getElem hlt,drop_eq_getElem_cons hlt]
    generalize hde : (t.fs.nodeOf dp).entries[k] = de
    have hget : (t.fs.nodeOf dp).entries[k]? = some de := by rw [List.getElem?_eq_getElem hlt,hde]
    dsimp only
    split
    · rename_i hc
      have hmem : de ∈ (t.fs.nodeOf dp).entries := hde ▸ getElem_mem hlt
      refine (h.iget (hes de hmem hc.1) hroom).bind fun ip u hu => ?_
      exact does_pure (.inr ⟨de,ip,k,find?_cons_of_pos (decide_eq_true hc),rfl,
        ⟨hget,hu.1,hu.2.1,hu.2.2⟩⟩)
    · rename_i hc
      have hskip : find (de :: (t.fs.nodeOf dp).entries.drop (k+1)) name =
          find ((t.fs.nodeOf dp).entries.drop (k+1)) name := by
        rw [find,find?_cons_of_neg (by simpa using hc)]
        rfl
      rw [hskip]
      exact ih (k+1) (by omega)

theorem dirlookup_does (name : Str) (hroom : Room E (K+H) 1)
    (hes : ∀ e ∈ (s.fs.nodeOf dp).entries, e.inum ≠ 0 → IsInum n e.inum) :
    Does n (dirlookup dp name) s (fun r t =>
      (find (s.fs.nodeOf dp).entries name = none ∧ r = none ∧ t = s) ∨
      ∃ de ip j, find (s.fs.nodeOf dp).entries name = some de ∧ r = some (ip,j) ∧
        Hit n s K H L dp de ip j t) E := by
  refine (h.stat hl).bind fun st t ht => ?_
  obtain ⟨rfl,rfl⟩ := ht
  rw [if_neg (show ¬ (statOf t dp).type ≠ T_DIR from not_not.mpr hd)]
  refine (h.size hl hd).bind fun sz u hu => ?_
  obtain ⟨rfl,rfl⟩ := hu
  rw [rounds_mul]
  have hfind := lookupFrom_does h hl hd name hroom hes _ 0 (Nat.zero_add _)
  rwa [drop_zero] at hfind

theorem emptyFrom_does (m k : ℕ) (hm : k+m = (s.fs.nodeOf dp).entries.length) :
    Does n (emptyFrom dp m k) s (fun r t => (s.fs.nodeOf dp).Slot r 0 ∧ t = s) E := by
  induction m generalizing k with
  | zero => exact does_pure ⟨.inr ⟨by omega,rfl⟩,rfl⟩
  | succ m ih =>
    have hlt : k < (s.fs.nodeOf dp).entries.length := by omega
    refine (h.readi hl hd).bind fun r t ht => ?_
    obtain ⟨rfl,rfl⟩ := ht
    rw [List.getElem?_eq_getElem hlt]
    dsimp only
    split
    · rename_i hz
      exact does_pure ⟨.inl ⟨_,List.getElem?_eq_getElem hlt,hz⟩,rfl⟩
    · exact ih (k+1) (by omega)

theorem emptyDirFrom_does (m k : ℕ) (hm : k+m = (s.fs.nodeOf dp).entries.length) :
    Does n (emptyDirFrom dp m k) s (fun r t =>
      (r = true → ∀ e ∈ (s.fs.nodeOf dp).entries.drop k, e.inum = 0) ∧ t = s) E := by
  induction m generalizing k with
  | zero =>
    rw [drop_of_length_le (by omega)]
    exact does_pure ⟨fun _ e he => absurd he not_mem_nil,rfl⟩
  | succ m ih =>
    have hlt : k < (s.fs.nodeOf dp).entries.length := by omega
    refine (h.readi hl hd).bind fun r t ht => ?_
    obtain ⟨rfl,rfl⟩ := ht
    rw [List.getElem?_eq_getElem hlt]
    dsimp only
    split
    · exact does_pure ⟨fun hf => absurd hf Bool.false_ne_true,rfl⟩
    · rename_i hz
      refine (ih (k+1) (by omega)).mono fun r u hu => ⟨fun hr e he => ?_,hu.2⟩
      rw [drop_eq_getElem_cons hlt] at he
      rcases mem_cons.mp he with rfl | he
      · exact not_not.mp hz
      · exact hu.1 hr e he

theorem isdirempty_does (htwo : 2 ≤ (s.fs.nodeOf dp).entries.length) :
    Does n (isdirempty dp) s (fun r t =>
      (r = true → ∀ e ∈ (s.fs.nodeOf dp).rest, e.inum = 0) ∧ t = s) E := by
  refine (h.size hl hd).bind fun sz t ht => ?_
  obtain ⟨rfl,rfl⟩ := ht
  rw [Nat.mul_comm 2 DESIZE,← Nat.mul_sub,rounds_mul]
  exact emptyDirFrom_does h hl hd _ 2 (by omega)

theorem dirlink_does {inum : ℕ} (hroom : Room E (K+H) 1)
    (hes : ∀ e ∈ (s.fs.nodeOf dp).entries, e.inum ≠ 0 → IsInum n e.inum) :
    Does n (dirlink dp name inum) s (fun r t => Stable n t.fs K H L ∧
      ((r = false ∧ Same (K+H) s t) ∨
        (r = true ∧ find (s.fs.nodeOf dp).entries name = none ∧ ∃ k, (s.fs.nodeOf dp).Slot k 0 ∧
          Wrote dp ((s.fs.nodeOf dp).enter k ⟨inum % 2^16,name.take DIRSIZ⟩) s t))) E := by
  refine (dirlookup_does h hl hd _ hroom hes).bind fun r t ht => ?_
  rcases ht with ⟨hnone,rfl,rfl⟩ | ⟨de,ip,j,-,rfl,hit⟩
  · refine (h.size hl hd).bind fun sz u hu => ?_
    obtain ⟨rfl,rfl⟩ := hu
    rw [rounds_mul]
    refine (emptyFrom_does h hl hd _ 0 (Nat.zero_add _)).bind fun k v hv => ?_
    obtain ⟨hslot,rfl⟩ := hv
    have hk : k ≤ (v.fs.nodeOf dp).entries.length := by
      rcases hslot with ⟨e,he,-⟩ | ⟨rfl,-⟩
      · exact (List.getElem?_eq_some_iff.mp he).1.le
      · exact le_rfl
    refine (h.writei hl hd hk).mono fun r w hw => ⟨hw.1,?_⟩
    rcases hw.2 with ⟨rfl,hwrote⟩ | ⟨rfl,-,hsame⟩
    · exact .inr ⟨rfl,hnone,k,hslot,hwrote⟩
    · exact .inl ⟨rfl,hsame⟩
  · refine (hit.stable.iput_same (fun hli => (h.held ip hli).1) (hit.same.firm h.firm')).bind
      fun _ u hu => ?_
    exact does_pure ⟨hu.1,.inl ⟨rfl,hit.same.trans hu.2⟩⟩

end Directory

/-! Paths. -/

theorem skipelem_some {path rest : Str} (h : skipelem path = some (name,rest)) :
    rest.length < path.length ∧ rest.head? ≠ some slash ∧ name.length ≤ DIRSIZ := by
  unfold skipelem at h
  dsimp only at h
  split at h
  · cases h
  · rename_i hne
    obtain ⟨rfl,rfl⟩ := Prod.mk.inj (Option.some.inj h)
    have hle : (path.dropWhile (· = slash)).length ≤ path.length := length_dropWhile_le _ _
    refine ⟨?_,?_,?_⟩
    · cases hp : path.dropWhile (· = slash) with
      | nil => exact absurd hp hne
      | cons c cs =>
        have hc : c ≠ slash := fun hc => by
          have := head?_dropWhile_not (p := (· = slash)) (l := path)
          rw [hp] at this
          simp [hc] at this
        have hdrop : ((c :: cs).dropWhile (· ≠ slash)).length ≤ cs.length := by
          rw [dropWhile_cons_of_pos (by simpa using hc)]
          exact length_dropWhile_le _ _
        have hdrop' := length_dropWhile_le (· = slash) ((c :: cs).dropWhile (· ≠ slash))
        rw [hp] at hle
        simp only [length_cons] at hle
        omega
    · intro hs
      have := head?_dropWhile_not (p := (· = slash))
        (l := (path.dropWhile (· = slash)).dropWhile (· ≠ slash))
      rw [hs] at this
      simp at this
    · exact (length_take_le ..)

theorem skipelem_eq_none {path : Str} (hs : path.head? ≠ some slash) :
    skipelem path = none ↔ path = [] := by
  have hp : path.dropWhile (· = slash) = path := by
    cases path with
    | nil => rfl
    | cons c cs => exact dropWhile_cons_of_neg (by simpa using hs)
  unfold skipelem
  dsimp only
  rw [hp]
  split <;> simp_all

/-- The elements of a path, each cut to `DIRSIZ` characters. -/
def elements : ℕ → Str → List Str
  | 0, _ => []
  | n+1, path =>
    match skipelem path with
    | none => []
    | some (name,rest) => name :: elements n rest

theorem elements_eq_nil {m : ℕ} {path : Str} (hm : path.length ≤ m)
    (hs : path.head? ≠ some slash) : elements m path = [] ↔ path = [] := by
  cases m with
  | zero =>
    obtain rfl : path = [] := length_eq_zero_iff.mp (by omega)
    exact ⟨fun _ => rfl,fun _ => rfl⟩
  | succ m =>
    unfold elements
    rw [← skipelem_eq_none hs]
    cases skipelem path <;> simp

/-- Follow names from inode `i` on. -/
def walk (N : ℕ → Node) : ℕ → List Str → Option ℕ
  | i, [] => some i
  | i, c::cs =>
    if (N i).type = T_DIR then (find (N i).entries c).bind fun e => walk N e.inum cs else none

/-- Follow all names but the last; the directory reached and the last name. -/
def walkParent (N : ℕ → Node) : ℕ → List Str → Option (ℕ × Str)
  | _, [] => none
  | i, c::cs =>
    if (N i).type = T_DIR then
      if cs = [] then some (i,c)
      else (find (N i).entries c).bind fun e => walkParent N e.inum cs
    else none

/-- The outcome of `namex` from inode `i`. -/
def resolve (parent : Bool) (N : ℕ → Node) (i : ℕ) (els : List Str) : Option (ℕ × Str) :=
  if parent then walkParent N i els else (walk N i els).map fun j => (j,[])

theorem resolve_nil (parent : Bool) (N : ℕ → Node) (i : ℕ) :
    resolve parent N i [] = if parent then none else some (i,[]) := by
  cases parent <;> rfl

theorem resolve_cons (parent : Bool) (N : ℕ → Node) (i : ℕ) (c : Str) (cs : List Str) :
    resolve parent N i (c :: cs) =
      if (N i).type = T_DIR then
        if parent = true ∧ cs = [] then some (i,c)
        else (find (N i).entries c).bind fun e => resolve parent N e.inum cs
      else none := by
  cases parent with
  | false =>
    simp only [resolve,walk,Bool.false_eq_true,if_false,false_and]
    split
    · cases find (N i).entries c <;> rfl
    · rfl
  | true => simp only [resolve,walkParent,true_and,if_true]

theorem mem_elements_length {m : ℕ} {path c : Str} (h : c ∈ elements m path) :
    c.length ≤ DIRSIZ := by
  induction m generalizing path with
  | zero => cases h
  | succ m ih =>
    unfold elements at h
    cases hs : skipelem path with
    | none =>
      rw [hs] at h
      cases h
    | some el =>
      rw [hs] at h
      rcases mem_cons.mp h with rfl | h
      · exact (skipelem_some hs).2.2
      · exact ih h

theorem walkParent_mem {N : ℕ → Node} {i j : ℕ} {els : List Str}
    (h : walkParent N i els = some (j,name)) : name ∈ els := by
  induction els generalizing i with
  | nil => cases h
  | cons c cs ih =>
    unfold walkParent at h
    split at h
    · split at h
      · obtain ⟨-,rfl⟩ := Prod.mk.inj (Option.some.inj h)
        exact mem_cons_self ..
      · obtain ⟨e,-,hrest⟩ := Option.bind_eq_some_iff.mp h
        exact mem_cons_of_mem _ (ih hrest)
    · cases h

/-- A walk looks only at types and entries. -/
theorem resolve_congr {N N' : ℕ → Node} (ht : ∀ i, (N' i).type = (N i).type)
    (he : ∀ i, (N' i).entries = (N i).entries) (parent : Bool) (i : ℕ) (els : List Str) :
    resolve parent N' i els = resolve parent N i els := by
  induction els generalizing i with
  | nil => rw [resolve_nil,resolve_nil]
  | cons c cs ih => simp only [resolve_cons,ht,he,ih]

/-- What a walk meets: `D` holds along it, and the inodes with `D` can be locked. -/
structure Walk (n : ℕ) (N : ℕ → Node) (D : ℕ → Prop) (E : Panic → Prop) : Prop where
  dead : E .deadlock
  inum : ∀ i, D i → IsInum n i
  type : ∀ i, D i → (N i).type ≠ 0 ∨ E .noType
  entry : ∀ i, D i → (N i).type = T_DIR → ∀ e ∈ (N i).entries, e.inum ≠ 0 → D e.inum

theorem Walk.congr {D : ℕ → Prop} {N N' : ℕ → Node} (w : Walk n N D E)
    (ht : ∀ i, (N' i).type = (N i).type) (he : ∀ i, (N' i).entries = (N i).entries) :
    Walk n N' D E := by
  refine ⟨w.dead,w.inum,fun i hi => ?_,fun i hi hd => ?_⟩
  · rw [ht]
    exact w.type i hi
  · rw [he]
    exact w.entry i hi (ht i ▸ hd)

theorem Walk.resolve {D : ℕ → Prop} {N : ℕ → Node} (w : Walk n N D E) {parent : Bool} {i j : ℕ}
    {els : List Str} (hi : D i) (h : resolve parent N i els = some (j,name)) :
    D j ∧ (parent = true → (N j).type = T_DIR) := by
  induction els generalizing i with
  | nil =>
    rw [resolve_nil] at h
    split at h
    · cases h
    · rename_i hp
      obtain ⟨rfl,-⟩ := Prod.mk.inj (Option.some.inj h)
      exact ⟨hi,fun hf => absurd hf hp⟩
  | cons c cs ih =>
    rw [resolve_cons] at h
    split at h
    · rename_i hd
      split at h
      · obtain ⟨rfl,-⟩ := Prod.mk.inj (Option.some.inj h)
        exact ⟨hi,fun _ => hd⟩
      · obtain ⟨e,he,hrest⟩ := Option.bind_eq_some_iff.mp h
        have hfound := find_some he
        exact ih (w.entry i hi hd e hfound.1 hfound.2.1) hrest
    · cases h

/-- The state after a walk with outcome `res`: a reference to the inode reached, if any. -/
def Reached (n : ℕ) (s : Sys Store) (K H : Multiset (Fin NINODE)) (L : Fin NINODE → Bool)
    (res : Option (ℕ × Str)) (r : Option (Fin NINODE × Str)) (t : Sys Store) : Prop :=
  Same (K + H) s t ∧
    match r with
    | none => res = none ∧ Stable n t.fs K H L
    | some (ip,name) => res = some ((t.fs.itable ip).inum,name) ∧ Stable n t.fs K (ip ::ₘ H) L

theorem namexFrom_does {D : ℕ → Prop} (parent : Bool) (m : ℕ) (path : Str)
    (hm : path.length ≤ m) (w : Walk n s.fs.node D E) (h : Stable n s.fs K (ip ::ₘ H) L)
    (hf : Firm n s (K+H)) (hroom : Room E (K+H) 2) (hi : D (s.fs.itable ip).inum)
    (hl : L ip = true → ip ∈ K+H) :
    Does n (namexFrom parent m ip path) s
      (Reached n s K H L (resolve parent s.fs.node (s.fs.itable ip).inum (elements m path))) E := by
  induction m generalizing path ip s with
  | zero =>
    obtain rfl : path = [] := length_eq_zero_iff.mp (by omega)
    rw [elements,resolve_nil]
    unfold namexFrom
    cases parent with
    | true =>
      refine (h.iput_same hl hf).bind fun _ t ht => ?_
      exact does_pure ⟨ht.2,rfl,ht.1⟩
    | false => exact does_pure ⟨.refl _ _,rfl,h⟩
  | succ m ih =>
    unfold namexFrom elements
    cases hs : skipelem path with
    | none =>
      dsimp only
      rw [resolve_nil]
      cases parent with
      | true =>
        refine (h.iput_same hl hf).bind fun _ t ht => ?_
        exact does_pure ⟨ht.2,rfl,ht.1⟩
      | false => exact does_pure ⟨.refl _ _,rfl,h⟩
    | some el =>
      obtain ⟨name,rest⟩ := el
      obtain ⟨hlen,hslash,-⟩ := skipelem_some hs
      dsimp only
      rw [resolve_cons]
      have hin := mem_self K H ip
      refine (h.ilock hin w.dead (w.type _ hi)).bind fun _ t ht => ?_
      obtain ⟨hlip,hst,hsame,htype⟩ := ht
      have hnode : t.fs.nodeOf ip = s.fs.nodeOf ip := hsame.nodeOf hin
      have hback : update (update L ip true) ip false = L := by
        rw [update_idem,← hlip,update_eq_self]
      have hlt : update L ip true ip = true := update_self ..
      have hsame' := hsame.mono (subset_more K H ip)
      refine (hst.stat hlt).bind fun st u hu => ?_
      obtain ⟨rfl,rfl⟩ := hu
      by_cases hd : (s.fs.nodeOf ip).type = T_DIR
      · rw [if_neg (show ¬ (statOf u ip).type ≠ T_DIR by rw [statOf,hnode,hd]; simp),
          if_pos (show (s.fs.node (s.fs.itable ip).inum).type = T_DIR from hd)]
        have hlast := elements_eq_nil (m := m) (show rest.length ≤ m by omega) hslash
        by_cases hp : parent = true ∧ rest = []
        · rw [if_pos hp,if_pos ⟨hp.1,hlast.mpr hp.2⟩]
          refine (hst.iunlock hlt).bind fun _ v hv => ?_
          rw [hback] at hv
          refine does_pure ⟨hsame'.trans (hv.2.mono (subset_more K H ip)),?_,hv.1⟩
          rw [hv.2.inum ip hin,hsame.inum ip hin]
        · rw [if_neg hp,if_neg fun hp' => hp ⟨hp'.1,hlast.mp hp'.2⟩]
          have hdu : (u.fs.nodeOf ip).type = T_DIR := hnode ▸ hd
          have hes : ∀ e ∈ (u.fs.nodeOf ip).entries, e.inum ≠ 0 → IsInum n e.inum := by
            rw [hnode]
            exact fun e he hne => w.inum _ (w.entry _ hi hd e he hne)
          refine (dirlookup_does hst hlt hdu _ (hroom.more ip) hes).bind fun r v hv => ?_
          rcases hv with ⟨hnone,rfl,rfl⟩ | ⟨de,next,j,hfind,rfl,hit⟩
          · refine (hst.iunlockput_same hlt (hsame'.firm hf)).bind fun _ x hx => ?_
            rw [hback] at hx
            rw [hnode] at hnone
            refine does_pure ⟨hsame'.trans hx.2,?_,hx.1⟩
            rw [show (s.fs.node (s.fs.itable ip).inum).entries = (s.fs.nodeOf ip).entries from rfl,
              hnone]
            rfl
          · have hswap : Stable n v.fs K (ip ::ₘ next ::ₘ H) (update L ip true) := by
              rw [Multiset.cons_swap]
              exact hit.stable
            have hsv : Same (K+H) s v := hsame'.trans (hit.same.mono (subset_more K H ip))
            refine (hswap.iunlockput_same hlt
              ((hsv.firm hf).mono (subset_more K H next))).bind fun _ x hx => ?_
            rw [hback] at hx
            have hsx : Same (K+H) s x := hsv.trans (hx.2.mono (subset_more K H next))
            have hinum : (x.fs.itable next).inum = de.inum := by
              rw [hx.2.inum next (mem_self K H next),hit.inum]
            have hfound := find_some hfind
            rw [hnode] at hfind hfound
            have hD : D de.inum := w.entry _ hi hd de hfound.1 hfound.2.1
            have hrec := ih rest (by omega) (hsx.node ▸ w) hx.1 (hsx.firm hf) (hinum ▸ hD)
              fun hln => mem_fewer (fun heq => by
                rw [heq,hlip] at hln
                exact Bool.false_ne_true hln) (h.held next hln).1
            rw [hsx.node,hinum] at hrec
            rw [show (s.fs.node (s.fs.itable ip).inum).entries = (s.fs.nodeOf ip).entries from rfl,
              hfind]
            exact hrec.mono fun r y hy => ⟨hsx.trans hy.1,hy.2⟩
      · rw [if_pos (show (statOf u ip).type ≠ T_DIR by rw [statOf,hnode]; exact hd),
          if_neg (show ¬ (s.fs.node (s.fs.itable ip).inum).type = T_DIR from hd)]
        refine (hst.iunlockput_same hlt (hsame'.firm hf)).bind fun _ v hv => ?_
        rw [hback] at hv
        exact does_pure ⟨hsame'.trans hv.2,rfl,hv.1⟩

/-- The inode a walk of process `p` along `path` starts from. -/
def start (s : Sys Store) (p : Fin NPROC) (path : Str) : Option ℕ :=
  if path.head? = some slash then some ROOTINO
  else (s.ps.proc p).cwd.map fun ip => (s.fs.itable ip).inum

/-- The outcome of `namex`, as inode number and last name. -/
def target (parent : Bool) (s : Sys Store) (p : Fin NPROC) (path : Str) : Option (ℕ × Str) :=
  (start s p path).bind fun i => resolve parent s.fs.node i (elements path.length path)

/-- Process `p` runs, in a directory that a walk may start from. -/
def Running (s : Sys Store) (K : Multiset (Fin NINODE)) (D : ℕ → Prop) (p : Fin NPROC) : Prop :=
  ∃ c ∈ K, (s.ps.proc p).cwd = some c ∧ D (s.fs.itable c).inum

theorem Running.carry {t : Sys Store} {D : ℕ → Prop} {p : Fin NPROC} (h : Running s K D p)
    (hc : Carries (K+H) s t) : Running t K D p := by
  obtain ⟨c,hin,hcwd,hD⟩ := h
  refine ⟨c,hin,by rw [hc.ps,hcwd],?_⟩
  rwa [hc.inum c (Multiset.mem_add.mpr (.inl hin))]

theorem Walk.target {D : ℕ → Prop} {p : Fin NPROC} (w : Walk n s.fs.node D E) (hr : D ROOTINO)
    (hp : Running s K D p) {parent : Bool} {path : Str} {j : ℕ}
    (h : target parent s p path = some (j,name)) :
    D j ∧ (parent = true → (s.fs.node j).type = T_DIR) := by
  obtain ⟨i,hi,hres⟩ := Option.bind_eq_some_iff.mp h
  refine w.resolve ?_ hres
  obtain ⟨c,-,hcwd,hD⟩ := hp
  unfold start at hi
  split at hi
  · exact Option.some.inj hi ▸ hr
  · rw [hcwd] at hi
    exact Option.some.inj hi ▸ hD

theorem dupCwd_does {D : ℕ → Prop} {p : Fin NPROC} (h : Stable n s.fs K H L)
    (hp : Running s K D p) : Does n (dupCwd p) s (fun ip t => Stable n t.fs K (ip ::ₘ H) L ∧
      Same (K+H) s t ∧ ip ∈ K ∧ (s.ps.proc p).cwd = some ip ∧ D (s.fs.itable ip).inum) E := by
  obtain ⟨c,hin,hcwd,hD⟩ := hp
  refine Does.bind (does_procs (Q := fun q t => q = s.ps ∧ t = s) ⟨rfl,rfl⟩) fun q t ht => ?_
  obtain ⟨rfl,rfl⟩ := ht
  rw [hcwd]
  refine (h.idup (Multiset.mem_add.mpr (.inl hin))).bind fun _ u hu => ?_
  exact does_pure ⟨hu.1,hu.2,hin,rfl,hD⟩

theorem namex_does {D : ℕ → Prop} {p : Fin NPROC} (parent : Bool) (path : Str)
    (h : Stable n s.fs K H L) (hf : Firm n s (K+H)) (hroom : Room E (K+H) 2)
    (w : Walk n s.fs.node D E) (hr : D ROOTINO) (hp : Running s K D p) :
    Does n (namex p path parent) s (Reached n s K H L (target parent s p path)) E := by
  have hstart : Does n (namexStart p path) s
      (fun ip t => Stable n t.fs K (ip ::ₘ H) L ∧ Same (K+H) s t ∧
        D (t.fs.itable ip).inum ∧ start s p path = some (t.fs.itable ip).inum) E := by
    unfold start namexStart
    split
    · refine (h.iget (w.inum _ hr) (hroom.fewer (by decide))).mono fun ip t ht => ⟨ht.1,ht.2.1,?_,?_⟩
      · rwa [ht.2.2]
      · rw [ht.2.2]
    · refine (dupCwd_does h hp).mono fun ip t ht => ⟨ht.1,ht.2.1,?_,?_⟩
      · rw [ht.2.1.inum ip (Multiset.mem_add.mpr (.inl ht.2.2.1))]
        exact ht.2.2.2.2
      · rw [ht.2.2.2.1,ht.2.1.inum ip (Multiset.mem_add.mpr (.inl ht.2.2.1))]
        rfl
  refine hstart.bind fun ip t ht => ?_
  obtain ⟨hst,hsame,hD,heq⟩ := ht
  have hwalk := namexFrom_does parent path.length path le_rfl (hsame.node ▸ w) hst
    (hsame.firm hf) hroom hD fun hli => (h.held ip hli).1
  rw [target,heq,Option.bind_some]
  rw [hsame.node] at hwalk
  exact hwalk.mono fun r u hu => ⟨hsame.trans hu.1,hu.2⟩

theorem target_length {p : Fin NPROC} {path : Str} {j : ℕ}
    (h : target true s p path = some (j,name)) : name.length ≤ DIRSIZ := by
  obtain ⟨i,-,hres⟩ := Option.bind_eq_some_iff.mp h
  exact mem_elements_length (walkParent_mem hres)

theorem namei_does {D : ℕ → Prop} {p : Fin NPROC} (path : Str) (h : Stable n s.fs K H L)
    (hf : Firm n s (K+H)) (hroom : Room E (K+H) 2) (w : Walk n s.fs.node D E) (hr : D ROOTINO)
    (hp : Running s K D p) :
    Does n (namei p path) s (fun r t => Same (K+H) s t ∧
      ((r = none ∧ Stable n t.fs K H L) ∨ ∃ ip, r = some ip ∧ Stable n t.fs K (ip ::ₘ H) L ∧
        D (t.fs.itable ip).inum ∧ ∃ nm, target false s p path = some ((t.fs.itable ip).inum,nm))) E := by
  refine (namex_does false path h hf hroom w hr hp).bind fun r t ht => ?_
  refine does_pure ⟨ht.1,?_⟩
  match r, ht.2 with
  | none, hreach => exact .inl ⟨rfl,hreach.2⟩
  | some (ip,name), hreach => exact .inr ⟨ip,rfl,hreach.2,(w.target hr hp hreach.1).1,name,hreach.1⟩

end Names
end Xv6
