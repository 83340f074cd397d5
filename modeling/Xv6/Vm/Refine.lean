import Xv6.Vm.Map

/-! The page table refines a map.
Whatever calls of `mappages`, `uvmunmap` and `uvmclear` built it, looking up an address gives
what a partial map from page numbers to physical pages and flags gives after the same calls. -/
namespace Xv6.Vm

open Prog Function Multiset

/-- The abstract page table: the physical page and the flags of a virtual page number. -/
abbrev PageMap := ℕ → Option (ℕ × ℕ)

namespace PageMap

variable (m : PageMap)

def insert (v n pa perm : ℕ) : PageMap := fun u =>
  if v ≤ u ∧ u < v+n then some (pa + (u-v)*PGSIZE,perm ||| PTE_V) else m u

def delete (v n : ℕ) : PageMap := fun u => if v ≤ u ∧ u < v+n then none else m u

def clear (v : ℕ) : PageMap :=
  update m v ((m v).map fun x => (x.1,x.2 &&& (2^10 - 1 - PTE_U)))

end PageMap

inductive Call
  | mappages (va size pa perm : ℕ)
  | uvmunmap (va npages : ℕ) (doFree : Bool)
  | uvmclear (va : ℕ)

def Call.code (root : ℕ) : Call → Op Bool
  | .mappages va size pa perm => Vm.mappages root va size pa perm
  | .uvmunmap va npages doFree => do
    Vm.uvmunmap root va npages doFree
    pure true
  | .uvmclear va => do
    Vm.uvmclear root va
    pure true

/-- Page-aligned ranges below `MAXVA`, and physical addresses and flags that fit an entry. -/
def Call.InRange : Call → Prop
  | .mappages va size pa perm => va % PGSIZE = 0 ∧ size % PGSIZE = 0 ∧ 0 < size ∧
      va + size ≤ MAXVA ∧ pa % PGSIZE = 0 ∧ pa + size ≤ 2^56 ∧ perm < 2^10
  | .uvmunmap va npages _ => va % PGSIZE = 0 ∧ va + npages*PGSIZE ≤ MAXVA
  | .uvmclear va => va < MAXVA

instance : (c : Call) → Decidable c.InRange
  | .mappages .. => inferInstanceAs (Decidable (_ ∧ _))
  | .uvmunmap .. => inferInstanceAs (Decidable (_ ∧ _))
  | .uvmclear va => inferInstanceAs (Decidable (va < MAXVA))

/-- A call together with the pages that `kalloc` has for it and the calls of `kalloc` that fail. -/
structure Request where
  call : Call
  supply : List ℕ
  luck : List Bool

def Ram.supplied (s : Ram) (e : Request) : Ram := { s with free := e.supply, luck := e.luck }

/-- The page `a` is the root or one that valid entries lead to. -/
def InTable (s : Ram) (root a : ℕ) : Prop :=
  a = root ∨ ∃ i < 512, s.word root i &&& PTE_V ≠ 0 ∧
    (a = PTE2PA (s.word root i) ∨ ∃ j < 512, s.word (PTE2PA (s.word root i)) j &&& PTE_V ≠ 0 ∧
      a = PTE2PA (s.word (PTE2PA (s.word root i)) j))

/-- `kalloc` returns pages that are different and not in the table. -/
def Request.Fresh (e : Request) (root : ℕ) (s : Ram) : Prop :=
  e.supply.Nodup ∧ ∀ a ∈ e.supply, IsPage a ∧ ¬InTable s root a

/-- The call frees no page of the table itself. -/
def Call.SparesTable (c : Call) (root : ℕ) (s : Ram) : Prop :=
  match c with
  | .uvmunmap va npages true => ∀ i < npages, ∀ x,
      (lookup root (va + i*PGSIZE)).run s = .ok (some x,s) → ¬InTable s root x.1
  | _ => True

/-- The map after a call that returned `r`. -/
def PageMap.After (m : PageMap) (c : Call) (r : Bool) (m' : PageMap) : Prop :=
  match c with
  | .mappages va size pa perm =>
    ∃ k ≤ size/PGSIZE, (r = true ↔ k = size/PGSIZE) ∧ m' = m.insert (vpn va) k pa perm
  | .uvmunmap va npages _ => m' = m.delete (vpn va) npages
  | .uvmclear va => m' = m.clear (vpn va)

/-- Why a call may panic; a page freed twice is noticed only if `DEBUG_KALLOC` is on. -/
def PageMap.Blames (m : PageMap) (kend : ℕ) (c : Call) (e : Panic) : Prop :=
  match c with
  | .mappages va size _ _ =>
    e = .remap ∧ ∃ v, vpn va ≤ v ∧ v < vpn va + size/PGSIZE ∧ m v ≠ none
  | .uvmunmap va npages _ => e = .doubleFree ∨ e = .kfree ∧ ∃ v x, vpn va ≤ v ∧
      v < vpn va + npages ∧ m v = some x ∧ (x.1 < kend ∨ PHYSTOP ≤ x.1)
  | .uvmclear va => e = .uvmclear ∧ m (vpn va) = none

/-- The calls made so far, the latest first, with what they returned. -/
abbrev History := List (Call × Bool)

inductive Trace (Ok : Request → Ram → Prop) (root : ℕ) (s₀ : Ram) : History → Ram → Prop
  | start : Trace Ok root s₀ [] s₀
  | call {h s e r t} : Trace Ok root s₀ h s → e.call.InRange → e.Fresh root s → Ok e s →
      (e.call.code root).run (s.supplied e) = .ok (r,t) → Trace Ok root s₀ ((e.call,r)::h) t

inductive MapTrace : History → PageMap → Prop
  | start : MapTrace [] fun _ => none
  | call {h m c r m'} : MapTrace h m → m.After c r m' → MapTrace ((c,r)::h) m'

/-- Every lookup gives what the map holds. -/
def Reflects (root : ℕ) (s : Ram) (m : PageMap) : Prop :=
  ∀ va < MAXVA, (lookup root va).run s = .ok (m (vpn va),s)

section Table

variable {P : Multiset ℕ} {s : Ram} {T : Tree} {a : ℕ}

theorem Stored.entry_valid (h : Stored P s T) {l p x j : ℕ} (hl : l < 2)
    (hx : T.node (l+1) p = some x) (hj : j < 512) (hv : s.word x j &&& PTE_V ≠ 0) :
    T.node l (512*p+j) = some (PTE2PA (s.word x j)) := by
  rw [h.holds.inner l p x hl hx j hj,Radix.entry] at hv ⊢
  cases hn : T.node l (512*p+j) with
  | none =>
    rw [hn] at hv
    exact absurd rfl hv
  | some c =>
    rw [Option.elim_some,PTE2PA_link (h.isPage (Radix.mem_pages_of_node (by omega) hn))]

theorem Stored.word_link (h : Stored P s T) {l p x c : ℕ} (hl : l < 2)
    (hx : T.node (l+1) (p/512) = some x) (hc : T.node l p = some c) :
    s.word x (p%512) &&& PTE_V ≠ 0 ∧ PTE2PA (s.word x (p%512)) = c := by
  rw [h.holds.inner l _ x hl hx _ (Nat.mod_lt _ (by norm_num)),Nat.div_add_mod,Radix.entry,hc,
    Option.elim_some]
  exact ⟨link_valid c,PTE2PA_link (h.isPage (Radix.mem_pages_of_node (by omega) hc))⟩

theorem Stored.inTable_iff (h : Stored P s T) : InTable s T.root a ↔ a ∈ P := by
  rw [← h.pages]
  constructor
  · rintro (rfl | ⟨i,hi,hv,rfl | ⟨j,hj,hv',rfl⟩⟩)
    · exact Radix.root_mem_pages
    · exact Radix.mem_pages_of_node (by norm_num)
        (h.entry_valid (by norm_num) Radix.node_root hi hv)
    · have hmid := h.entry_valid (l := 1) (by norm_num) Radix.node_root hi hv
      exact Radix.mem_pages_of_node (by norm_num)
        (h.entry_valid (by norm_num) hmid hj hv')
  · intro ha
    obtain ⟨l,p,hl,hn⟩ := Radix.mem_pages.mp ha
    have hne : T.node l p ≠ none := by
      rw [hn]
      exact Option.some_ne_none a
    have hp := Radix.node_range hl hne
    obtain rfl | rfl | rfl : l = 2 ∨ l = 1 ∨ l = 0 := by omega
    · obtain rfl : p = 0 := by omega
      exact Or.inl (Option.some.inj (hn.symm.trans Radix.node_root))
    · have hroot : T.node 2 (p/512) = some T.root := by
        rw [Nat.div_eq_of_lt (by simpa using hp),Radix.node_root]
      obtain ⟨hv,hpa⟩ := h.word_link (by norm_num) hroot hn
      exact Or.inr ⟨p%512,Nat.mod_lt _ (by norm_num),hv,Or.inl hpa.symm⟩
    · obtain ⟨c,hc⟩ := Option.ne_none_iff_exists'.mp (T.node_parent 0 p (by norm_num) hne)
      have hroot : T.node 2 (p/512/512) = some T.root := by
        rw [Nat.div_div_eq_div_mul,Nat.div_eq_of_lt (by simpa using hp),Radix.node_root]
      obtain ⟨hv,hpa⟩ := h.word_link (by norm_num) hroot hc
      obtain ⟨hv',hpa'⟩ := h.word_link (by norm_num) hc hn
      refine Or.inr ⟨p/512%512,Nat.mod_lt _ (by norm_num),hv,Or.inr ⟨p%512,
        Nat.mod_lt _ (by norm_num),?_⟩⟩
      rw [hpa]
      exact ⟨hv',hpa'.symm⟩

/-- The map that the words of the table stand for. -/
def pmap (T : Tree) : PageMap := fun v => decode (T.leaf v)

theorem pmap_of_valid {v : ℕ} (hv : T.leaf v &&& PTE_V ≠ 0) :
    pmap T v = some (PTE2PA (T.leaf v),PTE_FLAGS (T.leaf v)) := by
  rw [pmap,decode,if_pos hv]

theorem Stored.supplied (h : Stored P s T) (e : Request) : Stored P (s.supplied e) T :=
  ⟨h.holds,h.pages,h.nodup,h.page⟩

theorem Stored.tab (h : Stored P s T) {e : Request} (hf : e.Fresh T.root s) :
    Tab (↑e.supply+P) (s.supplied e) T where
  holds := h.holds
  total := by rw [h.pages]; rfl
  nodup := nodup_add.mpr ⟨hf.1,h.nodup,disjoint_left.mpr fun ha hP =>
    (hf.2 _ ha).2 (h.inTable_iff.mpr hP)⟩
  page a ha := by
    rcases mem_add.mp ha with ha | ha
    · exact (hf.2 a ha).1
    · exact h.page a ha

theorem decode_mapped {leaf : ℕ → ℕ} {v n pa perm : ℕ} (ha : pa % PGSIZE = 0)
    (hpa : pa+n*PGSIZE ≤ 2^56) (hperm : perm < 2^10) :
    (fun u => decode (mapped leaf v n pa perm u)) =
      PageMap.insert (fun u => decode (leaf u)) v n pa perm := by
  funext u
  rw [mapped,PageMap.insert]
  by_cases hin : v ≤ u ∧ u < v+n
  · have hle : (u-v)*PGSIZE+PGSIZE ≤ n*PGSIZE := by
      rw [← Nat.succ_mul]
      exact Nat.mul_le_mul_right _ (by omega)
    have hal : (pa+(u-v)*PGSIZE) % PGSIZE = 0 := by
      rw [Nat.add_mul_mod_self_right,ha]
    have hpg : 0 < PGSIZE := by norm_num
    rw [if_pos hin,if_pos hin,decode_pteWord hperm hal (by omega)]
  · rw [if_neg hin,if_neg hin]

variable {e : Request} {va size pa perm npages : ℕ}

/-- What a call does to a stored table, and why it may panic. -/
def Refined (s : Ram) (T : Tree) (c : Call) (x : Op Bool) : Prop :=
  Meets x s (fun r t => ∃ P' T', Stored P' t T' ∧ T'.root = T.root ∧ (pmap T).After c r (pmap T'))
    ((pmap T).Blames s.kend c)

theorem Stored.mappages_refined (h : Stored P s T)
    (hr : (Call.mappages va size pa perm).InRange) (hf : e.Fresh T.root s) :
    Refined (s.supplied e) T (.mappages va size pa perm) (mappages T.root va size pa perm) := by
  obtain ⟨hva,hsize,hpos,hmax,hal,hpa,hperm⟩ := hr
  have hn : size/PGSIZE*PGSIZE = size := Nat.div_mul_cancel (Nat.dvd_of_mod_eq_zero hsize)
  rw [mappages,if_neg (not_not.mpr hva),if_neg (not_not.mpr hsize),if_neg (by omega)]
  refine (((h.tab hf).mapFrom_meets (n := size/PGSIZE) (by rwa [hn]) (by rwa [hn]) hperm).mono
    fun r t hQ => ?_).error fun p hE => ?_
  · obtain ⟨⟨T',k,hm⟩,-⟩ := hQ
    refine ⟨T'.pages,T',hm.tab.stored,hm.root,k,hm.count,hm.all,?_⟩
    have hk : k*PGSIZE ≤ size := hn ▸ Nat.mul_le_mul_right _ hm.count
    unfold pmap
    rw [hm.leaf,decode_mapped hal (by omega) hperm]
  · obtain ⟨rfl,v,hlo,hhi,hv⟩ := hE
    exact ⟨rfl,v,hlo,hhi,fun hnone => hv (decode_eq_none.mp hnone)⟩

theorem decode_unmapped (leaf : ℕ → ℕ) (v n : ℕ) :
    (fun u => decode (unmapped leaf v n u)) = PageMap.delete (fun u => decode (leaf u)) v n := by
  funext u
  rw [unmapped,PageMap.delete]
  by_cases hin : v ≤ u ∧ u < v+n
  · rw [if_pos hin,if_pos hin,decode_dropped]
  · rw [if_neg hin,if_neg hin]

theorem Stored.push (h : Stored P s T) (ha : a ∉ P) : Stored P (s.push a) T :=
  h.congr fun _ hc => Ram.mem_setPage_of_ne fun he => ha (he ▸ hc)

/-- Freeing a page that is not in the table leaves the table as it is. -/
theorem Stored.kfreeIf_meets (h : Stored P s T) {doFree : Bool} {pte : ℕ}
    (hspare : doFree = true → PTE2PA pte ∉ P) :
    Meets (kfreeIf doFree (PTE2PA pte)) s (fun _ t => Stored P t T ∧ t.kend = s.kend)
      (fun p => p = .doubleFree ∨ p = .kfree ∧ (PTE2PA pte < s.kend ∨ PHYSTOP ≤ PTE2PA pte)) := by
  cases doFree with
  | false => exact meets_of_run rfl ⟨h,rfl⟩
  | true =>
    rw [kfreeIf,if_pos rfl,Meets,kfree_run]
    by_cases hz : PTE2PA pte = 0
    · rw [if_pos hz]
      exact ⟨h,rfl⟩
    · rw [if_neg hz]
      by_cases hbad : PTE2PA pte % PGSIZE ≠ 0 ∨ PTE2PA pte < s.kend ∨ PHYSTOP ≤ PTE2PA pte
      · rw [if_pos hbad]
        exact Or.inr ⟨rfl,hbad.resolve_left (not_not.mpr (PTE2PA_aligned pte))⟩
      · rw [if_neg hbad]
        by_cases htwice : s.debug ∧ PTE2PA pte ∈ s.free
        · rw [if_pos htwice]
          exact Or.inl rfl
        · rw [if_neg htwice]
          exact ⟨h.push (hspare rfl),rfl⟩

/-- One round of `uvmunmap`. -/
theorem Stored.unmapPage_meets (h : Stored P s T) (hva : va < MAXVA) {doFree : Bool}
    (hspare : doFree = true → T.leaf (vpn va) &&& PTE_V ≠ 0 → PTE2PA (T.leaf (vpn va)) ∉ P) :
    Meets (unmapPage T.root doFree va) s
      (fun _ t => t.kend = s.kend ∧ ∃ T', Stored P t T' ∧ T'.root = T.root ∧
        T'.leaf = update T.leaf (vpn va) (dropped (T.leaf (vpn va))))
      (fun p => p = .doubleFree ∨ p = .kfree ∧ T.leaf (vpn va) &&& PTE_V ≠ 0 ∧
        (PTE2PA (T.leaf (vpn va)) < s.kend ∨ PHYSTOP ≤ PTE2PA (T.leaf (vpn va)))) := by
  by_cases hv : T.leaf (vpn va) &&& PTE_V = 0
  · refine meets_of_run (h.unmapPage_absent hva hv doFree) ⟨rfl,T,h,rfl,?_⟩
    rw [dropped,if_pos hv,update_eq_self]
  · obtain ⟨b,hb,hrun⟩ := h.unmapPage_present hva hv doFree
    rw [Meets,hrun,← Meets]
    have hout : doFree = true → PTE2PA (T.leaf (vpn va)) ∉ P := fun hd => hspare hd hv
    have hfree := h.kfreeIf_meets hout
    refine (hfree.error fun p hp => hp.imp_right fun hp => ⟨hp.1,hv,hp.2⟩).bind fun _ t ht => ?_
    have hne : T.node 0 (vpn va/512) ≠ none := by
      rw [hb]
      exact Option.some_ne_none b
    refine meets_of_run (a := ()) (t := t.setWord b (vpn va % 512) 0) rfl
      ⟨ht.2,T.setLeaf (vpn va) 0 hne,ht.1.setLeaf hb (by norm_num) hne,rfl,?_⟩
    rw [dropped,if_neg hv]
    rfl

theorem Stored.uvmunmap_refined (h : Stored P s T) {doFree : Bool}
    (hr : (Call.uvmunmap va npages doFree).InRange)
    (hs : (Call.uvmunmap va npages doFree).SparesTable T.root s) :
    Refined s T (.uvmunmap va npages doFree) (do
      uvmunmap T.root va npages doFree
      pure true) := by
  obtain ⟨hva,hmax⟩ := hr
  have hstep {i : ℕ} (hi : i < npages) : i*PGSIZE+PGSIZE ≤ npages*PGSIZE := by
    rw [← Nat.succ_mul]
    exact Nat.mul_le_mul_right _ hi
  have hpg : 0 < PGSIZE := by norm_num
  rw [Refined,uvmunmap,if_neg (not_not.mpr hva),unmapRounds_eq hmax]
  -- the pages below the current one are unmapped, the others are as before
  have hloop : Meets ((List.range npages).forM fun i => unmapPage T.root doFree (va+i*PGSIZE)) s
      (fun _ t => t.kend = s.kend ∧ ∃ T', Stored P t T' ∧ T'.root = T.root ∧
        T'.leaf = unmapped T.leaf (vpn va) npages)
      ((pmap T).Blames s.kend (.uvmunmap va npages doFree)) := by
    refine meets_forM_range (I := fun i t => t.kend = s.kend ∧ ∃ T', Stored P t T' ∧
      T'.root = T.root ∧ T'.leaf = unmapped T.leaf (vpn va) i) ?_
      ⟨rfl,T,h,rfl,(unmapped_zero ..).symm⟩
    rintro i hi t ⟨hk,T',hT',hroot,hleaf⟩
    have hlt : va+i*PGSIZE < MAXVA := by
      have := hstep hi
      omega
    have hself : T'.leaf (vpn (va+i*PGSIZE)) = T.leaf (vpn (va+i*PGSIZE)) := by
      rw [hleaf,vpn_add,unmapped_self]
    have hspare : doFree = true → T'.leaf (vpn (va+i*PGSIZE)) &&& PTE_V ≠ 0 →
        PTE2PA (T'.leaf (vpn (va+i*PGSIZE))) ∉ P := by
      rintro rfl hv
      rw [hself] at hv ⊢
      have hlook := h.lookup_run hlt
      rw [decode,if_pos hv] at hlook
      exact fun hP => hs i hi _ hlook (h.inTable_iff.mpr hP)
    have hround := hT'.unmapPage_meets hlt hspare
    rw [hroot] at hround
    refine (hround.mono fun _ u hu => ?_).error fun p hp => ?_
    · obtain ⟨hku,T'',hT'',hroot'',hleaf''⟩ := hu
      refine ⟨hku.trans hk,T'',hT'',hroot'',?_⟩
      rw [hleaf'',hself,hleaf,vpn_add,unmapped_succ]
    · refine hp.imp_right ?_
      rintro ⟨rfl,hv,hpa⟩
      rw [hself] at hv hpa
      rw [hk] at hpa
      rw [vpn_add] at hv hpa
      exact ⟨rfl,vpn va+i,_,by omega,by omega,pmap_of_valid hv,hpa⟩
  refine hloop.bind fun _ t ht => ?_
  obtain ⟨-,T',hT',hroot,hleaf⟩ := ht
  refine meets_of_run rfl ⟨P,T',hT',hroot,?_⟩
  change pmap T' = _
  unfold pmap
  rw [hleaf,decode_unmapped]

theorem Stored.uvmclear_refined (h : Stored P s T) (hva : va < MAXVA) :
    Refined s T (.uvmclear va) (do
      uvmclear T.root va
      pure true) := by
  rw [Refined,uvmclear]
  cases hn : T.node 0 (vpn va/512) with
  | none =>
    have hrun := h.walk_lookup hva
    rw [hn] at hrun
    refine meets_of_error (stops_bind ((run_bind_of_run hrun).trans rfl)) ⟨rfl,?_⟩
    rw [pmap,T.leaf_page _ hn,decode_zero]
  | some b =>
    have hrun := h.walk_lookup hva
    rw [hn] at hrun
    have hne : T.node 0 (vpn va/512) ≠ none := by
      rw [hn]
      exact Option.some_ne_none b
    have hlt : T.leaf (vpn va) &&& (2^64-1-PTE_U) < 2^64 :=
      Nat.lt_of_le_of_lt Nat.and_le_left (h.leaf_lt _)
    have hload : (load b (vpn va % 512)).run s = .ok (T.leaf (vpn va),s) := by
      rw [← h.word_leaf hn]
      rfl
    have hset := h.setLeaf hn hlt hne
    refine meets_bind_of_run (a := ())
      (t := s.setWord b (vpn va % 512) (T.leaf (vpn va) &&& (2^64-1-PTE_U))) ?_
      (meets_of_run rfl ⟨P,_,hset,rfl,?_⟩)
    · rw [run_bind_of_run hrun]
      exact run_bind_of_run hload
    · funext u
      by_cases hu : u = vpn va
      · rw [hu,PageMap.clear,update_self]
        exact (congrArg decode (update_self ..)).trans (decode_clear (h.leaf_lt _))
      · rw [PageMap.clear,update_of_ne hu]
        exact congrArg decode (update_of_ne hu ..)

theorem Stored.spares_supplied {c : Call} {root : ℕ} (h : c.SparesTable root s) (e : Request)
    (hT : Stored P s T) (hroot : T.root = root) (hr : c.InRange) :
    c.SparesTable root (s.supplied e) := by
  subst hroot
  match c with
  | .uvmunmap va npages true =>
    intro i hi x hx hin
    have hlt : va+i*PGSIZE < MAXVA := by
      have hle : i*PGSIZE+PGSIZE ≤ npages*PGSIZE := by
        rw [← Nat.succ_mul]
        exact Nat.mul_le_mul_right _ hi
      have hpg : 0 < PGSIZE := by norm_num
      have := hr.2
      omega
    have hlook := (hT.supplied e).lookup_run hlt
    have hval : decode (T.leaf (vpn (va+i*PGSIZE))) = some x :=
      congrArg Prod.fst (Except.ok.inj (hlook.symm.trans hx))
    refine h i hi x ?_ hin
    rw [hT.lookup_run hlt,hval]
  | .uvmunmap _ _ false => trivial
  | .mappages .. => trivial
  | .uvmclear _ => trivial

theorem Stored.call_refined (h : Stored P s T) (hr : e.call.InRange) (hf : e.Fresh T.root s)
    (hs : e.call.SparesTable T.root s) :
    Refined (s.supplied e) T e.call (e.call.code T.root) := by
  have hs' := Stored.spares_supplied hs e h rfl hr
  match hc : e.call with
  | .mappages va size pa perm =>
    rw [hc] at hr
    exact h.mappages_refined hr hf
  | .uvmunmap va npages doFree =>
    rw [hc] at hr hs'
    exact (h.supplied e).uvmunmap_refined hr hs'
  | .uvmclear va =>
    rw [hc] at hr
    exact (h.supplied e).uvmclear_refined hr

end Table

section Main

variable {root : ℕ} {s₀ s : Ram} {h : History}

/-- The call frees no page of the table. -/
def Spares (root : ℕ) (e : Request) (s : Ram) : Prop := e.call.SparesTable root s

theorem Trace.stored (hroot : IsPage root) (hzero : s₀.mem root = Bytes.zero PGSIZE)
    (ht : Trace (Spares root) root s₀ h s) :
    ∃ P T, Stored P s T ∧ T.root = root ∧ MapTrace h (pmap T) := by
  induction ht with
  | start =>
    have hnone : pmap (Radix.empty 512 2 root) = fun _ => none := funext fun _ => decode_zero
    refine ⟨{root},Radix.empty 512 2 root,⟨?_,Radix.pages_empty root,nodup_singleton root,
      ?_⟩,rfl,hnone ▸ MapTrace.start⟩
    · apply Radix.holds_empty
      intro j _
      rw [Ram.word,hzero,Bytes.getLE_zero]
    · intro a ha
      rwa [mem_singleton.mp ha]
  | call _ hr hf hs hrun ih =>
    obtain ⟨P,T,hT,rfl,hm⟩ := ih
    obtain ⟨P',T',hT',hroot',hafter⟩ := (hT.call_refined hr hf hs).of_ok hrun
    exact ⟨P',T',hT',hroot',hm.call hafter⟩

/-- Every lookup agrees with the map that the same calls build, and a further call can only
panic for the reasons given. -/
theorem page_table_refines_map (hroot : IsPage root) (hzero : s₀.mem root = Bytes.zero PGSIZE)
    (ht : Trace (Spares root) root s₀ h s) :
    ∃ m, MapTrace h m ∧ Reflects root s m ∧
      ∀ e : Request, e.call.InRange → e.Fresh root s → Spares root e s → ∀ p,
        (e.call.code root).run (s.supplied e) = .error p → m.Blames s.kend e.call p := by
  obtain ⟨P,T,hT,rfl,hm⟩ := ht.stored hroot hzero
  refine ⟨pmap T,hm,fun va hva => hT.lookup_run hva,fun e hr hf hs p hp => ?_⟩
  exact (hT.call_refined hr hf hs).of_error hp

/-- A machine whose memory is all zero, with the kernel at the bottom of it. -/
def zeroRam : Ram where
  mem _ := Bytes.zero PGSIZE
  free := []
  luck := []
  kend := 0x80001000
  trampoline := 0x80000000
  debug := false

theorem not_inTable_zeroRam {root a : ℕ} (h : a ≠ root) : ¬InTable zeroRam root a := by
  have hw (c j : ℕ) : zeroRam.word c j = 0 := Bytes.getLE_zero ..
  rintro (he | ⟨i,-,hv,-⟩)
  · exact h he
  · rw [hw] at hv
    exact hv rfl

abbrev rootPage : ℕ := 0x80100000

/-- Two pages at address 0; the second is mapped to the page of the root itself. -/
def mapRoot : Request where
  call := .mappages 0 (2*PGSIZE) (rootPage - PGSIZE) (PTE_R ||| PTE_U)
  supply := [0x80200000,0x80201000]
  luck := []

theorem mapRoot_fresh : mapRoot.Fresh rootPage zeroRam := by
  refine ⟨by decide,fun a ha => ⟨?_,not_inTable_zeroRam ?_⟩⟩
  · revert a
    decide
  · revert a
    decide

def clearFirst : Request := ⟨.uvmclear 0,[],[]⟩

def freeRoot : Request := ⟨.uvmunmap PGSIZE 1 true,[],[]⟩

/-- What a request returns and leaves behind, if it returns. -/
def Request.result (e : Request) (root : ℕ) (s : Ram) : Option (Bool × Ram) :=
  ((e.call.code root).run (s.supplied e)).toOption

theorem Request.run_of_result {e : Request} {root : ℕ} {s : Ram} {x : Bool × Ram}
    (h : e.result root s = some x) : (e.call.code root).run (s.supplied e) = .ok x := by
  unfold Request.result at h
  match hr : (e.call.code root).run (s.supplied e) with
  | .ok y =>
    rw [hr] at h
    exact congrArg Except.ok (Option.some.inj h)
  | .error p =>
    rw [hr] at h
    exact nomatch h

theorem page_table_refines_map_cleared :
    ∃ s, Trace (Spares rootPage) rootPage zeroRam [(clearFirst.call,true),(mapRoot.call,true)] s ∧
      ∃ m, MapTrace [(clearFirst.call,true),(mapRoot.call,true)] m ∧ Reflects rootPage s m := by
  have hrun : ((mapRoot.result rootPage zeroRam).any fun x => x.1 &&
      (clearFirst.result rootPage x.2).any fun y => y.1) = true := by
    decide +kernel
  obtain ⟨⟨r,s⟩,hs,hnext⟩ := (Option.any_eq_true ..).mp hrun
  obtain ⟨rfl,hany⟩ := Bool.and_eq_true_iff.mp hnext
  obtain ⟨⟨r,t⟩,ht,rfl⟩ := (Option.any_eq_true ..).mp hany
  have htrace := Trace.call (e := clearFirst)
    (@Trace.call (Spares rootPage) _ _ _ _ _ _ _ Trace.start (by decide) mapRoot_fresh trivial
      (Request.run_of_result hs))
    (show (0 : ℕ) < MAXVA by norm_num) ⟨List.nodup_nil,fun a ha => nomatch ha⟩ trivial
    (Request.run_of_result ht)
  obtain ⟨m,hm,hreflects,-⟩ := page_table_refines_map (by decide) rfl htrace
  exact ⟨t,htrace,m,hm,hreflects⟩

/-- If `uvmunmap` may free a page of the table, lookups stop agreeing with the map: the root,
mapped as a user page and freed, is filled with junk. -/
theorem own_page_freed :
    ¬∀ root s₀ h s, IsPage root → s₀.mem root = Bytes.zero PGSIZE →
      Trace (fun _ _ => True) root s₀ h s → ∃ m, MapTrace h m ∧ Reflects root s m := by
  intro hall
  have hrun : ((mapRoot.result rootPage zeroRam).any fun x => x.1 &&
      (freeRoot.result rootPage x.2).any fun y =>
        ((lookup rootPage 0).run y.2).toOption.any fun z => z.1.isNone) = true := by
    decide +kernel
  obtain ⟨⟨r,s⟩,hs,hnext⟩ := (Option.any_eq_true ..).mp hrun
  obtain ⟨rfl,hany⟩ := Bool.and_eq_true_iff.mp hnext
  obtain ⟨⟨r,t⟩,ht,hlook⟩ := (Option.any_eq_true ..).mp hany
  have htrace := Trace.call (e := freeRoot)
    (@Trace.call (fun _ _ => True) _ _ _ _ _ _ _ Trace.start (by decide) mapRoot_fresh trivial
      (Request.run_of_result hs))
    (by decide) ⟨List.nodup_nil,fun a ha => nomatch ha⟩ trivial (Request.run_of_result ht)
  obtain ⟨m,hm,hreflects⟩ := hall _ _ _ _ (by decide) rfl htrace
  -- the map still has the first page
  have hpage : m 0 ≠ none := by
    cases hm with
    | call hm hafter =>
      cases hm with
      | call hm hmap =>
        obtain ⟨k,-,hk,rfl⟩ := hmap
        obtain rfl := hk.mp rfl
        rw [hafter]
        exact Option.some_ne_none _
  rw [hreflects 0 (by norm_num)] at hlook
  exact hpage (Option.isNone_iff_eq_none.mp hlook)

end Main
end Xv6.Vm
