import Xv6.Vm.Own

/-! Taking pages out of an address space, and freeing the page table at the end. -/
namespace Xv6.Vm

open Prog Function Multiset

/-- The address space without the pages `v .. v+n-1`. -/
def Space.cut (A : Space) (v n : ℕ) : Space := fun u => if v ≤ u ∧ u < v+n then none else A u

theorem Space.cut_zero (A : Space) (v : ℕ) : A.cut v 0 = A := by
  funext u
  rw [cut,if_neg (by omega)]

theorem Space.cut_succ (A : Space) (v n : ℕ) :
    A.cut v (n+1) = update (A.cut v n) (v+n) none := by
  funext u
  by_cases hu : u = v+n
  · rw [hu,update_self,cut,if_pos (by omega)]
  · rw [update_of_ne hu,cut,cut]
    by_cases hin : v ≤ u ∧ u < v+n
    · rw [if_pos hin,if_pos (by omega)]
    · rw [if_neg hin,if_neg (by omega)]

section Entries

variable {X E : Multiset ℕ} {s₀ s : Ram} {T : Tree} {A : Space} {root v n b w : ℕ}

theorem Owns.stored (h : Owns X s₀ T E s) : Stored T.pages s T := h.tab.stored

theorem mem_pages_of_leaf (hb : T.node 0 (v/512) = some b) : b ∈ T.pages :=
  Radix.mem_pages_of_node (Nat.zero_le 2) hb

/-- A write to an entry that leaves the mapped page as it is, or takes none. -/
theorem Owns.setWord {E' : Multiset ℕ} {t : Ram} (h : Owns X s₀ T E s)
    (hb : T.node 0 (v/512) = some b) (hne) (hw : w < 2^64)
    (htT : Stored T.pages t T) (hfree : (t.free : Multiset ℕ)+userPages (T.setLeaf v w hne)+E' =
      s.free+userPages T+E)
    (hkept : ∀ a ∉ X, t.mem a = s.mem a) (hc : t.consts = s.consts) :
    Owns X s₀ (T.setLeaf v w hne) E' (t.setWord b (v%512) w) where
  pool := h.pool
  holds := (htT.setLeaf hb hw hne).holds
  total := by
    have htot := h.total
    rw [add_assoc,add_right_comm,← add_assoc] at htot
    change (t.free : Multiset ℕ)+T.pages+userPages (T.setLeaf v w hne)+E' = X
    rw [add_assoc,add_right_comm,← add_assoc,hfree]
    exact htot
  kept a ha := by
    have hab : a ≠ b := fun he => ha (he ▸ h.mem_X (Or.inr (Or.inl (mem_pages_of_leaf hb))))
    rw [Ram.mem_setWord_of_ne hab,hkept a ha,h.kept a ha]
  consts := hc.trans h.consts

theorem vpn_mul (v : ℕ) : vpn (v*PGSIZE) = v := Nat.mul_div_cancel v (by norm_num)

theorem mul_lt_MAXVA (hv : v*PGSIZE+PGSIZE ≤ MAXVA) : v*PGSIZE < MAXVA := by
  have hpg : 0 < PGSIZE := by norm_num
  omega

theorem decode_valid {pte : ℕ} {x : ℕ × ℕ} (h : decode pte = some x) :
    pte &&& PTE_V ≠ 0 ∧ x = (PTE2PA pte,PTE_FLAGS pte) := by
  by_cases hv : pte &&& PTE_V ≠ 0
  · rw [decode,if_pos hv] at h
    exact ⟨hv,(Option.some.inj h).symm⟩
  · rw [decode,if_neg hv] at h
    cases h

/-- One round of `uvmunmap` with `do_free` frees the user page. -/
theorem Has.unmapUser (h : Has X s₀ root A E s) (hv : v < UVPN) :
    Ends (unmapPage root true (v*PGSIZE)) s fun _ t =>
      Has X s₀ root (update A v none) E t := by
  obtain ⟨T,rfl,hT,rfl⟩ := h
  have hva := mul_lt_MAXVA (UVPN_room hv)
  cases hx : decode (T.leaf v) with
  | none =>
    have hrun := hT.stored.unmapPage_absent hva (by rw [vpn_mul]; exact decode_eq_none.mp hx) true
    refine ⟨(),s,hrun,T,rfl,hT,?_⟩
    rw [← view_eq_none.mpr hx,update_eq_self]
  | some x =>
    obtain ⟨hvalid,hxe⟩ := decode_valid hx
    obtain ⟨b,hb,hrun⟩ := hT.stored.unmapPage_present hva (by rwa [vpn_mul]) true
    rw [vpn_mul] at hb hrun
    have hpa : PTE2PA (T.leaf v) = x.1 := by rw [hxe]
    rw [hpa] at hrun
    have hfr : frameOf T v = some x.1 := frameOf_eq hx
    have huser : x.1 ∈ userPages T := mem_userPages.mpr ⟨v,hv,hfr⟩
    have hd := hT.apart.2.2.2.1
    have hnf : x.1 ∉ s.free := fun hf =>
      disjoint_left.mp hd (mem_add.mpr (Or.inl hf)) huser
    have hnp : x.1 ∉ T.pages := fun hp =>
      disjoint_left.mp hd (mem_add.mpr (Or.inr hp)) huser
    have hX := hT.mem_X (Or.inr (Or.inr (Or.inl huser)))
    have hkf := kfree_ok hT.pool hT.kend hX hnf
    have hne : T.node 0 (v/512) ≠ none := by
      rw [hb]
      exact Option.some_ne_none b
    have hstored : Stored T.pages (s.push x.1) T :=
      hT.stored.congr fun c hc => Ram.mem_setPage_of_ne fun he => hnp (he ▸ hc)
    have hleaf : (T.setLeaf v 0 hne).leaf = update T.leaf v 0 := rfl
    refine ⟨(),(s.push x.1).setWord b (v%512) 0,?_,T.setLeaf v 0 hne,rfl,?_,?_⟩
    · rw [hrun,run_bind_of_run (by rw [kfreeIf,if_pos rfl]; exact hkf)]
      rfl
    · refine hT.setWord hb hne (by norm_num) hstored ?_ ?_ rfl
      · have hsplit : userPages T = x.1 ::ₘ userPages (T.setLeaf v 0 hne) := by
          rw [userPages,userPages,frameOf_update hleaf]
          exact gather_update_none (Finset.mem_range.mpr hv) hfr
        change ((x.1::s.free : List ℕ) : Multiset ℕ)+_+_ = _
        rw [hsplit,← cons_coe,cons_add,add_cons]
      · intro a ha
        have hne' : a ≠ x.1 := fun he => ha (he ▸ hX)
        exact Ram.mem_setPage_of_ne hne'
    · rw [view_update hleaf,decode_zero,Option.map_none]
      -- no other page of the address space is the one that was freed
      funext u
      by_cases hu : u = v
      · rw [hu,update_self,update_self]
      · rw [update_of_ne hu,update_of_ne hu,view,view]
        cases hy : decode (T.leaf u) with
        | none => rfl
        | some y =>
          rw [Option.map_some,Option.map_some,bytesAt,bytesAt]
          by_cases hlt : u < UVPN
          · have hyb : y.1 ≠ b := hT.frame_ne (Or.inl (mem_add.mpr
              (Or.inr (mem_pages_of_leaf hb)))) hlt hy
            have hyx : y.1 ≠ x.1 := hT.frame_inj hv hfr hlt hu hy
            rw [if_pos hlt,if_pos hlt,Ram.mem_setWord_of_ne hyb]
            exact congrArg (fun c => some (y.2,c)) (Ram.mem_setPage_of_ne hyx)
          · rw [if_neg hlt,if_neg hlt]

theorem Has.uvmunmapUser (h : Has X s₀ root A E s) (hn : v+n ≤ UVPN) :
    Ends (uvmunmap root (v*PGSIZE) n true) s fun _ t => Has X s₀ root (A.cut v n) E t := by
  have hmax : v*PGSIZE+n*PGSIZE ≤ MAXVA := by
    rw [UVPN_eq] at hn
    rw [PGSIZE_eq,MAXVA_eq]
    omega
  rw [uvmunmap,if_neg (not_not.mpr (Nat.mul_mod_left v PGSIZE)),unmapRounds_eq hmax]
  refine ends_forM_range (I := fun i t => Has X s₀ root (A.cut v i) E t) (fun i hi t ht => ?_) ?_
  · rw [← Nat.add_mul,Space.cut_succ]
    exact ht.unmapUser (by omega)
  · rwa [Space.cut_zero]

/-- Unmapping without `do_free` a page that belongs to somebody else. -/
theorem Has.uvmunmapShared (h : Has X s₀ root A E s) (hv : UVPN ≤ v)
    (hmax : v*PGSIZE+PGSIZE ≤ MAXVA) :
    Ends (uvmunmap root (v*PGSIZE) 1 false) s fun _ t =>
      Has X s₀ root (update A v none) E t := by
  have hva := mul_lt_MAXVA hmax
  have hone : v*PGSIZE+1*PGSIZE ≤ MAXVA := by
    rw [Nat.one_mul]
    exact hmax
  rw [uvmunmap,if_neg (not_not.mpr (Nat.mul_mod_left v PGSIZE)),unmapRounds_eq hone]
  refine ends_forM_range (I := fun i t => Has X s₀ root (if i = 0 then A else
    update A v none) E t) (fun i hi t ht => ?_) h
  obtain rfl : i = 0 := by omega
  rw [if_neg (by omega),Nat.zero_mul,Nat.add_zero]
  rw [if_pos rfl] at ht
  obtain ⟨T,rfl,hT,rfl⟩ := ht
  cases hx : decode (T.leaf v) with
  | none =>
    have hrun := hT.stored.unmapPage_absent hva (by rw [vpn_mul]; exact decode_eq_none.mp hx) false
    refine ⟨(),t,hrun,T,rfl,hT,?_⟩
    rw [← view_eq_none.mpr hx,update_eq_self]
  | some x =>
    obtain ⟨b,hb,hrun⟩ := hT.stored.unmapPage_present hva
      (by rw [vpn_mul]; exact (decode_valid hx).1) false
    rw [vpn_mul] at hb hrun
    have hne : T.node 0 (v/512) ≠ none := by
      rw [hb]
      exact Option.some_ne_none b
    have hleaf : (T.setLeaf v 0 hne).leaf = update T.leaf v 0 := rfl
    refine ⟨(),t.setWord b (v%512) 0,hrun,T.setLeaf v 0 hne,rfl,?_,?_⟩
    · refine hT.setWord hb hne (by norm_num) hT.stored ?_ (fun _ _ => rfl) rfl
      have hsame : userPages (T.setLeaf v 0 hne) = userPages T := by
        refine gather_congr fun u hu => ?_
        have huv : u ≠ v := by have := Finset.mem_range.mp hu; omega
        rw [frameOf_update hleaf,update_of_ne huv]
      rw [hsame]
    · rw [view_update hleaf,decode_zero,Option.map_none]
      exact congrArg (update · v none) (view_congr fun u hu y hy => Ram.mem_setWord_of_ne
        (hT.frame_ne (Or.inl (mem_add.mpr (Or.inr (mem_pages_of_leaf hb)))) hu hy))

end Entries

/-- No page table: the pages `X` are free or held by the code. -/
structure Bare (X : Multiset ℕ) (s₀ : Ram) (E : Multiset ℕ) (s : Ram) : Prop where
  pool : Pool s₀.kend X
  total : (s.free : Multiset ℕ) + E = X
  kept : ∀ a ∉ X, s.mem a = s₀.mem a
  consts : s.consts = s₀.consts

section Freewalk

variable {X E : Multiset ℕ} {s₀ s : Ram} {T : Tree} {root p l c : ℕ}

theorem link_inner (a : ℕ) : link a &&& (PTE_R ||| PTE_W ||| PTE_X) = 0 := by
  rw [and_flag (by decide),link_eq,PTE_FLAGS_pte (by norm_num)]
  rfl

/-- The subtrees of the first `i` entries of the page of prefix `p` at level `l+1`. -/
@[irreducible] def subs (T : Tree) (l p i : ℕ) : Multiset ℕ := ∑ j ∈ Finset.range i, T.sub l (512*p+j)

theorem subs_succ (T : Tree) (l p i : ℕ) : subs T l p (i+1) = subs T l p i+T.sub l (512*p+i) := by
  rw [subs,subs,Finset.sum_range_succ]

theorem subs_le {i j : ℕ} (h : i ≤ j) : subs T l p i ≤ subs T l p j := by
  rw [subs,subs]
  exact Finset.sum_le_sum_of_subset (Finset.range_subset_range.mpr h)

/-- The subtree `S` has gone to the free list, and nothing else has changed. -/
structure Freed (S : Multiset ℕ) (s t : Ram) : Prop where
  free : (t.free : Multiset ℕ) = s.free + S
  mem : ∀ a ∉ S, t.mem a = s.mem a
  consts : t.consts = s.consts

/-- What `freewalk` needs of a subtree: its pages are as in `s₁`, and none is free. -/
structure Walkable (S : Multiset ℕ) (s₁ s : Ram) : Prop where
  mem : ∀ a ∈ S, s.mem a = s₁.mem a
  nodup : S.Nodup
  busy : ∀ a ∈ S, a ∉ s.free
  kend : s.kend = s₁.kend

/-- The last step of `freewalk` frees the page itself. -/
theorem kfree_freed {S : Multiset ℕ} {s₁ t : Ram} (hp : Pool s₁.kend X) (hk : t.kend = s₁.kend)
    (hc : c ∈ X) (hcS : c ∉ S) (hcf : c ∉ s.free) (hfree : (t.free : Multiset ℕ) = s.free+S)
    (hmem : ∀ a ∉ S, a ≠ c → t.mem a = s.mem a) (hconsts : t.consts = s.consts) :
    Ends (kfree c) t fun _ u => Freed (c ::ₘ S) s u := by
  have hnot : c ∉ t.free := by
    intro hin
    have hin' : c ∈ (t.free : Multiset ℕ) := hin
    rw [hfree] at hin'
    rcases mem_add.mp hin' with hin' | hin'
    · exact hcf hin'
    · exact hcS hin'
  refine ⟨(),t.push c,kfree_ok hp hk hc hnot,?_,?_,hconsts⟩
  · change ((c::t.free : List ℕ) : Multiset ℕ) = _
    rw [← cons_coe,hfree,add_cons]
  · intro a ha
    rw [mem_cons,not_or] at ha
    exact (Ram.mem_setPage_of_ne ha.1).trans (hmem a ha.2 ha.1)

variable {s₁ : Ram}

theorem freewalkFrom_ends (hT : T.Holds s₁.word link) (hleaf : ∀ v, T.leaf v &&& PTE_V = 0)
    (hp : Pool s₁.kend X) (hX : ∀ a ∈ T.pages, a ∈ X) (hl : l ≤ 2) (hn : T.node l p = some c)
    (hw : Walkable (T.sub l p) s₁ s) :
    Ends (freewalkFrom (l+1) c) s fun _ t => Freed (T.sub l p) s t := by
  have hcX : c ∈ X := hX c (Radix.mem_pages_of_node hl hn)
  induction l generalizing p c s with
  | zero =>
    have hsub : T.sub 0 p = {c} := by rw [Radix.sub,hn,single]
    have hcS : c ∈ T.sub 0 p := hsub ▸ mem_singleton_self c
    rw [freewalkFrom]
    -- a page of the last level has no valid entry
    have hloop : Ends ((List.range 512).forM fun i => do
        let pte ← load c i
        if pte &&& PTE_V ≠ 0 ∧ pte &&& (PTE_R ||| PTE_W ||| PTE_X) = 0 then do
          freewalkFrom 0 (PTE2PA pte)
          store c i 0
        else if pte &&& PTE_V ≠ 0 then throw .freewalkLeaf
        else pure ()) s fun _ t => t = s := by
      refine ends_forM_range (I := fun _ t => t = s) (fun i hi t ht => ?_) rfl
      subst ht
      have hword : t.word c i &&& PTE_V = 0 := by
        rw [Ram.word,hw.mem c hcS,← Ram.word,hT.outer p c hn i hi]
        exact hleaf _
      refine ends_bind_of_run (a := t.word c i) (t := t) rfl ?_
      rw [if_neg fun h => h.1 hword,if_neg (not_not.mpr hword)]
      exact ends_pure rfl
    refine hloop.bind fun _ t ht => ?_
    subst ht
    rw [hsub]
    refine kfree_freed (S := 0) hp hw.kend hcX (notMem_zero c) (hw.busy c hcS) ?_
      (fun _ _ _ => rfl) rfl
    rw [add_zero]
  | succ l ih =>
    have hsub : T.sub (l+1) p = c ::ₘ subs T l p 512 := by
      rw [Radix.sub,hn,single_some_add,subs]
    rw [hsub] at hw
    have hcS := mem_cons_self c (subs T l p 512)
    obtain ⟨hcn,hsn⟩ := nodup_cons.mp hw.nodup
    rw [freewalkFrom]
    -- the subtrees of the first `i` entries are free, the other entries are as before
    refine (ends_forM_range (I := fun i t => (t.free : Multiset ℕ) = s.free+subs T l p i ∧
      (∀ a ∉ subs T l p i, a ≠ c → t.mem a = s.mem a) ∧
      (∀ j, i ≤ j → j < 512 → t.word c j = s.word c j) ∧ t.consts = s.consts)
      (fun i hi t ht => ?_) ?_).bind fun _ t ht => ?_
    · obtain ⟨hfree,hmem,hword,hconsts⟩ := ht
      have hpart : subs T l p i+T.sub l (512*p+i) ≤ subs T l p 512 := by
        rw [← subs_succ]
        exact subs_le hi
      have hdisj := (nodup_add.mp (nodup_of_le hpart hsn)).2.2
      have hin {a : ℕ} (ha : a ∈ T.sub l (512*p+i)) : a ∈ c ::ₘ subs T l p 512 :=
        mem_cons_of_mem (mem_of_le hpart (mem_add.mpr (Or.inr ha)))
      have hci : c ∉ T.sub l (512*p+i) := fun hc =>
        hcn (mem_of_le hpart (mem_add.mpr (Or.inr hc)))
      have hread : t.word c i = T.entry link l (512*p+i) := by
        rw [hword i (Nat.le_refl i) hi,Ram.word,hw.mem c hcS,← Ram.word]
        exact hT.inner l p c (by omega) hn i hi
      refine ends_bind_of_run (a := t.word c i) (t := t) rfl ?_
      cases hchild : T.node l (512*p+i) with
      | none =>
        have hz : t.word c i = 0 := by rw [hread,Radix.entry,hchild]; rfl
        rw [hz,if_neg fun h => h.1 rfl,if_neg fun h => h rfl]
        refine ends_pure ⟨?_,?_,fun j hj => hword j (by omega),hconsts⟩
        · rw [subs_succ,Radix.sub_of_none (by omega) hchild,add_zero]
          exact hfree
        · rw [subs_succ,Radix.sub_of_none (by omega) hchild,add_zero]
          exact hmem
      | some d =>
        have hd := hp.isPage (hX d (Radix.mem_pages_of_node (by omega) hchild))
        have hz : t.word c i = link d := by rw [hread,Radix.entry,hchild]; rfl
        rw [hz,if_pos ⟨link_valid d,link_inner d⟩,PTE2PA_link hd]
        have hwalk : Walkable (T.sub l (512*p+i)) s₁ t := by
          refine ⟨fun a ha => ?_,?_,fun a ha hf => ?_,?_⟩
          · have hni : a ∉ subs T l p i := fun h => disjoint_left.mp hdisj h ha
            rw [hmem a hni (fun he => hci (he ▸ ha)),hw.mem a (hin ha)]
          · exact (nodup_add.mp (nodup_of_le hpart hsn)).2.1
          · have hf' : a ∈ (t.free : Multiset ℕ) := hf
            rw [hfree] at hf'
            rcases mem_add.mp hf' with hf' | hf'
            · exact hw.busy a (hin ha) hf'
            · exact disjoint_left.mp hdisj hf' ha
          · exact (congrArg Prod.fst hconsts).trans hw.kend
        have hrec := ih (by omega) hchild hwalk (hX d (Radix.mem_pages_of_node (by omega) hchild))
        refine hrec.bind fun _ u hu => ?_
        refine ⟨(),u.setWord c i 0,rfl,?_,?_,?_,hu.consts.trans hconsts⟩
        · rw [subs_succ,← add_assoc,← hfree]
          exact hu.free
        · intro a ha hac
          rw [subs_succ,mem_add,not_or] at ha
          rw [Ram.mem_setWord_of_ne hac,hu.mem a ha.2,hmem a ha.1 hac]
        · intro j hj hj'
          rw [Ram.word_setWord_other (Or.inr (by omega)),Ram.word,hu.mem c hci,← Ram.word]
          exact hword j (by omega) hj'
    · refine ⟨?_,fun _ _ _ => rfl,fun _ _ _ => rfl,rfl⟩
      rw [subs,Finset.range_zero,Finset.sum_empty,add_zero]
    · obtain ⟨hfree,hmem,-,hconsts⟩ := ht
      rw [hsub]
      exact kfree_freed hp ((congrArg Prod.fst hconsts).trans hw.kend) hcX hcn (hw.busy c hcS)
        hfree hmem hconsts

end Freewalk
end Xv6.Vm
