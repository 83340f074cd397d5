import Xv6.Vm.Map

/-! Who owns which page while a page table is worked on.
`Owns X s₀ T E s` divides the pages `X` among the free list, the tree of the page table `T`,
the user pages that `T` maps, and the pages `E` that the code at hand holds; all memory
outside `X` is as in `s₀`.  Every operation of `vm.c` keeps this division. -/
namespace Xv6.Vm

open Prog Function Multiset

/-- The number of virtual pages below the trapframe. -/
abbrev UVPN : ℕ := TRAPFRAME/PGSIZE

theorem UVPN_eq : UVPN = 67108862 := rfl

/-- A set of pages that `kfree` accepts, each once. -/
structure Pool (kend : ℕ) (X : Multiset ℕ) : Prop where
  base : KERNBASE ≤ kend
  nodup : X.Nodup
  page : ∀ a ∈ X, a % PGSIZE = 0 ∧ kend ≤ a ∧ a < PHYSTOP

theorem Pool.isPage {kend a : ℕ} {X : Multiset ℕ} (h : Pool kend X) (ha : a ∈ X) : IsPage a := by
  obtain ⟨hal,hlo,hhi⟩ := h.page a ha
  have hb := h.base
  rw [KERNBASE_eq] at hb
  rw [PHYSTOP_eq] at hhi
  exact ⟨hal,by omega,by omega⟩

/-- Physical memory has `2^15` pages. -/
theorem Pool.card_le {kend : ℕ} {X : Multiset ℕ} (h : Pool kend X) : X.card ≤ 2^15 := by
  have hsub : X.toFinset ⊆ (Finset.range (2^15)).image fun i => KERNBASE+i*PGSIZE := by
    intro a ha
    obtain ⟨hal,hlo,hhi⟩ := h.page a (mem_toFinset.mp ha)
    have hb := h.base
    rw [PGSIZE_eq] at hal
    rw [KERNBASE_eq] at hb
    rw [PHYSTOP_eq] at hhi
    rw [PGSIZE_eq,KERNBASE_eq]
    refine Finset.mem_image.mpr ⟨(a-2147483648)/4096,Finset.mem_range.mpr ?_,?_⟩
    · omega
    · omega
  calc X.card = X.toFinset.card := (toFinset_card_of_nodup h.nodup).symm
    _ ≤ ((Finset.range (2^15)).image fun i => KERNBASE+i*PGSIZE).card := Finset.card_le_card hsub
    _ ≤ (Finset.range (2^15)).card := Finset.card_image_le
    _ = 2^15 := Finset.card_range _

/-- The physical page behind a virtual page number. -/
def frameOf (T : Tree) (v : ℕ) : Option ℕ := (decode (T.leaf v)).map Prod.fst

/-- The pages mapped below the trapframe. -/
def userPages (T : Tree) : Multiset ℕ := gather (Finset.range UVPN) (frameOf T)

/-- An address space: the flags and the bytes of each virtual page.  From the trapframe on
only the flags are looked at, since those pages belong to somebody else. -/
abbrev Space := ℕ → Option (ℕ × Page)

def bytesAt (mem : ℕ → Page) (v a : ℕ) : Page := if v < UVPN then mem a else fill 0

def view (mem : ℕ → Page) (T : Tree) : Space := fun v =>
  (decode (T.leaf v)).map fun x => (x.2,bytesAt mem v x.1)

structure Owns (X : Multiset ℕ) (s₀ : Ram) (T : Tree) (E : Multiset ℕ) (s : Ram) : Prop where
  pool : Pool s₀.kend X
  holds : T.Holds s.word link
  total : (s.free : Multiset ℕ) + T.pages + userPages T + E = X
  kept : ∀ a ∉ X, s.mem a = s₀.mem a
  consts : s.consts = s₀.consts

/-- The page table at `root` holds the address space `A`. -/
def Has (X : Multiset ℕ) (s₀ : Ram) (root : ℕ) (A : Space) (E : Multiset ℕ) (s : Ram) : Prop :=
  ∃ T : Tree, T.root = root ∧ Owns X s₀ T E s ∧ view s.mem T = A

/-- Moreover the page behind `v` is `r`. -/
def HasAt (X : Multiset ℕ) (s₀ : Ram) (root : ℕ) (A : Space) (E : Multiset ℕ) (s : Ram)
    (v r : ℕ) : Prop :=
  ∃ T : Tree, T.root = root ∧ Owns X s₀ T E s ∧ view s.mem T = A ∧ frameOf T v = some r

theorem HasAt.has {X E : Multiset ℕ} {s₀ s : Ram} {A : Space} {root v r : ℕ}
    (h : HasAt X s₀ root A E s v r) : Has X s₀ root A E s := by
  obtain ⟨T,hroot,hT,hview,-⟩ := h
  exact ⟨T,hroot,hT,hview⟩

section Basics

variable {X E : Multiset ℕ} {s₀ s t : Ram} {T T' : Tree} {a v : ℕ} {rest : List ℕ}

theorem bytesAt_user {mem : ℕ → Page} (hv : v < UVPN) : bytesAt mem v a = mem a := if_pos hv

theorem view_congr (h : ∀ v < UVPN, ∀ x, decode (T.leaf v) = some x → t.mem x.1 = s.mem x.1) :
    view t.mem T = view s.mem T := by
  funext v
  rw [view,view]
  cases hx : decode (T.leaf v) with
  | none => rfl
  | some x =>
    rw [Option.map_some,Option.map_some,bytesAt,bytesAt]
    by_cases hv : v < UVPN
    · rw [if_pos hv,if_pos hv,h v hv x hx]
    · rw [if_neg hv,if_neg hv]

theorem Owns.mem_X (h : Owns X s₀ T E s)
    (ha : a ∈ (s.free : Multiset ℕ) ∨ a ∈ T.pages ∨ a ∈ userPages T ∨ a ∈ E) : a ∈ X := by
  rw [← h.total]
  simp only [mem_add]
  rcases ha with ha | ha | ha | ha
  · exact Or.inl (Or.inl (Or.inl ha))
  · exact Or.inl (Or.inl (Or.inr ha))
  · exact Or.inl (Or.inr ha)
  · exact Or.inr ha

/-- The four parts have no page in common. -/
theorem Owns.apart (h : Owns X s₀ T E s) :
    ((s.free : Multiset ℕ)+T.pages).Nodup ∧ (userPages T).Nodup ∧ E.Nodup ∧
    Disjoint ((s.free : Multiset ℕ)+T.pages) (userPages T) ∧
    Disjoint ((s.free : Multiset ℕ)+T.pages+userPages T) E := by
  have hn := h.pool.nodup
  rw [← h.total] at hn
  obtain ⟨hn1,hE,hd⟩ := nodup_add.mp hn
  obtain ⟨hn2,hu,hd2⟩ := nodup_add.mp hn1
  exact ⟨hn2,hu,hE,hd2,hd⟩

theorem Owns.tab (h : Owns X s₀ T E s) : Tab ((s.free : Multiset ℕ)+T.pages) s T where
  holds := h.holds
  total := rfl
  nodup := h.apart.1
  page a ha := by
    rcases mem_add.mp ha with ha | ha
    · exact h.pool.isPage (h.mem_X (Or.inl ha))
    · exact h.pool.isPage (h.mem_X (Or.inr (Or.inl ha)))

theorem mem_userPages : a ∈ userPages T ↔ ∃ v < UVPN, frameOf T v = some a := by
  rw [userPages,mem_gather]
  simp only [Finset.mem_range]

theorem frameOf_eq {x : ℕ × ℕ} (h : decode (T.leaf v) = some x) : frameOf T v = some x.1 := by
  rw [frameOf,h,Option.map_some]

/-- A page of the other parts is not mapped as a user page. -/
theorem Owns.frame_ne (h : Owns X s₀ T E s)
    (ha : a ∈ (s.free : Multiset ℕ)+T.pages ∨ a ∈ E) (hv : v < UVPN) {x : ℕ × ℕ}
    (hx : decode (T.leaf v) = some x) : x.1 ≠ a := by
  have hu : x.1 ∈ userPages T := mem_userPages.mpr ⟨v,hv,frameOf_eq hx⟩
  obtain ⟨-,-,-,hd,hd'⟩ := h.apart
  rintro rfl
  rcases ha with ha | ha
  · exact disjoint_left.mp hd ha hu
  · exact disjoint_left.mp hd' (mem_add.mpr (Or.inr hu)) ha

/-- No two user pages are the same page. -/
theorem Owns.frame_inj (h : Owns X s₀ T E s) (hv : v < UVPN) (ha : frameOf T v = some a) {u : ℕ}
    (hu : u < UVPN) (hne : u ≠ v) {x : ℕ × ℕ} (hx : decode (T.leaf u) = some x) : x.1 ≠ a :=
  fun he => hne (gather_inj h.apart.2.1 (Finset.mem_range.mpr hu) (Finset.mem_range.mpr hv)
    ((frameOf_eq hx).trans (congrArg some he)) ha)

theorem Owns.spend (h : Owns X s₀ T E s) : Owns X s₀ T E s.spend :=
  ⟨h.pool,h.holds,h.total,h.kept,h.consts⟩

/-- A write to a page that is not in the tree. -/
theorem Owns.holds_setPage (h : Owns X s₀ T E s) (ha : a ∉ T.pages) (x : Page) :
    T.Holds (s.setPage a x).word link :=
  h.holds.congr fun _ hc _ _ => Ram.word_setPage_of_ne fun he => ha (he ▸ hc)

theorem Owns.setPage (h : Owns X s₀ T E s) (ha : a ∈ E) (x : Page) :
    Owns X s₀ T E (s.setPage a x) ∧ view (s.setPage a x).mem T = view s.mem T := by
  have hX := h.mem_X (Or.inr (Or.inr (Or.inr ha)))
  have hT : a ∉ T.pages := fun hp => disjoint_left.mp h.apart.2.2.2.2
    (mem_add.mpr (Or.inl (mem_add.mpr (Or.inr hp)))) ha
  refine ⟨⟨h.pool,h.holds_setPage hT x,h.total,fun c hc => ?_,h.consts⟩,?_⟩
  · have hne : c ≠ a := fun he => hc (he ▸ hX)
    rw [Ram.mem_setPage_of_ne hne,h.kept c hc]
  · exact view_congr fun v hv y hy => Ram.mem_setPage_of_ne (h.frame_ne (Or.inr ha) hv hy)

/-- `kalloc` hands out the first free page. -/
theorem Owns.pop (h : Owns X s₀ T E s) (hf : s.free = a::rest) :
    Owns X s₀ T (a ::ₘ E) (s.spend.pop a rest) ∧
      view (s.spend.pop a rest).mem T = view s.mem T := by
  have hfree : a ∈ (s.free : Multiset ℕ) := by
    rw [hf]
    exact List.mem_cons_self
  have hX := h.mem_X (Or.inl hfree)
  have hT : a ∉ T.pages :=
    fun hp => disjoint_left.mp (nodup_add.mp h.apart.1).2.2 hfree hp
  refine ⟨⟨h.pool,h.holds_setPage hT _,?_,fun c hc => ?_,h.consts⟩,?_⟩
  · have htot := h.total
    rw [hf,← cons_coe] at htot
    simp only [cons_add] at htot
    rw [add_cons]
    exact htot
  · have hne : c ≠ a := fun he => hc (he ▸ hX)
    exact (Ram.mem_setPage_of_ne hne).trans (h.kept c hc)
  · exact view_congr fun v hv y hy => Ram.mem_setPage_of_ne
      (h.frame_ne (Or.inl (mem_add.mpr (Or.inl hfree))) hv hy)

theorem kfree_ok {kend : ℕ} (hp : Pool kend X) (hk : s.kend = kend) (ha : a ∈ X)
    (hf : a ∉ s.free) : (kfree a).run s = .ok ((),s.push a) := by
  obtain ⟨hal,hlo,hhi⟩ := hp.page a ha
  have hpos := (hp.isPage ha).2.1
  rw [kfree_run,if_neg (by omega),if_neg (by omega),if_neg fun h => hf h.2]

theorem Owns.kend (h : Owns X s₀ T E s) : s.kend = s₀.kend := congrArg Prod.fst h.consts

/-- `kfree` takes back a page that the code holds. -/
theorem Owns.kfree (h : Owns X s₀ T (a ::ₘ E) s) :
    (kfree a).run s = .ok ((),s.push a) ∧ Owns X s₀ T E (s.push a) ∧
      view (s.push a).mem T = view s.mem T := by
  have hE : a ∈ a ::ₘ E := mem_cons_self a E
  have hX := h.mem_X (Or.inr (Or.inr (Or.inr hE)))
  have hd := h.apart.2.2.2.2
  have hT : a ∉ T.pages := fun hp => disjoint_left.mp hd
    (mem_add.mpr (Or.inl (mem_add.mpr (Or.inr hp)))) hE
  have hf : a ∉ s.free := fun hp => disjoint_left.mp hd
    (mem_add.mpr (Or.inl (mem_add.mpr (Or.inl hp)))) hE
  refine ⟨kfree_ok h.pool h.kend hX hf,⟨h.pool,h.holds_setPage hT _,?_,fun c hc => ?_,
    h.consts⟩,?_⟩
  · have htot := h.total
    rw [add_cons] at htot
    change ((a::s.free : List ℕ) : Multiset ℕ)+T.pages+userPages T+E = X
    rw [← cons_coe]
    simp only [cons_add]
    exact htot
  · have hne : c ≠ a := fun he => hc (he ▸ hX)
    exact (Ram.mem_setPage_of_ne hne).trans (h.kept c hc)
  · exact view_congr fun v hv y hy => Ram.mem_setPage_of_ne (h.frame_ne (Or.inr hE) hv hy)

theorem Owns.retable {E' : Multiset ℕ} (h : Owns X s₀ T E s)
    (htab : Tab ((s.free : Multiset ℕ)+T.pages) t T')
    (hmem : ∀ a ∉ (s.free : Multiset ℕ)+T.pages, t.mem a = s.mem a) (hc : t.consts = s.consts)
    (huser : userPages T'+E' = userPages T+E) : Owns X s₀ T' E' t where
  pool := h.pool
  holds := htab.holds
  total := by
    rw [htab.total,add_assoc,huser,← add_assoc]
    exact h.total
  kept a ha := by
    have hout : a ∉ (s.free : Multiset ℕ)+T.pages := by
      intro hin
      rcases mem_add.mp hin with hf | hp
      · exact ha (h.mem_X (Or.inl hf))
      · exact ha (h.mem_X (Or.inr (Or.inl hp)))
    rw [hmem a hout,h.kept a ha]
  consts := hc.trans h.consts

/-- A mapped page keeps its bytes while only the tree and the free pages change. -/
theorem Owns.frame_kept (h : Owns X s₀ T E s)
    (hmem : ∀ a ∉ (s.free : Multiset ℕ)+T.pages, t.mem a = s.mem a) (hv : v < UVPN) {x : ℕ × ℕ}
    (hx : decode (T.leaf v) = some x) : t.mem x.1 = s.mem x.1 :=
  hmem x.1 fun hin => h.frame_ne (Or.inl hin) hv hx rfl

end Basics

section Mapping

variable {X E : Multiset ℕ} {s₀ s : Ram} {T : Tree} {A : Space} {root a v perm : ℕ}

/-- What `mappages` does with one page. -/
structure Mapped (s : Ram) (T : Tree) (v pa perm : ℕ) (r : Bool) (t : Ram) (T' : Tree) : Prop where
  root : T'.root = T.root
  tab : Tab ((s.free : Multiset ℕ) + T.pages) t T'
  leaf : T'.leaf = if r then update T.leaf v (pteWord pa perm) else T.leaf
  mem : ∀ a ∉ (s.free : Multiset ℕ) + T.pages, t.mem a = s.mem a
  consts : t.consts = s.consts
  free : t.free.length ≤ s.free.length

theorem mapped_one (leaf : ℕ → ℕ) (v pa perm : ℕ) :
    mapped leaf v 1 pa perm = update leaf v (pteWord pa perm) := by
  have h := mapped_succ leaf v 0 pa perm
  rwa [mapped_zero,eq_comm] at h

theorem Owns.mappages_one (h : Owns X s₀ T E s) (hv : v*PGSIZE+PGSIZE ≤ MAXVA)
    (hnone : decode (T.leaf v) = none) {pa : ℕ} (hpa : pa+PGSIZE ≤ 2^56) (hperm : perm < 2^10) :
    Ends (mappages T.root (v*PGSIZE) PGSIZE pa perm) s fun r t =>
      (∃ T', Mapped s T v pa perm r t T') ∧ ∀ k, Plenty (2+k) s → Plenty k t ∧ r = true := by
  have hvpn : vpn (v*PGSIZE) = v := Nat.mul_div_cancel v (by norm_num)
  have hmod : v*PGSIZE % PGSIZE = 0 := Nat.mul_mod_left v PGSIZE
  rw [mappages,if_neg (not_not.mpr hmod),if_neg (by norm_num),if_neg (by norm_num),
    Nat.div_self (by norm_num)]
  have hva' : v*PGSIZE+1*PGSIZE ≤ MAXVA := by rwa [Nat.one_mul]
  have hpa' : pa+1*PGSIZE ≤ 2^56 := by rwa [Nat.one_mul]
  have hone := h.tab.mapFrom_meets hva' hpa' hperm
  rw [hvpn] at hone
  refine (hone.ends fun e he => ?_).mono fun r t hpost => ?_
  · obtain ⟨-,u,hlo,hhi,hu⟩ := he
    obtain rfl : u = v := by omega
    exact hu (decode_eq_none.mp hnone)
  · obtain ⟨⟨T',k,hm⟩,hplenty⟩ := hpost
    refine ⟨⟨T',hm.root,hm.tab,?_,hm.mem,hm.consts,hm.free⟩,fun k => hplenty k⟩
    rw [hm.leaf]
    cases r with
    | true =>
      obtain rfl := hm.all.mp rfl
      exact mapped_one ..
    | false =>
      have hk : k ≠ 1 := fun hk => Bool.false_ne_true (hm.all.mpr hk)
      obtain rfl : k = 0 := by have := hm.count; omega
      exact mapped_zero ..

theorem frameOf_update {w : ℕ} {T' : Tree} (h : T'.leaf = update T.leaf v w) :
    frameOf T' = update (frameOf T) v ((decode w).map Prod.fst) := by
  funext u
  by_cases hu : u = v
  · rw [hu,update_self,frameOf,h,update_self]
  · rw [update_of_ne hu,frameOf,h,update_of_ne hu,frameOf]

theorem view_update {w : ℕ} {T' : Tree} {mem : ℕ → Page}
    (h : T'.leaf = update T.leaf v w) : view mem T' =
      update (view mem T) v ((decode w).map fun x => (x.2,bytesAt mem v x.1)) := by
  funext u
  by_cases hu : u = v
  · rw [hu,update_self,view,h,update_self]
  · rw [update_of_ne hu,view,h,update_of_ne hu,view]

theorem view_eq_none {mem : ℕ → Page} : view mem T v = none ↔ decode (T.leaf v) = none :=
  Option.map_eq_none_iff

theorem UVPN_room (hv : v < UVPN) : v*PGSIZE+PGSIZE ≤ MAXVA := by
  rw [UVPN_eq] at hv
  rw [PGSIZE_eq,MAXVA_eq]
  omega

/-- Mapping a page that the code holds makes it a user page. -/
theorem Has.mapUser (h : Has X s₀ root A (a ::ₘ E) s) (hv : v < UVPN) (hA : A v = none)
    (hperm : perm < 2^10) :
    Ends (mappages root (v*PGSIZE) PGSIZE a perm) s fun r t =>
      (if r then HasAt X s₀ root (update A v (some (perm ||| PTE_V,s.mem a))) E t v a
        else Has X s₀ root A (a ::ₘ E) t) ∧
      t.free.length ≤ s.free.length ∧ ∀ k, Plenty (2+k) s → Plenty k t ∧ r = true := by
  obtain ⟨T,rfl,hT,rfl⟩ := h
  have hE : a ∈ a ::ₘ E := mem_cons_self a E
  have ha := hT.pool.isPage (hT.mem_X (Or.inr (Or.inr (Or.inr hE))))
  have hroom : a+PGSIZE ≤ 2^56 := by
    have h1 := ha.1
    have h2 := ha.2.2
    rw [PGSIZE_eq] at h1 ⊢
    omega
  have hnone := view_eq_none.mp hA
  refine (hT.mappages_one (UVPN_room hv) hnone hroom hperm).mono fun r t hpost => ?_
  obtain ⟨⟨T',hm⟩,hplenty⟩ := hpost
  refine ⟨?_,hm.free,hplenty⟩
  have hleaf := hm.leaf
  cases r with
  | false =>
    rw [if_neg Bool.false_ne_true] at hleaf ⊢
    have hframe : userPages T' = userPages T :=
      gather_congr fun u _ => by rw [frameOf,frameOf,hleaf]
    refine ⟨T',hm.root,hT.retable hm.tab hm.mem hm.consts (by rw [hframe]),?_⟩
    have hsame : view t.mem T' = view t.mem T := by
      funext u
      rw [view,view,hleaf]
    rw [hsame]
    exact view_congr fun u hu x hx => hT.frame_kept hm.mem hu hx
  | true =>
    rw [if_pos rfl] at hleaf ⊢
    have hdec := decode_pteWord hperm ha.1 ha.2.2
    have hframe : userPages T' = a ::ₘ userPages T := by
      have hnew : frameOf T v = none := by rw [frameOf,hnone]; rfl
      rw [userPages,frameOf_update hleaf,hdec]
      exact gather_update_some (Finset.mem_range.mpr hv) hnew a
    have hkeep : t.mem a = s.mem a := hm.mem a fun hin =>
      disjoint_left.mp hT.apart.2.2.2.2 (mem_add.mpr (Or.inl hin)) hE
    refine ⟨T',hm.root,hT.retable hm.tab hm.mem hm.consts ?_,?_,?_⟩
    · rw [hframe,cons_add,add_cons]
    · rw [view_update hleaf,hdec,Option.map_some,bytesAt_user hv,hkeep]
      exact congrArg (update · v _)
        (view_congr fun u hu x hx => hT.frame_kept hm.mem hu hx)
    · rw [frameOf_update hleaf,update_self,hdec,Option.map_some]

/-- Mapping a page of somebody else above the user pages. -/
theorem Has.mapShared (h : Has X s₀ root A E s) (hv : UVPN ≤ v) (hmax : v*PGSIZE+PGSIZE ≤ MAXVA)
    (hA : A v = none) (hal : a % PGSIZE = 0) (hroom : a+PGSIZE ≤ 2^56) (hperm : perm < 2^10) :
    Ends (mappages root (v*PGSIZE) PGSIZE a perm) s fun r t =>
      Has X s₀ root (if r then update A v (some (perm ||| PTE_V,fill 0)) else A) E t := by
  obtain ⟨T,rfl,hT,rfl⟩ := h
  have hnone := view_eq_none.mp hA
  refine (hT.mappages_one hmax hnone hroom hperm).mono fun r t hpost => ?_
  obtain ⟨⟨T',hm⟩,-⟩ := hpost
  have hleaf := hm.leaf
  have hframe : userPages T' = userPages T := by
    refine gather_congr fun u hu => ?_
    have hne : u ≠ v := by have := Finset.mem_range.mp hu; omega
    rw [frameOf,frameOf,hleaf]
    cases r with
    | false => rw [if_neg Bool.false_ne_true]
    | true => rw [if_pos rfl,update_of_ne hne]
  have hpg : 0 < PGSIZE := by norm_num
  have hdec := decode_pteWord hperm hal (by omega : a < 2^56)
  refine ⟨T',hm.root,hT.retable hm.tab hm.mem hm.consts (by rw [hframe]),?_⟩
  have hsame := view_congr fun u hu x hx => hT.frame_kept hm.mem hu hx
  cases r with
  | false =>
    rw [if_neg Bool.false_ne_true] at hleaf ⊢
    rw [← hsame]
    funext u
    rw [view,view,hleaf]
  | true =>
    rw [if_pos rfl] at hleaf ⊢
    rw [view_update hleaf,hdec,Option.map_some,bytesAt,if_neg (Nat.not_lt.mpr hv),hsame]

end Mapping
end Xv6.Vm
