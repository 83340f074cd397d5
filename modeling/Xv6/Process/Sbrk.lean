import Xv6.Process.Model
import Xv6.Vm.Copies

/-! The break of a process: `growproc` and `sys_sbrk`. -/
namespace Xv6.Process

open Vm Prog

/-- The most that `sys_sbrk` lets a process have. -/
abbrev MAXPROC : ℕ := 512*1024*1024

/-- The address space of a process of `sz` bytes: what is mapped lies below the break, or is the
kernel's. -/
structure Shape (sz : ℕ) (A : Space) : Prop where
  size : sz ≤ MAXPROC
  above : ∀ v, npages sz ≤ v → v < UVPN → A v = none
  guarded : Guarded A

section Sizes

variable {sz n : ℕ} {A : Space} {v : ℕ}

theorem npages_le_MAXPROC (h : sz ≤ MAXPROC) : npages sz ≤ 131072 := by
  rw [npages,PGSIZE_eq]
  have hle : sz ≤ 536870912 := h
  omega

theorem lt_npages_iff : v < npages sz ↔ v*PGSIZE < sz := by
  rw [npages,PGSIZE_eq]
  omega

theorem Shape.room (h : Shape sz A) : npages sz+2^15 ≤ UVPN := by
  have hle := npages_le_MAXPROC h.size
  rw [UVPN_eq]
  omega

theorem Shape.pages (h : Shape sz A) : npages sz ≤ UVPN := by
  have hroom := h.room
  omega

/-- A larger process has the shape of the larger size. -/
theorem Shape.mono {sz' : ℕ} (h : Shape sz A) (hle : sz ≤ sz') (hmax : sz' ≤ MAXPROC) :
    Shape sz' A :=
  ⟨hmax,fun v hv => h.above v ((npages_le hle).trans hv),h.guarded⟩

theorem Shape.grow {sz' flags : ℕ} (h : Shape sz A) (hle : sz ≤ sz') (hmax : sz' ≤ MAXPROC) :
    Shape sz' (A.grow (npages sz) (npages sz'-npages sz) flags) := by
  have hmono := npages_le hle
  have hroom := npages_le_MAXPROC hmax
  refine ⟨hmax,fun v hv hlt => ?_,fun v hv x hx => ?_⟩
  · rw [Space.grow,if_neg (by omega),h.above v (hmono.trans hv) hlt]
  · rw [UVPN_eq] at hv
    rw [Space.grow,if_neg (by omega)] at hx
    exact h.guarded v (by rwa [UVPN_eq]) x hx

theorem Shape.cut {sz' : ℕ} (h : Shape sz A) (hle : sz' ≤ sz) :
    Shape sz' (A.cut (npages sz') (npages sz-npages sz')) := by
  have hmono := npages_le hle
  have hroom := h.pages
  refine ⟨hle.trans h.size,fun v hv hlt => ?_,fun v hv x hx => ?_⟩
  · rw [Space.cut]
    by_cases hin : npages sz' ≤ v ∧ v < npages sz'+(npages sz-npages sz')
    · rw [if_pos hin]
    · rw [if_neg hin,h.above v (by omega) hlt]
  · rw [Space.cut,if_neg (by omega)] at hx
    exact h.guarded v hv x hx

end Sizes

/-- What a call of `sbrk` returns, and what it makes of a process and its address space. -/
inductive Moved (p : User) (A : Space) (n : ℤ) (eager : Prop) : Option ℕ → User → Space → Prop
  | done {q : User} {A' : Space} : (q.sz : ℤ) = p.sz + n → q.pagetable = p.pagetable →
      Shape q.sz A' → (∀ v, v*PGSIZE < min p.sz q.sz → A' v = A v) →
      (eager → ∀ v, npages p.sz ≤ v → v*PGSIZE < q.sz →
        A' v = some (allocFlags PTE_W,Bytes.zero PGSIZE)) →
      Moved p A n eager (some p.sz) q A'
  | refused : Moved p A n eager none p A

/-- What a call of `sbrk` returns, the size afterwards and the address space afterwards. -/
inductive Brk (sz : ℕ) (A : Space) (n : ℤ) (eager : Prop) : Option ℕ → ℕ → Space → Prop
  | refused : Brk sz A n eager none sz A
  | grown {sz' : ℕ} : (sz' : ℤ) = sz + n → sz ≤ sz' → sz' ≤ MAXPROC → Brk sz A n eager (some sz) sz'
      (A.grow (npages sz) (npages sz' - npages sz) (allocFlags PTE_W))
  | promised {sz' : ℕ} : (sz' : ℤ) = sz + n → sz ≤ sz' → sz' ≤ MAXPROC → ¬ eager →
      Brk sz A n eager (some sz) sz' A
  | cut {sz' : ℕ} : (sz' : ℤ) = sz + n → sz' ≤ sz → ¬ eager →
      Brk sz A n eager (some sz) sz' (A.cut (npages sz') (npages sz - npages sz'))

section Sbrk

variable {X E : Multiset ℕ} {s₀ s : Ram} {A A' : Space} {root sz : ℕ} {n : ℤ}

theorem Brk.shape {eager : Prop} {o : Option ℕ} {sz' : ℕ} (h : Brk sz A n eager o sz' A')
    (hs : Shape sz A) : Shape sz' A' := by
  cases h with
  | refused => exact hs
  | grown _ hle hmax => exact hs.grow hle hmax
  | promised _ hle hmax => exact hs.mono hle hmax
  | cut _ hle => exact hs.cut hle

theorem Brk.moved {eager : Prop} {o : Option ℕ} {sz' : ℕ} (h : Brk sz A n eager o sz' A')
    (hs : Shape sz A) : Moved ⟨sz,root⟩ A n eager o ⟨sz',root⟩ A' := by
  have hshape := h.shape hs
  cases h with
  | refused => exact .refused
  | grown heq hle =>
    refine .done heq rfl hshape (fun v hv => ?_) fun _ v hv hlt => ?_
    · have hin : v < npages sz := lt_npages_iff.mpr (lt_of_lt_of_le hv (Nat.min_le_left ..))
      exact if_neg (by omega)
    · have hin : v < npages sz' := lt_npages_iff.mpr hlt
      have hge : npages sz ≤ v := hv
      exact if_pos ⟨hge,by omega⟩
  | promised heq _ _ he => exact .done heq rfl hshape (fun _ _ => rfl) fun h => absurd h he
  | cut heq _ he =>
    refine .done heq rfl hshape (fun v hv => ?_) fun h => absurd h he
    have hin : v < npages sz' := lt_npages_iff.mpr (lt_of_lt_of_le hv (Nat.min_le_right ..))
    exact if_neg (by omega)

theorem wrap_of_nonneg {x : ℤ} (h : 0 ≤ x) (hlt : x < 2^64) : (wrap x : ℤ) = x := by
  rw [wrap,Int.emod_eq_of_lt h hlt,Int.toNat_of_nonneg h]

/-- A sum that the limit lets through has not wrapped around. -/
theorem wrap_eq (hsz : sz ≤ MAXPROC) (hlo : -2^31 ≤ n) (hhi : n < 2^31)
    (h : wrap (sz+n) ≤ MAXPROC) : (wrap (sz+n) : ℤ) = sz+n := by
  have hmax : MAXPROC = 536870912 := rfl
  rw [hmax] at h hsz
  refine wrap_of_nonneg ?_ (by omega)
  by_contra hneg
  rw [wrap] at h
  omega

theorem Has.growproc (h : Has X s₀ root A E s) (hs : Shape sz A) {newsz : ℕ}
    (hnew : (newsz : ℤ) = sz+n) (hwrap : wrap (sz+n) = newsz) (hmax : newsz ≤ MAXPROC) :
    Ends (growproc ⟨sz,root⟩ n) s fun o t => match o with
      | none => Has X s₀ root A E t
      | some q => q.pagetable = root ∧ ∃ A', Has X s₀ root A' E t ∧
        Brk sz A n (0 < n) (some sz) q.sz A' := by
  rw [Process.growproc]
  by_cases hpos : 0 < n
  · rw [if_pos hpos,hwrap]
    refine (h.uvmalloc (by norm_num) hs.above hs.room).bind fun r t ht => ?_
    cases ht with
    | smaller hlt hhas => omega
    | grown hle hroom hhas =>
      have hne : newsz ≠ 0 := by omega
      dsimp only
      rw [if_neg hne]
      exact ends_pure ⟨rfl,_,hhas,.grown hnew hle hmax⟩
    | failed hle hhas => exact ends_pure hhas
  · rw [if_neg hpos]
    by_cases hneg : n < 0
    · rw [if_pos hneg,hwrap]
      refine (h.uvmdealloc hs.pages).bind fun r t ht => ?_
      obtain ⟨rfl,hhas⟩ := ht
      have hle : newsz ≤ sz := by omega
      refine ends_pure ⟨rfl,_,hhas,?_⟩
      dsimp only
      rw [Nat.min_eq_right hle]
      exact .cut hnew hle hpos
    · obtain rfl : n = 0 := by omega
      rw [if_neg hneg]
      exact ends_pure ⟨rfl,A,h,.promised (by rw [Int.add_zero]) le_rfl hs.size hpos⟩

theorem Brk.mono {o : Option ℕ} {sz' : ℕ} {eager eager' : Prop} (h : Brk sz A n eager o sz' A')
    (himp : eager' → eager) : Brk sz A n eager' o sz' A' := by
  cases h with
  | refused => exact .refused
  | grown heq hle hmax => exact .grown heq hle hmax
  | promised heq hle hmax he => exact .promised heq hle hmax fun h => he (himp h)
  | cut heq hle he => exact .cut heq hle fun h => he (himp h)

theorem Has.sysSbrk (h : Has X s₀ root A E s) (hs : Shape sz A) (hlo : -2^31 ≤ n) (hhi : n < 2^31)
    (t : ℤ) : Ends (sysSbrk ⟨sz,root⟩ n t) s fun r u => r.2.pagetable = root ∧ ∃ A',
      Has X s₀ root A' E u ∧ Brk sz A n (t = SBRK_EAGER ∧ 0 < n) r.1 r.2.sz A' := by
  have hrefuse : Ends (pure (none,⟨sz,root⟩) : Op (Option ℕ × User)) s fun r u =>
      r.2.pagetable = root ∧ ∃ A', Has X s₀ root A' E u ∧
        Brk sz A n (t = SBRK_EAGER ∧ 0 < n) r.1 r.2.sz A' := ends_pure ⟨rfl,A,h,.refused⟩
  rw [Process.sysSbrk]
  split
  · exact hrefuse
  · split
    · exact hrefuse
    · rename_i hmax
      have hwrap := wrap_eq hs.size hlo hhi (not_lt.mp hmax)
      split
      · exact hrefuse
      · split
        · refine (Has.growproc h hs hwrap rfl (not_lt.mp hmax)).bind fun o u hpost => ?_
          cases o with
          | none => exact ends_pure ⟨rfl,A,hpost,.refused⟩
          | some q =>
            obtain ⟨hq,A',hhas,hbrk⟩ := hpost
            exact ends_pure ⟨hq,A',hhas,hbrk.mono And.right⟩
        · rename_i hlazy
          split
          · exact hrefuse
          · rename_i hle
            exact ends_pure ⟨rfl,A,h,.promised hwrap (not_lt.mp hle) (not_lt.mp hmax)
              fun he => hlazy (Or.inl he.1)⟩

/-- For every process, every 32-bit `n` and every kind of growth, `sys_sbrk` moves the break by
just `n` or leaves the process as it was. -/
theorem sbrk_exact (h : Has X s₀ root A E s) (hs : Shape sz A) (hlo : -2^31 ≤ n) (hhi : n < 2^31)
    (t : ℤ) : ∃ o q u A', (sysSbrk ⟨sz,root⟩ n t).run s = .ok ((o,q),u) ∧ Has X s₀ root A' E u ∧
      Moved ⟨sz,root⟩ A n (t = SBRK_EAGER ∧ 0 < n) o q A' := by
  obtain ⟨⟨o,q⟩,u,hrun,rfl,A',hhas,hbrk⟩ := Has.sysSbrk h hs hlo hhi t
  exact ⟨o,q,u,A',hrun,hhas,hbrk.moved hs⟩

end Sbrk

theorem emptyShape (sz : ℕ) (h : sz ≤ MAXPROC) : Shape sz fun _ => none :=
  ⟨h,fun _ _ _ => rfl,fun _ _ _ hx => nomatch hx⟩

/-- With an empty break one page less cannot be had, although the sum wraps around. -/
theorem sbrk_exact_below_zero : ∃ q u, (sysSbrk ⟨0,emptyTable⟩ (-4096) SBRK_EAGER).run threePages =
    .ok ((none,q),u) ∧ q = ⟨0,emptyTable⟩ := by
  obtain ⟨o,q,u,A',hrun,-,hmoved⟩ := sbrk_exact threePages_has (emptyShape 0 (Nat.zero_le _))
    (n := -4096) (by norm_num) (by norm_num) SBRK_EAGER
  cases hmoved with
  | done hsz => exact absurd hsz (by dsimp only; omega)
  | refused => exact ⟨_,u,hrun,rfl⟩

end Xv6.Process
