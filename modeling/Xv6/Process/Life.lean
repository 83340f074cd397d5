import Xv6.Process.Fork

/-! The memory of a process over its whole life: from `allocproc`, through growth, shrinking, page
faults and copies, to `freeproc`. -/
namespace Xv6.Process

open Vm Prog

/-- The system calls of a process: `sbrk`, and those that copy to its memory or from it. -/
inductive Act
  | sbrk (n : Int32) (t : ℤ)
  | copyout (va : ℕ) (src : List UInt8)
  | copyin (va len : ℕ)

def Act.run (p : User) : Act → Op User
  | .sbrk n t => do
    let r ← sysSbrk p n.toInt t
    pure r.2
  | .copyout va src => do
    let _ ← Vm.copyout p p.pagetable va src
    pure p
  | .copyin va len => do
    let _ ← Vm.copyin p p.pagetable va len
    pure p

/-- Whether there was a process. -/
def lifetime (acts : List Act) : Op Bool := do
  let r ← allocproc .empty
  if !r.1 then pure false else
  let p ← acts.foldlM Act.run ⟨r.2.sz,r.2.pagetable⟩
  let _ ← freeproc { r.2 with sz := p.sz }
  pure true

section Life

variable {X E : Multiset ℕ} {s₀ s : Ram} {A B : Space} {root sz sz' v : ℕ} {n : ℤ}

theorem Shape.same (h : Shape sz A) (hB : ∀ v, npages sz ≤ v → B v = A v) : Shape sz B :=
  ⟨h.size,fun v hv hlt => (hB v hv).trans (h.above v hv hlt),fun v hv x hx =>
    h.guarded v hv x ((hB v (h.pages.trans hv)).symm.trans hx)⟩

/-- No page above the break is copied to or from. -/
theorem Shape.not_ready (h : Shape sz A) (hv : npages sz ≤ v) {P : Ram → Prop} :
    ¬ (Readable A v ∨ ∃ t, P t ∧ Faults ⟨sz,root⟩ A v t) := by
  rintro (⟨x,hx,hu⟩ | ⟨t,-,-,hlt,-⟩)
  · by_cases hlt : v < UVPN
    · rw [h.above v hv hlt] at hx
      cases hx
    · exact hu (h.guarded v (not_lt.mp hlt) x hx)
  · exact absurd (lt_npages_iff.mpr hlt) (not_lt.mpr hv)

/-- Nothing is mapped above the trampoline. -/
def Topped (A : Space) : Prop := ∀ v, UVPN+1 < v → A v = none

theorem Brk.topped {eager : Prop} {o : Option ℕ} (h : Brk sz A n eager o sz' B) (hs : Shape sz A)
    (ht : Topped A) : Topped B := by
  intro v hv
  have hmax := UVPN_eq
  have hpages := hs.pages
  cases h with
  | refused | promised => exact ht v hv
  | grown _ _ hle =>
    have := npages_le_MAXPROC hle
    rw [Space.grow,if_neg (by omega),ht v hv]
  | cut => rw [Space.cut,ht v hv,ite_self]

/-- Process `p` owns its page table and what is mapped below its break. -/
def Lives (X : Multiset ℕ) (s₀ : Ram) (root : ℕ) (E : Multiset ℕ) (p : User) (s : Ram) : Prop :=
  p.pagetable = root ∧ ∃ A, Has X s₀ root A E s ∧ Shape p.sz A ∧ Topped A

theorem Lives.act {p : User} (h : Lives X s₀ root E p s) (a : Act) :
    Ends (a.run p) s fun q t => Lives X s₀ root E q t := by
  obtain ⟨sz,pt⟩ := p
  obtain ⟨rfl,A,hhas,hs,htop⟩ := h
  have hkeep {B : Space} {t : Ram} (hB : ∀ v, npages sz ≤ v → B v = A v)
      (ht : Has X s₀ pt B E t) : Lives X s₀ pt E ⟨sz,pt⟩ t :=
    ⟨rfl,B,ht,hs.same hB,fun v hv => (hB v (hs.pages.trans (by omega))).trans (htop v hv)⟩
  cases a with
  | sbrk n t =>
    refine (Has.sysSbrk hhas hs n.le_toInt n.toInt_lt t).bind fun r u hu => ends_pure ?_
    obtain ⟨hroot,B,hB,hbrk⟩ := hu
    exact ⟨hroot,B,hB,hbrk.shape hs,hbrk.topped hs htop⟩
  | copyout va src =>
    refine (hhas.copyout_stops hs.guarded hs.pages va src).bind fun _ t ht => ends_pure ?_
    obtain ⟨m,hstop,ht,-⟩ := ht
    refine hkeep (fun v hv => put_of_not_touches fun htouch => ?_) ht
    rw [List.length_take,Nat.min_eq_left hstop.le] at htouch
    exact hs.not_ready hv ((hstop.passed htouch).imp_left Writable.readable)
  | copyin va len =>
    refine (hhas.copyin_stops hs.guarded hs.pages va len).bind fun _ t ht => ends_pure ?_
    obtain ⟨m,hstop,-,ht,-⟩ := ht
    exact hkeep (fun v hv => if_neg fun htouch => hs.not_ready hv (hstop.passed htouch)) ht

theorem Lives.acts {p : User} (h : Lives X s₀ root E p s) (acts : List Act) :
    Ends (acts.foldlM Act.run p) s fun q t => Lives X s₀ root E q t := by
  induction acts generalizing p s with
  | nil => exact ends_pure h
  | cons a acts ih =>
    rw [List.foldlM_cons]
    exact (h.act a).bind fun _ _ hq => ih hq

theorem kernelSpace_guarded : Guarded kernelSpace := by
  intro v _ x hx
  rw [kernelSpace,Function.update_apply,Function.update_apply] at hx
  split_ifs at hx <;> cases hx <;> rfl

theorem Lives.tidy (hs : Shape sz A) (ht : Topped A) : Tidy sz A := by
  refine ⟨hs.pages,fun v hv h0 h1 => ?_⟩
  by_cases hlt : v < UVPN
  · exact hs.above v hv hlt
  · exact ht v (by omega)

/-- Whatever a process does, no call panics, and when it is gone all its pages are free again. -/
theorem lifetime_returns (hpool : Pool s.kend (s.free : Multiset ℕ)) (htramp : Mappable s.trampoline)
    (acts : List Act) : ∃ b t, (lifetime acts).run s = .ok (b,t) ∧
      (t.free : Multiset ℕ) = s.free ∧ ∀ a ∉ s.free, t.mem a = s.mem a := by
  suffices h : Ends (lifetime acts) s fun _ t => Bare (s.free : Multiset ℕ) s 0 t by
    obtain ⟨b,t,hrun,ht⟩ := h
    exact ⟨b,t,hrun,by rw [← ht.total,add_zero],fun a ha => ht.kept a (mt Multiset.mem_coe.mp ha)⟩
  refine (Bare.allocproc (Bare.start hpool) htramp).bind fun r t ht => ?_
  obtain ⟨ok,p⟩ := r
  cases ok with
  | false => exact ends_pure ht.2
  | true =>
    obtain ⟨hsz,-,hhas⟩ := ht
    have hs : Shape p.sz kernelSpace := by
      rw [hsz]
      exact ⟨Nat.zero_le _,fun v _ hv => kernelSpace_user hv,kernelSpace_guarded⟩
    have htop : Topped kernelSpace := fun v hv =>
      kernelSpace_tidy.2 v (Nat.zero_le v) (by omega) (by omega)
    have hacts := Lives.acts (p := ⟨p.sz,p.pagetable⟩) ⟨rfl,_,hhas,hs,htop⟩ acts
    refine hacts.bind fun q u hq => ?_
    obtain ⟨-,A,hA,hs,htop⟩ := hq
    exact (Has.freeproc (p := { p with sz := q.sz }) hA (Lives.tidy hs htop)).bind
      fun _ _ hw => ends_pure hw.2

end Life

def eightPages : Ram :=
  { threePages with free := (List.range 8).map fun i => 0x80200000 + i*PGSIZE }

/-- A process that grows, touches its new page and shrinks. -/
theorem lifetime_returns_eightPages :
    ((allocproc .empty).run eightPages).toOption.map (·.1.1) = some true ∧
    ∃ b t, (lifetime [.sbrk 4096 SBRK_LAZY,.copyin 5 1,.sbrk (-4096) SBRK_EAGER]).run eightPages =
      .ok (b,t) ∧ (t.free : Multiset ℕ) = eightPages.free := by
  obtain ⟨b,t,hrun,hfree,-⟩ := lifetime_returns (s := eightPages)
    ⟨by decide,by decide,by decide⟩ ⟨by decide,by decide⟩
    [.sbrk 4096 SBRK_LAZY,.copyin 5 1,.sbrk (-4096) SBRK_EAGER]
  exact ⟨by decide +kernel,b,t,hrun,hfree⟩

end Xv6.Process
