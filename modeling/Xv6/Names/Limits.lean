import Xv6.Names.Runs

/-! The limits of the name space: link counts have 16 bits, and the inode table has `NINODE`
entries. -/
namespace Xv6
namespace Names

open Fs (NINODE)

variable {n : ℕ} {M : Set ℕ} {s s₀ : Sys Store} {p : Fin NPROC}

theorem Reaches.sound (h₀ : Store.Booted n M s₀)
    (h : Reaches (Store.step n) (fun s _ => Store.Few n s) s₀ s) : Sound n M s :=
  h.invariant h₀.sound fun _ _ _ ha hfew hstep => ha.step hfew hstep

/-- As long as open files and current directories leave three entries of the inode table unused, no
call ends in `panic("iget: no inodes")`. -/
theorem table_suffices (h₀ : Store.Booted n M s₀)
    (h : Reaches (Store.step n) (fun s _ => Store.Few n s) s₀ s) (hfew : Store.Few n s)
    (hroom : (s.ps.inodes + s.ps.cwds).toFinset.card + 3 ≤ NINODE) (c : Call)
    (hp : (s.ps.proc c.proc).state = .live) :
    (c.code.run (handle (Store.serve n))).run s ≠ .error .noInodes := by
  intro herr
  have hs := Reaches.sound h₀ h
  have e := hs.quiet.env (E := (· ≠ .noInodes)) hs.tree hs.small hfew hp (by decide) (by decide)
    (.inr (by rwa [add_zero]))
  have hdoes := c.does (A := fun _ _ => True) (B := fun _ _ => True) (U := fun _ _ => True) hs.quiet
    hp e (fun _ _ _ => id) (fun _ _ => trivial) (fun _ _ => trivial) fun _ _ => trivial
  exact Prog.Meets.of_error hdoes herr rfl

/-- Right after booting, only the root is in use. -/
theorem table_suffices_fresh :
    ((sysOpen 0 [102] O_CREATE).run (handle (Store.serve 4))).run Store.fresh ≠ .error .noInodes := by
  have hb : Store.Booted 4 {1,2} Store.fresh := Store.fresh_booted (by decide) (by decide)
  refine table_suffices hb (.refl _) (by decide) ?_ (.open 0 [102] O_CREATE) rfl
  rw [hb.tables.inodes,hb.tables.cwds (c := 0) rfl]
  decide

end Names
end Xv6
