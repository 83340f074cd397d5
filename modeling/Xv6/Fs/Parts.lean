import Xv6.Fs.BlockMap

/-! What holds of the parts of an operation holds of the operation. -/
namespace Xv6
namespace Fs

/-- `P` is kept by putting operations together, and holds of those on blocks and on the
on-disk fields of `ip`. -/
structure Parts (P : ∀ α : Type, Op α → Prop) (ip : Fin NINODE) : Prop where
  pure : ∀ {α : Type} (a : α), P α (Pure.pure a)
  bind : ∀ {α β : Type} {x : Op α} {f : α → Op β}, P α x → (∀ a, P β (f a)) → P β (x >>= f)
  throw : ∀ {α : Type} {e : Panic}, e ≠ .misuse → P α (MonadExcept.throw e)
  bread : ∀ b, P Block (Fs.bread b)
  bstore : ∀ b x, P Unit (Fs.bstore b x)
  logWrite : ∀ b, P Unit (Fs.logWrite b)
  inode : P Inode (Fs.inode ip)
  setDinode : ∀ f, P Unit (Fs.setDinode ip f)

namespace Parts

variable {P : ∀ α : Type, Op α → Prop} {ip : Fin NINODE} {sb : Superblock}

theorem ite (_ : Parts P ip) {α : Type} {c : Prop} [Decidable c] {x y : Op α} (hx : P α x)
    (hy : P α y) : P α (if c then x else y) := by
  split
  · exact hx
  · exact hy

variable (h : Parts P ip)
include h

theorem forM {γ : Type} {body : γ → Op PUnit} (hb : ∀ a, P PUnit (body a)) (l : List γ) :
    P PUnit (l.forM body) := by
  induction l with
  | nil => exact h.pure _
  | cons a l ih => exact h.bind (hb a) fun _ => ih

theorem ballocFrom (fuel g : ℕ) : P ℕ (Fs.ballocFrom sb fuel g) := by
  induction fuel generalizing g with
  | zero => exact h.pure _
  | succ fuel ih =>
    refine h.ite (h.bind (h.bread _) fun x => ?_) (h.pure _)
    cases clearBitFrom sb x (g*BPB) with
    | some bi =>
      refine h.bind (h.bstore _ _) fun _ => h.bind (h.logWrite _) fun _ => h.bind ?_ fun _ => h.pure _
      exact h.bind (h.bstore _ _) fun _ => h.logWrite _
    | none => exact ih (g+1)

theorem bfree (b : ℕ) : P Unit (Fs.bfree sb b) :=
  h.bind (h.bread _) fun _ =>
    h.ite (h.bind (h.bstore _ _) fun _ => h.logWrite _) (h.throw (by decide))

theorem iupdate : P Unit (Fs.iupdate sb ip) :=
  h.bind h.inode fun _ => h.bind (h.bread _) fun _ => h.bind (h.bstore _ _) fun _ => h.logWrite _

theorem addrOrAlloc (k : ℕ) : P ℕ (Fs.addrOrAlloc sb ip k) :=
  h.bind h.inode fun _ => h.ite (h.bind (h.ballocFrom _ _) fun _ => h.ite (h.pure _)
    (h.bind (h.setDinode _) fun _ => h.pure _)) (h.pure _)

theorem entryOrAlloc (ind j : ℕ) : P ℕ (Fs.entryOrAlloc sb ind j) :=
  h.bind (h.bread _) fun _ => h.ite (h.bind (h.ballocFrom _ _) fun _ => h.ite (h.pure _)
    (h.bind (h.bread _) fun _ => h.bind (h.bstore _ _) fun _ => h.bind (h.logWrite _)
      fun _ => h.pure _)) (h.pure _)

theorem bmap (bn : ℕ) : P ℕ (Fs.bmap sb ip bn) :=
  h.ite (h.addrOrAlloc _) (h.ite (h.bind (h.addrOrAlloc _) fun _ => h.ite (h.pure _)
    (h.entryOrAlloc _ _)) (h.throw (by decide)))

theorem itrunc : P Unit (Fs.itrunc sb ip) := by
  refine h.bind (h.forM (fun i => ?_) _) fun _ => h.bind ?_ fun _ => h.bind (h.setDinode _)
    fun _ => h.iupdate
  · exact h.bind h.inode fun _ => h.ite (h.bind (h.bfree _) fun _ => h.setDinode _) (h.pure _)
  · refine h.bind h.inode fun _ => h.ite (h.bind (h.forM (fun j => ?_) _) fun _ =>
      h.bind (h.bfree _) fun _ => h.setDinode _) (h.pure _)
    exact h.bind (h.bread _) fun _ => h.ite (h.bfree _) (h.pure _)

theorem readLoop (copyout : ℕ → List UInt8 → Bool) (n fuel tot off : ℕ) (acc : List UInt8) :
    P _ (Fs.readLoop sb ip copyout n fuel tot off acc) := by
  induction fuel generalizing tot off acc with
  | zero => exact h.pure _
  | succ fuel ih =>
    exact h.ite (h.bind (h.bmap _) fun _ => h.ite (h.pure _) (h.bind (h.bread _) fun _ =>
      h.ite (ih _ _ _) (h.pure _))) (h.pure _)

theorem readi (copyout : ℕ → List UInt8 → Bool) (off n : ℕ) : P _ (Fs.readi sb ip copyout off n) :=
  h.bind h.inode fun _ => h.ite (h.pure _) (h.readLoop _ _ _ _ _ _)

theorem writeLoop (copyin : ℕ → ℕ → List UInt8 × Bool) (n fuel tot off : ℕ) :
    P _ (Fs.writeLoop sb ip copyin n fuel tot off) := by
  induction fuel generalizing tot off with
  | zero => exact h.pure _
  | succ fuel ih =>
    exact h.ite (h.bind (h.bmap _) fun _ => h.ite (h.pure _) (h.bind (h.bread _) fun _ =>
      h.bind (h.bstore _ _) fun _ => h.ite (h.bind (h.logWrite _) fun _ => ih _ _) (h.pure _)))
      (h.pure _)

theorem writei (copyin : ℕ → ℕ → List UInt8 × Bool) (off n : ℕ) :
    P ℤ (Fs.writei sb ip copyin off n) :=
  h.bind h.inode fun _ => h.ite (h.pure _) (h.ite (h.pure _) (h.bind (h.writeLoop _ _ _ _ _)
    fun _ => h.bind (h.setDinode _) fun _ => h.bind h.iupdate fun _ => h.pure _))

end Parts

end Fs
end Xv6
