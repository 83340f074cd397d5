import Xv6.Lib.Prog

/-! Programs written over a set of commands, and their meaning under a handler.
The same program can be run over two layers that implement its commands. -/
namespace Xv6

/-- A program that calls commands `c : C`, each answered by a value of `R c`. -/
inductive Free (C : Type) (R : C → Type) (α : Type) : Type
  | pure (a : α) : Free C R α
  | call (c : C) (k : R c → Free C R α) : Free C R α

namespace Free

variable {C : Type} {R : C → Type} {ε σ α β : Type}

def bind : Free C R α → (α → Free C R β) → Free C R β
  | .pure a, f => f a
  | .call c k, f => .call c fun r => (k r).bind f

instance : Monad (Free C R) where
  pure := .pure
  bind := bind

def command (c : C) : Free C R (R c) := .call c .pure

/-- Run a program, answering its commands by `h`. -/
def run (h : (c : C) → Prog ε σ (R c)) : Free C R α → Prog ε σ α
  | .pure a => Pure.pure a
  | .call c k => h c >>= fun r => (k r).run h

variable {h : (c : C) → Prog ε σ (R c)}

theorem run_command (c : C) : (command c : Free C R (R c)).run h = h c := bind_pure (h c)

theorem run_bind (x : Free C R α) (f : α → Free C R β) :
    (x >>= f).run h = x.run h >>= fun a => (f a).run h := by
  induction x with
  | pure a => exact (pure_bind a fun a => (f a).run h).symm
  | call c k ih =>
    calc (h c >>= fun r => (k r >>= f).run h)
        = h c >>= fun r => (k r).run h >>= fun a => (f a).run h := by simp only [ih]
      _ = (h c >>= fun r => (k r).run h) >>= fun a => (f a).run h := (bind_assoc ..).symm

end Free
end Xv6
