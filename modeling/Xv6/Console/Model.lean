import Xv6.Lib.Machine
import Xv6.Lib.Ring
import Mathlib.Data.Int.Notation

/-! Console input: `consoleintr` and `consoleread`, with `cons.lock`.
What runs between two operations on the lock is one step: a call of `consoleintr`, and of
`consoleread` what it does until it sleeps or returns. -/
namespace Xv6
namespace Console

abbrev INPUT_BUF_SIZE : ℕ := 128

/-- The indices are `uint`. -/
def UINT : ℕ := 2^32

abbrev newline : UInt8 := 10
abbrev carriageReturn : UInt8 := 13
abbrev delete : UInt8 := 0x7f

/-- Control-`x`. -/
def ctrl (x : Char) : UInt8 := (x.toNat-64).toUInt8

abbrev eof : UInt8 := ctrl 'D'

/-- `cons`: `buf` is the array with the indices `e` (`prod`) and `r` (`cons`). -/
structure Cons where
  buf : Ring INPUT_BUF_SIZE UInt8
  w : ℕ

def Cons.r (c : Cons) : ℕ := c.buf.cons

def Cons.e (c : Cons) : ℕ := c.buf.prod

/-- `k - 1` of a `uint`. -/
def decr (k : ℕ) : ℕ := if k = 0 then UINT-1 else k-1

/-- `cons.e - cons.r`. -/
def Cons.used (c : Cons) : ℕ := (c.e+UINT-c.r) % UINT

/-- `cons.e--`. -/
def Cons.erase (c : Cons) : Cons := { c with buf := { c.buf with prod := decr c.e } }

/-- `cons.buf[(cons.e-1) % INPUT_BUF_SIZE]`. -/
def Cons.last (c : Cons) : UInt8 :=
  c.buf.slot (Fin.ofNat INPUT_BUF_SIZE (decr c.e))

/-- The loop for control-U; the buffer has `INPUT_BUF_SIZE` characters at most. -/
def Cons.killLine (c : Cons) : ℕ → Cons
  | 0 => c
  | n+1 => if c.e ≠ c.w ∧ c.last ≠ newline then c.erase.killLine n else c

/-- What the handler does with a character. -/
inductive Key
  /-- The character is put into the buffer. -/
  | char (ch : UInt8)
  | erase
  | kill
  /-- The buffer is full and the line is committed as it is. -/
  | full
  deriving DecidableEq

/-- How a read came to its end. -/
inductive Stop
  | delivered
  | newline
  | eof
  | fault
  | killed
  deriving DecidableEq

/-- A process outside `consoleread`, with the result of its last call for `target` bytes and the
bytes that call delivered; or asleep in it, with `n` of `target` bytes to go. -/
inductive Pc
  | user (target : ℕ) (ret : ℤ) (got : List UInt8) (stop : Stop)
  | sleep (target n : ℕ) (got : List UInt8) (sleeping : Bool)
  deriving DecidableEq

/-- No step reads the last three fields: `keys` is what the handler did, `delivered` lists the
bytes copied to users, `saved` says that a control-D was put back for the next read. -/
structure State where
  cons : Cons
  pc : ℕ → Pc
  keys : List Key
  delivered : List UInt8
  saved : Bool

namespace State

def init : State where
  cons := ⟨⟨fun _ => 0,0,0⟩,0⟩
  pc _ := .user 0 0 [] .delivered
  keys := []
  delivered := []
  saved := false

/-- `wakeup(&cons.r)`. -/
def wakeup (s : State) : State :=
  { s with pc := fun q => match s.pc q with
    | .sleep target n got _ => .sleep target n got false
    | c => c }

def press (s : State) (k : Key) : State := { s with keys := s.keys++[k] }

/-- The end of the default case: `cons.w = cons.e; wakeup(&cons.r)`. -/
def commit (s : State) : State := { s.wakeup with cons := { s.cons with w := s.cons.e } }

/-- The default case of `consoleintr`. -/
def insert (s : State) (c : UInt8) : State :=
  if c ≠ 0 ∧ s.cons.used < INPUT_BUF_SIZE then
    let s := s.press (.char c)
    let c := if c = carriageReturn then newline else c
    let s := { s with cons := { s.cons with buf := s.cons.buf.push UINT c } }
    if c = newline ∨ c = eof then s.commit
    else if s.cons.used = INPUT_BUF_SIZE then (s.press .full).commit
    else s
  else s

/-- Control-P only prints. -/
def consoleintr (s : State) (c : UInt8) : State :=
  if c = ctrl 'P' then s
  else if c = ctrl 'U' then { s.press .kill with cons := s.cons.killLine INPUT_BUF_SIZE }
  else if c = ctrl 'H' ∨ c = delete then
    if s.cons.e ≠ s.cons.w then { s.press .erase with cons := s.cons.erase } else s.press .erase
  else s.insert c

def setPc (s : State) (p : ℕ) (c : Pc) : State := { s with pc := Function.update s.pc p c }

/-- The end of `consoleread`. -/
def finish (s : State) (p target n : ℕ) (got : List UInt8) (stop : Stop) : State :=
  s.setPc p (.user target (target-n) got stop)

/-- The loop of `consoleread` with `n` of `target` bytes to go, until it sleeps or returns.
`killed` is what `killed(myproc())` yields, `copyout n` whether the copy succeeds with `n` bytes
to go. -/
def readLoop (p : ℕ) (killed : Bool) (copyout : ℕ → Bool) (target : ℕ) :
    ℕ → List UInt8 → State → State
  | 0, got, s => s.finish p target 0 got .delivered
  | n+1, got, s =>
    if s.cons.r = s.cons.w then
      if killed then s.setPc p (.user target (-1) got .killed)
      else s.setPc p (.sleep target (n+1) got true)
    else
      let c := s.cons.buf.slot (Fin.ofNat INPUT_BUF_SIZE s.cons.r)
      let r := (s.cons.r+1) % UINT
      if c = eof then
        let r' := if n+1 < target then decr r else r
        let s := { s with
          cons := { s.cons with buf := { s.cons.buf with cons := r' } }
          saved := decide (n+1 < target) }
        s.finish p target (n+1) got .eof
      else
        let s := { s with cons := { s.cons with buf := { s.cons.buf with cons := r } } }
        if copyout (n+1) = false then s.finish p target (n+1) got .fault
        else
          let s := { s with delivered := s.delivered++[c] }
          if c = newline then s.finish p target n (got++[c]) .newline
          else readLoop p killed copyout target n (got++[c]) s

def consoleread (s : State) (p : ℕ) (n : ℤ) (killed : Bool) (copyout : ℕ → Bool) :
    Option State :=
  match s.pc p with
  | .user .. => some (s.readLoop p killed copyout n.toNat n.toNat [])
  | _ => none

/-- Back from `sleep(&cons.r, &cons.lock)`. -/
def resume (s : State) (p : ℕ) (killed : Bool) (copyout : ℕ → Bool) : Option State :=
  match s.pc p with
  | .sleep target n got false => some (s.readLoop p killed copyout target n got)
  | _ => none

end State

inductive Event
  | intr (c : UInt8)
  | read (p : ℕ) (n : ℤ) (killed : Bool) (copyout : ℕ → Bool)
  | resume (p : ℕ) (killed : Bool) (copyout : ℕ → Bool)

def State.step (s : State) : Event → Option State
  | .intr c => some (s.consoleintr c)
  | .read p n killed copyout => s.consoleread p n killed copyout
  | .resume p killed copyout => s.resume p killed copyout

/-- Readers are not killed and their buffers are writable. -/
def Event.sound : Event → Prop
  | .intr _ => True
  | .read _ _ killed copyout | .resume _ killed copyout =>
    killed = false ∧ ∀ n, copyout n = true

end Console
end Xv6
