import Xv6.Param
import Mathlib.Control.Basic

/-! The write-ahead log of `log.c`.
The routines are written over an interface of the block layer, so that the same text
runs on a plain map from block numbers to contents and on the buffer cache itself. -/
namespace Xv6
namespace RedoLog

/-- The buffer operations `log.c` calls.  A handle stands for a held `struct buf`. -/
structure BlockOps (m : Type → Type) (H : Type) where
  bread : ℕ → m H
  data : H → m Block
  setData : H → Block → m Unit
  bwrite : H → m Unit
  brelse : H → m Unit
  bunpin : H → m Unit

/-- `struct logheader`; only `block 0 .. block (n-1)` are in use. -/
structure LogHeader where
  n : ℕ
  block : ℕ → ℕ

/-- The fields of `struct log` that the commit path reads. -/
structure Log where
  start : ℕ
  lh : LogHeader

def Log.clear (log : Log) : Log := { log with lh := { log.lh with n := 0 } }

/-- The statically allocated log after `initlog` has set its first block. -/
def Log.boot (start : ℕ) : Log := ⟨start,0,fun _ => 0⟩

/-- Byte offset of `block[i]` in the header block. -/
abbrev headOff (i : ℕ) : ℕ := 4*(i+1)

/-- The `n` of an on-disk header.  A negative `int` bounds every loop like zero. -/
def headN (hb : Block) : ℕ := (toInt32 (hb.getLE 0 4)).toNat

def headBlock (hb : Block) (i : ℕ) : ℕ := hb.getLE (headOff i) 4

/-- The stores of `write_head` into the header buffer; other bytes stay. -/
def encodeHead (lh : LogHeader) (hb : Block) : Block :=
  (List.range lh.n).foldl (fun b i => b.setLE (headOff i) 4 (lh.block i)) (hb.setLE 0 4 lh.n)

def decodeHead (lh : LogHeader) (hb : Block) : LogHeader :=
  ⟨headN hb,fun i => if i < headN hb then headBlock hb i else lh.block i⟩

variable {m : Type → Type} [Monad m] {H : Type} (ops : BlockOps m H)

/-- One round of `install_trans`. -/
def installBlock (log : Log) (recovering : Bool) (tail : ℕ) : m Unit := do
  let lbuf ← ops.bread (log.start+tail+1)
  let dbuf ← ops.bread (log.lh.block tail)
  ops.setData dbuf (← ops.data lbuf)
  ops.bwrite dbuf
  if !recovering then ops.bunpin dbuf
  ops.brelse lbuf
  ops.brelse dbuf

/-- Copy committed blocks from log to their home location. -/
def installTrans (log : Log) (recovering : Bool) : m Unit :=
  (List.range log.lh.n).forM (installBlock ops log recovering)

/-- Read the log header from disk into the in-memory log header. -/
def readHead (log : Log) : m Log := do
  let buf ← ops.bread log.start
  let lh := decodeHead log.lh (← ops.data buf)
  ops.brelse buf
  return { log with lh := lh }

/-- Write in-memory log header to disk.
This is the true point at which the current transaction commits. -/
def writeHead (log : Log) : m Unit := do
  let buf ← ops.bread log.start
  ops.setData buf (encodeHead log.lh (← ops.data buf))
  ops.bwrite buf
  ops.brelse buf

def recoverFromLog (log : Log) : m Log := do
  let log ← readHead ops log
  installTrans ops log true
  writeHead ops log.clear
  return log.clear

/-- One round of `write_log`. -/
def logBlock (log : Log) (tail : ℕ) : m Unit := do
  let dst ← ops.bread (log.start+tail+1)
  let src ← ops.bread (log.lh.block tail)
  ops.setData dst (← ops.data src)
  ops.bwrite dst
  ops.brelse src
  ops.brelse dst

/-- Copy modified blocks from cache to log. -/
def writeLog (log : Log) : m Unit :=
  (List.range log.lh.n).forM (logBlock ops log)

def commit (log : Log) : m Log := do
  if log.lh.n > 0 then
    writeLog ops log
    writeHead ops log
    installTrans ops log false
    writeHead ops log.clear
    return log.clear
  else
    return log

theorem headBlock_setLE_ne (hb : Block) {i j : ℕ} (v : ℕ) (h : i ≠ j) :
    headBlock (hb.setLE (headOff i) 4 v) j = headBlock hb j :=
  Bytes.getLE_setLE_disjoint _ _ _ _ _ _ (by simp only [headOff]; omega)

theorem headBlock_setLE_self (hb : Block) {i : ℕ} (v : ℕ) (h : i < LOGBLOCKS) :
    headBlock (hb.setLE (headOff i) 4 v) i = v % 2^32 := by
  have hs := Bytes.getLE_setLE_self hb (headOff i) 4 v (by
    simp only [headOff,BSIZE,LOGBLOCKS,MAXOPBLOCKS] at *; omega)
  simpa [headBlock] using hs

theorem headN_setLE_block (hb : Block) (i v : ℕ) :
    headN (hb.setLE (headOff i) 4 v) = headN hb := by
  rw [headN,headN,Bytes.getLE_setLE_disjoint _ _ _ _ _ _ (by simp only [headOff]; omega)]

theorem headN_setLE_zero (hb : Block) {v : ℕ} (hv : v ≤ LOGBLOCKS) :
    headN (hb.setLE 0 4 v) = v := by
  have hs := Bytes.getLE_setLE_self hb 0 4 v (by simp only [BSIZE]; omega)
  simp only [LOGBLOCKS,MAXOPBLOCKS] at hv
  have hm : v % 2^32 = v := Nat.mod_eq_of_lt (by omega)
  norm_num at hs hm
  rw [headN,hs,toInt32]
  norm_num [hm]
  omega

theorem headN_foldl (is : List ℕ) (f : ℕ → ℕ) (hb : Block) :
    headN (is.foldl (fun b i => b.setLE (headOff i) 4 (f i)) hb) = headN hb := by
  induction is generalizing hb with
  | nil => rfl
  | cons i is ih => rw [List.foldl_cons,ih,headN_setLE_block]

theorem headBlock_foldl_of_not_mem (is : List ℕ) (f : ℕ → ℕ) (hb : Block) {j : ℕ} (hj : j ∉ is) :
    headBlock (is.foldl (fun b i => b.setLE (headOff i) 4 (f i)) hb) j = headBlock hb j := by
  induction is generalizing hb with
  | nil => rfl
  | cons i is ih =>
    rw [List.foldl_cons,ih _ (fun h => hj (by simp [h])),
      headBlock_setLE_ne _ _ (fun h => hj (by simp [h]))]

theorem headBlock_foldl_of_mem (is : List ℕ) (f : ℕ → ℕ) (hb : Block) {j : ℕ} (hj : j ∈ is)
    (hlt : j < LOGBLOCKS) :
    headBlock (is.foldl (fun b i => b.setLE (headOff i) 4 (f i)) hb) j = f j % 2^32 := by
  induction is generalizing hb with
  | nil => simp at hj
  | cons i is ih =>
    rw [List.foldl_cons]
    by_cases hm : j ∈ is
    · exact ih _ hm
    · have hji : j = i := by simpa [hm] using hj
      subst hji
      rw [headBlock_foldl_of_not_mem is f _ hm,headBlock_setLE_self _ _ hlt]

/-- A header written by `write_head` is read back by `read_head`. -/
theorem headN_encodeHead (lh : LogHeader) (hb : Block) (h : lh.n ≤ LOGBLOCKS) :
    headN (encodeHead lh hb) = lh.n := by
  rw [encodeHead,headN_foldl,headN_setLE_zero hb h]

theorem headBlock_encodeHead (lh : LogHeader) (hb : Block) (h : lh.n ≤ LOGBLOCKS) {i : ℕ}
    (hi : i < lh.n) : headBlock (encodeHead lh hb) i = lh.block i % 2^32 :=
  headBlock_foldl_of_mem _ _ _ (by simpa using hi) (by omega)

end RedoLog
end Xv6
