import Xv6.Lib.Bytes

/-! Sizes fixed by `param.h` and `fs.h`. -/
namespace Xv6

abbrev MAXOPBLOCKS : ℕ := 10
abbrev LOGBLOCKS : ℕ := MAXOPBLOCKS*3
abbrev NBUF : ℕ := MAXOPBLOCKS*3
abbrev BSIZE : ℕ := 1024

/-- One disk block. -/
abbrev Block := Bytes BSIZE

/-- The value of a 32-bit word read as a signed `int`. -/
def toInt32 (v : ℕ) : ℤ := if v % 2^32 < 2^31 then (v % 2^32 : ℕ) else (v % 2^32 : ℕ) - 2^32

end Xv6
