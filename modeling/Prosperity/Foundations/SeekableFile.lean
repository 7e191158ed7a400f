import Prosperity.Foundations.LittleEndian

/-!
# Files with a position

A file on disk is read at its position. A seek takes a signed offset: a negative one is refused, and the position
stays. A read at or behind the end gives nothing.
-/

namespace Prosperity

/-- The bytes of a file. Its size is an `off_t`. -/
structure HostFile where
  size : ℕ
  byte : ℕ → UInt8
  fits : size < 2 ^ 63

namespace HostFile

def seekSet (off : UInt64) (pos : ℕ) : ℕ := if off.toNat < 2 ^ 63 then off.toNat else pos

/-- How many of `n` bytes a read at a position gives. -/
def count (f : HostFile) (pos n : ℕ) : ℕ := min n (f.size - pos)

variable {f : HostFile}

theorem seekSet_of_lt {off : UInt64} {pos : ℕ} (h : off.toNat < 2 ^ 63) : seekSet off pos = off.toNat := if_pos h

theorem count_eq_iff {pos n : ℕ} (hn : 0 < n) : f.count pos n = n ↔ pos + n ≤ f.size := by
  rw [count]
  omega

end HostFile

/-- The number of `n` bytes at a place of a buffer. -/
def leAt (n : ℕ) (buf : ℕ → UInt8) (off : ℕ) : ℕ := leNat ((List.range n).map fun k => buf (off + k))

end Prosperity
