import Mathlib.Data.Nat.Notation

/-!
# Build parameters

The sources are compiled once per target, with `ARCH_BITS` fixed to `32` or `64` by the build
files. Everything that reads `ARCH_BITS` or `sizeof(uintptr_t)` takes an `Arch` here, so that a
result about it covers both kinds of build.
-/

namespace Memtest

/-- The value of `ARCH_BITS` a build selects. -/
inductive Arch
  | b32
  | b64
  deriving DecidableEq, Repr

namespace Arch

/-- `ARCH_BITS`, which is also `TESTWORD_WIDTH`. -/
def bits : Arch → ℕ
  | b32 => 32
  | b64 => 64

/-- `sizeof(uintptr_t)`, which is also `sizeof(testword_t)`. -/
def wordBytes : Arch → ℕ
  | b32 => 4
  | b64 => 8

theorem bits_pos (arch : Arch) : 0 < arch.bits := by cases arch <;> decide

theorem wordBytes_pos (arch : Arch) : 0 < arch.wordBytes := by cases arch <;> decide

end Arch

/-- `PAGE_SHIFT` of `memsize.h`. -/
def pageShift : ℕ := 12

/-- `PAGE_SIZE` of `memsize.h`. -/
def pageSize : ℕ := 1 <<< pageShift

end Memtest
