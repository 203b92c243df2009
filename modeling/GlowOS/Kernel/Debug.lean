import Mathlib

/-!
# Faults

The reasons for which a kernel function does not return.
-/

namespace GlowOS

/-- Why a call stops. -/
inductive Fault
  /-- A failed `ASSERT`. -/
  | assert
  /-- An access outside an array or a buffer. -/
  | bounds
  /-- A disk transfer that is larger than its buffer. -/
  | overrun
  /-- An access through a null pointer. -/
  | null
  /-- An access to an inode whose memory was given back. -/
  | freed
  /-- A variable read before it was written. -/
  | uninit
  /-- A loop that never ends. -/
  | hang
  deriving DecidableEq, Repr

end GlowOS
