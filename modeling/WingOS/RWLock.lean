/-
# The reader-writer lock

`fc::RWLock` and the kernel's `SRWLock` on top of it, without what the latter
records for debugging. Its counters are only touched under `_access_lock`, so
each operation is one step. An acquire that finds the lock busy spins, so it
is not enabled then; a release that finds nothing to release is
`unreachable$`, here `none`.

The type of the counters is a parameter. They are `std::atomic<int>` in the
source, which wraps (`RWLock Int32`); where there are too few holders for
that, they may be integers (`RWLock ℤ`).

Key definitions: `RWLock`, `RWLock.free`, `releaseMutability`, `writeRelease`,
`readRelease`.
-/
import Mathlib.Algebra.Order.Group.Int

namespace WingOS

/-- `fc::RWLock`, with counters of type `C`. -/
structure RWLock (C : Type) [OfNat C 0] where
  readers : C := 0
  writers : C := 0
  waiters : C := 0
  deriving DecidableEq

namespace RWLock

variable {C : Type} [OfNat C 0] [OfNat C 1] [Add C] [Sub C] [DecidableEq C] [LT C] [DecidableLT C]

/-- The test of `write_acquire` and `try_write_acquire`. -/
def free (l : RWLock C) : Bool := l.readers = 0 ∧ l.writers = 0

/-- `write_acquire`, and `try_write_acquire` when it succeeds: the waiter that
was announced becomes the writer. -/
def writeAcquire (l : RWLock C) : RWLock C :=
  let l := { l with waiters := l.waiters + 1 }
  { l with writers := l.writers + 1, waiters := l.waiters - 1 }

/-- The test of `read_acquire`. -/
def readable (l : RWLock C) : Bool := l.writers = 0

def readAcquire (l : RWLock C) : RWLock C := { l with readers := l.readers + 1 }

/-- One writer becomes a reader. -/
def releaseMutability (l : RWLock C) : Option (RWLock C) :=
  let l := { l with writers := l.writers - 1, readers := l.readers + 1 }
  if l.writers < 0 then none else some l

def writeRelease (l : RWLock C) : Option (RWLock C) :=
  let l := { l with writers := l.writers - 1 }
  if l.writers < 0 then none else some l

def readRelease (l : RWLock C) : Option (RWLock C) :=
  let l := { l with readers := l.readers - 1 }
  if l.readers < 0 then none else some l

end RWLock
end WingOS
