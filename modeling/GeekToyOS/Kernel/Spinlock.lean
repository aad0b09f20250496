import Mathlib

/-!
# `spinlock.c`

The lock of `src/kernel/spinlock.c`: a word that is zero when the lock is free.

## Main definitions

* `Spinlock.exchange` — one round of the loop of `acquire`
* `Spinlock.release`
-/

namespace GeekToyOS

/-- `struct spinlock`. -/
structure Spinlock where
  lock : BitVec 32
deriving DecidableEq, Repr

namespace Spinlock

/-- `atomic_exchange(&lock->lock, 1)`, one round of the loop of `acquire`: the old word, and the lock
after it. The loop ends when the old word is zero. -/
def exchange (l : Spinlock) : BitVec 32 × Spinlock := (l.lock, ⟨1⟩)

/-- `release`. -/
def release (_ : Spinlock) : Spinlock := ⟨0⟩

/-- The lock is taken. -/
def Held (l : Spinlock) : Prop := l.lock ≠ 0

instance (l : Spinlock) : Decidable l.Held := inferInstanceAs (Decidable (_ ≠ _))

theorem held_exchange (l : Spinlock) : l.exchange.2.Held := show (1 : BitVec 32) ≠ 0 by decide

theorem not_held_release (l : Spinlock) : ¬ l.release.Held := fun h => h rfl

end Spinlock

end GeekToyOS
