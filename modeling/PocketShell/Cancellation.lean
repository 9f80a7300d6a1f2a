/-!
# Cancellation

A run can be cancelled once and for all. A waiting read that has been woken by a writer and
cancelled before it is looked at again may go either way: `coin` says which, one answer per such
read, so that a statement about all coins is a statement about every outcome.
-/

namespace PocketShell

structure Cancellation where
  fired : Bool := false
  /-- Whether the `n`th read that is both woken and cancelled counts as woken. -/
  coin : Nat → Bool := fun _ => true
  /-- How often the coin has been thrown. -/
  thrown : Nat := 0

namespace Cancellation

def fire (c : Cancellation) : Cancellation := { c with fired := true }

/-- The next throw, and the cancellation after it. -/
def throwCoin (c : Cancellation) : Bool × Cancellation :=
  (c.coin c.thrown, { c with thrown := c.thrown + 1 })

@[simp] theorem fired_fire (c : Cancellation) : c.fire.fired = true := rfl

@[simp] theorem fired_throwCoin (c : Cancellation) : c.throwCoin.2.fired = c.fired := rfl

end Cancellation

end PocketShell
