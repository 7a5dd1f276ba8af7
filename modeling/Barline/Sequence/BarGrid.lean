import Barline.Sequence.Basic

/-!
# The bar grid

Where the bars of a document begin.  The walk goes from bar to bar; each bar is
as long as the meter in effect at its start says, so a change of meter inside a
bar is felt from the next bar on.  Four four holds before the first meter.
-/

namespace Barline

variable (R : Type) [Quantity R]

namespace BarGrid

/-- Walks `bars` bars on from a tick where a bar of meter `m` or of a pending
change begins.  Changes are taken in list order as soon as the walk has reached
them.  Once none is left all bars are alike, and the walk is a multiplication. -/
def walk (ppq : UInt32) (m : Meter) (tick : Nat) : List (Change Meter) → Nat → Nat
  | [], bars => tick + bars * (m.barLength R ppq).toNat
  | _ :: _, 0 => tick
  | change :: pending, bars + 1 =>
    if change.tick.toNat ≤ tick then walk ppq change.value tick pending (bars + 1)
    else walk ppq m (tick + (m.barLength R ppq).toNat) (change :: pending) bars
termination_by pending bars => pending.length + bars

end BarGrid

/-- Where a bar begins.  Bars count from one, and bar zero counts as the first. -/
def barPlace (ppq : UInt32) (changes : List (Change Meter)) (bar : UInt32) : Nat :=
  BarGrid.walk R ppq Meter.common 0 changes ((max bar 1).toNat - 1)

/-- The tick at which a bar begins.  The walk only goes on, so it stays within the
ticks that there are when its end does. -/
def barStart (ppq : UInt32) (changes : List (Change Meter)) (bar : UInt32) : Checked Tick :=
  let place := barPlace R ppq changes bar
  .provided (fitsTick place) (UInt64.ofNat place)

end Barline
