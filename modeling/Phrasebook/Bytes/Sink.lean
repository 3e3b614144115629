import Phrasebook.Bytes.Source

/-!
# Sinks that run short

A sink may stop to take bytes before the output ends. What it took before stays
written, and whoever writes meets a fault.
-/

namespace Phrasebook.Bytes

/-- How a sink fails: with a fault, behind some of the bytes. -/
structure Shortfall where
  taken : Nat
  fault : Fault
  deriving DecidableEq, Repr

def Shortfall.ofRoom? (room : Nat) (fault : Fault) (output : List UInt8) : Option Shortfall :=
  if room < output.length then some { taken := room, fault } else none

structure Delivery where
  written : List UInt8
  fault : Option Fault
  deriving DecidableEq, Repr

def deliver (shortfall : Option Shortfall) (output : List UInt8) : Delivery :=
  match shortfall with
  | none => { written := output, fault := none }
  | some short => { written := output.take short.taken, fault := some short.fault }

end Phrasebook.Bytes
