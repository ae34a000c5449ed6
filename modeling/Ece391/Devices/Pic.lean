import Mathlib

/-! The interrupt masks of `i8259.c`, with the bytes last written to the data
ports of the two controllers. -/

namespace Ece391.Devices

structure Pic where
  masterMask : UInt8
  slaveMask : UInt8
  masterData : UInt8
  slaveData : UInt8

abbrev numPorts : ℕ := 8
abbrev maxPorts : ℕ := 16

def enableIrq (irqNum : ℕ) (p : Pic) : Pic :=
  if maxPorts ≤ irqNum then p
  else if irqNum < numPorts then
    let mask : UInt8 := 1 <<< irqNum.toUInt8
    { p with masterMask := p.masterMask &&& ~~~mask, masterData := p.masterMask &&& ~~~mask }
  else
    let mask : UInt8 := 1 <<< (irqNum - numPorts).toUInt8
    { p with slaveMask := p.slaveMask &&& ~~~mask, slaveData := p.slaveMask &&& ~~~mask }

/-- The slave branch sets the complement of the bit, unlike the master branch. -/
def disableIrq (irqNum : ℕ) (p : Pic) : Pic :=
  if maxPorts ≤ irqNum then p
  else if irqNum < numPorts then
    let mask : UInt8 := 1 <<< irqNum.toUInt8
    { p with masterMask := p.masterMask ||| mask, masterData := p.masterMask ||| mask }
  else
    let mask : UInt8 := 1 <<< (irqNum - numPorts).toUInt8
    { p with slaveMask := p.slaveMask ||| ~~~mask, slaveData := p.slaveMask ||| ~~~mask }

end Ece391.Devices
