import Mos6502.Word

/-! The processor as compiled code sees it.
Carry, zero, sign and overflow are kept apart, because nearly every instruction changes them;
the interrupt mask, decimal mode and the two constant bits stay packed. -/
namespace Mos6502

def flagC : UInt8 := 0x01
def flagZ : UInt8 := 0x02
def flagI : UInt8 := 0x04
def flagD : UInt8 := 0x08
def flagB : UInt8 := 0x10
def flagBit5 : UInt8 := 0x20
def flagV : UInt8 := 0x40
def flagN : UInt8 := 0x80

def anyBit (b mask : UInt8) : Bool :=
  b &&& mask != 0

structure Cpu where
  a : UInt8
  x : UInt8
  y : UInt8
  s : UInt8
  pc : Addr
  carry : Bool
  zero : Bool
  negative : Bool
  overflow : Bool
  /-- I, D, B and bit 5 in their packed positions. -/
  other : UInt8
  /-- The effective address that one micro-operation hands to the next. -/
  scratch : Addr
  /-- Carry or borrow that the arithmetic micro-operations work on. -/
  hostCarry : Bool
  hostOverflow : Bool
  budget : Int
  /-- The interrupt line is held. -/
  irq : Bool
  deriving DecidableEq

namespace Cpu

def powerOn : Cpu where
  a := 0
  x := 0
  y := 0
  s := 0
  pc := 0
  carry := false
  zero := false
  negative := false
  overflow := false
  other := flagB ||| flagBit5
  scratch := 0
  hostCarry := false
  hostOverflow := false
  budget := 0
  irq := false

def flags (c : Cpu) : UInt8 :=
  (c.other &&& (flagI ||| flagD ||| flagB ||| flagBit5))
    ||| (if c.carry then flagC else 0)
    ||| (if c.zero then flagZ else 0)
    ||| (if c.overflow then flagV else 0)
    ||| (if c.negative then flagN else 0)

/-- Load the status register as a pull does: B and bit 5 always read back set. -/
def withFlags (c : Cpu) (p : UInt8) : Cpu :=
  { c with
    carry := anyBit p flagC
    zero := anyBit p flagZ
    overflow := anyBit p flagV
    negative := anyBit p flagN
    other := (p &&& (flagI ||| flagD)) ||| flagB ||| flagBit5 }

def pushedFlags (c : Cpu) : UInt8 :=
  c.flags ||| flagB ||| flagBit5

def masked (c : Cpu) : Bool :=
  anyBit c.other flagI

def setMasked (c : Cpu) (on : Bool) : Cpu :=
  { c with other := if on then c.other ||| flagI else c.other &&& ~~~flagI }

def decimal (c : Cpu) : Bool :=
  anyBit c.other flagD

def setDecimal (c : Cpu) (on : Bool) : Cpu :=
  { c with other := if on then c.other ||| flagD else c.other &&& ~~~flagD }

def withZN (c : Cpu) (v : UInt8) : Cpu :=
  { c with zero := v == 0, negative := anyBit v 0x80 }

def interruptDue (c : Cpu) : Bool :=
  c.irq && !c.masked

end Cpu

end Mos6502
