/-! Bytes and words of the guest: little-endian pairs, pages and sign extension.
A page is the 256 addresses that share a high byte. -/
namespace Mos6502

abbrev Addr := UInt16

def word (lo hi : UInt8) : UInt16 :=
  hi.toUInt16 <<< 8 ||| lo.toUInt16

def lowByte (w : UInt16) : UInt8 :=
  w.toUInt8

def highByte (w : UInt16) : UInt8 :=
  (w >>> 8).toUInt8

def signExtend (b : UInt8) : UInt16 :=
  if b < 0x80 then b.toUInt16 else b.toUInt16 ||| 0xFF00

/-- The address after `a`, taken inside the page of `a`: the bus never carries into the high byte. -/
def nextInPage (a : Addr) : Addr :=
  (a &&& 0xFF00) ||| ((a + 1) &&& 0x00FF)

def samePage (a b : Addr) : Bool :=
  (a ^^^ b) &&& 0xFF00 == 0

/-- Where the stack pointer `s` points: the stack is page 1. -/
def stackAddr (s : UInt8) : Addr :=
  0x0100 ||| s.toUInt16

/-- How far `x` lies behind `a`, going around from the last address to the first. -/
def distance (a x : Addr) : Nat :=
  (x - a).toNat

theorem distance_eq (a x : Addr) : distance a x = (65536 - a.toNat + x.toNat) % 65536 :=
  UInt16.toNat_sub x a

theorem distance_lt (a x : Addr) : distance a x < 65536 :=
  (x - a).toNat_lt

theorem distance_self (a : Addr) : distance a a = 0 := by
  simp [distance]

theorem toNat_ofNat16 {i : Nat} (small : i < 65536) : (UInt16.ofNat i).toNat = i :=
  UInt16.toNat_ofNat_of_lt small

theorem add_ofNat_eq_iff (a x : Addr) {i : Nat} (small : i < 65536) :
    a + UInt16.ofNat i = x ↔ distance a x = i := by
  have ha := a.toNat_lt
  have hx := x.toNat_lt
  rw [distance_eq, ← UInt16.toNat_inj, UInt16.toNat_add, toNat_ofNat16 small]
  omega

theorem distance_eq_zero_iff (a x : Addr) : distance a x = 0 ↔ x = a := by
  have zero := add_ofNat_eq_iff a x (i := 0) (by decide)
  rw [← zero]
  constructor
  · intro h; rw [← h]; simp
  · intro h; rw [h]; simp

theorem distance_between {a b x : Addr} (h : distance b x ≤ distance a x) :
    distance a b = distance a x - distance b x := by
  have ha := a.toNat_lt
  have hx := x.toNat_lt
  have hb := b.toNat_lt
  rw [distance_eq, distance_eq] at h
  rw [distance_eq, distance_eq, distance_eq]
  omega

theorem distance_add {a x : Addr} {n : UInt8} (h : n.toNat ≤ distance a x) :
    distance (a + n.toUInt16) x = distance a x - n.toNat := by
  have ha := a.toNat_lt
  have hx := x.toNat_lt
  have hn := n.toNat_lt
  rw [distance_eq] at h
  rw [distance_eq, distance_eq, UInt16.toNat_add, UInt8.toNat_toUInt16]
  omega

theorem distance_add_of_lt {a x : Addr} {n : UInt8} (h : distance a x < n.toNat) :
    distance (a + n.toUInt16) x = 65536 - n.toNat + distance a x := by
  have ha := a.toNat_lt
  have hx := x.toNat_lt
  have hn := n.toNat_lt
  rw [distance_eq] at h
  rw [distance_eq, distance_eq, UInt16.toNat_add, UInt8.toNat_toUInt16]
  omega

end Mos6502
