import Mos6502.Word

/-! One cell for each of the 65536 guest addresses.
Reading and writing are total, and two tables with the same cells are equal. -/
namespace Mos6502

structure AddrTable (α : Type) where
  cells : Vector α 65536

namespace AddrTable

variable {α : Type}

def filled (v : α) : AddrTable α :=
  ⟨Vector.replicate 65536 v⟩

def get (t : AddrTable α) (a : Addr) : α :=
  have inside : a.toNat < 65536 := a.toNat_lt
  t.cells[a.toNat]

def set (t : AddrTable α) (a : Addr) (v : α) : AddrTable α :=
  ⟨t.cells.set a.toNat v a.toNat_lt⟩

def update (t : AddrTable α) (a : Addr) (f : α → α) : AddrTable α :=
  t.set a (f (t.get a))

/-- Write `vs` from `a` on, going around from the last address to the first. -/
def setFrom (t : AddrTable α) (a : Addr) : List α → AddrTable α
  | [] => t
  | v :: vs => (t.set a v).setFrom (a + 1) vs

def slice (t : AddrTable α) (a : Addr) : Nat → List α
  | 0 => []
  | n + 1 => t.get a :: t.slice (a + 1) n

def collect (t : AddrTable α) (p : α → Bool) : Nat → List Addr → List Addr
  | 0, rest => rest
  | n + 1, rest =>
    let a := UInt16.ofNat n
    t.collect p n (if p (t.get a) then a :: rest else rest)

def addrsWhere (t : AddrTable α) (p : α → Bool) : List Addr :=
  t.collect p 65536 []

@[simp] theorem get_filled (v : α) (a : Addr) : (filled v).get a = v := by
  simp [filled, get]

theorem get_set (t : AddrTable α) (a b : Addr) (v : α) :
    (t.set a v).get b = if a = b then v else t.get b := by
  by_cases h : a = b
  · subst h
    simp [get, set]
  · have ne : a.toNat ≠ b.toNat := fun e => h (UInt16.toNat.inj e)
    simp [get, set, h, ne]

@[simp] theorem get_set_self (t : AddrTable α) (a : Addr) (v : α) : (t.set a v).get a = v := by
  simp [get_set]

theorem get_set_of_ne (t : AddrTable α) {a b : Addr} (h : a ≠ b) (v : α) :
    (t.set a v).get b = t.get b := by
  simp [get_set, h]

theorem get_update (t : AddrTable α) (a b : Addr) (f : α → α) :
    (t.update a f).get b = if a = b then f (t.get b) else t.get b := by
  by_cases h : a = b
  · subst h; simp [update]
  · simp [update, get_set, h]

theorem ext {t u : AddrTable α} (h : ∀ a, t.get a = u.get a) : t = u := by
  cases t with
  | mk xs =>
    cases u with
    | mk ys =>
      congr 1
      apply Vector.ext
      intro i hi
      have at_i := h (UInt16.ofNat i)
      have small : (UInt16.ofNat i).toNat = i := UInt16.toNat_ofNat_of_lt hi
      simpa only [get, small] using at_i

end AddrTable

abbrev Ram := AddrTable UInt8

end Mos6502
