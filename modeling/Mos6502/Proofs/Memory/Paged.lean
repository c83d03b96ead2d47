import Mos6502.Engine.CodeBus
import Mos6502.Memory.Paged

/-! Paged memory under accesses: the page map never changes, a read changes no byte and a write at
most its own. Outside of device pages a device access is a plain one. -/
namespace Mos6502

namespace PagedMemory

variable {σ : Type} (m : PagedMemory σ) (a x : Addr) (v : UInt8)

@[simp] theorem pages_write : (m.write a v).pages = m.pages := by
  unfold write
  split <;> rfl

theorem logRead_fields : (m.logRead a).pages = m.pages ∧ (m.logRead a).ram = m.ram := by
  unfold logRead
  split <;> exact ⟨rfl, rfl⟩

theorem logWrite_fields :
    (m.logWrite a v).pages = m.pages ∧ (m.logWrite a v).ram = m.ram := by
  unfold logWrite
  split <;> exact ⟨rfl, rfl⟩

@[simp] theorem pages_deviceRead : (m.deviceRead a).2.pages = m.pages := by
  simp only [deviceRead]
  split
  · split <;> exact (m.logRead_fields a).1
  · rfl

@[simp] theorem pages_deviceWrite : (m.deviceWrite a v).pages = m.pages := by
  simp only [deviceWrite]
  split
  · split <;> exact (m.logWrite_fields a v).1
  · exact m.pages_write a v

@[simp] theorem ram_deviceRead : (m.deviceRead a).2.ram = m.ram := by
  simp only [deviceRead]
  split
  · split <;> exact (m.logRead_fields a).2
  · rfl

variable {m a x v}

theorem get_write_of_ne (other : a ≠ x) : (m.write a v).ram.get x = m.ram.get x := by
  unfold write
  split
  · rfl
  · exact AddrTable.get_set_of_ne m.ram other v

theorem get_deviceWrite_of_ne (other : a ≠ x) :
    (m.deviceWrite a v).ram.get x = m.ram.get x := by
  have ram := (m.logWrite_fields a v).2
  simp only [deviceWrite]
  split
  · split
    · exact congrArg (·.get x) ram
    · rw [AddrTable.get_set_of_ne _ other, ram]
  · exact get_write_of_ne other

theorem deviceRead_of_plain (plain : m.kindAt a ≠ .device) :
    m.deviceRead a = (m.ram.get a, m) := by
  rw [deviceRead, if_neg plain]

theorem deviceWrite_of_plain (plain : m.kindAt a ≠ .device) :
    m.deviceWrite a v = m.write a v := by
  rw [deviceWrite, if_neg plain]

theorem deviceWrite_same (plain : m.kindAt a ≠ .device) :
    m.deviceWrite a (m.ram.get a) = m := by
  have same : m.ram.set a (m.ram.get a) = m.ram := by
    apply AddrTable.ext
    intro b
    rw [AddrTable.get_set]
    split
    · next here => rw [here]
    · rfl
  rw [deviceWrite_of_plain plain]
  unfold write
  rw [same]
  split <;> rfl

def LowPlain (m : PagedMemory σ) : Prop :=
  ∀ a, (highByte a).toNat < 2 → m.kindAt a ≠ .device

theorem lowPlain_load_blank (a : Addr) (bytes : List UInt8) :
    (load (blank : PagedMemory σ) a bytes).LowPlain := by
  intro x _
  simp [kindAt, load, blank]

theorem kindAt_of_page {a b : Addr} (same : highByte a = highByte b) : m.kindAt a = m.kindAt b := by
  unfold kindAt
  simp only [same]

theorem kindAt_congr {m' : PagedMemory σ} (same : m.pages = m'.pages) (a : Addr) :
    m.kindAt a = m'.kindAt a := by
  unfold kindAt
  simp only [same]

theorem LowPlain.of_pages {m' : PagedMemory σ} (h : m.LowPlain) (same : m'.pages = m.pages) :
    m'.LowPlain := by
  intro a low
  rw [kindAt_congr same]
  exact h a low

theorem toNat_highByte (a : Addr) : (highByte a).toNat = a.toNat / 256 := by
  have small := a.toNat_lt
  rw [highByte, UInt16.toNat_toUInt8, UInt16.toNat_shiftRight, Nat.shiftRight_eq_div_pow]
  change a.toNat / 256 % 256 = a.toNat / 256
  omega

theorem highByte_indexed (base : Addr) (index : UInt8) :
    highByte (base + index.toUInt16) = highByte base ∨
      highByte (base + index.toUInt16) = highByte (base + 0xFF) := by
  have hb := base.toNat_lt
  have hi := index.toNat_lt
  simp only [← UInt8.toNat_inj, toNat_highByte, UInt16.toNat_add, UInt8.toNat_toUInt16]
  change _ ∨ _ = (base.toNat + 255) % 65536 / 256
  omega

theorem toNat_pageStart {i : Nat} (small : i < 256) :
    (UInt16.ofNat i <<< 8).toNat = i * 256 := by
  rw [UInt16.toNat_shiftLeft, toNat_ofNat16 (by omega)]
  change i <<< 8 % 65536 = i * 256
  rw [Nat.shiftLeft_eq]
  omega

theorem firstDevice_le (device : m.kindAt a = .device) : m.firstDevice ≤ a := by
  have inside : (highByte a).toNat < 256 := (highByte a).toNat_lt
  have found : m.pages[(highByte a).toNat]? = some .device := by
    rw [Vector.getElem?_eq_getElem inside]
    exact congrArg some device
  unfold firstDevice
  cases first : (List.range 256).find? fun i => m.pages[i]? == some .device with
  | none =>
    have none := List.find?_eq_none.mp first (highByte a).toNat (List.mem_range.mpr inside)
    simp [found] at none
  | some i =>
    have small : i < 256 := List.mem_range.mp (List.mem_of_find?_eq_some first)
    have least : i ≤ (highByte a).toNat := by
      apply Nat.le_of_not_lt
      intro before
      obtain ⟨_, rest⟩ := List.find?_eq_some_iff_getElem.mp first
      obtain ⟨j, hj, at_j, earlier⟩ := rest
      rw [List.getElem_range] at at_j
      subst at_j
      have not := earlier (highByte a).toNat before
      simp [found] at not
    have page := toNat_highByte a
    rw [UInt16.le_iff_toNat_le]
    change (UInt16.ofNat i <<< 8).toNat ≤ a.toNat
    rw [toNat_pageStart small]
    omega

theorem deviceFrom_eq (m : PagedMemory σ) : GuestMemory.deviceFrom m = m.firstDevice := by
  unfold GuestMemory.deviceFrom
  exact Std.min_self

theorem deviceFrom_congr {m' : PagedMemory σ} (same : m.pages = m'.pages) :
    GuestMemory.deviceFrom m = GuestMemory.deviceFrom m' := by
  simp only [deviceFrom_eq, firstDevice, same]

end PagedMemory

namespace CodeBus

variable {σ : Type}

def Fits (b : CodeBus (PagedMemory σ)) : Prop :=
  b.deviceFrom = GuestMemory.deviceFrom b.memory

variable {b : CodeBus (PagedMemory σ)}

/-- Below the threshold no access reaches a device, so every load is a device read. -/
theorem load_eq (fits : b.Fits) (a : Addr) :
    b.load a = ((b.memory.deviceRead a).1, { b with memory := (b.memory.deviceRead a).2 }) := by
  obtain ⟨memory, blocks, deviceFrom⟩ := b
  unfold Fits at fits
  dsimp only at fits
  subst fits
  simp only [load]
  split
  · rfl
  · next below =>
    have plain : memory.kindAt a ≠ .device := by
      intro device
      rw [PagedMemory.deviceFrom_eq] at below
      exact below (PagedMemory.firstDevice_le device)
    rw [PagedMemory.deviceRead_of_plain plain]
    rfl

theorem put_eq (fits : b.Fits) (a : Addr) (v : UInt8) :
    b.put a v = { b with memory := b.memory.deviceWrite a v } := by
  obtain ⟨memory, blocks, deviceFrom⟩ := b
  unfold Fits at fits
  dsimp only at fits
  subst fits
  simp only [put]
  split
  · rfl
  · next below =>
    have plain : memory.kindAt a ≠ .device := by
      intro device
      rw [PagedMemory.deviceFrom_eq] at below
      exact below (PagedMemory.firstDevice_le device)
    rw [PagedMemory.deviceWrite_of_plain plain]
    rfl

theorem Fits.of_pages {c : CodeBus (PagedMemory σ)} (fits : b.Fits)
    (threshold : c.deviceFrom = b.deviceFrom) (pages : c.memory.pages = b.memory.pages) :
    c.Fits := by
  unfold Fits at *
  rw [threshold, fits]
  exact PagedMemory.deviceFrom_congr pages.symm

end CodeBus

end Mos6502
