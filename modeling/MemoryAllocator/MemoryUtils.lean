/-
# `MemoryUtils.hpp` and `VirtualMemory.hpp`

The alignment helpers and the owner of an operating-system mapping, on 64-bit words.
`alignUp` is the source's mask expression with its wrap-around; `alignUp_isLeast` says
what it is for: the least multiple of the alignment that is not below the argument,
whenever the sum does not wrap.
-/
import MemoryAllocator.Word64

namespace Memory

/-! ## Alignment -/

/-- `AlignUp`: `(size + alignment - 1) & ~(alignment - 1)`. -/
def alignUp (size alignment : ℕ) : ℕ :=
  Word64.sub (Word64.add size alignment) 1 &&& Word64.not (Word64.sub alignment 1)

/-- `AlignPtr`: `AlignUp` on an address. -/
def alignPtr (ptr alignment : ℕ) : ℕ := alignUp ptr alignment

theorem alignUp_eq (size : ℕ) {n : ℕ} (hn : n < 64) (h : size + 2 ^ n ≤ 2 ^ 64) :
    alignUp size (2 ^ n) = (size + 2 ^ n - 1) / 2 ^ n * 2 ^ n := by
  have hpos : 0 < 2 ^ n := by positivity
  have hlt : 2 ^ n < 2 ^ 64 := Nat.pow_lt_pow_right (by norm_num) hn
  have hsum : Word64.sub (Word64.add size (2 ^ n)) 1 = size + 2 ^ n - 1 := by
    rw [Word64.sub, Word64.add]
    split <;> omega
  rw [alignUp, hsum, Word64.sub_of_le (by omega), Word64.land_not_low (by omega) hn.le]

/-- **`AlignUp` rounds up to the next multiple.** -/
theorem alignUp_isLeast {size n : ℕ} (hn : n < 64) (h : size + 2 ^ n ≤ 2 ^ 64) :
    IsLeast {x | 2 ^ n ∣ x ∧ size ≤ x} (alignUp size (2 ^ n)) := by
  have hpos : 0 < 2 ^ n := by positivity
  have hdiv := Nat.div_add_mod (size + 2 ^ n - 1) (2 ^ n)
  have hmod := Nat.mod_lt (size + 2 ^ n - 1) hpos
  rw [alignUp_eq size hn h]
  refine ⟨⟨Dvd.intro_left _ rfl, ?_⟩, ?_⟩
  · rw [mul_comm] at hdiv
    omega
  · rintro x ⟨⟨q, rfl⟩, hx⟩
    rw [mul_comm (2 ^ n) q]
    apply Nat.mul_le_mul_right
    rw [← Nat.lt_succ_iff, Nat.div_lt_iff_lt_mul hpos, Nat.succ_mul, mul_comm q]
    omega

theorem le_alignUp {size n : ℕ} (hn : n < 64) (h : size + 2 ^ n ≤ 2 ^ 64) :
    size ≤ alignUp size (2 ^ n) :=
  (alignUp_isLeast hn h).1.2

/-- **Past the last multiple of the alignment the sum wraps**, and `AlignUp` gives `0`. -/
theorem alignUp_of_wrap {size n : ℕ} (hn : n < 64) (hsize : size < 2 ^ 64)
    (h : 2 ^ 64 < size + 2 ^ n) : alignUp size (2 ^ n) = 0 := by
  have hlt : 2 ^ n < 2 ^ 64 := Nat.pow_lt_pow_right (by norm_num) hn
  have hsum : Word64.sub (Word64.add size (2 ^ n)) 1 = size + 2 ^ n - 2 ^ 64 - 1 := by
    rw [Word64.sub, Word64.add]
    split <;> omega
  rw [alignUp, hsum, Word64.sub_of_le (by omega), Word64.land_not_low (by omega) hn.le,
    Nat.div_eq_of_lt (by omega), Nat.zero_mul]

/-- Rounding up to whole pages. -/
theorem le_alignUp_page {size : ℕ} (h : size ≤ 2 ^ 64 - 4096) : size ≤ alignUp size 4096 :=
  le_alignUp (n := 12) (by norm_num) (by omega)

theorem alignUp_page_lt {size : ℕ} (h : size ≤ 2 ^ 64 - 4096) :
    alignUp size 4096 < size + 4096 := by
  have heq := alignUp_eq size (n := 12) (by norm_num) (by omega)
  have hle := Nat.div_mul_le_self (size + 2 ^ 12 - 1) (2 ^ 12)
  rw [show 4096 = 2 ^ 12 by norm_num, heq]
  omega

/-! ## Slot sizes -/

/-- `SlotSize` of the pool and `slotSize_` of the slab cache: room for an element and for
a link, rounded up to the alignment. -/
def slotSize (sizeofT alignment : ℕ) : ℕ :=
  alignUp (if sizeofT > 8 then sizeofT else 8) alignment

theorem slotSize_isLeast {sizeofT n : ℕ} (hn : n < 64) (h : max sizeofT 8 + 2 ^ n ≤ 2 ^ 64) :
    IsLeast {x | 2 ^ n ∣ x ∧ max sizeofT 8 ≤ x} (slotSize sizeofT (2 ^ n)) := by
  have hmax : (if sizeofT > 8 then sizeofT else 8) = max sizeofT 8 := by
    split_ifs <;> omega
  rw [slotSize, hmax]
  exact alignUp_isLeast hn h

/-! ## Operating-system memory -/

/-- A mapping owned through RAII: its address and its length in bytes. -/
structure VirtualMemory where
  ptr : ℕ
  size : ℕ
  deriving DecidableEq, Repr

/-- The constructor: the length is rounded up to whole pages, the operating system
(`AllocateVirtualMemory`, a parameter) is asked for it, and a null answer throws. -/
def VirtualMemory.create (allocateVirtualMemory : ℕ → ℕ) (size : ℕ) :
    Except String VirtualMemory :=
  let size' := alignUp size 4096
  let ptr := allocateVirtualMemory size'
  if ptr = 0 then
    .error "Failed to allocate virtual memory from the OS."
  else
    .ok ⟨ptr, size'⟩

end Memory
