/-
# `BuddyAllocator.hpp`

The buddy allocator as the source computes it: the free lists are singly linked through
the first eight bytes of the free blocks themselves, splitting recurses upwards through
the orders, and coalescing finds the buddy by exclusive or on the offset and the merged
block by masking the address.

Conventions.  Addresses are natural numbers below `2 ^ 64`, `0` is `nullptr`; the vector
`freeLists_` is a function from orders to list heads.  `std::log2` and `std::ceil` are
taken as exact, so that `GetOrder` is an integer function (`getOrder_eq_ceil_logb`).
The one loop that a corrupted list could keep busy for ever, the search of
`RemoveNodeIfPresent`, carries a bound on its rounds and returns `none` past it.
-/
import MemoryAllocator.ByteMemory
import MemoryAllocator.MemoryUtils

namespace Memory

/-- The allocator with the memory it works on. -/
structure BuddyAllocator where
  storage : VirtualMemory
  minBlockSize : ℕ
  maxOrder : ℕ
  freeLists : ℕ → ℕ
  mem : Mem

namespace BuddyAllocator

variable (b : BuddyAllocator)

/-! ## List surgery -/

/-- `PushNode`: link a block in front of a free list. -/
def pushNode (order ptr : ℕ) : BuddyAllocator :=
  { b with
    mem := b.mem.storePtr ptr (b.freeLists order)
    freeLists := Function.update b.freeLists order ptr }

/-- `PopNode`: take the first block off a free list. -/
def popNode (order : ℕ) : ℕ × BuddyAllocator :=
  let node := b.freeLists order
  (node, { b with freeLists := Function.update b.freeLists order (b.mem.loadPtr node) })

/-- What a `Node**` of the search points to: the head of a free list, or the `next` field
of a node. -/
inductive Cursor where
  | head (order : ℕ)
  | next (node : ℕ)

/-- `*curr`. -/
def deref : Cursor → ℕ
  | .head order => b.freeLists order
  | .next node => b.mem.loadPtr node

/-- `*curr = ptr`. -/
def assign (ptr : ℕ) : Cursor → BuddyAllocator
  | .head order => { b with freeLists := Function.update b.freeLists order ptr }
  | .next node => { b with mem := b.mem.storePtr node ptr }

/-- The search loop of `RemoveNodeIfPresent`, for at most the given number of rounds. -/
def removeLoop (target : ℕ) : ℕ → Cursor → Option (Bool × BuddyAllocator)
  | 0, _ => none
  | rounds + 1, curr =>
    let node := b.deref curr
    if node = 0 then some (false, b)
    else if node = target then some (true, b.assign (b.mem.loadPtr node) curr)
    else removeLoop target rounds (.next node)

/-- `RemoveNodeIfPresent`.  A list of disjoint blocks has at most `2 ^ maxOrder` nodes. -/
def removeNodeIfPresent (order target : ℕ) : Option (Bool × BuddyAllocator) :=
  b.removeLoop target (2 ^ b.maxOrder + 1) (.head order)

/-! ## Orders -/

/-- `GetOrder`: the exact value of `ceil(log2(size / minBlockSize))`. -/
def getOrder (size : ℕ) : ℕ :=
  if size ≤ b.minBlockSize then 0
  else Nat.clog 2 ((size + b.minBlockSize - 1) / b.minBlockSize)

def blockSizeForRequest (size : ℕ) : ℕ := Word64.shl b.minBlockSize (b.getOrder size)

/-- `OffsetOf`: the distance of a pointer from the base of the arena. -/
def offsetOf (ptr : ℕ) : ℕ := Word64.sub ptr b.storage.ptr

/-! ## Allocation -/

/-- `AllocateInternal`, by recursion on the number of orders from `order` up. -/
def allocateFrom : ℕ → ℕ → ℕ × BuddyAllocator
  | 0, _ => (0, b)
  | orders + 1, order =>
    if order > b.maxOrder then (0, b)
    else if b.freeLists order ≠ 0 then b.popNode order
    else
      let r := allocateFrom orders (order + 1)
      let block := r.1
      let b' := r.2
      if block ≠ 0 then
        let blockSize := Word64.shl b'.minBlockSize order
        let buddy := Word64.add block blockSize
        (block, b'.pushNode order buddy)
      else (0, b')

def allocateInternal (order : ℕ) : ℕ × BuddyAllocator :=
  b.allocateFrom (b.maxOrder + 1 - order) order

def allocate (size : ℕ) : ℕ × BuddyAllocator :=
  let order := b.getOrder size
  if order > b.maxOrder then (0, b) else b.allocateInternal order

/-! ## Release -/

/-- `FreeInternal`, by recursion on the number of orders above `order`. -/
def freeFrom (b : BuddyAllocator) : ℕ → ℕ → ℕ → Option BuddyAllocator
  | 0, ptr, _ => some (b.pushNode b.maxOrder ptr)
  | orders + 1, ptr, order =>
    if order ≥ b.maxOrder then some (b.pushNode b.maxOrder ptr)
    else
      let blockSize := Word64.shl b.minBlockSize order
      let offset := Word64.sub ptr b.storage.ptr
      let buddyOffset := offset ^^^ blockSize
      let buddy := Word64.add b.storage.ptr buddyOffset
      match b.removeNodeIfPresent order buddy with
      | none => none
      | some (true, b') =>
        let merged := ptr &&& Word64.not blockSize
        freeFrom b' orders merged (order + 1)
      | some (false, b') => some (b'.pushNode order ptr)

def freeInternal (ptr order : ℕ) : Option BuddyAllocator :=
  b.freeFrom (b.maxOrder - order) ptr order

def free (ptr size : ℕ) : Option BuddyAllocator :=
  if ptr = 0 then some b else b.freeInternal ptr (b.getOrder size)

/-! ## Construction -/

/-- The constructor: reserve the arena and make all of it one free block of the highest
order. -/
def create (allocateVirtualMemory : ℕ → ℕ) (totalSize minBlockSize : ℕ) (mem : Mem) :
    Except String BuddyAllocator :=
  (VirtualMemory.create allocateVirtualMemory totalSize).map (fun storage =>
    let maxOrder := Nat.log 2 (totalSize / minBlockSize)
    let b : BuddyAllocator := ⟨storage, minBlockSize, maxOrder, fun _ => 0, mem⟩
    b.pushNode maxOrder storage.ptr)

/-! ## Unlinking -/

variable {b}

/-- Unlinking a node changes no parameter of the allocator. -/
theorem removeLoop_frame {target rounds : ℕ} {curr : Cursor} {found : Bool}
    {b' : BuddyAllocator} (h : b.removeLoop target rounds curr = some (found, b')) :
    b'.storage = b.storage ∧ b'.minBlockSize = b.minBlockSize ∧ b'.maxOrder = b.maxOrder := by
  induction rounds generalizing curr with
  | zero => simp [removeLoop] at h
  | succ rounds ih =>
    rw [removeLoop] at h
    split_ifs at h with hnull htarget
    · obtain ⟨-, rfl⟩ := Prod.mk.inj (Option.some.inj h)
      exact ⟨rfl, rfl, rfl⟩
    · obtain ⟨-, rfl⟩ := Prod.mk.inj (Option.some.inj h)
      cases curr <;> exact ⟨rfl, rfl, rfl⟩
    · exact ih h

/-! ## Orders and sizes -/

/-- **The order of a request** is the least one whose blocks hold it. -/
theorem getOrder_le_iff (hmin : 0 < b.minBlockSize) {size k : ℕ} :
    b.getOrder size ≤ k ↔ size ≤ b.minBlockSize * 2 ^ k := by
  have hone : 1 ≤ 2 ^ k := Nat.one_le_two_pow
  rw [getOrder]
  split_ifs with h
  · simp only [zero_le, true_iff]
    exact h.trans (Nat.le_mul_of_pos_right _ (by omega))
  · rw [Nat.clog_le_iff_le_pow (by norm_num), ← Nat.lt_add_one_iff, Nat.div_lt_iff_lt_mul hmin,
      add_mul, mul_comm _ b.minBlockSize]
    omega

/-- The order of a request depends on the smallest block size only. -/
theorem getOrder_congr {b' : BuddyAllocator} (h : b.minBlockSize = b'.minBlockSize) (size : ℕ) :
    b.getOrder size = b'.getOrder size := by
  rw [getOrder, getOrder, h]

/-- `getOrder` is the ceiling of the binary logarithm that the source asks the
floating-point library for. -/
theorem getOrder_eq_ceil_logb (hmin : 0 < b.minBlockSize) {size : ℕ}
    (hsize : b.minBlockSize < size) :
    b.getOrder size = ⌈Real.logb 2 (size / b.minBlockSize)⌉₊ := by
  have hminR : (0 : ℝ) < b.minBlockSize := by exact_mod_cast hmin
  have hsizeR : (0 : ℝ) < size := by exact_mod_cast (hmin.trans hsize)
  apply eq_of_forall_ge_iff
  intro k
  rw [getOrder_le_iff hmin, Nat.ceil_le,
    Real.logb_le_iff_le_rpow (by norm_num) (div_pos hsizeR hminR), Real.rpow_natCast,
    div_le_iff₀ hminR, mul_comm]
  exact_mod_cast Iff.rfl

/-- A block size is a request of its own order. -/
theorem getOrder_mul_two_pow (hmin : 0 < b.minBlockSize) (k : ℕ) :
    b.getOrder (b.minBlockSize * 2 ^ k) = k := by
  apply eq_of_forall_ge_iff
  intro j
  rw [getOrder_le_iff hmin]
  exact ⟨fun h => (Nat.pow_le_pow_iff_right (by norm_num)).mp (Nat.le_of_mul_le_mul_left h hmin),
    fun h => Nat.mul_le_mul_left _ (Nat.pow_le_pow_right (by norm_num) h)⟩

end BuddyAllocator

end Memory
