/-
# The linking loop of the constructors

The constructors of `PoolAllocator` and of `Slab` thread their slots in the same loop,
`for (size_t i = 0; i < count - 1; ++i)`, on a storage of `count * slotSize` bytes.  Both
the bound of the loop and the size of the storage are taken modulo `2 ^ 64`.

The loop is followed round by round, with the addresses that it stores to.  It stays
inside the storage exactly if there is a slot and the bytes of all slots, rounded up to
whole pages, are less than `2 ^ 64` (`LinkLoop.threads_iff`): without a slot, `count - 1`
is the largest word, and with too many, the storage holds only what is left of the product.
-/
import MemoryAllocator.PoolAllocator
import MemoryAllocator.SlabConstruction

namespace Memory

/-! ## The loop -/

/-- The variables of the loop, the memory, and the addresses that have been stored to. -/
structure LinkLoop where
  i : ℕ
  current : ℕ
  mem : Mem
  written : List ℕ

namespace LinkLoop

/-- In front of the loop. -/
def start (base : ℕ) (mem : Mem) : LinkLoop := ⟨0, base, mem, []⟩

/-- The condition of the loop. -/
def continues (count : ℕ) (s : LinkLoop) : Bool := s.i < Word64.sub count 1

/-- A round of the loop: store the address of the next slot, and go there. -/
def round (slotSize : ℕ) (s : LinkLoop) : LinkLoop :=
  let mem := s.mem.storePtr s.current (Word64.add s.current slotSize)
  { i := Word64.add s.i 1
    current := mem.loadPtr s.current
    mem := mem
    written := s.written ++ [s.current] }

/-- The statement behind the loop, `current->next = nullptr`. -/
def finish (s : LinkLoop) : LinkLoop :=
  { s with mem := s.mem.storePtr s.current 0, written := s.written ++ [s.current] }

/-- The loop ends after `k` rounds. -/
def EndsAfter (slotSize count : ℕ) (s : LinkLoop) (k : ℕ) : Prop :=
  (∀ j < k, ((round slotSize)^[j] s).continues count = true) ∧
    ((round slotSize)^[k] s).continues count = false

/-- **The construction of a free list** of `count` slots stays inside the storage: the loop
ends after at most `count` rounds, every pointer is stored into the storage, and the list
has `count` nodes. -/
def Threads (slotSize count : ℕ) (storage : VirtualMemory) (mem : Mem) : Prop :=
  ∃ k ≤ count, EndsAfter slotSize count (start storage.ptr mem) k ∧
    (∀ a ∈ ((round slotSize)^[k] (start storage.ptr mem)).finish.written,
      storage.ptr ≤ a ∧ a + 8 ≤ storage.ptr + storage.size) ∧
    ∃ l, Chain ((round slotSize)^[k] (start storage.ptr mem)).finish.mem.loadPtr 0 storage.ptr l ∧
      l.length = count

variable {slotSize count base k : ℕ} {mem : Mem}

/-- The next slot, modulo `2 ^ 64`. -/
theorem round_current (s : LinkLoop) :
    (s.round slotSize).current = (s.current + slotSize) % 2 ^ 64 := by
  have hadd : Word64.add s.current slotSize = (s.current + slotSize) % 2 ^ 64 := by
    rw [Word64.add]
  have hlt : Word64.add s.current slotSize < 2 ^ 64 := by
    rw [hadd]
    exact Nat.mod_lt _ (by norm_num)
  rw [← hadd]
  exact Mem.loadPtr_storePtr s.mem s.current hlt

/-- **After `k` rounds**, the loop is at slot `k` and has stored to all slots before it. -/
theorem iterate_start (hbase : base < 2 ^ 64) (hk : k < 2 ^ 64) :
    ((round slotSize)^[k] (start base mem)).i = k ∧
      ((round slotSize)^[k] (start base mem)).current = (base + k * slotSize) % 2 ^ 64 ∧
      ((round slotSize)^[k] (start base mem)).written
        = (List.range k).map (fun j => (base + j * slotSize) % 2 ^ 64) := by
  induction k with
  | zero =>
    refine ⟨rfl, ?_, rfl⟩
    rw [zero_mul, add_zero, Nat.mod_eq_of_lt hbase]
    rfl
  | succ k ih =>
    obtain ⟨hi, hcurrent, hwritten⟩ := ih (by omega)
    rw [Function.iterate_succ_apply']
    refine ⟨?_, ?_, ?_⟩
    · show Word64.add ((round slotSize)^[k] (start base mem)).i 1 = k + 1
      rw [hi, Word64.add_of_lt hk]
    · rw [round_current, hcurrent, Nat.mod_add_mod, Nat.succ_mul, Nat.add_assoc]
    · show ((round slotSize)^[k] (start base mem)).written
        ++ [((round slotSize)^[k] (start base mem)).current] = _
      rw [hwritten, hcurrent, List.range_succ, List.map_append]
      rfl

/-- All addresses that are stored to. -/
theorem mem_written (hbase : base < 2 ^ 64) (hk : k < 2 ^ 64) {a : ℕ} :
    a ∈ ((round slotSize)^[k] (start base mem)).finish.written ↔
      ∃ j ≤ k, a = (base + j * slotSize) % 2 ^ 64 := by
  obtain ⟨-, hcurrent, hwritten⟩ :
      ((round slotSize)^[k] (start base mem)).i = k ∧ _ ∧ _ := iterate_start hbase hk
  have hall : ((round slotSize)^[k] (start base mem)).finish.written
      = (List.range (k + 1)).map (fun j => (base + j * slotSize) % 2 ^ 64) := by
    rw [finish, hwritten, hcurrent, List.range_succ, List.map_append]
    rfl
  rw [hall, List.mem_map]
  simp only [List.mem_range, Nat.lt_succ_iff, eq_comm]

/-- The memory is that of `linkSlots`, which the constructors use. -/
theorem finish_iterate (s : LinkLoop) :
    ((round slotSize)^[k] s).finish.mem = linkSlots slotSize k s.current s.mem := by
  induction k generalizing s with
  | zero => rfl
  | succ k ih =>
    rw [Function.iterate_succ_apply, ih]
    rfl

/-- The loop makes `count - 1` rounds, modulo `2 ^ 64`. -/
theorem endsAfter_iff (hbase : base < 2 ^ 64) (hk : k < 2 ^ 64) :
    EndsAfter slotSize count (start base mem) k ↔ k = Word64.sub count 1 := by
  have hcontinues : ∀ j < 2 ^ 64,
      (((round slotSize)^[j] (start base mem)).continues count = true ↔
        j < Word64.sub count 1) := by
    intro j hj
    rw [continues, (iterate_start hbase hj).1, decide_eq_true_iff]
  have hend : ((round slotSize)^[k] (start base mem)).continues count = false ↔
      ¬ k < Word64.sub count 1 := by
    rw [← hcontinues k hk, Bool.not_eq_true]
  constructor
  · rintro ⟨hbefore, hlast⟩
    apply le_antisymm
    · by_contra hgt
      have hin := hbefore (Word64.sub count 1) (by omega)
      rw [hcontinues _ (by omega)] at hin
      exact lt_irrefl _ hin
    · exact not_lt.mp (hend.mp hlast)
  · rintro rfl
    refine ⟨fun j hj => ?_, hend.mpr (lt_irrefl _)⟩
    rw [hcontinues j (by omega)]
    exact hj

/-! ## When the construction stays inside the storage -/

/-- Whole pages leave room for another page. -/
theorem alignUp_page_le {size : ℕ} (hsize : size < 2 ^ 64) : alignUp size 4096 ≤ 2 ^ 64 - 4096 := by
  rcases Nat.lt_or_ge (2 ^ 64 - 4096) size with hwrap | hfits
  · have hzero : alignUp size 4096 = 0 :=
      alignUp_of_wrap (n := 12) (by norm_num) hsize (by omega)
    omega
  · have heq := alignUp_eq size (n := 12) (by norm_num) (by omega)
    have hle : (size + 2 ^ 12 - 1) / 2 ^ 12 ≤ 2 ^ 52 - 1 := by omega
    rw [show 4096 = 2 ^ 12 by norm_num, heq]
    omega

/-- The storage has room for all slots if the rounded product is less than `2 ^ 64`. -/
theorem threads_of_fits (h8 : 8 ≤ slotSize) (hcount : 1 ≤ count)
    (hfits : count * slotSize ≤ 2 ^ 64 - 4096) (hpos : 0 < base)
    (hend : base + alignUp (Word64.mul count slotSize) 4096 ≤ 2 ^ 64) (mem : Mem) :
    Threads slotSize count ⟨base, alignUp (Word64.mul count slotSize) 4096⟩ mem := by
  have hmul : Word64.mul count slotSize = count * slotSize := Word64.mul_of_lt (by omega)
  have hroom : count * slotSize ≤ alignUp (Word64.mul count slotSize) 4096 := by
    rw [hmul]
    exact le_alignUp_page hfits
  have hle : count * 8 ≤ count * slotSize := Nat.mul_le_mul_left count h8
  have hbase : base < 2 ^ 64 := by omega
  have hbound : Word64.sub count 1 = count - 1 := Word64.sub_of_le hcount
  refine ⟨count - 1, Nat.sub_le count 1, (endsAfter_iff hbase (by omega)).mpr hbound.symm,
    fun a ha => ?_, slots base slotSize count, ?_, length_slots⟩
  · obtain ⟨j, hj, rfl⟩ := (mem_written hbase (by omega)).mp ha
    have hslot : (j + 1) * slotSize ≤ count * slotSize := Nat.mul_le_mul_right slotSize (by omega)
    rw [Nat.succ_mul] at hslot
    rw [Nat.mod_eq_of_lt (by omega)]
    show base ≤ _ ∧ _ ≤ base + alignUp (Word64.mul count slotSize) 4096
    omega
  · rw [finish_iterate]
    exact linkSlots_chain hcount h8 hpos (by omega) mem

/-- **Only then**, as long as the address space has room for the storage and one more slot. -/
theorem fits_of_threads (h8 : 8 ≤ slotSize) (hcount : count < 2 ^ 64) (hbase : base < 2 ^ 64)
    (hroom : alignUp (Word64.mul count slotSize) 4096 + slotSize ≤ 2 ^ 64)
    (h : Threads slotSize count ⟨base, alignUp (Word64.mul count slotSize) 4096⟩ mem) :
    1 ≤ count ∧ count * slotSize ≤ 2 ^ 64 - 4096 := by
  obtain ⟨k, hk, hends, hinside, -⟩ := h
  have hbound := (endsAfter_iff hbase (by omega)).mp hends
  have hcount : 1 ≤ count := by
    -- without a slot, the loop makes `2 ^ 64 - 1` rounds
    by_contra hzero
    obtain rfl : count = 0 := by omega
    have hwrap : Word64.sub 0 1 = 2 ^ 64 - 1 := by
      rw [Word64.sub, if_neg (by norm_num), Nat.zero_add]
    omega
  rw [Word64.sub_of_le hcount] at hbound
  have hslot : ∀ j < count, base ≤ (base + j * slotSize) % 2 ^ 64 ∧
      (base + j * slotSize) % 2 ^ 64 + 8 ≤ base + alignUp (Word64.mul count slotSize) 4096 :=
    fun j hj => hinside _ ((mem_written hbase (by omega)).mpr ⟨j, by omega, rfl⟩)
  refine ⟨hcount, ?_⟩
  by_contra hlarge
  rcases Nat.lt_or_ge (count * slotSize) (2 ^ 64) with hlt | hge
  · -- the product fits, but rounding it up wraps: there is no storage
    have hnone : alignUp (Word64.mul count slotSize) 4096 = 0 := by
      rw [Word64.mul_of_lt hlt]
      exact alignUp_of_wrap (n := 12) (by norm_num) hlt (by omega)
    have hfirst := hslot 0 (by omega)
    rw [hnone] at hfirst
    omega
  · -- the last slot before the product passes the end of the address space
    have hpos : 0 < slotSize := by omega
    have hlast : (2 ^ 64 - 1) / slotSize < count := by
      rw [Nat.div_lt_iff_lt_mul hpos]
      omega
    have hdiv := Nat.div_add_mod (2 ^ 64 - 1) slotSize
    have hmod := Nat.mod_lt (2 ^ 64 - 1) hpos
    rw [Nat.mul_comm] at hdiv
    obtain ⟨hlow, hhigh⟩ := hslot _ hlast
    generalize (2 ^ 64 - 1) / slotSize * slotSize = offset at hdiv hlow hhigh
    rcases Nat.lt_or_ge (base + offset) (2 ^ 64) with hin | hout
    · rw [Nat.mod_eq_of_lt hin] at hhigh
      omega
    · rw [Nat.mod_eq_sub_mod hout, Nat.mod_eq_of_lt (by omega)] at hlow
      omega

end LinkLoop

/-! ## The constructors -/

/-- The operating system grants the storage of an object of `size` bytes, at `base`. -/
structure Grants (allocateVirtualMemory : ℕ → ℕ) (size base : ℕ) : Prop where
  answer : allocateVirtualMemory (alignUp size 4096) = base
  base_pos : 0 < base
  base_lt : base < 2 ^ 64
  end_le : base + alignUp size 4096 ≤ 2 ^ 64

section Constructors

variable {allocateVirtualMemory : ℕ → ℕ} {size base count slotSize : ℕ}

theorem Grants.create_eq (h : Grants allocateVirtualMemory size base) :
    VirtualMemory.create allocateVirtualMemory size = .ok ⟨base, alignUp size 4096⟩ := by
  rw [VirtualMemory.create, h.answer]
  exact if_neg h.base_pos.ne'

/-- The slots fit into the storage that the constructors ask for. -/
def Fits (slotSize count : ℕ) : Prop := 1 ≤ count ∧ count * slotSize ≤ 2 ^ 64 - 4096

/-- What the constructors leave to the linking loop. -/
theorem Grants.threads_iff (h : Grants allocateVirtualMemory (Word64.mul count slotSize) base)
    (h8 : 8 ≤ slotSize) (hcount : count < 2 ^ 64) (mem : Mem) :
    (Fits slotSize count →
      LinkLoop.Threads slotSize count ⟨base, alignUp (Word64.mul count slotSize) 4096⟩ mem) ∧
    (slotSize ≤ 4096 ∨ alignUp (Word64.mul count slotSize) 4096 + slotSize ≤ 2 ^ 64 →
      LinkLoop.Threads slotSize count ⟨base, alignUp (Word64.mul count slotSize) 4096⟩ mem →
        Fits slotSize count) := by
  refine ⟨fun hfits => ?_, fun hroom hthreads => ?_⟩
  · exact LinkLoop.threads_of_fits h8 hfits.1 hfits.2 h.base_pos h.end_le mem
  · have hmul : Word64.mul count slotSize < 2 ^ 64 := by
      rw [Word64.mul]
      exact Nat.mod_lt _ (by norm_num)
    have hpages := LinkLoop.alignUp_page_le hmul
    exact LinkLoop.fits_of_threads h8 hcount h.base_lt (by omega) hthreads

/-- The constructor of a pool, with the memory that the loop leaves. -/
theorem Grants.create_pool {sizeofT alignment : ℕ}
    (h : Grants allocateVirtualMemory (Word64.mul count (Memory.slotSize sizeofT alignment)) base)
    (mem : Mem) :
    PoolAllocator.create allocateVirtualMemory count mem
      = .ok (⟨count, ⟨base, alignUp (Word64.mul count (Memory.slotSize sizeofT alignment)) 4096⟩,
          base, ((LinkLoop.round (Memory.slotSize sizeofT alignment))^[Word64.sub count 1]
            (LinkLoop.start base mem)).finish.mem⟩ : PoolAllocator sizeofT alignment) := by
  rw [PoolAllocator.create, h.create_eq, LinkLoop.finish_iterate]
  rfl

/-- The constructor of a slab: the objects are constructed in the memory that the loop
leaves. -/
theorem Grants.createSized_slab
    (h : Grants allocateVirtualMemory (Word64.mul count slotSize) base) (T : ElementType)
    (mem : Mem) :
    Slab.createSized T allocateVirtualMemory count slotSize mem
      = .ok (⟨⟨base, alignUp (Word64.mul count slotSize) 4096⟩, base, count, count⟩,
          constructSlots T slotSize base count ((LinkLoop.round slotSize)^[Word64.sub count 1]
            (LinkLoop.start base mem)).finish.mem) := by
  rw [Slab.createSized, h.create_eq, LinkLoop.finish_iterate]
  rfl

end Constructors

/-- **When the linking loop stays inside the storage.**  The constructors of `PoolAllocator`
and of `Slab`, with any count, return an object whose free list starts at its storage and
has been threaded by the loop.  If there is a slot, and the exact product of count and slot
size is at most `2 ^ 64 - 4096`, the loop ends in time, stores inside the storage only, and
leaves a list of all slots.  Otherwise it does not, if a slot is at most a page or if the
address space has room for the storage and one more slot. -/
theorem freelist_construction_iff (allocateVirtualMemory : ℕ → ℕ) {count : ℕ}
    (hcount : count < 2 ^ 64) (mem : Mem) :
    (∀ sizeofT n base : ℕ, n < 64 → max sizeofT 8 + 2 ^ n ≤ 2 ^ 64 →
      Grants allocateVirtualMemory (Word64.mul count (slotSize sizeofT (2 ^ n))) base →
      ∃ pool : PoolAllocator sizeofT (2 ^ n),
        PoolAllocator.create allocateVirtualMemory count mem = .ok pool ∧
        pool.freeList = pool.storage.ptr ∧
        pool.mem = ((LinkLoop.round (slotSize sizeofT (2 ^ n)))^[Word64.sub count 1]
          (LinkLoop.start pool.storage.ptr mem)).finish.mem ∧
        (Fits (slotSize sizeofT (2 ^ n)) count →
          LinkLoop.Threads (slotSize sizeofT (2 ^ n)) count pool.storage mem) ∧
        (slotSize sizeofT (2 ^ n) ≤ 4096 ∨
            pool.storage.size + slotSize sizeofT (2 ^ n) ≤ 2 ^ 64 →
          LinkLoop.Threads (slotSize sizeofT (2 ^ n)) count pool.storage mem →
            Fits (slotSize sizeofT (2 ^ n)) count)) ∧
    ∀ (T : ElementType) (slotSize base : ℕ), 8 ≤ slotSize →
      Grants allocateVirtualMemory (Word64.mul count slotSize) base →
      ∃ slab : Slab,
        Slab.createSized T allocateVirtualMemory count slotSize mem
          = .ok (slab, constructSlots T slotSize slab.storage.ptr count
              ((LinkLoop.round slotSize)^[Word64.sub count 1]
                (LinkLoop.start slab.storage.ptr mem)).finish.mem) ∧
        slab.freeList = slab.storage.ptr ∧
        (Fits slotSize count → LinkLoop.Threads slotSize count slab.storage mem) ∧
        (slotSize ≤ 4096 ∨ slab.storage.size + slotSize ≤ 2 ^ 64 →
          LinkLoop.Threads slotSize count slab.storage mem → Fits slotSize count) := by
  refine ⟨fun sizeofT n base hn hsize h => ?_, fun T slotSize base h8 h => ?_⟩
  · have h8 : 8 ≤ slotSize sizeofT (2 ^ n) :=
      (le_max_right _ _).trans (slotSize_isLeast hn hsize).1.2
    exact ⟨_, h.create_pool mem, rfl, rfl, h.threads_iff h8 hcount mem⟩
  · exact ⟨_, h.createSized_slab T mem, rfl, h.threads_iff h8 hcount mem⟩

/-- A pool of two 64-bit integers, and a slab of five widgets, at the same address. -/
theorem smallCounts_inside :
    (∃ pool : PoolAllocator 8 (2 ^ 3),
      PoolAllocator.create (fun _ => 65536) 2 (fun _ => 0) = .ok pool ∧
      pool.storage = ⟨65536, 4096⟩ ∧ LinkLoop.Threads 8 2 pool.storage (fun _ => 0)) ∧
    ∃ slab mem', Slab.createSized widget (fun _ => 65536) 5 8 (fun _ => 0) = .ok (slab, mem') ∧
      LinkLoop.Threads 8 5 slab.storage (fun _ => 0) := by
  have hslot : slotSize 8 (2 ^ 3) = 8 := by decide +kernel
  constructor
  · obtain ⟨pool, hpool, -, -, hthreads, -⟩ := (freelist_construction_iff (fun _ => 65536)
      (by norm_num : 2 < 2 ^ 64) (fun _ => 0)).1 8 3 65536 (by norm_num) (by norm_num)
        ⟨rfl, by norm_num, by norm_num, by decide +kernel⟩
    have hstorage : pool.storage = ⟨65536, 4096⟩ := by
      have hmap := congrArg (fun r => r.toOption.map PoolAllocator.storage) hpool
      have hpages : (PoolAllocator.create (fun _ => 65536) 2 (fun _ => 0) :
          Except String (PoolAllocator 8 (2 ^ 3))).toOption.map PoolAllocator.storage
            = some ⟨65536, 4096⟩ := by decide +kernel
      exact Option.some.inj (hmap.symm.trans hpages)
    rw [hslot] at hthreads
    exact ⟨pool, hpool, hstorage, hthreads ⟨by norm_num, by norm_num⟩⟩
  · obtain ⟨slab, hslab, -, hthreads, -⟩ := (freelist_construction_iff (fun _ => 65536)
      (by norm_num : 5 < 2 ^ 64) (fun _ => 0)).2 widget 8 65536 le_rfl
        ⟨rfl, by norm_num, by norm_num, by decide +kernel⟩
    exact ⟨slab, _, hslab, hthreads ⟨by norm_num, by norm_num⟩⟩

/-- **A pool without slots**, and one of `2 ^ 61 + 1` integers, whose storage is one page,
are not threaded inside their storage. -/
theorem extremeCounts_outside :
    ¬ LinkLoop.Threads 8 0 ⟨65536, 0⟩ (fun _ => 0) ∧
    ¬ LinkLoop.Threads 8 (2 ^ 61 + 1) ⟨65536, 4096⟩ (fun _ => 0) ∧
    ¬ ∀ (allocateVirtualMemory : ℕ → ℕ) (numSlots base : ℕ) (mem : Mem), numSlots < 2 ^ 64 →
      Grants allocateVirtualMemory (Word64.mul numSlots (slotSize 8 (2 ^ 3))) base →
      ∀ pool : PoolAllocator 8 (2 ^ 3),
        PoolAllocator.create allocateVirtualMemory numSlots mem = .ok pool →
        LinkLoop.Threads (slotSize 8 (2 ^ 3)) numSlots pool.storage mem := by
  have hslot : slotSize 8 (2 ^ 3) = 8 := by decide +kernel
  have hnone : alignUp (Word64.mul 0 8) 4096 = 0 := by decide +kernel
  have hpage : alignUp (Word64.mul (2 ^ 61 + 1) 8) 4096 = 4096 := by decide +kernel
  have hzero : ¬ LinkLoop.Threads 8 0 ⟨65536, 0⟩ (fun _ => 0) := by
    intro hthreads
    have hasked : LinkLoop.Threads 8 0 ⟨65536, alignUp (Word64.mul 0 8) 4096⟩ (fun _ => 0) := by
      rw [hnone]
      exact hthreads
    have hfits := LinkLoop.fits_of_threads le_rfl (by norm_num) (by norm_num)
      (by rw [hnone]; norm_num) hasked
    exact absurd hfits.1 (by norm_num)
  refine ⟨hzero, fun hthreads => ?_, fun hclaim => ?_⟩
  · have hasked : LinkLoop.Threads 8 (2 ^ 61 + 1)
        ⟨65536, alignUp (Word64.mul (2 ^ 61 + 1) 8) 4096⟩ (fun _ => 0) := by
      rw [hpage]
      exact hthreads
    have hfits := LinkLoop.fits_of_threads le_rfl (by norm_num) (by norm_num)
      (by rw [hpage]; norm_num) hasked
    exact absurd hfits.2 (by norm_num)
  · have hgrants : Grants (fun _ => 65536) (Word64.mul 0 (slotSize 8 (2 ^ 3))) 65536 :=
      ⟨rfl, by norm_num, by norm_num, by decide +kernel⟩
    have hthreads := hclaim (fun _ => 65536) 0 65536 (fun _ => 0) (by norm_num) hgrants _
      (hgrants.create_pool (fun _ => 0))
    rw [hslot, hnone] at hthreads
    exact hzero hthreads

end Memory
