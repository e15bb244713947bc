/-
# `PoolAllocator.hpp`

A pool of `numSlots` slots of one size, threaded on a free list that lives in the slots
themselves: `Allocate` pops the first free slot and `Free` pushes a slot back.

A session records the slots in the hands of the client and the frees that have not been
answered by an allocation yet, latest first.  The client may write anything into its own
slots, the link words included.  `PoolSession.Inv` says that the free list and the live
slots are together a permutation of the array, and that the free list starts with the
pending frees; `pool_ownership` reads the guarantees out of it.
-/
import MemoryAllocator.GuardedMachine
import MemoryAllocator.MemoryUtils
import MemoryAllocator.SlotArray

namespace Memory

/-! ## The allocator -/

/-- `PoolAllocator<T, Alignment>`, with the memory that it lives in. -/
structure PoolAllocator (sizeofT alignment : ℕ) where
  numSlots : ℕ
  storage : VirtualMemory
  freeList : ℕ
  mem : Mem

namespace PoolAllocator

variable {sizeofT alignment : ℕ}

/-- The constructor: map the storage and thread all slots on the free list. -/
def create (allocateVirtualMemory : ℕ → ℕ) (numSlots : ℕ) (mem : Mem) :
    Except String (PoolAllocator sizeofT alignment) :=
  (VirtualMemory.create allocateVirtualMemory
      (Word64.mul numSlots (slotSize sizeofT alignment))).map (fun storage =>
    { numSlots := numSlots
      storage := storage
      freeList := storage.ptr
      mem := linkSlots (slotSize sizeofT alignment) (Word64.sub numSlots 1) storage.ptr mem })

/-- `Allocate`: the pointer returned (`0` for `nullptr`) and the allocator. -/
def allocate (a : PoolAllocator sizeofT alignment) : ℕ × PoolAllocator sizeofT alignment :=
  if a.freeList = 0 then (0, a)
  else (a.freeList, { a with freeList := a.mem.loadPtr a.freeList })

/-- `Free`. -/
def free (a : PoolAllocator sizeofT alignment) (ptr : ℕ) : PoolAllocator sizeofT alignment :=
  if ptr = 0 then a
  else { a with mem := a.mem.storePtr ptr a.freeList, freeList := ptr }

def getCapacity (a : PoolAllocator sizeofT alignment) : ℕ := a.numSlots

end PoolAllocator

/-! ## Sessions -/

/-- An allocator, the slots in the hands of the client, and the frees that no allocation
has answered yet, latest first. -/
structure PoolSession (sizeofT alignment : ℕ) where
  pool : PoolAllocator sizeofT alignment
  live : List ℕ
  pendingFrees : List ℕ

namespace PoolSession

variable {sizeofT alignment : ℕ}

/-- A session that has just begun. -/
def start (pool : PoolAllocator sizeofT alignment) : PoolSession sizeofT alignment :=
  ⟨pool, [], []⟩

/-- `Allocate`, recording the slot that is returned. -/
def allocate (s : PoolSession sizeofT alignment) : PoolSession sizeofT alignment :=
  let r := s.pool.allocate
  if r.1 = 0 then { s with pool := r.2 }
  else { pool := r.2, live := r.1 :: s.live, pendingFrees := s.pendingFrees.erase r.1 }

/-- `Free`, striking the slot off the record. -/
def free (s : PoolSession sizeofT alignment) (ptr : ℕ) : PoolSession sizeofT alignment :=
  if ptr = 0 then { s with pool := s.pool.free ptr }
  else { pool := s.pool.free ptr, live := s.live.erase ptr, pendingFrees := ptr :: s.pendingFrees }

/-- The client writes a byte. -/
def write (s : PoolSession sizeofT alignment) (a : ℕ) (v : UInt8) : PoolSession sizeofT alignment :=
  { s with pool := { s.pool with mem := Function.update s.pool.mem a v } }

end PoolSession

/-- What the client of a pool does. -/
inductive PoolOp where
  | allocate
  | free (ptr : ℕ)
  | write (a : ℕ) (v : UInt8)

/-- The pool under disciplined use. -/
def poolMachine (sizeofT alignment : ℕ) :
    GuardedMachine (PoolSession sizeofT alignment) PoolOp where
  pre := fun s op => match op with
    | .allocate => True
    | .free ptr => ptr = 0 ∨ ptr ∈ s.live
    | .write a _ => ∃ p ∈ s.live, p ≤ a ∧ a < p + slotSize sizeofT alignment
  exec := fun s op => match op with
    | .allocate => some s.allocate
    | .free ptr => some (s.free ptr)
    | .write a v => some (s.write a v)

instance (sizeofT alignment : ℕ) (s : PoolSession sizeofT alignment) (op : PoolOp) :
    Decidable ((poolMachine sizeofT alignment).pre s op) :=
  match op with
  | .allocate => .isTrue trivial
  | .free ptr => inferInstanceAs (Decidable (ptr = 0 ∨ ptr ∈ s.live))
  | .write a _ => inferInstanceAs
      (Decidable (∃ p ∈ s.live, p ≤ a ∧ a < p + slotSize sizeofT alignment))

/-! ## Slot sizes -/

section SlotSize

variable {sizeofT n : ℕ}

/-- With an alignment of at most a page the slot size does not wrap. -/
theorem poolSlot_isLeast (hn : n ≤ 12) (hsize : sizeofT ≤ 2 ^ 64 - 4096) :
    IsLeast {x | 2 ^ n ∣ x ∧ max sizeofT 8 ≤ x} (slotSize sizeofT (2 ^ n)) := by
  have hpow : 2 ^ n ≤ 2 ^ 12 := Nat.pow_le_pow_right (by norm_num) hn
  exact slotSize_isLeast (by omega) (by omega)

theorem eight_le_poolSlot (hn : n ≤ 12) (hsize : sizeofT ≤ 2 ^ 64 - 4096) :
    8 ≤ slotSize sizeofT (2 ^ n) :=
  (le_max_right _ _).trans (poolSlot_isLeast hn hsize).1.2

end SlotSize

/-! ## The invariant -/

/-- Where the operating system has put the storage of a pool, and how many slots there
are: the slots lie above the null page and below the end of the address space. -/
structure PoolArena (size : ℕ) where
  base : ℕ
  count : ℕ
  size_ge : 8 ≤ size
  base_pos : 0 < base
  count_pos : 0 < count
  below : base + count * size ≤ 2 ^ 64

namespace PoolSession

variable {sizeofT alignment : ℕ}

/-- The free list `l` and the live slots are the array, and the free list starts with the
pending frees. -/
structure Inv (A : PoolArena (slotSize sizeofT alignment)) (s : PoolSession sizeofT alignment)
    (l fresh : List ℕ) : Prop where
  chain : Chain s.pool.mem.loadPtr 0 s.pool.freeList l
  perm : (l ++ s.live).Perm (slots A.base (slotSize sizeofT alignment) A.count)
  lifo : l = s.pendingFrees ++ fresh

variable {A : PoolArena (slotSize sizeofT alignment)} {s : PoolSession sizeofT alignment}
  {l fresh : List ℕ}

theorem Inv.nodup (h : Inv A s l fresh) : (l ++ s.live).Nodup :=
  h.perm.nodup_iff.mpr (nodup_slots (by have := A.size_ge; omega))

theorem Inv.mem_slots_of_free (h : Inv A s l fresh) {p : ℕ} (hp : p ∈ l) :
    p ∈ slots A.base (slotSize sizeofT alignment) A.count :=
  h.perm.mem_iff.mp (List.mem_append_left _ hp)

theorem Inv.mem_slots_of_live (h : Inv A s l fresh) {p : ℕ} (hp : p ∈ s.live) :
    p ∈ slots A.base (slotSize sizeofT alignment) A.count :=
  h.perm.mem_iff.mp (List.mem_append_right _ hp)

/-- A live slot overlaps no free one. -/
theorem Inv.apart (h : Inv A s l fresh) {p q : ℕ} (hp : p ∈ s.live) (hq : q ∈ l) :
    q + slotSize sizeofT alignment ≤ p ∨ p + slotSize sizeofT alignment ≤ q := by
  have hne : q ≠ p := fun heq => (List.nodup_append.mp h.nodup).2.2 q hq p hp heq
  exact slots_apart (h.mem_slots_of_free hq) (h.mem_slots_of_live hp) hne

/-- What `Allocate` returns: the first free slot, or null if there is none. -/
theorem Inv.allocate_fst (h : Inv A s l fresh) : s.pool.allocate.1 = l.headD 0 := by
  cases l with
  | nil =>
    have hnull : s.pool.freeList = 0 := h.chain
    rw [PoolAllocator.allocate, if_pos hnull]
    rfl
  | cons p l =>
    obtain ⟨hhead, hne, -⟩ := h.chain
    rw [PoolAllocator.allocate, if_neg (hhead ▸ hne), hhead]
    rfl

theorem Inv.allocate (h : Inv A s l fresh) : ∃ l' fresh', Inv A s.allocate l' fresh' := by
  cases l with
  | nil =>
    have hnull : s.pool.freeList = 0 := h.chain
    refine ⟨[], fresh, ?_⟩
    have hsame : s.allocate = s := by
      simp [PoolSession.allocate, PoolAllocator.allocate, hnull]
    rw [hsame]
    exact h
  | cons p l =>
    obtain ⟨hhead, hne, htail⟩ := h.chain
    have hstep : s.allocate = ⟨{ s.pool with freeList := s.pool.mem.loadPtr p }, p :: s.live,
        s.pendingFrees.erase p⟩ := by
      simp [PoolSession.allocate, PoolAllocator.allocate, hhead, hne]
    have hperm : (l ++ p :: s.live).Perm (p :: l ++ s.live) := List.perm_middle
    rw [hstep]
    -- the slot comes off the pending frees if there are any, else off the fresh slots
    cases hpend : s.pendingFrees with
    | nil => exact ⟨l, l, htail, hperm.trans h.perm, by simp⟩
    | cons q rest =>
      have hlifo := h.lifo
      rw [hpend, List.cons_append] at hlifo
      obtain ⟨rfl, rfl⟩ := List.cons.inj hlifo
      exact ⟨_, fresh, htail, hperm.trans h.perm, by simp⟩

theorem Inv.free (h : Inv A s l fresh) {ptr : ℕ} (hlive : ptr ∈ s.live) :
    Inv A (s.free ptr) (ptr :: l) fresh := by
  have hslot := slot_inside (h.mem_slots_of_live hlive)
  have hge := A.size_ge
  have hpos := A.base_pos
  have hbelow := A.below
  have hne : ptr ≠ 0 := by omega
  have hstep : s.free ptr = ⟨{ s.pool with
      mem := s.pool.mem.storePtr ptr s.pool.freeList, freeList := ptr },
      s.live.erase ptr, ptr :: s.pendingFrees⟩ := by
    simp [PoolSession.free, PoolAllocator.free, hne]
  rw [hstep]
  refine ⟨?_, ?_, by rw [h.lifo]; rfl⟩
  · refine h.chain.storePtr hne (h.chain.head_lt (fun a ha => ?_)) (fun b hb => ?_)
    · have := slot_inside (h.mem_slots_of_free ha)
      omega
    · have := h.apart hlive hb
      omega
  · have hmove : (l ++ ptr :: s.live.erase ptr).Perm (l ++ s.live) :=
      (List.perm_cons_erase hlive).symm.append_left l
    exact (List.perm_middle.symm.trans hmove).trans h.perm

theorem Inv.write (h : Inv A s l fresh) {p a : ℕ} (hp : p ∈ s.live) (ha : p ≤ a)
    (ha' : a < p + slotSize sizeofT alignment) (v : UInt8) : Inv A (s.write a v) l fresh := by
  refine ⟨h.chain.mem_congr (fun q hq x hx hx' => ?_), h.perm, h.lifo⟩
  have hge := A.size_ge
  have happ := h.apart hp hq
  exact Function.update_of_ne (by omega) _ _

/-- Every legal session keeps the invariant. -/
theorem inv_of_legal (h : Inv A s l fresh) {ops : List PoolOp}
    (hlegal : (poolMachine sizeofT alignment).Legal s ops) :
    ∃ t, (poolMachine sizeofT alignment).run s ops = some t ∧ ∃ l fresh, Inv A t l fresh := by
  refine hlegal.invariant (I := fun t => ∃ l fresh, Inv A t l fresh) ?_ ⟨l, fresh, h⟩
  rintro t (_ | ptr | ⟨a, v⟩) ⟨l, fresh, ht⟩ hpre
  · exact ⟨_, rfl, ht.allocate⟩
  · rcases hpre with rfl | hlive
    · exact ⟨_, rfl, l, fresh, by simpa [PoolSession.free, PoolAllocator.free] using ht⟩
    · exact ⟨_, rfl, _, fresh, ht.free hlive⟩
  · obtain ⟨p, hp, ha, ha'⟩ := hpre
    exact ⟨_, rfl, l, fresh, ht.write hp ha ha' v⟩

end PoolSession

/-! ## Ownership -/

section Ownership

variable {sizeofT n numSlots base : ℕ}

/-- The storage that the operating system has granted is a pool arena. -/
def PoolArena.ofGrant (hn : n ≤ 12) (hsize : sizeofT ≤ 2 ^ 64 - 4096) (hslots : 1 ≤ numSlots)
    (hfit : numSlots * slotSize sizeofT (2 ^ n) ≤ 2 ^ 64 - 4096) (hbase : 0 < base)
    (hend : base + alignUp (numSlots * slotSize sizeofT (2 ^ n)) 4096 ≤ 2 ^ 64) :
    PoolArena (slotSize sizeofT (2 ^ n)) where
  base := base
  count := numSlots
  size_ge := eight_le_poolSlot hn hsize
  base_pos := hbase
  count_pos := hslots
  below := by
    have hle := le_alignUp_page hfit
    omega

/-- The constructor threads all slots on the free list. -/
theorem PoolSession.inv_create {allocateVirtualMemory : ℕ → ℕ} (mem : Mem) (hn : n ≤ 12)
    (hsize : sizeofT ≤ 2 ^ 64 - 4096) (hslots : 1 ≤ numSlots)
    (hfit : numSlots * slotSize sizeofT (2 ^ n) ≤ 2 ^ 64 - 4096) (hbase : 0 < base)
    (hend : base + alignUp (numSlots * slotSize sizeofT (2 ^ n)) 4096 ≤ 2 ^ 64)
    (hos : allocateVirtualMemory (alignUp (numSlots * slotSize sizeofT (2 ^ n)) 4096) = base) :
    ∃ pool : PoolAllocator sizeofT (2 ^ n),
      PoolAllocator.create allocateVirtualMemory numSlots mem = .ok pool ∧
      pool.storage = ⟨base, alignUp (numSlots * slotSize sizeofT (2 ^ n)) 4096⟩ ∧
      PoolSession.Inv (PoolArena.ofGrant hn hsize hslots hfit hbase hend) (.start pool)
        (slots base (slotSize sizeofT (2 ^ n)) numSlots)
        (slots base (slotSize sizeofT (2 ^ n)) numSlots) := by
  have hmul : Word64.mul numSlots (slotSize sizeofT (2 ^ n))
      = numSlots * slotSize sizeofT (2 ^ n) := Word64.mul_of_lt (by omega)
  have hpred : Word64.sub numSlots 1 = numSlots - 1 := Word64.sub_of_le hslots
  have hbelow := (PoolArena.ofGrant hn hsize hslots hfit hbase hend).below
  refine ⟨⟨numSlots, ⟨base, _⟩, base, linkSlots (slotSize sizeofT (2 ^ n)) (numSlots - 1) base mem⟩,
    ?_, rfl, ?_, ?_, rfl⟩
  · rw [PoolAllocator.create, VirtualMemory.create, hmul, hos, if_neg hbase.ne', hpred]
    rfl
  · have hcount : numSlots - 1 + 1 = numSlots := by omega
    have hchain := chain_linkSlots (numSlots - 1) mem
      (eight_le_poolSlot hn hsize) hbase (by rw [hcount]; exact hbelow)
    rwa [hcount] at hchain
  · rw [PoolSession.start, List.append_nil]
    exact .refl _

/-- **Pool ownership.**  When the operating system grants the storage, then after every
disciplined session the free list and the live slots partition the array without
duplicates, live slots lie aligned and disjoint inside the storage, and the next
`Allocate` returns the first slot of the free list, which is the latest pending free if
there is one: a slot that was not live and overlaps no live one, or null exactly if all
slots are live. -/
theorem pool_ownership (sizeofT n numSlots base : ℕ) (allocateVirtualMemory : ℕ → ℕ) (mem : Mem)
    (hn : n ≤ 12) (hsize : sizeofT ≤ 2 ^ 64 - 4096) (hslots : 1 ≤ numSlots)
    (hfit : numSlots * slotSize sizeofT (2 ^ n) ≤ 2 ^ 64 - 4096)
    (hos : allocateVirtualMemory (alignUp (numSlots * slotSize sizeofT (2 ^ n)) 4096) = base)
    (hbase : 0 < base) (hpage : 4096 ∣ base)
    (hend : base + alignUp (numSlots * slotSize sizeofT (2 ^ n)) 4096 ≤ 2 ^ 64) :
    ∃ pool : PoolAllocator sizeofT (2 ^ n),
      PoolAllocator.create allocateVirtualMemory numSlots mem = .ok pool ∧
      ∀ ops, (poolMachine sizeofT (2 ^ n)).Legal (.start pool) ops →
      ∃ s l, (poolMachine sizeofT (2 ^ n)).run (.start pool) ops = some s ∧
        Chain s.pool.mem.loadPtr 0 s.pool.freeList l ∧
        (l ++ s.live).Nodup ∧
        (∀ p, p ∈ l ++ s.live ↔ ∃ i < numSlots, p = base + i * slotSize sizeofT (2 ^ n)) ∧
        (∀ p ∈ l ++ s.live, 2 ^ n ∣ p ∧ Set.Ico p (p + slotSize sizeofT (2 ^ n)) ⊆
          Set.Ico pool.storage.ptr (pool.storage.ptr + pool.storage.size)) ∧
        (l ++ s.live).Pairwise (fun p q => Disjoint (Set.Ico p (p + slotSize sizeofT (2 ^ n)))
          (Set.Ico q (q + slotSize sizeofT (2 ^ n)))) ∧
        s.pool.allocate.1 = l.headD 0 ∧
        (s.pool.allocate.1 = 0 ↔ s.live.length = numSlots) ∧
        (s.pool.allocate.1 ≠ 0 → s.pool.allocate.1 ∈ l ∧ s.pool.allocate.1 ∉ s.live) ∧
        (∀ p rest, s.pendingFrees = p :: rest → s.pool.allocate.1 = p) ∧
        s.pendingFrees <+: l := by
  obtain ⟨pool, hcreate, hstorage, hinit⟩ :=
    PoolSession.inv_create mem hn hsize hslots hfit hbase hend hos
  refine ⟨pool, hcreate, fun ops hlegal => ?_⟩
  obtain ⟨s, hrun, l, fresh, h⟩ := PoolSession.inv_of_legal hinit hlegal
  have hfst := h.allocate_fst
  have hge := eight_le_poolSlot hn hsize
  have hle := le_alignUp_page hfit
  have hslot : ∀ p ∈ l ++ s.live, p ∈ slots base (slotSize sizeofT (2 ^ n)) numSlots :=
    fun p hp => h.perm.mem_iff.mp hp
  refine ⟨s, l, hrun, h.chain, h.nodup, fun p => h.perm.mem_iff.trans mem_slots, ?_, ?_, hfst,
    ?_, ?_, ?_, ?_⟩
  · intro p hp
    have hin := slot_inside (hslot p hp)
    refine ⟨dvd_slot ((Nat.pow_dvd_pow 2 hn).trans hpage) (poolSlot_isLeast hn hsize).1.1
      (hslot p hp), ?_⟩
    rw [hstorage]
    exact Set.Ico_subset_Ico hin.1 (hin.2.trans (Nat.add_le_add_left hle base))
  · refine h.nodup.imp_of_mem (fun {p q} hp hq hne => ?_)
    have happ := slots_apart (hslot p hp) (hslot q hq) hne
    rw [Set.disjoint_left]
    intro x hx hx'
    rw [Set.mem_Ico] at hx hx'
    omega
  · -- the free list is empty exactly if the live slots are all slots
    have hlen := h.perm.length_eq
    rw [List.length_append, length_slots] at hlen
    have hlen' : l.length + s.live.length = numSlots := hlen
    rw [hfst]
    cases l with
    | nil =>
      rw [List.length_nil, zero_add] at hlen'
      exact ⟨fun _ => hlen', fun _ => rfl⟩
    | cons p l =>
      have hne := h.chain.ne_null (List.mem_cons_self ..)
      rw [List.length_cons] at hlen'
      exact ⟨fun h0 => absurd h0 hne, fun hfull => by omega⟩
  · intro hne
    cases l with
    | nil => exact absurd hfst hne
    | cons p l =>
      rw [hfst]
      refine ⟨List.mem_cons_self .., fun hmem => ?_⟩
      exact (List.nodup_append.mp h.nodup).2.2 p (List.mem_cons_self ..) p hmem rfl
  · intro p rest hpend
    rw [hfst, h.lifo, hpend]
    rfl
  · exact ⟨fresh, h.lifo.symm⟩

/-- The unit test `ReuseTest` with two slots: the slots come back latest free first. -/
def reuseTest : List PoolOp := [.allocate, .allocate, .write 4100 255, .free 4096, .free 4104]

theorem reuseTest_ownership :
    ∃ pool : PoolAllocator 8 (2 ^ 3), PoolAllocator.create (fun _ => 4096) 2 (fun _ => 0) = .ok pool ∧
      ∃ s l, (poolMachine 8 (2 ^ 3)).run (.start pool) reuseTest = some s ∧
        s.pendingFrees = [4104, 4096] ∧ s.pool.allocate.1 = 4104 ∧ (l ++ s.live).Nodup ∧
        ∀ p, p ∈ l ++ s.live ↔ ∃ i < 2, p = 4096 + i * 8 := by
  have hslot : slotSize 8 (2 ^ 3) = 8 := by decide +kernel
  have hpages : alignUp (2 * slotSize 8 (2 ^ 3)) 4096 = 4096 := by decide +kernel
  obtain ⟨pool, hpool, hall⟩ := pool_ownership 8 3 2 4096 (fun _ => 4096) (fun _ => 0) (by norm_num)
    (by norm_num) (by norm_num) (by rw [hslot]; norm_num) rfl (by norm_num) (by norm_num)
    (by rw [hpages]; norm_num)
  have hcreate : (PoolAllocator.create (fun _ => 4096) 2 (fun _ => 0) : Except String
      (PoolAllocator 8 (2 ^ 3))) = .ok ⟨2, ⟨4096, 4096⟩, 4096, linkSlots 8 1 4096 (fun _ => 0)⟩ := by
    have hmul : Word64.mul 2 8 = 16 := by decide +kernel
    have hpred : Word64.sub 2 1 = 1 := by decide +kernel
    have hround : alignUp 16 4096 = 4096 := by decide +kernel
    rw [PoolAllocator.create, VirtualMemory.create, hslot, hmul, hpred, hround]
    rfl
  rw [hcreate] at hpool
  obtain rfl := Except.ok.inj hpool
  refine ⟨_, hcreate, ?_⟩
  obtain ⟨s, l, hrun, -, hnodup, hmem, -, -, -, -, -, hlifo, -⟩ := hall reuseTest (by decide +kernel)
  have hpend : ((poolMachine 8 (2 ^ 3)).run (.start
      ⟨2, ⟨4096, 4096⟩, 4096, linkSlots 8 1 4096 (fun _ => 0)⟩) reuseTest).map
      PoolSession.pendingFrees = some [4104, 4096] := by decide +kernel
  rw [hrun] at hpend
  have hpend : s.pendingFrees = [4104, 4096] := Option.some.inj hpend
  exact ⟨s, l, hrun, hpend, hlifo _ _ hpend, hnodup, by simpa only [hslot] using hmem⟩

end Ownership

end Memory
