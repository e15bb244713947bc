/-
# `SlabCache.hpp`

A slab cache hands out the slots of its slabs.  Every slab threads its free slots on a
list in the slots themselves.  In front of the slabs each thread has a magazine, a
vector of slots that were freed on that thread; the magazine is a `static thread_local`
of the element type, so that all caches of one element type share it.

`Allocate` and `Free` are two atomic steps each: the magazine operation, and, if the
magazine did not serve the call, the section under the cache's lock.  The system below
has any number of caches of one element type, indexed by `ι`, and any number of threads,
and its runs are the interleavings of these steps with writes of the clients and with
threads that end.  The address at which the operating system would map a new slab is
part of the step.
-/
import MemoryAllocator.GuardedMachine
import MemoryAllocator.MemoryUtils
import MemoryAllocator.SlotArray

namespace Memory

/-! ## Element types -/

/-- An element type: its size, its alignment and its default constructor, which writes
nothing but the object that it constructs. -/
structure ElementType where
  sizeofT : ℕ
  alignBits : ℕ
  construct : ℕ → Mem → Mem
  sizeof_lt : sizeofT < 2 ^ 63
  align_lt : alignBits < 63
  frame : ∀ p m x, x < p ∨ p + sizeofT ≤ x → construct p m x = m x

namespace ElementType

variable (T : ElementType)

/-- `slotSize_`. -/
def slotSize : ℕ := Memory.slotSize T.sizeofT (2 ^ T.alignBits)

/-- The default constructor does not write the first word of its slot. -/
def LeavesLink : Prop := ∀ p m x, p ≤ x → x < p + 8 → T.construct p m x = m x

theorem slotSize_ge : max T.sizeofT 8 ≤ T.slotSize := by
  have halign : 2 ^ T.alignBits ≤ 2 ^ 62 :=
    Nat.pow_le_pow_right (by norm_num) (by have := T.align_lt; omega)
  have hsize := T.sizeof_lt
  exact (slotSize_isLeast (by have := T.align_lt; omega) (by omega)).1.2

theorem eight_le_slotSize : 8 ≤ T.slotSize := (le_max_right _ _).trans T.slotSize_ge

theorem sizeofT_le_slotSize : T.sizeofT ≤ T.slotSize := (le_max_left _ _).trans T.slotSize_ge

end ElementType

/-! ## Slabs -/

/-- `Slab<T>`. -/
structure Slab where
  storage : VirtualMemory
  freeList : ℕ
  freeSlots : ℕ
  totalSlots : ℕ
  deriving DecidableEq, Repr

/-- The loop that constructs the objects of a slab. -/
def constructObjects (T : ElementType) (base count : ℕ) (mem : Mem) : Mem :=
  (List.range count).foldl
    (fun mem i => T.construct (Word64.add base (Word64.mul i T.slotSize)) mem) mem

namespace Slab

/-- The constructor: map the storage, thread all slots on the free list, and construct
the objects. -/
def create (T : ElementType) (allocateVirtualMemory : ℕ → ℕ) (count : ℕ) (mem : Mem) :
    Except String (Slab × Mem) :=
  (VirtualMemory.create allocateVirtualMemory (Word64.mul count T.slotSize)).map (fun storage =>
    (⟨storage, storage.ptr, count, count⟩,
      constructObjects T storage.ptr count
        (linkSlots T.slotSize (Word64.sub count 1) storage.ptr mem)))

def contains (slab : Slab) (ptr : ℕ) : Bool :=
  slab.storage.ptr ≤ ptr && ptr < Word64.add slab.storage.ptr slab.storage.size

/-- `AllocateFromSlab`: the slot and the slab.  It reads the link of the first free slot,
which is undefined on an empty list. -/
def allocateFromSlab (slab : Slab) (mem : Mem) : Option (ℕ × Slab) :=
  if slab.freeList = 0 then none
  else some (slab.freeList, { slab with
    freeList := mem.loadPtr slab.freeList
    freeSlots := Word64.sub slab.freeSlots 1 })

end Slab

/-! ## Caches -/

/-- `SlabCache<T>`, without the magazines. -/
structure SlabCache where
  objectsPerSlab : ℕ
  magazineSize : ℕ
  slabs : List Slab
  deriving DecidableEq, Repr

namespace SlabCache

/-- A freshly constructed cache. -/
def create (objectsPerSlab magazineSize : ℕ) : SlabCache := ⟨objectsPerSlab, magazineSize, []⟩

/-- The slabs in front of the first one with a free slot. -/
def fullSlabs (c : SlabCache) : List Slab := c.slabs.takeWhile (fun slab => slab.freeSlots = 0)

/-- The slabs from the first one with a free slot on. -/
def openSlabs (c : SlabCache) : List Slab := c.slabs.dropWhile (fun slab => slab.freeSlots = 0)

theorem openSlabs_cons {c : SlabCache} {slab : Slab} {back : List Slab}
    (h : c.openSlabs = slab :: back) :
    c.slabs = c.fullSlabs ++ slab :: back ∧ slab.freeSlots ≠ 0 := by
  constructor
  · rw [← h]
    exact List.takeWhile_append_dropWhile.symm
  · have hhead := List.head?_dropWhile_not (fun slab : Slab => decide (slab.freeSlots = 0)) c.slabs
    rw [openSlabs] at h
    simpa [h] using hhead

/-- The locked section of `Allocate`: take a slot of the first slab that has one, or of a
new slab. -/
def slowAllocate (c : SlabCache) (T : ElementType) (allocateVirtualMemory : ℕ → ℕ) (mem : Mem) :
    Option (ℕ × SlabCache × Mem) :=
  match c.openSlabs with
  | slab :: back => (slab.allocateFromSlab mem).map (fun r =>
      (r.1, { c with slabs := c.fullSlabs ++ r.2 :: back }, mem))
  | [] =>
    match Slab.create T allocateVirtualMemory c.objectsPerSlab mem with
    | .error _ => none
    | .ok (slab, mem) => (slab.allocateFromSlab mem).map (fun r =>
        (r.1, { c with slabs := c.slabs ++ [r.2] }, mem))

/-- The locked section of `Free`: push the slot onto the list of the first slab that
contains it.  If no slab contains it, nothing happens. -/
def slowFree (c : SlabCache) (ptr : ℕ) (mem : Mem) : SlabCache × Mem :=
  match c.slabs.dropWhile (fun slab => !slab.contains ptr) with
  | slab :: back =>
    ({ c with slabs := c.slabs.takeWhile (fun slab => !slab.contains ptr) ++ { slab with
        freeList := ptr
        freeSlots := Word64.add slab.freeSlots 1 } :: back },
      mem.storePtr ptr slab.freeList)
  | [] => (c, mem)

end SlabCache

/-! ## Caches and threads -/

/-- Where a thread is: outside of any call, or before the locked section of one. -/
inductive Call (ι : Type) where
  | idle
  | allocating (c : ι)
  | freeing (c : ι) (ptr : ℕ)
  deriving DecidableEq

/-- The caches of an element type, the memory, and for each thread its magazine (back of
the vector first; each slot with the cache that it was freed to) and its call.

The last three fields are a record of the run: the live slots, each with the cache that
returned it; those among them that have been passed to a `Free` that is not done; and
the threads that have ended.  No step of the code reads the record or the caches noted in
the magazines. -/
structure SlabSystem (ι : Type) where
  caches : ι → SlabCache
  mem : Mem
  magazine : ℕ → List (ℕ × ι)
  call : ℕ → Call ι
  live : List (ℕ × ι)
  leaving : List ℕ
  ended : List ℕ

/-- The atomic steps. -/
inductive SlabOp (ι : Type) where
  | allocate (t : ℕ) (c : ι)
  | free (t : ℕ) (c : ι) (ptr : ℕ)
  | locked (t : ℕ) (base : ℕ)
  | write (a : ℕ) (v : UInt8)
  | endThread (t : ℕ)

namespace SlabSystem

variable {ι : Type} [DecidableEq ι]

/-- Fresh caches, before any call. -/
def start (caches : ι → SlabCache) (mem : Mem) : SlabSystem ι :=
  ⟨caches, mem, fun _ => [], fun _ => .idle, [], [], []⟩

/-- One step: what `Allocate` returns and to whose caller, if the step ends a call of it,
and the next state. -/
def step (T : ElementType) (s : SlabSystem ι) :
    SlabOp ι → Option (Option (ℕ × ι) × SlabSystem ι)
  | .allocate t c =>
    match s.magazine t with
    | e :: rest => some (some (e.1, c), { s with
        magazine := Function.update s.magazine t rest
        live := (e.1, c) :: s.live })
    | [] => some (none, { s with call := Function.update s.call t (.allocating c) })
  | .free t c ptr =>
    if ptr = 0 then some (none, s)
    else if (s.magazine t).length < (s.caches c).magazineSize then
      some (none, { s with
        magazine := Function.update s.magazine t ((ptr, c) :: s.magazine t)
        live := s.live.erase (ptr, c) })
    else
      some (none, { s with
        call := Function.update s.call t (.freeing c ptr)
        leaving := ptr :: s.leaving })
  | .locked t base =>
    match s.call t with
    | .idle => some (none, s)
    | .allocating c =>
      ((s.caches c).slowAllocate T (fun _ => base) s.mem).map (fun r =>
        (some (r.1, c), { s with
          caches := Function.update s.caches c r.2.1
          mem := r.2.2
          call := Function.update s.call t .idle
          live := (r.1, c) :: s.live }))
    | .freeing c ptr =>
      let r := (s.caches c).slowFree ptr s.mem
      some (none, { s with
        caches := Function.update s.caches c r.1
        mem := r.2
        call := Function.update s.call t .idle
        live := s.live.erase (ptr, c)
        leaving := s.leaving.erase ptr })
  | .write a v => some (none, { s with mem := Function.update s.mem a v })
  | .endThread t => some (none, { s with
      magazine := Function.update s.magazine t []
      ended := t :: s.ended })

/-- The operating system can map a slab of the cache at the address: a page above the
null page, with room for all slots below the last page, and apart from all other slabs.  The
room is that of `objectsPerSlab` slots without wrap-around: where the product wraps, the
constructor maps less than it threads. -/
structure Grants [Fintype ι] (T : ElementType) (s : SlabSystem ι) (c : ι) (base : ℕ) : Prop where
  pos : 0 < base
  page : 4096 ∣ base
  room : base + (s.caches c).objectsPerSlab * T.slotSize + 4096 ≤ 2 ^ 64
  apart : ∀ c', ∀ slab ∈ (s.caches c').slabs,
    base + alignUp ((s.caches c).objectsPerSlab * T.slotSize) 4096 ≤ slab.storage.ptr ∨
      slab.storage.ptr + slab.storage.size ≤ base

instance [Fintype ι] (T : ElementType) (s : SlabSystem ι) (c : ι) (base : ℕ) :
    Decidable (s.Grants T c base) :=
  decidable_of_iff (0 < base ∧ 4096 ∣ base ∧
      base + (s.caches c).objectsPerSlab * T.slotSize + 4096 ≤ 2 ^ 64 ∧
      ∀ c', ∀ slab ∈ (s.caches c').slabs,
        base + alignUp ((s.caches c).objectsPerSlab * T.slotSize) 4096 ≤ slab.storage.ptr ∨
          slab.storage.ptr + slab.storage.size ≤ base)
    ⟨fun h => ⟨h.1, h.2.1, h.2.2.1, h.2.2.2⟩, fun h => ⟨h.pos, h.page, h.room, h.apart⟩⟩

/-- Disciplined use: a thread makes one call at a time and none after its end, every
`Free` gets `nullptr` or a slot that is live, to the cache that returned it, and clients
write into live slots only.  A new slab is mapped where the operating system can. -/
def Disciplined [Fintype ι] (T : ElementType) (s : SlabSystem ι) : SlabOp ι → Prop
  | .allocate t _ => t ∉ s.ended ∧ s.call t = .idle
  | .free t c ptr => t ∉ s.ended ∧ s.call t = .idle ∧
      (ptr = 0 ∨ (ptr, c) ∈ s.live ∧ ptr ∉ s.leaving)
  | .locked t base => s.call t ≠ .idle ∧
      ∀ c, s.call t = .allocating c → (s.caches c).openSlabs = [] → s.Grants T c base
  | .write a _ => ∃ e ∈ s.live, e.1 ≤ a ∧ a < e.1 + T.slotSize
  | .endThread t => t ∉ s.ended ∧ s.call t = .idle

end SlabSystem

/-- The caches of an element type under disciplined use. -/
def slabMachine (T : ElementType) (ι : Type) [DecidableEq ι] [Fintype ι] :
    GuardedMachine (SlabSystem ι) (SlabOp ι) where
  pre := SlabSystem.Disciplined T
  exec := fun s op => (s.step T op).map Prod.snd

instance (T : ElementType) (ι : Type) [DecidableEq ι] [Fintype ι] (s : SlabSystem ι) (op : SlabOp ι) :
    Decidable ((slabMachine T ι).pre s op) :=
  match op with
  | .allocate t _ => inferInstanceAs (Decidable (t ∉ s.ended ∧ s.call t = .idle))
  | .free t c ptr => inferInstanceAs (Decidable (t ∉ s.ended ∧ s.call t = .idle ∧
      (ptr = 0 ∨ (ptr, c) ∈ s.live ∧ ptr ∉ s.leaving)))
  | .locked t base => inferInstanceAs (Decidable (s.call t ≠ .idle ∧
      ∀ c, s.call t = .allocating c → (s.caches c).openSlabs = [] → s.Grants T c base))
  | .write a _ => inferInstanceAs (Decidable (∃ e ∈ s.live, e.1 ≤ a ∧ a < e.1 + T.slotSize))
  | .endThread t => inferInstanceAs (Decidable (t ∉ s.ended ∧ s.call t = .idle))

end Memory
