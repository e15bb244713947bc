/-
# `vmem_region.hpp`: a mapping and its background worker

A region with its four ways of paying for page faults, its owner's calls and, under the
adaptive policy, the thread that touches pages ahead of what the allocator has consumed.
The worker's loop is cut into its loads, stores and writes, and the calls of the owner into
theirs, so that a run is any interleaving of the two in a sequentially consistent memory.

The branch that is modelled is the POSIX one; a build either has `MADV_POPULATE_WRITE` or
touches the pages in a loop, and both are here.  What the kernel answers is a parameter: it
need not populate the pages that it is asked to, and it may refuse to unmap.
-/
import MemoryAllocator.GuardedMachine
import MemoryAllocator.OsMemory

namespace Memlab

/-! ## The region -/

/-- When the page-fault cost is paid. -/
inductive PrefaultPolicy where
  | lazy
  | eagerTouch
  | mapPopulate
  | adaptive
  deriving DecidableEq, Repr

/-- How the kernel answers: the address that `mmap` returns for a length, if it does; whether
`mlock` is granted; how many pages it populates of the last one of the requests for ranges of
pages that it has had; and whether `munmap` of a range succeeds. -/
structure Kernel where
  mmap : ℕ → Option ℕ
  mlock : Bool
  populated : List (ℕ × ℕ) → ℕ
  munmap : ℕ → ℕ → Bool

/-- What a build fixes: the page size, a power of two, and whether `MADV_POPULATE_WRITE` is
there; and the kernel that it runs on. -/
structure Build where
  pageBits : ℕ
  populateWrite : Bool
  kernel : Kernel

/-- `page_size()`. -/
def Build.pageSize (b : Build) : ℕ := 2 ^ b.pageBits

theorem Build.pageSize_pos (b : Build) : 0 < b.pageSize := Nat.two_pow_pos b.pageBits

/-- `kWatermarkPages`: pages ahead of the consumed bytes to touch. -/
def kWatermarkPages : ℕ := 64

/-- `round_up_to_page`: `(bytes + ps - 1) & ~(ps - 1)`. -/
def roundUpToPage (b : Build) (bytes : ℕ) : ℕ := Memory.alignUp bytes b.pageSize

/-- The members of a `VmemRegion`, its thread apart. -/
structure VmemRegion where
  base : ℕ
  size : ℕ
  policy : PrefaultPolicy
  locked : Bool
  prefaulted : ℕ
  hwmBytes : ℕ
  stopBg : Bool
  deriving DecidableEq, Repr

/-- The objects after a move construction from an object without a thread: the new one, and
the one moved from. -/
def VmemRegion.exchange (o : VmemRegion) : VmemRegion × VmemRegion :=
  ({ o with stopBg := false }, { o with base := 0, size := 0, locked := false })

/-- The addresses that `for (off = 0; off < len; off += page_sz) p[off] = 0` writes. -/
def pageTouches (b : Build) (p len : ℕ) : List ℕ :=
  (List.range ((len + b.pageSize - 1) / b.pageSize)).map (fun i => p + i * b.pageSize)

theorem mem_pageTouches {b : Build} {p len a : ℕ} :
    a ∈ pageTouches b p len ↔ ∃ i, i * b.pageSize < len ∧ a = p + i * b.pageSize := by
  have hpos := b.pageSize_pos
  have hiff : ∀ i, i < (len + b.pageSize - 1) / b.pageSize ↔ i * b.pageSize < len := by
    intro i
    rw [← Nat.succ_le_iff, Nat.le_div_iff_mul_le hpos, Nat.succ_mul]
    omega
  unfold pageTouches
  rw [List.mem_map]
  constructor
  · rintro ⟨i, hi, rfl⟩
    exact ⟨i, (hiff i).mp (List.mem_range.mp hi), rfl⟩
  · rintro ⟨i, hi, rfl⟩
    exact ⟨i, List.mem_range.mpr ((hiff i).mpr hi), rfl⟩

/-! ## The worker and the owner -/

/-- Where `adaptive_worker` stands: the load of `_stop_bg`, the load of `_hwm_bytes`, the
comparison of the target with `_size`, the assignment of `_size` to it, the comparison of
`prefaulted_off` with the target, the read of `_base`, a turn of the touching loop, the
store of `_prefaulted`, the sleep, and the end. -/
inductive Worker where
  | test
  | load
  | clamp (target : ℕ)
  | cut
  | compare (target : ℕ)
  | locate (target : ℕ)
  | touch (p target off : ℕ)
  | publish (target : ℕ)
  | sleep
  | done
  deriving DecidableEq, Repr

/-- Where the owner stands: between calls, in the destructor, or in a move construction
from the region; and after one, with the object moved from or without it. -/
inductive Owner where
  | idle
  | join
  | release
  | gone
  | clearBase
  | clearSize
  | clearLocked
  | stopMoved
  | joinMoved
  | moved (old : Bool)
  deriving DecidableEq, Repr

/-- A region, its worker (`none`: the thread is not joinable) with its local
`prefaulted_off`, the owner's progress, the objects that move constructions have made and
that still exist, the mapping, the ranges that the kernel was asked to populate, the
addresses written to, those whose write faulted, and the calls of `munmap`. -/
structure RegionSystem where
  region : VmemRegion
  worker : Option Worker
  offset : ℕ
  owner : Owner
  moved : List VmemRegion
  mapped : Option (ℕ × ℕ)
  requests : List (ℕ × ℕ)
  touched : List ℕ
  segv : List ℕ
  unmaps : List (ℕ × ℕ)
  deriving DecidableEq, Repr

namespace RegionSystem

/-- An address of the mapping. -/
def isMapped (s : RegionSystem) (a : ℕ) : Bool :=
  match s.mapped with
  | some (base, size) => base ≤ a && a < base + size
  | none => false

/-- A write to an address. -/
def write (s : RegionSystem) (a : ℕ) : RegionSystem :=
  if s.isMapped a then
    { s with touched := a :: s.touched }
  else
    { s with segv := a :: s.segv }

/-- `madvise(p, len, MADV_POPULATE_WRITE)`: an error at an address inside a page, else the
kernel populates the pages of the range one after the other, as far as it gets. -/
def populate (b : Build) (s : RegionSystem) (p len : ℕ) : RegionSystem :=
  let requests := (p, len) :: s.requests
  let populated :=
    if p % b.pageSize = 0 then (pageTouches b p len).take (b.kernel.populated requests) else []
  { s with
    requests := requests
    touched := populated ++ s.touched }

/-- `unmap_region`. -/
def unmapRegion (b : Build) (s : RegionSystem) (p sz : ℕ) : RegionSystem :=
  if p = 0 ∨ sz = 0 then
    s
  else
    { s with
      mapped := if s.mapped = some (p, sz) ∧ b.kernel.munmap p sz = true then none else s.mapped
      unmaps := (p, sz) :: s.unmaps }

/-- The constructor. -/
def construct (b : Build) (bytes : ℕ) (policy : PrefaultPolicy) (lock : Bool) :
    Except String RegionSystem :=
  let size := roundUpToPage b bytes
  match b.kernel.mmap size with
  | none => .error ("VmemRegion: mmap failed: " ++ toString size ++ " bytes")
  | some base =>
    .ok
      { region :=
          { base := base
            size := size
            policy := policy
            locked := lock && b.kernel.mlock
            prefaulted :=
              match policy with
              | .lazy | .adaptive => 0
              | .mapPopulate | .eagerTouch => size
            hwmBytes := 0
            stopBg := false }
        worker := if policy = .adaptive then some .test else none
        offset := 0
        owner := .idle
        moved := []
        mapped := some (base, size)
        -- `MAP_POPULATE` is a request, and `mmap` does not fail if it is not met
        requests := if policy = .mapPopulate then [(base, size)] else []
        touched :=
          match policy with
          | .lazy | .adaptive => []
          | .mapPopulate => (pageTouches b base size).take (b.kernel.populated [(base, size)])
          | .eagerTouch => pageTouches b base size
        segv := []
        unmaps := [] }

/-- The next step of the worker. -/
def workerStep (b : Build) (s : RegionSystem) : Option RegionSystem :=
  match s.worker with
  | none | some .done => none
  | some .test => some { s with worker := some (if s.region.stopBg then .done else .load) }
  | some .load =>
    let target := Word64.add s.region.hwmBytes (Word64.mul kWatermarkPages b.pageSize)
    some { s with worker := some (.clamp target) }
  | some (.clamp target) =>
    some { s with worker := some (if target > s.region.size then .cut else .compare target) }
  | some .cut => some { s with worker := some (.compare s.region.size) }
  | some (.compare target) =>
    some { s with worker := some (if s.offset < target then .locate target else .sleep) }
  | some (.locate target) =>
    let p := s.region.base + s.offset
    if b.populateWrite then
      some { s.populate b p (target - s.offset) with worker := some (.publish target) }
    else
      some { s with worker := some (.touch p target 0) }
  | some (.touch p target off) =>
    if off < target - s.offset then
      some { s.write (p + off) with worker := some (.touch p target (off + b.pageSize)) }
    else
      some { s with worker := some (.publish target) }
  | some (.publish target) =>
    some { s with
      offset := target
      region := { s.region with prefaulted := target }
      worker := some .sleep }
  | some .sleep => some { s with worker := some .test }

/-- The next step of the call in which the owner is. -/
def ownerStep (b : Build) (s : RegionSystem) : Option RegionSystem :=
  match s.owner with
  | .join =>
    if s.worker = some .done then some { s with worker := none, owner := .release } else none
  | .release =>
    -- `munlock` if the region is locked, then `munmap`
    some { s.unmapRegion b s.region.base s.region.size with
      region := { s.region with locked := false }
      owner := .gone }
  | .clearBase => some { s with region := { s.region with base := 0 }, owner := .clearSize }
  | .clearSize => some { s with region := { s.region with size := 0 }, owner := .clearLocked }
  | .clearLocked =>
    some { s with
      region := { s.region with locked := false }
      owner := if s.worker.isSome then .stopMoved else .moved true }
  | .stopMoved => some { s with region := { s.region with stopBg := true }, owner := .joinMoved }
  | .joinMoved =>
    if s.worker = some .done then some { s with worker := none, owner := .moved true } else none
  | .idle | .gone | .moved _ => none

/-- What may happen next: a call of the owner on the region, a step of the call in progress,
a step of the worker, and after a move a call on one of the objects that moves have made. -/
inductive Action where
  | advanceHwm (consumed : ℕ)
  | destroy
  | move
  | owner
  | worker
  | advanceMoved (i consumed : ℕ)
  | moveMoved (i : ℕ)
  | destroyMoved (i : ℕ)
  deriving DecidableEq, Repr

/-- One action, if it is possible.  After the first move no object has a thread, and each
call is one action. -/
def exec (b : Build) (s : RegionSystem) : Action → Option RegionSystem
  | .advanceHwm consumed =>
    match s.owner with
    | .idle | .moved true => some { s with region := { s.region with hwmBytes := consumed } }
    | _ => none
  | .destroy =>
    match s.owner with
    | .idle =>
      -- `if (_bg_thread.joinable())`
      if s.worker.isSome then
        some { s with region := { s.region with stopBg := true }, owner := .join }
      else
        some { s with owner := .release }
    | .moved true =>
      some { s.unmapRegion b s.region.base s.region.size with owner := .moved false }
    | _ => none
  | .move =>
    match s.owner with
    | .idle =>
      some { s with moved := s.moved ++ [{ s.region with stopBg := false }], owner := .clearBase }
    | .moved true =>
      some { s with region := s.region.exchange.2, moved := s.moved ++ [s.region.exchange.1] }
    | _ => none
  | .owner => s.ownerStep b
  | .worker => s.workerStep b
  | .advanceMoved i consumed =>
    match s.owner, s.moved[i]? with
    | .moved _, some r => some { s with moved := s.moved.set i { r with hwmBytes := consumed } }
    | _, _ => none
  | .moveMoved i =>
    match s.owner, s.moved[i]? with
    | .moved _, some r => some { s with moved := s.moved.set i r.exchange.2 ++ [r.exchange.1] }
    | _, _ => none
  | .destroyMoved i =>
    match s.owner, s.moved[i]? with
    | .moved _, some r => some { s.unmapRegion b r.base r.size with moved := s.moved.eraseIdx i }
    | _, _ => none

/-- The system as a machine under a contract of its caller. -/
def machine (b : Build) (contract : RegionSystem → Action → Prop) :
    GuardedMachine RegionSystem Action where
  pre := contract
  exec := exec b

end RegionSystem

end Memlab
