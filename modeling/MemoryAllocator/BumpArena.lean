/-
# The bump arenas (`LinearArena.hpp`, `StackArena.hpp`)

Both arenas hand out consecutive blocks by advancing an offset; they differ only in
where their bytes come from (a mapping, or a buffer inside the object) and in what
they take as their capacity.  The common step is `bumpAllocate`; each arena keeps its
own `allocate`, as that step at its own base, capacity and offset.

A run is a sequence of `Allocate` and `Reset` calls.  `ArenaRun` records, besides the
arena, the blocks returned since the last `Reset`, latest first; `ArenaRun.Inv` is what
every run keeps, and `bump_arenas_never_overlap` reads it out.
-/
import MemoryAllocator.GuardedMachine
import MemoryAllocator.MemoryUtils

namespace Memory

/-! ## The two arenas -/

/-- The body shared by both `Allocate` functions: the pointer returned (`0` for
`nullptr`) and the new offset. -/
def bumpAllocate (base capacity offset size alignment : ℕ) : ℕ × ℕ :=
  let currentPtr := Word64.add base offset
  let alignedPtr := alignPtr currentPtr alignment
  let newOffset := Word64.add (Word64.sub alignedPtr base) size
  if newOffset > capacity then (0, offset) else (alignedPtr, newOffset)

/-- `LinearArena`: an offset into a mapping. -/
structure LinearArena where
  storage : VirtualMemory
  offset : ℕ

namespace LinearArena

/-- The constructor reserves the memory; the arena starts empty. -/
def create (allocateVirtualMemory : ℕ → ℕ) (totalSize : ℕ) : Except String LinearArena :=
  (VirtualMemory.create allocateVirtualMemory totalSize).map (fun storage => ⟨storage, 0⟩)

def allocate (a : LinearArena) (size alignment : ℕ) : ℕ × LinearArena :=
  let r := bumpAllocate a.storage.ptr a.storage.size a.offset size alignment
  (r.1, { a with offset := r.2 })

def reset (a : LinearArena) : LinearArena := { a with offset := 0 }

def getUsedMemory (a : LinearArena) : ℕ := a.offset

def getCapacity (a : LinearArena) : ℕ := a.storage.size

end LinearArena

/-- `StackArena<Size>`: an offset into a buffer that is part of the object; `buffer` is
its address. -/
structure StackArena (Size : ℕ) where
  buffer : ℕ
  offset : ℕ

namespace StackArena

variable {Size : ℕ}

/-- The constructor, for an object whose buffer is at the given address. -/
def create (buffer : ℕ) : StackArena Size := ⟨buffer, 0⟩

def allocate (a : StackArena Size) (size alignment : ℕ) : ℕ × StackArena Size :=
  let r := bumpAllocate a.buffer Size a.offset size alignment
  (r.1, { a with offset := r.2 })

def reset (a : StackArena Size) : StackArena Size := { a with offset := 0 }

def getUsedMemory (a : StackArena Size) : ℕ := a.offset

def getCapacity (_ : StackArena Size) : ℕ := Size

end StackArena

/-- Either of the two bump arenas. -/
inductive Arena where
  | linear (a : LinearArena)
  | stack {Size : ℕ} (a : StackArena Size)

namespace Arena

/-- The address of the first byte. -/
def base : Arena → ℕ
  | linear a => a.storage.ptr
  | stack a => a.buffer

def getCapacity : Arena → ℕ
  | linear a => a.getCapacity
  | stack a => a.getCapacity

def getUsedMemory : Arena → ℕ
  | linear a => a.getUsedMemory
  | stack a => a.getUsedMemory

def allocate : Arena → ℕ → ℕ → ℕ × Arena
  | linear a, size, alignment => ((a.allocate size alignment).1, linear (a.allocate size alignment).2)
  | stack a, size, alignment => ((a.allocate size alignment).1, stack (a.allocate size alignment).2)

def reset : Arena → Arena
  | linear a => linear a.reset
  | stack a => stack a.reset

@[simp] theorem allocate_base (a : Arena) (size alignment : ℕ) :
    (a.allocate size alignment).2.base = a.base := by
  cases a <;> rfl

@[simp] theorem allocate_getCapacity (a : Arena) (size alignment : ℕ) :
    (a.allocate size alignment).2.getCapacity = a.getCapacity := by
  cases a <;> rfl

@[simp] theorem reset_base (a : Arena) : a.reset.base = a.base := by cases a <;> rfl

@[simp] theorem reset_getCapacity (a : Arena) : a.reset.getCapacity = a.getCapacity := by
  cases a <;> rfl

@[simp] theorem reset_getUsedMemory (a : Arena) : a.reset.getUsedMemory = 0 := by
  cases a <;> rfl

/-- Both `Allocate` functions are the common bump step. -/
theorem allocate_eq_bump (a : Arena) (size alignment : ℕ) :
    ((a.allocate size alignment).1, (a.allocate size alignment).2.getUsedMemory)
      = bumpAllocate a.base a.getCapacity a.getUsedMemory size alignment := by
  cases a <;> rfl

/-- The arena lies below `2 ^ 63` and not at the null address. -/
structure Placed (a : Arena) : Prop where
  base_pos : 0 < a.base
  below : a.base + a.getCapacity ≤ 2 ^ 63

end Arena

/-! ## The bump step -/

/-- **What one bump step does**, when nothing wraps: it places the block at the next
aligned address, or refuses because the block would pass the end. -/
theorem bumpAllocate_eq {base capacity offset size n p : ℕ} (hbase : 0 < base)
    (hbelow : base + capacity ≤ 2 ^ 63) (hoff : offset ≤ capacity) (hsize : size ≤ capacity)
    (hn : n < 64) (hp : IsLeast {x | 2 ^ n ∣ x ∧ base + offset ≤ x} p) :
    bumpAllocate base capacity offset size (2 ^ n)
      = if base + capacity < p + size then (0, offset) else (p, p - base + size) := by
  have hpow : 2 ^ n ≤ 2 ^ 63 := Nat.pow_le_pow_right (by norm_num) (by omega)
  have hcur : Word64.add base offset = base + offset := Word64.add_of_lt (by omega)
  have halign : alignPtr (base + offset) (2 ^ n) = p := by
    rw [alignPtr]
    exact (alignUp_isLeast hn (by omega)).unique hp
  -- the aligned address is at most `2 ^ 63`, a multiple of every permitted alignment
  have hdvd : 2 ^ n ∣ 2 ^ 63 := Nat.pow_dvd_pow 2 (by omega)
  have hple : p ≤ 2 ^ 63 := by
    have hle : base + offset ≤ 2 ^ 63 := by omega
    exact hp.2 (And.intro hdvd hle)
  have hbp : base ≤ p := le_trans (by omega) hp.1.2
  have hnew : Word64.add (Word64.sub p base) size = p - base + size := by
    rw [Word64.sub_of_le hbp, Word64.add_of_lt (by omega)]
  have hiff : p - base + size > capacity ↔ base + capacity < p + size := by omega
  rw [bumpAllocate, hcur, halign, hnew]
  exact if_congr hiff rfl rfl

/-- There is a next aligned address. -/
theorem exists_nextAligned (n a : ℕ) : ∃ p, IsLeast {x | 2 ^ n ∣ x ∧ a ≤ x} p := by
  have hne : ∃ x, 2 ^ n ∣ x ∧ a ≤ x :=
    ⟨2 ^ n * a, dvd_mul_right _ _, Nat.le_mul_of_pos_left a (by positivity)⟩
  classical
  exact ⟨Nat.find hne, Nat.find_spec hne, fun x hx => Nat.find_min' hne hx⟩

/-! ## Runs -/

/-- A block that was handed out: its address, its size and the alignment asked for. -/
structure ArenaBlock where
  ptr : ℕ
  size : ℕ
  alignment : ℕ
  deriving DecidableEq, Repr

/-- The bytes of a block. -/
def ArenaBlock.bytes (b : ArenaBlock) : Set ℕ := Set.Ico b.ptr (b.ptr + b.size)

/-- The calls a client can make. -/
inductive ArenaOp where
  | allocate (size alignment : ℕ)
  | reset

/-- An arena together with the blocks returned since the last `Reset`, latest first. -/
structure ArenaRun where
  arena : Arena
  blocks : List ArenaBlock

namespace ArenaRun

def allocate (s : ArenaRun) (size alignment : ℕ) : ArenaRun :=
  let r := s.arena.allocate size alignment
  { arena := r.2
    blocks := if r.1 = 0 then s.blocks else ⟨r.1, size, alignment⟩ :: s.blocks }

def reset (s : ArenaRun) : ArenaRun := { arena := s.arena.reset, blocks := [] }

/-- The end offset of the last block returned since `Reset`, `0` if there is none. -/
def lastEnd (s : ArenaRun) : ℕ :=
  match s.blocks with
  | [] => 0
  | b :: _ => b.ptr + b.size - s.arena.base

end ArenaRun

/-- The arenas as a machine: `Allocate` is called with a size of at most the capacity and
a power-of-two alignment that fits a `size_t`. -/
def arenaMachine : GuardedMachine ArenaRun ArenaOp where
  pre := fun s op => match op with
    | .allocate size alignment => size ≤ s.arena.getCapacity ∧ ∃ n < 64, alignment = 2 ^ n
    | .reset => True
  exec := fun s op => match op with
    | .allocate size alignment => some (s.allocate size alignment)
    | .reset => some s.reset

instance (s : ArenaRun) (op : ArenaOp) : Decidable (arenaMachine.pre s op) :=
  match op with
  | .allocate size alignment => inferInstanceAs
      (Decidable (size ≤ s.arena.getCapacity ∧ ∃ n < 64, alignment = 2 ^ n))
  | .reset => .isTrue trivial

namespace ArenaRun

/-- The invariant of a run: everything handed out lies in order below the offset. -/
structure Inv (a : Arena) (s : ArenaRun) : Prop where
  base_eq : s.arena.base = a.base
  capacity_eq : s.arena.getCapacity = a.getCapacity
  used_le : s.arena.getUsedMemory ≤ a.getCapacity
  sorted : s.blocks.Pairwise (fun b c => c.ptr + c.size ≤ b.ptr)
  inside : ∀ b ∈ s.blocks, a.base ≤ b.ptr ∧ b.ptr + b.size ≤ a.base + s.arena.getUsedMemory
  aligned : ∀ b ∈ s.blocks, b.alignment ∣ b.ptr
  used_eq : s.arena.getUsedMemory = s.lastEnd

variable {a : Arena} {s : ArenaRun}

/-- A freshly constructed arena. -/
theorem inv_initial (hused : a.getUsedMemory = 0) : Inv a ⟨a, []⟩ where
  base_eq := rfl
  capacity_eq := rfl
  used_le := by simp [hused]
  sorted := .nil
  inside := by simp
  aligned := by simp
  used_eq := hused

theorem Inv.reset (h : Inv a s) : Inv a s.reset where
  base_eq := by simp [ArenaRun.reset, h.base_eq]
  capacity_eq := by simp [ArenaRun.reset, h.capacity_eq]
  used_le := by simp [ArenaRun.reset]
  sorted := .nil
  inside := by simp [ArenaRun.reset]
  aligned := by simp [ArenaRun.reset]
  used_eq := by simp [ArenaRun.reset, lastEnd]

/-- One `Allocate` call: it refuses exactly when the next aligned address plus the size
passes the end, and otherwise returns that address. -/
theorem Inv.allocate_eq (hplaced : a.Placed) (h : Inv a s) {size n p : ℕ}
    (hsize : size ≤ a.getCapacity) (hn : n < 64)
    (hp : IsLeast {x | 2 ^ n ∣ x ∧ a.base + s.arena.getUsedMemory ≤ x} p) :
    ((s.arena.allocate size (2 ^ n)).1, (s.arena.allocate size (2 ^ n)).2.getUsedMemory)
      = if a.base + a.getCapacity < p + size then (0, s.arena.getUsedMemory)
        else (p, p - a.base + size) := by
  rw [Arena.allocate_eq_bump, h.base_eq, h.capacity_eq]
  exact bumpAllocate_eq hplaced.base_pos hplaced.below h.used_le hsize hn hp

/-- A refused call adds no block and leaves the offset. -/
theorem Inv.refuse (h : Inv a s) {size alignment : ℕ}
    (heq : ((s.arena.allocate size alignment).1, (s.arena.allocate size alignment).2.getUsedMemory)
      = (0, s.arena.getUsedMemory)) : Inv a (s.allocate size alignment) := by
  obtain ⟨hnull, hused⟩ := Prod.mk.inj heq
  have hbase := h.base_eq
  have hcap := h.capacity_eq
  refine ⟨by simp [ArenaRun.allocate, hbase], by simp [ArenaRun.allocate, hcap], ?_, ?_, ?_, ?_, ?_⟩
  all_goals simp only [ArenaRun.allocate, hnull, hused, if_true]
  · exact h.used_le
  · exact h.sorted
  · exact h.inside
  · exact h.aligned
  · rw [h.used_eq]
    simp [lastEnd]

/-- A granted call: the new block starts past everything handed out before. -/
theorem Inv.grant (h : Inv a s) (hpos : 0 < a.base) {size alignment p : ℕ}
    (heq : ((s.arena.allocate size alignment).1, (s.arena.allocate size alignment).2.getUsedMemory)
      = (p, p - a.base + size))
    (hle : a.base + s.arena.getUsedMemory ≤ p) (hfit : p + size ≤ a.base + a.getCapacity)
    (hdvd : alignment ∣ p) : Inv a (s.allocate size alignment) := by
  obtain ⟨hptr, hused⟩ := Prod.mk.inj heq
  have hbase := h.base_eq
  have hcap := h.capacity_eq
  have hne : p ≠ 0 := by omega
  refine ⟨by simp [ArenaRun.allocate, hbase], by simp [ArenaRun.allocate, hcap], ?_, ?_, ?_, ?_, ?_⟩
  all_goals simp only [ArenaRun.allocate, hptr, hused, if_neg hne]
  · omega
  · refine List.pairwise_cons.mpr ⟨fun c hc => ?_, h.sorted⟩
    have hc := (h.inside c hc).2
    show c.ptr + c.size ≤ p
    omega
  · rintro b (_ | ⟨_, hb⟩)
    · refine ⟨?_, ?_⟩
      · show a.base ≤ p
        omega
      · show p + size ≤ _
        omega
    · have hb := h.inside b hb
      omega
  · rintro b (_ | ⟨_, hb⟩)
    · exact hdvd
    · exact h.aligned b hb
  · simp only [lastEnd, Arena.allocate_base, hbase]
    omega

theorem Inv.allocate (hplaced : a.Placed) (h : Inv a s) {size n : ℕ}
    (hsize : size ≤ a.getCapacity) (hn : n < 64) : Inv a (s.allocate size (2 ^ n)) := by
  obtain ⟨p, hp⟩ := exists_nextAligned n (a.base + s.arena.getUsedMemory)
  have heq := h.allocate_eq hplaced hsize hn hp
  split_ifs at heq with hfull
  · exact h.refuse heq
  · exact h.grant hplaced.base_pos heq hp.1.2 (not_lt.mp hfull) hp.1.1

/-- The blocks are pairwise disjoint. -/
theorem Inv.disjoint (h : Inv a s) :
    s.blocks.Pairwise (fun b c => Disjoint b.bytes c.bytes) := by
  apply h.sorted.imp
  intro b c hbc
  rw [ArenaBlock.bytes, ArenaBlock.bytes, Set.disjoint_left]
  intro x hx hx'
  rw [Set.mem_Ico] at hx hx'
  omega

/-- The blocks lie inside the arena. -/
theorem Inv.subset (h : Inv a s) {b : ArenaBlock} (hb : b ∈ s.blocks) :
    b.bytes ⊆ Set.Ico a.base (a.base + a.getCapacity) := by
  have hb := h.inside b hb
  have hle := h.used_le
  exact Set.Ico_subset_Ico hb.1 (by omega)

/-- Every legal run keeps the invariant. -/
theorem inv_of_legal (hplaced : a.Placed) (hused : a.getUsedMemory = 0) {ops : List ArenaOp}
    (h : arenaMachine.Legal ⟨a, []⟩ ops) :
    ∃ s, arenaMachine.run ⟨a, []⟩ ops = some s ∧ Inv a s := by
  refine GuardedMachine.Legal.invariant ?_ (inv_initial hused) h
  rintro s (⟨size, alignment⟩ | _) hs hpre
  · obtain ⟨hsize, n, hn, rfl⟩ := hpre
    exact ⟨_, rfl, hs.allocate hplaced (hs.capacity_eq ▸ hsize) hn⟩
  · exact ⟨_, rfl, hs.reset⟩

end ArenaRun

/-! ## Bump arenas never overlap -/

/-- **Every run of a bump arena.**  The blocks returned since the last `Reset` (latest
first in `s.blocks`) are pairwise disjoint, inside the arena, at non-decreasing addresses
and aligned; the used memory is the end of the last block; and a further `Allocate`
refuses exactly when the next aligned address plus the size passes the end, then leaving
the used memory as it is. -/
theorem bump_arenas_never_overlap (a : Arena) (hplaced : a.Placed) (hused : a.getUsedMemory = 0)
    (ops : List ArenaOp) (h : arenaMachine.Legal ⟨a, []⟩ ops) :
    ∃ s, arenaMachine.run ⟨a, []⟩ ops = some s ∧
      s.blocks.Pairwise (fun b c => Disjoint b.bytes c.bytes) ∧
      (∀ b ∈ s.blocks, b.bytes ⊆ Set.Ico a.base (a.base + a.getCapacity)) ∧
      (∀ b ∈ s.blocks, a.base ≤ b.ptr ∧ b.ptr + b.size ≤ a.base + a.getCapacity) ∧
      s.blocks.Pairwise (fun b c => c.ptr ≤ b.ptr) ∧
      (∀ b ∈ s.blocks, b.alignment ∣ b.ptr) ∧
      s.arena.getUsedMemory = s.lastEnd ∧
      ∀ size n p, size ≤ a.getCapacity → n < 64 →
        IsLeast {x | 2 ^ n ∣ x ∧ a.base + s.arena.getUsedMemory ≤ x} p →
        ((s.arena.allocate size (2 ^ n)).1 = 0 ↔ a.base + a.getCapacity < p + size) ∧
        ((s.arena.allocate size (2 ^ n)).1 = 0 →
          (s.arena.allocate size (2 ^ n)).2.getUsedMemory = s.arena.getUsedMemory) := by
  obtain ⟨s, hrun, hs⟩ := ArenaRun.inv_of_legal hplaced hused h
  have hin : ∀ b ∈ s.blocks, a.base ≤ b.ptr ∧ b.ptr + b.size ≤ a.base + a.getCapacity := by
    intro b hb
    have hb := hs.inside b hb
    have hle := hs.used_le
    omega
  refine ⟨s, hrun, hs.disjoint, fun b hb => hs.subset hb, hin, ?_, hs.aligned, hs.used_eq, ?_⟩
  · exact hs.sorted.imp (fun {b c} hbc => by omega)
  · intro size n p hsize hn hp
    have heq := hs.allocate_eq hplaced hsize hn hp
    have hpos := hplaced.base_pos
    have hle := hp.1.2
    split_ifs at heq with hfull
    · obtain ⟨hnull, hkeep⟩ := Prod.mk.inj heq
      exact ⟨by simp [hnull, hfull], fun _ => hkeep⟩
    · obtain ⟨hptr, -⟩ := Prod.mk.inj heq
      refine ⟨⟨fun h0 => absurd (hptr.symm.trans h0) (by omega), fun hc => absurd hc hfull⟩, ?_⟩
      intro h0
      exact absurd (hptr.symm.trans h0) (by omega)

/-- Padding before the second block, a reset, and a last request that is refused. -/
def paddedCalls : List ArenaOp :=
  [.allocate 100 8, .reset, .allocate 1 1, .allocate 3000 64, .allocate 1100 16]

theorem paddedCalls_never_overlap :
    ∃ s, arenaMachine.run ⟨.linear ⟨⟨8192, 4096⟩, 0⟩, []⟩ paddedCalls = some s ∧
      s.blocks = [⟨8256, 3000, 64⟩, ⟨8192, 1, 1⟩] ∧
      s.blocks.Pairwise (fun b c => Disjoint b.bytes c.bytes) ∧
      s.arena.getUsedMemory = s.lastEnd := by
  obtain ⟨s, hrun, hdisj, -, -, -, -, hused, -⟩ := bump_arenas_never_overlap
    (.linear ⟨⟨8192, 4096⟩, 0⟩) ⟨by decide, by decide⟩ rfl paddedCalls (by decide +kernel)
  have hblocks : (arenaMachine.run ⟨.linear ⟨⟨8192, 4096⟩, 0⟩, []⟩ paddedCalls).map ArenaRun.blocks
      = some [⟨8256, 3000, 64⟩, ⟨8192, 1, 1⟩] := by decide +kernel
  rw [hrun] at hblocks
  exact ⟨s, hrun, Option.some.inj hblocks, hdisj, hused⟩

end Memory
