/-
# Bump arenas and requests of any size

`Allocate` compares an offset that it has computed modulo `2 ^ 64` with the capacity, and
nothing else stands between a request and the arena.  This module takes both bump arenas
through requests of every 64-bit size and every power-of-two alignment.

A single guard goes wrong in a single way, `Arena.Wraps`: the distance to the aligned
address plus the size passes `2 ^ 64`, and what is left of it is within the capacity.
`bump_arena_rejects_iff` shows that this is the exact condition, and that without it no
sequence of requests makes two blocks overlap.
-/
import MemoryAllocator.BumpArena

namespace Memory

/-! ## The computed offsets -/

namespace Arena

/-- The bytes of the arena, and the address one past them, are addresses. -/
structure Addressable (a : Arena) : Prop where
  base_pos : 0 < a.base
  below : a.base + a.getCapacity < 2 ^ 64

/-- `alignedPtr` of a call in the present state. -/
def alignedPtr (a : Arena) (alignment : ℕ) : ℕ :=
  alignPtr (Word64.add a.base a.getUsedMemory) alignment

/-- `alignedPtr - base`. -/
def alignedOffset (a : Arena) (alignment : ℕ) : ℕ :=
  Word64.sub (a.alignedPtr alignment) a.base

/-- The sum that the guard looks at has wrapped, to a value within the capacity. -/
def Wraps (a : Arena) (size alignment : ℕ) : Prop :=
  2 ^ 64 ≤ a.alignedOffset alignment + size ∧
    a.alignedOffset alignment + size - 2 ^ 64 ≤ a.getCapacity

instance (a : Arena) (size alignment : ℕ) : Decidable (a.Wraps size alignment) :=
  inferInstanceAs (Decidable (_ ∧ _))

/-- What a call owes its caller: a block that it returns is inside the arena, by exact
arithmetic, and the offset has not gone back. -/
def Fits (a : Arena) (size alignment : ℕ) : Prop :=
  (a.allocate size alignment).1 ≠ 0 →
    a.base ≤ (a.allocate size alignment).1 ∧
      (a.allocate size alignment).1 - a.base + size ≤ a.getCapacity ∧
      a.getUsedMemory ≤ (a.allocate size alignment).2.getUsedMemory

/-- A call in terms of the computed offset. -/
theorem allocate_eq_of_alignedOffset (a : Arena) (size alignment : ℕ) :
    ((a.allocate size alignment).1, (a.allocate size alignment).2.getUsedMemory)
      = if a.getCapacity < Word64.add (a.alignedOffset alignment) size
        then (0, a.getUsedMemory)
        else (a.alignedPtr alignment, Word64.add (a.alignedOffset alignment) size) := by
  rw [allocate_eq_bump]
  rfl

variable {a : Arena} {size n : ℕ}

/-- Where the aligned address is: past the offset and aligned, or null because rounding up
has wrapped, and then the computed offset is past the end. -/
theorem alignedPtr_cases (haddr : a.Addressable) (hused : a.getUsedMemory ≤ a.getCapacity)
    (hn : n < 64) :
    (a.alignedPtr (2 ^ n) = 0 ∧ a.getCapacity < a.alignedOffset (2 ^ n)) ∨
      (a.alignedPtr (2 ^ n) = a.base + a.alignedOffset (2 ^ n) ∧
        a.getUsedMemory ≤ a.alignedOffset (2 ^ n) ∧ 2 ^ n ∣ a.alignedPtr (2 ^ n)) := by
  have hpos := haddr.base_pos
  have hbelow := haddr.below
  have hcur : Word64.add a.base a.getUsedMemory = a.base + a.getUsedMemory :=
    Word64.add_of_lt (by omega)
  have hptr : a.alignedPtr (2 ^ n) = alignUp (a.base + a.getUsedMemory) (2 ^ n) := by
    rw [alignedPtr, hcur, alignPtr]
  by_cases hwrap : a.base + a.getUsedMemory + 2 ^ n ≤ 2 ^ 64
  · right
    obtain ⟨⟨hdvd, hle⟩, -⟩ := alignUp_isLeast hn hwrap
    rw [← hptr] at hdvd hle
    have hoff : a.alignedOffset (2 ^ n) = a.alignedPtr (2 ^ n) - a.base :=
      Word64.sub_of_le (by omega)
    exact ⟨by omega, by omega, hdvd⟩
  · left
    have hnull : a.alignedPtr (2 ^ n) = 0 := by
      rw [hptr]
      exact alignUp_of_wrap hn (by omega) (by omega)
    have hoff : a.alignedOffset (2 ^ n) = 2 ^ 64 - a.base := by
      rw [alignedOffset, hnull, Word64.sub, if_neg (by omega), Nat.zero_add]
    exact ⟨hnull, by omega⟩

theorem alignedOffset_lt (haddr : a.Addressable) (alignment : ℕ) :
    a.alignedOffset alignment < 2 ^ 64 := by
  have hpos := haddr.base_pos
  have hlt : a.alignedPtr alignment < 2 ^ 64 := by
    rw [alignedPtr, alignPtr, alignUp]
    apply lt_of_le_of_lt Nat.and_le_right
    rw [Word64.not]
    omega
  rw [alignedOffset, Word64.sub]
  split_ifs <;> omega

/-- The sum modulo `2 ^ 64`. -/
theorem add_alignedOffset (haddr : a.Addressable) (alignment : ℕ) (hsize : size < 2 ^ 64) :
    Word64.add (a.alignedOffset alignment) size
      = if a.alignedOffset alignment + size < 2 ^ 64 then a.alignedOffset alignment + size
        else a.alignedOffset alignment + size - 2 ^ 64 := by
  have hlt := alignedOffset_lt haddr alignment
  rw [Word64.add]
  split_ifs <;> omega

/-! ## One call -/

/-- **A call whose sum does not wrap** refuses, or grants a block that is inside the arena
and past the offset. -/
theorem allocate_cases_of_not_wraps (haddr : a.Addressable)
    (hused : a.getUsedMemory ≤ a.getCapacity) (hn : n < 64) (hsize : size < 2 ^ 64)
    (hwraps : ¬ a.Wraps size (2 ^ n)) :
    ((a.allocate size (2 ^ n)).1, (a.allocate size (2 ^ n)).2.getUsedMemory)
        = (0, a.getUsedMemory) ∨
      ∃ p, ((a.allocate size (2 ^ n)).1, (a.allocate size (2 ^ n)).2.getUsedMemory)
          = (p, p - a.base + size) ∧
        a.base + a.getUsedMemory ≤ p ∧ p + size ≤ a.base + a.getCapacity ∧ 2 ^ n ∣ p := by
  have hpos := haddr.base_pos
  rw [allocate_eq_of_alignedOffset, add_alignedOffset haddr (2 ^ n) hsize]
  unfold Wraps at hwraps
  split_ifs with hlt hfull hfull
  · exact Or.inl rfl
  · right
    rcases alignedPtr_cases haddr hused hn with ⟨-, hpast⟩ | ⟨hptr, hle, hdvd⟩
    · -- a null address is past the end, so the guard has refused it
      omega
    · have hsub : a.alignedPtr (2 ^ n) - a.base = a.alignedOffset (2 ^ n) := by omega
      exact ⟨a.alignedPtr (2 ^ n), by rw [hsub], by omega, by omega, hdvd⟩
  · exact Or.inl rfl
  · omega

/-- **A call does what it owes exactly if its sum does not wrap.** -/
theorem fits_iff (haddr : a.Addressable) (hused : a.getUsedMemory ≤ a.getCapacity)
    (hn : n < 64) (hsize : size < 2 ^ 64) :
    a.Fits size (2 ^ n) ↔ (a.alignedPtr (2 ^ n) ≠ 0 → ¬ a.Wraps size (2 ^ n)) := by
  have hpos := haddr.base_pos
  have hbelow := haddr.below
  by_cases hwraps : a.Wraps size (2 ^ n)
  · have heq := allocate_eq_of_alignedOffset a size (2 ^ n)
    have hsum := add_alignedOffset haddr (2 ^ n) hsize
    rw [if_neg (by unfold Wraps at hwraps; omega)] at hsum
    rw [hsum, if_neg (by unfold Wraps at hwraps; omega)] at heq
    obtain ⟨hret, -⟩ := Prod.mk.inj heq
    unfold Fits
    rw [hret]
    constructor
    · intro hfits hne
      obtain ⟨hle, hin, -⟩ := hfits hne
      rcases alignedPtr_cases haddr hused hn with ⟨hnull, -⟩ | ⟨hptr, -, -⟩
      · exact absurd hnull hne
      · unfold Wraps at hwraps
        omega
    · intro hcond hne
      exact absurd hwraps (hcond hne)
  · refine ⟨fun _ _ => hwraps, fun _ hne => ?_⟩
    rcases allocate_cases_of_not_wraps haddr hused hn hsize hwraps with heq | ⟨p, heq, hle, hin, -⟩
    · exact absurd (Prod.mk.inj heq).1 hne
    · obtain ⟨hret, hnew⟩ := Prod.mk.inj heq
      rw [hret, hnew]
      omega

/-- Whatever the request, the offset stays within the capacity. -/
theorem getUsedMemory_allocate_le (hused : a.getUsedMemory ≤ a.getCapacity)
    (size alignment : ℕ) : (a.allocate size alignment).2.getUsedMemory ≤ a.getCapacity := by
  have heq := allocate_eq_of_alignedOffset a size alignment
  split_ifs at heq with hfull
  · rw [(Prod.mk.inj heq).2]
    exact hused
  · rw [(Prod.mk.inj heq).2]
    exact not_lt.mp hfull

end Arena

/-! ## Runs -/

/-- The arenas as a machine with requests of every 64-bit size and every power-of-two
alignment. -/
def requestMachine : GuardedMachine ArenaRun ArenaOp where
  pre := fun _ op => match op with
    | .allocate size alignment => size < 2 ^ 64 ∧ ∃ n < 64, alignment = 2 ^ n
    | .reset => True
  exec := arenaMachine.exec

instance (s : ArenaRun) (op : ArenaOp) : Decidable (requestMachine.pre s op) :=
  match op with
  | .allocate size alignment => inferInstanceAs
      (Decidable (size < 2 ^ 64 ∧ ∃ n < 64, alignment = 2 ^ n))
  | .reset => .isTrue trivial

namespace ArenaRun

/-- The sum of this call does not wrap. -/
def NoWrap (s : ArenaRun) : ArenaOp → Prop
  | .allocate size alignment => ¬ s.arena.Wraps size alignment
  | .reset => True

instance (s : ArenaRun) (op : ArenaOp) : Decidable (s.NoWrap op) :=
  match op with
  | .allocate size alignment => inferInstanceAs (Decidable (¬ s.arena.Wraps size alignment))
  | .reset => .isTrue trivial

variable {a : Arena} {s : ArenaRun}

/-- What every run keeps, requests that wrap included. -/
structure Bounded (a : Arena) (s : ArenaRun) : Prop where
  base_eq : s.arena.base = a.base
  capacity_eq : s.arena.getCapacity = a.getCapacity
  used_le : s.arena.getUsedMemory ≤ s.arena.getCapacity

theorem Bounded.addressable (h : Bounded a s) (haddr : a.Addressable) : s.arena.Addressable where
  base_pos := by rw [h.base_eq]; exact haddr.base_pos
  below := by rw [h.base_eq, h.capacity_eq]; exact haddr.below

theorem Bounded.allocate (h : Bounded a s) (size alignment : ℕ) :
    Bounded a (s.allocate size alignment) where
  base_eq := by simp [ArenaRun.allocate, h.base_eq]
  capacity_eq := by simp [ArenaRun.allocate, h.capacity_eq]
  used_le := by
    simp only [ArenaRun.allocate, Arena.allocate_getCapacity]
    exact Arena.getUsedMemory_allocate_le h.used_le size alignment

theorem Bounded.reset (h : Bounded a s) : Bounded a s.reset where
  base_eq := by simp [ArenaRun.reset, h.base_eq]
  capacity_eq := by simp [ArenaRun.reset, h.capacity_eq]
  used_le := by simp [ArenaRun.reset]

theorem Inv.bounded (h : Inv a s) : Bounded a s where
  base_eq := h.base_eq
  capacity_eq := h.capacity_eq
  used_le := by rw [h.capacity_eq]; exact h.used_le

/-- A request that does not wrap keeps the blocks in order. -/
theorem Inv.request (haddr : a.Addressable) (h : Inv a s) {size n : ℕ} (hn : n < 64)
    (hsize : size < 2 ^ 64) (hwraps : ¬ s.arena.Wraps size (2 ^ n)) :
    Inv a (s.allocate size (2 ^ n)) := by
  have hb := h.bounded
  have hcases := Arena.allocate_cases_of_not_wraps (hb.addressable haddr) hb.used_le hn hsize hwraps
  rw [h.base_eq, h.capacity_eq] at hcases
  rcases hcases with heq | ⟨p, heq, hle, hfit, hdvd⟩
  · exact h.refuse heq
  · exact h.grant haddr.base_pos heq hle hfit hdvd

/-- Every run of requests returns, with the offset within the capacity. -/
theorem bounded_of_legal (hused : a.getUsedMemory = 0) {ops : List ArenaOp}
    (h : requestMachine.Legal ⟨a, []⟩ ops) :
    ∃ s, requestMachine.run ⟨a, []⟩ ops = some s ∧ Bounded a s := by
  refine GuardedMachine.Legal.invariant ?_ (inv_initial hused).bounded h
  rintro s (⟨size, alignment⟩ | _) hs -
  · exact ⟨_, rfl, hs.allocate size alignment⟩
  · exact ⟨_, rfl, hs.reset⟩

end ArenaRun

/-! ## Bump arenas and what does not fit -/

/-- **Every run of requests of any size.**  In every state that is reached, a call returns
only blocks inside the arena and does not take the offset back, exactly if the sum that
its guard looks at does not wrap to a value within the capacity (or the aligned address is
itself null).  In every run whose sums do not wrap in this way, the blocks returned since
the last `Reset` are inside the arena and pairwise disjoint. -/
theorem bump_arena_rejects_iff (a : Arena) (haddr : a.Addressable) (hused : a.getUsedMemory = 0)
    (ops : List ArenaOp) (h : requestMachine.Legal ⟨a, []⟩ ops) :
    ∃ s, requestMachine.run ⟨a, []⟩ ops = some s ∧
      (∀ size n, size < 2 ^ 64 → n < 64 →
        (s.arena.Fits size (2 ^ n) ↔
          (s.arena.alignedPtr (2 ^ n) ≠ 0 → ¬ s.arena.Wraps size (2 ^ n)))) ∧
      (requestMachine.EachStep ArenaRun.NoWrap ⟨a, []⟩ ops →
        s.blocks.Pairwise (fun b c => Disjoint b.bytes c.bytes) ∧
        ∀ b ∈ s.blocks, b.bytes ⊆ Set.Ico a.base (a.base + a.getCapacity)) := by
  obtain ⟨s, hrun, hs⟩ := ArenaRun.bounded_of_legal hused h
  refine ⟨s, hrun, ?_, ?_⟩
  · intro size n hsize hn
    exact Arena.fits_iff (hs.addressable haddr) hs.used_le hn hsize
  · intro hwraps
    obtain ⟨t, hrun', ht⟩ : ∃ t, requestMachine.run ⟨a, []⟩ ops = some t ∧ ArenaRun.Inv a t := by
      refine h.invariant_of_eachStep ?_ (ArenaRun.inv_initial hused) hwraps
      rintro s (⟨size, alignment⟩ | _) hs hpre hwrap
      · obtain ⟨hsize, n, hn, rfl⟩ := hpre
        exact ⟨_, rfl, hs.request haddr hn hsize hwrap⟩
      · exact ⟨_, rfl, hs.reset⟩
    obtain rfl := Option.some.inj (hrun.symm.trans hrun')
    exact ⟨ht.disjoint, fun b hb => ht.subset hb⟩

/-- A page at address `65536`. -/
def onePageArena : Arena := .linear ⟨⟨65536, 4096⟩, 0⟩

/-- Small blocks, and a request near `2 ^ 64` that is refused because the wrapped sum is
still past the end. -/
def refusedRequest : List ArenaOp := [.allocate 5000 16, .allocate 100 64, .allocate 8 1]

theorem refusedRequest_rejected :
    ∃ s, requestMachine.run ⟨onePageArena, []⟩ refusedRequest = some s ∧
      s.arena.Fits (2 ^ 64 - 1) (2 ^ 13) ∧
      s.blocks.Pairwise (fun b c => Disjoint b.bytes c.bytes) := by
  obtain ⟨s, hrun, hfits, hblocks⟩ := bump_arena_rejects_iff onePageArena
    ⟨by decide, by decide⟩ rfl refusedRequest (by decide +kernel)
  have hnowrap : requestMachine.EachStep ArenaRun.NoWrap ⟨onePageArena, []⟩
      (refusedRequest ++ [.allocate (2 ^ 64 - 1) (2 ^ 13)]) := by decide +kernel
  refine ⟨s, hrun, ?_, (hblocks (by decide +kernel)).1⟩
  exact (hfits _ 13 (by norm_num) (by norm_num)).mpr (fun _ => hnowrap.last hrun)

/-- Eight bytes, and then a request whose sum wraps to `0`: it is granted, the arena is
empty again, and the next block is the first one. -/
def wrappingRequest : List ArenaOp := [.allocate 8 8, .allocate (2 ^ 64 - 8) 8, .allocate 16 8]

theorem wrappingRequest_overlaps :
    requestMachine.Legal ⟨onePageArena, []⟩ wrappingRequest ∧
      (∃ s, requestMachine.run ⟨onePageArena, []⟩ [.allocate 8 8] = some s ∧
        ¬ s.arena.Fits (2 ^ 64 - 8) 8) ∧
      ∃ s, requestMachine.run ⟨onePageArena, []⟩ wrappingRequest = some s ∧
        ¬ s.blocks.Pairwise (fun b c => Disjoint b.bytes c.bytes) := by
  refine ⟨by decide +kernel, ?_, ?_⟩
  · refine ⟨ArenaRun.allocate ⟨onePageArena, []⟩ 8 8, rfl, fun hfits => ?_⟩
    obtain ⟨-, hin, -⟩ := hfits (by decide +kernel)
    exact absurd hin (by decide +kernel)
  · have hblocks : (requestMachine.run ⟨onePageArena, []⟩ wrappingRequest).map ArenaRun.blocks
        = some [⟨65536, 16, 8⟩, ⟨65544, 2 ^ 64 - 8, 8⟩, ⟨65536, 8, 8⟩] := by decide +kernel
    obtain ⟨s, hrun, hs⟩ := Option.map_eq_some_iff.mp hblocks
    refine ⟨s, hrun, fun hdisj => ?_⟩
    rw [hs] at hdisj
    have hfirst := (List.pairwise_cons.mp hdisj).1 ⟨65536, 8, 8⟩ (by decide)
    have hmem : 65536 ∈ ArenaBlock.bytes ⟨65536, 16, 8⟩ :=
      Set.mem_Ico.mpr ⟨by decide, by decide⟩
    exact Set.disjoint_left.mp hfirst hmem (Set.mem_Ico.mpr ⟨by decide, by decide⟩)

end Memory
