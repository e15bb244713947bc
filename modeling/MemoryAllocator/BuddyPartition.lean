/-
# What the buddy allocator guarantees

The results of the buddy allocator, in the words of the source: blocks have an order
and an offset into the arena, the block of order `k` has `minBlockSize << k` bytes, and
`freeLists_[k]` is a chain of nodes in memory.

* `buddy_blocks_partition_arena` : after every disciplined session the blocks in the
  free lists and the live blocks are a partition of the arena into aligned blocks;
* `buddy_free_blocks_canonical` : the free blocks are the maximal aligned blocks that
  contain no byte of a live block, and therefore depend on the live blocks only.
-/
import MemoryAllocator.BuddySession

open DyadicBlock

namespace Memory

/-- A block of the arena: its order and the offset of its first byte. -/
@[ext] structure BuddyBlock where
  order : ℕ
  offset : ℕ
  deriving DecidableEq, Repr

/-- The offsets of the bytes of a block. -/
def BuddyBlock.bytes (A : BuddyArena) (b : BuddyBlock) : Set ℕ :=
  Set.Ico b.offset (b.offset + A.minBlockSize <<< b.order)

namespace BuddySession

variable (s : BuddySession)

/-- `F k` are the nodes of `freeLists_[k]`, first node first: following `next` from the
head visits exactly these and ends in `nullptr`. -/
def FreeListsAre (F : ℕ → List ℕ) : Prop :=
  ∀ k ≤ s.alloc.maxOrder, Chain s.alloc.mem.loadPtr 0 (s.alloc.freeLists k) (F k)

/-- The blocks in the free lists `0, …, maxOrder`. -/
def freeBlocks (F : ℕ → List ℕ) : List BuddyBlock :=
  (List.range (s.alloc.maxOrder + 1)).flatMap (fun k =>
    (F k).map (fun ptr => ⟨k, s.alloc.offsetOf ptr⟩))

/-- The blocks in the hands of the client. -/
def liveBlocks : List BuddyBlock :=
  s.live.map (fun l => ⟨l.order, s.alloc.offsetOf l.ptr⟩)

/-- An aligned block inside the arena that contains no byte of a live block. -/
structure Vacant (A : BuddyArena) (b : BuddyBlock) : Prop where
  order_le : b.order ≤ A.maxOrder
  aligned : A.minBlockSize <<< b.order ∣ b.offset
  inside : b.bytes A ⊆ Set.Ico 0 A.totalSize
  apart : ∀ l ∈ s.liveBlocks, Disjoint (b.bytes A) (l.bytes A)

/-- A vacant block that lies in no other vacant block. -/
def MaximalVacant (A : BuddyArena) (b : BuddyBlock) : Prop :=
  s.Vacant A b ∧ ∀ c, s.Vacant A c → b.bytes A ⊆ c.bytes A → c = b

end BuddySession

/-! ## Blocks of the arena and dyadic blocks -/

namespace BuddyArena

variable (A : BuddyArena)

/-- The block of an order and an index. -/
def buddyBlock (q : ℕ × ℕ) : BuddyBlock := ⟨q.1, q.2 * 2 ^ (A.minBits + q.1)⟩

theorem shiftLeft_eq (k : ℕ) : A.minBlockSize <<< k = 2 ^ (A.minBits + k) := by
  rw [Nat.shiftLeft_eq, minBlockSize, pow_add]

theorem bytes_buddyBlock (q : ℕ × ℕ) : (A.buddyBlock q).bytes A = (A.blockAt q).span := by
  rw [BuddyBlock.bytes, A.shiftLeft_eq]
  rfl

theorem buddyBlock_injective : Function.Injective A.buddyBlock := by
  rintro ⟨k, i⟩ ⟨k', i'⟩ h
  obtain ⟨hk, hoff⟩ := BuddyBlock.mk.inj h
  obtain rfl : k = k' := hk
  obtain rfl : i = i' := Nat.eq_of_mul_eq_mul_right (Nat.two_pow_pos _) hoff
  rfl

/-- An aligned block has an index. -/
theorem exists_eq_buddyBlock {b : BuddyBlock} (h : A.minBlockSize <<< b.order ∣ b.offset) :
    ∃ i, b = A.buddyBlock (b.order, i) := by
  rw [A.shiftLeft_eq] at h
  obtain ⟨i, hi⟩ := h
  exact ⟨i, BuddyBlock.ext rfl (by rw [hi, mul_comm]; rfl)⟩

theorem whole_span : (wholeBlock (A.minBits + A.maxOrder)).span = Set.Ico 0 A.totalSize := by
  rw [← A.totalBits_eq]
  simp [wholeBlock, span, DyadicBlock.start, size, totalSize]

end BuddyArena

section Guarantees

variable {A : BuddyArena} {s : BuddySession} {L : FreeIndices} {Q : List (ℕ × ℕ)}

theorem SessionInv.offsetOf_addr (h : SessionInv A s L Q) (k i : ℕ) :
    s.alloc.offsetOf (A.addr k i) = i * 2 ^ (A.minBits + k) := by
  rw [BuddyAllocator.offsetOf, h.represents.ptr_eq, BuddyArena.addr,
    Word64.sub_of_le (Nat.le_add_right _ _), Nat.add_sub_cancel_left]

/-- The nodes of the free lists are the addresses of the list layer. -/
theorem SessionInv.freeListsAre_iff (h : SessionInv A s L Q) {F : ℕ → List ℕ} :
    s.FreeListsAre F ↔ ∀ k ≤ A.maxOrder, F k = (L k).map (A.addr k) := by
  rw [BuddySession.FreeListsAre, h.represents.max_eq]
  constructor
  · exact fun hF k hk => (hF k hk).unique (h.represents.chains k hk)
  · intro hF k hk
    rw [hF k hk]
    exact h.represents.chains k hk

/-- The orders and indices of all free blocks, list by list. -/
def freeCodes (K : ℕ) (L : FreeIndices) : List (ℕ × ℕ) :=
  (List.range (K + 1)).flatMap (fun k => (L k).map (fun i => (k, i)))

theorem mem_freeCodes {K : ℕ} {q : ℕ × ℕ} : q ∈ freeCodes K L ↔ q.1 ≤ K ∧ q.2 ∈ L q.1 := by
  simp only [freeCodes, List.mem_flatMap, List.mem_range, List.mem_map]
  constructor
  · rintro ⟨k, hk, i, hi, rfl⟩
    exact ⟨by omega, hi⟩
  · rintro ⟨hk, hi⟩
    exact ⟨q.1, by omega, q.2, hi, rfl⟩

theorem SessionInv.freeBlocks_eq (h : SessionInv A s L Q) {F : ℕ → List ℕ}
    (hF : s.FreeListsAre F) :
    s.freeBlocks F = (freeCodes A.maxOrder L).map A.buddyBlock := by
  rw [BuddySession.freeBlocks, freeCodes, List.map_flatMap, h.represents.max_eq]
  apply List.flatMap_congr
  intro k hk
  rw [h.freeListsAre_iff.mp hF k (by simpa [Nat.lt_succ_iff] using hk), List.map_map, List.map_map]
  apply List.map_congr_left
  intro i _
  exact BuddyBlock.ext rfl (h.offsetOf_addr k i)

theorem SessionInv.liveBlocks_eq (h : SessionInv A s L Q) :
    s.liveBlocks = Q.map A.buddyBlock := by
  rw [BuddySession.liveBlocks, h.live_eq, List.map_map]
  apply List.map_congr_left
  rintro ⟨k, i⟩ _
  exact BuddyBlock.ext rfl (h.offsetOf_addr k i)

theorem blockAt_mem_freeSet {q : ℕ × ℕ} (hq : q ∈ freeCodes A.maxOrder L) :
    A.blockAt q ∈ freeSet A.minBits A.maxOrder L := by
  rw [mem_freeCodes] at hq
  exact (mem_freeSet hq.1).mpr hq.2

/-- Free and live codes together have no duplicate. -/
theorem SessionInv.codes_nodup (h : SessionInv A s L Q) :
    (freeCodes A.maxOrder L ++ Q).Nodup := by
  rw [List.nodup_append]
  refine ⟨?_, h.nodup, ?_⟩
  · rw [freeCodes, List.nodup_flatMap]
    constructor
    · intro k hk
      apply (h.lists.nodup k (by simpa [Nat.lt_succ_iff] using hk)).map
      exact fun i i' heq => (Prod.mk.inj heq).2
    · refine List.nodup_range.imp (fun {k k'} hne => ?_)
      intro q hq hq'
      obtain ⟨i, -, rfl⟩ := List.mem_map.mp hq
      obtain ⟨i', -, heq⟩ := List.mem_map.mp hq'
      exact hne (Prod.mk.inj heq).1.symm
  · rintro q hq q' hq' rfl
    exact h.lists.system.disjoint _ (blockAt_mem_freeSet hq) (A.mem_liveSet.mpr hq')

theorem blockAt_mem {q : ℕ × ℕ}
    (hq : q ∈ freeCodes A.maxOrder L ++ Q) :
    A.blockAt q ∈ freeSet A.minBits A.maxOrder L ∪ A.liveSet Q := by
  rcases List.mem_append.mp hq with hq | hq
  · exact .inl (blockAt_mem_freeSet hq)
  · exact .inr (A.mem_liveSet.mpr hq)

/-- Every block of the system has a code. -/
theorem exists_code {b : DyadicBlock}
    (hb : b ∈ freeSet A.minBits A.maxOrder L ∪ A.liveSet Q) :
    ∃ q ∈ freeCodes A.maxOrder L ++ Q, b = A.blockAt q := by
  rcases hb with ⟨k, hk, i, hi, rfl⟩ | ⟨q, hq, rfl⟩
  · exact ⟨(k, i), List.mem_append_left _ (mem_freeCodes.mpr ⟨hk, hi⟩), rfl⟩
  · exact ⟨q, List.mem_append_right _ hq, rfl⟩

/-! ## The partition -/

/-- **The buddy allocator partitions its arena.**  After every disciplined session the
blocks in the free lists together with the live blocks are pairwise disjoint, each block
of order `k` starts at a multiple of `minBlockSize << k`, no block occurs twice in the
free lists, and their union is the whole arena. -/
theorem buddy_blocks_partition_arena (A : BuddyArena) (mem : Mem) (ops : List BuddyOp)
    (h : buddyMachine.Legal (A.start mem) ops) :
    ∃ s F, buddyMachine.run (A.start mem) ops = some s ∧ s.FreeListsAre F ∧
      (s.freeBlocks F ++ s.liveBlocks).Pairwise (fun b c => Disjoint (b.bytes A) (c.bytes A)) ∧
      (∀ b ∈ s.freeBlocks F ++ s.liveBlocks, A.minBlockSize <<< b.order ∣ b.offset) ∧
      (s.freeBlocks F).Nodup ∧
      (⋃ b ∈ s.freeBlocks F ++ s.liveBlocks, b.bytes A) = Set.Ico 0 A.totalSize := by
  obtain ⟨s, hrun, L, Q, hinv⟩ := sessionInv_of_legal h
  have hF : s.FreeListsAre (fun k => (L k).map (A.addr k)) :=
    hinv.freeListsAre_iff.mpr (fun _ _ => rfl)
  refine ⟨s, _, hrun, hF, ?_⟩
  rw [hinv.freeBlocks_eq hF, hinv.liveBlocks_eq, ← List.map_append]
  have htiling := hinv.lists.system.tiling
  refine ⟨?_, ?_, ?_, ?_⟩
  · rw [List.pairwise_map]
    refine hinv.codes_nodup.imp_of_mem (fun {q q'} hq hq' hne => ?_)
    rw [A.bytes_buddyBlock, A.bytes_buddyBlock]
    exact htiling.disjoint (blockAt_mem hq) (blockAt_mem hq')
      (fun heq => hne (A.blockAt_injective heq))
  · intro b hb
    obtain ⟨q, -, rfl⟩ := List.mem_map.mp hb
    rw [A.shiftLeft_eq]
    exact dvd_mul_left _ _
  · exact (List.nodup_append.mp hinv.codes_nodup).1.map A.buddyBlock_injective
  · rw [← A.whole_span]
    ext x
    simp only [Set.mem_iUnion, exists_prop]
    constructor
    · rintro ⟨b, hb, hx⟩
      obtain ⟨q, hq, rfl⟩ := List.mem_map.mp hb
      rw [A.bytes_buddyBlock] at hx
      exact htiling.subset _ (blockAt_mem hq) hx
    · intro hx
      obtain ⟨b, hb, hxb⟩ := htiling.cover x hx
      obtain ⟨q, hq, rfl⟩ := exists_code hb
      exact ⟨_, List.mem_map_of_mem hq, by rwa [A.bytes_buddyBlock]⟩

/-- The arena of the allocator's unit test: 1024 bytes in blocks of at least 64. -/
def testArena : BuddyArena where
  base := 4096
  minBits := 6
  totalBits := 10
  three_le := by norm_num
  min_le := by norm_num
  base_pos := by norm_num
  base_dvd := by norm_num
  below := by norm_num

/-- The calls of the unit test `SimpleSplitAndCoalesce`, with a write in between. -/
def simpleSplitAndCoalesce : List BuddyOp :=
  [.allocate 200, .allocate 200, .write 4100 7, .free 4096 200, .free 4352 200, .allocate 1024]

theorem simpleSplitAndCoalesce_partition :
    ∃ s F, buddyMachine.run (testArena.start (fun _ => 0)) simpleSplitAndCoalesce = some s ∧
      s.FreeListsAre F ∧ (s.freeBlocks F).Nodup ∧
      (⋃ b ∈ s.freeBlocks F ++ s.liveBlocks, b.bytes testArena) = Set.Ico 0 1024 := by
  obtain ⟨s, F, hrun, hF, -, -, hnodup, hunion⟩ :=
    buddy_blocks_partition_arena testArena (fun _ => 0) simpleSplitAndCoalesce (by decide +kernel)
  exact ⟨s, F, hrun, hF, hnodup, hunion⟩

/-! ## Canonical free blocks -/

/-- Vacant blocks of the arena are vacant dyadic blocks. -/
theorem SessionInv.vacant_iff (h : SessionInv A s L Q) {q : ℕ × ℕ} :
    s.Vacant A (A.buddyBlock q) ↔
      BuddySystem.Vacant A.minBits (A.minBits + A.maxOrder) (A.liveSet Q) (A.blockAt q) := by
  constructor
  · intro hv
    refine ⟨Nat.le_add_right _ _, ?_, ?_⟩
    · rw [A.whole_span, ← A.bytes_buddyBlock]
      exact hv.inside
    · rintro c ⟨q', hq', rfl⟩
      rw [← A.bytes_buddyBlock, ← A.bytes_buddyBlock]
      exact hv.apart _ (by rw [h.liveBlocks_eq]; exact List.mem_map_of_mem hq')
  · intro hv
    have horder : A.minBits + q.1 ≤ A.minBits + A.maxOrder := order_le_of_span_subset hv.inside
    refine ⟨?_, ?_, ?_, ?_⟩
    · show q.1 ≤ A.maxOrder
      omega
    · rw [A.shiftLeft_eq]
      exact dvd_mul_left _ _
    · rw [A.bytes_buddyBlock, ← A.whole_span]
      exact hv.inside
    · intro l hl
      rw [h.liveBlocks_eq] at hl
      obtain ⟨q', hq', rfl⟩ := List.mem_map.mp hl
      rw [A.bytes_buddyBlock, A.bytes_buddyBlock]
      exact hv.apart _ (A.mem_liveSet.mpr hq')

theorem SessionInv.maximalVacant_iff (h : SessionInv A s L Q) {q : ℕ × ℕ} :
    s.MaximalVacant A (A.buddyBlock q) ↔
      BuddySystem.MaximalVacant A.minBits (A.minBits + A.maxOrder) (A.liveSet Q) (A.blockAt q) := by
  constructor
  · rintro ⟨hv, hmax⟩
    refine ⟨h.vacant_iff.mp hv, ?_⟩
    rintro ⟨n, i⟩ hc hsub
    obtain ⟨k, rfl⟩ := Nat.exists_eq_add_of_le hc.le_order
    change (A.blockAt q).span ⊆ (A.blockAt (k, i)).span at hsub
    rw [← A.bytes_buddyBlock, ← A.bytes_buddyBlock] at hsub
    have hvac : s.Vacant A (A.buddyBlock (k, i)) := h.vacant_iff.mpr hc
    exact congrArg A.blockAt (A.buddyBlock_injective (hmax _ hvac hsub))
  · rintro ⟨hv, hmax⟩
    refine ⟨h.vacant_iff.mpr hv, fun c hc hsub => ?_⟩
    obtain ⟨i, hi⟩ := A.exists_eq_buddyBlock hc.aligned
    rw [hi] at hc hsub ⊢
    rw [A.bytes_buddyBlock, A.bytes_buddyBlock] at hsub
    exact congrArg A.buddyBlock (A.blockAt_injective (hmax _ (h.vacant_iff.mp hc) hsub))

/-- A block is in a free list exactly when it is maximal vacant. -/
theorem SessionInv.mem_freeBlocks_iff (h : SessionInv A s L Q) {F : ℕ → List ℕ}
    (hF : s.FreeListsAre F) (b : BuddyBlock) : b ∈ s.freeBlocks F ↔ s.MaximalVacant A b := by
  rw [h.freeBlocks_eq hF]
  constructor
  · intro hb
    obtain ⟨q, hq, rfl⟩ := List.mem_map.mp hb
    exact h.maximalVacant_iff.mpr (h.lists.system.free_iff_maximal.mp (blockAt_mem_freeSet hq))
  · intro hb
    obtain ⟨i, hi⟩ := A.exists_eq_buddyBlock hb.1.aligned
    have horder := hb.1.order_le
    rw [hi] at hb ⊢
    refine List.mem_map_of_mem (mem_freeCodes.mpr ⟨horder, ?_⟩)
    exact (mem_freeSet horder).mp
      (h.lists.system.free_iff_maximal.mpr (h.maximalVacant_iff.mp hb))

/-- The buddy of a block in a free list is in none. -/
theorem SessionInv.buddy_notMem_freeBlocks (h : SessionInv A s L Q) {F : ℕ → List ℕ}
    (hF : s.FreeListsAre F) {b : BuddyBlock} (hb : b ∈ s.freeBlocks F) :
    (⟨b.order, b.offset ^^^ A.minBlockSize <<< b.order⟩ : BuddyBlock) ∉ s.freeBlocks F := by
  rw [h.freeBlocks_eq hF] at hb ⊢
  intro hbuddy
  obtain ⟨⟨k, i⟩, hq, rfl⟩ := List.mem_map.mp hb
  have hxor : (⟨k, i * 2 ^ (A.minBits + k) ^^^ A.minBlockSize <<< k⟩ : BuddyBlock)
      = A.buddyBlock (k, i ^^^ 1) := by
    rw [A.shiftLeft_eq, Word64.xor_two_pow]
    rfl
  obtain ⟨q', hq', heq⟩ := List.mem_map.mp hbuddy
  have hcode : q' = (k, i ^^^ 1) := A.buddyBlock_injective (heq.trans hxor)
  rw [hcode] at hq'
  exact h.lists.system.noBuddies _ (blockAt_mem_freeSet hq) (blockAt_mem_freeSet hq')

/-- Two sessions with the same live blocks have the same free blocks at every order. -/
theorem SessionInv.mem_free_iff_of_live_iff (h : SessionInv A s L Q) {s' : BuddySession}
    {L' : FreeIndices} {Q' : List (ℕ × ℕ)} (h' : SessionInv A s' L' Q')
    (hlive : ∀ b, b ∈ s.liveBlocks ↔ b ∈ s'.liveBlocks) {F F' : ℕ → List ℕ}
    (hF : s.FreeListsAre F) (hF' : s'.FreeListsAre F') {k : ℕ} (hk : k ≤ A.maxOrder) (p : ℕ) :
    p ∈ F k ↔ p ∈ F' k := by
  have hQ : ∀ q, q ∈ Q ↔ q ∈ Q' := by
    intro q
    have hq := hlive (A.buddyBlock q)
    rwa [h.liveBlocks_eq, h'.liveBlocks_eq, List.mem_map_of_injective A.buddyBlock_injective,
      List.mem_map_of_injective A.buddyBlock_injective] at hq
  have hset : A.liveSet Q = A.liveSet Q' := by
    ext b
    simp only [BuddyArena.liveSet, Set.mem_ofPred_eq, hQ]
  have hfree := h.lists.system.free_eq_of_live_eq (hset ▸ h'.lists.system)
  have hindex : ∀ i, i ∈ L k ↔ i ∈ L' k := by
    intro i
    rw [← mem_freeSet (m := A.minBits) hk, hfree, mem_freeSet hk]
  rw [h.freeListsAre_iff.mp hF k hk, h'.freeListsAre_iff.mp hF' k hk]
  simp only [List.mem_map, hindex]

/-- Without live blocks the arena is one free block of the highest order. -/
theorem SessionInv.free_of_live_nil (h : SessionInv A s L Q) (hlive : s.live = [])
    {F : ℕ → List ℕ} (hF : s.FreeListsAre F) :
    F A.maxOrder = [A.base] ∧ ∀ k < A.maxOrder, F k = [] := by
  have hQ : Q = [] := by
    have hmap := h.live_eq
    rw [hlive] at hmap
    exact List.map_eq_nil_iff.mp hmap.symm
  have hset : A.liveSet Q = ∅ := by
    ext b
    simp [BuddyArena.liveSet, hQ]
  have hfree := BuddySystem.free_eq_whole (Nat.le_add_right _ _) (hset ▸ h.lists.system)
  have hmem : ∀ k ≤ A.maxOrder, ∀ i, i ∈ L k ↔ k = A.maxOrder ∧ i = 0 := by
    intro k hk i
    rw [← mem_freeSet (m := A.minBits) hk, hfree, Set.mem_singleton_iff, wholeBlock,
      DyadicBlock.mk.injEq, Nat.add_left_cancel_iff]
  constructor
  · have htop : L A.maxOrder = [0] := by
      have hnodup := h.lists.nodup A.maxOrder le_rfl
      have hall := hmem A.maxOrder le_rfl
      rw [← List.perm_singleton, List.perm_ext_iff_of_nodup hnodup (List.nodup_singleton 0)]
      intro i
      rw [hall, List.mem_singleton]
      simp
    rw [h.freeListsAre_iff.mp hF _ le_rfl, htop]
    simp [BuddyArena.addr]
  · intro k hk
    have hnil : L k = [] := by
      rw [List.eq_nil_iff_forall_not_mem]
      intro i hi
      exact hk.ne ((hmem k hk.le i).mp hi).1
    rw [h.freeListsAre_iff.mp hF k hk.le, hnil]
    rfl

/-- **The free set is canonical.**  In every state that disciplined use reaches, a block
is free exactly when it is a maximal aligned block without a byte of a live block.  In
particular no block and its buddy are both free, two histories with the same live blocks
have the same free sets at every order, and once everything has been freed the only free
block is the whole arena. -/
theorem buddy_free_blocks_canonical (A : BuddyArena) (mem : Mem) (ops : List BuddyOp)
    (h : buddyMachine.Legal (A.start mem) ops) :
    ∃ s F, buddyMachine.run (A.start mem) ops = some s ∧ s.FreeListsAre F ∧
      (∀ b, b ∈ s.freeBlocks F ↔ s.MaximalVacant A b) ∧
      (∀ b ∈ s.freeBlocks F,
        (⟨b.order, b.offset ^^^ A.minBlockSize <<< b.order⟩ : BuddyBlock) ∉ s.freeBlocks F) ∧
      (∀ mem' ops' s' F', buddyMachine.Reaches (A.start mem') ops' s' → s'.FreeListsAre F' →
        (∀ b, b ∈ s.liveBlocks ↔ b ∈ s'.liveBlocks) →
        ∀ k ≤ A.maxOrder, ∀ p, p ∈ F k ↔ p ∈ F' k) ∧
      (s.live = [] → F A.maxOrder = [A.base] ∧ ∀ k < A.maxOrder, F k = []) := by
  obtain ⟨s, hrun, L, Q, hinv⟩ := sessionInv_of_legal h
  have hF : s.FreeListsAre (fun k => (L k).map (A.addr k)) :=
    hinv.freeListsAre_iff.mpr (fun _ _ => rfl)
  refine ⟨s, _, hrun, hF, hinv.mem_freeBlocks_iff hF,
    fun b hb => hinv.buddy_notMem_freeBlocks hF hb, ?_, fun hlive => hinv.free_of_live_nil hlive hF⟩
  intro mem' ops' s' F' hreach hF' hlive k hk p
  obtain ⟨L', Q', hinv'⟩ := sessionInv_of_reaches hreach
  exact hinv.mem_free_iff_of_live_iff hinv' hlive hF hF' hk p

/-- Both blocks of the unit test are free again, so that the arena is one block. -/
theorem simpleSplitAndCoalesce_canonical :
    ∃ s F, buddyMachine.run (testArena.start (fun _ => 0)) (simpleSplitAndCoalesce.take 5) = some s ∧
      s.live = [] ∧ s.FreeListsAre F ∧ F 4 = [4096] ∧ ∀ k < 4, F k = [] := by
  obtain ⟨s, F, hrun, hF, -, -, -, hall⟩ := buddy_free_blocks_canonical testArena (fun _ => 0)
    (simpleSplitAndCoalesce.take 5) (by decide +kernel)
  have hlive : (buddyMachine.run (testArena.start (fun _ => 0))
      (simpleSplitAndCoalesce.take 5)).map BuddySession.live = some [] := by decide +kernel
  rw [hrun] at hlive
  exact ⟨s, F, hrun, Option.some.inj hlive, hF, hall (Option.some.inj hlive)⟩

end Guarantees

end Memory
