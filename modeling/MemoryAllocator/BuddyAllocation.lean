/-
# What `Allocate` grants

`Allocate` on the sessions of the buddy allocator, and `Free` right after it.

* `buddy_allocate_complete` : `Allocate` fails exactly when no aligned block of the size it
  rounds the request to is vacant, and then changes nothing; otherwise it cuts the block
  from the first free block of the smallest order that has one;
* `buddy_allocate_free_restores` : freeing the block again, with the size of the request or
  of the block, restores the free lists node by node.

Completeness rests on the absence of free buddies (`BuddySystem.exists_free_superset`): a
vacant block lies in a free one.  The closed forms `takeList_eq_some` and
`giveList_cutLists` give the rest.
-/
import MemoryAllocator.BuddyPartition

open DyadicBlock

namespace Memory

namespace BuddySession

variable (s : BuddySession)

/-- The offsets of the bytes of a block for a request. -/
def requestBytes (size off : ℕ) : Set ℕ := Set.Ico off (off + s.alloc.blockSizeForRequest size)

/-- What a successful `Allocate(size)` does.  The lists `F` become `F'`: the first block of
the list of order `j` is cut down to the order of the request, and the upper halves of the
pieces go to the lists in between. -/
structure Granted (A : BuddyArena) (F F' : ℕ → List ℕ) (size j : ℕ) : Prop where
  freeLists : (s.allocate size).2.FreeListsAre F'
  order_le : s.alloc.getOrder size ≤ j
  le_max : j ≤ A.maxOrder
  head : F j = (s.allocate size).1 :: F' j
  smallest : ∀ r, s.alloc.getOrder size ≤ r → r < j → F r = []
  larger : ∀ r, j < r → r ≤ A.maxOrder → F' r = F r
  between : ∀ r, s.alloc.getOrder size ≤ r → r < j →
    F' r = [(s.allocate size).1 + A.minBlockSize <<< r]
  smaller : ∀ r < s.alloc.getOrder size, F' r = F r
  size_le : size ≤ s.alloc.blockSizeForRequest size
  aligned : s.alloc.blockSizeForRequest size ∣ s.alloc.offsetOf (s.allocate size).1
  inside : s.alloc.offsetOf (s.allocate size).1 + s.alloc.blockSizeForRequest size ≤ A.totalSize
  within : s.requestBytes size (s.alloc.offsetOf (s.allocate size).1)
    ⊆ (⟨j, s.alloc.offsetOf (s.allocate size).1⟩ : BuddyBlock).bytes A
  apart : ∀ l ∈ s.liveBlocks,
    Disjoint (s.requestBytes size (s.alloc.offsetOf (s.allocate size).1)) (l.bytes A)

end BuddySession

section Allocation

variable {A : BuddyArena} {s : BuddySession} {L : FreeIndices} {Q : List (ℕ × ℕ)} {size : ℕ}

/-- The first piece of a block has the address of the block. -/
theorem BuddyArena.addr_mul_two_pow (A : BuddyArena) {k j : ℕ} (hkj : k ≤ j) (i : ℕ) :
    A.addr k (i * 2 ^ (j - k)) = A.addr j i := by
  rw [BuddyArena.addr, BuddyArena.addr, mul_assoc, ← pow_add]
  congr 3
  omega

/-- The upper half of a piece starts one block size further on. -/
theorem BuddyArena.addr_upper (A : BuddyArena) {r j : ℕ} (hrj : r ≤ j) (i : ℕ) :
    A.addr r (i * 2 ^ (j - r) + 1) = A.addr j i + A.minBlockSize <<< r := by
  rw [← A.addr_mul_two_pow hrj i, A.shiftLeft_eq, BuddyArena.addr, BuddyArena.addr]
  ring

/-- **A granted block** is cut from the first free block of the smallest order, from that
of the request on, that has one. -/
theorem SessionInv.allocate_cut (h : SessionInv A s L Q) (hne : (s.allocate size).1 ≠ 0) :
    ∃ j i rest, s.alloc.getOrder size ≤ j ∧ j ≤ A.maxOrder ∧ L j = i :: rest ∧
      (∀ r, s.alloc.getOrder size ≤ r → r < j → L r = []) ∧
      (s.allocate size).1 = A.addr j i ∧
      SessionInv A (s.allocate size).2 (cutLists L (s.alloc.getOrder size) j i rest)
        ((s.alloc.getOrder size, i * 2 ^ (j - s.alloc.getOrder size)) :: Q) := by
  rcases h.allocate size with ⟨hnull, -⟩ | ⟨i', L', hk, htake, hptr, -, hinv⟩
  · exact absurd hnull hne
  obtain ⟨j, i, rest, hkj, hj, hL, hempty, rfl, rfl⟩ := takeList_eq_some htake
  rw [A.addr_mul_two_pow hkj] at hptr
  exact ⟨j, i, rest, hkj, by omega, hL, hempty, hptr, hinv⟩

/-- Requests that fit into the arena have an order of the arena. -/
theorem SessionInv.getOrder_le_maxOrder_iff (h : SessionInv A s L Q) :
    s.alloc.getOrder size ≤ A.maxOrder ↔ size ≤ A.totalSize := by
  rw [h.getOrder_le_iff, BuddyArena.minBlockSize, ← pow_add, ← A.totalBits_eq]
  rfl

/-- A live block keeps away from the other live blocks. -/
theorem SessionInv.disjoint_live {q : ℕ × ℕ} (h : SessionInv A s L (q :: Q)) {q' : ℕ × ℕ}
    (hq' : q' ∈ Q) : Disjoint ((A.buddyBlock q).bytes A) ((A.buddyBlock q').bytes A) := by
  have hnodup := List.nodup_cons.mp h.nodup
  rw [A.bytes_buddyBlock, A.bytes_buddyBlock]
  refine h.lists.system.tiling.disjoint (.inr (A.mem_liveSet.mpr (List.mem_cons_self ..)))
    (.inr (A.mem_liveSet.mpr (List.mem_cons_of_mem _ hq'))) (fun heq => ?_)
  have hqq := A.blockAt_injective heq
  exact hnodup.1 (hqq ▸ hq')

/-- **No vacant block is overlooked**: a vacant block of order `k` lies in a free block of
order at least `k`. -/
theorem SessionInv.exists_free_of_vacant (h : SessionInv A s L Q) {q : ℕ × ℕ}
    (hv : s.Vacant A (A.buddyBlock q)) : ∃ r, q.1 ≤ r ∧ r ≤ A.maxOrder ∧ L r ≠ [] := by
  obtain ⟨c, ⟨r, hr, i, hi, rfl⟩, hsub⟩ := h.lists.system.exists_free_superset (h.vacant_iff.mp hv)
  have horder : A.minBits + q.1 ≤ A.minBits + r := order_le_of_span_subset hsub
  refine ⟨r, by omega, hr, ?_⟩
  rintro hnil
  rw [hnil] at hi
  exact List.not_mem_nil hi

/-- The bytes of a block for a request of an order that the arena has. -/
theorem SessionInv.requestBytes_eq (h : SessionInv A s L Q)
    (hk : s.alloc.getOrder size ≤ A.maxOrder) (i : ℕ) :
    s.requestBytes size (i * 2 ^ (A.minBits + s.alloc.getOrder size))
      = (A.buddyBlock (s.alloc.getOrder size, i)).bytes A := by
  rw [BuddySession.requestBytes, h.blockSizeForRequest_eq hk, BuddyBlock.bytes]
  simp only [BuddyArena.buddyBlock, A.shiftLeft_eq]

/-- The free lists of the list layer, as addresses. -/
theorem SessionInv.freeListsAre (h : SessionInv A s L Q) :
    s.FreeListsAre (fun k => (L k).map (A.addr k)) :=
  h.freeListsAre_iff.mpr (fun _ _ => rfl)

/-- **`Allocate` succeeds** in the way described by `Granted`. -/
theorem SessionInv.granted (h : SessionInv A s L Q) (hne : (s.allocate size).1 ≠ 0) :
    ∃ j F', s.Granted A (fun k => (L k).map (A.addr k)) F' size j := by
  obtain ⟨j, i, rest, hkj, hj, hL, hempty, hptr, hinv⟩ := h.allocate_cut hne
  have hk : s.alloc.getOrder size ≤ A.maxOrder := hkj.trans hj
  have hsize := h.blockSizeForRequest_eq hk
  set k := s.alloc.getOrder size with hkdef
  have hoffset : s.alloc.offsetOf (s.allocate size).1 = i * 2 ^ (j - k) * 2 ^ (A.minBits + k) := by
    rw [hptr, ← A.addr_mul_two_pow hkj i, h.offsetOf_addr]
  refine ⟨j, _, hinv.freeListsAre, hkj, hj, ?_, ?_, ?_, ?_, ?_, ?_, ?_, ?_, ?_, ?_⟩
  · show (L j).map (A.addr j) = _ :: (cutLists L k j i rest j).map (A.addr j)
    rw [hL, cutLists_self, List.map_cons, hptr]
  · intro r hr hr'
    show (L r).map (A.addr r) = []
    rw [hempty r hr hr', List.map_nil]
  · intro r hr _
    show (cutLists L k j i rest r).map (A.addr r) = _
    rw [cutLists_of_lt hr]
  · intro r hr hr'
    show (cutLists L k j i rest r).map (A.addr r) = _
    rw [cutLists, if_pos ⟨hr, hr'⟩, List.map_singleton, A.addr_upper hr'.le, hptr]
  · intro r hr
    show (cutLists L k j i rest r).map (A.addr r) = _
    rw [cutLists, if_neg (by omega), if_neg (by omega)]
  · rw [hsize, pow_add]
    exact h.getOrder_le_iff.mp le_rfl
  · rw [hsize, hoffset]
    exact dvd_mul_left _ _
  · have hlive : A.blockAt (k, i * 2 ^ (j - k))
        ∈ A.liveSet ((k, i * 2 ^ (j - k)) :: Q) := A.mem_liveSet.mpr (List.mem_cons_self ..)
    have hlt : i * 2 ^ (j - k) < 2 ^ (A.maxOrder - k) :=
      index_lt_of_inside hk (hinv.lists.system.tiling.subset _ (.inr hlive))
    have hle := A.addr_add_le hk hlt
    rw [BuddyArena.addr] at hle
    rw [hsize, hoffset]
    omega
  · -- the piece is the lowest one of the block that is cut
    have hpow : 2 ^ (A.minBits + k) ≤ 2 ^ (A.minBits + j) :=
      Nat.pow_le_pow_right (by norm_num) (Nat.add_le_add_left hkj _)
    rw [BuddySession.requestBytes, hsize, BuddyBlock.bytes]
    apply Set.Ico_subset_Ico_right
    rw [A.shiftLeft_eq]
    exact Nat.add_le_add_left hpow _
  · intro l hl
    rw [h.liveBlocks_eq] at hl
    obtain ⟨q, hq, rfl⟩ := List.mem_map.mp hl
    rw [hoffset, hkdef, h.requestBytes_eq hk]
    exact hinv.disjoint_live hq

/-- **`Allocate` fails** exactly when every aligned block for the request meets a live
block, or the request does not fit into the arena. -/
theorem SessionInv.allocate_eq_zero_iff (h : SessionInv A s L Q) :
    (s.allocate size).1 = 0 ↔ A.totalSize < size ∨
      ∀ off, s.alloc.blockSizeForRequest size ∣ off →
        off + s.alloc.blockSizeForRequest size ≤ A.totalSize →
        ∃ l ∈ s.liveBlocks, ¬ Disjoint (s.requestBytes size off) (l.bytes A) := by
  constructor
  · intro hnull
    by_cases hfits : A.totalSize < size
    · exact .inl hfits
    have hk := h.getOrder_le_maxOrder_iff.mpr (not_lt.mp hfits)
    refine .inr (fun off hdvd hin => ?_)
    -- otherwise the block would be vacant, hence part of a free one
    by_contra hapart
    push Not at hapart
    obtain ⟨i, rfl⟩ := hdvd
    rw [mul_comm, h.blockSizeForRequest_eq hk] at hin hapart
    have hvacant : s.Vacant A (A.buddyBlock (s.alloc.getOrder size, i)) := by
      refine ⟨hk, ?_, ?_, ?_⟩
      · rw [A.shiftLeft_eq]
        exact dvd_mul_left _ _
      · rw [← h.requestBytes_eq hk, BuddySession.requestBytes, h.blockSizeForRequest_eq hk]
        exact Set.Ico_subset_Ico (Nat.zero_le _) hin
      · intro l hl
        rw [← h.requestBytes_eq hk]
        exact hapart l hl
    obtain ⟨r, hkr, hr, hne⟩ := h.exists_free_of_vacant hvacant
    rcases h.allocate size with ⟨-, -, hnone⟩ | ⟨i', L', -, -, hptr, -⟩
    · exact hne (hnone r hkr hr)
    · exact A.addr_ne_zero _ _ (hptr.symm.trans hnull)
  · intro hnone
    by_contra hne
    obtain ⟨j, F', hgrant⟩ := h.granted hne
    rcases hnone with hbig | hall
    · have hfits := h.getOrder_le_maxOrder_iff.mp (hgrant.order_le.trans hgrant.le_max)
      exact absurd hfits (not_le.mpr hbig)
    · obtain ⟨l, hl, hmeets⟩ := hall _ hgrant.aligned hgrant.inside
      exact hmeets (hgrant.apart l hl)

/-- **`Allocate` is complete and atomic.**  In every state that disciplined use reaches,
`Allocate` returns `nullptr` exactly when every aligned block of the rounded size meets a
live block or the request does not fit into the arena; it then changes nothing.  Otherwise
the returned block is cut from the first block of the smallest list, from the order of the
request on, that is not empty, and the lists of larger orders stay as they are. -/
theorem buddy_allocate_complete (A : BuddyArena) (mem : Mem) (ops : List BuddyOp)
    (h : buddyMachine.Legal (A.start mem) ops) :
    ∃ s F, buddyMachine.run (A.start mem) ops = some s ∧ s.FreeListsAre F ∧
      ∀ size,
        ((s.allocate size).1 = 0 ↔ A.totalSize < size ∨
          ∀ off, s.alloc.blockSizeForRequest size ∣ off →
            off + s.alloc.blockSizeForRequest size ≤ A.totalSize →
            ∃ l ∈ s.liveBlocks, ¬ Disjoint (s.requestBytes size off) (l.bytes A)) ∧
        ((s.allocate size).1 = 0 → (s.allocate size).2 = s) ∧
        ((s.allocate size).1 ≠ 0 → ∃ j F', s.Granted A F F' size j) := by
  obtain ⟨s, hrun, L, Q, hinv⟩ := sessionInv_of_legal h
  refine ⟨s, _, hrun, hinv.freeListsAre, fun size => ?_⟩
  refine ⟨hinv.allocate_eq_zero_iff, fun hnull => ?_, hinv.granted⟩
  rcases hinv.allocate size with ⟨-, hsame, -⟩ | ⟨i, L', -, -, hptr, -⟩
  · exact hsame
  · exact absurd (hptr.symm.trans hnull) (A.addr_ne_zero _ _)

/-- In the arena of the unit test with 200 bytes in use, 600 bytes find no block although
768 are free, and 300 bytes get the upper half. -/
theorem testArena_allocate_complete :
    ∃ s F, buddyMachine.run (testArena.start (fun _ => 0)) [.allocate 200] = some s ∧
      (s.allocate 600).2 = s ∧ (∃ j F', s.Granted testArena F F' 300 j) := by
  obtain ⟨s, F, hrun, -, hall⟩ :=
    buddy_allocate_complete testArena (fun _ => 0) [.allocate 200] (by decide +kernel)
  have hptrs : (buddyMachine.run (testArena.start (fun _ => 0)) [.allocate 200]).map
      (fun s => ((s.allocate 600).1, (s.allocate 300).1)) = some (0, 4608) := by decide +kernel
  rw [hrun, Option.map_some, Option.some.injEq, Prod.mk.injEq] at hptrs
  exact ⟨s, F, hrun, (hall 600).2.1 hptrs.1, (hall 300).2.2 (by omega)⟩

/-! ## `Free` right after `Allocate` -/

/-- The block just granted is not freed into a larger one: the block it was cut from has no
free buddy. -/
theorem SessionInv.giveList_cut (h : SessionInv A s L Q) {j i : ℕ} {rest : List ℕ}
    (hkj : s.alloc.getOrder size ≤ j) (hj : j ≤ A.maxOrder) (hL : L j = i :: rest)
    (hempty : ∀ r, s.alloc.getOrder size ≤ r → r < j → L r = []) :
    giveList (cutLists L (s.alloc.getOrder size) j i rest)
      (A.maxOrder - s.alloc.getOrder size) (i * 2 ^ (j - s.alloc.getOrder size))
      (s.alloc.getOrder size) = L := by
  apply giveList_cutLists hkj (by omega) hL hempty
  intro hbuddy
  have hfree : (⟨A.minBits + j, i⟩ : DyadicBlock) ∈ freeSet A.minBits A.maxOrder L :=
    (mem_freeSet hj).mpr (by rw [hL]; exact List.mem_cons_self ..)
  refine h.lists.system.noBuddies _ hfree ((mem_freeSet hj).mpr ?_)
  rw [hL]
  exact List.mem_cons_of_mem _ hbuddy

/-- **`Free` undoes `Allocate`**, for every size of the order of the request. -/
theorem SessionInv.free_allocate (h : SessionInv A s L Q) (hne : (s.allocate size).1 ≠ 0)
    {size' : ℕ} (hsize : s.alloc.getOrder size' = s.alloc.getOrder size) :
    ∃ t, (s.allocate size).2.free (s.allocate size).1 size' = some t ∧ SessionInv A t L Q := by
  obtain ⟨j, i, rest, hkj, hj, hL, hempty, hptr, hinv⟩ := h.allocate_cut hne
  have horder : (s.allocate size).2.alloc.getOrder size' = s.alloc.getOrder size := by
    rw [← hsize]
    apply BuddyAllocator.getOrder_congr
    rw [hinv.represents.min_eq, h.represents.min_eq]
  have hlive : (⟨(s.allocate size).1, (s.allocate size).2.alloc.getOrder size'⟩ : LiveBlock)
      ∈ (s.allocate size).2.live := by
    rw [hinv.live_eq, List.map_cons, horder, hptr, ← A.addr_mul_two_pow hkj i]
    exact List.mem_cons_self ..
  obtain ⟨i', t, -, hptr', hfree, hfreed⟩ := hinv.free hlive
  rw [horder] at hptr' hfreed
  -- the block freed is the one that was granted
  obtain rfl : i' = i * 2 ^ (j - s.alloc.getOrder size) := by
    apply A.addr_injective (s.alloc.getOrder size)
    rw [← hptr', hptr, A.addr_mul_two_pow hkj]
  rw [h.giveList_cut hkj hj hL hempty, List.erase_cons_head] at hfreed
  exact ⟨t, hfree, hfreed⟩

/-- **Allocate, then free, is the identity.**  In every state that disciplined use reaches,
if `Allocate(size)` returns a block, `Free` of it with `size` or with the size of the block
restores every free list, node by node, and the live blocks. -/
theorem buddy_allocate_free_restores (A : BuddyArena) (mem : Mem) (ops : List BuddyOp)
    (h : buddyMachine.Legal (A.start mem) ops) :
    ∃ s F, buddyMachine.run (A.start mem) ops = some s ∧ s.FreeListsAre F ∧
      ∀ size, (s.allocate size).1 ≠ 0 →
        ∀ size', size' = size ∨ size' = s.alloc.blockSizeForRequest size →
          ∃ t, (s.allocate size).2.free (s.allocate size).1 size' = some t ∧
            t.FreeListsAre F ∧ t.live = s.live := by
  obtain ⟨s, hrun, L, Q, hinv⟩ := sessionInv_of_legal h
  refine ⟨s, _, hrun, hinv.freeListsAre, fun size hne size' hsize' => ?_⟩
  have horder : s.alloc.getOrder size' = s.alloc.getOrder size := by
    rcases hsize' with rfl | rfl
    · rfl
    · obtain ⟨j, F', hgrant⟩ := hinv.granted hne
      rw [hinv.blockSizeForRequest_eq (hgrant.order_le.trans hgrant.le_max),
        hinv.getOrder_blockSize]
  obtain ⟨t, hfree, ht⟩ := hinv.free_allocate hne horder
  exact ⟨t, hfree, ht.freeListsAre, by rw [ht.live_eq, hinv.live_eq]⟩

/-- With 200 bytes in use, 300 bytes are taken and given back by their block size. -/
theorem testArena_allocate_free_restores :
    ∃ s F t, buddyMachine.run (testArena.start (fun _ => 0)) [.allocate 200] = some s ∧
      s.FreeListsAre F ∧
      (s.allocate 300).2.free (s.allocate 300).1 (s.alloc.blockSizeForRequest 300) = some t ∧
      t.FreeListsAre F := by
  obtain ⟨s, F, hrun, hF, hall⟩ :=
    buddy_allocate_free_restores testArena (fun _ => 0) [.allocate 200] (by decide +kernel)
  have hptr : (buddyMachine.run (testArena.start (fun _ => 0)) [.allocate 200]).map
      (fun s => (s.allocate 300).1) = some 4608 := by decide +kernel
  rw [hrun, Option.map_some, Option.some.injEq] at hptr
  obtain ⟨t, hfree, ht, -⟩ := hall 300 (by omega) _ (.inr rfl)
  exact ⟨s, F, t, hrun, hF, hfree, ht⟩

end Allocation

end Memory
