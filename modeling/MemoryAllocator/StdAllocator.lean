/-
# `MemoryAllocator.hpp`

`Allocator<T>` hands the requests of the standard containers to one buddy allocator over
16 MiB.  It multiplies the number of elements by `sizeof(T)`, behind a test that the
product does not wrap, and turns `nullptr` into an exception.  The alignment of `T` is
never passed on: a block is aligned because its offset is a multiple of its size, which
is a power of two and at least `sizeof(T)`, hence at least the alignment.

A heap is the allocator with the record of the allocations that have not been given back.
It projects to a session of the buddy allocator (`StdHeap.session`), and every matched call
is a call of that session.
-/
import MemoryAllocator.BuddyAllocation
import MemoryAllocator.BuddyCoalescing

open DyadicBlock

namespace Memory

/-- What `Allocator<T>` uses of the type `T`: `sizeof(T)`, a positive multiple of the
alignment, which is a power of two up to the size of a page. -/
structure ValueType where
  size : ℕ
  align : ℕ
  size_pos : 0 < size
  align_dvd : align ∣ size
  align_pow : ∃ e ≤ 12, align = 2 ^ e
  deriving DecidableEq

/-- An array of `n` elements in the hands of the client. -/
structure Allocation where
  ptr : ℕ
  type : ValueType
  n : ℕ
  deriving DecidableEq

/-- The bytes that the array needs. -/
def Allocation.bytes (l : Allocation) : ℕ := l.n * l.type.size

/-- The exceptions of `allocate`. -/
inductive AllocError where
  | badArrayNewLength
  | badAlloc
  deriving DecidableEq, Repr

/-- The global allocator and the arrays that live in it. -/
structure StdHeap where
  alloc : BuddyAllocator
  allocations : List Allocation

/-- `GetGlobalBuddy`, at its first call. -/
def getGlobalBuddy (allocateVirtualMemory : ℕ → ℕ) (mem : Mem) : Except String BuddyAllocator :=
  BuddyAllocator.create allocateVirtualMemory (1024 * 1024 * 16) 64 mem

namespace StdHeap

variable (h : StdHeap)

/-- `Allocator<T>::allocate`, recording the array that is returned. -/
def allocate (T : ValueType) (n : ℕ) : Except AllocError ℕ × StdHeap :=
  if n > (2 ^ 64 - 1) / T.size then (.error .badArrayNewLength, h)
  else
    let r := h.alloc.allocate (Word64.mul n T.size)
    let ptr := r.1
    if ptr = 0 then (.error .badAlloc, { h with alloc := r.2 })
    else (.ok ptr, { alloc := r.2, allocations := ⟨ptr, T, n⟩ :: h.allocations })

/-- `Allocator<T>::deallocate`, striking the array off the record. -/
def deallocate (T : ValueType) (p n : ℕ) : Option StdHeap :=
  (h.alloc.free p (Word64.mul n T.size)).map (fun b =>
    { alloc := b, allocations := h.allocations.erase ⟨p, T, n⟩ })

/-- The client writes a byte. -/
def write (a : ℕ) (v : UInt8) : StdHeap :=
  { h with alloc := { h.alloc with mem := Function.update h.alloc.mem a v } }

end StdHeap

/-- What the containers do. -/
inductive StdHeapOp where
  | allocate (T : ValueType) (n : ℕ)
  | deallocate (T : ValueType) (p n : ℕ)
  | write (a : ℕ) (v : UInt8)

/-- The heap under matched use: an array is given back once, by the type and the number
that it was allocated with. -/
def stdHeapMachine : GuardedMachine StdHeap StdHeapOp where
  pre := fun h op => match op with
    | .allocate _ _ => True
    | .deallocate T p n => ⟨p, T, n⟩ ∈ h.allocations
    | .write a _ => ∃ l ∈ h.allocations, l.ptr ≤ a ∧ a < l.ptr + l.bytes
  exec := fun h op => match op with
    | .allocate T n => some (h.allocate T n).2
    | .deallocate T p n => h.deallocate T p n
    | .write a v => some (h.write a v)

instance (h : StdHeap) (op : StdHeapOp) : Decidable (stdHeapMachine.pre h op) :=
  match op with
  | .allocate _ _ => .isTrue trivial
  | .deallocate T p n => inferInstanceAs (Decidable ((⟨p, T, n⟩ : Allocation) ∈ h.allocations))
  | .write a _ => inferInstanceAs (Decidable (∃ l ∈ h.allocations, l.ptr ≤ a ∧ a < l.ptr + l.bytes))

/-- The arena of the global allocator: 16 MiB at a multiple of 16 MiB, in blocks of at
least 64 bytes. -/
structure GlobalArena extends BuddyArena where
  min_eq : minBits = 6
  total_eq : totalBits = 24

namespace GlobalArena

variable (G : GlobalArena)

/-- The heap before the first call. -/
def start (mem : Mem) : StdHeap := ⟨G.initial mem, []⟩

/-- `GetGlobalBuddy` constructs the allocator over the arena that it is given. -/
theorem getGlobalBuddy_eq (allocateVirtualMemory : ℕ → ℕ) (mem : Mem)
    (hos : allocateVirtualMemory (1024 * 1024 * 16) = G.base) :
    getGlobalBuddy allocateVirtualMemory mem = .ok (G.start mem).alloc := by
  have htotal : G.totalSize = 1024 * 1024 * 16 := by
    rw [BuddyArena.totalSize, G.total_eq]
    norm_num
  have hmin : G.minBlockSize = 64 := by
    rw [BuddyArena.minBlockSize, G.min_eq]
    norm_num
  have hup : alignUp (1024 * 1024 * 16) 4096 = 1024 * 1024 * 16 := by decide +kernel
  rw [getGlobalBuddy, ← htotal, ← hmin]
  apply G.create_eq_initial
  rw [htotal, hup]
  exact hos

end GlobalArena

/-! ## The session behind a heap -/

namespace StdHeap

variable (h : StdHeap)

/-- The heap as a session of its allocator. -/
def session : BuddySession :=
  ⟨h.alloc, h.allocations.map (fun l => ⟨l.ptr, h.alloc.getOrder l.bytes⟩)⟩

/-- The block in which an array lives. -/
def block (l : Allocation) : BuddyBlock := ⟨h.alloc.getOrder l.bytes, h.alloc.offsetOf l.ptr⟩

theorem liveBlocks_session : h.session.liveBlocks = h.allocations.map h.block :=
  List.map_map

end StdHeap

/-- The heap is a session over the arena, and none of its arrays was granted by a product
that wraps. -/
structure StdHeapInv (A : BuddyArena) (h : StdHeap) (L : FreeIndices) (Q : List (ℕ × ℕ)) :
    Prop where
  session : SessionInv A h.session L Q
  bytes_lt : ∀ l ∈ h.allocations, l.bytes < 2 ^ 64

section StdHeap

variable {A : BuddyArena} {h : StdHeap} {L : FreeIndices} {Q : List (ℕ × ℕ)}
  {T : ValueType} {n p : ℕ}

/-- The guard of `allocate` is the test whether the product wraps. -/
theorem overflow_guard_iff (T : ValueType) (n : ℕ) :
    n > (2 ^ 64 - 1) / T.size ↔ 2 ^ 64 ≤ n * T.size := by
  rw [gt_iff_lt, Nat.div_lt_iff_lt_mul T.size_pos]
  omega

/-- Erasing from a record is erasing from its image, if that has no duplicates. -/
theorem map_erase_of_nodup {α β : Type*} [DecidableEq α] [DecidableEq β] {f : α → β} {l : List α}
    (hnodup : (l.map f).Nodup) {a : α} (ha : a ∈ l) :
    (l.erase a).map f = (l.map f).erase (f a) := by
  induction l with
  | nil => simp at ha
  | cons b l ih =>
    rw [List.map_cons, List.nodup_cons] at hnodup
    by_cases hb : b = a
    · subst hb
      rw [List.erase_cons_head, List.map_cons, List.erase_cons_head]
    · have ha' : a ∈ l := (List.mem_cons.mp ha).resolve_left (Ne.symm hb)
      have hfb : f b ≠ f a := fun heq => hnodup.1 (heq ▸ List.mem_map_of_mem ha')
      rw [List.erase_cons_tail (by simpa using hb), List.map_cons, List.map_cons,
        List.erase_cons_tail (by simpa using hfb), ih hnodup.2 ha']

/-- The orders of a session do not change while its allocator works. -/
theorem SessionInv.map_live_congr {s t : BuddySession} {L' : FreeIndices} {Q' : List (ℕ × ℕ)}
    (hs : SessionInv A s L Q) (ht : SessionInv A t L' Q') (l : List Allocation) :
    l.map (fun l => (⟨l.ptr, t.alloc.getOrder l.bytes⟩ : LiveBlock))
      = l.map (fun l => ⟨l.ptr, s.alloc.getOrder l.bytes⟩) := by
  apply List.map_congr_left
  intro l _
  rw [BuddyAllocator.getOrder_congr (ht.represents.min_eq.trans hs.represents.min_eq.symm)]

/-- **`allocate`** throws without touching the heap, or is `Allocate` of the session. -/
theorem StdHeapInv.allocate (hinv : StdHeapInv A h L Q) (T : ValueType) (n : ℕ) :
    (2 ^ 64 ≤ n * T.size ∧ h.allocate T n = (.error .badArrayNewLength, h)) ∨
    (n * T.size < 2 ^ 64 ∧ (h.session.allocate (n * T.size)).1 = 0 ∧
      h.allocate T n = (.error .badAlloc, h)) ∨
    (n * T.size < 2 ^ 64 ∧ (h.session.allocate (n * T.size)).1 ≠ 0 ∧ ∃ h',
      h.allocate T n = (.ok (h.session.allocate (n * T.size)).1, h') ∧
      h'.allocations = ⟨(h.session.allocate (n * T.size)).1, T, n⟩ :: h.allocations ∧
      h'.session = (h.session.allocate (n * T.size)).2 ∧ ∃ L' Q', StdHeapInv A h' L' Q') := by
  by_cases hwrap : 2 ^ 64 ≤ n * T.size
  · exact .inl ⟨hwrap, if_pos ((overflow_guard_iff T n).mpr hwrap)⟩
  have hlt := not_le.mp hwrap
  have hguard : ¬ n > (2 ^ 64 - 1) / T.size := (overflow_guard_iff T n).not.mpr hwrap
  have hptr : (h.session.allocate (n * T.size)).1 = (h.alloc.allocate (n * T.size)).1 := rfl
  rcases hinv.session.allocate (n * T.size) with ⟨hnull, hsame, -⟩ | ⟨i, L', -, -, haddr, -, hnew⟩
  · refine .inr (.inl ⟨hlt, hnull, ?_⟩)
    have halloc : (h.alloc.allocate (n * T.size)).2 = h.alloc := congrArg BuddySession.alloc hsame
    rw [StdHeap.allocate, if_neg hguard, Word64.mul_of_lt hlt]
    simp only [← hptr, hnull, if_true, halloc]
  · have hne : (h.session.allocate (n * T.size)).1 ≠ 0 := haddr ▸ A.addr_ne_zero _ i
    have hlive : (h.session.allocate (n * T.size)).2.live
        = ⟨(h.session.allocate (n * T.size)).1, h.alloc.getOrder (n * T.size)⟩ :: h.session.live :=
      if_neg hne
    have hsession : (⟨(h.alloc.allocate (n * T.size)).2,
        ⟨(h.session.allocate (n * T.size)).1, T, n⟩ :: h.allocations⟩ : StdHeap).session
          = (h.session.allocate (n * T.size)).2 := by
      have hmap := hinv.session.map_live_congr hnew
        (⟨(h.session.allocate (n * T.size)).1, T, n⟩ :: h.allocations)
      rw [StdHeap.session]
      exact congrArg (BuddySession.mk _) (hmap.trans hlive.symm)
    refine .inr (.inr ⟨hlt, hne, _, ?_, rfl, hsession, L', _, hsession ▸ hnew, ?_⟩)
    · rw [StdHeap.allocate, if_neg hguard, Word64.mul_of_lt hlt]
      simp only [← hptr, if_neg hne]
    · intro l hl
      rcases List.mem_cons.mp hl with rfl | hl
      · exact hlt
      · exact hinv.bytes_lt l hl

/-- **`deallocate`** of a recorded array is `Free` of the session. -/
theorem StdHeapInv.deallocate (hinv : StdHeapInv A h L Q)
    (hl : (⟨p, T, n⟩ : Allocation) ∈ h.allocations) :
    ∃ h' i, (h.alloc.getOrder (n * T.size), i) ∈ Q ∧ p = A.addr (h.alloc.getOrder (n * T.size)) i ∧
      h.deallocate T p n = some h' ∧ h'.allocations = h.allocations.erase ⟨p, T, n⟩ ∧
      ∃ L', StdHeapInv A h' L' (Q.erase (h.alloc.getOrder (n * T.size), i)) := by
  have hlt : n * T.size < 2 ^ 64 := hinv.bytes_lt _ hl
  have hlive : (⟨p, h.session.alloc.getOrder (n * T.size)⟩ : LiveBlock) ∈ h.session.live :=
    List.mem_map_of_mem (f := fun l : Allocation =>
      (⟨l.ptr, h.alloc.getOrder l.bytes⟩ : LiveBlock)) hl
  obtain ⟨i, t, hq, hptr, hfree, hnew⟩ := hinv.session.free hlive
  obtain ⟨b, hb, rfl⟩ := Option.map_eq_some_iff.mp hfree
  have hsession : (⟨b, h.allocations.erase ⟨p, T, n⟩⟩ : StdHeap).session
      = ⟨b, h.session.live.erase ⟨p, h.session.alloc.getOrder (n * T.size)⟩⟩ := by
    have hnodup : h.session.live.Nodup := by
      rw [hinv.session.live_eq]
      exact hinv.session.nodup.map A.liveBlock_injective
    rw [StdHeap.session]
    refine congrArg (BuddySession.mk b) ((hinv.session.map_live_congr hnew _).trans ?_)
    exact map_erase_of_nodup hnodup hl
  refine ⟨⟨b, h.allocations.erase ⟨p, T, n⟩⟩, i, hq, hptr, ?_, rfl, _, hsession ▸ hnew, ?_⟩
  · rw [StdHeap.deallocate, Word64.mul_of_lt hlt]
    exact (congrArg (Option.map _) hb)
  · intro l hmem
    exact hinv.bytes_lt l (List.mem_of_mem_erase hmem)

/-- A write into an array keeps away from the free lists. -/
theorem StdHeapInv.write (hinv : StdHeapInv A h L Q) {l : Allocation} (hl : l ∈ h.allocations)
    {a : ℕ}
    (ha : l.ptr ≤ a) (ha' : a < l.ptr + l.bytes) (v : UInt8) : StdHeapInv A (h.write a v) L Q := by
  have hlive : (⟨l.ptr, h.alloc.getOrder l.bytes⟩ : LiveBlock) ∈ h.session.live :=
    List.mem_map_of_mem (f := fun l : Allocation =>
      (⟨l.ptr, h.alloc.getOrder l.bytes⟩ : LiveBlock)) hl
  have hfits : l.bytes ≤ h.session.alloc.minBlockSize * 2 ^ h.alloc.getOrder l.bytes := by
    rw [hinv.session.represents.min_eq]
    exact hinv.session.getOrder_le_iff.mp le_rfl
  refine ⟨hinv.session.write hlive ha ?_ v, hinv.bytes_lt⟩
  show a < l.ptr + h.session.alloc.minBlockSize * 2 ^ h.alloc.getOrder l.bytes
  omega

/-- Every matched call returns and keeps the invariant. -/
theorem StdHeapInv.step (hinv : StdHeapInv A h L Q) {op : StdHeapOp}
    (hpre : stdHeapMachine.pre h op) :
    ∃ h', stdHeapMachine.exec h op = some h' ∧ ∃ L' Q', StdHeapInv A h' L' Q' := by
  cases op with
  | allocate T n =>
    rcases hinv.allocate T n with ⟨-, heq⟩ | ⟨-, -, heq⟩ | ⟨-, -, h', heq, -, -, hnew⟩
    · exact ⟨_, rfl, L, Q, by rw [heq]; exact hinv⟩
    · exact ⟨_, rfl, L, Q, by rw [heq]; exact hinv⟩
    · exact ⟨_, rfl, by rw [heq]; exact hnew⟩
  | deallocate T p n =>
    obtain ⟨h', i, -, -, heq, -, L', hnew⟩ := hinv.deallocate hpre
    exact ⟨h', heq, L', _, hnew⟩
  | write a v =>
    obtain ⟨l, hl, ha, ha'⟩ := hpre
    exact ⟨_, rfl, L, Q, hinv.write hl ha ha' v⟩

/-- **Every matched run returns in a heap that satisfies the invariant.** -/
theorem stdHeapInv_of_legal {G : GlobalArena} {mem : Mem} {ops : List StdHeapOp}
    (hlegal : stdHeapMachine.Legal (G.start mem) ops) :
    ∃ h, stdHeapMachine.run (G.start mem) ops = some h ∧
      ∃ L Q, StdHeapInv G.toBuddyArena h L Q := by
  have hstart : StdHeapInv G.toBuddyArena (G.start mem)
      (fun k => if k = G.maxOrder then [0] else []) [] := by
    refine ⟨sessionInv_start G.toBuddyArena mem, fun l hl => ?_⟩
    exact absurd hl List.not_mem_nil
  refine GuardedMachine.Legal.invariant (I := fun h => ∃ L Q, StdHeapInv G.toBuddyArena h L Q) ?_
    ⟨_, _, hstart⟩ hlegal
  rintro h op ⟨L, Q, hinv⟩ hpre
  exact hinv.step hpre

/-! ## Free bytes -/

/-- The offsets of the bytes of the free blocks. -/
def BuddySession.freeBytes (s : BuddySession) (A : BuddyArena) (F : ℕ → List ℕ) : Set ℕ :=
  ⋃ b ∈ s.freeBlocks F, b.bytes A

/-- The free bytes are the bytes of the arena that no live block has. -/
theorem SessionInv.mem_freeBytes_iff {s : BuddySession} (hs : SessionInv A s L Q) {F : ℕ → List ℕ}
    (hF : s.FreeListsAre F) {x : ℕ} :
    x ∈ s.freeBytes A F ↔ x < A.totalSize ∧ ∀ q ∈ Q, x ∉ (A.buddyBlock q).bytes A := by
  have htiling := hs.lists.system.tiling
  rw [BuddySession.freeBytes, hs.freeBlocks_eq hF]
  simp only [Set.mem_iUnion, exists_prop]
  constructor
  · rintro ⟨b, hb, hx⟩
    obtain ⟨q, hq, rfl⟩ := List.mem_map.mp hb
    rw [A.bytes_buddyBlock] at hx
    have hin := htiling.subset _ (.inl (blockAt_mem_freeSet hq)) hx
    rw [A.whole_span, Set.mem_Ico] at hin
    refine ⟨hin.2, fun q' hq' hx' => ?_⟩
    rw [A.bytes_buddyBlock] at hx'
    have heq := htiling.unique _ (.inl (blockAt_mem_freeSet hq)) _
      (.inr (A.mem_liveSet.mpr hq')) _ hx hx'
    exact hs.lists.system.disjoint _ (blockAt_mem_freeSet hq) (heq ▸ A.mem_liveSet.mpr hq')
  · rintro ⟨hx, hapart⟩
    obtain ⟨b, hb, hxb⟩ := htiling.cover x (by rw [A.whole_span]; exact ⟨Nat.zero_le x, hx⟩)
    obtain ⟨q, hq, rfl⟩ := exists_code hb
    rw [← A.bytes_buddyBlock] at hxb
    rcases List.mem_append.mp hq with hq | hq
    · exact ⟨_, List.mem_map_of_mem hq, hxb⟩
    · exact absurd hxb (hapart q hq)

/-- Giving back one block adds its bytes to the free ones. -/
theorem SessionInv.freeBytes_erase {s t : BuddySession} {L' : FreeIndices} {q : ℕ × ℕ}
    (hs : SessionInv A s L Q) (hq : q ∈ Q) (ht : SessionInv A t L' (Q.erase q)) {F F' : ℕ → List ℕ}
    (hF : s.FreeListsAre F) (hF' : t.FreeListsAre F') :
    t.freeBytes A F' = s.freeBytes A F ∪ (A.buddyBlock q).bytes A ∧
      Disjoint (s.freeBytes A F) ((A.buddyBlock q).bytes A) := by
  have htiling := hs.lists.system.tiling
  constructor
  · ext x
    rw [Set.mem_union, ht.mem_freeBytes_iff hF', hs.mem_freeBytes_iff hF]
    constructor
    · rintro ⟨hx, hapart⟩
      by_cases hxq : x ∈ (A.buddyBlock q).bytes A
      · exact .inr hxq
      · refine .inl ⟨hx, fun q' hq' => ?_⟩
        by_cases heq : q' = q
        · exact heq ▸ hxq
        · exact hapart q' (hs.nodup.mem_erase_iff.mpr ⟨heq, hq'⟩)
    · rintro (⟨hx, hapart⟩ | hxq)
      · exact ⟨hx, fun q' hq' => hapart q' (List.mem_of_mem_erase hq')⟩
      · -- the block lies in the arena and meets no other live block
        rw [A.bytes_buddyBlock] at hxq
        have hin := htiling.subset _ (.inr (A.mem_liveSet.mpr hq)) hxq
        rw [A.whole_span, Set.mem_Ico] at hin
        refine ⟨hin.2, fun q' hq' hx' => ?_⟩
        obtain ⟨hne, hmem⟩ := hs.nodup.mem_erase_iff.mp hq'
        rw [A.bytes_buddyBlock] at hx'
        have heq := htiling.unique _ (.inr (A.mem_liveSet.mpr hmem)) _
          (.inr (A.mem_liveSet.mpr hq)) _ hx' hxq
        exact hne (A.blockAt_injective heq)
  · rw [Set.disjoint_left]
    intro x hx
    exact ((hs.mem_freeBytes_iff hF).mp hx).2 q hq

/-! ## The contract -/

/-- The addresses of a block whose size is at least `2 ^ e` are multiples of `2 ^ e`. -/
theorem BuddyArena.two_pow_dvd_addr (A : BuddyArena) {e k : ℕ} (i : ℕ) (he : e ≤ A.totalBits)
    (hk : e ≤ A.minBits + k) : 2 ^ e ∣ A.addr k i := by
  rw [BuddyArena.addr]
  apply dvd_add
  · exact (pow_dvd_pow 2 he).trans A.base_dvd
  · exact (pow_dvd_pow 2 hk).trans (dvd_mul_left _ _)

/-- What the containers rely on in a heap whose free lists are `F`. -/
structure StdContract (A : BuddyArena) (h : StdHeap) (F : ℕ → List ℕ) : Prop where
  badArrayNewLength : ∀ T n, 1 ≤ n →
    ((h.allocate T n).1 = .error .badArrayNewLength ↔ 2 ^ 64 ≤ n * T.size)
  badAlloc : ∀ T n, 1 ≤ n → n * T.size < 2 ^ 64 →
    ((h.allocate T n).1 = .error .badAlloc ↔
      ¬ ∃ b ∈ h.session.freeBlocks F, h.alloc.getOrder (n * T.size) ≤ b.order)
  unchanged : ∀ T n e, (h.allocate T n).1 = .error e → (h.allocate T n).2 = h
  granted : ∀ T n p, 1 ≤ n → (h.allocate T n).1 = .ok p →
    T.align ∣ p ∧ p = A.base + (h.block ⟨p, T, n⟩).offset ∧
      n * T.size ≤ A.minBlockSize <<< (h.block ⟨p, T, n⟩).order ∧
      A.minBlockSize <<< (h.block ⟨p, T, n⟩).order ∣ (h.block ⟨p, T, n⟩).offset ∧
      (h.block ⟨p, T, n⟩).bytes A ⊆ Set.Ico 0 A.totalSize ∧
      (∀ l ∈ h.allocations, Disjoint ((h.block ⟨p, T, n⟩).bytes A) ((h.block l).bytes A)) ∧
      (h.allocate T n).2.allocations = ⟨p, T, n⟩ :: h.allocations
  released : ∀ l ∈ h.allocations, ∃ h' F', h.deallocate l.type l.ptr l.n = some h' ∧
    h'.session.FreeListsAre F' ∧
    h'.session.freeBytes A F' = h.session.freeBytes A F ∪ (h.block l).bytes A ∧
    Disjoint (h.session.freeBytes A F) ((h.block l).bytes A) ∧
    h'.allocations = h.allocations.erase l

/-- `Allocate` of the session finds nothing exactly when no free block is large enough. -/
theorem SessionInv.allocate_eq_zero_iff_orders {s : BuddySession} (hs : SessionInv A s L Q)
    {F : ℕ → List ℕ} (hF : s.FreeListsAre F) (size : ℕ) :
    (s.allocate size).1 = 0 ↔ ¬ ∃ b ∈ s.freeBlocks F, s.alloc.getOrder size ≤ b.order := by
  rw [hs.freeBlocks_eq hF]
  constructor
  · rintro hnull ⟨b, hb, hk⟩
    obtain ⟨⟨k, i⟩, hq, rfl⟩ := List.mem_map.mp hb
    obtain ⟨hmax, hi⟩ := mem_freeCodes.mp hq
    rcases hs.allocate size with ⟨-, -, hnone⟩ | ⟨i', L', -, -, hptr, -⟩
    · rw [hnone k hk hmax] at hi
      exact List.not_mem_nil hi
    · exact A.addr_ne_zero _ _ (hptr.symm.trans hnull)
  · intro hnone
    by_contra hne
    obtain ⟨j, i, rest, hkj, hj, hL, -⟩ := hs.allocate_cut hne
    refine hnone ⟨A.buddyBlock (j, i), List.mem_map_of_mem (mem_freeCodes.mpr ⟨hj, ?_⟩), hkj⟩
    rw [hL]
    exact List.mem_cons_self ..

/-- **A granted array** is aligned, fits into its block and keeps away from the others. -/
theorem StdHeapInv.granted (hinv : StdHeapInv A h L Q) (hbits : 12 ≤ A.totalBits) (hn : 1 ≤ n)
    (hok : (h.allocate T n).1 = .ok p) :
    T.align ∣ p ∧ p = A.base + (h.block ⟨p, T, n⟩).offset ∧
      n * T.size ≤ A.minBlockSize <<< (h.block ⟨p, T, n⟩).order ∧
      h.session.Vacant A (h.block ⟨p, T, n⟩) ∧
      (h.allocate T n).2.allocations = ⟨p, T, n⟩ :: h.allocations := by
  rcases hinv.allocate T n with ⟨-, heq⟩ | ⟨-, -, heq⟩ | ⟨hlt, hne, h', heq, hrecord, -, -⟩
  · simp [heq] at hok
  · simp [heq] at hok
  rw [heq] at hok
  obtain rfl : (h.session.allocate (n * T.size)).1 = p := Except.ok.inj hok
  rcases hinv.session.allocate (n * T.size) with ⟨hnull, -⟩ | ⟨i, L', hk, -, haddr, -, hnew⟩
  · exact absurd hnull hne
  set k := h.session.alloc.getOrder (n * T.size) with hkdef
  have hblock : h.block ⟨(h.session.allocate (n * T.size)).1, T, n⟩ = A.buddyBlock (k, i) := by
    rw [haddr]
    exact BuddyBlock.ext rfl (hinv.session.offsetOf_addr k i)
  have hfits : n * T.size ≤ 2 ^ (A.minBits + k) := by
    rw [pow_add]
    exact hinv.session.getOrder_le_iff.mp le_rfl
  have hvacant : h.session.Vacant A (A.buddyBlock (k, i)) := by
    have hlive : A.blockAt (k, i) ∈ A.liveSet ((k, i) :: Q) :=
      A.mem_liveSet.mpr (List.mem_cons_self ..)
    refine ⟨hk, ?_, ?_, ?_⟩
    · rw [A.shiftLeft_eq]
      exact dvd_mul_left _ _
    · rw [A.bytes_buddyBlock, ← A.whole_span]
      exact hnew.lists.system.tiling.subset _ (.inr hlive)
    · intro l hl
      rw [hinv.session.liveBlocks_eq] at hl
      obtain ⟨q, hq, rfl⟩ := List.mem_map.mp hl
      exact hnew.disjoint_live hq
  have halign : T.align ∣ A.addr k i := by
    obtain ⟨e, he, hpow⟩ := T.align_pow
    rw [hpow]
    apply A.two_pow_dvd_addr i (he.trans hbits)
    -- the block is at least as large as one element, which is at least the alignment
    have hle : 2 ^ e ≤ 2 ^ (A.minBits + k) := by
      calc 2 ^ e = T.align := hpow.symm
        _ ≤ T.size := Nat.le_of_dvd T.size_pos T.align_dvd
        _ ≤ n * T.size := Nat.le_mul_of_pos_left _ hn
        _ ≤ 2 ^ (A.minBits + k) := hfits
    exact (Nat.pow_le_pow_iff_right (by norm_num)).mp hle
  rw [hblock, heq]
  refine ⟨haddr ▸ halign, haddr, ?_, hvacant, hrecord⟩
  rw [A.shiftLeft_eq]
  exact hfits

/-- A heap that satisfies the invariant keeps the contract. -/
theorem StdHeapInv.stdContract (hinv : StdHeapInv A h L Q) (hbits : 12 ≤ A.totalBits)
    {F : ℕ → List ℕ}
    (hF : h.session.FreeListsAre F) : StdContract A h F := by
  refine ⟨?_, ?_, ?_, ?_, ?_⟩
  · intro T n _
    rcases hinv.allocate T n with ⟨hwrap, heq⟩ | ⟨hlt, -, heq⟩ | ⟨hlt, -, h', heq, -⟩
    · rw [heq]
      exact iff_of_true rfl hwrap
    · rw [heq]
      exact iff_of_false (by simp) (not_le.mpr hlt)
    · rw [heq]
      exact iff_of_false (by simp) (not_le.mpr hlt)
  · intro T n _ hlt
    have horders := hinv.session.allocate_eq_zero_iff_orders hF (n * T.size)
    rw [show h.alloc = h.session.alloc from rfl, ← horders]
    rcases hinv.allocate T n with ⟨hwrap, -⟩ | ⟨-, hnull, heq⟩ | ⟨-, hne, h', heq, -⟩
    · exact absurd hlt (not_lt.mpr hwrap)
    · simp [heq, hnull]
    · simp [heq, hne]
  · intro T n e herr
    rcases hinv.allocate T n with ⟨-, heq⟩ | ⟨-, -, heq⟩ | ⟨-, -, h', heq, -⟩
    · rw [heq]
    · rw [heq]
    · simp [heq] at herr
  · intro T n p hn hok
    obtain ⟨halign, hptr, hfits, hvacant, hrecord⟩ := hinv.granted hbits hn hok
    refine ⟨halign, hptr, hfits, hvacant.aligned, hvacant.inside, fun l hl => ?_, hrecord⟩
    apply hvacant.apart
    rw [h.liveBlocks_session]
    exact List.mem_map_of_mem hl
  · rintro ⟨p, T, n⟩ hl
    obtain ⟨h', i, hq, hptr, heq, hrecord, L', hnew⟩ := hinv.deallocate hl
    have hblock : h.block ⟨p, T, n⟩ = A.buddyBlock (h.alloc.getOrder (n * T.size), i) := by
      rw [hptr]
      exact BuddyBlock.ext rfl (hinv.session.offsetOf_addr _ i)
    obtain ⟨hbytes, hdisjoint⟩ :=
      hinv.session.freeBytes_erase hq hnew.session hF hnew.session.freeListsAre
    exact ⟨h', _, heq, hnew.session.freeListsAre, hblock ▸ hbytes, hblock ▸ hdisjoint, hrecord⟩

end StdHeap

/-- **The allocator of the standard containers.**  After every matched history of
allocations and deallocations of any types over the global arena, `allocate(n)` throws
`bad_array_new_length` exactly when `n * sizeof(T)` is not a `size_t`, otherwise
`bad_alloc` exactly when no free block has the order of the request or a larger one, and
neither changes the heap; otherwise it returns an address that is aligned for `T`, the
start of a block for the array that is disjoint from all live ones.  `deallocate` adds
the bytes of exactly that block to the free ones. -/
theorem std_allocator_contract (G : GlobalArena) (mem : Mem) (ops : List StdHeapOp)
    (hlegal : stdHeapMachine.Legal (G.start mem) ops) :
    (∀ allocateVirtualMemory : ℕ → ℕ, allocateVirtualMemory (1024 * 1024 * 16) = G.base →
      getGlobalBuddy allocateVirtualMemory mem = .ok (G.start mem).alloc) ∧
    ∃ h F, stdHeapMachine.run (G.start mem) ops = some h ∧ h.session.FreeListsAre F ∧
      StdContract G.toBuddyArena h F := by
  obtain ⟨h, hrun, L, Q, hinv⟩ := stdHeapInv_of_legal hlegal
  have hbits : 12 ≤ G.totalBits := by
    rw [G.total_eq]
    norm_num
  exact ⟨fun os hos => G.getGlobalBuddy_eq os mem hos, h, _, hrun, hinv.session.freeListsAre,
    hinv.stdContract hbits hinv.session.freeListsAre⟩

/-- A global arena at 16 MiB. -/
def lowGlobalArena : GlobalArena where
  base := 2 ^ 24
  minBits := 6
  totalBits := 24
  three_le := testArena.three_le
  min_le := globalArena.min_le
  base_pos := by norm_num
  base_dvd := dvd_rfl
  below := by norm_num
  min_eq := rfl
  total_eq := rfl

/-- `int`. -/
def intType : ValueType := ⟨4, 4, by norm_num, dvd_rfl, 2, by norm_num⟩

/-- The calls of the test `StdVectorIntegration`: a vector that doubles its capacity from 1
to 128 elements, and gives back the old array each time. -/
def stdVectorIntegration : List StdHeapOp :=
  [.allocate intType 1, .allocate intType 2, .deallocate intType (2 ^ 24) 1,
    .allocate intType 4, .deallocate intType (2 ^ 24 + 64) 2,
    .allocate intType 8, .deallocate intType (2 ^ 24) 4,
    .allocate intType 16, .deallocate intType (2 ^ 24 + 64) 8,
    .allocate intType 32, .deallocate intType (2 ^ 24) 16,
    .allocate intType 64, .deallocate intType (2 ^ 24 + 128) 32,
    .allocate intType 128, .deallocate intType (2 ^ 24 + 256) 64]

theorem stdVectorIntegration_contract :
    ∃ h F, stdHeapMachine.run (lowGlobalArena.start (fun _ => 0)) stdVectorIntegration = some h ∧
      h.session.FreeListsAre F ∧ StdContract lowGlobalArena.toBuddyArena h F :=
  (std_allocator_contract lowGlobalArena (fun _ => 0) stdVectorIntegration (by decide +kernel)).2

end Memory
