/-
# The linked free lists refine the lists of indices

`BuddyArena` is the configuration the allocator is meant for: powers of two for the
total and the smallest size, a block at least as large as a pointer, and a base that is
a multiple of the total size.  `Represents A b L` says that the chains in memory are the
lists `L` of block indices.  Under the list invariant every operation of the source
computes, through memory, what `takeList` and `giveList` compute on lists:

* `allocateFrom_refines` : `AllocateInternal`;
* `freeFrom_refines` : `FreeInternal`, whose search loop ends within its bound.

All nodes are multiples of eight, so that distinct nodes have separate `next` words;
a store therefore changes the successor of one node only.
-/
import MemoryAllocator.BuddyAllocator
import MemoryAllocator.BuddyLists
import MemoryAllocator.LinkedChain

open DyadicBlock

namespace Memory

/-- The configurations of disciplined use: sizes `2 ^ minBits ≤ 2 ^ totalBits`, blocks
that hold a pointer, and an arena at a multiple of its size inside the address space. -/
structure BuddyArena where
  base : ℕ
  minBits : ℕ
  totalBits : ℕ
  three_le : 3 ≤ minBits
  min_le : minBits ≤ totalBits
  base_pos : 0 < base
  base_dvd : 2 ^ totalBits ∣ base
  below : base + 2 ^ totalBits ≤ 2 ^ 64

namespace BuddyArena

variable (A : BuddyArena)

def minBlockSize : ℕ := 2 ^ A.minBits

def totalSize : ℕ := 2 ^ A.totalBits

def maxOrder : ℕ := A.totalBits - A.minBits

/-- The address of the block with the given order and index. -/
def addr (k i : ℕ) : ℕ := A.base + i * 2 ^ (A.minBits + k)

theorem totalBits_eq : A.totalBits = A.minBits + A.maxOrder := by
  have h := A.min_le
  rw [maxOrder]
  omega

theorem totalBits_lt : A.totalBits < 64 := by
  obtain ⟨q, hq⟩ := A.base_dvd
  have hpos := A.base_pos
  have hbelow := A.below
  have hqpos : 1 ≤ q := by
    rcases Nat.eq_zero_or_pos q with rfl | h
    · simp [hq] at hpos
    · exact h
  have hle : 2 ^ A.totalBits * 1 ≤ 2 ^ A.totalBits * q := Nat.mul_le_mul_left _ hqpos
  have hlt : 2 ^ A.totalBits < 2 ^ 64 := by
    have := Nat.two_pow_pos A.totalBits
    omega
  exact (Nat.pow_lt_pow_iff_right (by norm_num)).mp hlt

theorem minBlockSize_pos : 0 < A.minBlockSize := Nat.two_pow_pos _

/-- Block sizes do not wrap. -/
theorem shl_eq {k : ℕ} (hk : k ≤ A.maxOrder) :
    Word64.shl A.minBlockSize k = 2 ^ (A.minBits + k) := by
  have hlt : 2 ^ A.minBits * 2 ^ k < 2 ^ 64 := by
    rw [← pow_add]
    apply Nat.pow_lt_pow_right (by norm_num)
    have h := A.totalBits_lt
    have h' := A.totalBits_eq
    omega
  rw [minBlockSize, Word64.shl_of_lt hlt, pow_add]

theorem eight_dvd_addr (k i : ℕ) : 8 ∣ A.addr k i := by
  have h8 : (8 : ℕ) = 2 ^ 3 := by norm_num
  have hbase : 8 ∣ A.base := by
    rw [h8]
    exact (Nat.pow_dvd_pow 2 (A.three_le.trans A.min_le)).trans A.base_dvd
  have hblock : 8 ∣ i * 2 ^ (A.minBits + k) := by
    rw [h8]
    exact (Nat.pow_dvd_pow 2 (A.three_le.trans (Nat.le_add_right _ _))).mul_left i
  exact dvd_add hbase hblock

theorem addr_ne_zero (k i : ℕ) : A.addr k i ≠ 0 := by
  have h := A.base_pos
  rw [addr]
  omega

theorem addr_eq_start (k i : ℕ) :
    A.addr k i = A.base + (⟨A.minBits + k, i⟩ : DyadicBlock).start := rfl

/-- Blocks of the arena end below `2 ^ 64`. -/
theorem addr_add_le {k i : ℕ} (hk : k ≤ A.maxOrder) (hi : i < 2 ^ (A.maxOrder - k)) :
    A.addr k i + 2 ^ (A.minBits + k) ≤ A.base + A.totalSize := by
  have hpow : 2 ^ A.totalBits = 2 ^ (A.maxOrder - k) * 2 ^ (A.minBits + k) := by
    have hbits : A.maxOrder - k + (A.minBits + k) = A.minBits + A.maxOrder := by omega
    rw [← pow_add, A.totalBits_eq, hbits]
  have hle : (i + 1) * 2 ^ (A.minBits + k) ≤ 2 ^ (A.maxOrder - k) * 2 ^ (A.minBits + k) :=
    Nat.mul_le_mul_right _ hi
  rw [add_mul, one_mul] at hle
  rw [addr, totalSize, hpow]
  omega

theorem addr_lt {k i : ℕ} (hk : k ≤ A.maxOrder) (hi : i < 2 ^ (A.maxOrder - k)) :
    A.addr k i < 2 ^ 64 := by
  have h := A.addr_add_le hk hi
  have hpos := Nat.two_pow_pos (A.minBits + k)
  have hbelow := A.below
  rw [totalSize] at h
  omega

/-- Splitting: the upper half of a block starts one block size further. -/
theorem addr_succ_half {k i : ℕ} (hk : k ≤ A.maxOrder)
    (hi : A.addr k (2 * i + 1) < 2 ^ 64) :
    Word64.add (A.addr (k + 1) i) (Word64.shl A.minBlockSize k) = A.addr k (2 * i + 1) := by
  have heq : A.addr (k + 1) i + 2 ^ (A.minBits + k) = A.addr k (2 * i + 1) := by
    rw [addr, addr, ← add_assoc A.minBits k 1, pow_succ]
    ring
  rw [A.shl_eq hk, Word64.add_of_lt (heq ▸ hi), heq]

/-- The lower half of a block has its address. -/
theorem addr_double (k i : ℕ) : A.addr k (2 * i) = A.addr (k + 1) i := by
  rw [addr, addr, ← add_assoc A.minBits k 1, pow_succ]
  ring

/-- Coalescing: exclusive or on the offset finds the buddy. -/
theorem addr_xor {k i : ℕ} (hk : k ≤ A.maxOrder) (hbuddy : A.addr k (i ^^^ 1) < 2 ^ 64) :
    Word64.add A.base (Word64.sub (A.addr k i) A.base ^^^ Word64.shl A.minBlockSize k)
      = A.addr k (i ^^^ 1) := by
  have hoff : Word64.sub (A.addr k i) A.base = i * 2 ^ (A.minBits + k) := by
    rw [addr, Word64.sub_of_le (Nat.le_add_right _ _), Nat.add_sub_cancel_left]
  rw [hoff, A.shl_eq hk, Word64.xor_two_pow]
  exact Word64.add_of_lt hbuddy

/-- Coalescing: masking the address finds the merged block, because the base is a
multiple of the total size. -/
theorem addr_land {k i : ℕ} (hk : k < A.maxOrder) (hi : A.addr k i < 2 ^ 64) :
    A.addr k i &&& Word64.not (Word64.shl A.minBlockSize k) = A.addr (k + 1) (i / 2) := by
  obtain ⟨q, hq⟩ := A.base_dvd
  have hbits := A.totalBits_eq
  -- the base in units of the block, an even number
  have hbase : A.base = (2 * (2 ^ (A.maxOrder - k - 1) * q)) * 2 ^ (A.minBits + k) := by
    rw [hq, show A.totalBits = (A.maxOrder - k - 1) + (A.minBits + k) + 1 by omega, pow_succ, pow_add]
    ring
  have haddr : A.addr k i
      = (2 * (2 ^ (A.maxOrder - k - 1) * q) + i) * 2 ^ (A.minBits + k) := by
    rw [addr, add_mul, ← hbase]
  have h64 : A.minBits + k < 64 := by
    have := A.totalBits_lt
    omega
  have hhalf : (2 * (2 ^ (A.maxOrder - k - 1) * q) + i) / 2
      = 2 ^ (A.maxOrder - k - 1) * q + i / 2 := by omega
  rw [A.shl_eq hk.le, haddr, Word64.land_not_bit (haddr ▸ hi) h64, hhalf, addr,
    ← add_assoc A.minBits k 1, hbase, pow_succ]
  ring

end BuddyArena

/-! ## The representation -/

/-- The allocator is configured as `A` and its chains are the lists `L`. -/
structure Represents (A : BuddyArena) (b : BuddyAllocator) (L : FreeIndices) : Prop where
  ptr_eq : b.storage.ptr = A.base
  min_eq : b.minBlockSize = A.minBlockSize
  max_eq : b.maxOrder = A.maxOrder
  chains : ∀ k ≤ A.maxOrder, Chain b.mem.loadPtr 0 (b.freeLists k) ((L k).map (A.addr k))

section Refinement

variable {A : BuddyArena} {b : BuddyAllocator} {L : FreeIndices} {live : Set DyadicBlock} {k i : ℕ}

theorem BuddyArena.addr_injective (A : BuddyArena) (k : ℕ) : Function.Injective (A.addr k) := by
  intro i j h
  rw [BuddyArena.addr, BuddyArena.addr, Nat.add_left_cancel_iff] at h
  exact Nat.eq_of_mul_eq_mul_right (Nat.two_pow_pos _) h

/-- A free block does not start inside a live one. -/
theorem ListInv.start_ne {m K : ℕ} (h : ListInv m K L live) {c d : DyadicBlock} {x : ℕ}
    (hc : c ∈ freeSet m K L) (hd : d ∈ live) (hx : x ∈ d.span) : c.start ≠ x := by
  rintro rfl
  have heq := h.system.tiling.unique c (.inl hc) d (.inr hd) c.start (start_mem_span c) hx
  exact h.system.disjoint c hc (heq ▸ hd)

/-- Free blocks of different orders start at different addresses. -/
theorem ListInv.addr_ne (h : ListInv A.minBits A.maxOrder L live) {j i' : ℕ} (hk : k ≤ A.maxOrder)
    (hj : j ≤ A.maxOrder) (hjk : j ≠ k) (hi' : i' ∈ L j) (hi : i ∈ L k) :
    A.addr j i' ≠ A.addr k i := by
  intro heq
  rw [A.addr_eq_start, A.addr_eq_start, Nat.add_left_cancel_iff] at heq
  have hblock := h.system.tiling.unique _ (.inl ((mem_freeSet hj).mpr hi')) _
    (.inl ((mem_freeSet hk).mpr hi)) _ (start_mem_span _) (heq ▸ start_mem_span _)
  have horder := (DyadicBlock.mk.inj hblock).1
  omega

/-- A live block has the address of no free block. -/
theorem ListInv.addr_ne_live (h : ListInv A.minBits A.maxOrder L live)
    (hb : (⟨A.minBits + k, i⟩ : DyadicBlock) ∈ live) :
    ∀ j ≤ A.maxOrder, ∀ i' ∈ L j, A.addr j i' ≠ A.addr k i := by
  intro j hj i' hi' heq
  rw [A.addr_eq_start, A.addr_eq_start, Nat.add_left_cancel_iff] at heq
  exact h.start_ne ((mem_freeSet hj).mpr hi') hb (start_mem_span _) heq

/-- The heads of the lists are words. -/
theorem Represents.head_lt (h : Represents A b L) (hinv : ListInv A.minBits A.maxOrder L live)
    (hk : k ≤ A.maxOrder) : b.freeLists k < 2 ^ 64 := by
  have hchain := h.chains k hk
  cases hL : L k with
  | nil =>
    rw [hL] at hchain
    rw [show b.freeLists k = 0 from hchain]
    norm_num
  | cons i rest =>
    rw [hL] at hchain
    rw [hchain.1]
    exact A.addr_lt hk (hinv.index_lt hk (by rw [hL]; exact List.mem_cons_self ..))

/-! ## List surgery -/

/-- `PushNode` links a block whose address is no node yet. -/
theorem Represents.pushNode (h : Represents A b L) (hk : k ≤ A.maxOrder)
    (hhead : b.freeLists k < 2 ^ 64)
    (hfresh : ∀ j ≤ A.maxOrder, ∀ i' ∈ L j, A.addr j i' ≠ A.addr k i) :
    Represents A (b.pushNode k (A.addr k i)) (Function.update L k (i :: L k)) := by
  refine ⟨h.ptr_eq, h.min_eq, h.max_eq, fun j hj => ?_⟩
  have hnext : ∀ a ∈ (L j).map (A.addr j),
      (b.mem.storePtr (A.addr k i) (b.freeLists k)).loadPtr a = b.mem.loadPtr a := by
    intro a ha
    obtain ⟨i', hi', rfl⟩ := List.mem_map.mp ha
    exact Mem.loadPtr_storePtr_of_dvd _ (A.eight_dvd_addr _ _) (A.eight_dvd_addr _ _)
      (hfresh j hj i' hi')
  by_cases hjk : j = k
  · subst hjk
    simp only [BuddyAllocator.pushNode, Function.update_self, List.map_cons]
    exact (h.chains j hj).push (A.addr_ne_zero j i) (Mem.loadPtr_storePtr _ _ hhead) hnext
  · simp only [BuddyAllocator.pushNode, Function.update_of_ne hjk]
    exact (h.chains j hj).congr hnext

/-- `PopNode` unlinks the first block of a list. -/
theorem Represents.popNode (h : Represents A b L) (hk : k ≤ A.maxOrder) {rest : List ℕ}
    (hL : L k = i :: rest) :
    (b.popNode k).1 = A.addr k i ∧
      Represents A (b.popNode k).2 (Function.update L k rest) := by
  have hchain := h.chains k hk
  rw [hL, List.map_cons] at hchain
  refine ⟨hchain.1, h.ptr_eq, h.min_eq, h.max_eq, fun j hj => ?_⟩
  by_cases hjk : j = k
  · subst hjk
    simp only [BuddyAllocator.popNode, Function.update_self, hchain.1]
    exact hchain.tail
  · simp only [BuddyAllocator.popNode, Function.update_of_ne hjk]
    exact h.chains j hj

/-- The cursor of the search after passing over the nodes of `front`. -/
def BuddyArena.cursorAfter (A : BuddyArena) (k : ℕ) (front : List ℕ) : BuddyAllocator.Cursor :=
  match front.getLast? with
  | none => .head k
  | some a => .next (A.addr k a)

/-- What the cursor points to starts the rest of the list. -/
theorem Represents.deref_cursorAfter (h : Represents A b L) (hk : k ≤ A.maxOrder)
    {front rest : List ℕ} (hL : L k = front ++ rest) :
    Chain b.mem.loadPtr 0 (b.deref (A.cursorAfter k front)) (rest.map (A.addr k)) := by
  have hchain := h.chains k hk
  rw [hL] at hchain
  rcases List.eq_nil_or_concat front with rfl | ⟨front', a, rfl⟩
  · exact hchain
  · simp only [List.concat_eq_append, List.append_assoc, List.map_append, List.map_cons,
      List.cons_append, List.nil_append] at hchain
    simp only [BuddyArena.cursorAfter, List.concat_eq_append, List.getLast?_concat]
    exact hchain.of_append.tail

/-- Unlinking the node behind the cursor. -/
theorem Represents.assign (h : Represents A b L) (hinv : ListInv A.minBits A.maxOrder L live)
    (hk : k ≤ A.maxOrder) {front rest : List ℕ} (hL : L k = front ++ i :: rest) :
    Represents A (b.assign (b.mem.loadPtr (A.addr k i)) (A.cursorAfter k front))
      (Function.update L k (front ++ rest)) := by
  have hchain := h.chains k hk
  rw [hL] at hchain
  rcases List.eq_nil_or_concat front with rfl | ⟨front', a, rfl⟩
  · -- the first node: the head of the list is overwritten
    refine ⟨h.ptr_eq, h.min_eq, h.max_eq, fun j hj => ?_⟩
    simp only [BuddyArena.cursorAfter, List.getLast?_nil, BuddyAllocator.assign, List.nil_append]
    by_cases hjk : j = k
    · subst hjk
      rw [Function.update_self, Function.update_self]
      exact hchain.tail
    · rw [Function.update_of_ne hjk, Function.update_of_ne hjk]
      exact h.chains j hj
  · -- a later node: the `next` word of its predecessor is overwritten
    rw [List.concat_eq_append] at hL hchain ⊢
    have hmem : a ∈ L k := by simp [hL]
    have hnodup := hinv.nodup k hk
    have hcursor : A.cursorAfter k (front' ++ [a]) = .next (A.addr k a) := by
      simp [BuddyArena.cursorAfter]
    rw [hcursor]
    refine ⟨h.ptr_eq, h.min_eq, h.max_eq, fun j hj => ?_⟩
    simp only [BuddyAllocator.assign]
    have hother : ∀ c, 8 ∣ c → c ≠ A.addr k a →
        (b.mem.storePtr (A.addr k a) (b.mem.loadPtr (A.addr k i))).loadPtr c = b.mem.loadPtr c :=
      fun c hc hne => Mem.loadPtr_storePtr_of_dvd _ (A.eight_dvd_addr _ _) hc hne
    by_cases hjk : j = k
    · subst hjk
      simp only [Function.update_self, List.append_assoc, List.map_append, List.map_cons,
        List.cons_append, List.nil_append] at hchain ⊢
      refine hchain.unlink (Mem.loadPtr_storePtr _ _ (Mem.loadPtr_lt _ _)) (fun c hc => ?_)
      have hc' : ∃ i' ∈ front' ++ rest, A.addr j i' = c := by
        rw [← List.map_append] at hc
        exact List.mem_map.mp hc
      obtain ⟨i', hi', rfl⟩ := hc'
      refine hother _ (A.eight_dvd_addr _ _) (fun heq => ?_)
      obtain rfl : i' = a := A.addr_injective j heq
      -- the node in front of the unlinked one occurs once
      rw [hL] at hnodup
      grind
    · rw [Function.update_of_ne hjk]
      refine (h.chains j hj).congr (fun c hc => ?_)
      obtain ⟨i', hi', rfl⟩ := List.mem_map.mp hc
      exact hother _ (A.eight_dvd_addr _ _) (hinv.addr_ne hk hj hjk hi' hmem)

/-- **The search loop** ends within its bound, reports whether the block is in the list,
and takes it out. -/
theorem removeLoop_refines (h : Represents A b L) (hinv : ListInv A.minBits A.maxOrder L live)
    (hk : k ≤ A.maxOrder) {j : ℕ} (rounds : ℕ) (front : List ℕ) {rest : List ℕ}
    (hL : L k = front ++ rest) (hj : j ∉ front) (hrounds : rest.length < rounds) :
    ∃ b', b.removeLoop (A.addr k j) rounds (A.cursorAfter k front) = some (decide (j ∈ L k), b') ∧
      Represents A b' (Function.update L k ((L k).erase j)) := by
  induction rest generalizing rounds front with
  | nil =>
    obtain ⟨rounds, rfl⟩ := Nat.exists_eq_add_of_lt hrounds
    have hnull : b.deref (A.cursorAfter k front) = 0 := h.deref_cursorAfter hk hL
    have hnot : j ∉ L k := by simpa [hL] using hj
    refine ⟨b, ?_, ?_⟩
    · simp [BuddyAllocator.removeLoop, hnull, hnot]
    · rw [List.erase_of_not_mem hnot, Function.update_eq_self]
      exact h
  | cons i rest ih =>
    obtain ⟨rounds, rfl⟩ : ∃ r, rounds = r + 1 := ⟨rounds - 1, by omega⟩
    have hnode : b.deref (A.cursorAfter k front) = A.addr k i := (h.deref_cursorAfter hk hL).1
    rw [BuddyAllocator.removeLoop]
    simp only [hnode, if_neg (A.addr_ne_zero k i)]
    by_cases hij : i = j
    · subst hij
      rw [if_pos rfl]
      have hmem : i ∈ L k := by simp [hL]
      refine ⟨_, by rw [decide_eq_true hmem], ?_⟩
      have herase : (L k).erase i = front ++ rest := by
        rw [hL, List.erase_append_right _ hj, List.erase_cons_head]
      rw [herase]
      exact h.assign hinv hk hL
    · rw [if_neg (fun heq => hij (A.addr_injective k heq))]
      have hstep := ih rounds (front ++ [i]) (by simp [hL])
        (by simp only [List.mem_append, List.mem_singleton]; grind)
        (by simpa using hrounds)
      simpa [BuddyArena.cursorAfter] using hstep

theorem removeNodeIfPresent_refines (h : Represents A b L)
    (hinv : ListInv A.minBits A.maxOrder L live) (hk : k ≤ A.maxOrder) (j : ℕ) :
    ∃ b', b.removeNodeIfPresent k (A.addr k j) = some (decide (j ∈ L k), b') ∧
      Represents A b' (Function.update L k ((L k).erase j)) := by
  have hlen := hinv.length_le hk
  rw [← h.max_eq] at hlen
  exact removeLoop_refines h hinv hk _ [] rfl (by simp) (Nat.lt_succ_of_le hlen)

/-! ## Allocation and release -/

/-- **`AllocateInternal` refines `takeList`.** -/
theorem allocateFrom_refines (h : Represents A b L) (hinv : ListInv A.minBits A.maxOrder L live)
    (orders : ℕ) (hk : k + orders = A.maxOrder + 1) :
    match takeList L orders k with
    | none => b.allocateFrom orders k = (0, b)
    | some (i, L') => ∃ b', b.allocateFrom orders k = (A.addr k i, b') ∧ Represents A b' L' := by
  induction orders generalizing k with
  | zero => rfl
  | succ orders ih =>
    have hkmax : k ≤ A.maxOrder := by omega
    have hchain := h.chains k hkmax
    rw [takeList, BuddyAllocator.allocateFrom, h.max_eq, if_neg (by omega)]
    cases hL : L k with
    | cons i rest =>
      have hne : b.freeLists k ≠ 0 := by
        rw [hL] at hchain
        rw [hchain.1]
        exact A.addr_ne_zero k i
      -- a block of this order is available
      obtain ⟨hptr, hrep⟩ := h.popNode hkmax hL
      simp only [if_pos hne]
      exact ⟨_, by rw [← hptr], hrep⟩
    | nil =>
      have hnull : b.freeLists k = 0 := by
        rw [hL] at hchain
        exact hchain
      have hrec := ih (k := k + 1) (by omega)
      simp only [hnull, ne_eq, not_true_eq_false, if_false]
      cases htake : takeList L orders (k + 1) with
      | none =>
        rw [htake] at hrec
        simp [show b.allocateFrom orders (k + 1) = (0, b) from hrec]
      | some r =>
        obtain ⟨i, L'⟩ := r
        rw [htake] at hrec
        obtain ⟨b', hb', hrep⟩ := hrec
        obtain ⟨-, hinv'⟩ := hinv.takeList (by omega) htake
        have hroom : k + 1 ≤ A.maxOrder := by
          by_contra hcon
          obtain rfl : orders = 0 := by omega
          simp [takeList] at htake
        have hsplit := hinv'.split (k := k) (by omega) (Set.mem_insert _ _)
        have hmem : 2 * i + 1 ∈ Function.update L' k ((2 * i + 1) :: L' k) k := by simp
        have hupper := A.addr_lt hkmax (hsplit.index_lt hkmax hmem)
        have hbuddy : Word64.add (A.addr (k + 1) i) (Word64.shl b'.minBlockSize k)
            = A.addr k (2 * i + 1) := by
          rw [hrep.min_eq]
          exact A.addr_succ_half hkmax hupper
        simp only [hb', A.addr_ne_zero, not_false_eq_true, if_true, hbuddy]
        refine ⟨_, by rw [← A.addr_double k i], hrep.pushNode hkmax (hrep.head_lt hinv' hkmax) ?_⟩
        -- a node at the upper half would start inside the live block
        intro j hj i' hi' heq
        rw [A.addr_eq_start, A.addr_eq_start, Nat.add_left_cancel_iff] at heq
        refine hinv'.start_ne ((mem_freeSet hj).mpr hi') (Set.mem_insert _ _) ?_ heq
        have hparent : (⟨A.minBits + k, 2 * i + 1⟩ : DyadicBlock).parent
            = ⟨A.minBits + (k + 1), i⟩ := by
          refine DyadicBlock.ext rfl ?_
          show (2 * i + 1) / 2 = i
          omega
        rw [← hparent]
        exact span_subset_parent _ (start_mem_span _)

/-- **`FreeInternal` refines `giveList`**; in particular it returns. -/
theorem freeFrom_refines (h : Represents A b L) (hinv : ListInv A.minBits A.maxOrder L live)
    (orders : ℕ) (hk : k + orders = A.maxOrder)
    (hb : (⟨A.minBits + k, i⟩ : DyadicBlock) ∈ live) :
    ∃ b', b.freeFrom orders (A.addr k i) k = some b' ∧
      Represents A b' (giveList L orders i k) := by
  induction orders generalizing b L live k i with
  | zero =>
    obtain rfl : k = A.maxOrder := by omega
    refine ⟨_, rfl, ?_⟩
    rw [h.max_eq]
    exact h.pushNode le_rfl (h.head_lt hinv le_rfl) (hinv.addr_ne_live hb)
  | succ orders ih =>
    have hkmax : k < A.maxOrder := by omega
    have hindex : i < 2 ^ (A.maxOrder - k) :=
      index_lt_of_inside hkmax.le (hinv.system.tiling.subset _ (.inr hb))
    have hbuddyLt : i ^^^ 1 < 2 ^ (A.maxOrder - k) :=
      Nat.xor_lt_two_pow hindex (Nat.one_lt_two_pow (by omega))
    have hbuddy : Word64.add b.storage.ptr
        (Word64.sub (A.addr k i) b.storage.ptr ^^^ Word64.shl b.minBlockSize k)
          = A.addr k (i ^^^ 1) := by
      rw [h.ptr_eq, h.min_eq]
      exact A.addr_xor hkmax.le (A.addr_lt hkmax.le hbuddyLt)
    obtain ⟨b', hremove, hrep⟩ := removeNodeIfPresent_refines h hinv hkmax.le (i ^^^ 1)
    rw [giveList, BuddyAllocator.freeFrom, h.max_eq, if_neg (by omega)]
    simp only [hbuddy, hremove]
    by_cases hmem : i ^^^ 1 ∈ L k
    · -- coalesce with the buddy, which the search has taken out of its list
      have hmerged : A.addr k i &&& Word64.not (Word64.shl b.minBlockSize k)
          = A.addr (k + 1) (i / 2) := by
        rw [h.min_eq]
        exact A.addr_land hkmax (A.addr_lt hkmax.le hindex)
      simp only [hmem, decide_true, if_true, hmerged]
      exact ih hrep (hinv.merge hkmax.le hb hmem) (by omega) (Set.mem_insert _ _)
    · rw [List.erase_of_not_mem hmem, Function.update_eq_self] at hrep
      simp only [hmem, decide_false, if_false]
      exact ⟨_, rfl, hrep.pushNode hkmax.le (hrep.head_lt hinv hkmax.le) (hinv.addr_ne_live hb)⟩

end Refinement

end Memory
