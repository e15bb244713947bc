/-
# The address of a merged block

`FreeInternal` finds the buddy by exclusive or on the *offset* of a block, and the merged
block by clearing a bit of its *address*.  The operating system promises no more about
the base of an arena than that it is a multiple of the page size (`PageArena`).

* `coalesce` : a run of `FreeInternal` up to its one call of `PushNode`;
* `coalesceFrom_inside` : the block pushed lies inside the arena, provided the base has no
  bit that is a block size;
* `mergedOf_lower_iff` : the recursive call receives the lower of the two buddies exactly
  when the base does not have the bit of the block size.
-/
import MemoryAllocator.BuddyAllocator

namespace Memory

/-- The arenas that the operating system may return: a mapping at a multiple of the page
size, with powers of two for the total and the smallest size. -/
structure PageArena where
  base : ℕ
  minBits : ℕ
  totalBits : ℕ
  min_le : minBits ≤ totalBits
  base_pos : 0 < base
  page_dvd : 4096 ∣ base
  below : base + 2 ^ totalBits ≤ 2 ^ 64

namespace PageArena

variable (A : PageArena)

def totalSize : ℕ := 2 ^ A.totalBits

def maxOrder : ℕ := A.totalBits - A.minBits

/-- `minBlockSize << k`. -/
def blockSize (k : ℕ) : ℕ := 2 ^ (A.minBits + k)

/-- The allocator was constructed over the arena. -/
structure Configures (b : BuddyAllocator) : Prop where
  ptr_eq : b.storage.ptr = A.base
  min_eq : b.minBlockSize = 2 ^ A.minBits
  max_eq : b.maxOrder = A.maxOrder

/-- A block of the given order and address lies inside the arena. -/
def Inside (order ptr : ℕ) : Prop :=
  A.base ≤ ptr ∧ ptr + A.blockSize order ≤ A.base + A.totalSize

theorem bits_lt {k : ℕ} (hk : k ≤ A.maxOrder) : A.minBits + k < 64 := by
  have hle : 2 ^ (A.minBits + k) ≤ 2 ^ A.totalBits := by
    apply Nat.pow_le_pow_right (by norm_num)
    have hmin := A.min_le
    rw [maxOrder] at hk
    omega
  have hpos := A.base_pos
  have hbelow := A.below
  exact (Nat.pow_lt_pow_iff_right (by norm_num : 1 < 2)).mp (by omega)

/-- The arena consists of its blocks of one order. -/
theorem totalSize_eq {k : ℕ} (hk : k ≤ A.maxOrder) :
    A.totalSize = 2 ^ (A.maxOrder - k) * A.blockSize k := by
  have hmin := A.min_le
  rw [totalSize, blockSize, ← pow_add]
  congr 1
  rw [maxOrder] at *
  omega

/-- The block with a given index lies inside the arena exactly when the index is small. -/
theorem index_lt_iff {k : ℕ} (hk : k ≤ A.maxOrder) (q : ℕ) :
    q * A.blockSize k + A.blockSize k ≤ A.totalSize ↔ q < 2 ^ (A.maxOrder - k) := by
  have hpos : 0 < A.blockSize k := Nat.two_pow_pos _
  rw [← Nat.succ_mul, A.totalSize_eq hk, Nat.mul_le_mul_right_iff hpos]
  rfl

end PageArena

namespace BuddyAllocator

variable (b : BuddyAllocator)

/-- `buddy`: the block that `FreeInternal` searches for. -/
def buddyOf (ptr order : ℕ) : ℕ :=
  Word64.add b.storage.ptr
    (Word64.sub ptr b.storage.ptr ^^^ Word64.shl b.minBlockSize order)

/-- `merged`: the address that `FreeInternal` computes for its recursive call. -/
def mergedOf (ptr order : ℕ) : ℕ := ptr &&& Word64.not (Word64.shl b.minBlockSize order)

/-- The address that `FreeInternal` passes to its recursive call, if it makes one. -/
def recursiveAddress (ptr order : ℕ) : Option ℕ :=
  if order ≥ b.maxOrder then none
  else
    match b.removeNodeIfPresent order (b.buddyOf ptr order) with
    | some (true, _) => some (b.mergedOf ptr order)
    | _ => none

/-- `FreeInternal` up to its call of `PushNode`: the allocator, the order and the address
that `PushNode` receives. -/
def coalesceFrom (b : BuddyAllocator) : ℕ → ℕ → ℕ → Option (BuddyAllocator × ℕ × ℕ)
  | 0, ptr, _ => some (b, b.maxOrder, ptr)
  | orders + 1, ptr, order =>
    if order ≥ b.maxOrder then some (b, b.maxOrder, ptr)
    else
      match b.removeNodeIfPresent order (b.buddyOf ptr order) with
      | none => none
      | some (true, b') => coalesceFrom b' orders (b.mergedOf ptr order) (order + 1)
      | some (false, b') => some (b', order, ptr)

def coalesce (ptr order : ℕ) : Option (BuddyAllocator × ℕ × ℕ) :=
  b.coalesceFrom (b.maxOrder - order) ptr order

/-- `FreeInternal` is a run of coalescings followed by one `PushNode`. -/
theorem freeInternal_eq_coalesce (ptr order : ℕ) :
    b.freeInternal ptr order
      = (b.coalesce ptr order).map (fun r => r.1.pushNode r.2.1 r.2.2) := by
  unfold freeInternal coalesce
  induction b.maxOrder - order generalizing b ptr order with
  | zero => rfl
  | succ orders ih =>
    rw [freeFrom, coalesceFrom]
    split_ifs with h
    · rfl
    · show (match b.removeNodeIfPresent order (b.buddyOf ptr order) with
          | none => none
          | some (true, b') => freeFrom b' orders (b.mergedOf ptr order) (order + 1)
          | some (false, b') => some (b'.pushNode order ptr)) = _
      cases b.removeNodeIfPresent order (b.buddyOf ptr order) with
      | none => rfl
      | some r =>
        obtain ⟨found, b'⟩ := r
        cases found with
        | false => rfl
        | true => exact ih b' _ _

end BuddyAllocator

section Coalescing

variable {A : PageArena} {b : BuddyAllocator} {k : ℕ}

theorem PageArena.Configures.remove (h : A.Configures b) {target : ℕ} {found : Bool}
    {b' : BuddyAllocator} (hremove : b.removeNodeIfPresent k target = some (found, b')) :
    A.Configures b' := by
  obtain ⟨hstorage, hmin, hmax⟩ := BuddyAllocator.removeLoop_frame hremove
  exact ⟨hstorage ▸ h.ptr_eq, hmin ▸ h.min_eq, hmax ▸ h.max_eq⟩

/-- Block sizes do not wrap. -/
theorem PageArena.Configures.shl_eq (h : A.Configures b) (hk : k ≤ A.maxOrder) :
    Word64.shl b.minBlockSize k = A.blockSize k := by
  have hlt : 2 ^ A.minBits * 2 ^ k < 2 ^ 64 := by
    rw [← pow_add]
    exact Nat.pow_lt_pow_right (by norm_num) (A.bits_lt hk)
  rw [h.min_eq, Word64.shl_of_lt hlt, ← pow_add]
  rfl

/-- The situation in which `FreeInternal` coalesces: it is called for an aligned block of
the arena whose buddy the search finds in the free list of its order. -/
structure PageArena.Coalesces (A : PageArena) (b : BuddyAllocator) (k off : ℕ) : Prop where
  configures : A.Configures b
  lt : k < A.maxOrder
  aligned : A.blockSize k ∣ off
  inside : off + A.blockSize k ≤ A.totalSize
  found : ∃ b', b.removeNodeIfPresent k (b.buddyOf (A.base + off) k) = some (true, b')

/-- The recursive call receives `mergedOf`. -/
theorem PageArena.Coalesces.recursiveAddress_eq {off : ℕ} (h : A.Coalesces b k off) :
    b.recursiveAddress (A.base + off) k = some (b.mergedOf (A.base + off) k) := by
  obtain ⟨b', hfound⟩ := h.found
  have hlt := h.lt
  rw [BuddyAllocator.recursiveAddress, h.configures.max_eq, if_neg (by omega), hfound]

/-- **The mask is right exactly when the base lacks the bit**: the merged address is the
base plus the offset with the bit of the block size cleared. -/
theorem mergedOf_lower_iff (h : A.Configures b) (hk : k ≤ A.maxOrder) {off : ℕ}
    (haligned : A.blockSize k ∣ off) (hinside : off + A.blockSize k ≤ A.totalSize) :
    b.mergedOf (A.base + off) k = A.base + (off &&& Word64.not (A.blockSize k)) ↔
      A.base &&& A.blockSize k = 0 := by
  obtain ⟨q, rfl⟩ := haligned
  have hbelow := A.below
  have hpos : 0 < A.blockSize k := Nat.two_pow_pos _
  have hlt : A.base + q * A.blockSize k < 2 ^ 64 := by
    rw [PageArena.totalSize] at hinside
    rw [mul_comm]
    omega
  rw [BuddyAllocator.mergedOf, h.shl_eq hk, mul_comm]
  exact Word64.add_land_not_two_pow_iff hlt (A.bits_lt hk)

/-- When the base lacks the bit, a merged block is the parent of the freed one. -/
theorem mergedOf_parent (h : A.Configures b) (hk : k < A.maxOrder) {q : ℕ}
    (hq : q < 2 ^ (A.maxOrder - k)) (hclear : A.base &&& A.blockSize k = 0) :
    b.mergedOf (A.base + q * A.blockSize k) k = A.base + q / 2 * A.blockSize (k + 1) ∧
      q / 2 < 2 ^ (A.maxOrder - (k + 1)) := by
  have hinside := (A.index_lt_iff hk.le q).mpr hq
  have hbelow := A.below
  have hlt : q * 2 ^ (A.minBits + k) < 2 ^ 64 := by
    have hpos : 0 < A.blockSize k := Nat.two_pow_pos _
    rw [PageArena.totalSize] at hinside
    rw [PageArena.blockSize] at *
    omega
  constructor
  · rw [(mergedOf_lower_iff h hk.le (Dvd.intro_left q rfl) hinside).mpr hclear]
    simp only [PageArena.blockSize]
    rw [Word64.land_not_bit hlt (A.bits_lt hk.le)]
    rfl
  · rw [show A.maxOrder - k = (A.maxOrder - (k + 1)) + 1 by omega, pow_succ] at hq
    omega

/-- **What is pushed lies inside the arena**, when the base has no block size of the
orders that the run can reach as a bit. -/
theorem coalesceFrom_inside (orders : ℕ) (hk : k + orders = A.maxOrder) (h : A.Configures b)
    (hclear : ∀ j, k ≤ j → j < A.maxOrder → A.base &&& A.blockSize j = 0) {q : ℕ}
    (hq : q < 2 ^ (A.maxOrder - k)) {r : BuddyAllocator × ℕ × ℕ}
    (hr : b.coalesceFrom orders (A.base + q * A.blockSize k) k = some r) :
    A.Inside r.2.1 r.2.2 := by
  have hself : ∀ j ≤ A.maxOrder, q < 2 ^ (A.maxOrder - j) →
      A.Inside j (A.base + q * A.blockSize j) := by
    intro j hj hqj
    have hle := (A.index_lt_iff hj q).mpr hqj
    exact ⟨Nat.le_add_right _ _, by omega⟩
  induction orders generalizing b k q with
  | zero =>
    obtain rfl : k = A.maxOrder := by omega
    rw [BuddyAllocator.coalesceFrom, h.max_eq] at hr
    obtain rfl := Option.some.inj hr
    exact hself _ le_rfl hq
  | succ orders ih =>
    have hlt : k < A.maxOrder := by omega
    rw [BuddyAllocator.coalesceFrom, h.max_eq, if_neg (by omega)] at hr
    split at hr
    · simp at hr
    case h_2 b' hremove =>
      -- the run goes on with the parent
      obtain ⟨hmerged, hhalf⟩ := mergedOf_parent h hlt hq (hclear k le_rfl hlt)
      rw [hmerged] at hr
      apply ih (by omega) (h.remove hremove) (fun j hj => hclear j (by omega)) hhalf hr
      intro j hj hqj
      have hle := (A.index_lt_iff hj _).mpr hqj
      exact ⟨Nat.le_add_right _ _, by omega⟩
    case h_3 b' hremove =>
      obtain rfl := Option.some.inj hr
      exact hself k hlt.le hq

/-! ## A base with the bit of a block size -/

/-- The arena after its first block of order `k` has been cut off: the free list of that
order holds the buddy. -/
def PageArena.afterSplit (A : PageArena) (k : ℕ) : BuddyAllocator :=
  ⟨⟨A.base, alignUp A.totalSize 4096⟩, 2 ^ A.minBits, A.maxOrder,
    Function.update (fun _ => 0) k (A.base + A.blockSize k), fun _ => 0⟩

theorem PageArena.afterSplit_configures (A : PageArena) (k : ℕ) :
    A.Configures (A.afterSplit k) :=
  ⟨rfl, rfl, rfl⟩

/-- The search finds the buddy at the head of the list. -/
theorem PageArena.afterSplit_remove (A : PageArena) (hk : k < A.maxOrder) :
    ∃ b', (A.afterSplit k).removeNodeIfPresent k ((A.afterSplit k).buddyOf A.base k)
      = some (true, b') ∧ ∀ j, j ≠ k → b'.freeLists j = 0 := by
  have hinside := (A.index_lt_iff hk.le 1).mpr (Nat.one_lt_two_pow (by omega))
  have hbelow := A.below
  have hbuddy : (A.afterSplit k).buddyOf A.base k = A.base + A.blockSize k := by
    have hpos : 0 < A.blockSize k := Nat.two_pow_pos _
    rw [PageArena.totalSize] at hinside
    rw [BuddyAllocator.buddyOf, (A.afterSplit_configures k).shl_eq hk.le,
      (A.afterSplit_configures k).ptr_eq, Word64.sub_of_le le_rfl, Nat.sub_self, Nat.zero_xor,
      Word64.add_of_lt (by omega)]
  have hhead : (A.afterSplit k).deref (.head k) = A.base + A.blockSize k := by
    show Function.update (fun _ => 0) k (A.base + A.blockSize k) k = _
    exact Function.update_self ..
  have hne : A.base + A.blockSize k ≠ 0 := by
    have hpos := A.base_pos
    omega
  refine ⟨(A.afterSplit k).assign ((A.afterSplit k).mem.loadPtr (A.base + A.blockSize k))
    (.head k), ?_, ?_⟩
  · rw [hbuddy, BuddyAllocator.removeNodeIfPresent, BuddyAllocator.removeLoop]
    simp only [hhead, if_neg hne, if_true]
  · intro j hj
    simp only [BuddyAllocator.assign, PageArena.afterSplit, Function.update_of_ne hj]

/-- The first block is coalesced with its buddy. -/
theorem PageArena.afterSplit_coalesces (A : PageArena) (hk : k < A.maxOrder) :
    A.Coalesces (A.afterSplit k) k 0 := by
  obtain ⟨b', hfound, -⟩ := A.afterSplit_remove hk
  refine ⟨A.afterSplit_configures k, hk, dvd_zero _, ?_, b', hfound⟩
  have hinside := (A.index_lt_iff hk.le 0).mpr (Nat.two_pow_pos _)
  rwa [zero_mul] at hinside

/-- With an empty list of the next order, the merged block is pushed. -/
theorem PageArena.afterSplit_coalesce (A : PageArena) (hk : k < A.maxOrder) :
    ∃ r, (A.afterSplit k).coalesce A.base k = some r ∧
      r.2.2 = (A.afterSplit k).mergedOf A.base k := by
  obtain ⟨b', hfound, hempty⟩ := A.afterSplit_remove hk
  have hmax := ((A.afterSplit_configures k).remove hfound).max_eq
  have horders : A.maxOrder - k = (A.maxOrder - (k + 1)) + 1 := by omega
  rw [BuddyAllocator.coalesce, (A.afterSplit_configures k).max_eq, horders,
    BuddyAllocator.coalesceFrom, (A.afterSplit_configures k).max_eq, if_neg (by omega), hfound]
  show ∃ r, b'.coalesceFrom _ _ (k + 1) = some r ∧ _
  cases hrest : A.maxOrder - (k + 1) with
  | zero => exact ⟨_, rfl, rfl⟩
  | succ orders =>
    have hnone : b'.removeNodeIfPresent (k + 1)
        (b'.buddyOf ((A.afterSplit k).mergedOf A.base k) (k + 1)) = some (false, b') := by
      rw [BuddyAllocator.removeNodeIfPresent, BuddyAllocator.removeLoop]
      simp [BuddyAllocator.deref, hempty (k + 1) (by omega)]
    rw [BuddyAllocator.coalesceFrom, hmax, if_neg (by omega), hnone]
    exact ⟨_, rfl, rfl⟩

/-- **A base with the bit of a block size** sends the merged block below the arena. -/
theorem PageArena.afterSplit_below (A : PageArena) (hk : k < A.maxOrder)
    (hbit : A.base &&& A.blockSize k ≠ 0) :
    (A.afterSplit k).mergedOf A.base k < A.base := by
  have hne : (A.afterSplit k).mergedOf A.base k ≠ A.base := by
    intro heq
    have hcoal := A.afterSplit_coalesces hk
    have hiff := mergedOf_lower_iff hcoal.configures hk.le hcoal.aligned hcoal.inside
    rw [add_zero, Nat.zero_and, add_zero] at hiff
    exact hbit (hiff.mp heq)
  exact lt_of_le_of_ne Nat.and_le_left hne

/-! ## The exact condition -/

/-- **Coalescing is right exactly over bases that lack the bits of the block sizes.**
Whenever `FreeInternal` coalesces, it calls itself with the lower of the two buddies if
and only if the base does not have the bit of the block size; and every block that it
pushes lies inside the arena if and only if the base has the bit of no block size below
that of the highest order. -/
theorem freeInternal_coalesces_lower_iff (A : PageArena) :
    (∀ b k off, A.Coalesces b k off →
      (b.recursiveAddress (A.base + off) k
          = some (A.base + (off &&& Word64.not (A.blockSize k))) ↔
        A.base &&& A.blockSize k = 0)) ∧
    ((∀ b k off, A.Coalesces b k off →
        ∀ r, b.coalesce (A.base + off) k = some r → A.Inside r.2.1 r.2.2) ↔
      ∀ k < A.maxOrder, A.base &&& A.blockSize k = 0) := by
  constructor
  · intro b k off h
    rw [h.recursiveAddress_eq, Option.some.injEq]
    exact mergedOf_lower_iff h.configures h.lt.le h.aligned h.inside
  · constructor
    · intro hinside k hk
      by_contra hbit
      -- the first block of order `k`, freed while its buddy is free
      obtain ⟨r, hr, hptr⟩ := A.afterSplit_coalesce hk
      have hin := hinside _ k 0 (A.afterSplit_coalesces hk) r (by rwa [add_zero])
      have hlt := A.afterSplit_below hk hbit
      rw [← hptr] at hlt
      exact absurd hin.1 (by omega)
    · intro hclear b k off h r hr
      obtain ⟨q, rfl⟩ := h.aligned
      have hlt := h.lt
      have hin := h.inside
      rw [mul_comm] at hin hr
      rw [BuddyAllocator.coalesce, h.configures.max_eq] at hr
      exact coalesceFrom_inside _ (by omega) h.configures (fun j _ => hclear j)
        ((A.index_lt_iff hlt.le q).mp hin) hr

end Coalescing

/-- The arena of `GetGlobalBuddy`, 16 megabytes in blocks of at least 64 bytes, one page
past a multiple of two pages. -/
def globalArena : PageArena where
  base := 0x7f0000001000
  minBits := 6
  totalBits := 24
  min_le := by norm_num
  base_pos := by norm_num
  page_dvd := by norm_num
  below := by norm_num

/-- `GetGlobalBuddy` as its constructor leaves it. -/
def globalBuddy : BuddyAllocator :=
  BuddyAllocator.pushNode
    ⟨⟨globalArena.base, 1024 * 1024 * 16⟩, 64, 18, fun _ => 0, fun _ => 0⟩ 18 globalArena.base

theorem create_eq_globalBuddy :
    BuddyAllocator.create (fun _ => globalArena.base) (1024 * 1024 * 16) 64 (fun _ => 0)
      = .ok globalBuddy := by
  have halign : alignUp (1024 * 1024 * 16) 4096 = 1024 * 1024 * 16 := by decide +kernel
  have horder : Nat.log 2 (1024 * 1024 * 16 / 64) = 18 := by decide +kernel
  have hne : globalArena.base ≠ 0 := by decide
  simp only [BuddyAllocator.create, VirtualMemory.create, halign, if_neg hne, horder]
  rfl

/-- **One page taken from the global allocator and given back** is coalesced to a block
that starts one page below the arena. -/
theorem globalBuddy_coalesces_below :
    (globalBuddy.allocate 4096).1 = globalArena.base ∧
      ¬ ∀ b k off, globalArena.Coalesces b k off →
        b.recursiveAddress (globalArena.base + off) k
            = some (globalArena.base + (off &&& Word64.not (globalArena.blockSize k))) ∧
          ∀ r, b.coalesce (globalArena.base + off) k = some r →
            globalArena.Inside r.2.1 r.2.2 := by
  refine ⟨by decide +kernel, fun hall => ?_⟩
  have hfound : ((globalBuddy.allocate 4096).2.removeNodeIfPresent 6
      ((globalBuddy.allocate 4096).2.buddyOf (globalArena.base + 0) 6)).map Prod.fst
        = some true := by decide +kernel
  obtain ⟨⟨found, b'⟩, hb', rfl⟩ := Option.map_eq_some_iff.mp hfound
  have hcoal : globalArena.Coalesces (globalBuddy.allocate 4096).2 6 0 :=
    ⟨⟨by decide +kernel, by decide +kernel, by decide +kernel⟩, by decide +kernel, dvd_zero _,
      by decide +kernel, b', hb'⟩
  have hpushed : ((globalBuddy.allocate 4096).2.coalesce (globalArena.base + 0) 6).map Prod.snd
      = some (7, globalArena.base - 4096) := by decide +kernel
  obtain ⟨r, hr, hsnd⟩ := Option.map_eq_some_iff.mp hpushed
  have hinside := ((hall _ 6 0 hcoal).2 r hr).1
  rw [hsnd] at hinside
  revert hinside
  decide

end Memory
