/-
# Sessions of the buddy allocator

A session is an allocator together with the record of the blocks it has handed out and
not taken back.  The client calls `Allocate` with any size, calls `Free` with `nullptr`
or with a live pointer and a size of the order it was allocated with, and writes
arbitrary bytes into its live blocks.

`SessionInv` ties the three layers together: the chains in memory represent lists of
block indices, and these with the live blocks form a buddy system.  Every call returns
and keeps it (`SessionInv.allocate`, `SessionInv.free`, `SessionInv.write`), hence every
legal run does (`sessionInv_of_legal`).
-/
import MemoryAllocator.BuddyRefinement
import MemoryAllocator.GuardedMachine

open DyadicBlock

namespace Memory

/-- A block in the hands of the client. -/
structure LiveBlock where
  ptr : ℕ
  order : ℕ
  deriving DecidableEq, Repr

/-- An allocator and the blocks it has handed out. -/
structure BuddySession where
  alloc : BuddyAllocator
  live : List LiveBlock

namespace BuddySession

variable (s : BuddySession)

/-- `Allocate`, recording the block that is returned. -/
def allocate (size : ℕ) : ℕ × BuddySession :=
  let r := s.alloc.allocate size
  (r.1, { alloc := r.2
          live := if r.1 = 0 then s.live else ⟨r.1, s.alloc.getOrder size⟩ :: s.live })

/-- `Free`, striking the block off the record. -/
def free (ptr size : ℕ) : Option BuddySession :=
  (s.alloc.free ptr size).map (fun b =>
    { alloc := b, live := s.live.erase ⟨ptr, s.alloc.getOrder size⟩ })

/-- The client writes a byte. -/
def write (a : ℕ) (v : UInt8) : BuddySession :=
  { s with alloc := { s.alloc with mem := Function.update s.alloc.mem a v } }

end BuddySession

/-- What the client of an allocator does. -/
inductive BuddyOp where
  | allocate (size : ℕ)
  | free (ptr size : ℕ)
  | write (a : ℕ) (v : UInt8)

/-- The allocator under disciplined use. -/
def buddyMachine : GuardedMachine BuddySession BuddyOp where
  pre := fun s op => match op with
    | .allocate _ => True
    | .free ptr size => ptr = 0 ∨ ⟨ptr, s.alloc.getOrder size⟩ ∈ s.live
    | .write a _ => ∃ l ∈ s.live, l.ptr ≤ a ∧ a < l.ptr + s.alloc.minBlockSize * 2 ^ l.order
  exec := fun s op => match op with
    | .allocate size => some (s.allocate size).2
    | .free ptr size => s.free ptr size
    | .write a v => some (s.write a v)

instance (s : BuddySession) (op : BuddyOp) : Decidable (buddyMachine.pre s op) :=
  match op with
  | .allocate _ => .isTrue trivial
  | .free ptr _ => inferInstanceAs (Decidable (ptr = 0 ∨ _ ∈ s.live))
  | .write a _ => inferInstanceAs (Decidable (∃ l ∈ s.live,
      l.ptr ≤ a ∧ a < l.ptr + s.alloc.minBlockSize * 2 ^ l.order))

namespace BuddyArena

variable (A : BuddyArena)

/-- The freshly constructed allocator over the arena. -/
def initial (mem : Mem) : BuddyAllocator :=
  BuddyAllocator.pushNode
    ⟨⟨A.base, alignUp A.totalSize 4096⟩, A.minBlockSize, A.maxOrder, fun _ => 0, mem⟩
    A.maxOrder A.base

/-- A session that has just begun. -/
def start (mem : Mem) : BuddySession := ⟨A.initial mem, []⟩

/-- The constructor returns the initial allocator when the operating system grants the
arena. -/
theorem create_eq_initial (allocateVirtualMemory : ℕ → ℕ) (mem : Mem)
    (hos : allocateVirtualMemory (alignUp A.totalSize 4096) = A.base) :
    BuddyAllocator.create allocateVirtualMemory A.totalSize A.minBlockSize mem
      = .ok (A.initial mem) := by
  have hmax : Nat.log 2 (A.totalSize / A.minBlockSize) = A.maxOrder := by
    rw [totalSize, minBlockSize, Nat.pow_div A.min_le (by norm_num), Nat.log_pow (by norm_num)]
    rfl
  have hne : A.base ≠ 0 := A.base_pos.ne'
  simp only [BuddyAllocator.create, VirtualMemory.create, hos, if_neg hne, hmax]
  rfl

/-- The dyadic block of an order and an index. -/
def blockAt (q : ℕ × ℕ) : DyadicBlock := ⟨A.minBits + q.1, q.2⟩

/-- The dyadic blocks of a list of orders and indices. -/
def liveSet (Q : List (ℕ × ℕ)) : Set DyadicBlock := {b | ∃ q ∈ Q, b = A.blockAt q}

/-- The record of a live block. -/
def liveBlock (q : ℕ × ℕ) : LiveBlock := ⟨A.addr q.1 q.2, q.1⟩

theorem blockAt_injective : Function.Injective A.blockAt := by
  rintro ⟨k, i⟩ ⟨k', i'⟩ h
  obtain ⟨hk, rfl⟩ := DyadicBlock.mk.inj h
  simpa using hk

theorem liveBlock_injective : Function.Injective A.liveBlock := by
  rintro ⟨k, i⟩ ⟨k', i'⟩ h
  obtain ⟨haddr, hk⟩ := LiveBlock.mk.inj h
  obtain rfl : k = k' := hk
  obtain rfl : i = i' := A.addr_injective k haddr
  rfl

theorem mem_liveSet {Q : List (ℕ × ℕ)} {q : ℕ × ℕ} : A.blockAt q ∈ A.liveSet Q ↔ q ∈ Q := by
  constructor
  · rintro ⟨q', hq', heq⟩
    rwa [A.blockAt_injective heq]
  · exact fun hq => ⟨q, hq, rfl⟩

theorem liveSet_cons (Q : List (ℕ × ℕ)) (q : ℕ × ℕ) :
    A.liveSet (q :: Q) = insert (A.blockAt q) (A.liveSet Q) := by
  ext b
  simp [liveSet]

theorem liveSet_erase {Q : List (ℕ × ℕ)} (hQ : Q.Nodup) (q : ℕ × ℕ) :
    A.liveSet (Q.erase q) = A.liveSet Q \ {A.blockAt q} := by
  ext b
  rw [Set.mem_sdiff, Set.mem_singleton_iff]
  constructor
  · rintro ⟨q', hq', rfl⟩
    rw [hQ.mem_erase_iff] at hq'
    exact ⟨⟨q', hq'.2, rfl⟩, fun heq => hq'.1 (A.blockAt_injective heq)⟩
  · rintro ⟨⟨q', hq', rfl⟩, hne⟩
    exact ⟨q', hQ.mem_erase_iff.mpr ⟨fun heq => hne (by rw [heq]), hq'⟩, rfl⟩

end BuddyArena

/-! ## The invariant -/

/-- The session, its free lists and its live blocks are a buddy system. -/
structure SessionInv (A : BuddyArena) (s : BuddySession) (L : FreeIndices)
    (Q : List (ℕ × ℕ)) : Prop where
  represents : Represents A s.alloc L
  lists : ListInv A.minBits A.maxOrder L (A.liveSet Q)
  nodup : Q.Nodup
  live_eq : s.live = Q.map A.liveBlock

section Session

variable {A : BuddyArena} {s : BuddySession} {L : FreeIndices} {Q : List (ℕ × ℕ)}

theorem sessionInv_start (A : BuddyArena) (mem : Mem) :
    SessionInv A (A.start mem) (fun k => if k = A.maxOrder then [0] else []) [] := by
  have hempty : Represents A
      ⟨⟨A.base, alignUp A.totalSize 4096⟩, A.minBlockSize, A.maxOrder, fun _ => 0, mem⟩
      (fun _ => []) :=
    ⟨rfl, rfl, rfl, fun _ _ => rfl⟩
  have haddr : A.addr A.maxOrder 0 = A.base := by simp [BuddyArena.addr]
  have hlists : Function.update (fun _ => []) A.maxOrder [0]
      = (fun k => if k = A.maxOrder then [0] else [] : FreeIndices) := by
    funext k
    by_cases hk : k = A.maxOrder
    · simp [hk]
    · simp [hk]
  have hpush := hempty.pushNode (k := A.maxOrder) (i := 0) le_rfl (by norm_num) (by simp)
  rw [hlists, haddr] at hpush
  refine ⟨hpush, ⟨?_, ?_⟩, List.nodup_nil, rfl⟩
  · intro k _
    split_ifs <;> simp
  · have hfree : freeSet A.minBits A.maxOrder (fun k => if k = A.maxOrder then [0] else [])
        = {wholeBlock (A.minBits + A.maxOrder)} := by
      ext b
      constructor
      · rintro ⟨k, -, i, hi, rfl⟩
        by_cases hk : k = A.maxOrder
        · simp only [hk, if_true, List.mem_singleton] at hi
          rw [hk, hi]
          rfl
        · simp [hk] at hi
      · rintro rfl
        exact ⟨A.maxOrder, le_rfl, 0, by simp, rfl⟩
    have hlive : A.liveSet [] = ∅ := by
      ext b
      simp [BuddyArena.liveSet]
    rw [hfree, hlive]
    exact BuddySystem.initial (Nat.le_add_right _ _)

/-- Requests of an order that the arena has. -/
theorem SessionInv.getOrder_le_iff (h : SessionInv A s L Q) {size k : ℕ} :
    s.alloc.getOrder size ≤ k ↔ size ≤ A.minBlockSize * 2 ^ k := by
  have hmin := h.represents.min_eq
  rw [BuddyAllocator.getOrder_le_iff (by rw [hmin]; exact A.minBlockSize_pos), hmin]

/-- The size of a block has the order of the block. -/
theorem SessionInv.getOrder_blockSize (h : SessionInv A s L Q) (k : ℕ) :
    s.alloc.getOrder (2 ^ (A.minBits + k)) = k := by
  have hmin := h.represents.min_eq
  have horder := BuddyAllocator.getOrder_mul_two_pow (b := s.alloc)
    (by rw [hmin]; exact A.minBlockSize_pos) k
  rwa [hmin, BuddyArena.minBlockSize, ← pow_add] at horder

/-- The block size of a request that the arena has an order for. -/
theorem SessionInv.blockSizeForRequest_eq (h : SessionInv A s L Q) {size : ℕ}
    (hk : s.alloc.getOrder size ≤ A.maxOrder) :
    s.alloc.blockSizeForRequest size = 2 ^ (A.minBits + s.alloc.getOrder size) := by
  rw [BuddyAllocator.blockSizeForRequest, h.represents.min_eq]
  exact A.shl_eq hk

/-- **`Allocate`** either finds nothing from the order of the request on and changes
nothing, or makes one free block of that order live. -/
theorem SessionInv.allocate (h : SessionInv A s L Q) (size : ℕ) :
    ((s.allocate size).1 = 0 ∧ (s.allocate size).2 = s ∧
      ∀ k, s.alloc.getOrder size ≤ k → k ≤ A.maxOrder → L k = []) ∨
    ∃ i L', s.alloc.getOrder size ≤ A.maxOrder ∧
      takeList L (A.maxOrder + 1 - s.alloc.getOrder size) (s.alloc.getOrder size)
        = some (i, L') ∧
      (s.allocate size).1 = A.addr (s.alloc.getOrder size) i ∧
      (s.alloc.getOrder size, i) ∉ Q ∧
      SessionInv A (s.allocate size).2 L' ((s.alloc.getOrder size, i) :: Q) := by
  set k := s.alloc.getOrder size with hkdef
  have hmax := h.represents.max_eq
  by_cases hk : k ≤ A.maxOrder
  · have hinternal : s.alloc.allocate size = s.alloc.allocateFrom (A.maxOrder + 1 - k) k := by
      simp only [BuddyAllocator.allocate, ← hkdef, hmax, BuddyAllocator.allocateInternal]
      rw [if_neg (by omega)]
    have hrefine := allocateFrom_refines h.represents h.lists
      (A.maxOrder + 1 - k) (k := k) (by omega)
    cases htake : takeList L (A.maxOrder + 1 - k) k with
    | none =>
      rw [htake] at hrefine
      have hnull : s.alloc.allocate size = (0, s.alloc) := hinternal.trans hrefine
      refine .inl ⟨by simp [BuddySession.allocate, hnull], by simp [BuddySession.allocate, hnull], ?_⟩
      intro j hj hj'
      exact takeList_eq_none_iff.mp htake j hj (by omega)
    | some r =>
      obtain ⟨i, L'⟩ := r
      rw [htake] at hrefine
      obtain ⟨b', hb', hrep⟩ := hrefine
      obtain ⟨hnew, hinv⟩ := h.lists.takeList (by omega) htake
      have hgrant : s.alloc.allocate size = (A.addr k i, b') := hinternal.trans hb'
      have hne := A.addr_ne_zero k i
      refine .inr ⟨i, L', hk, rfl, by simp [BuddySession.allocate, hgrant], ?_, ?_⟩
      · exact fun hmem => hnew (A.mem_liveSet.mpr hmem)
      · refine ⟨by simpa [BuddySession.allocate, hgrant] using hrep, ?_, ?_, ?_⟩
        · rw [A.liveSet_cons]
          exact hinv
        · exact List.nodup_cons.mpr ⟨fun hmem => hnew (A.mem_liveSet.mpr hmem), h.nodup⟩
        · simp [BuddySession.allocate, hgrant, hne, h.live_eq, BuddyArena.liveBlock, ← hkdef]
  · have hnull : s.alloc.allocate size = (0, s.alloc) := by
      simp only [BuddyAllocator.allocate, ← hkdef, hmax]
      rw [if_pos (by omega)]
    refine .inl ⟨by simp [BuddySession.allocate, hnull], by simp [BuddySession.allocate, hnull], ?_⟩
    intro j hj hj'
    omega

/-- A recorded live block is a block of the system. -/
theorem SessionInv.exists_of_mem_live (h : SessionInv A s L Q) {ptr k : ℕ}
    (hlive : (⟨ptr, k⟩ : LiveBlock) ∈ s.live) :
    ∃ i, (k, i) ∈ Q ∧ ptr = A.addr k i ∧ k ≤ A.maxOrder := by
  rw [h.live_eq] at hlive
  obtain ⟨⟨k', i⟩, hq, heq⟩ := List.mem_map.mp hlive
  obtain ⟨hptr, rfl⟩ := LiveBlock.mk.inj heq
  refine ⟨i, hq, hptr.symm, ?_⟩
  have hle := h.lists.system.order_le (.inr (A.mem_liveSet.mpr hq))
  have hle' : A.minBits + k' ≤ A.minBits + A.maxOrder := hle
  omega

/-- **`Free`** of a live block returns and makes the block free. -/
theorem SessionInv.free (h : SessionInv A s L Q) {ptr size : ℕ}
    (hlive : (⟨ptr, s.alloc.getOrder size⟩ : LiveBlock) ∈ s.live) :
    ∃ i t, (s.alloc.getOrder size, i) ∈ Q ∧ ptr = A.addr (s.alloc.getOrder size) i ∧
      s.free ptr size = some t ∧
      SessionInv A t
        (giveList L (A.maxOrder - s.alloc.getOrder size) i (s.alloc.getOrder size))
        (Q.erase (s.alloc.getOrder size, i)) := by
  set k := s.alloc.getOrder size with hkdef
  obtain ⟨i, hq, rfl, hk⟩ := h.exists_of_mem_live hlive
  obtain ⟨b', hb', hrep⟩ := freeFrom_refines h.represents h.lists
    (A.maxOrder - k) (k := k) (by omega) (A.mem_liveSet.mpr hq)
  have hfree : s.alloc.free (A.addr k i) size = some b' := by
    rw [BuddyAllocator.free, if_neg (A.addr_ne_zero k i), BuddyAllocator.freeInternal, ← hkdef,
      h.represents.max_eq]
    exact hb'
  refine ⟨i, ⟨b', s.live.erase ⟨A.addr k i, k⟩⟩, hq, rfl, ?_, hrep, ?_, h.nodup.erase _, ?_⟩
  · rw [BuddySession.free, hfree]
    rfl
  · rw [A.liveSet_erase h.nodup]
    exact h.lists.giveList (by omega) (A.mem_liveSet.mpr hq)
  · rw [List.map_erase A.liveBlock_injective, ← h.live_eq]
    rfl

/-- A client that writes inside its live blocks does not touch the free lists. -/
theorem SessionInv.write (h : SessionInv A s L Q) {l : LiveBlock} (hl : l ∈ s.live) {a : ℕ}
    (ha : l.ptr ≤ a) (ha' : a < l.ptr + s.alloc.minBlockSize * 2 ^ l.order) (v : UInt8) :
    SessionInv A (s.write a v) L Q := by
  obtain ⟨ptr, k⟩ := l
  obtain ⟨i, hq, rfl, -⟩ := h.exists_of_mem_live hl
  have hin : a - A.base ∈ (A.blockAt (k, i)).span := by
    rw [h.represents.min_eq, BuddyArena.minBlockSize, ← pow_add] at ha'
    simp only [A.addr_eq_start] at ha ha'
    rw [span, Set.mem_Ico]
    simp only [BuddyArena.blockAt, size]
    omega
  refine ⟨⟨h.represents.ptr_eq, h.represents.min_eq, h.represents.max_eq, ?_⟩, h.lists, h.nodup,
    h.live_eq⟩
  intro j hj
  refine (h.represents.chains j hj).congr (fun c hc => ?_)
  obtain ⟨i', hi', rfl⟩ := List.mem_map.mp hc
  apply Mem.loadPtr_congr
  intro x hx hx'
  have hword : 8 ≤ 2 ^ (A.minBits + j) := by
    calc 8 = 2 ^ 3 := by norm_num
      _ ≤ 2 ^ (A.minBits + j) :=
        Nat.pow_le_pow_right (by norm_num) (A.three_le.trans (Nat.le_add_right _ _))
  have hne : x ≠ a := by
    rintro rfl
    -- the byte would lie in a free and in a live block
    have hfree : (⟨A.minBits + j, i'⟩ : DyadicBlock) ∈ freeSet A.minBits A.maxOrder L :=
      (mem_freeSet hj).mpr hi'
    have hin' : x - A.base ∈ (⟨A.minBits + j, i'⟩ : DyadicBlock).span := by
      simp only [A.addr_eq_start] at hx hx'
      rw [span, Set.mem_Ico]
      simp only [size]
      omega
    have heq := h.lists.system.tiling.unique _ (.inl hfree) _ (.inr (A.mem_liveSet.mpr hq)) _ hin' hin
    exact h.lists.system.disjoint _ hfree (heq ▸ A.mem_liveSet.mpr hq)
  exact Function.update_of_ne hne _ _

/-- Every operation of the machine returns and keeps the invariant. -/
theorem SessionInv.step (h : SessionInv A s L Q) {op : BuddyOp} (hpre : buddyMachine.pre s op) :
    ∃ t, buddyMachine.exec s op = some t ∧ ∃ L' Q', SessionInv A t L' Q' := by
  cases op with
  | allocate size =>
    rcases h.allocate size with ⟨-, hsame, -⟩ | ⟨i, L', -, -, -, -, hinv⟩
    · exact ⟨_, rfl, L, Q, by rw [hsame]; exact h⟩
    · exact ⟨_, rfl, L', _, hinv⟩
  | free ptr size =>
    rcases hpre with rfl | hlive
    · refine ⟨⟨s.alloc, s.live.erase ⟨0, s.alloc.getOrder size⟩⟩, rfl, L, Q, ?_⟩
      have hnone : (⟨0, s.alloc.getOrder size⟩ : LiveBlock) ∉ s.live := by
        intro hmem
        obtain ⟨i, -, hzero, -⟩ := h.exists_of_mem_live hmem
        exact A.addr_ne_zero _ i hzero.symm
      rw [List.erase_of_not_mem hnone]
      exact h
    · obtain ⟨i, t, -, -, ht, hinv⟩ := h.free hlive
      exact ⟨t, ht, _, _, hinv⟩
  | write a v =>
    obtain ⟨l, hl, ha, ha'⟩ := hpre
    exact ⟨_, rfl, L, Q, h.write hl ha ha' v⟩

/-- **Every legal session returns in a state that satisfies the invariant.** -/
theorem sessionInv_of_legal {mem : Mem} {ops : List BuddyOp}
    (h : buddyMachine.Legal (A.start mem) ops) :
    ∃ s, buddyMachine.run (A.start mem) ops = some s ∧ ∃ L Q, SessionInv A s L Q := by
  refine GuardedMachine.Legal.invariant (I := fun s => ∃ L Q, SessionInv A s L Q) ?_
    ⟨_, _, sessionInv_start A mem⟩ h
  rintro s op ⟨L, Q, hinv⟩ hpre
  exact hinv.step hpre

theorem sessionInv_of_reaches {mem : Mem} {ops : List BuddyOp}
    (h : buddyMachine.Reaches (A.start mem) ops s) : ∃ L Q, SessionInv A s L Q := by
  obtain ⟨t, ht, hinv⟩ := sessionInv_of_legal h.1
  rw [h.2] at ht
  cases ht
  exact hinv

end Session

end Memory
