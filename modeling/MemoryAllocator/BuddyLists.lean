/-
# The buddy allocator on lists of block indices

Between the linked lists in memory and the abstract buddy system stands the allocator
on plain lists: for each order the list of the indices of its free blocks, first node
first.  The block of order `k` and index `i` is the dyadic block `⟨m + k, i⟩`, where
`2 ^ m` is the smallest block size.

`takeList` and `giveList` are `AllocateInternal` and `FreeInternal` at this level.
Both keep `ListInv`: no list has a duplicate, and the blocks of the lists are the free
part of a buddy system.
-/
import MemoryAllocator.BuddySystem

open DyadicBlock

namespace Memory

/-- The free lists, as indices of blocks. -/
abbrev FreeIndices := ℕ → List ℕ

/-- The blocks in the lists of the orders `0, …, K`. -/
def freeSet (m K : ℕ) (L : FreeIndices) : Set DyadicBlock :=
  {b | ∃ k ≤ K, ∃ i ∈ L k, b = ⟨m + k, i⟩}

/-- `AllocateInternal` on lists: the index of the block taken and the new lists. -/
def takeList (L : FreeIndices) : ℕ → ℕ → Option (ℕ × FreeIndices)
  | 0, _ => none
  | orders + 1, k =>
    match L k with
    | i :: rest => some (i, Function.update L k rest)
    | [] =>
      match takeList L orders (k + 1) with
      | none => none
      | some (i, L') => some (2 * i, Function.update L' k ((2 * i + 1) :: L' k))

/-- `FreeInternal` on lists, for a block of order `k` with `orders` orders above it. -/
def giveList (L : FreeIndices) : ℕ → ℕ → ℕ → FreeIndices
  | 0, i, k => Function.update L k (i :: L k)
  | orders + 1, i, k =>
    if i ^^^ 1 ∈ L k then
      giveList (Function.update L k ((L k).erase (i ^^^ 1))) orders (i / 2) (k + 1)
    else Function.update L k (i :: L k)

/-- The invariant of the lists beside a set of live blocks. -/
structure ListInv (m K : ℕ) (L : FreeIndices) (live : Set DyadicBlock) : Prop where
  nodup : ∀ k ≤ K, (L k).Nodup
  system : BuddySystem m (m + K) (freeSet m K L) live

section Lists

variable {m K k i : ℕ} {L : FreeIndices} {live : Set DyadicBlock}

theorem mem_freeSet (hk : k ≤ K) : (⟨m + k, i⟩ : DyadicBlock) ∈ freeSet m K L ↔ i ∈ L k := by
  constructor
  · rintro ⟨j, -, i', hi', heq⟩
    obtain ⟨hj, rfl⟩ := DyadicBlock.mk.inj heq
    obtain rfl : k = j := by omega
    exact hi'
  · intro hi
    exact ⟨k, hk, i, hi, rfl⟩

/-- Changing one list changes the blocks of that order only. -/
theorem freeSet_update (hk : k ≤ K) (l : List ℕ) (b : DyadicBlock) :
    b ∈ freeSet m K (Function.update L k l) ↔
      (∃ i ∈ l, b = ⟨m + k, i⟩) ∨ (b.order ≠ m + k ∧ b ∈ freeSet m K L) := by
  constructor
  · rintro ⟨j, hj, i, hi, rfl⟩
    by_cases hjk : j = k
    · subst hjk
      rw [Function.update_self] at hi
      exact .inl ⟨i, hi, rfl⟩
    · rw [Function.update_of_ne hjk] at hi
      exact .inr ⟨by simpa using hjk, j, hj, i, hi, rfl⟩
  · rintro (⟨i, hi, rfl⟩ | ⟨hne, j, hj, i, hi, rfl⟩)
    · exact (mem_freeSet hk).mpr (by rwa [Function.update_self])
    · apply (mem_freeSet hj).mpr
      rw [Function.update_of_ne (by simpa using hne)]
      exact hi

/-- Linking a block in front adds it. -/
theorem freeSet_cons (hk : k ≤ K) :
    freeSet m K (Function.update L k (i :: L k)) = insert ⟨m + k, i⟩ (freeSet m K L) := by
  ext b
  rw [freeSet_update hk, Set.mem_insert_iff]
  constructor
  · rintro (⟨j, hj, rfl⟩ | ⟨-, hb⟩)
    · rcases List.mem_cons.mp hj with rfl | hj
      · exact .inl rfl
      · exact .inr ((mem_freeSet hk).mpr hj)
    · exact .inr hb
  · rintro (rfl | hb)
    · exact .inl ⟨i, List.mem_cons_self .., rfl⟩
    · by_cases horder : b.order = m + k
      · obtain ⟨j, hj, i', hi', rfl⟩ := hb
        obtain rfl : j = k := by simpa using horder
        exact .inl ⟨i', List.mem_cons_of_mem _ hi', rfl⟩
      · exact .inr ⟨horder, hb⟩

/-- Unlinking a block removes it. -/
theorem freeSet_erase (hk : k ≤ K) (hnodup : (L k).Nodup) :
    freeSet m K (Function.update L k ((L k).erase i)) = freeSet m K L \ {⟨m + k, i⟩} := by
  ext b
  rw [freeSet_update hk, Set.mem_sdiff, Set.mem_singleton_iff]
  constructor
  · rintro (⟨j, hj, rfl⟩ | ⟨hne, hb⟩)
    · rw [hnodup.mem_erase_iff] at hj
      exact ⟨(mem_freeSet hk).mpr hj.2, fun heq => hj.1 (DyadicBlock.mk.inj heq).2⟩
    · exact ⟨hb, fun heq => hne (by rw [heq])⟩
  · rintro ⟨⟨j, hj, i', hi', rfl⟩, hne⟩
    by_cases hjk : j = k
    · subst hjk
      refine .inl ⟨i', ?_, rfl⟩
      rw [hnodup.mem_erase_iff]
      exact ⟨fun heq => hne (by rw [heq]), hi'⟩
    · exact .inr ⟨by simpa using hjk, j, hj, i', hi', rfl⟩

/-- The index of a block of order `k` is below `2 ^ (K - k)`. -/
theorem index_lt_of_inside (hk : k ≤ K)
    (h : (⟨m + k, i⟩ : DyadicBlock).span ⊆ (wholeBlock (m + K)).span) : i < 2 ^ (K - k) := by
  have hstart := h (start_mem_span _)
  rw [mem_span] at hstart
  have hlt : i * 2 ^ (m + k) < 2 ^ (m + K) := by
    have hzero : (i * 2 ^ (m + k)) / 2 ^ (m + K) = 0 := hstart
    exact (Nat.div_eq_zero_iff_lt (by positivity)).mp hzero
  have hpow : 2 ^ (m + K) = 2 ^ (K - k) * 2 ^ (m + k) := by
    rw [← pow_add, show K - k + (m + k) = m + K by omega]
  rw [hpow] at hlt
  exact Nat.lt_of_mul_lt_mul_right hlt

theorem ListInv.index_lt (h : ListInv m K L live) (hk : k ≤ K) (hi : i ∈ L k) :
    i < 2 ^ (K - k) :=
  index_lt_of_inside hk (h.system.tiling.subset _ (.inl ((mem_freeSet hk).mpr hi)))

/-- A free list never has more nodes than there are smallest blocks. -/
theorem ListInv.length_le (h : ListInv m K L live) (hk : k ≤ K) : (L k).length ≤ 2 ^ K := by
  have hsub : (L k).toFinset ⊆ Finset.range (2 ^ (K - k)) := by
    intro i hi
    rw [List.mem_toFinset] at hi
    exact Finset.mem_range.mpr (h.index_lt hk hi)
  have hcard := Finset.card_le_card hsub
  rw [List.toFinset_card_of_nodup (h.nodup k hk), Finset.card_range] at hcard
  exact hcard.trans (Nat.pow_le_pow_right (by norm_num) (Nat.sub_le K k))

/-- A block of the highest order has no buddy inside the space. -/
theorem ListInv.top_buddy_notMem (h : ListInv m K L live)
    (hb : (⟨m + K, i⟩ : DyadicBlock) ∈ live) : (⟨m + K, i⟩ : DyadicBlock).buddy ∉ freeSet m K L := by
  intro hbuddy
  have hi := index_lt_of_inside le_rfl (h.system.tiling.subset _ (.inr hb))
  have hi' := index_lt_of_inside le_rfl (h.system.tiling.subset _ (.inl hbuddy))
  have hzero : i = 0 := by simpa using hi
  subst hzero
  simp at hi'

/-- Adding a block that was not free keeps the lists free of duplicates. -/
theorem nodup_update_cons (h : ∀ j ≤ K, (L j).Nodup) (hk : k ≤ K)
    (hi : (⟨m + k, i⟩ : DyadicBlock) ∉ freeSet m K L) :
    ∀ j ≤ K, (Function.update L k (i :: L k) j).Nodup := by
  intro j hj
  by_cases hjk : j = k
  · subst hjk
    rw [Function.update_self]
    exact List.nodup_cons.mpr ⟨fun hmem => hi ((mem_freeSet hk).mpr hmem), h j hj⟩
  · rw [Function.update_of_ne hjk]
    exact h j hj

/-- Shrinking one list keeps the lists free of duplicates. -/
theorem nodup_update_sublist (h : ∀ j ≤ K, (L j).Nodup) {l : List ℕ} (hl : l.Sublist (L k)) :
    ∀ j ≤ K, (Function.update L k l j).Nodup := by
  intro j hj
  by_cases hjk : j = k
  · subst hjk
    rw [Function.update_self]
    exact (h j hj).sublist hl
  · rw [Function.update_of_ne hjk]
    exact h j hj

/-! ## The elementary steps -/

/-- Popping the first block of a list makes it live. -/
theorem ListInv.pop (h : ListInv m K L live) (hk : k ≤ K) {rest : List ℕ} (hL : L k = i :: rest) :
    ListInv m K (Function.update L k rest) (insert ⟨m + k, i⟩ live) := by
  have herase : rest = (L k).erase i := by rw [hL, List.erase_cons_head]
  refine ⟨nodup_update_sublist h.nodup (by rw [hL]; exact List.sublist_cons_self _ _), ?_⟩
  rw [herase, freeSet_erase hk (h.nodup k hk)]
  exact h.system.take ((mem_freeSet hk).mpr (by rw [hL]; exact List.mem_cons_self ..))

/-- Cutting a live block in two and pushing the upper half. -/
theorem ListInv.split (h : ListInv m K L live) (hk : k < K)
    (hb : (⟨m + (k + 1), i⟩ : DyadicBlock) ∈ live) :
    ListInv m K (Function.update L k ((2 * i + 1) :: L k))
      (insert ⟨m + k, 2 * i⟩ (live \ {⟨m + (k + 1), i⟩})) := by
  let b : DyadicBlock := ⟨m + k, 2 * i⟩
  have hparent : b.parent = ⟨m + (k + 1), i⟩ := by
    apply DyadicBlock.ext
    · rfl
    · show 2 * i / 2 = i
      omega
  have hbuddy : b.buddy = ⟨m + k, 2 * i + 1⟩ := by
    apply DyadicBlock.ext
    · rfl
    · exact Nat.xor_one_of_even (even_two_mul i)
  have hfree : (⟨m + k, 2 * i + 1⟩ : DyadicBlock) ∉ freeSet m K L := by
    rw [← hbuddy]
    exact fun hmem => h.system.half_notMem (by rw [parent_buddy, hparent]; exact hb) (.inl hmem)
  refine ⟨nodup_update_cons h.nodup hk.le hfree, ?_⟩
  rw [freeSet_cons hk.le, ← hbuddy, ← hparent]
  exact h.system.split (hparent ▸ hb) (Nat.le_add_right m k)

/-- A live block swallows its buddy, which leaves its list. -/
theorem ListInv.merge (h : ListInv m K L live) (hk : k ≤ K)
    (hb : (⟨m + k, i⟩ : DyadicBlock) ∈ live) (hbuddy : i ^^^ 1 ∈ L k) :
    ListInv m K (Function.update L k ((L k).erase (i ^^^ 1)))
      (insert ⟨m + (k + 1), i / 2⟩ (live \ {⟨m + k, i⟩})) := by
  refine ⟨nodup_update_sublist h.nodup List.erase_sublist, ?_⟩
  rw [freeSet_erase hk (h.nodup k hk)]
  exact h.system.merge hb ((mem_freeSet hk).mpr hbuddy)

/-- A live block whose buddy is not free goes back to its list. -/
theorem ListInv.push (h : ListInv m K L live) (hk : k ≤ K)
    (hb : (⟨m + k, i⟩ : DyadicBlock) ∈ live)
    (hbuddy : (⟨m + k, i⟩ : DyadicBlock).buddy ∉ freeSet m K L) :
    ListInv m K (Function.update L k (i :: L k)) (live \ {⟨m + k, i⟩}) := by
  refine ⟨nodup_update_cons h.nodup hk (fun hmem => h.system.disjoint _ hmem hb), ?_⟩
  rw [freeSet_cons hk]
  exact h.system.put hb hbuddy

/-! ## Taking and giving back a block -/

/-- The block that a merge produces was not live before. -/
theorem ListInv.parent_notMem (h : ListInv m K L live)
    (hb : (⟨m + k, i⟩ : DyadicBlock) ∈ live) : (⟨m + (k + 1), i / 2⟩ : DyadicBlock) ∉ live := by
  intro hparent
  exact h.system.half_notMem (b := ⟨m + k, i⟩) hparent (.inr hb)

/-- **`takeList` makes one free block live.** -/
theorem ListInv.takeList (h : ListInv m K L live) {orders : ℕ} {L' : FreeIndices}
    (hk : k + orders ≤ K + 1) (htake : Memory.takeList L orders k = some (i, L')) :
    (⟨m + k, i⟩ : DyadicBlock) ∉ live ∧ ListInv m K L' (insert ⟨m + k, i⟩ live) := by
  induction orders generalizing k i L' with
  | zero => simp [Memory.takeList] at htake
  | succ orders ih =>
    rw [Memory.takeList] at htake
    split at htake
    case h_1 i' rest hL =>
      obtain ⟨rfl, rfl⟩ := Prod.mk.inj (Option.some.inj htake)
      have hmem : (⟨m + k, i'⟩ : DyadicBlock) ∈ freeSet m K L :=
        (mem_freeSet (by omega)).mpr (by rw [hL]; exact List.mem_cons_self ..)
      exact ⟨h.system.disjoint _ hmem, h.pop (by omega) hL⟩
    case h_2 =>
      split at htake
      · simp at htake
      case h_2 i' L₁ htake' =>
        obtain ⟨rfl, rfl⟩ := Prod.mk.inj (Option.some.inj htake)
        -- a larger block was taken: it is live, and its upper half goes to the list
        have hroom : orders ≠ 0 := by
          rintro rfl
          simp [Memory.takeList] at htake'
        obtain ⟨hnew, hinv⟩ := ih (by omega) htake'
        have hsplit := hinv.split (k := k) (by omega) (Set.mem_insert _ _)
        rw [Set.insert_sdiff_self_of_notMem hnew] at hsplit
        refine ⟨fun hlive => ?_, hsplit⟩
        refine hinv.system.half_notMem (b := ⟨m + k, 2 * i'⟩) ?_ (.inr (.inr hlive))
        refine .inl (DyadicBlock.ext rfl ?_)
        show 2 * i' / 2 = i'
        omega

/-- **`giveList` makes one live block free**, coalescing as far as it goes. -/
theorem ListInv.giveList (h : ListInv m K L live) {orders : ℕ} (hk : k + orders = K)
    (hb : (⟨m + k, i⟩ : DyadicBlock) ∈ live) :
    ListInv m K (Memory.giveList L orders i k) (live \ {⟨m + k, i⟩}) := by
  induction orders generalizing L live k i with
  | zero =>
    obtain rfl : k = K := by omega
    exact h.push le_rfl hb (h.top_buddy_notMem hb)
  | succ orders ih =>
    rw [Memory.giveList]
    split_ifs with hbuddy
    · -- the merged block takes the place of the freed one, and is given back in turn
      have hmerged := h.merge (by omega) hb hbuddy
      have hgive := ih hmerged (by omega) (Set.mem_insert _ _)
      rwa [Set.insert_sdiff_self_of_notMem (fun hmem => h.parent_notMem hb hmem.1)] at hgive
    · exact h.push (by omega) hb (fun hmem => hbuddy ((mem_freeSet (by omega)).mp hmem))

/-- A block is found exactly when some list from order `k` on is not empty. -/
theorem takeList_eq_none_iff {orders : ℕ} :
    takeList L orders k = none ↔ ∀ j, k ≤ j → j < k + orders → L j = [] := by
  induction orders generalizing k with
  | zero =>
    simp only [takeList, true_iff]
    intro j hj hj'
    omega
  | succ orders ih =>
    rw [takeList]
    split
    case h_1 i rest hL =>
      simp only [reduceCtorEq, false_iff, not_forall]
      exact ⟨k, le_rfl, by omega, by simp [hL]⟩
    case h_2 hL =>
      have hiff : takeList L orders (k + 1) = none ↔
          ∀ j, k ≤ j → j < k + (orders + 1) → L j = [] := by
        rw [ih]
        constructor
        · intro h j hj hj'
          rcases hj.eq_or_lt with rfl | hlt
          · exact hL
          · exact h j hlt (by omega)
        · exact fun h j hj hj' => h j (by omega) (by omega)
      rw [← hiff]
      cases takeList L orders (k + 1) <;> simp

/-! ## Taking and giving back in closed form -/

/-- The lists `L` after the first block of order `j`, of index `h`, has been cut down to
order `k`: of each order in between there is the upper half of the piece that was cut. -/
def cutLists (L : FreeIndices) (k j h : ℕ) (rest : List ℕ) : FreeIndices :=
  fun r => if k ≤ r ∧ r < j then [h * 2 ^ (j - r) + 1] else if r = j then rest else L r

theorem cutLists_of_lt {j h : ℕ} {rest : List ℕ} {r : ℕ} (hr : j < r) :
    cutLists L k j h rest r = L r := by
  rw [cutLists, if_neg (by omega), if_neg (by omega)]

theorem cutLists_self {j h : ℕ} {rest : List ℕ} : cutLists L k j h rest j = rest := by
  rw [cutLists, if_neg (by omega), if_pos rfl]

/-- A cut that goes one order further down. -/
theorem cutLists_succ {j h : ℕ} {rest : List ℕ} (hk : k < j) :
    cutLists L k j h rest
      = Function.update (cutLists L (k + 1) j h rest) k [h * 2 ^ (j - k) + 1] := by
  funext r
  by_cases hr : r = k
  · subst hr
    rw [Function.update_self, cutLists, if_pos ⟨le_rfl, hk⟩]
  · rw [Function.update_of_ne hr, cutLists, cutLists]
    congr 1
    exact propext ⟨fun hin => ⟨by omega, hin.2⟩, fun hin => ⟨by omega, hin.2⟩⟩

/-- **`takeList` takes the first block of the smallest order that has one**, and cuts it
down to the order of the request. -/
theorem takeList_eq_some {orders : ℕ} {L' : FreeIndices}
    (htake : takeList L orders k = some (i, L')) :
    ∃ j h rest, k ≤ j ∧ j < k + orders ∧ L j = h :: rest ∧ (∀ r, k ≤ r → r < j → L r = []) ∧
      i = h * 2 ^ (j - k) ∧ L' = cutLists L k j h rest := by
  induction orders generalizing k i L' with
  | zero => simp [takeList] at htake
  | succ orders ih =>
    rw [takeList] at htake
    split at htake
    case h_1 h rest hL =>
      obtain ⟨rfl, rfl⟩ := Prod.mk.inj (Option.some.inj htake)
      refine ⟨k, h, rest, le_rfl, by omega, hL, fun r hr hr' => by omega, by simp, ?_⟩
      funext r
      by_cases hr : r = k
      · subst hr
        rw [Function.update_self, cutLists_self]
      · rw [Function.update_of_ne hr, cutLists, if_neg (by omega), if_neg hr]
    case h_2 hL =>
      split at htake
      · simp at htake
      case h_2 i' L₁ htake' =>
        obtain ⟨rfl, rfl⟩ := Prod.mk.inj (Option.some.inj htake)
        obtain ⟨j, h, rest, hkj, hj, hLj, hempty, rfl, rfl⟩ := ih htake'
        -- the piece of order `k + 1` is cut once more
        have hdouble : 2 * (h * 2 ^ (j - (k + 1))) = h * 2 ^ (j - k) := by
          rw [show j - k = j - (k + 1) + 1 by omega, pow_succ]
          ring
        have hbelow : cutLists L (k + 1) j h rest k = [] := by
          rw [cutLists, if_neg (by omega), if_neg (by omega), hL]
        refine ⟨j, h, rest, by omega, by omega, hLj, ?_, hdouble, ?_⟩
        · intro r hr hr'
          rcases hr.eq_or_lt with rfl | hlt
          · exact hL
          · exact hempty r hlt hr'
        · rw [hdouble, hbelow, cutLists_succ (k := k) (by omega)]

/-- **`giveList` undoes the cut**: each piece finds the upper half beside it, and the
block of the order that was cut has no free buddy. -/
theorem giveList_cutLists {orders j h : ℕ} {rest : List ℕ} (hkj : k ≤ j) (hj : j ≤ k + orders)
    (hL : L j = h :: rest) (hempty : ∀ r, k ≤ r → r < j → L r = []) (hbuddy : h ^^^ 1 ∉ rest) :
    giveList (cutLists L k j h rest) orders (h * 2 ^ (j - k)) k = L := by
  have hback : Function.update (cutLists L j j h rest) j (h :: cutLists L j j h rest j) = L := by
    funext r
    by_cases hr : r = j
    · subst hr
      rw [Function.update_self, cutLists_self, hL]
    · rw [Function.update_of_ne hr, cutLists, if_neg (by omega), if_neg hr]
  induction orders generalizing k with
  | zero =>
    obtain rfl : k = j := by omega
    rw [giveList, Nat.sub_self, pow_zero, mul_one, hback]
  | succ orders ih =>
    rw [giveList]
    rcases hkj.eq_or_lt with rfl | hlt
    · rw [Nat.sub_self, pow_zero, mul_one, cutLists_self, if_neg hbuddy]
      rw [cutLists_self] at hback
      exact hback
    · have hpow : h * 2 ^ (j - k) = 2 * (h * 2 ^ (j - (k + 1))) := by
        rw [show j - k = j - (k + 1) + 1 by omega, pow_succ]
        ring
      have hxor : h * 2 ^ (j - k) ^^^ 1 = h * 2 ^ (j - k) + 1 := by
        rw [hpow]
        exact Nat.xor_one_of_even (even_two_mul _)
      have hlist : cutLists L k j h rest k = [h * 2 ^ (j - k) + 1] := by
        rw [cutLists, if_pos ⟨le_rfl, hlt⟩]
      have hbelow : cutLists L (k + 1) j h rest k = [] := by
        rw [cutLists, if_neg (by omega), if_neg (by omega), hempty k le_rfl hlt]
      -- the upper half leaves its list, and the piece is whole again
      have herase : Function.update (cutLists L k j h rest) k
          ((cutLists L k j h rest k).erase (h * 2 ^ (j - k) ^^^ 1))
            = cutLists L (k + 1) j h rest := by
        rw [hlist, hxor, List.erase_cons_head, cutLists_succ hlt, Function.update_idem, ← hbelow,
          Function.update_eq_self]
      have hhalf : h * 2 ^ (j - k) / 2 = h * 2 ^ (j - (k + 1)) := by omega
      rw [herase, hhalf, hlist, hxor, if_pos (List.mem_singleton_self _)]
      exact ih hlt (by omega) (fun r hr hr' => hempty r (by omega) hr')

end Lists

end Memory
