/-
# The abstract buddy system

What a buddy allocator is for, said with sets of dyadic blocks: the space
`[0, 2 ^ N)` is tiled by free and live blocks of order at least `m`, and no two free
blocks are buddies.  There are four elementary moves, and each keeps this:

* `take` : a free block becomes live;
* `split` : a live block is cut in two, one half of which becomes free;
* `merge` : a live block swallows its free buddy;
* `put` : a live block whose buddy is not free becomes free.

The main result is that the free blocks are exactly the maximal dyadic blocks that
meet no live block (`free_iff_maximal`); in particular they depend on the live blocks
only (`free_eq_of_live_eq`), and without live blocks the whole space is the one free
block (`free_eq_whole`).
-/
import MemoryAllocator.DyadicTiling

open DyadicBlock

/-- The space `[0, 2 ^ N)` as a block. -/
def wholeBlock (N : ℕ) : DyadicBlock := ⟨N, 0⟩

/-- The states of a buddy system over `[0, 2 ^ N)` with blocks of order at least `m`. -/
structure BuddySystem (m N : ℕ) (free live : Set DyadicBlock) : Prop where
  tiling : Tiling (free ∪ live) (wholeBlock N).span
  disjoint : ∀ b ∈ free, b ∉ live
  le_order : ∀ b ∈ free ∪ live, m ≤ b.order
  noBuddies : ∀ b ∈ free, b.buddy ∉ free

namespace BuddySystem

/-- A block of order at least `m`, inside the space, that meets no live block. -/
structure Vacant (m N : ℕ) (live : Set DyadicBlock) (b : DyadicBlock) : Prop where
  le_order : m ≤ b.order
  inside : b.span ⊆ (wholeBlock N).span
  apart : ∀ c ∈ live, Disjoint b.span c.span

/-- A vacant block that lies in no larger vacant block. -/
def MaximalVacant (m N : ℕ) (live : Set DyadicBlock) (b : DyadicBlock) : Prop :=
  Vacant m N live b ∧ ∀ c, Vacant m N live c → b.span ⊆ c.span → c = b

variable {m N : ℕ} {free live : Set DyadicBlock} {b : DyadicBlock}

/-- At the start the whole space is free. -/
theorem initial (h : m ≤ N) : BuddySystem m N {wholeBlock N} ∅ where
  tiling := by
    rw [Set.union_empty]
    exact Tiling.singleton _
  disjoint := by simp
  le_order := by simpa [wholeBlock] using h
  noBuddies := by
    rintro b rfl hb
    exact buddy_ne _ hb

theorem order_le (h : BuddySystem m N free live) (hb : b ∈ free ∪ live) : b.order ≤ N :=
  order_le_of_span_subset (h.tiling.subset b hb)

/-! ## The four moves -/

/-- A free block becomes live. -/
theorem take (h : BuddySystem m N free live) (hb : b ∈ free) :
    BuddySystem m N (free \ {b}) (insert b live) := by
  have hunion : free \ {b} ∪ insert b live = free ∪ live := by
    ext c
    by_cases hc : c = b <;> simp [hc, hb]
  refine ⟨hunion ▸ h.tiling, ?_, hunion ▸ h.le_order, ?_⟩
  · rintro c ⟨hc, hcb⟩ (rfl | hlive)
    · exact hcb rfl
    · exact h.disjoint c hc hlive
  · exact fun c hc hc' => h.noBuddies c hc.1 hc'.1

/-- A live block whose buddy is not free becomes free. -/
theorem put (h : BuddySystem m N free live) (hb : b ∈ live) (hbuddy : b.buddy ∉ free) :
    BuddySystem m N (insert b free) (live \ {b}) := by
  have hunion : insert b free ∪ live \ {b} = free ∪ live := by
    ext c
    by_cases hc : c = b <;> simp [hc, hb]
  refine ⟨hunion ▸ h.tiling, ?_, hunion ▸ h.le_order, ?_⟩
  · rintro c (rfl | hc) ⟨hlive, hne⟩
    · exact hne rfl
    · exact h.disjoint c hc hlive
  · rintro c (rfl | hc) (hcb | hc')
    · exact buddy_ne _ hcb
    · exact hbuddy hc'
    · rw [← hcb, buddy_buddy] at hbuddy
      exact hbuddy hc
    · exact h.noBuddies c hc hc'

/-- Neither half of a live block is a block of the system. -/
theorem half_notMem (h : BuddySystem m N free live) (hb : b.parent ∈ live) :
    b ∉ free ∪ live := by
  intro hmem
  have heq := h.tiling.unique b hmem b.parent (.inr hb) b.start (start_mem_span b)
    (span_subset_parent b (start_mem_span b))
  have horder := congrArg DyadicBlock.order heq
  simp at horder

/-- A live block is cut in two: `b` stays live, its buddy becomes free. -/
theorem split (h : BuddySystem m N free live) (hb : b.parent ∈ live) (hm : m ≤ b.order) :
    BuddySystem m N (insert b.buddy free) (insert b (live \ {b.parent})) := by
  have hparent : b.parent ∉ free := fun hf => h.disjoint _ hf hb
  have hbuddy : b.buddy ∉ free ∪ live := h.half_notMem (by simpa using hb)
  have hself := h.half_notMem hb
  have hunion : insert b.buddy free ∪ insert b (live \ {b.parent})
      = insert b (insert b.buddy ((free ∪ live) \ {b.parent})) := by
    ext c
    have hcf : c ∈ free → c ≠ b.parent := by
      rintro hc rfl
      exact hparent hc
    simp only [Set.mem_union, Set.mem_insert_iff, Set.mem_sdiff, Set.mem_singleton_iff]
    tauto
  refine ⟨?_, ?_, ?_, ?_⟩
  · rw [hunion]
    exact h.tiling.split (.inr hb)
  · rintro c (rfl | hc) (hcb | hc')
    · exact buddy_ne _ hcb
    · exact hbuddy (.inr hc'.1)
    · exact hself (.inl (hcb ▸ hc))
    · exact h.disjoint c hc hc'.1
  · rw [hunion]
    rintro c (rfl | rfl | hc)
    · exact hm
    · exact hm
    · exact h.le_order c hc.1
  · rintro c (rfl | hc) (hcb | hc')
    · exact buddy_ne _ hcb
    · rw [buddy_buddy] at hc'
      exact hself (.inl hc')
    · have hcb' : c = b := by
        rw [← buddy_buddy c, hcb, buddy_buddy]
      exact hself (.inl (hcb' ▸ hc))
    · exact h.noBuddies c hc hc'

/-- A live block swallows its free buddy. -/
theorem merge (h : BuddySystem m N free live) (hb : b ∈ live) (hbuddy : b.buddy ∈ free) :
    BuddySystem m N (free \ {b.buddy}) (insert b.parent (live \ {b})) := by
  have hbfree : b ∉ free := fun hf => h.disjoint b hf hb
  have hblive : b.buddy ∉ live := h.disjoint _ hbuddy
  have hunion : free \ {b.buddy} ∪ insert b.parent (live \ {b})
      = insert b.parent ((free ∪ live) \ {b, b.buddy}) := by
    ext c
    have hcf : c ∈ free → c ≠ b := by
      rintro hc rfl
      exact hbfree hc
    have hcl : c ∈ live → c ≠ b.buddy := by
      rintro hc rfl
      exact hblive hc
    simp only [Set.mem_union, Set.mem_insert_iff, Set.mem_sdiff, Set.mem_singleton_iff]
    tauto
  refine ⟨?_, ?_, ?_, ?_⟩
  · rw [hunion]
    exact h.tiling.merge (.inr hb) (.inl hbuddy)
  · rintro c ⟨hc, -⟩ (rfl | hc')
    · -- the parent is not a block of the system: it would overlap `b`
      have heq := h.tiling.unique _ (.inl hc) b (.inr hb) b.start
        (span_subset_parent b (start_mem_span b)) (start_mem_span b)
      have horder := congrArg DyadicBlock.order heq
      simp at horder
    · exact h.disjoint c hc hc'.1
  · rw [hunion]
    rintro c (rfl | hc)
    · exact (h.le_order b (.inr hb)).trans (Nat.le_succ _)
    · exact h.le_order c hc.1
  · exact fun c hc hc' => h.noBuddies c hc.1 hc'.1

/-! ## The free blocks are canonical -/

theorem vacant_of_free (h : BuddySystem m N free live) (hb : b ∈ free) :
    Vacant m N live b where
  le_order := h.le_order b (.inl hb)
  inside := h.tiling.subset b (.inl hb)
  apart := fun _ hc => h.tiling.disjoint (.inl hb) (.inr hc)
    (fun heq => h.disjoint b hb (heq ▸ hc))

/-- **Every vacant block lies in a free block.**  By induction on its order: if neither
half lies in a free block larger than itself, both halves are free, which the absence
of free buddies excludes. -/
theorem exists_free_superset (h : BuddySystem m N free live) (hb : Vacant m N live b) :
    ∃ c ∈ free, b.span ⊆ c.span := by
  obtain ⟨k, hk⟩ := Nat.exists_eq_add_of_le hb.le_order
  induction k generalizing b with
  | zero =>
    -- no block is smaller than `b`, so the one with its first number contains it
    obtain ⟨c, hc, hstart⟩ := h.tiling.cover b.start (hb.inside (start_mem_span b))
    rcases hc with hc | hc
    · refine ⟨c, hc, span_subset_span ?_ (start_mem_span b) hstart⟩
      rw [hk]
      exact h.le_order c (.inl hc)
    · exact absurd hstart (Set.disjoint_left.mp (hb.apart c hc) (start_mem_span b))
  | succ k ih =>
    let left : DyadicBlock := ⟨m + k, 2 * b.index⟩
    have hparent : left.parent = b := by
      apply DyadicBlock.ext
      · rw [hk]
        rfl
      · show 2 * b.index / 2 = b.index
        omega
    have hhalf : ∀ c : DyadicBlock, c.order = m + k → c.parent = b →
        ∃ d ∈ free, c.span ⊆ d.span := by
      intro c horder hc
      have hsub : c.span ⊆ b.span := hc ▸ span_subset_parent c
      refine ih ⟨by omega, hsub.trans hb.inside, fun d hd => ?_⟩ horder
      exact (hb.apart d hd).mono_left hsub
    -- a free block that strictly contains a half contains the block
    obtain ⟨c, hc, hleft⟩ := hhalf left rfl hparent
    obtain ⟨d, hd, hright⟩ := hhalf left.buddy rfl (by rw [parent_buddy, hparent])
    by_cases hcl : left = c
    · by_cases hdr : left.buddy = d
      · exact absurd (hdr ▸ hd) (h.noBuddies left (hcl ▸ hc))
      · refine ⟨d, hd, ?_⟩
        rw [← hparent, ← parent_buddy]
        exact span_parent_subset hright hdr
    · refine ⟨c, hc, ?_⟩
      rw [← hparent]
      exact span_parent_subset hleft hcl

/-- **The free blocks are the maximal vacant blocks.** -/
theorem free_iff_maximal (h : BuddySystem m N free live) :
    b ∈ free ↔ MaximalVacant m N live b := by
  constructor
  · intro hb
    refine ⟨h.vacant_of_free hb, fun c hc hsub => ?_⟩
    obtain ⟨d, hd, hcd⟩ := h.exists_free_superset hc
    have hbd : b = d := h.tiling.unique b (.inl hb) d (.inl hd) b.start (start_mem_span b)
      (hcd (hsub (start_mem_span b)))
    exact span_injective (Set.Subset.antisymm (hbd ▸ hcd) hsub)
  · rintro ⟨hvac, hmax⟩
    obtain ⟨c, hc, hsub⟩ := h.exists_free_superset hvac
    exact hmax c (h.vacant_of_free hc) hsub ▸ hc

/-- The live blocks determine the free ones. -/
theorem free_eq_of_live_eq {free' : Set DyadicBlock} (h : BuddySystem m N free live)
    (h' : BuddySystem m N free' live) : free = free' := by
  ext b
  rw [h.free_iff_maximal, h'.free_iff_maximal]

/-- Without live blocks the whole space is the one free block. -/
theorem free_eq_whole (hm : m ≤ N) (h : BuddySystem m N free ∅) : free = {wholeBlock N} :=
  h.free_eq_of_live_eq (initial hm)

end BuddySystem
