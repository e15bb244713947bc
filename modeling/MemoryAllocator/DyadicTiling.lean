/-
# Dyadic blocks and tilings

A dyadic block of order `n` is an interval `[i * 2 ^ n, (i + 1) * 2 ^ n)` of natural
numbers.  Two dyadic blocks are nested or disjoint (`span_subset_span`); a block and
its buddy are the two halves of their parent (`span_parent`).

A tiling covers a set by dyadic blocks without overlap.  Cutting a block in two
(`Tiling.split`) and joining two buddies (`Tiling.merge`) keep a tiling.
-/
import Mathlib

/-- The dyadic block `[index * 2 ^ order, (index + 1) * 2 ^ order)`. -/
@[ext] structure DyadicBlock where
  order : ℕ
  index : ℕ
  deriving DecidableEq, Repr

namespace DyadicBlock

/-- The first number of a block. -/
def start (b : DyadicBlock) : ℕ := b.index * 2 ^ b.order

/-- The number of elements of a block. -/
def size (b : DyadicBlock) : ℕ := 2 ^ b.order

/-- The elements of a block. -/
def span (b : DyadicBlock) : Set ℕ := Set.Ico b.start (b.start + b.size)

/-- The other half of the parent. -/
def buddy (b : DyadicBlock) : DyadicBlock := ⟨b.order, b.index ^^^ 1⟩

/-- The block of the next order that contains this one. -/
def parent (b : DyadicBlock) : DyadicBlock := ⟨b.order + 1, b.index / 2⟩

/-- A number lies in the block that its quotient names. -/
theorem mem_span {b : DyadicBlock} {x : ℕ} : x ∈ b.span ↔ x / 2 ^ b.order = b.index := by
  have hpos : 0 < 2 ^ b.order := by positivity
  rw [span, start, size, Set.mem_Ico, Nat.div_eq_iff hpos]
  constructor
  · rintro ⟨h, h'⟩
    exact ⟨h, by omega⟩
  · rintro ⟨h, h'⟩
    exact ⟨h, by omega⟩

theorem start_mem_span (b : DyadicBlock) : b.start ∈ b.span := by
  rw [mem_span, start]
  exact Nat.mul_div_cancel _ (by positivity)

/-- Two blocks of one order that share a number are equal. -/
theorem eq_of_mem_span {b c : DyadicBlock} {x : ℕ} (horder : b.order = c.order)
    (hb : x ∈ b.span) (hc : x ∈ c.span) : b = c := by
  rw [mem_span] at hb hc
  exact DyadicBlock.ext horder (by rw [← hb, ← hc, horder])

/-- **Blocks are nested or disjoint**: a block that shares a number with a block of at
least its order lies in it. -/
theorem span_subset_span {b c : DyadicBlock} {x : ℕ} (horder : b.order ≤ c.order)
    (hb : x ∈ b.span) (hc : x ∈ c.span) : b.span ⊆ c.span := by
  intro y hy
  rw [mem_span] at *
  have hpow : 2 ^ c.order = 2 ^ b.order * 2 ^ (c.order - b.order) := by
    rw [← pow_add, Nat.add_sub_cancel' horder]
  rw [hpow, ← Nat.div_div_eq_div_mul] at hc ⊢
  rw [hy, ← hb, hc]

/-- A block inside another one has at most its order. -/
theorem order_le_of_span_subset {b c : DyadicBlock} (h : b.span ⊆ c.span) :
    b.order ≤ c.order := by
  have hfirst := h (start_mem_span b)
  have hlast : b.start + b.size - 1 ∈ c.span := by
    apply h
    have hpos : 0 < b.size := by simp [size]
    rw [span, Set.mem_Ico]
    omega
  rw [span, Set.mem_Ico] at hfirst hlast
  have hsize : b.size ≤ c.size := by omega
  exact (Nat.pow_le_pow_iff_right (by norm_num)).mp hsize

/-- A block is determined by its elements. -/
theorem span_injective : Function.Injective span := by
  intro b c h
  have horder : b.order = c.order :=
    le_antisymm (order_le_of_span_subset h.le) (order_le_of_span_subset h.ge)
  exact eq_of_mem_span horder (start_mem_span b) (h ▸ start_mem_span b)

/-! ## Buddies -/

theorem half_eq_iff (q i : ℕ) : q / 2 = i / 2 ↔ q = i ∨ q = i ^^^ 1 := by
  have hxor : i ^^^ 1 = if i % 2 = 0 then i + 1 else i - 1 := by
    rcases Nat.even_or_odd i with h | h
    · rw [if_pos (Nat.even_iff.mp h)]
      exact Nat.xor_one_of_even h
    · rw [if_neg (by rw [Nat.odd_iff.mp h]; decide)]
      exact Nat.xor_one_of_odd h
  rw [hxor]
  split <;> omega

@[simp] theorem parent_order (b : DyadicBlock) : b.parent.order = b.order + 1 := rfl

@[simp] theorem buddy_buddy (b : DyadicBlock) : b.buddy.buddy = b := by
  simp [buddy]

theorem buddy_ne (b : DyadicBlock) : b.buddy ≠ b := by
  intro h
  have hindex := congrArg DyadicBlock.index h
  simp only [buddy] at hindex
  have hzero : (1 : ℕ) = 0 := by
    have hxor := congrArg (b.index ^^^ ·) hindex
    simp at hxor
  omega

@[simp] theorem parent_buddy (b : DyadicBlock) : b.buddy.parent = b.parent := by
  have hhalf : (b.index ^^^ 1) / 2 = b.index / 2 := (half_eq_iff _ _).mpr (.inr rfl)
  simp [buddy, parent, hhalf]

/-- The parent consists of its two halves. -/
theorem span_parent (b : DyadicBlock) : b.parent.span = b.span ∪ b.buddy.span := by
  ext x
  rw [Set.mem_union, mem_span, mem_span, mem_span, parent_order, pow_succ,
    ← Nat.div_div_eq_div_mul]
  exact half_eq_iff _ _

theorem span_subset_parent (b : DyadicBlock) : b.span ⊆ b.parent.span := by
  rw [span_parent]
  exact Set.subset_union_left

theorem disjoint_buddy (b : DyadicBlock) : Disjoint b.span b.buddy.span := by
  rw [Set.disjoint_left]
  intro x hx hx'
  exact buddy_ne b (eq_of_mem_span rfl hx' hx)

/-- The block that strictly contains a block contains its parent. -/
theorem span_parent_subset {b c : DyadicBlock} (h : b.span ⊆ c.span) (hne : b ≠ c) :
    b.parent.span ⊆ c.span := by
  have hlt : b.order < c.order := by
    rcases (order_le_of_span_subset h).lt_or_eq with hlt | heq
    · exact hlt
    · exact absurd (eq_of_mem_span heq (start_mem_span b) (h (start_mem_span b))) hne
  exact span_subset_span hlt (span_subset_parent b (start_mem_span b)) (h (start_mem_span b))

end DyadicBlock

open DyadicBlock

/-! ## Tilings -/

/-- A set of dyadic blocks covers `S` exactly and without overlap. -/
structure Tiling (B : Set DyadicBlock) (S : Set ℕ) : Prop where
  subset : ∀ b ∈ B, b.span ⊆ S
  cover : ∀ x ∈ S, ∃ b ∈ B, x ∈ b.span
  unique : ∀ b ∈ B, ∀ c ∈ B, ∀ x, x ∈ b.span → x ∈ c.span → b = c

namespace Tiling

variable {B : Set DyadicBlock} {S : Set ℕ}

/-- A single block tiles itself. -/
theorem singleton (b : DyadicBlock) : Tiling {b} b.span where
  subset := by simp
  cover := by simp
  unique := by simp

/-- Blocks of a tiling do not overlap. -/
theorem disjoint (h : Tiling B S) {b c : DyadicBlock} (hb : b ∈ B) (hc : c ∈ B)
    (hne : b ≠ c) : Disjoint b.span c.span := by
  rw [Set.disjoint_left]
  intro x hx hx'
  exact hne (h.unique b hb c hc x hx hx')

/-- Replace a block by its two halves. -/
theorem split (h : Tiling B S) {b : DyadicBlock} (hb : b.parent ∈ B) :
    Tiling (insert b (insert b.buddy (B \ {b.parent}))) S where
  subset := by
    have hparent := h.subset _ hb
    rw [span_parent, Set.union_subset_iff] at hparent
    rintro c (rfl | rfl | hc)
    · exact hparent.1
    · exact hparent.2
    · exact h.subset c hc.1
  cover := by
    intro x hx
    obtain ⟨c, hc, hxc⟩ := h.cover x hx
    by_cases hcb : c = b.parent
    · rw [hcb, span_parent] at hxc
      rcases hxc with hxc | hxc
      · exact ⟨b, by simp, hxc⟩
      · exact ⟨b.buddy, by simp, hxc⟩
    · exact ⟨c, by simp [hc, hcb], hxc⟩
  unique := by
    -- a number of one half lies in no block of the tiling but the parent
    have hin : ∀ x, x ∈ b.span ∪ b.buddy.span → ∀ c ∈ B \ {b.parent}, x ∉ c.span := by
      intro x hx c hc hxc
      rw [← span_parent] at hx
      exact hc.2 (h.unique c hc.1 _ hb x hxc hx)
    have hhalves : ∀ x, x ∈ b.span → x ∉ b.buddy.span :=
      fun x hx => Set.disjoint_left.mp (disjoint_buddy b) hx
    rintro c (rfl | rfl | hc) d (rfl | rfl | hd) x hxc hxd
    · rfl
    · exact absurd hxd (hhalves x hxc)
    · exact absurd hxd (hin x (.inl hxc) d hd)
    · exact absurd hxc (hhalves x hxd)
    · rfl
    · exact absurd hxd (hin x (.inr hxc) d hd)
    · exact absurd hxc (hin x (.inl hxd) c hc)
    · exact absurd hxc (hin x (.inr hxd) c hc)
    · exact h.unique c hc.1 d hd.1 x hxc hxd

/-- Replace two buddies by their parent. -/
theorem merge (h : Tiling B S) {b : DyadicBlock} (hb : b ∈ B) (hb' : b.buddy ∈ B) :
    Tiling (insert b.parent (B \ {b, b.buddy})) S where
  subset := by
    rintro c (rfl | hc)
    · rw [span_parent]
      exact Set.union_subset (h.subset b hb) (h.subset _ hb')
    · exact h.subset c hc.1
  cover := by
    intro x hx
    obtain ⟨c, hc, hxc⟩ := h.cover x hx
    by_cases hcb : c = b ∨ c = b.buddy
    · refine ⟨b.parent, by simp, ?_⟩
      rw [span_parent]
      rcases hcb with rfl | rfl
      · exact .inl hxc
      · exact .inr hxc
    · exact ⟨c, .inr ⟨hc, hcb⟩, hxc⟩
  unique := by
    have hin : ∀ x, x ∈ b.parent.span → ∀ c ∈ B \ {b, b.buddy}, x ∉ c.span := by
      intro x hx c hc hxc
      rw [span_parent] at hx
      rcases hx with hx | hx
      · exact hc.2 (.inl (h.unique c hc.1 b hb x hxc hx))
      · exact hc.2 (.inr (h.unique c hc.1 _ hb' x hxc hx))
    rintro c (rfl | hc) d (rfl | hd) x hxc hxd
    · rfl
    · exact absurd hxd (hin x hxc d hd)
    · exact absurd hxc (hin x hxd c hc)
    · exact h.unique c hc.1 d hd.1 x hxc hxd

end Tiling
