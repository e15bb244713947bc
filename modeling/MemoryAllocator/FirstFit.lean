/-
# `contiguous_demo.cpp`: the first-fit allocator

The blocks of the arena are kept in a vector in the order of their offsets.  An allocation
takes the first free block that is large enough and cuts off the rest; a release joins the
block with its free neighbours, in one pass over the vector.  A pointer is the offset plus
one, so that the null pointer is 0.

The blocks tile the arena (`Tiles`), and no two free blocks are neighbours.  Every offset
and every sum that the allocator computes is at most the size of the arena, so that no
`size_t` overflows.
-/
import MemoryAllocator.GuardedMachine

namespace Memlab

/-- A block of the arena. -/
structure Block where
  offset : ℕ
  size : ℕ
  free : Bool
  deriving DecidableEq, Repr

/-- The blocks in the order of their offsets. -/
structure FirstFitAllocator where
  blocks : List Block
  deriving DecidableEq, Repr

namespace FirstFitAllocator

/-- At the start the arena is one free block. -/
def create (total : ℕ) : FirstFitAllocator := ⟨[⟨0, total, true⟩]⟩

/-- The loop of `Allocate` over the rest of the vector: the pointer and the new blocks. -/
def allocateLoop (size : ℕ) : List Block → Option (ℕ × List Block)
  | [] => none
  | b :: rest =>
    if b.free ∧ b.size ≥ size then
      if b.size > size then
        some (b.offset + 1,
          { b with size := size, free := false }
            :: ⟨b.offset + size, b.size - size, true⟩ :: rest)
      else some (b.offset + 1, { b with free := false } :: rest)
    else (allocateLoop size rest).map (fun r => (r.1, b :: r.2))

/-- The address is the offset plus one; zero says that nothing fits. -/
def allocate (a : FirstFitAllocator) (size : ℕ) : ℕ × FirstFitAllocator :=
  match allocateLoop size a.blocks with
  | some (ptr, blocks) => (ptr, ⟨blocks⟩)
  | none => (0, a)

/-- The loop of `Free` that looks for the block. -/
def markFree (offset : ℕ) : List Block → List Block
  | [] => []
  | b :: rest =>
    if b.offset = offset then { b with free := true } :: rest else b :: markFree offset rest

/-- The loop of `Free` that joins blocks, at the block `b`. -/
def mergeLoop (b : Block) : List Block → List Block
  | [] => [b]
  | b' :: rest =>
    if b.free ∧ b'.free then mergeLoop { b with size := b.size + b'.size } rest
    else b :: mergeLoop b' rest

/-- Neighbouring free blocks become one, from left to right. -/
def merge : List Block → List Block
  | [] => []
  | b :: rest => mergeLoop b rest

/-- The block of the address is marked, and the free blocks are merged; zero is
ignored. -/
def free (a : FirstFitAllocator) (ptr : ℕ) : FirstFitAllocator :=
  if ptr = 0 then a else ⟨merge (markFree (ptr - 1) a.blocks)⟩

end FirstFitAllocator

/-! ## Tilings -/

/-- The blocks cover the numbers from `start` to `stop` one after the other. -/
def Tiles : ℕ → List Block → ℕ → Prop
  | start, [], stop => start = stop
  | start, b :: rest, stop => b.offset = start ∧ Tiles (start + b.size) rest stop

/-- The blocks that are allocated, as pointers and sizes. -/
def allocated (blocks : List Block) : List (ℕ × ℕ) :=
  (blocks.filter (fun b => !b.free)).map (fun b => (b.offset + 1, b.size))

/-- No two neighbours are free. -/
def Coalesced (blocks : List Block) : Prop :=
  blocks.IsChain (fun b b' => ¬ (b.free = true ∧ b'.free = true))

variable {start stop size : ℕ} {blocks pre post : List Block} {b : Block}

/-- Two lists of blocks tile from end to end if they meet. -/
theorem tiles_append : Tiles start (pre ++ post) stop ↔
    ∃ mid, Tiles start pre mid ∧ Tiles mid post stop := by
  induction pre generalizing start with
  | nil => simp [Tiles]
  | cons b pre ih =>
    simp only [List.cons_append, Tiles, ih]
    constructor
    · rintro ⟨hb, mid, hpre, hpost⟩
      exact ⟨mid, ⟨hb, hpre⟩, hpost⟩
    · rintro ⟨mid, ⟨hb, hpre⟩, hpost⟩
      exact ⟨hb, mid, hpre, hpost⟩

/-- Blocks that tile a range do not go backwards. -/
theorem Tiles.le (h : Tiles start blocks stop) : start ≤ stop := by
  induction blocks generalizing start with
  | nil => exact h.le
  | cons b blocks ih =>
    have hrest := ih h.2
    omega

/-- A block of a tiling lies between its ends. -/
theorem Tiles.bounds (h : Tiles start blocks stop) (hb : b ∈ blocks) :
    start ≤ b.offset ∧ b.offset + b.size ≤ stop := by
  induction blocks generalizing start with
  | nil => simp at hb
  | cons b' blocks ih =>
    rcases List.mem_cons.mp hb with rfl | hb
    · exact ⟨h.1.ge, h.1 ▸ h.2.le⟩
    · have hrest := ih h.2 hb
      omega

/-- The offsets increase. -/
theorem Tiles.pairwise (h : Tiles start blocks stop) (hpos : ∀ b ∈ blocks, 1 ≤ b.size) :
    blocks.Pairwise (fun b b' => b.offset < b'.offset) := by
  induction blocks generalizing start with
  | nil => exact .nil
  | cons b blocks ih =>
    refine .cons (fun b' hb' => ?_) (ih h.2 (fun b' hb' => hpos b' (List.mem_cons_of_mem _ hb')))
    have hlo := (h.2.bounds hb').1
    have hsize := hpos b (List.mem_cons_self ..)
    have hoff := h.1
    omega

/-- Each block begins where the one before it ends. -/
theorem Tiles.isChain (h : Tiles start blocks stop) :
    blocks.IsChain (fun b b' => b.offset + b.size = b'.offset) := by
  induction blocks generalizing start with
  | nil => exact .nil
  | cons b blocks ih =>
    cases blocks with
    | nil => exact .singleton b
    | cons b' blocks =>
      refine .cons_cons ?_ (ih h.2)
      rw [h.2.1, h.1]

/-- The last block ends where the range does. -/
theorem Tiles.getLast? (h : Tiles start blocks stop) :
    ∀ b ∈ blocks.getLast?, b.offset + b.size = stop := by
  induction blocks generalizing start with
  | nil => simp
  | cons b blocks ih =>
    cases blocks with
    | nil =>
      intro b' hb'
      obtain rfl : b = b' := by simpa using hb'
      rw [h.1]
      exact h.2
    | cons b' blocks =>
      rw [List.getLast?_cons_cons]
      exact ih h.2

/-! ## Allocations -/

namespace FirstFitAllocator

/-- A free block from which `size` bytes are taken. -/
def cut (size : ℕ) (b : Block) : List Block :=
  if b.size > size then
    [{ b with size := size, free := false }, ⟨b.offset + size, b.size - size, true⟩]
  else [{ b with free := false }]

/-- **What the loop of `Allocate` does**: it cuts the first free block that fits. -/
theorem allocateLoop_cases (size : ℕ) (blocks : List Block) :
    (allocateLoop size blocks = none ∧ ∀ b ∈ blocks, ¬ (b.free ∧ b.size ≥ size)) ∨
    ∃ pre b post, blocks = pre ++ b :: post ∧ (∀ x ∈ pre, ¬ (x.free ∧ x.size ≥ size)) ∧
      b.free = true ∧ b.size ≥ size ∧
      allocateLoop size blocks = some (b.offset + 1, pre ++ cut size b ++ post) := by
  induction blocks with
  | nil => exact .inl ⟨rfl, by simp⟩
  | cons b blocks ih =>
    rw [allocateLoop]
    by_cases hfit : b.free ∧ b.size ≥ size
    · refine .inr ⟨[], b, blocks, rfl, by simp, hfit.1, hfit.2, ?_⟩
      rw [if_pos hfit, cut]
      split_ifs <;> rfl
    · rw [if_neg hfit]
      rcases ih with ⟨hnone, hall⟩ | ⟨pre, b', post, rfl, hpre, hfree, hsize, hsome⟩
      · refine .inl ⟨by rw [hnone]; rfl, fun x hx => ?_⟩
        rcases List.mem_cons.mp hx with rfl | hx
        · exact hfit
        · exact hall x hx
      · refine .inr ⟨b :: pre, b', post, rfl, fun x hx => ?_, hfree, hsize, by rw [hsome]; rfl⟩
        rcases List.mem_cons.mp hx with rfl | hx
        · exact hfit
        · exact hpre x hx

/-- The two parts tile the block that is cut. -/
theorem tiles_cut (hb : b.offset = start) :
    Tiles start (cut size b) (start + b.size) := by
  unfold cut
  split_ifs
  · refine ⟨hb, by rw [hb], ?_⟩
    show start + size + (b.size - size) = start + b.size
    omega
  · exact ⟨hb, rfl⟩

/-- Both parts have at least a byte. -/
theorem size_of_mem_cut (hpos : 1 ≤ size) (hsize : b.size ≥ size) :
    ∀ x ∈ cut size b, 1 ≤ x.size := by
  unfold cut
  split_ifs with hlt
  · simp only [List.mem_cons, List.not_mem_nil, or_false]
    rintro x (rfl | rfl)
    · exact hpos
    · show 1 ≤ b.size - size
      omega
  · simp only [List.mem_singleton]
    rintro x rfl
    show 1 ≤ b.size
    omega

/-- Only the first part is allocated. -/
theorem allocated_cut (hsize : b.size ≥ size) :
    allocated (cut size b) = [(b.offset + 1, size)] := by
  unfold cut
  split_ifs with hlt
  · rfl
  · simp [allocated]
    omega

/-- The block that is allocated comes first, and the rest that is cut off stands where the
whole block stood. -/
theorem coalesced_cut (h : Coalesced (pre ++ b :: post)) (hfree : b.free = true) :
    Coalesced (pre ++ cut size b ++ post) := by
  unfold Coalesced at h ⊢
  rw [List.isChain_append] at h
  obtain ⟨hpre, hpost, -⟩ := h
  have hcut : ((cut size b) ++ post).IsChain (fun b b' => ¬ (b.free = true ∧ b'.free = true)) := by
    unfold cut
    split_ifs
    · refine .cons_cons (by simp) ?_
      cases post with
      | nil => exact .singleton _
      | cons b' post =>
        rw [List.isChain_cons_cons] at hpost
        refine .cons_cons ?_ hpost.2
        simpa [hfree] using hpost.1
    · cases post with
      | nil => exact .singleton _
      | cons b' post =>
        rw [List.isChain_cons_cons] at hpost
        exact .cons_cons (by simp) hpost.2
  rw [List.append_assoc, List.isChain_append]
  refine ⟨hpre, hcut, fun x _ y hy => ?_⟩
  have hused : y.free = false := by
    unfold cut at hy
    split_ifs at hy
    · obtain rfl : _ = y := Option.some.inj hy
      rfl
    · obtain rfl : _ = y := Option.some.inj hy
      rfl
  simp [hused]

/-! ## Releases -/

/-- The block at the offset is marked, and no other. -/
theorem markFree_eq (hpre : ∀ x ∈ pre, x.offset ≠ b.offset) :
    markFree b.offset (pre ++ b :: post) = pre ++ { b with free := true } :: post := by
  induction pre with
  | nil => simp [markFree]
  | cons x pre ih =>
    rw [List.cons_append, markFree, if_neg (hpre x (List.mem_cons_self ..)),
      ih (fun y hy => hpre y (List.mem_cons_of_mem _ hy))]
    rfl

/-- The loop keeps whether the first block is free. -/
theorem mergeLoop_head (b : Block) (rest : List Block) :
    ∃ x tail, mergeLoop b rest = x :: tail ∧ x.free = b.free := by
  induction rest generalizing b with
  | nil => exact ⟨b, [], rfl, rfl⟩
  | cons b' rest ih =>
    rw [mergeLoop]
    split_ifs
    · exact ih { b with size := b.size + b'.size }
    · exact ⟨b, _, rfl, rfl⟩

/-- One pass leaves no two free neighbours. -/
theorem coalesced_mergeLoop (b : Block) (rest : List Block) : Coalesced (mergeLoop b rest) := by
  induction rest generalizing b with
  | nil => exact .singleton b
  | cons b' rest ih =>
    rw [mergeLoop]
    split_ifs with hboth
    · exact ih { b with size := b.size + b'.size }
    · obtain ⟨x, tail, heq, hx⟩ := mergeLoop_head b' rest
      have hrest := ih b'
      rw [heq] at hrest ⊢
      refine .cons_cons ?_ hrest
      rwa [hx]

/-- Merging keeps the range that the blocks tile. -/
theorem tiles_mergeLoop {rest : List Block} (h : Tiles start (b :: rest) stop) :
    Tiles start (mergeLoop b rest) stop := by
  induction rest generalizing start b with
  | nil => exact h
  | cons b' rest ih =>
    rw [mergeLoop]
    split_ifs
    · refine ih ⟨h.1, ?_⟩
      show Tiles (start + (b.size + b'.size)) rest stop
      rw [← Nat.add_assoc]
      exact h.2.2
    · exact ⟨h.1, ih h.2⟩

/-- Merged blocks have at least a byte. -/
theorem size_of_mem_mergeLoop {rest : List Block} (h : ∀ x ∈ b :: rest, 1 ≤ x.size) :
    ∀ x ∈ mergeLoop b rest, 1 ≤ x.size := by
  induction rest generalizing b with
  | nil => exact h
  | cons b' rest ih =>
    rw [mergeLoop]
    split_ifs
    · refine ih (fun x hx => ?_)
      rcases List.mem_cons.mp hx with rfl | hx
      · exact Nat.le_add_right_of_le (h b (List.mem_cons_self ..))
      · exact h x (List.mem_cons_of_mem _ (List.mem_cons_of_mem _ hx))
    · intro x hx
      rcases List.mem_cons.mp hx with rfl | hx
      · exact h x (List.mem_cons_self ..)
      · exact ih (fun y hy => h y (List.mem_cons_of_mem _ hy)) x hx

/-- Joining free blocks leaves the allocated ones alone. -/
theorem allocated_mergeLoop (b : Block) (rest : List Block) :
    allocated (mergeLoop b rest) = allocated (b :: rest) := by
  induction rest generalizing b with
  | nil => rfl
  | cons b' rest ih =>
    rw [mergeLoop]
    split_ifs with hboth
    · rw [ih]
      simp [allocated, hboth.1, hboth.2]
    · have hcons : ∀ l, allocated (b :: l) = allocated [b] ++ allocated l := by
        intro l
        simp only [allocated, List.filter_cons, List.filter_nil]
        split_ifs <;> rfl
      rw [hcons, ih, ← hcons]

end FirstFitAllocator

/-! ## The invariant -/

/-- **The invariant** of an arena of `total` bytes, with the live allocations. -/
structure FirstFitAllocator.Inv (total : ℕ) (a : FirstFitAllocator) (live : List (ℕ × ℕ)) :
    Prop where
  tiles : Tiles 0 a.blocks total
  size_pos : ∀ b ∈ a.blocks, 1 ≤ b.size
  coalesced : Coalesced a.blocks
  live_perm : (allocated a.blocks).Perm live

namespace FirstFitAllocator

variable {total : ℕ} {a : FirstFitAllocator} {live : List (ℕ × ℕ)}

/-- One free block, and nothing allocated. -/
theorem inv_create (hpos : 1 ≤ total) : Inv total (create total) [] := by
  refine ⟨⟨rfl, Nat.zero_add total⟩, ?_, .singleton _, .refl _⟩
  simp [create, hpos]

/-- The allocated blocks of two lists together. -/
theorem allocated_append (l l' : List Block) :
    allocated (l ++ l') = allocated l ++ allocated l' := by
  simp [allocated]

/-- **What `Allocate` does**: nothing if no free block fits, and else a new live
allocation. -/
theorem Inv.allocate (h : Inv total a live) (hpos : 1 ≤ size) :
    (a.allocate size = (0, a) ∧ ∀ b ∈ a.blocks, ¬ (b.free ∧ b.size ≥ size)) ∨
    ∃ ptr a', a.allocate size = (ptr, a') ∧ ptr ≠ 0 ∧ Inv total a' ((ptr, size) :: live) := by
  unfold FirstFitAllocator.allocate
  rcases allocateLoop_cases size a.blocks with ⟨hnone, hall⟩ |
    ⟨pre, b, post, hblocks, -, hfree, hsize, hsome⟩
  · exact .inl ⟨by rw [hnone], hall⟩
  · refine .inr ⟨b.offset + 1, ⟨pre ++ cut size b ++ post⟩, by rw [hsome], by omega, ?_⟩
    have htiles := h.tiles
    have hsizes := h.size_pos
    have hcoalesced := h.coalesced
    have hlive := h.live_perm
    rw [hblocks] at htiles hsizes hcoalesced hlive
    refine ⟨?_, fun x hx => ?_, coalesced_cut hcoalesced hfree, ?_⟩
    · obtain ⟨mid, hpre, hb, hpost⟩ := tiles_append.mp htiles
      refine tiles_append.mpr ⟨mid + b.size, tiles_append.mpr ⟨mid, hpre, tiles_cut hb⟩, hpost⟩
    · rcases List.mem_append.mp hx with hx | hx
      · rcases List.mem_append.mp hx with hx | hx
        · exact hsizes x (List.mem_append_left _ hx)
        · exact size_of_mem_cut hpos hsize x hx
      · exact hsizes x (List.mem_append_right _ (List.mem_cons_of_mem _ hx))
    · have hskip : allocated (b :: post) = allocated post := by simp [allocated, hfree]
      rw [allocated_append, hskip] at hlive
      show (allocated (pre ++ cut size b ++ post)).Perm _
      rw [allocated_append, allocated_append, allocated_cut hsize, List.append_assoc,
        List.singleton_append]
      exact List.perm_middle.trans (hlive.cons _)

/-- A live allocation is a block. -/
theorem Inv.exists_block (h : Inv total a live) {ptr size : ℕ} (hmem : (ptr, size) ∈ live) :
    ∃ pre b post, a.blocks = pre ++ b :: post ∧ b.free = false ∧ ptr = b.offset + 1 ∧
      size = b.size ∧ ∀ x ∈ pre ++ post, x.offset ≠ b.offset := by
  obtain ⟨b, hb, heq⟩ := List.mem_map.mp (h.live_perm.mem_iff.mpr hmem)
  obtain ⟨hb, hused⟩ := List.mem_filter.mp hb
  obtain ⟨pre, post, hblocks⟩ := List.append_of_mem hb
  obtain ⟨rfl, rfl⟩ := Prod.mk.inj heq
  refine ⟨pre, b, post, hblocks, by simpa using hused, rfl, rfl, fun x hx => ?_⟩
  have hpair := h.tiles.pairwise h.size_pos
  rw [hblocks, List.pairwise_append] at hpair
  obtain ⟨-, hpost, hpre⟩ := hpair
  rcases List.mem_append.mp hx with hx | hx
  · exact (hpre x hx b (List.mem_cons_self ..)).ne
  · exact ((List.pairwise_cons.mp hpost).1 x hx).ne'

/-- The order of the live blocks does not matter. -/
theorem Inv.perm (h : Inv total a live) {live' : List (ℕ × ℕ)} (hperm : live.Perm live') :
    Inv total a live' :=
  ⟨h.tiles, h.size_pos, h.coalesced, h.live_perm.trans hperm⟩

/-- A live block has an address. -/
theorem Inv.ptr_ne_zero (h : Inv total a live) {x : ℕ × ℕ} (hx : x ∈ live) : x.1 ≠ 0 := by
  obtain ⟨pre, b, post, -, -, hptr, -⟩ := h.exists_block hx
  omega

/-- The blocks that are allocated are in the order of their pointers. -/
theorem Inv.pairwise_allocated (h : Inv total a live) :
    (allocated a.blocks).Pairwise (fun x y => x.1 < y.1) := by
  apply List.pairwise_map.mpr
  apply ((h.tiles.pairwise h.size_pos).sublist List.filter_sublist).imp
  intro b b' hlt
  exact Nat.add_lt_add_right hlt 1

/-- No two live allocations have the same pointer. -/
theorem Inv.nodup_ptr (h : Inv total a live) : (live.map Prod.fst).Nodup := by
  apply (h.live_perm.map Prod.fst).nodup_iff.mp
  exact (List.pairwise_map.mpr h.pairwise_allocated).imp (fun hlt => Nat.ne_of_lt hlt)

/-- **What `Free` does**: the allocation is no longer live. -/
theorem Inv.free (h : Inv total a live) {ptr size : ℕ} (hmem : (ptr, size) ∈ live) :
    Inv total (a.free ptr) (live.erase (ptr, size)) := by
  obtain ⟨pre, b, post, hblocks, hused, rfl, rfl, hother⟩ := h.exists_block hmem
  have hmark : markFree (b.offset + 1 - 1) a.blocks = pre ++ { b with free := true } :: post := by
    rw [hblocks, Nat.add_sub_cancel]
    exact markFree_eq (fun x hx => hother x (List.mem_append_left _ hx))
  have htiles := h.tiles
  have hsizes := h.size_pos
  have hlive := h.live_perm
  rw [hblocks] at htiles hsizes hlive
  have htiles' : Tiles 0 (pre ++ { b with free := true } :: post) total := by
    obtain ⟨mid, hpre, hpost⟩ := tiles_append.mp htiles
    exact tiles_append.mpr ⟨mid, hpre, hpost⟩
  have hsizes' : ∀ x ∈ pre ++ { b with free := true } :: post, 1 ≤ x.size := by
    intro x hx
    rcases List.mem_append.mp hx with hx | hx
    · exact hsizes x (List.mem_append_left _ hx)
    · rcases List.mem_cons.mp hx with rfl | hx
      · exact hsizes b (by simp)
      · exact hsizes x (by simp [hx])
  have hlive' : (allocated (pre ++ { b with free := true } :: post)).Perm
      (live.erase (b.offset + 1, b.size)) := by
    have hcons : allocated (b :: post) = (b.offset + 1, b.size) :: allocated post := by
      simp [allocated, hused]
    have hskip : allocated ({ b with free := true } :: post) = allocated post := by
      simp [allocated]
    rw [allocated_append, hcons] at hlive
    rw [allocated_append, hskip]
    have herase := (List.perm_middle.symm.trans hlive).erase (b.offset + 1, b.size)
    rwa [List.erase_cons_head] at herase
  unfold FirstFitAllocator.free
  rw [if_neg (by omega), hmark]
  generalize pre ++ { b with free := true } :: post = marked at htiles' hsizes' hlive'
  cases marked with
  | nil => exact ⟨htiles', hsizes', .nil, hlive'⟩
  | cons x rest =>
    exact ⟨tiles_mergeLoop htiles', size_of_mem_mergeLoop hsizes', coalesced_mergeLoop x rest,
      (allocated_mergeLoop x rest).symm ▸ hlive'⟩

/-- Once everything has been released, the arena is one free block. -/
theorem Inv.eq_create (h : Inv total a []) (hpos : 1 ≤ total) : a = create total := by
  have hfree : ∀ b ∈ a.blocks, b.free = true := by
    intro b hb
    by_contra hused
    have hmem : (b.offset + 1, b.size) ∈ allocated a.blocks :=
      List.mem_map.mpr ⟨b, List.mem_filter.mpr ⟨hb, by simpa using hused⟩, rfl⟩
    exact absurd (h.live_perm.mem_iff.mp hmem) List.not_mem_nil
  obtain ⟨blocks⟩ := a
  have htiles := h.tiles
  have hcoalesced := h.coalesced
  match blocks with
  | [] => exact absurd htiles (by simp [Tiles]; omega)
  | [b] =>
    obtain ⟨hoffset, hsize⟩ := htiles
    have hb := hfree b (List.mem_singleton_self b)
    obtain ⟨offset, size, free⟩ := b
    simp only [Tiles, Nat.zero_add] at hsize
    simp only at hoffset hb
    rw [create, hoffset, hsize, hb]
  | b :: b' :: rest =>
    have hboth := (List.isChain_cons_cons.mp hcoalesced).1
    exact absurd ⟨hfree b (by simp), hfree b' (by simp)⟩ hboth

end FirstFitAllocator

/-! ## Runs -/

/-- An allocator with the allocations that are live, as pointers and requested sizes. -/
structure FirstFitRun where
  alloc : FirstFitAllocator
  live : List (ℕ × ℕ) := []
  deriving DecidableEq, Repr

/-- A call of a session. -/
inductive FirstFitOp where
  | allocate (size : ℕ)
  | free (ptr : ℕ)
  deriving DecidableEq, Repr

namespace FirstFitRun

/-- A block that has been allocated is live. -/
def allocate (s : FirstFitRun) (size : ℕ) : FirstFitRun :=
  let r := s.alloc.allocate size
  { alloc := r.2, live := if r.1 = 0 then s.live else (r.1, size) :: s.live }

/-- A block that has been freed is no longer live. -/
def free (s : FirstFitRun) (ptr : ℕ) : FirstFitRun :=
  { alloc := s.alloc.free ptr, live := s.live.eraseP (fun x => x.1 = ptr) }

end FirstFitRun

/-- Allocations of at least a byte, and releases of null or of what is live. -/
def firstFitMachine : GuardedMachine FirstFitRun FirstFitOp where
  pre
    | _, .allocate size => 1 ≤ size
    | s, .free ptr => ptr = 0 ∨ ∃ x ∈ s.live, x.1 = ptr
  exec
    | s, .allocate size => some (s.allocate size)
    | s, .free ptr => some (s.free ptr)

instance (s : FirstFitRun) (op : FirstFitOp) : Decidable (firstFitMachine.pre s op) :=
  match op with
  | .allocate size => inferInstanceAs (Decidable (1 ≤ size))
  | .free ptr => inferInstanceAs (Decidable (ptr = 0 ∨ ∃ x ∈ s.live, x.1 = ptr))

namespace FirstFitAllocator

variable {total : ℕ} {s : FirstFitRun}

/-- An allocation of the session keeps the invariant. -/
theorem Inv.run_allocate (h : Inv total s.alloc s.live) (hpos : 1 ≤ size) :
    Inv total (s.allocate size).alloc (s.allocate size).live := by
  unfold FirstFitRun.allocate
  rcases h.allocate hpos with ⟨heq, -⟩ | ⟨ptr, a', heq, hptr, hinv⟩
  · rw [heq]
    exact h
  · rw [heq]
    dsimp only
    rwa [if_neg hptr]

/-- Freeing nothing or a live block keeps the invariant. -/
theorem Inv.run_free (h : Inv total s.alloc s.live) {ptr : ℕ}
    (hptr : ptr = 0 ∨ ∃ x ∈ s.live, x.1 = ptr) :
    Inv total (s.free ptr).alloc (s.free ptr).live := by
  unfold FirstFitRun.free
  by_cases hnone : ∃ x ∈ s.live, x.1 = ptr
  · -- the first entry with this pointer is erased
    obtain ⟨x, hx, hxptr⟩ := hnone
    obtain ⟨y, l, l', hl, hy, hlive, herase⟩ :=
      List.exists_of_eraseP (p := fun x => decide (x.1 = ptr)) hx (by simpa using hxptr)
    obtain rfl : y.1 = ptr := by simpa using hy
    have hnotin : y ∉ l := fun hin => hl y hin hy
    have hmem : (y.1, y.2) ∈ s.live := by simp [hlive]
    have hfree := h.free hmem
    rw [herase]
    rwa [hlive, List.erase_append_right _ hnotin, List.erase_cons_head] at hfree
  · obtain rfl := hptr.resolve_right hnone
    have hsame : s.live.eraseP (fun x => decide (x.1 = 0)) = s.live := by
      refine List.eraseP_of_forall_not (fun x hx => ?_)
      simpa using fun hx0 => hnone ⟨x, hx, hx0⟩
    rw [hsame]
    unfold FirstFitAllocator.free
    rw [if_pos rfl]
    exact h

/-- What the blocks of an arena of `total` bytes look like. -/
structure Represents (total : ℕ) (blocks : List Block) (live : List (ℕ × ℕ)) : Prop where
  offset_lt : blocks.Pairwise (fun b b' => b.offset < b'.offset)
  first_offset : blocks.head?.map Block.offset = some 0
  next_offset : blocks.IsChain (fun b b' => b.offset + b.size = b'.offset)
  last_end : blocks.getLast?.map (fun b => b.offset + b.size) = some total
  size_pos : ∀ b ∈ blocks, 1 ≤ b.size
  no_free_neighbours : blocks.IsChain (fun b b' => ¬ (b.free = true ∧ b'.free = true))
  live_perm : ((blocks.filter (fun b => !b.free)).map (fun b => (b.offset + 1, b.size))).Perm live
  all_freed : live = [] → blocks = [⟨0, total, true⟩]

/-- What the invariant says about the blocks of the arena. -/
theorem Inv.represents {a : FirstFitAllocator} {live : List (ℕ × ℕ)} (h : Inv total a live)
    (hpos : 1 ≤ total) : Represents total a.blocks live := by
  have htiles := h.tiles
  have hne : a.blocks ≠ [] := by
    intro hnil
    rw [hnil] at htiles
    have hzero : 0 = total := htiles
    omega
  refine ⟨htiles.pairwise h.size_pos, ?_, htiles.isChain, ?_, h.size_pos, h.coalesced, h.live_perm,
    fun hnil => ?_⟩
  · obtain ⟨b, rest, hblocks⟩ := List.exists_cons_of_ne_nil hne
    rw [hblocks] at htiles ⊢
    exact congrArg some htiles.1
  · rw [List.getLast?_eq_some_getLast hne]
    exact congrArg some (htiles.getLast? _ (List.getLast?_eq_some_getLast hne))
  · subst hnil
    rw [h.eq_create hpos]
    rfl

/-- **Runs keep the invariant.** -/
theorem inv_of_legal (hpos : 1 ≤ total) {ops : List FirstFitOp}
    (hlegal : firstFitMachine.Legal { alloc := .create total } ops) :
    ∃ s, firstFitMachine.run { alloc := .create total } ops = some s ∧
      Inv total s.alloc s.live := by
  have hstep : ∀ s op, Inv total s.alloc s.live → firstFitMachine.pre s op →
      ∃ t, firstFitMachine.exec s op = some t ∧ Inv total t.alloc t.live := by
    intro s op hinv hpre
    cases op with
    | allocate size => exact ⟨_, rfl, hinv.run_allocate hpre⟩
    | free ptr => exact ⟨_, rfl, hinv.run_free hpre⟩
  exact hlegal.invariant hstep (inv_create hpos)

end FirstFitAllocator

/-- **The representation invariant of the first-fit allocator**, after every sequence of
allocations and releases. -/
theorem firstFit_representation (total : ℕ) (hpos : 1 ≤ total) (ops : List FirstFitOp)
    (hlegal : firstFitMachine.Legal { alloc := .create total } ops) :
    ∃ s, firstFitMachine.run { alloc := .create total } ops = some s ∧
      FirstFitAllocator.Represents total s.alloc.blocks s.live := by
  obtain ⟨s, hrun, hinv⟩ := FirstFitAllocator.inv_of_legal hpos hlegal
  exact ⟨s, hrun, hinv.represents hpos⟩

/-- Three allocations; the middle one is released last and joins both neighbours. -/
theorem threeBlocks_representation :
    (firstFitMachine.run { alloc := .create 100 }
      [.allocate 10, .allocate 20, .allocate 30, .free 1, .free 31]).map (fun s => s.alloc.blocks)
        = some [⟨0, 10, true⟩, ⟨10, 20, false⟩, ⟨30, 70, true⟩] ∧
    ∃ s, firstFitMachine.run { alloc := .create 100 }
        [.allocate 10, .allocate 20, .allocate 30, .free 1, .free 31, .free 11] = some s ∧
      FirstFitAllocator.Represents 100 s.alloc.blocks s.live :=
  ⟨by decide, firstFit_representation 100 (by decide)
    [.allocate 10, .allocate 20, .allocate 30, .free 1, .free 31, .free 11] (by decide)⟩

end Memlab
