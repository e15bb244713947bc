/-
# First fit finds room

The blocks are tested one by one, so a request that is larger than every free block fails
even if two neighbouring free blocks would be large enough together.  There are no such
neighbours: the free blocks are exactly the maximal runs of free bytes
(`FirstFitAllocator.Inv.maximalRun_iff`), whatever the fragmentation, and every run of free
bytes lies in one of them.
-/
import MemoryAllocator.FirstFit

namespace Memlab

/-! ## Runs of consecutive numbers -/

/-- The `n` numbers from `o` on form a run of `S` that cannot be extended. -/
structure MaximalRun (S : Set ℕ) (o n : ℕ) : Prop where
  subset : Set.Ico o (o + n) ⊆ S
  before : ∀ m, m + 1 = o → m ∉ S
  after : o + n ∉ S

section Runs

variable {S : Set ℕ} {o n a m x : ℕ}

/-- A run that meets a maximal run is a part of it. -/
theorem MaximalRun.contains (h : MaximalRun S o n) (hrun : Set.Ico a (a + m) ⊆ S)
    (hx : x ∈ Set.Ico o (o + n)) (hx' : x ∈ Set.Ico a (a + m)) : o ≤ a ∧ a + m ≤ o + n := by
  obtain ⟨hox, hxn⟩ := hx
  obtain ⟨hax, hxm⟩ := hx'
  constructor
  · by_contra hlt
    refine h.before (o - 1) (by omega) (hrun ⟨by omega, by omega⟩)
  · by_contra hlt
    exact h.after (hrun ⟨by omega, by omega⟩)

/-- Maximal runs that meet are the same. -/
theorem MaximalRun.eq (h : MaximalRun S o n) (h' : MaximalRun S a m)
    (hx : x ∈ Set.Ico o (o + n)) (hx' : x ∈ Set.Ico a (a + m)) : o = a ∧ n = m := by
  have hle := h.contains h'.subset hx hx'
  have hge := h'.contains h.subset hx' hx
  omega

end Runs

/-! ## The bytes of a tiling -/

variable {start stop size total x : ℕ} {blocks pre post : List Block} {b b' : Block}

/-- The bytes of a block. -/
def Block.bytes (b : Block) : Set ℕ := Set.Ico b.offset (b.offset + b.size)

/-- Every byte is in a block. -/
theorem Tiles.exists_mem_bytes (h : Tiles start blocks stop) (hx : x ∈ Set.Ico start stop) :
    ∃ b ∈ blocks, x ∈ b.bytes := by
  induction blocks generalizing start with
  | nil =>
    have heq : start = stop := h
    obtain ⟨hlo, hhi⟩ := hx
    omega
  | cons b blocks ih =>
    obtain ⟨hoffset, hrest⟩ := h
    by_cases hin : x < start + b.size
    · exact ⟨b, List.mem_cons_self .., by rw [hoffset]; exact hx.1, by rw [hoffset]; exact hin⟩
    · obtain ⟨b', hb', hmem⟩ := ih hrest ⟨by omega, hx.2⟩
      exact ⟨b', List.mem_cons_of_mem _ hb', hmem⟩

/-- No byte is in two blocks. -/
theorem Tiles.eq_of_mem_bytes (h : Tiles start blocks stop) (hb : b ∈ blocks) (hb' : b' ∈ blocks)
    (hx : x ∈ b.bytes) (hx' : x ∈ b'.bytes) : b = b' := by
  obtain ⟨hlo, hhi⟩ := hx
  obtain ⟨hlo', hhi'⟩ := hx'
  induction blocks generalizing start with
  | nil => simp at hb
  | cons c blocks ih =>
    obtain ⟨hoffset, hrest⟩ := h
    rcases List.mem_cons.mp hb with rfl | hmem <;> rcases List.mem_cons.mp hb' with rfl | hmem'
    · rfl
    · have hbounds := hrest.bounds hmem'
      omega
    · have hbounds := hrest.bounds hmem
      omega
    · exact ih hrest hmem hmem'

/-! ## Free bytes -/

/-- The bytes of the arena that no live allocation holds. -/
def freeBytes (total : ℕ) (live : List (ℕ × ℕ)) : Set ℕ :=
  { x | x < total ∧ ∀ p ∈ live, x + 1 ∉ Set.Ico p.1 (p.1 + p.2) }

namespace FirstFitAllocator

variable {a : FirstFitAllocator} {live : List (ℕ × ℕ)} {o n : ℕ}

/-- A byte is free exactly if its block is. -/
theorem Inv.mem_freeBytes_iff (h : Inv total a live) (hb : b ∈ a.blocks) (hx : x ∈ b.bytes) :
    x ∈ freeBytes total live ↔ b.free = true := by
  obtain ⟨hlo, hhi⟩ := hx
  constructor
  · rintro ⟨-, hnot⟩
    by_contra hused
    have hmem : (b.offset + 1, b.size) ∈ allocated a.blocks :=
      List.mem_map.mpr ⟨b, List.mem_filter.mpr ⟨hb, by simpa using hused⟩, rfl⟩
    refine hnot _ (h.live_perm.mem_iff.mp hmem) ⟨by omega, ?_⟩
    show x + 1 < b.offset + 1 + b.size
    omega
  · intro hfree
    have hbounds := h.tiles.bounds hb
    refine ⟨by omega, fun p hp hin => ?_⟩
    obtain ⟨ptr, psize⟩ := p
    obtain ⟨pre, c, post, hblocks, hused, rfl, rfl, -⟩ := h.exists_block hp
    obtain ⟨hlo', hhi'⟩ := hin
    have hc : c ∈ a.blocks := by simp [hblocks]
    dsimp only at hlo' hhi'
    have heq : b = c := h.tiles.eq_of_mem_bytes hb hc (x := x) ⟨hlo, hhi⟩ ⟨by omega, by omega⟩
    rw [heq, hused] at hfree
    exact absurd hfree (by simp)

/-- Of two blocks that touch, one is in use. -/
theorem Inv.not_both_free (h : Inv total a live) (hb : b ∈ a.blocks) (hb' : b' ∈ a.blocks)
    (htouch : b.offset + b.size = b'.offset) : ¬ (b.free = true ∧ b'.free = true) := by
  obtain ⟨pre, post, hblocks⟩ := List.append_of_mem hb
  have htiles := h.tiles
  have hcoalesced := h.coalesced
  have hpos := h.size_pos b' hb'
  have hbounds := h.tiles.bounds hb'
  rw [hblocks] at htiles hcoalesced
  obtain ⟨mid, -, hoffset, hpost⟩ := tiles_append.mp htiles
  cases post with
  | nil =>
    -- nothing comes after the last block
    have hend : mid + b.size = total := hpost
    omega
  | cons c post =>
    have hc : c ∈ a.blocks := by simp [hblocks]
    have hcpos := h.size_pos c hc
    have hstart : c.offset = mid + b.size := hpost.1
    have heq : c = b' := h.tiles.eq_of_mem_bytes hc hb' (x := c.offset)
      ⟨le_rfl, by omega⟩ ⟨by omega, by omega⟩
    have hchain := (List.isChain_append.mp hcoalesced).2.1
    rw [← heq]
    exact (List.isChain_cons_cons.mp hchain).1

/-- The bytes of a free block cannot be extended: the blocks that touch it are in use. -/
theorem Inv.maximalRun (h : Inv total a live) (hb : b ∈ a.blocks) (hfree : b.free = true) :
    MaximalRun (freeBytes total live) b.offset b.size := by
  have hpos := h.size_pos b hb
  refine ⟨fun x hx => (h.mem_freeBytes_iff hb hx).mpr hfree, fun m hm hmem => ?_, fun hmem => ?_⟩
  · obtain ⟨c, hc, hin⟩ := h.tiles.exists_mem_bytes ⟨Nat.zero_le m, hmem.1⟩
    have hcfree := (h.mem_freeBytes_iff hc hin).mp hmem
    obtain ⟨hlo, hhi⟩ := hin
    by_cases hover : b.offset < c.offset + c.size
    · have heq : b = c := h.tiles.eq_of_mem_bytes hb hc (x := b.offset)
        ⟨le_rfl, by omega⟩ ⟨by omega, hover⟩
      rw [heq] at hm
      omega
    · exact h.not_both_free hc hb (by omega) ⟨hcfree, hfree⟩
  · obtain ⟨c, hc, hin⟩ := h.tiles.exists_mem_bytes ⟨Nat.zero_le _, hmem.1⟩
    have hcfree := (h.mem_freeBytes_iff hc hin).mp hmem
    obtain ⟨hlo, hhi⟩ := hin
    by_cases hover : c.offset < b.offset + b.size
    · have heq : b = c := h.tiles.eq_of_mem_bytes hb hc (x := b.offset + b.size - 1)
        ⟨by omega, by omega⟩ ⟨by omega, by omega⟩
      rw [heq] at hhi
      omega
    · exact h.not_both_free hb hc (by omega) ⟨hfree, hcfree⟩

/-- A run of free bytes lies in a free block. -/
theorem Inv.exists_free_block (h : Inv total a live)
    (hrun : Set.Ico o (o + n) ⊆ freeBytes total live) (hn : 1 ≤ n) :
    ∃ b ∈ a.blocks, b.free = true ∧ b.offset ≤ o ∧ o + n ≤ b.offset + b.size := by
  have ho : o ∈ Set.Ico o (o + n) := ⟨le_rfl, by omega⟩
  obtain ⟨b, hb, hin⟩ := h.tiles.exists_mem_bytes ⟨Nat.zero_le o, (hrun ho).1⟩
  have hfree := (h.mem_freeBytes_iff hb hin).mp (hrun ho)
  exact ⟨b, hb, hfree, (h.maximalRun hb hfree).contains hrun hin ho⟩

/-- **The free blocks are the maximal runs of free bytes.** -/
theorem Inv.maximalRun_iff (h : Inv total a live) (hn : 1 ≤ n) :
    MaximalRun (freeBytes total live) o n ↔ ⟨o, n, true⟩ ∈ a.blocks := by
  constructor
  · intro hrun
    obtain ⟨b, hb, hfree, hlo, hhi⟩ := h.exists_free_block hrun.subset hn
    obtain ⟨rfl, rfl⟩ := hrun.eq (h.maximalRun hb hfree) (x := o) ⟨le_rfl, by omega⟩
      ⟨hlo, by omega⟩
    rw [← hfree]
    exact hb
  · intro hb
    exact h.maximalRun hb rfl

/-! ## Allocations -/

theorem used_cut (hfit : b.size ≥ size) :
    (cut size b).filter (fun x => !x.free) = [⟨b.offset, size, false⟩] := by
  unfold cut
  split_ifs with hlt
  · rfl
  · have heq : b.size = size := by omega
    rw [← heq]
    rfl

/-- **What `Allocate` does** to the bytes: it takes the first bytes of the lowest maximal run
that is long enough, and fails only if no run is. -/
theorem Inv.allocate_lowest (h : Inv total a live) (hsize : 1 ≤ size) :
    (a.allocate size = (0, a) ∧ ∀ o, ¬ Set.Ico o (o + size) ⊆ freeBytes total live) ∨
    ∃ o a', a.allocate size = (o + 1, a') ∧
      IsLeast { o | ∃ n, size ≤ n ∧ MaximalRun (freeBytes total live) o n } o ∧
      (a'.blocks.filter (fun b => !b.free)).Perm
        (⟨o, size, false⟩ :: a.blocks.filter (fun b => !b.free)) := by
  unfold FirstFitAllocator.allocate
  rcases allocateLoop_cases size a.blocks with ⟨hnone, hall⟩ |
    ⟨pre, b, post, hblocks, hpre, hfree, hfit, hsome⟩
  · refine .inl ⟨by rw [hnone], fun o hrun => ?_⟩
    obtain ⟨b, hb, hfree, hlo, hhi⟩ := h.exists_free_block hrun hsize
    exact hall b hb ⟨hfree, by omega⟩
  · have hb : b ∈ a.blocks := by simp [hblocks]
    refine .inr ⟨b.offset, ⟨pre ++ cut size b ++ post⟩, by rw [hsome],
      ⟨⟨b.size, hfit, h.maximalRun hb hfree⟩, ?_⟩, ?_⟩
    · -- a run that is long enough is `b` or a block after it
      rintro o ⟨n, hn, hrun⟩
      have hmem := (h.maximalRun_iff (by omega)).mp hrun
      have hpair := h.tiles.pairwise h.size_pos
      rw [hblocks] at hmem hpair
      rcases List.mem_append.mp hmem with hmem | hmem
      · exact absurd ⟨rfl, hn⟩ (hpre _ hmem)
      · rcases List.mem_cons.mp hmem with rfl | hmem
        · exact le_rfl
        · have hafter := (List.pairwise_append.mp hpair).2.1
          exact ((List.pairwise_cons.mp hafter).1 _ hmem).le
    · have hskip : (b :: post).filter (fun x => !x.free) = post.filter (fun x => !x.free) := by
        simp [hfree]
      show ((pre ++ cut size b ++ post).filter (fun x => !x.free)).Perm _
      rw [hblocks, List.filter_append, List.filter_append, List.filter_append, used_cut hfit,
        hskip, List.append_assoc, List.singleton_append]
      exact List.perm_middle

end FirstFitAllocator

/-- **First fit finds room whenever there is some.**  After any allocations and releases,
a request fails exactly if no `size` consecutive bytes are free, and then the blocks stay
as they are.  Otherwise it takes the lowest maximal run of free bytes that is long enough,
and the other live blocks stay as they are. -/
theorem firstFit_finds_room (total : ℕ) (hpos : 1 ≤ total) (ops : List FirstFitOp)
    (hlegal : firstFitMachine.Legal { alloc := .create total } ops) (size : ℕ)
    (hsize : 1 ≤ size) :
    ∃ s, firstFitMachine.run { alloc := .create total } ops = some s ∧
      ((s.alloc.allocate size).1 = 0 ↔
        ¬ ∃ o, Set.Ico o (o + size) ⊆ freeBytes total s.live) ∧
      ((s.alloc.allocate size).1 = 0 → (s.alloc.allocate size).2.blocks = s.alloc.blocks) ∧
      ((s.alloc.allocate size).1 ≠ 0 → ∃ o, (s.alloc.allocate size).1 = o + 1 ∧
        IsLeast { o | ∃ n, size ≤ n ∧ MaximalRun (freeBytes total s.live) o n } o ∧
        ((s.alloc.allocate size).2.blocks.filter (fun b => !b.free)).Perm
          (⟨o, size, false⟩ :: s.alloc.blocks.filter (fun b => !b.free))) := by
  obtain ⟨s, hrun, hinv⟩ := FirstFitAllocator.inv_of_legal hpos hlegal
  refine ⟨s, hrun, ?_⟩
  rcases hinv.allocate_lowest hsize with ⟨heq, hnone⟩ | ⟨o, a', heq, hleast, hused⟩
  · rw [heq]
    exact ⟨iff_of_true rfl (not_exists.mpr hnone), fun _ => rfl, fun hne => absurd rfl hne⟩
  · rw [heq]
    obtain ⟨n, hn, hmax⟩ := hleast.1
    have hroom : Set.Ico o (o + size) ⊆ freeBytes total s.live :=
      (Set.Ico_subset_Ico_right (by omega)).trans hmax.subset
    exact ⟨iff_of_false (Nat.succ_ne_zero o) (not_not.mpr ⟨o, hroom⟩),
      fun hzero => absurd hzero (Nat.succ_ne_zero o), fun _ => ⟨o, rfl, hleast, hused⟩⟩

/-- Two free blocks of 20 and 50 bytes: 30 bytes are taken from the second. -/
theorem twoHoles_finds_room :
    (firstFitMachine.run { alloc := .create 100 }
        [.allocate 10, .allocate 20, .allocate 20, .free 11]).map
          (fun s => (s.alloc.blocks, (s.alloc.allocate 30).1, (s.alloc.allocate 60).1))
      = some ([⟨0, 10, false⟩, ⟨10, 20, true⟩, ⟨30, 20, false⟩, ⟨50, 50, true⟩], 51, 0) ∧
    ∃ s, firstFitMachine.run { alloc := .create 100 }
        [.allocate 10, .allocate 20, .allocate 20, .free 11] = some s ∧
      ((s.alloc.allocate 30).1 = 0 ↔ ¬ ∃ o, Set.Ico o (o + 30) ⊆ freeBytes 100 s.live) ∧
      ((s.alloc.allocate 30).1 = 0 → (s.alloc.allocate 30).2.blocks = s.alloc.blocks) ∧
      ((s.alloc.allocate 30).1 ≠ 0 → ∃ o, (s.alloc.allocate 30).1 = o + 1 ∧
        IsLeast { o | ∃ n, 30 ≤ n ∧ MaximalRun (freeBytes 100 s.live) o n } o ∧
        ((s.alloc.allocate 30).2.blocks.filter (fun b => !b.free)).Perm
          (⟨o, 30, false⟩ :: s.alloc.blocks.filter (fun b => !b.free))) :=
  ⟨by decide, firstFit_finds_room 100 (by decide)
    [.allocate 10, .allocate 20, .allocate 20, .free 11] (by decide) 30 (by decide)⟩

end Memlab
