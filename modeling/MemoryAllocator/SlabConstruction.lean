/-
# The constructor of a slab

The constructor of `Slab` writes its slots twice: the first loop threads them on the free
list, the second constructs an object in each of them.  The link of a slot is its first
word, so what becomes of the list depends on what `T()` writes there.

* `constructSlots_loadPtr` : the word that a slot is left with is what `T()` leaves of the
  link;
* `slab_freelist_intact_iff` : if `T()` keeps every link, the free list visits every slot;
  for a `T()` that writes fixed bytes this is the only case, and it keeps the links that
  have these bytes.

The converse is a matter of counting: a `T()` that writes a byte other than zero into the
word leaves no null pointer, and one that writes zeros only can but shrink a link, which
`Chain.next_eq_of_le` excludes.
-/
import MemoryAllocator.SlabHeap

namespace Memory

/-! ## The constructor, for any slot size -/

/-- The loop that constructs the objects of a slab with slots of the given size. -/
def constructSlots (T : ElementType) (slotSize base count : ℕ) (mem : Mem) : Mem :=
  (List.range count).foldl
    (fun mem i => T.construct (Word64.add base (Word64.mul i slotSize)) mem) mem

/-- `Slab(count, slotSize)`. -/
def Slab.createSized (T : ElementType) (allocateVirtualMemory : ℕ → ℕ) (count slotSize : ℕ)
    (mem : Mem) : Except String (Slab × Mem) :=
  (VirtualMemory.create allocateVirtualMemory (Word64.mul count slotSize)).map (fun storage =>
    (⟨storage, storage.ptr, count, count⟩,
      constructSlots T slotSize storage.ptr count
        (linkSlots slotSize (Word64.sub count 1) storage.ptr mem)))

/-- The slabs of a cache have the slot size of the cache. -/
theorem Slab.create_eq_createSized (T : ElementType) (allocateVirtualMemory : ℕ → ℕ) (count : ℕ)
    (mem : Mem) :
    Slab.create T allocateVirtualMemory count mem
      = Slab.createSized T allocateVirtualMemory count T.slotSize mem := rfl

/-- Following `next` from `freeList` visits each slot once and ends in `nullptr`, and
`freeSlots` is the number of slots visited. -/
def Slab.Intact (slab : Slab) (slotSize : ℕ) (mem : Mem) : Prop :=
  ∃ l, Chain mem.loadPtr 0 slab.freeList l ∧
    l.Perm (slots slab.storage.ptr slotSize slab.totalSlots) ∧ slab.freeSlots = l.length

/-- The link that the first loop stores in the slot of a given index. -/
def nextSlot (slotSize base count i : ℕ) : ℕ :=
  if i + 1 < count then base + (i + 1) * slotSize else 0

namespace ElementType

variable (T : ElementType)

/-- `T()` in a slot whose first word is `v` leaves `v` there. -/
def KeepsLink (p v : ℕ) : Prop := ∀ m : Mem, m.loadPtr p = v → (T.construct p m).loadPtr p = v

/-- `T()` writes the bytes of `w` and leaves the other bytes of its object as they are. -/
def Writes (w : ℕ → Option UInt8) : Prop :=
  ∀ p m x, T.construct p m x
    = if p ≤ x ∧ x < p + T.sizeofT then (w (x - p)).getD (m x) else m x

end ElementType

section Construction

variable {T : ElementType} {slotSize base count : ℕ} {m : Mem}

/-! ## The second loop -/

/-- One more object. -/
theorem constructSlots_succ (hend : base + count * slotSize < 2 ^ 64) (m : Mem) :
    constructSlots T slotSize base (count + 1) m
      = T.construct (base + count * slotSize) (constructSlots T slotSize base count m) := by
  have haddr : Word64.add base (Word64.mul count slotSize) = base + count * slotSize := by
    rw [Word64.mul_of_lt (by omega), Word64.add_of_lt (by omega)]
  rw [constructSlots, List.range_succ, List.foldl_append, List.foldl_cons, List.foldl_nil, haddr]
  rfl

/-- An object leaves the first words of the other slots alone. -/
theorem ElementType.loadPtr_construct_of_ne (h8 : 8 ≤ slotSize) (hT : T.sizeofT ≤ slotSize)
    {i j : ℕ} (hij : i ≠ j) (m : Mem) :
    (T.construct (base + j * slotSize) m).loadPtr (base + i * slotSize)
      = m.loadPtr (base + i * slotSize) := by
  apply Mem.loadPtr_congr
  intro x hx hx'
  apply T.frame
  rcases Nat.lt_or_gt_of_ne hij with hlt | hlt
  · have hle : (i + 1) * slotSize ≤ j * slotSize := Nat.mul_le_mul_right _ hlt
    rw [Nat.succ_mul] at hle
    omega
  · have hle : (j + 1) * slotSize ≤ i * slotSize := Nat.mul_le_mul_right _ hlt
    rw [Nat.succ_mul] at hle
    omega

/-- Objects in the slots in front do not touch the link of a slot. -/
theorem constructSlots_loadPtr_of_le (h8 : 8 ≤ slotSize) (hT : T.sizeofT ≤ slotSize) {n i : ℕ}
    (hi : n ≤ i) (hend : base + i * slotSize < 2 ^ 64) (m : Mem) :
    (constructSlots T slotSize base n m).loadPtr (base + i * slotSize)
      = m.loadPtr (base + i * slotSize) := by
  induction n with
  | zero => rfl
  | succ n ih =>
    have hle : n * slotSize ≤ i * slotSize := Nat.mul_le_mul_right _ (by omega)
    rw [constructSlots_succ (by omega), ElementType.loadPtr_construct_of_ne h8 hT (by omega)]
    exact ih (by omega)

/-- **The word that a slot is left with** is what `T()` makes of its link: the memory in
front of the construction has the link of the slot unchanged. -/
theorem constructSlots_loadPtr (h8 : 8 ≤ slotSize) (hT : T.sizeofT ≤ slotSize) {i : ℕ}
    (hi : i < count) (hend : base + count * slotSize < 2 ^ 64) (m : Mem) :
    ∃ m' : Mem, m'.loadPtr (base + i * slotSize) = m.loadPtr (base + i * slotSize) ∧
      (constructSlots T slotSize base count m).loadPtr (base + i * slotSize)
        = (T.construct (base + i * slotSize) m').loadPtr (base + i * slotSize) := by
  induction count with
  | zero => omega
  | succ n ih =>
    rw [Nat.succ_mul] at hend
    rw [constructSlots_succ (by omega)]
    rcases Nat.lt_succ_iff_lt_or_eq.mp hi with hlt | rfl
    · rw [ElementType.loadPtr_construct_of_ne h8 hT (by omega)]
      exact ih hlt (by omega)
    · exact ⟨_, constructSlots_loadPtr_of_le h8 hT le_rfl (by omega) m, rfl⟩

/-! ## The links of the first loop -/

/-- A chain through the slots in the order of their addresses determines the links. -/
theorem loadPtr_of_chain_slots {next : ℕ → ℕ} (h : Chain next 0 base (slots base slotSize count))
    {i : ℕ} (hi : i < count) : next (base + i * slotSize) = nextSlot slotSize base count i := by
  induction count generalizing base i with
  | zero => omega
  | succ n ih =>
    rw [slots_succ] at h
    obtain ⟨-, -, htail⟩ := h
    cases i with
    | zero =>
      rw [zero_mul, add_zero, nextSlot]
      cases n with
      | zero => exact htail
      | succ n =>
        rw [slots_succ] at htail
        rw [if_pos (by omega), zero_add, one_mul]
        exact htail.1
    | succ i =>
      have hpos : n ≠ 0 := by omega
      obtain ⟨n, rfl⟩ := Nat.exists_eq_succ_of_ne_zero hpos
      have hhead : next base = base + slotSize := by
        rw [slots_succ] at htail
        exact htail.1
      rw [hhead] at htail
      have hstep := ih htail (i := i) (by omega)
      rw [show base + (i + 1) * slotSize = base + slotSize + i * slotSize by ring, hstep, nextSlot,
        nextSlot]
      by_cases hlast : i + 1 < n + 1
      · rw [if_pos hlast, if_pos (by omega)]
        ring
      · rw [if_neg hlast, if_neg (by omega)]

/-- What the first loop leaves: the slots on a chain, each with its link. -/
theorem linkSlots_chain (hcount : 1 ≤ count) (h8 : 8 ≤ slotSize) (hpos : 0 < base)
    (hend : base + count * slotSize ≤ 2 ^ 64) (m : Mem) :
    Chain (linkSlots slotSize (count - 1) base m).loadPtr 0 base (slots base slotSize count) := by
  have hsucc : count - 1 + 1 = count := by omega
  have hchain := chain_linkSlots (count - 1) m h8 hpos (by rwa [hsucc])
  rwa [hsucc] at hchain

/-! ## Constructors that write fixed bytes -/

namespace ElementType.Writes

variable {w : ℕ → Option UInt8} (hw : T.Writes w)

include hw

/-- What is left of the first word depends on that word only. -/
theorem loadPtr_congr {p : ℕ} {m m' : Mem} (h : m.loadPtr p = m'.loadPtr p) :
    (T.construct p m).loadPtr p = (T.construct p m').loadPtr p := by
  apply Mem.loadPtr_congr
  intro x hx hx'
  rw [hw, hw, Mem.eq_of_loadPtr_eq h hx hx']

/-- A byte other than zero in the first word leaves no null pointer. -/
theorem loadPtr_ne_zero {j : ℕ} {v : UInt8} (hj : j < 8) (hin : j < T.sizeofT)
    (hv : w j = some v) (hne : v ≠ 0) (p : ℕ) (m : Mem) : (T.construct p m).loadPtr p ≠ 0 := by
  intro hnull
  have hbyte := Mem.eq_zero_of_loadPtr_eq_zero hnull (b := p + j) (by omega) (by omega)
  rw [hw, if_pos (by omega), Nat.add_sub_cancel_left, hv] at hbyte
  exact hne hbyte

/-- Zeros in the first word can but shrink it. -/
theorem loadPtr_le (hzero : ∀ j < 8, j < T.sizeofT → ∀ v, w j = some v → v = 0) (p : ℕ) (m : Mem) :
    (T.construct p m).loadPtr p ≤ m.loadPtr p := by
  apply Mem.loadPtr_mono
  intro x hx hx'
  rw [hw]
  split_ifs with hin
  · cases hv : w (x - p) with
    | none => exact le_rfl
    | some v =>
      rw [hzero (x - p) (by omega) (by omega) v hv]
      exact Nat.zero_le _
  · exact le_rfl

/-- **The links that fixed bytes keep** are those that have these bytes. -/
theorem keepsLink_iff {p v : ℕ} (hv : v < 2 ^ 64) :
    T.KeepsLink p v ↔
      ∀ j < 8, j < T.sizeofT → ∀ c, w j = some c → c = UInt8.ofNat (v / 256 ^ j) := by
  have hstored : ∀ j < 8, Mem.storePtr (fun _ => 0) p v (p + j) = UInt8.ofNat (v / 256 ^ j) := by
    intro j hj
    rw [Mem.storePtr, Mem.storeBytes, if_pos (by omega), Nat.add_sub_cancel_left]
  have hload := Mem.loadPtr_storePtr (fun _ => 0) p hv
  constructor
  · intro hkeeps j hj hin c hc
    have hword := hkeeps _ hload
    have hbyte := Mem.eq_of_loadPtr_eq (hword.trans hload.symm) (b := p + j) (by omega) (by omega)
    rw [hw, if_pos (by omega), Nat.add_sub_cancel_left, hc, hstored j hj] at hbyte
    exact hbyte
  · intro hbytes m' hm'
    rw [← hm']
    apply Mem.loadPtr_congr
    intro x hx hx'
    rw [hw]
    split_ifs with hin
    · cases hc : w (x - p) with
      | none => rfl
      | some c =>
        have hbyte := Mem.eq_of_loadPtr_eq (hm'.trans hload.symm) hx hx'
        have hoffset := hstored (x - p) (by omega)
        rw [Nat.add_sub_cancel' hx] at hoffset
        rw [Option.getD_some, hbyte, hoffset]
        exact hbytes (x - p) (by omega) (by omega) c hc
    · rfl

end ElementType.Writes

/-! ## The free list after the construction -/

/-- **Links that are kept** thread all slots. -/
theorem chain_of_keepsLink (hcount : 1 ≤ count) (h8 : 8 ≤ slotSize) (hT : T.sizeofT ≤ slotSize)
    (hpos : 0 < base) (hend : base + count * slotSize < 2 ^ 64) (m : Mem)
    (hkeeps : ∀ i < count, T.KeepsLink (base + i * slotSize) (nextSlot slotSize base count i)) :
    Chain (constructSlots T slotSize base count (linkSlots slotSize (count - 1) base m)).loadPtr 0
      base (slots base slotSize count) := by
  have hchain := linkSlots_chain hcount h8 hpos hend.le m
  refine hchain.congr (fun p hp => ?_)
  obtain ⟨i, hi, rfl⟩ := mem_slots.mp hp
  obtain ⟨m', hlink, hword⟩ := constructSlots_loadPtr h8 hT hi hend
    (linkSlots slotSize (count - 1) base m)
  rw [loadPtr_of_chain_slots hchain hi] at hlink ⊢
  rw [hword, hkeeps i hi m' hlink]

/-- **A free list through all slots** has every link kept, when `T()` writes fixed bytes. -/
theorem keepsLink_of_chain {w : ℕ → Option UInt8} (hw : T.Writes w) (hcount : 1 ≤ count)
    (h8 : 8 ≤ slotSize) (hT : T.sizeofT ≤ slotSize) (hpos : 0 < base)
    (hend : base + count * slotSize < 2 ^ 64) (m : Mem) {l : List ℕ}
    (hl : Chain (constructSlots T slotSize base count
      (linkSlots slotSize (count - 1) base m)).loadPtr 0 base l)
    (hperm : l.Perm (slots base slotSize count)) {i : ℕ} (hi : i < count) :
    T.KeepsLink (base + i * slotSize) (nextSlot slotSize base count i) := by
  have hchain := linkSlots_chain hcount h8 hpos hend.le m
  set linked := linkSlots slotSize (count - 1) base m with hlinked
  -- the word of every slot comes from its link
  have hwords : ∀ p ∈ slots base slotSize count,
      (constructSlots T slotSize base count linked).loadPtr p
        = (T.construct p linked).loadPtr p := by
    intro p hp
    obtain ⟨j, hj, rfl⟩ := mem_slots.mp hp
    obtain ⟨m', hlink, hword⟩ := constructSlots_loadPtr h8 hT hj hend linked
    rw [hword, hw.loadPtr_congr hlink]
  have hkept : ∀ p ∈ slots base slotSize count,
      (constructSlots T slotSize base count linked).loadPtr p = linked.loadPtr p := by
    by_cases hbyte : ∃ j v, j < 8 ∧ j < T.sizeofT ∧ w j = some v ∧ v ≠ 0
    · -- no slot is the last one
      exfalso
      obtain ⟨j, v, hj, hin, hv, hne⟩ := hbyte
      have hlen : l.length = count := by rw [hperm.length_eq, length_slots]
      have hnil : l ≠ [] := by
        rintro rfl
        rw [List.length_nil] at hlen
        omega
      obtain ⟨a, ha, hnull⟩ := hl.exists_next_eq_null hnil
      rw [hwords a (hperm.mem_iff.mp ha)] at hnull
      exact hw.loadPtr_ne_zero hj hin hv hne a linked hnull
    · -- no link has grown
      refine hchain.next_eq_of_le hl hperm (fun p hp => ?_)
      rw [hwords p hp]
      refine hw.loadPtr_le (fun j hj hin v hv => ?_) p linked
      by_contra hne
      exact hbyte ⟨j, v, hj, hin, hv, hne⟩
  have hp : base + i * slotSize ∈ slots base slotSize count := mem_slots.mpr ⟨i, hi, rfl⟩
  have hlink := loadPtr_of_chain_slots hchain hi
  intro m' hm'
  calc (T.construct (base + i * slotSize) m').loadPtr (base + i * slotSize)
      = (T.construct (base + i * slotSize) linked).loadPtr (base + i * slotSize) :=
        hw.loadPtr_congr (hm'.trans hlink.symm)
    _ = linked.loadPtr (base + i * slotSize) := (hwords _ hp).symm.trans (hkept _ hp)
    _ = nextSlot slotSize base count i := hlink

/-- The constructor returns. -/
theorem Slab.createSized_eq (T : ElementType) (hcount : 1 ≤ count) (hpos : 0 < base)
    (hend : base + count * slotSize < 2 ^ 64) (m : Mem) :
    Slab.createSized T (fun _ => base) count slotSize m
      = .ok (⟨⟨base, alignUp (count * slotSize) 4096⟩, base, count, count⟩,
          constructSlots T slotSize base count (linkSlots slotSize (count - 1) base m)) := by
  have hmul : Word64.mul count slotSize = count * slotSize := Word64.mul_of_lt (by omega)
  have hpred : Word64.sub count 1 = count - 1 := Word64.sub_of_le hcount
  rw [Slab.createSized, VirtualMemory.create, hmul, if_neg hpos.ne', hpred]
  rfl

/-- The links are addresses. -/
theorem nextSlot_lt (hend : base + count * slotSize < 2 ^ 64) (i : ℕ) :
    nextSlot slotSize base count i < 2 ^ 64 := by
  rw [nextSlot]
  split_ifs with hi
  · have hle : (i + 1) * slotSize ≤ count * slotSize := Nat.mul_le_mul_right _ hi.le
    omega
  · norm_num

/-- **When the free list survives the construction.**  For slots with room for a `T` and a
mapping in which they all fit without wrap-around, `Slab(count, slotSize)` returns.  If `T()`
keeps in every slot the link that the first loop stored there, the free list visits each of
the slots once and ends in `nullptr`.  If `T()` writes fixed bytes, it does so exactly when
those among the first eight are the bytes of every link. -/
theorem slab_freelist_intact_iff (T : ElementType) {count slotSize base : ℕ} (hcount : 1 ≤ count)
    (h8 : 8 ≤ slotSize) (hT : T.sizeofT ≤ slotSize) (hpos : 0 < base)
    (hend : base + count * slotSize < 2 ^ 64) (mem : Mem) :
    ∃ slab mem', Slab.createSized T (fun _ => base) count slotSize mem = .ok (slab, mem') ∧
      slab.storage.ptr = base ∧ slab.totalSlots = count ∧
      ((∀ i < count, T.KeepsLink (base + i * slotSize) (nextSlot slotSize base count i)) →
        slab.Intact slotSize mem') ∧
      (∀ w, T.Writes w → (slab.Intact slotSize mem' ↔
        ∀ i < count, ∀ j < 8, j < T.sizeofT → ∀ c, w j = some c →
          c = UInt8.ofNat (nextSlot slotSize base count i / 256 ^ j))) := by
  have hsuff : (∀ i < count, T.KeepsLink (base + i * slotSize) (nextSlot slotSize base count i)) →
      Slab.Intact ⟨⟨base, alignUp (count * slotSize) 4096⟩, base, count, count⟩ slotSize
        (constructSlots T slotSize base count (linkSlots slotSize (count - 1) base mem)) := by
    intro hkeeps
    have hchain := chain_of_keepsLink hcount h8 hT hpos hend mem hkeeps
    exact ⟨_, hchain, List.Perm.refl _, length_slots.symm⟩
  refine ⟨_, _, Slab.createSized_eq T hcount hpos hend mem, rfl, rfl, hsuff, fun w hw => ⟨?_, ?_⟩⟩
  · rintro ⟨l, hl, hperm, -⟩ i hi
    have hkeeps := keepsLink_of_chain hw hcount h8 hT hpos hend mem hl hperm hi
    exact (hw.keepsLink_iff (nextSlot_lt hend i)).mp hkeeps
  · intro hbytes
    exact hsuff (fun i hi => (hw.keepsLink_iff (nextSlot_lt hend i)).mpr (hbytes i hi))

end Construction

/-- The `Widget` of the unit test: its constructor counts, and writes nothing into its slot. -/
def widget : ElementType where
  sizeofT := 1
  alignBits := 0
  construct := fun _ m => m
  sizeof_lt := by norm_num
  align_lt := by norm_num
  frame := fun _ _ _ _ => rfl

/-- The five slots of a slab of widgets are on its free list. -/
theorem widget_freelist_intact :
    ∃ slab mem', Slab.createSized widget (fun _ => 4096) 5 8 (fun _ => 0) = .ok (slab, mem') ∧
      slab.Intact 8 mem' := by
  obtain ⟨slab, mem', hcreate, -, -, hsuff, -⟩ := @slab_freelist_intact_iff widget 5 8 4096
    (by norm_num) le_rfl (by decide) (by norm_num) (by norm_num) (fun _ => 0)
  exact ⟨slab, mem', hcreate, hsuff (fun _ _ _ h => h)⟩

/-- `int`: `int()` is zero. -/
def int : ElementType where
  sizeofT := 4
  alignBits := 2
  construct := fun p m x => if p ≤ x ∧ x < p + 4 then 0 else m x
  sizeof_lt := by norm_num
  align_lt := by norm_num
  frame := fun p m x hx => if_neg (by omega)

/-- **A slab of ten integers**, as in the unit test, is mapped above the first four
gigabytes: the low half of every link is zeroed, and the free list leaves the slab. -/
theorem int_freelist_not_intact :
    ¬ ∀ (T : ElementType) (count slotSize base : ℕ) (mem : Mem), 1 ≤ count → 8 ≤ slotSize →
      T.sizeofT ≤ slotSize → 0 < base → base + count * slotSize < 2 ^ 64 →
      ∀ slab mem', Slab.createSized T (fun _ => base) count slotSize mem = .ok (slab, mem') →
        slab.Intact slotSize mem' := by
  intro hall
  obtain ⟨l, hl, hperm, -⟩ := hall int 10 8 0x7f0000001000 (fun _ => 0) (by norm_num) le_rfl
    (by decide) (by norm_num) (by norm_num) _ _
    (Slab.createSized_eq int (by norm_num) (by norm_num) (by norm_num) (fun _ => 0))
  have hfirst : (constructSlots int 8 0x7f0000001000 10
      (linkSlots 8 (10 - 1) 0x7f0000001000 (fun _ => 0))).loadPtr 0x7f0000001000
        = 0x7f0000000000 := by decide +kernel
  obtain ⟨rest, rfl, hrest⟩ := hl.exists_cons (by norm_num)
  rw [hfirst] at hrest
  obtain ⟨rest, rfl, -⟩ := hrest.exists_cons (by norm_num)
  -- the second node is no slot
  have hmem := hperm.mem_iff.mp (List.mem_cons_of_mem _ (List.mem_cons_self ..))
  revert hmem
  decide

end Memory
