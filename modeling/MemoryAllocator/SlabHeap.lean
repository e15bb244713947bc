/-
# The slabs of the caches

What the slabs look like in memory, relative to a map `place` that says where every slot
is.  A slab tracks the map if its free list visits exactly the free ones among its slots
and `freeSlots` is its length (`Slab.Tracks`).  `HeapInv` adds that all slabs of all
caches lie apart.

The three things that happen to slabs are `HeapInv.pop` (a slot leaves the first slab
that has one), `HeapInv.slowFree` (a slot returns to its slab) and `HeapInv.grow` (a new
slab is mapped, threaded and constructed).
-/
import MemoryAllocator.SlabCache

namespace Memory

/-- Where a slot is; `lost` if no thread and no list holds it any more. -/
inductive Place (ι : Type) where
  | outside
  | free
  | live (c : ι)
  | magazine (t : ℕ) (c : ι)
  | lost

/-! ## One slab -/

namespace Slab

/-- The mappings of two slabs do not overlap. -/
def Apart (a b : Slab) : Prop :=
  a.storage.ptr + a.storage.size ≤ b.storage.ptr ∨ b.storage.ptr + b.storage.size ≤ a.storage.ptr

theorem Apart.symm {a b : Slab} (h : a.Apart b) : b.Apart a := Or.symm h

instance : Std.Symm Apart := ⟨fun _ _ => Apart.symm⟩

variable {ι : Type} {T : ElementType} {m m' : Mem} {place place' : ℕ → Place ι} {slab slab' : Slab}
  {p q : ℕ}

/-- The addresses of the slots of a slab. -/
def slotList (slab : Slab) (T : ElementType) : List ℕ :=
  slots slab.storage.ptr T.slotSize slab.totalSlots

theorem slotList_congr (hstorage : slab'.storage = slab.storage)
    (htotal : slab'.totalSlots = slab.totalSlots) : slab'.slotList T = slab.slotList T := by
  rw [slotList, hstorage, htotal, slotList]

/-- The slots of a slab lie inside its mapping, below the end of the address space. -/
structure Fits (slab : Slab) (T : ElementType) : Prop where
  pos : 0 < slab.storage.ptr
  covers : slab.totalSlots * T.slotSize ≤ slab.storage.size
  below : slab.storage.ptr + slab.storage.size < 2 ^ 64

/-- The free list of a slab visits exactly its free slots. -/
def Tracks (slab : Slab) (T : ElementType) (m : Mem) (place : ℕ → Place ι) : Prop :=
  ∃ l, Chain m.loadPtr 0 slab.freeList l ∧ slab.freeSlots = l.length ∧
    ∀ p, p ∈ l ↔ place p = .free ∧ p ∈ slab.slotList T

theorem Fits.inside (h : slab.Fits T) (hp : p ∈ slab.slotList T) :
    slab.storage.ptr ≤ p ∧ p + T.slotSize ≤ slab.storage.ptr + slab.storage.size := by
  have hin := slot_inside hp
  have hcov := h.covers
  omega

theorem Fits.contains_iff (h : slab.Fits T) :
    slab.contains p ↔ slab.storage.ptr ≤ p ∧ p < slab.storage.ptr + slab.storage.size := by
  rw [contains, Word64.add_of_lt h.below]
  simp

theorem Fits.contains (h : slab.Fits T) (hp : p ∈ slab.slotList T) : slab.contains p := by
  have hin := h.inside hp
  have hge := T.eight_le_slotSize
  exact h.contains_iff.mpr (by omega)

/-- A slab does not contain the slots of a slab apart from it. -/
theorem Fits.not_contains (h : slab.Fits T) (h' : slab'.Fits T)
    (hapart : slab.Apart slab') (hp : p ∈ slab'.slotList T) :
    ¬ slab.contains p := by
  have hin := h'.inside hp
  have hge := T.eight_le_slotSize
  rw [h.contains_iff]
  rcases hapart with hapart | hapart <;> omega

/-- Slots of two slabs that lie apart do not overlap. -/
theorem Fits.apart (h : slab.Fits T) (h' : slab'.Fits T)
    (hapart : slab.Apart slab') (hp : p ∈ slab.slotList T)
    (hq : q ∈ slab'.slotList T) : p + T.slotSize ≤ q ∨ q + T.slotSize ≤ p := by
  have hin := h.inside hp
  have hin' := h'.inside hq
  rcases hapart with hapart | hapart <;> omega

theorem Fits.totalSlots_lt (h : slab.Fits T) : slab.totalSlots < 2 ^ 64 := by
  have hle : slab.totalSlots ≤ slab.totalSlots * T.slotSize :=
    Nat.le_mul_of_pos_right _ (by have := T.eight_le_slotSize; omega)
  have hcov := h.covers
  have hbelow := h.below
  omega

/-- Only the free slots of the slab itself matter. -/
theorem Tracks.congr (h : slab.Tracks T m place)
    (hplace : ∀ p ∈ slab.slotList T, place' p = .free ↔ place p = .free)
    (hmem : ∀ p ∈ slab.slotList T, place p = .free → ∀ x, p ≤ x → x < p + 8 → m' x = m x) :
    slab.Tracks T m' place' := by
  obtain ⟨l, hchain, hlen, hl⟩ := h
  refine ⟨l, hchain.mem_congr (fun p hp => ?_), hlen, fun p => ?_⟩
  · obtain ⟨hfree, hslot⟩ := (hl p).mp hp
    exact hmem p hslot hfree
  · rw [hl]
    exact ⟨fun hp => ⟨(hplace p hp.2).mpr hp.1, hp.2⟩, fun hp => ⟨(hplace p hp.2).mp hp.1, hp.2⟩⟩

/-- `AllocateFromSlab` on a slab with a free slot. -/
theorem Tracks.allocateFromSlab (h : slab.Tracks T m place) (hpos : slab.freeSlots ≠ 0) :
    ∃ p slab', slab.allocateFromSlab m = some (p, slab') ∧ place p = .free ∧
      p ∈ slab.slotList T ∧ slab'.storage = slab.storage ∧ slab'.totalSlots = slab.totalSlots ∧
      ∀ x, x ≠ .free → slab'.Tracks T m (Function.update place p x) := by
  obtain ⟨l, hchain, hlen, hl⟩ := h
  cases l with
  | nil => exact absurd hlen hpos
  | cons p l =>
    obtain ⟨hhead, hne, htail⟩ := hchain
    have hnodup := List.nodup_cons.mp (Chain.nodup ⟨hhead, hne, htail⟩ : (p :: l).Nodup)
    obtain ⟨hfree, hslot⟩ := (hl p).mp (List.mem_cons_self ..)
    have hlen' : Word64.sub slab.freeSlots 1 = l.length := by
      rw [hlen, List.length_cons, Word64.sub_of_le (by omega)]
      rfl
    refine ⟨p, { slab with freeList := m.loadPtr p, freeSlots := l.length }, ?_, hfree, hslot, rfl,
      rfl, fun x hx => ⟨l, htail, rfl, fun q => ?_⟩⟩
    · rw [Slab.allocateFromSlab, hhead, if_neg hne, hlen']
    · have hlist : Slab.slotList { slab with freeList := m.loadPtr p, freeSlots := l.length } T
          = slab.slotList T := slotList_congr rfl rfl
      rw [hlist]
      by_cases hq : q = p
      · subst hq
        simp [hnodup.1, hx]
      · rw [Function.update_of_ne hq]
        have hmem := hl q
        rw [List.mem_cons, or_iff_right hq] at hmem
        exact hmem

/-- Pushing a slot of the slab that is not free. -/
theorem Tracks.push (h : slab.Tracks T m place) (hfits : slab.Fits T) (hp : p ∈ slab.slotList T)
    (hfree : place p ≠ .free) :
    Slab.Tracks { slab with freeList := p, freeSlots := Word64.add slab.freeSlots 1 } T
      (m.storePtr p slab.freeList) (Function.update place p .free) := by
  obtain ⟨l, hchain, hlen, hl⟩ := h
  have hge := T.eight_le_slotSize
  have hbelow := hfits.below
  have hnot : p ∉ l := fun hmem => hfree ((hl p).mp hmem).1
  have hword : ∀ q ∈ slab.slotList T, q < 2 ^ 64 ∧ q ≠ 0 := by
    intro q hq
    have hin := hfits.inside hq
    have hpos := hfits.pos
    omega
  -- the counter does not wrap: the list has at most as many nodes as the slab has slots
  have hle : (p :: l).length ≤ slab.totalSlots := by
    have hsub : (p :: l) ⊆ slab.slotList T := by
      intro q hq
      rcases List.mem_cons.mp hq with rfl | hq
      · exact hp
      · exact ((hl q).mp hq).2
    have hlength := (List.subperm_of_subset (List.nodup_cons.mpr ⟨hnot, hchain.nodup⟩) hsub).length_le
    rwa [slotList, length_slots] at hlength
  have hadd : Word64.add slab.freeSlots 1 = (p :: l).length := by
    have := hfits.totalSlots_lt
    rw [hlen, List.length_cons, Word64.add_of_lt (by rw [List.length_cons] at hle; omega)]
  refine ⟨p :: l, ?_, hadd, fun q => ?_⟩
  · refine hchain.storePtr (hword p hp).2
      (hchain.head_lt (fun q hq => (hword q ((hl q).mp hq).2).1)) (fun q hq => ?_)
    have hne : q ≠ p := fun heq => hnot (heq ▸ hq)
    have := slots_apart ((hl q).mp hq).2 hp hne
    omega
  · by_cases hq : q = p
    · subst hq
      simp only [List.mem_cons_self, Function.update_self, true_and, true_iff]
      exact hp
    · rw [Function.update_of_ne hq, List.mem_cons, or_iff_right hq]
      exact hl q

end Slab

/-! ## New slabs -/

section Create

variable {T : ElementType} {base count : ℕ} {m : Mem}

/-- A constructor that leaves the link alone changes nothing but the rest of its object. -/
theorem ElementType.LeavesLink.construct_eq (hT : T.LeavesLink) {p x : ℕ}
    (hx : x < p + 8 ∨ p + T.sizeofT ≤ x) : T.construct p m x = m x := by
  by_cases hlt : x < p
  · exact T.frame p m x (.inl hlt)
  · rcases hx with hx | hx
    · exact hT p m x (by omega) hx
    · exact T.frame p m x (.inr hx)

/-- The construction loop changes nothing but the objects behind their links. -/
theorem constructObjects_eq (hT : T.LeavesLink) (hend : base + count * T.slotSize < 2 ^ 64) {x : ℕ}
    (hx : ∀ p ∈ slots base T.slotSize count, x < p + 8 ∨ p + T.sizeofT ≤ x) :
    constructObjects T base count m x = m x := by
  have hfold : ∀ (is : List ℕ) (m : Mem), (∀ i ∈ is, i < count) →
      is.foldl (fun mem i => T.construct (Word64.add base (Word64.mul i T.slotSize)) mem) m x
        = m x := by
    intro is
    induction is with
    | nil => exact fun _ _ => rfl
    | cons i is ih =>
      intro m his
      have hi := his i (List.mem_cons_self ..)
      have hle : i * T.slotSize ≤ count * T.slotSize := Nat.mul_le_mul_right _ hi.le
      have haddr : Word64.add base (Word64.mul i T.slotSize) = base + i * T.slotSize := by
        rw [Word64.mul_of_lt (by omega), Word64.add_of_lt (by omega)]
      rw [List.foldl_cons, ih _ (fun j hj => his j (List.mem_cons_of_mem _ hj)), haddr]
      exact hT.construct_eq (hx _ (mem_slots.mpr ⟨i, hi, rfl⟩))
  exact hfold _ m (fun i hi => List.mem_range.mp hi)

/-- **A new slab** is threaded completely, and nothing outside its slots is written. -/
theorem Slab.create_eq (hT : T.LeavesLink) (hcount : 1 ≤ count) (hpos : 0 < base)
    (hend : base + count * T.slotSize + 4096 ≤ 2 ^ 64) :
    ∃ m', Slab.create T (fun _ => base) count m
        = .ok (⟨⟨base, alignUp (count * T.slotSize) 4096⟩, base, count, count⟩, m') ∧
      Chain m'.loadPtr 0 base (slots base T.slotSize count) ∧
      ∀ x, x < base ∨ base + count * T.slotSize ≤ x → m' x = m x := by
  have hge := T.eight_le_slotSize
  have hmul : Word64.mul count T.slotSize = count * T.slotSize := Word64.mul_of_lt (by omega)
  have hpred : Word64.sub count 1 = count - 1 := Word64.sub_of_le hcount
  have hsucc : count - 1 + 1 = count := by omega
  refine ⟨constructObjects T base count (linkSlots T.slotSize (count - 1) base m), ?_, ?_, ?_⟩
  · rw [Slab.create, VirtualMemory.create, hmul, if_neg hpos.ne', hpred]
    rfl
  · -- the objects are constructed behind the links of the fresh list
    have hchain := chain_linkSlots (count - 1) m hge hpos
      (by rw [hsucc]; omega)
    rw [hsucc] at hchain
    refine hchain.mem_congr (fun p hp x hx hx' => constructObjects_eq hT (by omega) ?_)
    intro q hq
    have hle := T.sizeofT_le_slotSize
    by_cases hpq : p = q
    · subst hpq
      exact .inl hx'
    · have := slots_apart hp hq hpq
      omega
  · intro x hx
    rw [constructObjects_eq hT (by omega), linkSlots_of_not_mem hge (by rw [hsucc]; omega)
      (by rw [hsucc]; exact hx)]
    intro p hp
    have hin := slot_inside hp
    have hle := T.sizeofT_le_slotSize
    omega

end Create

/-! ## All slabs -/

section Heap

variable {ι : Type} {T : ElementType} {S : ι → List Slab} {m m' : Mem}
  {place place' : ℕ → Place ι} {c : ι} {p : ℕ}

/-- The cache has a slab with the given slot. -/
def InSlabs (T : ElementType) (S : ι → List Slab) (c : ι) (p : ℕ) : Prop :=
  ∃ slab ∈ S c, p ∈ slab.slotList T

/-- The slabs of all caches lie apart and track the places of their slots. -/
structure HeapInv (T : ElementType) (S : ι → List Slab) (m : Mem) (place : ℕ → Place ι) : Prop where
  fits : ∀ c, ∀ slab ∈ S c, slab.Fits T
  apart : ∀ c, (S c).Pairwise Slab.Apart
  apart_caches : ∀ c c', c ≠ c' → ∀ a ∈ S c, ∀ b ∈ S c', a.Apart b
  tracks : ∀ c, ∀ slab ∈ S c, slab.Tracks T m place
  inside : ∀ p, place p ≠ .outside ↔ ∃ c, InSlabs T S c p

/-- The free lists do not tell the other places apart. -/
theorem HeapInv.relabel (h : HeapInv T S m place) (hfree : ∀ p, place' p = .free ↔ place p = .free)
    (hout : ∀ p, place' p = .outside ↔ place p = .outside) : HeapInv T S m place' where
  fits := h.fits
  apart := h.apart
  apart_caches := h.apart_caches
  tracks := fun c slab hslab => (h.tracks c slab hslab).congr (fun p _ => hfree p)
    (fun _ _ _ _ _ _ => rfl)
  inside := fun p => by rw [ne_eq, hout, ← ne_eq, h.inside]

/-- A slot moves between two places that are neither free nor outside. -/
theorem HeapInv.relabel_slot (h : HeapInv T S m place) {x : Place ι} (hp : place p ≠ .free)
    (hp' : place p ≠ .outside) (hx : x ≠ .free) (hx' : x ≠ .outside) :
    HeapInv T S m (Function.update place p x) := by
  refine h.relabel (fun q => ?_) (fun q => ?_)
  all_goals
    by_cases hq : q = p
    · subst hq
      simp [hp, hp', hx, hx']
    · rw [Function.update_of_ne hq]

/-- A client that writes inside a slot that is not free does not touch the free lists. -/
theorem HeapInv.write (h : HeapInv T S m place) (hp : place p ≠ .outside) (hfree : place p ≠ .free)
    {a : ℕ} (ha : p ≤ a) (ha' : a < p + T.slotSize) (v : UInt8) :
    HeapInv T S (Function.update m a v) place := by
  refine ⟨h.fits, h.apart, h.apart_caches, fun c slab hslab => ?_, h.inside⟩
  obtain ⟨c', home, hhome, hslot⟩ := (h.inside p).mp hp
  refine (h.tracks c slab hslab).congr (fun _ _ => Iff.rfl) (fun q hq hqfree x hx hx' => ?_)
  have hge := T.eight_le_slotSize
  have hne : q ≠ p := by
    rintro rfl
    exact hfree hqfree
  -- two slots of one slab, of two slabs of one cache, or of two caches
  have happ : q + T.slotSize ≤ p ∨ p + T.slotSize ≤ q := by
    by_cases hcc : c = c'
    · subst hcc
      by_cases heq : slab = home
      · subst heq
        exact slots_apart hq hslot hne
      · exact (h.fits c slab hslab).apart (h.fits c home hhome)
          ((h.apart c).forall hslab hhome heq) hq hslot
    · exact (h.fits c slab hslab).apart (h.fits c' home hhome)
        (h.apart_caches c c' hcc slab hslab home hhome) hq hslot
  exact Function.update_of_ne (by omega) _ _

/-- The slots of a slab are not among those of a slab apart from it. -/
theorem Slab.Fits.notMem {a b : Slab} (ha : a.Fits T) (hb : b.Fits T) (hapart : a.Apart b)
    (hp : p ∈ b.slotList T) : p ∉ a.slotList T := by
  intro hp'
  have hge := T.eight_le_slotSize
  have := ha.apart hb hapart hp' hp
  omega

variable [DecidableEq ι]

/-- **Replacing a slab** by one with the same mapping keeps the invariant if the new slab
and those apart from it track the new places. -/
theorem HeapInv.replace (h : HeapInv T S m place) {front back : List Slab} {slab slab' : Slab}
    (hS : S c = front ++ slab :: back) (hstorage : slab'.storage = slab.storage)
    (htotal : slab'.totalSlots = slab.totalSlots) (hslab : slab'.Tracks T m' place')
    (hothers : ∀ a : Slab, a.Fits T → a.Apart slab → a.Tracks T m place →
      a.Tracks T m' place') (hout : ∀ p, place' p = .outside ↔ place p = .outside) :
    HeapInv T (Function.update S c (front ++ slab' :: back)) m' place' ∧
      ∀ c' p, InSlabs T (Function.update S c (front ++ slab' :: back)) c' p ↔ InSlabs T S c' p := by
  have hlist : slab'.slotList T = slab.slotList T := Slab.slotList_congr hstorage htotal
  have hmem : ∀ a, a ∈ S c ↔ a = slab ∨ a ∈ front ++ back := by
    intro a
    rw [hS]
    simp only [List.mem_append, List.mem_cons]
    tauto
  have hmem' : ∀ a, a ∈ front ++ slab' :: back ↔ a = slab' ∨ a ∈ front ++ back := by
    intro a
    simp only [List.mem_append, List.mem_cons]
    tauto
  have hin : ∀ c' p, InSlabs T (Function.update S c (front ++ slab' :: back)) c' p
      ↔ InSlabs T S c' p := by
    intro c' p
    by_cases hc : c' = c
    · subst hc
      simp only [InSlabs, Function.update_self, hmem, hmem', or_and_right, exists_or,
        exists_eq_left, hlist]
    · simp only [InSlabs, Function.update_of_ne hc]
  have hslabfits := h.fits c slab ((hmem slab).mpr (.inl rfl))
  have hpair := h.apart c
  rw [hS] at hpair
  rw [List.pairwise_middle Slab.Apart.symm, List.pairwise_cons] at hpair
  have hrest : ∀ a ∈ front ++ back, a.Apart slab := fun a ha => (hpair.1 a ha).symm
  have hrest' : ∀ a ∈ front ++ back, slab'.Apart a := by
    intro a ha
    rw [Slab.Apart, hstorage]
    exact hpair.1 a ha
  refine ⟨⟨?_, ?_, ?_, ?_, fun p => ?_⟩, hin⟩
  · intro c' a ha
    by_cases hc : c' = c
    · subst hc
      rw [Function.update_self, hmem'] at ha
      rcases ha with rfl | ha
      · exact ⟨hstorage ▸ hslabfits.pos, by rw [hstorage, htotal]; exact hslabfits.covers,
          hstorage ▸ hslabfits.below⟩
      · exact h.fits c' a ((hmem a).mpr (.inr ha))
    · rw [Function.update_of_ne hc] at ha
      exact h.fits c' a ha
  · intro c'
    by_cases hc : c' = c
    · subst hc
      rw [Function.update_self]
      exact (List.pairwise_middle Slab.Apart.symm).mpr (List.pairwise_cons.mpr ⟨hrest', hpair.2⟩)
    · rw [Function.update_of_ne hc]
      exact h.apart c'
  · -- the mapping of a slab of the new list is one of the old list
    have hold : ∀ c' a, a ∈ Function.update S c (front ++ slab' :: back) c' →
        ∃ b ∈ S c', b.storage = a.storage := by
      intro c' a ha
      by_cases hc : c' = c
      · subst hc
        rw [Function.update_self, hmem'] at ha
        rcases ha with rfl | ha
        · exact ⟨slab, (hmem slab).mpr (.inl rfl), hstorage.symm⟩
        · exact ⟨a, (hmem a).mpr (.inr ha), rfl⟩
      · rw [Function.update_of_ne hc] at ha
        exact ⟨a, ha, rfl⟩
    intro c₁ c₂ hne a ha b hb
    obtain ⟨a', ha', heqa⟩ := hold c₁ a ha
    obtain ⟨b', hb', heqb⟩ := hold c₂ b hb
    have happ := h.apart_caches c₁ c₂ hne a' ha' b' hb'
    rwa [Slab.Apart, heqa, heqb] at happ
  · intro c' a ha
    by_cases hc : c' = c
    · subst hc
      rw [Function.update_self, hmem'] at ha
      rcases ha with rfl | ha
      · exact hslab
      · have ha' := (hmem a).mpr (.inr ha)
        exact hothers a (h.fits c' a ha') (hrest a ha) (h.tracks c' a ha')
    · rw [Function.update_of_ne hc] at ha
      exact hothers a (h.fits c' a ha)
        (h.apart_caches c' c hc a ha slab ((hmem slab).mpr (.inl rfl))) (h.tracks c' a ha)
  · simp only [hin]
    rw [ne_eq, hout, ← ne_eq, h.inside]

/-- **Popping** the first free slot of a slab. -/
theorem HeapInv.pop (h : HeapInv T S m place) {front back : List Slab} {slab : Slab}
    (hS : S c = front ++ slab :: back) (hpos : slab.freeSlots ≠ 0) :
    ∃ p slab', slab.allocateFromSlab m = some (p, slab') ∧ place p = .free ∧ InSlabs T S c p ∧
      ∀ x, x ≠ .free → x ≠ .outside →
        HeapInv T (Function.update S c (front ++ slab' :: back)) m (Function.update place p x) ∧
        ∀ c' q, InSlabs T (Function.update S c (front ++ slab' :: back)) c' q ↔ InSlabs T S c' q := by
  have hslab : slab ∈ S c := by simp [hS]
  have hfits := h.fits c slab hslab
  obtain ⟨p, slab', hstep, hfree, hslot, hstorage, htotal, htracks⟩ :=
    (h.tracks c slab hslab).allocateFromSlab hpos
  refine ⟨p, slab', hstep, hfree, ⟨slab, hslab, hslot⟩, fun x hx hx' => ?_⟩
  refine h.replace hS hstorage htotal (htracks x hx) (fun a ha hapart hatracks => ?_) (fun q => ?_)
  · refine hatracks.congr (fun q hq => ?_) (fun _ _ _ _ _ _ => rfl)
    have hne : q ≠ p := by
      rintro rfl
      exact ha.notMem hfits hapart hslot hq
    rw [Function.update_of_ne hne]
  · by_cases hq : q = p
    · subst hq
      simp [hx', hfree]
    · rw [Function.update_of_ne hq]

/-- **The locked section of `Free`** returns a slot of the cache to its slab. -/
theorem HeapInv.slowFree (h : HeapInv T S m place) {cache : SlabCache} (hS : S c = cache.slabs)
    (hp : InSlabs T S c p) (hfree : place p ≠ .free) (hout : place p ≠ .outside) :
    ∃ slabs' m', cache.slowFree p m = ({ cache with slabs := slabs' }, m') ∧
      HeapInv T (Function.update S c slabs') m' (Function.update place p .free) ∧
      ∀ c' q, InSlabs T (Function.update S c slabs') c' q ↔ InSlabs T S c' q := by
  obtain ⟨home, hhome, hslot⟩ := hp
  have hhomefits := h.fits c home hhome
  set notIn := fun slab : Slab => !slab.contains p with hnotIn
  have hsplit : cache.slabs = cache.slabs.takeWhile notIn ++ cache.slabs.dropWhile notIn :=
    List.takeWhile_append_dropWhile.symm
  cases hdrop : cache.slabs.dropWhile notIn with
  | nil =>
    have hall := List.dropWhile_eq_nil_iff.mp hdrop home (hS ▸ hhome)
    simp [hnotIn, hhomefits.contains hslot] at hall
  | cons slab back =>
    rw [hdrop] at hsplit
    have hsplitS : S c = cache.slabs.takeWhile notIn ++ slab :: back := hS.trans hsplit
    have hslab : slab ∈ S c := by simp [hsplitS]
    -- the first slab that contains the slot is its own
    obtain rfl : slab = home := by
      by_contra hne
      have hnot := (h.fits c slab hslab).not_contains hhomefits
        ((h.apart c).forall hslab hhome hne) hslot
      have hhead := List.head?_dropWhile_not notIn cache.slabs
      rw [hdrop] at hhead
      simp [hnotIn, hnot] at hhead
    refine ⟨_, _, by rw [SlabCache.slowFree, hdrop], ?_⟩
    refine h.replace hsplitS rfl rfl ((h.tracks c slab hslab).push hhomefits hslot hfree) ?_ ?_
    · intro a ha hapart hatracks
      refine hatracks.congr (fun q hq => ?_) (fun q hq _ x hx hx' => ?_)
      · have hne : q ≠ p := by
          rintro rfl
          exact ha.notMem hhomefits hapart hslot hq
        rw [Function.update_of_ne hne]
      · have hge := T.eight_le_slotSize
        have happ := ha.apart hhomefits hapart hq hslot
        exact Mem.storeBytes_of_not_mem m (by omega)
    · intro q
      by_cases hq : q = p
      · subst hq
        simp [hout]
      · rw [Function.update_of_ne hq]

/-- **A new slab**: all its slots are free, and the other slabs are as they were. -/
theorem HeapInv.grow (h : HeapInv T S m place) {slab : Slab} (hfits : slab.Fits T)
    (hapart : ∀ c', ∀ a ∈ S c', slab.Apart a)
    (hchain : Chain m'.loadPtr 0 slab.freeList (slab.slotList T))
    (hcount : slab.freeSlots = slab.totalSlots)
    (hmem : ∀ x, x < slab.storage.ptr ∨ slab.storage.ptr + slab.storage.size ≤ x → m' x = m x) :
    HeapInv T (Function.update S c (S c ++ [slab])) m'
        (fun q => if q ∈ slab.slotList T then .free else place q) ∧
      (∀ q ∈ slab.slotList T, place q = .outside) ∧
      ∀ c' q, InSlabs T S c' q → InSlabs T (Function.update S c (S c ++ [slab])) c' q := by
  have hnew : ∀ c', ∀ a ∈ S c', ∀ q ∈ slab.slotList T, q ∉ a.slotList T :=
    fun c' a ha q hq => (h.fits c' a ha).notMem hfits (hapart c' a ha).symm hq
  have houtside : ∀ q ∈ slab.slotList T, place q = .outside := by
    intro q hq
    by_contra hne
    obtain ⟨c', a, ha, hqa⟩ := (h.inside q).mp hne
    exact hnew c' a ha q hq hqa
  have hmemS : ∀ c' a, a ∈ Function.update S c (S c ++ [slab]) c' ↔
      a ∈ S c' ∨ c' = c ∧ a = slab := by
    intro c' a
    by_cases hc : c' = c
    · subst hc
      simp
    · simp [hc]
  have hmono : ∀ c' q, InSlabs T S c' q → InSlabs T (Function.update S c (S c ++ [slab])) c' q := by
    rintro c' q ⟨a, ha, hq⟩
    exact ⟨a, (hmemS c' a).mpr (.inl ha), hq⟩
  refine ⟨⟨?_, ?_, ?_, ?_, fun q => ?_⟩, houtside, hmono⟩
  · intro c' a ha
    rcases (hmemS c' a).mp ha with ha | ⟨-, rfl⟩
    · exact h.fits c' a ha
    · exact hfits
  · intro c'
    by_cases hc : c' = c
    · subst hc
      rw [Function.update_self, List.pairwise_append]
      refine ⟨h.apart c', List.pairwise_singleton _ _, fun a ha b hb => ?_⟩
      rw [List.mem_singleton.mp hb]
      exact (hapart c' a ha).symm
    · rw [Function.update_of_ne hc]
      exact h.apart c'
  · intro c₁ c₂ hne a ha b hb
    rcases (hmemS c₁ a).mp ha with ha' | ⟨hc₁, rfl⟩
    · rcases (hmemS c₂ b).mp hb with hb' | ⟨-, rfl⟩
      · exact h.apart_caches c₁ c₂ hne a ha' b hb'
      · exact (hapart c₁ a ha').symm
    · rcases (hmemS c₂ b).mp hb with hb' | ⟨hc₂, -⟩
      · exact hapart c₂ b hb'
      · exact absurd (hc₁.trans hc₂.symm) hne
  · intro c' a ha
    rcases (hmemS c' a).mp ha with ha | ⟨-, rfl⟩
    · have hafits := h.fits c' a ha
      refine (h.tracks c' a ha).congr (fun q hq => ?_) (fun q hq _ x hx hx' => hmem x ?_)
      · rw [if_neg (fun hmem => hnew c' a ha q hmem hq)]
      · have hge := T.eight_le_slotSize
        have hin := hafits.inside hq
        rcases hapart c' a ha with happ | happ <;> omega
    · refine ⟨a.slotList T, hchain, by rw [hcount, Slab.slotList, length_slots], fun q => ?_⟩
      by_cases hq : q ∈ a.slotList T <;> simp [hq]
  · by_cases hq : q ∈ slab.slotList T
    · simp only [hq, if_true, ne_eq, reduceCtorEq, not_false_eq_true, true_iff]
      exact ⟨c, slab, (hmemS c slab).mpr (.inr ⟨rfl, rfl⟩), hq⟩
    · rw [if_neg hq, h.inside]
      constructor
      · rintro ⟨c', hin⟩
        exact ⟨c', hmono c' q hin⟩
      · rintro ⟨c', a, ha, hqa⟩
        rcases (hmemS c' a).mp ha with ha | ⟨-, rfl⟩
        · exact ⟨c', a, ha, hqa⟩
        · exact absurd hqa hq

/-- **The locked section of `Allocate`** returns a slot that was free, or one of a new
slab, and makes it live. -/
theorem HeapInv.slowAllocate (h : HeapInv T S m place) (hT : T.LeavesLink) {cache : SlabCache}
    (hS : S c = cache.slabs) (hcount : 1 ≤ cache.objectsPerSlab) (base : ℕ)
    (hgrant : cache.openSlabs = [] → 0 < base ∧
      base + cache.objectsPerSlab * T.slotSize + 4096 ≤ 2 ^ 64 ∧ ∀ c', ∀ a ∈ S c',
        base + alignUp (cache.objectsPerSlab * T.slotSize) 4096 ≤ a.storage.ptr ∨
          a.storage.ptr + a.storage.size ≤ base) :
    ∃ p slabs' m' placeN, cache.slowAllocate T (fun _ => base) m
        = some (p, { cache with slabs := slabs' }, m') ∧
      (∀ q, placeN q = place q ∨ place q = .outside ∧ placeN q = .free) ∧ placeN p = .free ∧
      HeapInv T (Function.update S c slabs') m' (Function.update placeN p (.live c)) ∧
      InSlabs T (Function.update S c slabs') c p ∧
      ∀ c' q, InSlabs T S c' q → InSlabs T (Function.update S c slabs') c' q := by
  cases hopen : cache.openSlabs with
  | cons slab back =>
    -- the first slab with a free slot serves the call
    obtain ⟨hsplit, hpos⟩ := SlabCache.openSlabs_cons hopen
    obtain ⟨p, slab', hstep, hfree, hin, hnext⟩ := h.pop (hS.trans hsplit) hpos
    obtain ⟨hinv, hiff⟩ := hnext (.live c) (by simp) (by simp)
    refine ⟨p, _, m, place, ?_, fun q => .inl rfl, hfree, hinv, (hiff c p).mpr hin,
      fun c' q hq => (hiff c' q).mpr hq⟩
    rw [SlabCache.slowAllocate, hopen]
    simp only [hstep, Option.map_some]
  | nil =>
    -- all slabs are full: a new one is mapped, and its first slot is popped at once
    obtain ⟨hpos, hroom, hapart⟩ := hgrant hopen
    obtain ⟨m', hcreate, hchain, hmem⟩ := Slab.create_eq (m := m) hT hcount hpos hroom
    set slab : Slab := ⟨⟨base, alignUp (cache.objectsPerSlab * T.slotSize) 4096⟩, base,
      cache.objectsPerSlab, cache.objectsPerSlab⟩ with hslab
    have hpage : cache.objectsPerSlab * T.slotSize ≤ 2 ^ 64 - 4096 := by omega
    have hle := le_alignUp_page hpage
    have hlt := alignUp_page_lt hpage
    have hfits : slab.Fits T := ⟨hpos, hle, by
      show base + alignUp (cache.objectsPerSlab * T.slotSize) 4096 < 2 ^ 64
      omega⟩
    obtain ⟨hgrown, houtside, hmono⟩ := h.grow (c := c) hfits hapart hchain rfl
      (fun x hx => hmem x (by
        have hx' : x < base ∨ base + alignUp (cache.objectsPerSlab * T.slotSize) 4096 ≤ x := hx
        omega))
    have hfresh : slab.freeSlots ≠ 0 := by
      show cache.objectsPerSlab ≠ 0
      omega
    have hlast : Function.update S c (S c ++ [slab]) c = S c ++ slab :: [] := by simp
    obtain ⟨p, slab', hstep, hfree, hin, hnext⟩ := hgrown.pop hlast hfresh
    obtain ⟨hinv, hiff⟩ := hnext (.live c) (by simp) (by simp)
    rw [Function.update_idem] at hinv hiff
    refine ⟨p, S c ++ [slab'], m', _, ?_, fun q => ?_, hfree, hinv, (hiff c p).mpr hin,
      fun c' q hq => (hiff c' q).mpr (hmono c' q hq)⟩
    · rw [SlabCache.slowAllocate, hopen]
      simp only [hcreate, hstep, Option.map_some, hS]
    · by_cases hq : q ∈ slab.slotList T
      · exact .inr ⟨houtside q hq, if_pos hq⟩
      · exact .inl (if_neg hq)

end Heap

end Memory
