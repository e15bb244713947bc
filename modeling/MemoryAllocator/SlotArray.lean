/-
# Arrays of equal slots, threaded on a chain

An array of `count` slots of `size` bytes from address `base` on.  A free slot holds in
its first eight bytes the address of the next free one, so that the list of the free
slots is a chain through the memory of the slots themselves.

`linkSlots` is the loop that threads a whole array; it visits the slots in the order of
their addresses (`chain_linkSlots`) and writes nothing outside the array
(`linkSlots_of_not_mem`).  Pushing onto a chain in memory is `Chain.storePtr`.  The
module names nothing of any program.
-/
import MemoryAllocator.ByteMemory
import MemoryAllocator.LinkedChain
import MemoryAllocator.Word64

/-- The addresses of the slots of an array. -/
def slots (base size count : ℕ) : List ℕ := (List.range count).map (fun i => base + i * size)

section Slots

variable {base size count p q : ℕ}

@[simp] theorem mem_slots : p ∈ slots base size count ↔ ∃ i < count, p = base + i * size := by
  simp [slots, eq_comm]

@[simp] theorem length_slots : (slots base size count).length = count := by
  simp [slots]

theorem slots_succ : slots base size (count + 1) = base :: slots (base + size) size count := by
  rw [slots, List.range_succ_eq_map, List.map_cons, List.map_map, zero_mul, add_zero, slots]
  congr 1
  apply List.map_congr_left
  intro i _
  simp only [Function.comp_apply, Nat.succ_eq_add_one]
  ring

theorem nodup_slots (hsize : 0 < size) : (slots base size count).Nodup := by
  refine List.nodup_range.map (fun i j hij => ?_)
  have hmul : i * size = j * size := Nat.add_left_cancel hij
  exact Nat.eq_of_mul_eq_mul_right hsize hmul

/-- A slot lies inside the array. -/
theorem slot_inside (hp : p ∈ slots base size count) :
    base ≤ p ∧ p + size ≤ base + count * size := by
  obtain ⟨i, hi, rfl⟩ := mem_slots.mp hp
  have hle : (i + 1) * size ≤ count * size := Nat.mul_le_mul_right size hi
  rw [Nat.succ_mul] at hle
  omega

/-- Two slots do not overlap. -/
theorem slots_apart (hp : p ∈ slots base size count) (hq : q ∈ slots base size count)
    (hne : p ≠ q) : p + size ≤ q ∨ q + size ≤ p := by
  obtain ⟨i, -, rfl⟩ := mem_slots.mp hp
  obtain ⟨j, -, rfl⟩ := mem_slots.mp hq
  rcases Nat.lt_trichotomy i j with hij | rfl | hij
  · have hle : (i + 1) * size ≤ j * size := Nat.mul_le_mul_right size hij
    rw [Nat.succ_mul] at hle
    omega
  · exact absurd rfl hne
  · have hle : (j + 1) * size ≤ i * size := Nat.mul_le_mul_right size hij
    rw [Nat.succ_mul] at hle
    omega

/-- Slots at multiples of the alignment of their base and size. -/
theorem dvd_slot {d : ℕ} (hbase : d ∣ base) (hsize : d ∣ size)
    (hp : p ∈ slots base size count) : d ∣ p := by
  obtain ⟨i, -, rfl⟩ := mem_slots.mp hp
  exact dvd_add hbase (hsize.mul_left i)

end Slots

/-! ## Chains in memory -/

/-- Push a node: store the old head in its first word. -/
theorem Chain.storePtr {m : Mem} {p a : ℕ} {l : List ℕ} (h : Chain m.loadPtr 0 p l)
    (ha : a ≠ 0) (hp : p < 2 ^ 64) (hapart : ∀ b ∈ l, b + 8 ≤ a ∨ a + 8 ≤ b) :
    Chain (m.storePtr a p).loadPtr 0 a (a :: l) :=
  h.push ha (m.loadPtr_storePtr a hp)
    (fun b hb => m.loadPtr_storePtr_of_disjoint (hapart b hb))

/-- A chain depends on the first words of its nodes only. -/
theorem Chain.mem_congr {m m' : Mem} {p : ℕ} {l : List ℕ} (h : Chain m.loadPtr 0 p l)
    (hsame : ∀ a ∈ l, ∀ x, a ≤ x → x < a + 8 → m' x = m x) : Chain m'.loadPtr 0 p l :=
  h.congr (fun a ha => Mem.loadPtr_congr (hsame a ha))

/-- The head of a chain in memory is a word. -/
theorem Chain.head_lt {m : Mem} {p : ℕ} {l : List ℕ} (h : Chain m.loadPtr 0 p l)
    (hl : ∀ a ∈ l, a < 2 ^ 64) : p < 2 ^ 64 := by
  by_cases hp : p = 0
  · rw [hp]
    norm_num
  · obtain ⟨rest, rfl, -⟩ := h.exists_cons hp
    exact hl p (List.mem_cons_self ..)

/-! ## Threading an array -/

/-- Thread `rest` further slots behind `current` and end the chain. -/
def linkSlots (size : ℕ) : ℕ → ℕ → Mem → Mem
  | 0, current, mem => mem.storePtr current 0
  | rest + 1, current, mem =>
    let mem := mem.storePtr current (Word64.add current size)
    linkSlots size rest (mem.loadPtr current) mem

section Linking

variable {size rest current : ℕ} {mem : Mem}

/-- One round of the loop, when the next slot does not wrap. -/
theorem linkSlots_succ (hnext : current + size < 2 ^ 64) :
    linkSlots size (rest + 1) current mem
      = linkSlots size rest (current + size) (mem.storePtr current (current + size)) := by
  have hadd : Word64.add current size = current + size := Word64.add_of_lt hnext
  rw [linkSlots, hadd, Mem.loadPtr_storePtr _ _ hnext]

/-- Nothing outside the array is written. -/
theorem linkSlots_of_not_mem (hsize : 8 ≤ size) (hend : current + (rest + 1) * size ≤ 2 ^ 64)
    {b : ℕ} (hb : b < current ∨ current + (rest + 1) * size ≤ b) :
    linkSlots size rest current mem b = mem b := by
  induction rest generalizing current mem with
  | zero =>
    apply Mem.storeBytes_of_not_mem
    omega
  | succ rest ih =>
    have hsplit : (rest + 1 + 1) * size = (rest + 1) * size + size := Nat.succ_mul _ _
    have hpos : size ≤ (rest + 1) * size := Nat.le_mul_of_pos_left _ (Nat.succ_pos _)
    rw [linkSlots_succ (by omega), ih (by omega) (by omega)]
    apply Mem.storeBytes_of_not_mem
    omega

/-- **Threading an array** makes its slots a chain, in the order of their addresses. -/
theorem chain_linkSlots (rest : ℕ) (mem : Mem) (hsize : 8 ≤ size) (hpos : 0 < current)
    (hend : current + (rest + 1) * size ≤ 2 ^ 64) :
    Chain (linkSlots size rest current mem).loadPtr 0 current (slots current size (rest + 1)) := by
  induction rest generalizing current mem with
  | zero =>
    rw [slots_succ]
    refine ⟨rfl, hpos.ne', ?_⟩
    exact Mem.loadPtr_storePtr mem current (by norm_num)
  | succ rest ih =>
    have hsplit : (rest + 1 + 1) * size = (rest + 1) * size + size := Nat.succ_mul _ _
    have hle : size ≤ (rest + 1) * size := Nat.le_mul_of_pos_left _ (Nat.succ_pos _)
    have hlt : current + size < 2 ^ 64 := by omega
    rw [linkSlots_succ hlt, slots_succ]
    refine ⟨rfl, hpos.ne', ?_⟩
    -- the rest of the loop does not touch the link of the first slot
    have hlink : (linkSlots size rest (current + size)
        (mem.storePtr current (current + size))).loadPtr current = current + size := by
      rw [Mem.loadPtr_congr (fun b _ hb => linkSlots_of_not_mem hsize (by omega) (by omega)),
        Mem.loadPtr_storePtr _ _ hlt]
    rw [hlink]
    exact ih _ (by omega) (by omega)

end Linking
