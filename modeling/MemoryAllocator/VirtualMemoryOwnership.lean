/-
# The life of `VirtualMemory` objects

A program that declares, constructs, moves, assigns, frees and destroys `VirtualMemory`
objects in any order, beside the mappings that the operating system keeps for it.  The
copy operations are deleted in the source, so that a mapping changes hands only by
`std::exchange`.

The system side is the one of `munmap`: it removes whatever it is told to, without
asking who has it, so that a mapping freed twice would tear another object's memory.
`mapping_has_one_owner` says that this does not happen: every mapping has exactly one
object, every object that was given memory still has all of it, and when the last object
is gone nothing is mapped.
-/
import MemoryAllocator.GuardedMachine
import MemoryAllocator.OsMemory
import MemoryAllocator.Ownership

namespace Memory

/-! ## Unmapping -/

/-- What `munmap(ptr, size)` leaves of a mapping, an address and a length: the part below
the range and the part above it. -/
def cutRange (ptr size : ℕ) (m : ℕ × ℕ) : List (ℕ × ℕ) :=
  [(m.1, min (m.1 + m.2) ptr - m.1),
    (max m.1 (ptr + size), m.1 + m.2 - max m.1 (ptr + size))].filter (fun p => 0 < p.2)

/-- `FreeVirtualMemory`: nothing for a null pointer; `VirtualFree` releases the mapping that
starts at the pointer, `munmap` the range of addresses. -/
def freeVirtualMemory (platform : Platform) (mappings : List (ℕ × ℕ)) (ptr size : ℕ) :
    List (ℕ × ℕ) :=
  if ptr = 0 then
    mappings
  else
    match platform with
    | .windows => mappings.filter (fun m => m.1 ≠ ptr)
    | .posix => if size = 0 then mappings else mappings.flatMap (cutRange ptr size)

/-- The addresses of two mappings do not meet. -/
def Apart (m m' : ℕ × ℕ) : Prop := m.1 + m.2 ≤ m'.1 ∨ m'.1 + m'.2 ≤ m.1

instance (m m' : ℕ × ℕ) : Decidable (Apart m m') := inferInstanceAs (Decidable (_ ∨ _))

instance : Std.Symm Apart := ⟨fun _ _ => Or.symm⟩

/-- Mappings as a system keeps them: of one byte at least, not at the null address, below
the address that stands for a failure, and apart. -/
structure WellPlaced (mappings : List (ℕ × ℕ)) : Prop where
  pos : ∀ m ∈ mappings, 0 < m.2
  ne_null : ∀ m ∈ mappings, m.1 ≠ 0
  le : ∀ m ∈ mappings, m.1 + m.2 ≤ mapFailed
  apart : mappings.Pairwise Apart

namespace WellPlaced

variable {mappings : List (ℕ × ℕ)} {m m' : ℕ × ℕ}

/-- Two of them are the same or apart. -/
theorem eq_or_apart (h : WellPlaced mappings) (hm : m ∈ mappings) (hm' : m' ∈ mappings) :
    m = m' ∨ Apart m m' := by
  by_cases heq : m = m'
  · exact Or.inl heq
  · exact Or.inr (h.apart.forall hm hm' heq)

/-- A mapping is told by its address. -/
theorem eq_of_fst_eq (h : WellPlaced mappings) (hm : m ∈ mappings) (hm' : m' ∈ mappings)
    (heq : m.1 = m'.1) : m = m' := by
  rcases h.eq_or_apart hm hm' with heq' | hapart | hapart
  · exact heq'
  · have hpos := h.pos m hm
    omega
  · have hpos := h.pos m' hm'
    omega

theorem nodup (h : WellPlaced mappings) : mappings.Nodup := by
  refine List.Pairwise.imp_of_mem ?_ h.apart
  rintro m m' hm - hapart rfl
  have hpos := h.pos m hm
  rcases hapart with hle | hle <;> omega

theorem filter (h : WellPlaced mappings) (p : ℕ × ℕ → Bool) : WellPlaced (mappings.filter p) where
  pos m hm := h.pos m (List.mem_filter.mp hm).1
  ne_null m hm := h.ne_null m (List.mem_filter.mp hm).1
  le m hm := h.le m (List.mem_filter.mp hm).1
  apart := h.apart.filter p

theorem cons (h : WellPlaced mappings) (hpos : 0 < m.2) (hnull : m.1 ≠ 0)
    (hle : m.1 + m.2 ≤ mapFailed) (hapart : ∀ m' ∈ mappings, Apart m m') :
    WellPlaced (m :: mappings) where
  pos := List.forall_mem_cons.mpr ⟨hpos, h.pos⟩
  ne_null := List.forall_mem_cons.mpr ⟨hnull, h.ne_null⟩
  le := List.forall_mem_cons.mpr ⟨hle, h.le⟩
  apart := List.pairwise_cons.mpr ⟨hapart, h.apart⟩

end WellPlaced

/-- A range that lies apart from a mapping leaves it whole. -/
theorem cutRange_of_apart {ptr size : ℕ} {m : ℕ × ℕ} (hpos : 0 < m.2)
    (h : Apart m (ptr, size)) : cutRange ptr size m = [m] := by
  obtain ⟨a, n⟩ := m
  change a + n ≤ ptr ∨ ptr + size ≤ a at h
  change 0 < n at hpos
  unfold cutRange
  rcases h with h | h
  · have hlow : min (a + n) ptr - a = n := by omega
    have hhigh : a + n - max a (ptr + size) = 0 := by omega
    simp [hlow, hhigh, hpos]
  · have hhigh : max a (ptr + size) = a := by omega
    have hlow : min (a + n) ptr - a = 0 := by omega
    have hrest : a + n - a = n := by omega
    simp [hlow, hhigh, hrest, hpos]

/-- The range of a mapping leaves nothing of it. -/
theorem cutRange_self (m : ℕ × ℕ) : cutRange m.1 m.2 m = [] := by
  have hlow : min (m.1 + m.2) m.1 - m.1 = 0 := by omega
  have hhigh : m.1 + m.2 - max m.1 (m.1 + m.2) = 0 := by omega
  unfold cutRange
  rw [hlow, hhigh]
  rfl

/-- **Freeing a mapping removes it and leaves all others whole.** -/
theorem freeVirtualMemory_eq_filter (platform : Platform) {mappings : List (ℕ × ℕ)} {m : ℕ × ℕ}
    (h : WellPlaced mappings) (hm : m ∈ mappings) :
    freeVirtualMemory platform mappings m.1 m.2 = mappings.filter (fun m' => m' ≠ m) := by
  unfold freeVirtualMemory
  rw [if_neg (h.ne_null m hm)]
  cases platform with
  | windows =>
    apply List.filter_congr
    intro m' hm'
    have hiff : m'.1 ≠ m.1 ↔ m' ≠ m :=
      not_congr ⟨h.eq_of_fst_eq hm' hm, fun heq => by rw [heq]⟩
    exact decide_eq_decide.mpr hiff
  | posix =>
    have hsize : m.2 ≠ 0 := (h.pos m hm).ne'
    -- the mappings are cut one by one
    have hcut : ∀ l : List (ℕ × ℕ), (∀ m' ∈ l, m' ∈ mappings) →
        l.flatMap (cutRange m.1 m.2) = l.filter (fun m' => m' ≠ m) := by
      intro l hl
      induction l with
      | nil => rfl
      | cons m' l ih =>
        have hm' : m' ∈ mappings := hl m' List.mem_cons_self
        have hrest := ih (fun q hq => hl q (List.mem_cons_of_mem _ hq))
        rw [List.flatMap_cons, hrest]
        by_cases heq : m' = m
        · subst heq
          rw [cutRange_self, List.nil_append, List.filter_cons_of_neg (by simp)]
        · have hapart : Apart m' m := (h.eq_or_apart hm' hm).resolve_left heq
          have hkeep : (m' :: l).filter (fun q => q ≠ m) = m' :: l.filter (fun q => q ≠ m) :=
            List.filter_cons_of_pos (decide_eq_true heq)
          rw [cutRange_of_apart (h.pos m' hm') hapart, hkeep]
          rfl
    show (if m.2 = 0 then mappings else mappings.flatMap (cutRange m.1 m.2)) = _
    rw [if_neg hsize]
    exact hcut mappings (fun _ hm' => hm')

/-- **Freeing what `mmap` did not give changes nothing.** -/
theorem freeVirtualMemory_mapFailed (platform : Platform) {mappings : List (ℕ × ℕ)}
    (h : WellPlaced mappings) (size : ℕ) :
    freeVirtualMemory platform mappings mapFailed size = mappings := by
  have hne : mapFailed ≠ 0 := by decide
  unfold freeVirtualMemory
  rw [if_neg hne]
  cases platform with
  | windows =>
    apply List.filter_eq_self.mpr
    intro m hm
    have hpos := h.pos m hm
    have hle := h.le m hm
    exact decide_eq_true (by omega)
  | posix =>
    show (if size = 0 then mappings else mappings.flatMap (cutRange mapFailed size)) = mappings
    split_ifs with hsize
    · rfl
    · have hcut : ∀ m ∈ mappings, cutRange mapFailed size m = [m] :=
        fun m hm => cutRange_of_apart (h.pos m hm) (Or.inl (h.le m hm))
      rw [List.flatMap_congr hcut, List.flatMap_singleton']

/-! ## The operations of the class -/

namespace VirtualMemory

/-- A default-constructed object: a null pointer and no bytes. -/
def empty : VirtualMemory := ⟨0, 0⟩

/-- `Free`: the object afterwards and the mappings that are left. -/
def free (platform : Platform) (vm : VirtualMemory) (mappings : List (ℕ × ℕ)) :
    VirtualMemory × List (ℕ × ℕ) :=
  if vm.ptr ≠ 0 then
    (empty, freeVirtualMemory platform mappings vm.ptr vm.size)
  else
    (vm, mappings)

/-- The two `std::exchange`s of a move: the new object, and the one moved from. -/
def exchange (other : VirtualMemory) : VirtualMemory × VirtualMemory := (other, empty)

/-- The mapping that an object has: none with a null pointer, and none with the pointer that
a refused `mmap` returns. -/
def mapping? (vm : VirtualMemory) : Option (ℕ × ℕ) :=
  if vm.ptr = 0 ∨ vm.ptr = mapFailed then none else some (vm.ptr, vm.size)

/-- A program at work: the variables in their lifetime, and the mappings of the process. -/
structure Machine where
  objects : ℕ → Option VirtualMemory
  mappings : List (ℕ × ℕ)

/-- What a program does with its variables. The system's answer to a construction belongs to
the operation. -/
inductive Op where
  | declare (x : ℕ)
  | construct (x size : ℕ) (outcome : ℕ → Option ℕ)
  | moveConstruct (x y : ℕ)
  | moveAssign (x y : ℕ)
  | free (x : ℕ)
  | destroy (x : ℕ)

namespace Machine

/-- Before the first declaration. -/
def start : Machine := ⟨fun _ => none, []⟩

/-- The variable now stands for this object, or for none. -/
def assign (s : Machine) (x : ℕ) (vm : Option VirtualMemory) : Machine :=
  { s with objects := Function.update s.objects x vm }

/-- `mmap` or `VirtualAlloc` has answered. -/
def grant (s : Machine) (length : ℕ) (answer : Option ℕ) : Machine :=
  match answer with
  | some ptr => { s with mappings := (ptr, length) :: s.mappings }
  | none => s

/-- `Free` on the object of a variable. -/
def freeAt (platform : Platform) (s : Machine) (x : ℕ) (vm : VirtualMemory) : Machine :=
  let (vm', mappings) := vm.free platform s.mappings
  { s with objects := Function.update s.objects x (some vm'), mappings := mappings }

/-- The object of `y` is moved to `x`, whose own memory is gone. -/
def moveTo (s : Machine) (x y : ℕ) (other : VirtualMemory) : Machine :=
  let (new, old) := other.exchange
  (s.assign y (some old)).assign x (some new)

/-- One operation. There is no outcome outside the lifetime of the objects it names. -/
def exec (platform : Platform) (s : Machine) : Op → Option Machine
  | .declare x =>
    match s.objects x with
    | none => some (s.assign x (some empty))
    | some _ => none
  | .construct x size outcome =>
    match s.objects x with
    | none =>
      let s' := s.grant (alignUp size 4096) (outcome (alignUp size 4096))
      match create (allocateVirtualMemory platform outcome) size with
      | .ok vm => some (s'.assign x (some vm))
      | .error _ => some s'
    | some _ => none
  | .moveConstruct x y =>
    match s.objects x, s.objects y with
    | none, some other => some (s.moveTo x y other)
    | _, _ => none
  | .moveAssign x y =>
    match s.objects x, s.objects y with
    | some this, some other =>
      -- `if (this != &other)`
      if x = y then some s else some ((s.freeAt platform x this).moveTo x y other)
    | _, _ => none
  | .free x =>
    match s.objects x with
    | some vm => some (s.freeAt platform x vm)
    | none => none
  | .destroy x =>
    match s.objects x with
    | some vm => some ((s.freeAt platform x vm).assign x none)
    | none => none

/-- What the system promises when a mapping is made: addresses that are not in use, below
the one that stands for a failure. -/
def pre (s : Machine) : Op → Prop
  | .construct _ size outcome =>
    Answers outcome ∧ ∀ ptr, outcome (alignUp size 4096) = some ptr →
      ptr + alignUp size 4096 ≤ mapFailed ∧
        ∀ m ∈ s.mappings, Apart (ptr, alignUp size 4096) m
  | _ => True

end Machine

/-- The program as a machine of operations. -/
def machine (platform : Platform) : GuardedMachine Machine Op where
  pre := Machine.pre
  exec := Machine.exec platform

/-! ## Who has what -/

namespace Machine

open Ownership

/-- The variables as holders of mappings. -/
def holding (s : Machine) : Holding ℕ (ℕ × ℕ) where
  held x := (s.objects x).bind mapping?
  live := s.mappings

@[simp] theorem holding_live (s : Machine) : s.holding.live = s.mappings := rfl

theorem holding_held {s : Machine} {x : ℕ} {vm : VirtualMemory} (hx : s.objects x = some vm) :
    s.holding.held x = vm.mapping? := by
  show (s.objects x).bind mapping? = vm.mapping?
  rw [hx]
  rfl

theorem holding_held_none {s : Machine} {x : ℕ} (hx : s.objects x = none) :
    s.holding.held x = none := by
  show (s.objects x).bind mapping? = none
  rw [hx]
  rfl

/-- Assigning to a variable changes what it holds. -/
theorem holding_assign (s : Machine) (x : ℕ) (vm : Option VirtualMemory) :
    (s.assign x vm).holding
      = ⟨Function.update s.holding.held x (vm.bind mapping?), s.mappings⟩ := by
  have hheld : (s.assign x vm).holding.held
      = Function.update s.holding.held x (vm.bind mapping?) := by
    funext y
    show (Function.update s.objects x vm y).bind mapping? = _
    by_cases hy : y = x
    · rw [hy, Function.update_self, Function.update_self]
    · rw [Function.update_of_ne hy, Function.update_of_ne hy]
      rfl
  rw [← hheld]
  rfl

/-- The mappings are well placed, and each is held by one variable. -/
structure Sound (s : Machine) : Prop where
  placed : WellPlaced s.mappings
  exclusive : s.holding.Exclusive

variable {platform : Platform} {s t : Machine} {x y : ℕ} {vm other : VirtualMemory}

/-- An assignment of an object without a mapping, where there was none either. -/
theorem holding_assign_of_none {vm : Option VirtualMemory} (hx : s.holding.held x = none)
    (hvm : vm.bind mapping? = none) : (s.assign x vm).holding = s.holding := by
  have hsame : Function.update s.holding.held x none = s.holding.held := by
    rw [← hx]
    exact Function.update_eq_self x s.holding.held
  rw [holding_assign, hvm, hsame]
  rfl

/-- **`Free` is the release of what the variable holds.** -/
theorem freeAt_holding (hs : s.Sound) (hx : s.objects x = some vm) :
    (s.freeAt platform x vm).holding = s.holding.release x := by
  have hheld := holding_held hx
  cases hmap : vm.mapping? with
  | none =>
    -- nothing is unmapped, and there was nothing to hold
    rw [hmap] at hheld
    have hfree : ∃ vm', vm.free platform s.mappings = (vm', s.mappings) ∧ vm'.mapping? = none := by
      by_cases hnull : vm.ptr = 0
      · exact ⟨vm, by rw [free, if_neg (not_not.mpr hnull)], hmap⟩
      · have hfailed : vm.ptr = mapFailed := by
          by_contra hcon
          rw [mapping?, if_neg (not_or.mpr ⟨hnull, hcon⟩)] at hmap
          cases hmap
        refine ⟨empty, ?_, rfl⟩
        rw [free, if_pos hnull, hfailed, freeVirtualMemory_mapFailed platform hs.placed]
    obtain ⟨vm', hfree, hvm'⟩ := hfree
    have hstate : s.freeAt platform x vm = s.assign x (some vm') := by
      unfold freeAt
      rw [hfree]
      rfl
    have hnone : (some vm').bind VirtualMemory.mapping? = none := hvm'
    rw [hstate, holding_assign_of_none hheld hnone, Holding.release_of_none hheld]
  | some m =>
    rw [hmap] at hheld
    have hnot : ¬(vm.ptr = 0 ∨ vm.ptr = mapFailed) := by
      intro hcon
      rw [mapping?, if_pos hcon] at hmap
      cases hmap
    rw [mapping?, if_neg hnot] at hmap
    obtain rfl := Option.some.inj hmap
    have hm : (vm.ptr, vm.size) ∈ s.mappings := (hs.exclusive.mem_live _).mpr ⟨x, hheld⟩
    have hfree : vm.free platform s.mappings
        = (empty, s.mappings.filter (fun m => m ≠ (vm.ptr, vm.size))) := by
      rw [free, if_pos (fun hnull => hnot (Or.inl hnull))]
      rw [freeVirtualMemory_eq_filter platform hs.placed hm]
    have hlive : s.mappings.filter (fun m => m ≠ (vm.ptr, vm.size))
        = s.mappings.filter (fun m => s.holding.held x ≠ some m) := by
      apply List.filter_congr
      intro m _
      apply decide_eq_decide.mpr
      rw [hheld]
      constructor
      · intro hne heq
        exact hne (Option.some.inj heq).symm
      · intro hne heq
        exact hne (by rw [heq])
    have hstate : s.freeAt platform x vm = ({ s with
        mappings := s.mappings.filter (fun m => s.holding.held x ≠ some m) } : Machine).assign
          x (some empty) := by
      unfold freeAt
      rw [hfree, ← hlive]
      rfl
    rw [hstate, holding_assign]
    rfl

/-- `Free` keeps the invariant, and the variable holds nothing afterwards. -/
theorem freeAt_sound (platform : Platform) (hs : s.Sound) (hx : s.objects x = some vm) :
    (s.freeAt platform x vm).Sound ∧ (s.freeAt platform x vm).holding.held x = none := by
  have hholding : (s.freeAt platform x vm).holding = s.holding.release x := freeAt_holding hs hx
  have hlive : (s.freeAt platform x vm).mappings
      = s.mappings.filter (fun m => s.holding.held x ≠ some m) := by
    rw [← holding_live, hholding]
    rfl
  refine ⟨⟨?_, ?_⟩, ?_⟩
  · rw [hlive]
    exact hs.placed.filter _
  · rw [hholding]
    exact hs.exclusive.release x
  · rw [hholding]
    exact Holding.release_held_self

/-- **A move hands the mapping over.** -/
theorem moveTo_holding (hy : s.objects y = some other) :
    (s.moveTo x y other).holding = s.holding.transfer x y := by
  show ((s.assign y (some empty)).assign x (some other)).holding = _
  rw [holding_assign, holding_assign, Holding.transfer, holding_held hy]
  rfl

theorem moveTo_sound (hs : s.Sound) (hxy : y ≠ x) (hx : s.holding.held x = none)
    (hy : s.objects y = some other) : (s.moveTo x y other).Sound := by
  refine ⟨hs.placed, ?_⟩
  rw [moveTo_holding hy]
  exact hs.exclusive.transfer hxy hx

/-- An assignment that changes nothing about who holds what. -/
theorem assign_sound {vm : Option VirtualMemory} (hs : s.Sound) (hx : s.holding.held x = none)
    (hvm : vm.bind mapping? = none) : (s.assign x vm).Sound := by
  refine ⟨hs.placed, ?_⟩
  rw [holding_assign_of_none hx hvm]
  exact hs.exclusive

/-- A construction that the system has granted: the new object holds the new mapping. -/
theorem grant_sound {length ptr : ℕ} (hs : s.Sound) (hx : s.objects x = none)
    (hlength : 0 < length) (hptr : ptr ≠ 0) (hle : ptr + length ≤ mapFailed)
    (hapart : ∀ m ∈ s.mappings, Apart (ptr, length) m) :
    ((s.grant length (some ptr)).assign x (some ⟨ptr, length⟩)).Sound := by
  have hnew : (ptr, length) ∉ s.mappings := by
    intro hmem
    rcases hapart _ hmem with hle | hle <;> omega
  have hfailed : ptr ≠ mapFailed := by omega
  have hmap : (some (⟨ptr, length⟩ : VirtualMemory)).bind mapping? = some (ptr, length) := by
    show mapping? ⟨ptr, length⟩ = some (ptr, length)
    exact if_neg (not_or.mpr ⟨hptr, hfailed⟩)
  refine ⟨hs.placed.cons hlength hptr hle hapart, ?_⟩
  rw [holding_assign, hmap]
  exact hs.exclusive.acquire (holding_held_none hx) hnew

/-- What an operation does, and when. -/
inductive Performs (platform : Platform) (s : Machine) : Op → Machine → Prop
  | declares {x : ℕ} : s.objects x = none →
      Performs platform s (.declare x) (s.assign x (some empty))
  | constructs {x size ptr : ℕ} {outcome : ℕ → Option ℕ} : s.objects x = none →
      outcome (alignUp size 4096) = some ptr →
      Performs platform s (.construct x size outcome)
        ((s.grant (alignUp size 4096) (some ptr)).assign x (some ⟨ptr, alignUp size 4096⟩))
  | throws {x size : ℕ} {outcome : ℕ → Option ℕ} : platform = .windows →
      outcome (alignUp size 4096) = none → Performs platform s (.construct x size outcome) s
  | fails {x size : ℕ} {outcome : ℕ → Option ℕ} : platform = .posix → s.objects x = none →
      outcome (alignUp size 4096) = none →
      Performs platform s (.construct x size outcome)
        (s.assign x (some ⟨mapFailed, alignUp size 4096⟩))
  | moveConstructs {x y : ℕ} {other : VirtualMemory} : s.objects x = none →
      s.objects y = some other → Performs platform s (.moveConstruct x y) (s.moveTo x y other)
  | assignsItself {x : ℕ} : Performs platform s (.moveAssign x x) s
  | moveAssigns {x y : ℕ} {this other : VirtualMemory} : y ≠ x → s.objects x = some this →
      s.objects y = some other →
      Performs platform s (.moveAssign x y) ((s.freeAt platform x this).moveTo x y other)
  | frees {x : ℕ} {vm : VirtualMemory} : s.objects x = some vm →
      Performs platform s (.free x) (s.freeAt platform x vm)
  | destroys {x : ℕ} {vm : VirtualMemory} : s.objects x = some vm →
      Performs platform s (.destroy x) ((s.freeAt platform x vm).assign x none)

/-- A construction, as the system answers it. -/
theorem performs_of_construct {x size : ℕ} {outcome : ℕ → Option ℕ} (hanswers : Answers outcome)
    (hexec : s.exec platform (.construct x size outcome) = some t) :
    Performs platform s (.construct x size outcome) t := by
  cases hx : s.objects x with
  | some vm => simp only [exec, hx, reduceCtorEq] at hexec
  | none =>
    cases hout : outcome (alignUp size 4096) with
    | some ptr =>
      simp only [exec, hx, hout, create_of_some hanswers hout] at hexec
      obtain rfl := Option.some.inj hexec
      exact .constructs hx hout
    | none =>
      cases platform with
      | windows =>
        simp only [exec, hx, hout, create_windows_of_none hout] at hexec
        obtain rfl := Option.some.inj hexec
        exact .throws rfl hout
      | posix =>
        simp only [exec, hx, hout, create_posix_of_none hout] at hexec
        obtain rfl := Option.some.inj hexec
        exact .fails rfl hx hout

/-- **What an operation within the contract does.** -/
theorem performs_of_exec {op : Op} (hpre : s.pre op) (hexec : s.exec platform op = some t) :
    Performs platform s op t := by
  cases op with
  | construct x size outcome => exact performs_of_construct hpre.1 hexec
  | declare x =>
    simp only [exec] at hexec
    split at hexec
    · obtain rfl := Option.some.inj hexec
      exact .declares ‹_›
    · cases hexec
  | moveConstruct x y =>
    simp only [exec] at hexec
    split at hexec
    · obtain rfl := Option.some.inj hexec
      exact .moveConstructs ‹_› ‹_›
    · cases hexec
  | moveAssign x y =>
    simp only [exec] at hexec
    split at hexec
    · split_ifs at hexec with hxy
      · subst hxy
        obtain rfl := Option.some.inj hexec
        exact .assignsItself
      · obtain rfl := Option.some.inj hexec
        exact .moveAssigns (Ne.symm hxy) ‹_› ‹_›
    · cases hexec
  | free x =>
    simp only [exec] at hexec
    split at hexec
    · obtain rfl := Option.some.inj hexec
      exact .frees ‹_›
    · cases hexec
  | destroy x =>
    simp only [exec] at hexec
    split at hexec
    · obtain rfl := Option.some.inj hexec
      exact .destroys ‹_›
    · cases hexec

/-- **One operation keeps the invariant.** -/
theorem exec_sound {op : Op} (hs : s.Sound) (hpre : s.pre op)
    (hexec : s.exec platform op = some t) : t.Sound := by
  cases performs_of_exec hpre hexec with
  | declares hx => exact assign_sound hs (holding_held_none hx) rfl
  | @constructs x size ptr outcome hx hout =>
    obtain ⟨hanswers, hplace⟩ := hpre
    have hlength : 0 < alignUp size 4096 := by
      apply Nat.pos_of_ne_zero
      intro hzero
      rw [hzero, hanswers.refuses_zero] at hout
      cases hout
    obtain ⟨hle, hapart⟩ := hplace ptr hout
    exact grant_sound hs hx hlength (hanswers.ne_null hout) hle hapart
  | throws => exact hs
  | @fails x size outcome _ hx =>
    apply assign_sound hs (holding_held_none hx)
    show mapping? ⟨mapFailed, alignUp size 4096⟩ = none
    exact if_pos (Or.inr rfl)
  | @moveConstructs x y other hx hy =>
    have hne : y ≠ x := by
      rintro rfl
      rw [hx] at hy
      cases hy
    exact moveTo_sound hs hne (holding_held_none hx) hy
  | assignsItself => exact hs
  | moveAssigns hne hx hy =>
    obtain ⟨hsound, hnone⟩ := freeAt_sound platform hs hx
    apply moveTo_sound hsound hne hnone
    exact (Function.update_of_ne hne ..).trans hy
  | frees hx => exact (freeAt_sound platform hs hx).1
  | destroys hx =>
    obtain ⟨hsound, hnone⟩ := freeAt_sound platform hs hx
    exact assign_sound hsound hnone rfl

theorem start_sound : start.Sound where
  placed := ⟨by simp [start], by simp [start], by simp [start], List.Pairwise.nil⟩
  exclusive := ⟨List.nodup_nil, fun m => by simp [start, holding], fun h _ => by cases h⟩

/-- The invariant holds at the end of every run. -/
theorem reaches_sound {ops : List Op} (h : (machine platform).Reaches start ops s) : s.Sound :=
  GuardedMachine.Reaches.invariant (I := Sound)
    (fun _ _ _ hs hpre hexec => exec_sound hs hpre hexec) start_sound h

end Machine

/-- **Every mapping has one owner.**  After any declarations, constructions, moves,
assignments (of an object to itself too), `Free`s and destructions, on Windows and on POSIX
and whatever the system has refused: mappings are apart, each is held by exactly one object,
an object with a pointer from the system still has its whole mapping, and with no object
left nothing is mapped. -/
theorem mapping_has_one_owner {platform : Platform} {ops : List Op} {s : Machine}
    (h : (machine platform).Reaches Machine.start ops s) :
    s.mappings.Pairwise Apart ∧
      (∀ m ∈ s.mappings, ∃! x, (s.objects x).bind mapping? = some m) ∧
      (∀ x vm, s.objects x = some vm → vm.ptr ≠ 0 → vm.ptr ≠ mapFailed →
        (vm.ptr, vm.size) ∈ s.mappings) ∧
      ((∀ x, s.objects x = none) → s.mappings = []) := by
  have hs := Machine.reaches_sound h
  refine ⟨hs.placed.apart, ?_, ?_, ?_⟩
  · intro m hm
    obtain ⟨x, hx⟩ := (hs.exclusive.mem_live m).mp hm
    exact ⟨x, hx, fun y hy => hs.exclusive.inj hy hx⟩
  · intro x vm hx hnull hfailed
    apply (hs.exclusive.mem_live _).mpr
    refine ⟨x, ?_⟩
    rw [Machine.holding_held hx, mapping?, if_neg (not_or.mpr ⟨hnull, hfailed⟩)]
  · intro hnone
    exact hs.exclusive.live_eq_nil (fun x => Machine.holding_held_none (hnone x))

/-- One object is constructed, assigned to a second and moved to a third; the first is
destroyed, and the second is assigned to itself and freed. -/
def movedProgram : List Op :=
  [.construct 0 5000 (mapsAt 65536), .declare 1, .moveAssign 1 0, .moveConstruct 2 1,
    .destroy 0, .moveAssign 1 1, .free 1]

/-- At its end the mapping is the third object's. -/
theorem mapping_has_one_owner_moved :
    ∃ s, (machine .posix).Reaches Machine.start movedProgram s ∧
      s.mappings = [(65536, 8192)] ∧ s.objects 2 = some ⟨65536, 8192⟩ ∧
      ∃! x, (s.objects x).bind mapping? = some (65536, 8192) := by
  have hanswers : Answers (mapsAt 65536) := by
    refine ⟨rfl, fun {length ptr} hptr => ?_⟩
    rw [mapsAt] at hptr
    split_ifs at hptr
    obtain rfl := Option.some.inj hptr
    decide
  have hpages : alignUp 5000 4096 = 8192 := by decide +kernel
  have hplace : Machine.start.pre (.construct 0 5000 (mapsAt 65536)) := by
    refine ⟨hanswers, fun ptr hptr => ?_⟩
    rw [hpages] at hptr ⊢
    obtain rfl : 65536 = ptr := Option.some.inj hptr
    exact ⟨by decide, fun m hm => absurd hm (List.not_mem_nil)⟩
  have hlegal : (machine .posix).Legal Machine.start movedProgram :=
    ⟨hplace, fun _ _ => ⟨trivial, fun _ _ => ⟨trivial, fun _ _ => ⟨trivial, fun _ _ =>
      ⟨trivial, fun _ _ => ⟨trivial, fun _ _ => ⟨trivial, fun _ _ => trivial⟩⟩⟩⟩⟩⟩⟩
  have hmappings : ((machine .posix).run Machine.start movedProgram).map Machine.mappings
      = some [(65536, 8192)] := by decide +kernel
  have hobject : ((machine .posix).run Machine.start movedProgram).bind (Machine.objects · 2)
      = some ⟨65536, 8192⟩ := by decide +kernel
  obtain ⟨s, hrun, hs⟩ := Option.map_eq_some_iff.mp hmappings
  rw [hrun] at hobject
  refine ⟨s, ⟨hlegal, hrun⟩, hs, hobject, ?_⟩
  apply (mapping_has_one_owner ⟨hlegal, hrun⟩).2.1
  rw [hs]
  exact List.mem_cons_self

end VirtualMemory

end Memory
