/-
# Memory from the operating system

The two ways in which an operating system refuses memory, and what the constructor of
`VirtualMemory` makes of them.  `VirtualAlloc` answers with a null pointer, `mmap` with
`MAP_FAILED`, which is the pointer `(void*)-1`; the constructor tests for null only.

`create_backed_iff` says exactly when a construction either throws or leaves the object
with the memory that it reports.
-/
import MemoryAllocator.MemoryUtils

namespace Memory

/-! ## The operating system -/

/-- The two branches of `#ifdef _WIN32`. -/
inductive Platform where
  | windows
  | posix
  deriving DecidableEq, Repr

/-- `MAP_FAILED`, the pointer `(void*)-1`. -/
def mapFailed : ℕ := 2 ^ 64 - 1

/-- `AllocateVirtualMemory`: the pointer that `VirtualAlloc` or `mmap` returns.  What the
system does with a request for so many bytes is its `outcome`: the address from which it
has mapped exactly these bytes, or a refusal. -/
def allocateVirtualMemory (platform : Platform) (outcome : ℕ → Option ℕ) (size : ℕ) : ℕ :=
  match platform with
  | .windows => (outcome size).getD 0
  | .posix => (outcome size).getD mapFailed

/-- What both system calls promise: a request for no bytes fails, and a mapping is not
placed at the null address. -/
structure Answers (outcome : ℕ → Option ℕ) : Prop where
  refuses_zero : outcome 0 = none
  ne_null : ∀ {length ptr : ℕ}, outcome length = some ptr → ptr ≠ 0

/-- The mapped addresses after a request, `mapped` being those before it. -/
def mappedAfter (outcome : ℕ → Option ℕ) (mapped : Set ℕ) (length : ℕ) : Set ℕ :=
  match outcome length with
  | some ptr => mapped ∪ Set.Ico ptr (ptr + length)
  | none => mapped

theorem mappedAfter_of_some {outcome : ℕ → Option ℕ} {length ptr : ℕ} (mapped : Set ℕ)
    (h : outcome length = some ptr) :
    mappedAfter outcome mapped length = mapped ∪ Set.Ico ptr (ptr + length) := by
  rw [mappedAfter, h]

theorem mappedAfter_of_none {outcome : ℕ → Option ℕ} {length : ℕ} (mapped : Set ℕ)
    (h : outcome length = none) : mappedAfter outcome mapped length = mapped := by
  rw [mappedAfter, h]

/-! ## Whole pages -/

/-- The length that is asked for, if it is not `0`, has room for the size. -/
theorem le_alignUp_page_of_ne_zero {size : ℕ} (hsize : size < 2 ^ 64)
    (h : alignUp size 4096 ≠ 0) : size ≤ alignUp size 4096 := by
  apply le_alignUp_page
  by_contra hlarge
  apply h
  exact alignUp_of_wrap (n := 12) (by norm_num) hsize (by omega)

/-- No bytes are asked for exactly if the size is `0` or within a page of `2 ^ 64`. -/
theorem alignUp_page_eq_zero_iff {size : ℕ} (hsize : size < 2 ^ 64) :
    alignUp size 4096 = 0 ↔ size = 0 ∨ 2 ^ 64 - 4096 < size := by
  constructor
  · intro h
    by_contra hcon
    have hle : size ≤ alignUp size 4096 := le_alignUp_page (by omega)
    omega
  · rintro (rfl | h)
    · decide +kernel
    · exact alignUp_of_wrap (n := 12) (by norm_num) hsize (by omega)

/-! ## The constructor -/

namespace VirtualMemory

/-- The object has the memory it reports: its pointer is a mapped address, it is as large as
was asked for, and all of its bytes are mapped. -/
def Backed (mapped : Set ℕ) (size : ℕ) (vm : VirtualMemory) : Prop :=
  vm.ptr ∈ mapped ∧ size ≤ vm.size ∧ Set.Ico vm.ptr (vm.ptr + vm.size) ⊆ mapped

variable {platform : Platform} {outcome : ℕ → Option ℕ} {mapped : Set ℕ} {size : ℕ}

/-- The system has mapped the bytes: the constructor keeps what it was given. -/
theorem create_of_some {ptr : ℕ} (h : Answers outcome)
    (hptr : outcome (alignUp size 4096) = some ptr) :
    create (allocateVirtualMemory platform outcome) size = .ok ⟨ptr, alignUp size 4096⟩ := by
  have hcall : allocateVirtualMemory platform outcome (alignUp size 4096) = ptr := by
    cases platform <;> rw [allocateVirtualMemory, hptr] <;> rfl
  unfold create
  simp only [hcall, if_neg (h.ne_null hptr)]

/-- `VirtualAlloc` has refused: the constructor throws. -/
theorem create_windows_of_none (hnone : outcome (alignUp size 4096) = none) :
    create (allocateVirtualMemory .windows outcome) size
      = .error "Failed to allocate virtual memory from the OS." := by
  have hcall : allocateVirtualMemory .windows outcome (alignUp size 4096) = 0 := by
    rw [allocateVirtualMemory, hnone]
    rfl
  unfold create
  simp only [hcall, if_true]

/-- `mmap` has refused: `MAP_FAILED` is not null, and the constructor takes it for an
address. -/
theorem create_posix_of_none (hnone : outcome (alignUp size 4096) = none) :
    create (allocateVirtualMemory .posix outcome) size
      = .ok ⟨mapFailed, alignUp size 4096⟩ := by
  have hcall : allocateVirtualMemory .posix outcome (alignUp size 4096) = mapFailed := by
    rw [allocateVirtualMemory, hnone]
    rfl
  have hne : mapFailed ≠ 0 := by decide
  unfold create
  simp only [hcall, if_neg hne]

/-- A mapping that the system has made backs the object. -/
theorem backed_of_some {ptr : ℕ} (h : Answers outcome) (hsize : size < 2 ^ 64)
    (hptr : outcome (alignUp size 4096) = some ptr) :
    Backed (mappedAfter outcome mapped (alignUp size 4096)) size ⟨ptr, alignUp size 4096⟩ := by
  have hpages : alignUp size 4096 ≠ 0 := by
    intro h0
    rw [h0, h.refuses_zero] at hptr
    cases hptr
  rw [mappedAfter_of_some mapped hptr]
  have hfirst : ptr ∈ Set.Ico ptr (ptr + alignUp size 4096) :=
    Set.mem_Ico.mpr ⟨le_rfl, by omega⟩
  exact ⟨Or.inr hfirst, le_alignUp_page_of_ne_zero hsize hpages, Set.subset_union_right⟩

/-- **When a construction is sound.**  Constructing an object of any 64-bit size throws or
leaves it with the memory it reports, exactly if the system has mapped the whole pages that
were asked for or reports a refusal by a null pointer, as `VirtualAlloc` does. -/
theorem create_backed_iff (platform : Platform) {outcome : ℕ → Option ℕ} (h : Answers outcome)
    {mapped : Set ℕ} (hmapped : mapFailed ∉ mapped) {size : ℕ} (hsize : size < 2 ^ 64) :
    (∀ vm, create (allocateVirtualMemory platform outcome) size = .ok vm →
        Backed (mappedAfter outcome mapped (alignUp size 4096)) size vm)
      ↔ (platform = .posix → ∃ ptr, outcome (alignUp size 4096) = some ptr) := by
  cases hcall : outcome (alignUp size 4096) with
  | some ptr =>
    refine ⟨fun _ _ => ⟨ptr, rfl⟩, fun _ vm hvm => ?_⟩
    rw [create_of_some h hcall] at hvm
    obtain rfl := Except.ok.inj hvm
    exact backed_of_some h hsize hcall
  | none =>
    cases platform with
    | windows =>
      refine ⟨fun _ hposix => absurd hposix (by decide), fun _ vm hvm => ?_⟩
      rw [create_windows_of_none hcall] at hvm
      cases hvm
    | posix =>
      constructor
      · intro hbacked
        have hfailed := (hbacked _ (create_posix_of_none hcall)).1
        rw [mappedAfter_of_none mapped hcall] at hfailed
        exact absurd hfailed hmapped
      · intro hsome
        obtain ⟨ptr, hptr⟩ := hsome rfl
        cases hptr

/-- A system that maps every positive length from one address on. -/
def mapsAt (ptr length : ℕ) : Option ℕ := if length = 0 then none else some ptr

/-- It maps two pages for 5000 bytes. -/
theorem mapsAt_create_backed :
    create (allocateVirtualMemory .posix (mapsAt 65536)) 5000 = .ok ⟨65536, 8192⟩ ∧
      ∀ vm, create (allocateVirtualMemory .posix (mapsAt 65536)) 5000 = .ok vm →
        Backed (mappedAfter (mapsAt 65536) ∅ (alignUp 5000 4096)) 5000 vm := by
  have hanswers : Answers (mapsAt 65536) := by
    refine ⟨rfl, fun {length ptr} hptr => ?_⟩
    rw [mapsAt] at hptr
    split_ifs at hptr
    obtain rfl := Option.some.inj hptr
    decide
  refine ⟨by decide +kernel, ?_⟩
  refine (create_backed_iff .posix hanswers (Set.notMem_empty _) (by norm_num)).mpr ?_
  intro _
  exact ⟨65536, by decide +kernel⟩

/-- A system that is out of memory: one page is asked for, and the constructor reports
one page at `(void*)-1`. -/
theorem outOfMemory_not_backed :
    create (allocateVirtualMemory .posix (fun _ => none)) 4096 = .ok ⟨2 ^ 64 - 1, 4096⟩ ∧
      ¬ ∀ vm, create (allocateVirtualMemory .posix (fun _ => none)) 4096 = .ok vm →
        Backed (mappedAfter (fun _ => none) ∅ (alignUp 4096 4096)) 4096 vm := by
  have hcreate : create (allocateVirtualMemory .posix (fun _ => none)) 4096
      = .ok ⟨2 ^ 64 - 1, 4096⟩ := by decide +kernel
  refine ⟨hcreate, fun hbacked => ?_⟩
  have hfailed := (hbacked _ hcreate).1
  rw [mappedAfter_of_none ∅ rfl] at hfailed
  exact hfailed

/-- **A request that rounds to no pages is refused by every system**: on POSIX a size of `0`
or within a page of `2 ^ 64` gives an object of `0` bytes at `MAP_FAILED`. -/
theorem create_posix_of_no_pages (h : Answers outcome) (hsize : size < 2 ^ 64)
    (hpages : size = 0 ∨ 2 ^ 64 - 4096 < size) :
    create (allocateVirtualMemory .posix outcome) size = .ok ⟨mapFailed, 0⟩ := by
  have hzero : alignUp size 4096 = 0 := (alignUp_page_eq_zero_iff hsize).mpr hpages
  have hnone : outcome (alignUp size 4096) = none := by rw [hzero, h.refuses_zero]
  rw [create_posix_of_none hnone, hzero]

end VirtualMemory

end Memory
