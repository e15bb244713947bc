/-
# The scheduler keeps states, queues and memory in step

`Scheduler.Inv` is the invariant between the steps of a tick.  It says that the ready
queue holds exactly the `READY` processes and the waiting list exactly the `WAITING`
ones, each once; that the allocator's session satisfies its own invariant; and that its
live blocks are, one to one, the blocks of the queued processes.  The map `own` from
process indices to block codes makes the last part a permutation of lists, so that
moving a process between the queues does not touch it (`Inv.move`).

Every phase keeps the invariant: admission (`Inv.admitOne`), the countdown of the
blocked processes (`Inv.serviceLoop`), and each of the four exits of a CPU slice
(`Inv.runOneCpuSlice`).  The result for whole runs is `scheduler_in_step`.
-/
import MemoryAllocator.OsSchedulerQueues
import MemoryAllocator.BuddyPartition

namespace OS

open Memory

/-! ## Processes -/

namespace Process

variable {p : Process}

/-- The process holds the block with the given code. -/
structure Holds (A : BuddyArena) (p : Process) (q : ℕ × ℕ) : Prop where
  fits : p.memoryRequest ≤ 2 ^ (A.minBits + q.1)
  ptr_eq : p.memPtr = A.addr q.1 q.2
  offset_eq : p.memOffset = q.2 * 2 ^ (A.minBits + q.1)
  size_eq : p.memBlockSize = 2 ^ (A.minBits + q.1)

/-- What a process was granted, and for which request. -/
def memory (p : Process) : ℕ × ℕ × ℕ × ℕ :=
  (p.memoryRequest, p.memPtr, p.memOffset, p.memBlockSize)

/-- Only the memory of a process matters. -/
theorem Holds.congr {A : BuddyArena} {q : ℕ × ℕ} (h : p.Holds A q) {p' : Process}
    (hp : p'.memory = p.memory) : p'.Holds A q := by
  simp only [memory, Prod.mk.injEq] at hp
  obtain ⟨hrequest, hptr, hoffset, hsize⟩ := hp
  exact ⟨hrequest ▸ h.fits, hptr ▸ h.ptr_eq, hoffset ▸ h.offset_eq, hsize ▸ h.size_eq⟩

/-- The bytes of the block that a process was granted, as offsets into the arena. -/
def memRange (p : Process) : Set ℕ := Set.Ico p.memOffset (p.memOffset + p.memBlockSize)

theorem Holds.memRange_eq {A : BuddyArena} {q : ℕ × ℕ} (h : p.Holds A q) :
    p.memRange = (A.blockAt q).span := by
  rw [memRange, h.offset_eq, h.size_eq]
  rfl

end Process

namespace Scheduler

variable {A : BuddyArena} {s : Scheduler}

/-! ## The invariant -/

/-- States, queues and memory agree; `W` is the waiting list, `L` and `Q` are the free
lists and the live blocks of the allocator, and `own` says which block a process holds. -/
structure Inv (A : BuddyArena) (s : Scheduler) (W : List ℕ) (L : FreeIndices)
    (Q : List (ℕ × ℕ)) (own : ℕ → ℕ × ℕ) : Prop where
  session : SessionInv A s.allocator L Q
  nodup : (s.readyQueue ++ W).Nodup
  mem_ready : ∀ i, i ∈ s.readyQueue ↔ i < s.allProcesses.length ∧ (s.proc i).state = .ready
  mem_waiting : ∀ i, i ∈ W ↔ i < s.allProcesses.length ∧ (s.proc i).state = .waiting
  owned : Q.Perm ((s.readyQueue ++ W).map own)
  holds : ∀ i ∈ s.readyQueue ++ W, (s.proc i).Holds A (own i)
  ok : ∀ i < s.allProcesses.length, (s.proc i).Ok
  quantum_pos : 1 ≤ s.quantum

variable {W : List ℕ} {L : FreeIndices} {Q : List (ℕ × ℕ)} {own : ℕ → ℕ × ℕ}

theorem Inv.queues (h : Inv A s W L Q own) : QueueInv s W :=
  ⟨h.nodup, h.mem_ready, h.mem_waiting, h.ok, h.quantum_pos⟩

/-- The invariant, from its part about the queues and its part about memory. -/
theorem QueueInv.inv (h : QueueInv s W) (hsession : SessionInv A s.allocator L Q)
    (howned : Q.Perm ((s.readyQueue ++ W).map own))
    (hholds : ∀ i ∈ s.readyQueue ++ W, (s.proc i).Holds A (own i)) : Inv A s W L Q own :=
  ⟨hsession, h.nodup, h.mem_ready, h.mem_waiting, howned, hholds, h.ok, h.quantum_pos⟩

theorem Inv.lt_length (h : Inv A s W L Q own) {i : ℕ} (hi : i ∈ s.readyQueue ++ W) :
    i < s.allProcesses.length :=
  h.queues.lt_length hi

/-- **Moving queued processes.**  A step that only rearranges the queues, and touches
neither the allocator nor the memory of a process, keeps the invariant. -/
theorem Inv.move (h : Inv A s W L Q own) {t : Scheduler} {W' : List ℕ} (ht : QueueInv t W')
    (halloc : t.allocator = s.allocator) (hperm : (t.readyQueue ++ W').Perm (s.readyQueue ++ W))
    (hmemory : ∀ i, (t.proc i).memory = (s.proc i).memory) : Inv A t W' L Q own := by
  refine ht.inv (halloc ▸ h.session) (h.owned.trans (hperm.map own).symm) (fun i hi => ?_)
  exact (h.holds i (hperm.mem_iff.mp hi)).congr (hmemory i)

/-- The invariant does not mention the log, the clock or the list field of the waiting
processes. -/
theorem Inv.congr (h : Inv A s W L Q own) {t : Scheduler} (halloc : t.allocator = s.allocator)
    (hquantum : t.quantum = s.quantum) (hprocs : t.allProcesses = s.allProcesses)
    (hready : t.readyQueue = s.readyQueue) : Inv A t W L Q own := by
  refine h.move (h.queues.congr hquantum hprocs hready) halloc (by rw [hready]) (fun i => ?_)
  rw [proc, hprocs, proc]

/-- A process that is stored back with the memory it had. -/
theorem memory_of_set {t : Scheduler} {i : ℕ} {p : Process} (hi : i < s.allProcesses.length)
    (hprocs : t.allProcesses = s.allProcesses.set i p) (hp : p.memory = (s.proc i).memory) (j : ℕ) :
    (t.proc j).memory = (s.proc j).memory := by
  by_cases hj : j = i
  · subst hj
    rw [proc_of_set hprocs hi, hp]
  · rw [proc_of_set_ne hprocs hj]

/-! ## Admission -/

/-- A granted request: the process holds the block that was handed out. -/
theorem holds_of_granted {a a' : BuddySession} {L' : FreeIndices} {Q' : List (ℕ × ℕ)}
    (h : SessionInv A a L Q) (h' : SessionInv A a' L' Q') (p : Process) {k : ℕ} (idx : ℕ)
    (hk : a.alloc.getOrder p.memoryRequest = k) (hmax : k ≤ A.maxOrder) :
    Process.Holds A { p with
      memPtr := A.addr k idx
      memOffset := a'.alloc.offsetOf (A.addr k idx)
      memBlockSize := a'.alloc.blockSizeForRequest p.memoryRequest
      state := .ready } (k, idx) := by
  have hmin : a.alloc.minBlockSize = a'.alloc.minBlockSize := by
    rw [h.represents.min_eq, h'.represents.min_eq]
  refine ⟨?_, rfl, h'.offsetOf_addr k idx, ?_⟩
  · have hle := h.getOrder_le_iff.mp hk.le
    rwa [BuddyArena.minBlockSize, ← pow_add] at hle
  · show a'.alloc.blockSizeForRequest p.memoryRequest = _
    rw [BuddyAllocator.blockSizeForRequest, ← BuddyAllocator.getOrder_congr hmin, hk,
      h'.represents.min_eq]
    exact A.shl_eq hmax

/-- **One admission** either leaves the scheduler as it is, because the process is not
pending or no list from its order on has a block, or admits the process. -/
theorem Inv.admitOne (h : Inv A s W L Q own) {i : ℕ} (hi : i < s.allProcesses.length) :
    (s.admitOne i = s ∧ ((s.proc i).state ≠ .new ∨ s.tick < (s.proc i).arrivalTick ∨
      ∀ k, s.allocator.alloc.getOrder (s.proc i).memoryRequest ≤ k → k ≤ A.maxOrder → L k = [])) ∨
    ((s.proc i).state = .new ∧ (s.admitOne i).readyQueue = s.readyQueue ++ [i] ∧
      (∃ ptr offset size, (s.admitOne i).allProcesses = s.allProcesses.set i { s.proc i with
        memPtr := ptr, memOffset := offset, memBlockSize := size, state := .ready }) ∧
      ∃ L' q own', Inv A (s.admitOne i) W L' (q :: Q) own') := by
  have hqueues := h.queues.admitOne hi
  unfold Scheduler.admitOne at hqueues ⊢
  by_cases hskip : (s.proc i).state ≠ .new ∨ (s.proc i).arrivalTick > s.tick
  · rw [if_pos hskip]
    exact .inl ⟨rfl, hskip.imp_right .inl⟩
  obtain ⟨hnew, -⟩ : (s.proc i).state = .new ∧ _ := by simpa [not_or] using hskip
  rw [if_neg hskip] at hqueues ⊢
  rcases h.session.allocate (s.proc i).memoryRequest with
    ⟨hnull, hsame, hnone⟩ | ⟨idx, L', hk, -, hptr, hfresh, hinv⟩
  · refine .inl ⟨?_, .inr (.inr hnone)⟩
    simp only [hnull, hsame, if_true]
  refine .inr ⟨hnew, ?_⟩
  set k := s.allocator.alloc.getOrder (s.proc i).memoryRequest with hkdef
  dsimp only at hqueues ⊢
  rw [hptr, if_neg (A.addr_ne_zero k idx)] at hqueues ⊢
  refine ⟨rfl, ⟨_, _, _, rfl⟩, L', (k, idx), Function.update own i (k, idx), ?_⟩
  have hholds := holds_of_granted h.session hinv (s.proc i) idx hkdef.symm hk
  have hqueued : i ∉ s.readyQueue ++ W := by simp [h.mem_ready, h.mem_waiting, hnew]
  have hperm := perm_readyQueue s.readyQueue W i
  refine hqueues.inv hinv ?_ ?_
  · -- the processes that were queued before keep their blocks
    have hmap : (s.readyQueue ++ W).map (Function.update own i (k, idx))
        = (s.readyQueue ++ W).map own := by
      apply List.map_congr_left
      intro j hj
      have hji : j ≠ i := fun heq => hqueued (heq ▸ hj)
      exact Function.update_of_ne hji _ _
    have hcons := (hperm.map (Function.update own i (k, idx))).symm
    rw [List.map_cons, Function.update_self, hmap] at hcons
    exact (h.owned.cons (k, idx)).trans hcons
  · intro j hj
    by_cases hji : j = i
    · subst hji
      simp only [proc, getD_set_self _ hi, Function.update_self]
      exact hholds
    · simp only [proc, getD_set_ne _ hji, Function.update_of_ne hji]
      apply h.holds j
      rcases List.mem_cons.mp (hperm.mem_iff.mp hj) with hji' | hj
      · exact absurd hji' hji
      · exact hj

/-- **Admission, round by round**: the invariant holds in every round, so that whatever
the rounds preserve beside it, admission preserves. -/
theorem Inv.admitPendingProcesses_induct (h : Inv A s W L Q own) {P : Scheduler → Prop} (hs : P s)
    (step : ∀ u L Q own i, Inv A u W L Q own → i < u.allProcesses.length → P u →
      P (u.admitOne i)) :
    P s.admitPendingProcesses ∧ ∃ L' Q' own', Inv A s.admitPendingProcesses W L' Q' own' := by
  refine Scheduler.admitPendingProcesses_induct s (P := fun u => P u ∧ ∃ L' Q' own', Inv A u W L' Q' own')
    ⟨hs, L, Q, own, h⟩ ?_
  rintro u i hi ⟨hu, L₁, Q₁, own₁, h₁⟩
  refine ⟨step u L₁ Q₁ own₁ i h₁ hi hu, ?_⟩
  rcases h₁.admitOne hi with ⟨hsame, -⟩ | ⟨-, -, -, L₂, q, own₂, h₂⟩
  · exact ⟨L₁, Q₁, own₁, hsame.symm ▸ h₁⟩
  · exact ⟨L₂, q :: Q₁, own₂, h₂⟩

/-- Admission keeps the invariant. -/
theorem Inv.admitPendingProcesses (h : Inv A s W L Q own) :
    ∃ L' Q' own', Inv A s.admitPendingProcesses W L' Q' own' :=
  (h.admitPendingProcesses_induct (P := fun _ => True) trivial
    (fun _ _ _ _ _ _ _ _ => trivial)).2

/-! ## The countdown of blocked processes -/

theorem Inv.serviceIoQueue (h : Inv A s s.waitingList L Q own) :
    Inv A s.serviceIoQueue s.serviceIoQueue.waitingList L Q own := by
  obtain ⟨-, -, hproc⟩ := h.queues.serviceIoQueue_spec
  refine h.move h.queues.serviceIoQueue (serviceLoop_frame s.waitingList s).2.2.2
    h.queues.serviceIoQueue_perm (fun i => ?_)
  rw [hproc]
  split_ifs <;> rfl

/-! ## The CPU slice -/

/-- **Termination** of the head of the ready queue: the allocator takes its block back. -/
theorem Inv.terminate (h : Inv A s W L Q own) {idx : ℕ} {queue : List ℕ}
    (hq : s.readyQueue = idx :: queue) :
    ∃ a L', s.allocator.free (s.proc idx).memPtr (s.proc idx).memBlockSize = some a ∧
      ∀ t : Scheduler, QueueInv t W → t.allocator = a → t.readyQueue = queue →
        (∀ j, (t.proc j).memory = (s.proc j).memory) →
        Inv A t W L' (Q.erase (own idx)) own := by
  have hmem : idx ∈ s.readyQueue ++ W := by simp [hq]
  have hholds := h.holds idx hmem
  have howned : Q.Perm (own idx :: (queue ++ W).map own) := by simpa [hq] using h.owned
  -- the block is freed by its rounded size, which has the order that it was granted with
  have horder : s.allocator.alloc.getOrder (s.proc idx).memBlockSize = (own idx).1 := by
    rw [hholds.size_eq, h.session.getOrder_blockSize]
  have hlive : (⟨(s.proc idx).memPtr, s.allocator.alloc.getOrder (s.proc idx).memBlockSize⟩ : LiveBlock)
      ∈ s.allocator.live := by
    rw [h.session.live_eq, horder, hholds.ptr_eq]
    exact List.mem_map_of_mem (howned.mem_iff.mpr (List.mem_cons_self ..))
  obtain ⟨i, a, -, hptr, hfree, hinv⟩ := h.session.free hlive
  rw [horder] at hptr hinv
  obtain rfl : i = (own idx).2 := A.addr_injective _ (hptr.symm.trans hholds.ptr_eq)
  refine ⟨a, _, hfree, fun t ht halloc hready hmemory => ht.inv (halloc ▸ hinv) ?_ ?_⟩
  · have herase := howned.erase (own idx)
    rw [List.erase_cons_head] at herase
    rwa [hready]
  · intro j hj
    refine (h.holds j ?_).congr (hmemory j)
    rw [hready] at hj
    rw [hq, List.cons_append]
    exact List.mem_cons_of_mem _ hj

/-- **A CPU slice** returns and keeps the invariant, whichever way it ends. -/
theorem Inv.runOneCpuSlice (h : Inv A s s.waitingList L Q own) :
    ∃ t, s.runOneCpuSlice = some t ∧ ∃ L' Q', Inv A t t.waitingList L' Q' own := by
  match hq : s.readyQueue with
  | [] => exact ⟨s, by rw [Scheduler.runOneCpuSlice, hq], L, Q, h⟩
  | idx :: queue =>
    have hlt := h.lt_length (i := idx) (by simp [hq])
    have hback : (queue ++ [idx] ++ s.waitingList).Perm (s.readyQueue ++ s.waitingList) := by
      rw [hq]
      exact perm_readyQueue queue s.waitingList idx
    have hqueues := fun t => h.queues.runOneCpuSlice (t := t)
    obtain ⟨rem, hrem⟩ : ∃ rem, rem = (s.proc idx).loaded - min s.quantum (s.proc idx).loaded :=
      ⟨_, rfl⟩
    rcases runOneCpuSlice_cons hq rfl hrem with ⟨-, log, hslice⟩ | ⟨-, -, log, hslice⟩ |
      ⟨-, -, -, log, hslice⟩ | ⟨-, -, -, log, hslice⟩
    · -- preempted
      exact ⟨_, hslice, L, Q, h.move (hqueues _ hslice) rfl hback (memory_of_set hlt rfl rfl)⟩
    · -- blocked
      refine ⟨_, hslice, L, Q, h.move (hqueues _ hslice) rfl ?_ (memory_of_set hlt rfl rfl)⟩
      rw [hq, ← List.append_assoc]
      exact List.perm_append_singleton _ _
    · -- on to the next burst
      exact ⟨_, hslice, L, Q, h.move (hqueues _ hslice) rfl hback (memory_of_set hlt rfl rfl)⟩
    · -- terminated
      obtain ⟨a, L', hfree, hinv⟩ := h.terminate hq
      rw [hfree, Option.map_some] at hslice
      exact ⟨_, hslice, L', _, hinv _ (hqueues _ hslice) rfl rfl (memory_of_set hlt rfl rfl)⟩

/-! ## Ticks and runs -/

/-- **A tick** returns and keeps the invariant. -/
theorem Inv.tickOnce (h : Inv A s s.waitingList L Q own) :
    ∃ t, s.tickOnce = some t ∧ ∃ L' Q' own', Inv A t t.waitingList L' Q' own' := by
  obtain ⟨L₁, Q₁, own₁, h₁⟩ := h.admitPendingProcesses
  rw [← waitingList_admitPendingProcesses s] at h₁
  obtain ⟨t, ht, L₂, Q₂, h₂⟩ := h₁.serviceIoQueue.runOneCpuSlice
  exact ⟨t, ht, L₂, Q₂, own₁, h₂⟩

/-- Every run of the loop returns, and every tick ends in a state that satisfies the
invariant. -/
theorem Inv.runLoop (n : ℕ) (h : Inv A s s.waitingList L Q own) :
    (s.runLoop n).isSome ∧
      ∀ t ∈ ticksOfLoop n s, ∃ L Q own, Inv A t t.waitingList L Q own := by
  induction n generalizing s L Q own with
  | zero => simp [Scheduler.runLoop, ticksOfLoop]
  | succ n ih =>
    obtain ⟨t, ht, L', Q', own', h'⟩ := h.tickOnce
    have hnext := ih (s := { t with tick := t.tick + 1 }) (h'.congr rfl rfl rfl rfl)
    simp only [Scheduler.runLoop, ticksOfLoop, ht]
    split_ifs with hall
    · refine ⟨rfl, fun u hu => ?_⟩
      obtain rfl : u = t := by simpa using hu
      exact ⟨_, _, _, h'⟩
    · refine ⟨hnext.1, fun u hu => ?_⟩
      rcases List.mem_cons.mp hu with rfl | hu
      · exact ⟨_, _, _, h'⟩
      · exact hnext.2 u hu

/-- A scheduler that has been given its processes satisfies the invariant. -/
theorem inv_create (A : BuddyArena) (mem : Mem) {quantum : ℤ} (hquantum : 1 ≤ quantum)
    {ps : List Process} (hps : ∀ p ∈ ps, p.WellFormed) :
    Inv A (Scheduler.create (A.start mem) quantum ps) []
      (fun k => if k = A.maxOrder then [0] else []) [] (fun _ => (0, 0)) := by
  refine (queueInv_create (A.start mem) hquantum hps).inv ?_ ?_ ?_
  · rw [allProcesses_create]
    exact sessionInv_start A mem
  · rw [allProcesses_create]
    exact List.Perm.refl []
  · rw [allProcesses_create]
    simp

/-! ## What an observer sees between ticks -/

/-- The processes that hold memory. -/
def residents (s : Scheduler) : List Process :=
  s.allProcesses.filter (fun p => p.state = .ready ∨ p.state = .waiting)

/-- The states of the processes, the queues and the allocator agree. -/
structure InStep (A : BuddyArena) (s : Scheduler) : Prop where
  not_running : ∀ p ∈ s.allProcesses, p.state ≠ .running
  indices : ∀ i ∈ s.readyQueue ++ s.waitingList, i < s.allProcesses.length
  ready : ∀ i < s.allProcesses.length, (s.proc i).state = .ready →
    s.readyQueue.count i = 1 ∧ i ∉ s.waitingList
  waiting : ∀ i < s.allProcesses.length, (s.proc i).state = .waiting →
    s.waitingList.count i = 1 ∧ i ∉ s.readyQueue
  idle : ∀ i < s.allProcesses.length, (s.proc i).state = .new ∨ (s.proc i).state = .terminated →
    i ∉ s.readyQueue ∧ i ∉ s.waitingList
  live : (s.allocator.liveBlocks.map (fun b => (b.offset, A.minBlockSize <<< b.order))).Perm
    (s.residents.map (fun p => (p.memOffset, p.memBlockSize)))
  disjoint : s.residents.Pairwise (fun p p' => Disjoint p.memRange p'.memRange)
  inside : ∀ p ∈ s.residents, p.memRange ⊆ Set.Ico 0 A.totalSize
  long_enough : ∀ p ∈ s.residents, p.memoryRequest ≤ p.memBlockSize
  all_freed : (∀ p ∈ s.allProcesses, p.state = .terminated) →
    ∃ F, s.allocator.FreeListsAre F ∧ F A.maxOrder = [A.base] ∧ ∀ k < A.maxOrder, F k = []

/-- The processes that hold memory are the queued ones. -/
theorem Inv.residents_perm (h : Inv A s W L Q own) :
    s.residents.Perm ((s.readyQueue ++ W).map s.proc) := by
  have hall : s.allProcesses = (List.range s.allProcesses.length).map s.proc := by
    apply List.ext_getElem
    · simp
    · intro i hi _
      simp [proc, hi]
  have hfilter : s.residents = ((List.range s.allProcesses.length).filter (fun i =>
      (s.proc i).state = .ready ∨ (s.proc i).state = .waiting)).map s.proc := by
    rw [residents, hall, List.filter_map]
    simp only [List.length_map, List.length_range, Function.comp_def]
  rw [hfilter]
  apply List.Perm.map
  rw [List.perm_ext_iff_of_nodup (List.nodup_range.filter _) h.nodup]
  intro i
  rw [List.mem_append, h.mem_ready, h.mem_waiting, List.mem_filter, List.mem_range, ← and_or_left]
  simp

theorem Inv.inStep (h : Inv A s s.waitingList L Q own) : InStep A s := by
  obtain ⟨hready, hwaiting, hdisj⟩ := List.nodup_append.mp h.nodup
  have hperm := h.residents_perm
  have hresident : ∀ p ∈ s.residents,
      ∃ i, own i ∈ Q ∧ s.proc i = p ∧ (s.proc i).Holds A (own i) := by
    intro p hp
    obtain ⟨i, hi, hip⟩ := List.mem_map.mp (hperm.mem_iff.mp hp)
    exact ⟨i, h.owned.mem_iff.mpr (List.mem_map_of_mem hi), hip, h.holds i hi⟩
  have htiling := h.session.lists.system.tiling
  refine ⟨?_, fun i hi => h.lt_length hi, ?_, ?_, ?_, ?_, ?_, ?_, ?_, ?_⟩
  · intro p hp
    obtain ⟨i, hi, rfl⟩ := exists_proc_of_mem hp
    exact (h.ok i hi).not_running
  · intro i hi hstate
    have hmem := (h.mem_ready i).mpr ⟨hi, hstate⟩
    exact ⟨List.count_eq_one_of_mem hready hmem, fun hw => hdisj i hmem i hw rfl⟩
  · intro i hi hstate
    have hmem := (h.mem_waiting i).mpr ⟨hi, hstate⟩
    exact ⟨List.count_eq_one_of_mem hwaiting hmem, fun hr => hdisj i hr i hmem rfl⟩
  · intro i hi hstate
    rw [h.mem_ready, h.mem_waiting]
    rcases hstate with hstate | hstate <;> simp [hstate]
  · have hlive : s.allocator.liveBlocks.map (fun b => (b.offset, A.minBlockSize <<< b.order))
        = Q.map (fun q => (q.2 * 2 ^ (A.minBits + q.1), 2 ^ (A.minBits + q.1))) := by
      rw [h.session.liveBlocks_eq, List.map_map]
      apply List.map_congr_left
      intro q _
      simp [BuddyArena.buddyBlock, A.shiftLeft_eq]
    have hblocks : ((s.readyQueue ++ s.waitingList).map own).map
          (fun q => (q.2 * 2 ^ (A.minBits + q.1), 2 ^ (A.minBits + q.1)))
        = ((s.readyQueue ++ s.waitingList).map s.proc).map
          (fun p => (p.memOffset, p.memBlockSize)) := by
      rw [List.map_map, List.map_map]
      apply List.map_congr_left
      intro i hi
      have hholds := h.holds i hi
      simp [hholds.offset_eq, hholds.size_eq]
    rw [hlive]
    exact ((h.owned.map _).trans (List.Perm.of_eq hblocks)).trans (hperm.map _).symm
  · -- two queued processes hold different blocks of the tiling
    have hpair : ((s.readyQueue ++ s.waitingList).map s.proc).Pairwise
        (fun p p' => Disjoint p.memRange p'.memRange) := by
      rw [List.pairwise_map]
      have hown := h.owned.nodup_iff.mp h.session.nodup
      refine (List.pairwise_map.mp hown).imp_of_mem (fun {i j} hi hj hne => ?_)
      have hi' := h.owned.mem_iff.mpr (List.mem_map_of_mem hi)
      have hj' := h.owned.mem_iff.mpr (List.mem_map_of_mem hj)
      rw [(h.holds i hi).memRange_eq, (h.holds j hj).memRange_eq]
      exact htiling.disjoint (.inr (A.mem_liveSet.mpr hi')) (.inr (A.mem_liveSet.mpr hj'))
        (fun heq => hne (A.blockAt_injective heq))
    exact (hperm.pairwise_iff (fun {_ _} hd => hd.symm)).mpr hpair
  · intro p hp
    obtain ⟨i, hi, rfl, hholds⟩ := hresident p hp
    rw [hholds.memRange_eq, ← A.whole_span]
    exact htiling.subset _ (.inr (A.mem_liveSet.mpr hi))
  · intro p hp
    obtain ⟨i, -, rfl, hholds⟩ := hresident p hp
    rw [hholds.size_eq]
    exact hholds.fits
  · intro hterm
    have hnone : s.residents = [] := by
      rw [residents, List.filter_eq_nil_iff]
      intro p hp
      simp [hterm p hp]
    rw [hnone, List.nil_perm, List.map_eq_nil_iff] at hperm
    have hQ : Q = [] := by simpa [hperm] using h.owned
    have hF : s.allocator.FreeListsAre (fun k => (L k).map (A.addr k)) :=
      h.session.freeListsAre_iff.mpr (fun _ _ => rfl)
    exact ⟨_, hF, h.session.free_of_live_nil (by rw [h.session.live_eq, hQ]; rfl) hF⟩

end Scheduler

/-- **The scheduler keeps process states, queues and memory in step.**  Every run over
well-formed processes returns, and at the end of every tick the queues hold exactly the
`READY` and the `WAITING` processes, each once; the live blocks of the allocator are
exactly theirs; and once all processes are `TERMINATED` the arena is one free block. -/
theorem scheduler_in_step (A : BuddyArena) (mem : Mem) (quantum maxTicks : ℤ)
    (ps : List Process) (hquantum : 1 ≤ quantum) (hps : ∀ p ∈ ps, p.WellFormed) :
    ((Scheduler.create (A.start mem) quantum ps).run maxTicks).isSome ∧
      ∀ t ∈ (Scheduler.create (A.start mem) quantum ps).ticksOfRun maxTicks,
        Scheduler.InStep A t := by
  have hinit := Scheduler.inv_create A mem hquantum hps
  have hwaiting : (Scheduler.create (A.start mem) quantum ps).waitingList = [] := by
    rw [Scheduler.allProcesses_create]
  rw [← hwaiting] at hinit
  have hloop := (hinit.congr (t := { Scheduler.create (A.start mem) quantum ps with tick := 0 })
    rfl rfl rfl rfl).runLoop maxTicks.toNat
  refine ⟨hloop.1, fun t ht => ?_⟩
  obtain ⟨L, Q, own, h⟩ := hloop.2 t ht
  exact h.inStep

/-- Three processes that do not fit the test arena together. -/
def crowd : List Process :=
  [{ id := 1, name := "editor", arrivalTick := 0, memoryRequest := 300
     bursts := [⟨3, 2⟩, ⟨1, 0⟩] },
    { id := 2, name := "compiler", arrivalTick := 0, memoryRequest := 500, bursts := [⟨2, 0⟩] },
    { id := 3, name := "indexer", arrivalTick := 1, memoryRequest := 1024, bursts := [⟨2, 0⟩] }]

theorem crowd_wellFormed : ∀ p ∈ crowd, p.WellFormed := by
  intro p hp
  simp only [crowd, List.mem_cons, List.not_mem_nil, or_false] at hp
  rcases hp with rfl | rfl | rfl <;> constructor <;> simp

/-- The indexer is still waiting for memory when the compiler has left. -/
theorem crowd_in_step :
    (∃ t ∈ (Scheduler.create (testArena.start (fun _ => 0)) 2 crowd).ticksOfRun 4,
        t.readyQueue = [0] ∧ (t.proc 2).state = .new) ∧
      ∀ t ∈ (Scheduler.create (testArena.start (fun _ => 0)) 2 crowd).ticksOfRun 4,
        Scheduler.InStep testArena t :=
  ⟨by decide +kernel,
    (scheduler_in_step testArena (fun _ => 0) 2 4 crowd (by norm_num) crowd_wellFormed).2⟩

end OS
