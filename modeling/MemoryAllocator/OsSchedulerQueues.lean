/-
# The queues of the scheduler

`Scheduler.QueueInv` is the part of the scheduler's invariant that does not mention
memory: the ready queue holds exactly the `READY` processes and the waiting list exactly
the `WAITING` ones, each once, and every process is between two phases of a tick.  It
holds over any allocator, whatever that grants or refuses.

A phase stores back one process at a time and rearranges the queues so that they follow
its state.  `QueueInv.update` says that this keeps the invariant; admission, the
countdown of the blocked processes and the four ways out of a CPU slice are instances.
-/
import MemoryAllocator.OsScheduler

namespace OS

open Memory

/-! ## Processes -/

/-- A process as it is given to `AddProcess`: fresh, with at least one burst, every burst
with CPU work, and no I/O after the last one. -/
structure Process.WellFormed (p : Process) : Prop where
  state_eq : p.state = .new
  currentBurst_eq : p.currentBurst = 0
  remainingCpu_eq : p.remainingCpuTicks = 0
  remainingIo_eq : p.remainingIoTicks = 0
  bursts_ne : p.bursts ≠ []
  cpu_pos : ∀ b ∈ p.bursts, 1 ≤ b.cpuTicks
  last_io : ∀ b, p.bursts.getLast? = some b → b.ioTicks = 0

/-- A process between two phases of a tick. -/
structure Process.Ok (p : Process) : Prop where
  not_running : p.state ≠ .running
  cpu_pos : ∀ b ∈ p.bursts, 1 ≤ b.cpuTicks
  last_io : ∀ b, p.bursts.getLast? = some b → b.ioTicks = 0
  burst_lt : p.state ≠ .terminated → p.currentBurst < p.bursts.length
  cpu_nonneg : 0 ≤ p.remainingCpuTicks
  waiting_io : p.state = .waiting → 1 ≤ p.remainingIoTicks ∧ p.remainingCpuTicks = 0

theorem Process.WellFormed.ok {p : Process} (h : p.WellFormed) : p.Ok where
  not_running := by simp [h.state_eq]
  cpu_pos := h.cpu_pos
  last_io := h.last_io
  burst_lt := fun _ => by
    rw [h.currentBurst_eq]
    exact List.length_pos_iff.mpr h.bursts_ne
  cpu_nonneg := h.remainingCpu_eq.ge
  waiting_io := by simp [h.state_eq]

namespace Process

/-- What a process was given with. -/
def program (p : Process) : ℤ × String × ℤ × ℕ × List Burst :=
  (p.id, p.name, p.arrivalTick, p.memoryRequest, p.bursts)

/-- The burst a process is in. -/
def burst (p : Process) : Burst := p.bursts.getD p.currentBurst default

/-- The CPU ticks left in the burst when the process is dispatched. -/
def loaded (p : Process) : ℤ :=
  if p.remainingCpuTicks ≤ 0 then p.burst.cpuTicks else p.remainingCpuTicks

/-- A blocked process after one more tick of its I/O. -/
def serviced (p : Process) : Process :=
  { p with
    remainingIoTicks := p.remainingIoTicks - 1
    state := if p.remainingIoTicks - 1 ≤ 0 then .ready else p.state }

variable {p : Process}

theorem burst_mem (h : p.currentBurst < p.bursts.length) : p.burst ∈ p.bursts := by
  rw [burst, List.getD_eq_getElem _ _ h]
  exact List.getElem_mem h

/-- Dispatch finds at least one tick to run. -/
theorem Ok.loaded_pos (h : p.Ok) (hstate : p.state ≠ .terminated) : 1 ≤ p.loaded := by
  rw [loaded]
  split_ifs with hrem
  · exact h.cpu_pos _ (burst_mem (h.burst_lt hstate))
  · omega

/-- A burst with I/O is not the last one. -/
theorem Ok.lt_of_io (h : p.Ok) (hstate : p.state ≠ .terminated) (hio : 0 < p.burst.ioTicks) :
    p.currentBurst + 1 < p.bursts.length := by
  have hlt := h.burst_lt hstate
  by_contra hcon
  have hlast : p.bursts.getLast? = some p.burst := by
    rw [List.getLast?_eq_getElem?, burst, List.getD_eq_getElem _ _ hlt,
      show p.bursts.length - 1 = p.currentBurst by omega]
    exact List.getElem?_eq_getElem hlt
  rw [h.last_io _ hlast] at hio
  exact lt_irrefl 0 hio

/-- A process whose wait is not over waits on, one that is done with it is ready. -/
theorem Ok.serviced (h : p.Ok) (hwait : p.state = .waiting) :
    p.serviced.Ok ∧ (p.serviced.state = .ready ↔ p.remainingIoTicks ≤ 1) ∧
      (p.serviced.state = .waiting ↔ 1 < p.remainingIoTicks) := by
  obtain ⟨hio, hcpu⟩ := h.waiting_io hwait
  have hlt := h.burst_lt (by simp [hwait])
  by_cases hone : p.remainingIoTicks ≤ 1
  · have hstate : p.serviced.state = .ready := if_pos (by omega)
    have hnot : ¬ 1 < p.remainingIoTicks := by omega
    refine ⟨⟨by simp [hstate], h.cpu_pos, h.last_io, fun _ => hlt, h.cpu_nonneg,
      by simp [hstate]⟩, by simp [hstate, hone], by simp [hstate, hnot]⟩
  · have hstate : p.serviced.state = .waiting := by
      rw [← hwait]
      exact if_neg (by omega)
    have hmore : 1 < p.remainingIoTicks := by omega
    refine ⟨⟨by simp [hstate], h.cpu_pos, h.last_io, fun _ => hlt, h.cpu_nonneg,
      fun _ => ⟨?_, hcpu⟩⟩, by simp [hstate, hone], by simp [hstate, hmore]⟩
    show 1 ≤ p.remainingIoTicks - 1
    omega

end Process

namespace Scheduler

/-! ## The ways out of a CPU slice -/

variable {s : Scheduler}

/-- **What a CPU slice can do** to the head of the ready queue: preempt it, block it, move
it on to its next burst, or terminate it. -/
theorem runOneCpuSlice_cons {idx : ℕ} {queue : List ℕ} (hq : s.readyQueue = idx :: queue)
    {p : Process} (hp : p = s.proc idx) {rem : ℤ}
    (hrem : rem = p.loaded - min s.quantum p.loaded) :
    (0 < rem ∧ ∃ log, s.runOneCpuSlice = some { s with
        allProcesses := s.allProcesses.set idx { p with
          state := .ready, remainingCpuTicks := rem }
        readyQueue := queue ++ [idx], log := log }) ∨
    (rem ≤ 0 ∧ 0 < p.burst.ioTicks ∧ ∃ log, s.runOneCpuSlice = some { s with
        allProcesses := s.allProcesses.set idx { p with
          state := .waiting, remainingCpuTicks := rem
          remainingIoTicks := p.burst.ioTicks, currentBurst := p.currentBurst + 1 }
        readyQueue := queue, waitingList := s.waitingList ++ [idx], log := log }) ∨
    (rem ≤ 0 ∧ p.burst.ioTicks ≤ 0 ∧ p.currentBurst + 1 < p.bursts.length ∧
      ∃ log, s.runOneCpuSlice = some { s with
        allProcesses := s.allProcesses.set idx { p with
          state := .ready, remainingCpuTicks := rem, currentBurst := p.currentBurst + 1 }
        readyQueue := queue ++ [idx], log := log }) ∨
    (rem ≤ 0 ∧ p.burst.ioTicks ≤ 0 ∧ p.bursts.length ≤ p.currentBurst + 1 ∧
      ∃ log, s.runOneCpuSlice = (s.allocator.free p.memPtr p.memBlockSize).map (fun a => { s with
        allocator := a
        allProcesses := s.allProcesses.set idx { p with
          state := .terminated, remainingCpuTicks := rem, currentBurst := p.currentBurst + 1 }
        readyQueue := queue, log := log })) := by
  subst hp hrem
  -- a burst that has not begun is loaded first; the four ways out are the same afterwards
  by_cases hload : (s.proc idx).remainingCpuTicks ≤ 0
  all_goals
    simp only [runOneCpuSlice, hq, hload, if_true, if_false, Process.loaded, Process.burst,
      Process.hasMoreBursts, decide_eq_true_eq]
    split_ifs with h1 h2 h3
    · exact .inl ⟨h1, _, rfl⟩
    · exact .inr (.inl ⟨not_lt.mp h1, h2, _, rfl⟩)
    · exact .inr (.inr (.inl ⟨not_lt.mp h1, not_lt.mp h2, h3, _, rfl⟩))
    · exact .inr (.inr (.inr ⟨not_lt.mp h1, not_lt.mp h2, not_lt.mp h3, _, rfl⟩))

/-! ## The invariant -/

/-- The queues follow the states of the processes; `W` is the waiting list. -/
structure QueueInv (s : Scheduler) (W : List ℕ) : Prop where
  nodup : (s.readyQueue ++ W).Nodup
  mem_ready : ∀ i, i ∈ s.readyQueue ↔ i < s.allProcesses.length ∧ (s.proc i).state = .ready
  mem_waiting : ∀ i, i ∈ W ↔ i < s.allProcesses.length ∧ (s.proc i).state = .waiting
  ok : ∀ i < s.allProcesses.length, (s.proc i).Ok
  quantum_pos : 1 ≤ s.quantum

variable {W : List ℕ}

theorem QueueInv.lt_length (h : QueueInv s W) {i : ℕ} (hi : i ∈ s.readyQueue ++ W) :
    i < s.allProcesses.length := by
  rcases List.mem_append.mp hi with hi | hi
  · exact ((h.mem_ready i).mp hi).1
  · exact ((h.mem_waiting i).mp hi).1

/-- The invariant does not mention the allocator, the log, the clock or the list field of
the waiting processes. -/
theorem QueueInv.congr (h : QueueInv s W) {t : Scheduler} (hquantum : t.quantum = s.quantum)
    (hprocs : t.allProcesses = s.allProcesses) (hready : t.readyQueue = s.readyQueue) :
    QueueInv t W := by
  have hproc : ∀ i, t.proc i = s.proc i := fun i => by rw [proc, proc, hprocs]
  refine ⟨hready ▸ h.nodup, ?_, ?_, ?_, hquantum ▸ h.quantum_pos⟩
  · intro i
    rw [hready, hprocs, hproc]
    exact h.mem_ready i
  · intro i
    rw [hprocs, hproc]
    exact h.mem_waiting i
  · intro i hi
    rw [hproc]
    exact h.ok i (hprocs ▸ hi)

/-- **Storing back a process.**  Changing one process and rearranging the two queues so
that they follow its state keeps the invariant. -/
theorem QueueInv.update (h : QueueInv s W) {i : ℕ} (hi : i < s.allProcesses.length) {p : Process}
    (hok : p.Ok) {R W' : List ℕ} (hnodup : (R ++ W').Nodup)
    (hR : ∀ j, j ∈ R ↔ if j = i then p.state = .ready else j ∈ s.readyQueue)
    (hW : ∀ j, j ∈ W' ↔ if j = i then p.state = .waiting else j ∈ W) {t : Scheduler}
    (hquantum : t.quantum = s.quantum) (hprocs : t.allProcesses = s.allProcesses.set i p)
    (hready : t.readyQueue = R) : QueueInv t W' := by
  have hself : t.proc i = p := proc_of_set hprocs hi
  have hother : ∀ j, j ≠ i → t.proc j = s.proc j := fun j hj => proc_of_set_ne hprocs hj
  have hlen : t.allProcesses.length = s.allProcesses.length := by simp [hprocs]
  refine ⟨hready ▸ hnodup, ?_, ?_, ?_, hquantum ▸ h.quantum_pos⟩
  · intro j
    rw [hready, hR, hlen]
    by_cases hj : j = i
    · subst hj
      rw [if_pos rfl, hself]
      exact ⟨fun hs => ⟨hi, hs⟩, fun hs => hs.2⟩
    · rw [if_neg hj, hother j hj]
      exact h.mem_ready j
  · intro j
    rw [hW, hlen]
    by_cases hj : j = i
    · subst hj
      rw [if_pos rfl, hself]
      exact ⟨fun hs => ⟨hi, hs⟩, fun hs => hs.2⟩
    · rw [if_neg hj, hother j hj]
      exact h.mem_waiting j
  · intro j hj
    by_cases hji : j = i
    · subst hji
      rw [hself]
      exact hok
    · rw [hother j hji]
      exact h.ok j (hlen ▸ hj)

/-! ## Admission -/

/-- **What an admission can do**: at most ask the allocator, or admit the process. -/
theorem admitOne_cases (s : Scheduler) (i : ℕ) :
    (∃ a, s.admitOne i = { s with allocator := a }) ∨
    ((s.proc i).state = .new ∧ ∃ a ptr offset size created granted,
      s.admitOne i = { s with
        allocator := a
        allProcesses := s.allProcesses.set i { s.proc i with
          memPtr := ptr, memOffset := offset, memBlockSize := size, state := .ready }
        readyQueue := s.readyQueue ++ [i]
        log := s.log ++ [⟨s.tick, "process_created", (s.proc i).id, created⟩,
          ⟨s.tick, "memory_allocated", (s.proc i).id, granted⟩,
          ⟨s.tick, "process_ready", (s.proc i).id, []⟩] }) := by
  unfold Scheduler.admitOne
  dsimp only
  split_ifs with hskip hnull
  · exact .inl ⟨s.allocator, rfl⟩
  · exact .inl ⟨_, rfl⟩
  · have hnew : (s.proc i).state = .new := by
      by_contra hcon
      exact hskip (.inl hcon)
    exact .inr ⟨hnew, _, _, _, _, _, _, rfl⟩

/-- A process that joins the ready queue. -/
theorem perm_readyQueue (queue W : List ℕ) (i : ℕ) :
    (queue ++ [i] ++ W).Perm (i :: (queue ++ W)) := by
  rw [List.append_assoc, List.singleton_append]
  exact List.perm_middle

theorem QueueInv.admitOne (h : QueueInv s W) {i : ℕ} (hi : i < s.allProcesses.length) :
    QueueInv (s.admitOne i) W := by
  rcases admitOne_cases s i with ⟨a, heq⟩ | ⟨hnew, a, ptr, offset, size, created, granted, heq⟩
  · rw [heq]
    exact h.congr rfl rfl rfl
  · have hok := h.ok i hi
    have hready : i ∉ s.readyQueue := by simp [h.mem_ready, hnew]
    have hwaiting : i ∉ W := by simp [h.mem_waiting, hnew]
    have hperm := perm_readyQueue s.readyQueue W i
    rw [heq]
    refine h.update hi (p := { s.proc i with
        memPtr := ptr, memOffset := offset, memBlockSize := size, state := .ready })
      ⟨by simp, hok.cpu_pos, hok.last_io, fun _ => hok.burst_lt (by simp [hnew]),
        hok.cpu_nonneg, by simp⟩ ?_ ?_ ?_ rfl rfl rfl
    · rw [hperm.nodup_iff, List.nodup_cons]
      exact ⟨by simp [hready, hwaiting], h.nodup⟩
    · intro j
      by_cases hj : j = i <;> simp [hj]
    · intro j
      by_cases hj : j = i <;> simp [hj, hwaiting]

theorem length_admitOne (s : Scheduler) (i : ℕ) :
    (s.admitOne i).allProcesses.length = s.allProcesses.length := by
  rcases admitOne_cases s i with ⟨a, heq⟩ | ⟨-, a, ptr, offset, size, created, granted, heq⟩
  · rw [heq]
  · rw [heq]
    exact List.length_set

/-- **Admission, round by round**: what every round preserves, admission preserves. -/
theorem admitPendingProcesses_induct (s : Scheduler) {P : Scheduler → Prop} (hs : P s)
    (step : ∀ u i, i < u.allProcesses.length → P u → P (u.admitOne i)) :
    P s.admitPendingProcesses := by
  -- the loop runs over indices, and no round changes the number of processes
  have hfold : ∀ (is : List ℕ) (s : Scheduler), P s → (∀ i ∈ is, i < s.allProcesses.length) →
      P (is.foldl Scheduler.admitOne s) := by
    intro is
    induction is with
    | nil => exact fun s hs _ => hs
    | cons i is ih =>
      intro s hs his
      apply ih _ (step s i (his i (List.mem_cons_self ..)) hs)
      intro j hj
      rw [length_admitOne]
      exact his j (List.mem_cons_of_mem _ hj)
  exact hfold _ s hs (fun i hi => List.mem_range.mp hi)

theorem waitingList_admitPendingProcesses (s : Scheduler) :
    s.admitPendingProcesses.waitingList = s.waitingList := by
  apply admitPendingProcesses_induct s (P := fun u => u.waitingList = s.waitingList) rfl
  intro u i _ hu
  rcases admitOne_cases u i with ⟨a, heq⟩ | ⟨-, a, ptr, offset, size, created, granted, heq⟩
  · rw [heq]
    exact hu
  · rw [heq]
    exact hu

theorem QueueInv.admitPendingProcesses (h : QueueInv s W) :
    QueueInv s.admitPendingProcesses W :=
  admitPendingProcesses_induct s (P := fun u => QueueInv u W) h (fun _ _ hi hu => hu.admitOne hi)

/-! ## The countdown of blocked processes -/

/-- **What a round of the countdown can do**: let the first process of the list change the
queue, or keep it waiting. -/
theorem serviceLoop_cons (i : ℕ) (rest : List ℕ) (s : Scheduler) :
    ((s.proc i).remainingIoTicks ≤ 1 ∧ ∃ t, t = { s with
        allProcesses := s.allProcesses.set i (s.proc i).serviced
        readyQueue := s.readyQueue ++ [i]
        log := s.log ++ [⟨s.tick, "io_ack", (s.proc i).id, []⟩,
          ⟨s.tick, "process_ready", (s.proc i).id, []⟩] } ∧
      serviceLoop (i :: rest) s = serviceLoop rest t) ∨
    (1 < (s.proc i).remainingIoTicks ∧ ∃ t, t = s.setProc i (s.proc i).serviced ∧
      serviceLoop (i :: rest) s = (i :: (serviceLoop rest t).1, (serviceLoop rest t).2)) := by
  rw [serviceLoop]
  dsimp only
  split_ifs with hdone
  · refine .inl ⟨by omega, _, rfl, ?_⟩
    simp only [Process.serviced, if_pos hdone]
  · refine .inr ⟨by omega, _, rfl, ?_⟩
    simp only [Process.serviced, if_neg hdone]

/-- The loop takes one tick off the wait of every process of the list, and the processes
whose wait is over change the list in order. -/
theorem serviceLoop_spec {rest : List ℕ} (hnodup : rest.Nodup)
    (hrest : ∀ i ∈ rest, i < s.allProcesses.length) :
    (serviceLoop rest s).1 = rest.filter (fun i => 1 < (s.proc i).remainingIoTicks) ∧
    (serviceLoop rest s).2.readyQueue
      = s.readyQueue ++ rest.filter (fun i => (s.proc i).remainingIoTicks ≤ 1) ∧
    (∀ j, (serviceLoop rest s).2.proc j = if j ∈ rest then (s.proc j).serviced else s.proc j) := by
  induction rest generalizing s with
  | nil => simp [serviceLoop]
  | cons i rest ih =>
    obtain ⟨hnot, hnodup⟩ := List.nodup_cons.mp hnodup
    have hi := hrest i (List.mem_cons_self ..)
    -- the rest of the list is served as if the first process had not been touched
    have htail : ∀ t : Scheduler, t.allProcesses = s.allProcesses.set i (s.proc i).serviced →
        (serviceLoop rest t).1 = rest.filter (fun i => 1 < (s.proc i).remainingIoTicks) ∧
        (serviceLoop rest t).2.readyQueue
          = t.readyQueue ++ rest.filter (fun i => (s.proc i).remainingIoTicks ≤ 1) ∧
        ∀ j, (serviceLoop rest t).2.proc j
          = if j ∈ i :: rest then (s.proc j).serviced else s.proc j := by
      intro t ht
      have hother : ∀ j, j ≠ i → t.proc j = s.proc j := fun j hj => proc_of_set_ne ht hj
      have hself : t.proc i = (s.proc i).serviced := proc_of_set ht hi
      have hrem : ∀ j ∈ rest, (t.proc j).remainingIoTicks = (s.proc j).remainingIoTicks := by
        intro j hj
        rw [hother j (fun heq => hnot (heq ▸ hj))]
      obtain ⟨hleft, hqueue, hprocs⟩ := ih hnodup (s := t) (by
        intro j hj
        rw [ht, List.length_set]
        exact hrest j (List.mem_cons_of_mem _ hj))
      refine ⟨?_, ?_, fun j => ?_⟩
      · rw [hleft]
        exact List.filter_congr (fun j hj => by rw [hrem j hj])
      · rw [hqueue]
        congr 1
        exact List.filter_congr (fun j hj => by rw [hrem j hj])
      · rw [hprocs]
        by_cases hj : j = i
        · subst hj
          rw [if_neg hnot, hself, if_pos (List.mem_cons_self ..)]
        · simp only [List.mem_cons, hj, false_or, hother j hj]
    rcases serviceLoop_cons i rest s with ⟨hone, t, ht, heq⟩ | ⟨hmore, t, ht, heq⟩
    · obtain ⟨hleft, hqueue, hprocs⟩ := htail t (by rw [ht])
      rw [heq]
      refine ⟨?_, ?_, hprocs⟩
      · rw [hleft, List.filter_cons_of_neg (by simpa using hone)]
      · rw [hqueue, List.filter_cons_of_pos (by simpa using hone), ht]
        simp
    · obtain ⟨hleft, hqueue, hprocs⟩ := htail t (by rw [ht, setProc])
      rw [heq]
      refine ⟨?_, ?_, hprocs⟩
      · rw [hleft, List.filter_cons_of_pos (by simpa using hmore)]
      · rw [hqueue, List.filter_cons_of_neg (by simpa using hmore), ht]
        rfl

/-- The loop leaves the rest of the scheduler alone. -/
theorem serviceLoop_frame (rest : List ℕ) (s : Scheduler) :
    (serviceLoop rest s).2.allProcesses.length = s.allProcesses.length ∧
      (serviceLoop rest s).2.quantum = s.quantum ∧ (serviceLoop rest s).2.tick = s.tick ∧
      (serviceLoop rest s).2.allocator = s.allocator := by
  induction rest generalizing s with
  | nil => exact ⟨rfl, rfl, rfl, rfl⟩
  | cons i rest ih =>
    rcases serviceLoop_cons i rest s with ⟨-, t, ht, heq⟩ | ⟨-, t, ht, heq⟩
    · have hrec := ih t
      rw [heq, hrec.1, hrec.2.1, hrec.2.2.1, hrec.2.2.2, ht]
      simp
    · have hrec := ih t
      rw [heq, hrec.1, hrec.2.1, hrec.2.2.1, hrec.2.2.2, ht]
      simp [setProc]

/-- `ServiceIoQueue` takes one tick off every wait and lets the processes that are done
with theirs change the queue. -/
theorem QueueInv.serviceIoQueue_spec (h : QueueInv s s.waitingList) :
    s.serviceIoQueue.waitingList
      = s.waitingList.filter (fun i => 1 < (s.proc i).remainingIoTicks) ∧
    s.serviceIoQueue.readyQueue
      = s.readyQueue ++ s.waitingList.filter (fun i => (s.proc i).remainingIoTicks ≤ 1) ∧
    ∀ i, s.serviceIoQueue.proc i
      = if i ∈ s.waitingList then (s.proc i).serviced else s.proc i := by
  obtain ⟨-, hnodup, -⟩ := List.nodup_append.mp h.nodup
  exact serviceLoop_spec hnodup (fun i hi => ((h.mem_waiting i).mp hi).1)

/-- The countdown moves processes from one queue to the other. -/
theorem serviceIoQueue_perm (hnodup : s.waitingList.Nodup)
    (hlt : ∀ i ∈ s.waitingList, i < s.allProcesses.length) :
    (s.serviceIoQueue.readyQueue ++ s.serviceIoQueue.waitingList).Perm
      (s.readyQueue ++ s.waitingList) := by
  obtain ⟨hwaiting, hready, -⟩ := serviceLoop_spec hnodup hlt
  show ((serviceLoop s.waitingList s).2.readyQueue ++ (serviceLoop s.waitingList s).1).Perm _
  rw [hready, hwaiting, List.append_assoc]
  apply List.Perm.append_left _
  have hsplit := List.filter_append_perm
    (fun i => decide ((s.proc i).remainingIoTicks ≤ 1)) s.waitingList
  simpa only [← decide_not, not_le] using hsplit

theorem QueueInv.serviceIoQueue_perm (h : QueueInv s s.waitingList) :
    (s.serviceIoQueue.readyQueue ++ s.serviceIoQueue.waitingList).Perm
      (s.readyQueue ++ s.waitingList) := by
  obtain ⟨-, hnodup, -⟩ := List.nodup_append.mp h.nodup
  exact Scheduler.serviceIoQueue_perm hnodup (fun i hi => ((h.mem_waiting i).mp hi).1)

theorem QueueInv.serviceIoQueue (h : QueueInv s s.waitingList) :
    QueueInv s.serviceIoQueue s.serviceIoQueue.waitingList := by
  obtain ⟨hwaiting, hready, hproc⟩ := h.serviceIoQueue_spec
  obtain ⟨hlength, hquantum, -, -⟩ : s.serviceIoQueue.allProcesses.length = _ ∧ _ :=
    serviceLoop_frame s.waitingList s
  refine ⟨h.serviceIoQueue_perm.nodup_iff.mpr h.nodup, ?_, ?_, ?_, hquantum ▸ h.quantum_pos⟩
  · intro i
    rw [hready, List.mem_append, List.mem_filter, h.mem_ready, hproc, hlength]
    by_cases hi : i ∈ s.waitingList
    · obtain ⟨hlt, hstate⟩ := (h.mem_waiting i).mp hi
      rw [if_pos hi, ((h.ok i hlt).serviced hstate).2.1]
      simp [hi, hlt, hstate]
    · simp [hi]
  · intro i
    rw [hwaiting, List.mem_filter, hproc, hlength]
    by_cases hi : i ∈ s.waitingList
    · obtain ⟨hlt, hstate⟩ := (h.mem_waiting i).mp hi
      rw [if_pos hi, ((h.ok i hlt).serviced hstate).2.2]
      simp [hi, hlt]
    · rw [if_neg hi]
      simpa [hi] using (h.mem_waiting i).not.mp hi
  · intro i hi
    rw [hlength] at hi
    rw [hproc]
    split_ifs with hmem
    · exact ((h.ok i hi).serviced ((h.mem_waiting i).mp hmem).2).1
    · exact h.ok i hi

/-! ## The CPU slice -/

/-- **A CPU slice** that returns keeps the invariant, whichever way it ends. -/
theorem QueueInv.runOneCpuSlice (h : QueueInv s s.waitingList) {t : Scheduler}
    (hrun : s.runOneCpuSlice = some t) : QueueInv t t.waitingList := by
  match hq : s.readyQueue with
  | [] =>
    rw [Scheduler.runOneCpuSlice, hq] at hrun
    obtain rfl := Option.some.inj hrun
    exact h
  | idx :: queue =>
    obtain ⟨hlt, hstate⟩ := (h.mem_ready idx).mp (by simp [hq])
    have hok := h.ok idx hlt
    have hlive : (s.proc idx).state ≠ .terminated := by simp [hstate]
    have hload := hok.loaded_pos hlive
    have hnodup := h.nodup
    rw [hq, List.cons_append, List.nodup_cons] at hnodup
    have hqueue : idx ∉ queue := fun hmem => hnodup.1 (List.mem_append_left _ hmem)
    have hwait : idx ∉ s.waitingList := fun hmem => hnodup.1 (List.mem_append_right _ hmem)
    have hback : (queue ++ [idx] ++ s.waitingList).Nodup :=
      (perm_readyQueue queue s.waitingList idx).nodup_iff.mpr (List.nodup_cons.mpr hnodup)
    have hR : ∀ j, j ∈ queue ++ [idx] ↔ if j = idx then True else j ∈ s.readyQueue := by
      intro j
      by_cases hj : j = idx <;> simp [hj, hq]
    have hR' : ∀ j, j ∈ queue ↔ if j = idx then False else j ∈ s.readyQueue := by
      intro j
      by_cases hj : j = idx <;> simp [hj, hq, hqueue]
    have hW : ∀ j, j ∈ s.waitingList ↔ if j = idx then False else j ∈ s.waitingList := by
      intro j
      by_cases hj : j = idx <;> simp [hj, hwait]
    obtain ⟨rem, hrem⟩ : ∃ rem, rem = (s.proc idx).loaded - min s.quantum (s.proc idx).loaded :=
      ⟨_, rfl⟩
    have hnonneg : 0 ≤ rem := by omega
    rcases runOneCpuSlice_cons hq rfl hrem with ⟨hpos, log, hslice⟩ | ⟨hzero, hio, log, hslice⟩ |
      ⟨hzero, hio, hmore, log, hslice⟩ | ⟨hzero, hio, hlast, log, hslice⟩
    · -- preempted
      obtain rfl := Option.some.inj (hslice.symm.trans hrun)
      refine h.update hlt ?_ hback ?_ ?_ rfl rfl rfl
      · exact ⟨by simp, hok.cpu_pos, hok.last_io, fun _ => hok.burst_lt hlive, hnonneg, by simp⟩
      · simpa using hR
      · simpa using hW
    · -- blocked
      obtain rfl := Option.some.inj (hslice.symm.trans hrun)
      refine h.update hlt ?_ (R := queue) ?_ ?_ ?_ rfl rfl rfl
      · exact ⟨by simp, hok.cpu_pos, hok.last_io, fun _ => hok.lt_of_io hlive hio, hnonneg,
          fun _ => ⟨hio, le_antisymm hzero hnonneg⟩⟩
      · rw [← List.append_assoc, (List.perm_append_singleton _ _).nodup_iff]
        exact List.nodup_cons.mpr hnodup
      · simpa using hR'
      · intro j
        by_cases hj : j = idx <;> simp [hj]
    · -- on to the next burst
      obtain rfl := Option.some.inj (hslice.symm.trans hrun)
      refine h.update hlt ?_ hback ?_ ?_ rfl rfl rfl
      · exact ⟨by simp, hok.cpu_pos, hok.last_io, fun _ => hmore, hnonneg, by simp⟩
      · simpa using hR
      · simpa using hW
    · -- terminated
      obtain ⟨a, -, rfl⟩ := Option.map_eq_some_iff.mp (hslice.symm.trans hrun)
      refine h.update hlt ?_ hnodup.2 ?_ ?_ rfl rfl rfl
      · exact ⟨by simp, hok.cpu_pos, hok.last_io, by simp, hnonneg, by simp⟩
      · simpa using hR'
      · simpa using hW

/-- A scheduler that has been given its processes satisfies the invariant. -/
theorem queueInv_create (allocator : BuddySession) {quantum : ℤ} (hquantum : 1 ≤ quantum)
    {ps : List Process} (hps : ∀ p ∈ ps, p.WellFormed) :
    QueueInv (Scheduler.create allocator quantum ps) [] := by
  rw [allProcesses_create]
  have hwf : ∀ i < ps.length, (ps.getD i default).WellFormed := by
    intro i hi
    rw [List.getD_eq_getElem _ _ hi]
    exact hps _ (List.getElem_mem hi)
  refine ⟨List.nodup_nil, ?_, ?_, fun i hi => (hwf i hi).ok, hquantum⟩
  · intro i
    simp only [List.not_mem_nil, false_iff, not_and, proc]
    intro hi
    rw [(hwf i hi).state_eq]
    simp
  · intro i
    simp only [List.not_mem_nil, false_iff, not_and, proc]
    intro hi
    rw [(hwf i hi).state_eq]
    simp

end Scheduler

end OS
