/-
# Bounded waiting in the round-robin scheduler

The ready queue is first in, first out, and every tick takes one process from its head.
So a process that is `READY` at place `j` at the end of a tick is dispatched in the
`j + 1`-st tick after it, whatever is admitted or unblocked meanwhile, and its place is
below the number of processes.

`Due s i m` bounds the time to the end of a process: `m` ticks are enough for the slices
and the I/O that are left to it, if every slice waits for all other processes.  A tick
takes one off the bound.
-/
import MemoryAllocator.OsSchedulerInvariant
import MemoryAllocator.OsSchedulerWork

namespace OS

open Memory

/-! ## The slices that are left -/

/-- Slices of at most `quantum` ticks that make up a number of ticks. -/
def slicesOf (quantum ticks : ℤ) : ℕ := ((ticks + quantum - 1) / quantum).toNat

theorem slicesOf_last {quantum ticks : ℤ} (hpos : 1 ≤ ticks) (hle : ticks ≤ quantum) :
    slicesOf quantum ticks = 1 := by
  have hdiv : (ticks + quantum - 1) / quantum = 1 := by
    rw [show ticks + quantum - 1 = (ticks - 1) + quantum * 1 by ring,
      Int.add_mul_ediv_left _ _ (by omega), Int.ediv_eq_zero_of_lt (by omega) (by omega)]
    rfl
  rw [slicesOf, hdiv]
  rfl

theorem slicesOf_more {quantum ticks : ℤ} (hquantum : 1 ≤ quantum) (hlt : quantum < ticks) :
    slicesOf quantum ticks = slicesOf quantum (ticks - quantum) + 1 := by
  have hdiv : (ticks + quantum - 1) / quantum = (ticks - quantum + quantum - 1) / quantum + 1 := by
    rw [show ticks + quantum - 1 = (ticks - quantum + quantum - 1) + quantum * 1 by ring,
      Int.add_mul_ediv_left _ _ (by omega)]
  have hnonneg : 0 ≤ (ticks - quantum + quantum - 1) / quantum :=
    Int.ediv_nonneg (by omega) (by omega)
  rw [slicesOf, slicesOf, hdiv]
  omega

theorem slicesOf_pos {quantum ticks : ℤ} (hquantum : 1 ≤ quantum) (hpos : 1 ≤ ticks) :
    1 ≤ slicesOf quantum ticks := by
  by_cases hle : ticks ≤ quantum
  · exact (slicesOf_last hpos hle).ge
  · rw [slicesOf_more hquantum (not_le.mp hle)]
    omega

namespace Process

/-- The slices of the bursts from the `c`-th on. -/
def slicesAhead (quantum : ℤ) (p : Process) (c : ℕ) : ℕ :=
  ((p.bursts.drop c).map (fun b => slicesOf quantum b.cpuTicks)).sum

/-- The ticks of I/O of the bursts from the `c`-th on. -/
def ioAhead (p : Process) (c : ℕ) : ℕ := ((p.bursts.drop c).map (fun b => b.ioTicks.toNat)).sum

/-- The slices that are left to a process that is not terminated. -/
def slicesLeft (quantum : ℤ) (p : Process) : ℕ :=
  slicesOf quantum p.loaded + p.slicesAhead quantum (p.currentBurst + 1)

variable {p : Process} {quantum : ℤ} {c : ℕ}

theorem slicesAhead_eq_add (hc : c < p.bursts.length) :
    p.slicesAhead quantum c
      = slicesOf quantum (p.bursts.getD c default).cpuTicks + p.slicesAhead quantum (c + 1) := by
  rw [slicesAhead, List.drop_eq_getElem_cons hc, List.map_cons, List.sum_cons,
    List.getD_eq_getElem _ _ hc]
  rfl

theorem ioAhead_eq_add (hc : c < p.bursts.length) :
    p.ioAhead c = (p.bursts.getD c default).ioTicks.toNat + p.ioAhead (c + 1) := by
  rw [ioAhead, List.drop_eq_getElem_cons hc, List.map_cons, List.sum_cons,
    List.getD_eq_getElem _ _ hc]
  rfl

variable {q : Process}

theorem ioAhead_congr (hbursts : q.bursts = p.bursts) (c : ℕ) : q.ioAhead c = p.ioAhead c := by
  rw [ioAhead, ioAhead, hbursts]

/-- A slice that does not finish the burst. -/
theorem slicesLeft_preempted (hquantum : 1 ≤ quantum) (hlt : quantum < p.loaded)
    (hbursts : q.bursts = p.bursts) (hcurrent : q.currentBurst = p.currentBurst)
    (hrem : q.remainingCpuTicks = p.loaded - quantum) :
    q.slicesLeft quantum + 1 = p.slicesLeft quantum := by
  have hloaded : q.loaded = p.loaded - quantum := by
    rw [loaded, if_neg (by omega), hrem]
  have hahead : q.slicesAhead quantum (q.currentBurst + 1)
      = p.slicesAhead quantum (p.currentBurst + 1) := by
    rw [slicesAhead, slicesAhead, hbursts, hcurrent]
  rw [slicesLeft, slicesLeft, hloaded, hahead, slicesOf_more hquantum hlt]
  omega

/-- A slice that finishes the burst, with another one to come. -/
theorem slicesLeft_next (hpos : 1 ≤ p.loaded) (hle : p.loaded ≤ quantum)
    (hmore : p.currentBurst + 1 < p.bursts.length) (hbursts : q.bursts = p.bursts)
    (hcurrent : q.currentBurst = p.currentBurst + 1) (hrem : q.remainingCpuTicks ≤ 0) :
    q.slicesLeft quantum + 1 = p.slicesLeft quantum := by
  have hloaded : q.loaded = (p.bursts.getD (p.currentBurst + 1) default).cpuTicks := by
    rw [loaded, if_pos hrem, burst, hbursts, hcurrent]
  have hahead : q.slicesAhead quantum (q.currentBurst + 1)
      = p.slicesAhead quantum (p.currentBurst + 1 + 1) := by
    rw [slicesAhead, slicesAhead, hbursts, hcurrent]
  rw [slicesLeft, slicesLeft, hloaded, hahead, slicesOf_last hpos hle,
    slicesAhead_eq_add hmore]
  omega

end Process

namespace Scheduler

variable {s t : Scheduler} {i j m n : ℕ} {W : List ℕ}

/-! ## The ready queue in a tick -/

/-- Admission only appends to the ready queue. -/
theorem readyQueue_admitPendingProcesses (s : Scheduler) :
    ∃ l, s.admitPendingProcesses.readyQueue = s.readyQueue ++ l := by
  apply admitPendingProcesses_induct s (P := fun u => ∃ l, u.readyQueue = s.readyQueue ++ l)
  · exact ⟨[], (List.append_nil _).symm⟩
  · rintro u i - ⟨l, hu⟩
    rcases admitOne_cases u i with ⟨a, heq⟩ | ⟨-, a, ptr, offset, size, created, granted, heq⟩
    · rw [heq]
      exact ⟨l, hu⟩
    · rw [heq]
      exact ⟨l ++ [i], by
        show u.readyQueue ++ [i] = s.readyQueue ++ (l ++ [i])
        rw [hu, List.append_assoc]⟩

/-- Before its slice, a tick only appends to the ready queue. -/
theorem readyQueue_dispatch (h : QueueInv s s.waitingList) :
    ∃ l, s.dispatch.readyQueue = s.readyQueue ++ l := by
  obtain ⟨l, hl⟩ := readyQueue_admitPendingProcesses s
  have hadm := h.admitPendingProcesses
  rw [← waitingList_admitPendingProcesses s] at hadm
  refine ⟨l ++ s.admitPendingProcesses.waitingList.filter
    (fun i => (s.admitPendingProcesses.proc i).remainingIoTicks ≤ 1), ?_⟩
  show s.admitPendingProcesses.serviceIoQueue.readyQueue = _
  rw [hadm.serviceIoQueue_spec.2.1, hl, List.append_assoc]

/-- The invariant where a tick reaches its slice. -/
theorem QueueInv.dispatch (h : QueueInv s s.waitingList) :
    QueueInv s.dispatch s.dispatch.waitingList := by
  have hadm := h.admitPendingProcesses
  rw [← waitingList_admitPendingProcesses s] at hadm
  exact hadm.serviceIoQueue

/-- There are never more processes in the ready queue than there are. -/
theorem QueueInv.length_le (h : QueueInv s W) :
    s.readyQueue.length ≤ s.allProcesses.length := by
  have hnodup := (List.nodup_append.mp h.nodup).1
  have hsub : s.readyQueue ⊆ List.range s.allProcesses.length := fun i hi =>
    List.mem_range.mpr ((h.mem_ready i).mp hi).1
  have hle := (List.subperm_of_subset hnodup hsub).length_le
  rwa [List.length_range] at hle

/-- **A slice moves everyone in the queue one place up.** -/
theorem readyQueue_runOneCpuSlice (hrun : s.runOneCpuSlice = some t)
    (hi : s.readyQueue[j + 1]? = some i) : t.readyQueue[j]? = some i := by
  cases hq : s.readyQueue with
  | nil =>
    rw [hq] at hi
    cases hi
  | cons idx queue =>
    rw [hq, List.getElem?_cons_succ] at hi
    have happend : (queue ++ [idx])[j]? = some i := by
      rw [List.getElem?_append_left (List.getElem?_eq_some_iff.mp hi).1, hi]
    rcases runOneCpuSlice_cons hq rfl rfl with ⟨-, log, heq⟩ | ⟨-, -, log, heq⟩ |
      ⟨-, -, -, log, heq⟩ | ⟨-, -, -, log, heq⟩
    · obtain rfl := Option.some.inj (heq.symm.trans hrun)
      exact happend
    · obtain rfl := Option.some.inj (heq.symm.trans hrun)
      exact hi
    · obtain rfl := Option.some.inj (heq.symm.trans hrun)
      exact happend
    · obtain ⟨a, -, rfl⟩ := Option.map_eq_some_iff.mp (heq.symm.trans hrun)
      exact hi

/-- A slice logs whom it dispatches. -/
theorem log_runOneCpuSlice (hrun : s.runOneCpuSlice = some t)
    (hi : s.readyQueue.head? = some i) :
    ⟨s.tick, "process_scheduled", (s.proc i).id,
      [("burstIndex", .num (s.proc i).currentBurst)]⟩ ∈ t.log := by
  obtain ⟨queue, hq⟩ := List.head?_eq_some_iff.mp hi
  by_cases hload : (s.proc i).remainingCpuTicks ≤ 0
  all_goals
    simp only [runOneCpuSlice, hq, hload, if_true, if_false] at hrun
    split_ifs at hrun
    · obtain rfl := Option.some.inj hrun
      simp
    · obtain rfl := Option.some.inj hrun
      simp
    · obtain rfl := Option.some.inj hrun
      simp
    · obtain ⟨a, -, rfl⟩ := Option.map_eq_some_iff.mp hrun
      simp

/-! ## What happens to one process in a tick -/

/-- Admission does not touch a process that is not new. -/
theorem proc_admitPendingProcesses (hnew : (s.proc i).state ≠ .new) :
    s.admitPendingProcesses.proc i = s.proc i := by
  apply admitPendingProcesses_induct s (P := fun u => u.proc i = s.proc i) rfl
  intro u j hj hu
  rcases admitOne_cases u j with ⟨a, heq⟩ | ⟨hjnew, a, ptr, offset, size, created, granted, heq⟩
  · rw [heq]
    exact hu
  · have hij : i ≠ j := by
      rintro rfl
      rw [hu] at hjnew
      exact hnew hjnew
    rw [proc_of_set_ne (s := u) (by rw [heq]) hij, hu]

/-- Up to its slice, a tick takes a tick off the wait of a blocked process and does not
touch the others, the new ones apart. -/
theorem proc_dispatch (h : QueueInv s s.waitingList) (hnew : (s.proc i).state ≠ .new) :
    s.dispatch.proc i = if i ∈ s.waitingList then (s.proc i).serviced else s.proc i := by
  have hadm := h.admitPendingProcesses
  rw [← waitingList_admitPendingProcesses s] at hadm
  show s.admitPendingProcesses.serviceIoQueue.proc i = _
  rw [hadm.serviceIoQueue_spec.2.2, waitingList_admitPendingProcesses,
    proc_admitPendingProcesses hnew]

theorem length_dispatch (s : Scheduler) :
    s.dispatch.allProcesses.length = s.allProcesses.length := by
  have hadm : s.admitPendingProcesses.allProcesses.length = s.allProcesses.length :=
    admitPendingProcesses_induct s (P := fun u => u.allProcesses.length = s.allProcesses.length)
      rfl (fun u j _ hu => (length_admitOne u j).trans hu)
  exact (serviceLoop_frame _ _).1.trans hadm

theorem quantum_dispatch (s : Scheduler) : s.dispatch.quantum = s.quantum := by
  have hadm : s.admitPendingProcesses.quantum = s.quantum := by
    apply admitPendingProcesses_induct s (P := fun u => u.quantum = s.quantum) rfl
    intro u j _ hu
    rcases admitOne_cases u j with ⟨a, heq⟩ | ⟨-, a, ptr, offset, size, created, granted, heq⟩
    · rw [heq]
      exact hu
    · rw [heq]
      exact hu
  exact (serviceLoop_frame _ _).2.1.trans hadm

/-- A slice keeps the quantum and the number of processes. -/
theorem frame_runOneCpuSlice (hrun : s.runOneCpuSlice = some t) :
    t.quantum = s.quantum ∧ t.allProcesses.length = s.allProcesses.length := by
  cases hq : s.readyQueue with
  | nil =>
    rw [Scheduler.runOneCpuSlice, hq] at hrun
    obtain rfl := Option.some.inj hrun
    exact ⟨rfl, rfl⟩
  | cons idx queue =>
    rcases runOneCpuSlice_cons hq rfl rfl with ⟨-, log, heq⟩ | ⟨-, -, log, heq⟩ |
      ⟨-, -, -, log, heq⟩ | ⟨-, -, -, log, heq⟩
    · obtain rfl := Option.some.inj (heq.symm.trans hrun)
      exact ⟨rfl, List.length_set⟩
    · obtain rfl := Option.some.inj (heq.symm.trans hrun)
      exact ⟨rfl, List.length_set⟩
    · obtain rfl := Option.some.inj (heq.symm.trans hrun)
      exact ⟨rfl, List.length_set⟩
    · obtain ⟨a, -, rfl⟩ := Option.map_eq_some_iff.mp (heq.symm.trans hrun)
      exact ⟨rfl, List.length_set⟩

/-! ## The bound -/

/-- At the end of a tick, `m` more ticks are enough for the process with index `i`: every
slice that is left waits for all processes once, and the I/O for itself. -/
def Due (s : Scheduler) (i m : ℕ) : Prop :=
  (s.proc i).state = .terminated ∨
  (∃ j, s.readyQueue[j]? = some i ∧
    j + 1 + s.allProcesses.length * ((s.proc i).slicesLeft s.quantum - 1)
      + (s.proc i).ioAhead (s.proc i).currentBurst ≤ m) ∨
  (i ∈ s.waitingList ∧
    (s.proc i).remainingIoTicks.toNat + s.allProcesses.length * (s.proc i).slicesLeft s.quantum
      + (s.proc i).ioAhead (s.proc i).currentBurst ≤ m + 1)

theorem slicesLeft_pos (h : QueueInv s W) (hi : i < s.allProcesses.length)
    (hstate : (s.proc i).state ≠ .terminated) : 1 ≤ (s.proc i).slicesLeft s.quantum := by
  have hpos := slicesOf_pos h.quantum_pos ((h.ok i hi).loaded_pos hstate)
  unfold Process.slicesLeft
  omega

/-- A process that is due at once has terminated. -/
theorem Due.terminated (h : QueueInv s s.waitingList) (hdue : Due s i 0) :
    (s.proc i).state = .terminated := by
  rcases hdue with hterm | ⟨j, -, hle⟩ | ⟨hi, hle⟩
  · exact hterm
  · omega
  · obtain ⟨hlt, hstate⟩ := (h.mem_waiting i).mp hi
    have hio := ((h.ok i hlt).waiting_io hstate).1
    have hpos := slicesLeft_pos h hlt (by rw [hstate]; decide)
    have hmul : 1 * 1 ≤ s.allProcesses.length * (s.proc i).slicesLeft s.quantum :=
      Nat.mul_le_mul (by omega) hpos
    omega

/-- **The slice of the process itself** takes one slice off its account. -/
theorem Due.of_head (h : QueueInv s s.waitingList) (hrun : s.runOneCpuSlice = some t)
    (hi : s.readyQueue[0]? = some i)
    (hle : s.allProcesses.length * ((s.proc i).slicesLeft s.quantum - 1)
      + (s.proc i).ioAhead (s.proc i).currentBurst ≤ m) : Due t i m := by
  obtain ⟨queue, hq⟩ : ∃ queue, s.readyQueue = i :: queue :=
    List.head?_eq_some_iff.mp (List.head?_eq_getElem?.trans hi)
  have hlength := h.length_le
  rw [hq, List.length_cons] at hlength
  have hback : (queue ++ [i])[queue.length]? = some i := by
    rw [List.getElem?_append_right le_rfl, Nat.sub_self]
    rfl
  obtain ⟨hlt, hstate⟩ := (h.mem_ready i).mp (by simp [hq])
  have hlive : (s.proc i).state ≠ .terminated := by simp [hstate]
  have hok := h.ok i hlt
  have hload := hok.loaded_pos hlive
  have hburst := hok.burst_lt hlive
  have hquantum := h.quantum_pos
  have hio := Process.ioAhead_eq_add (p := s.proc i) hburst
  obtain ⟨hq', hn'⟩ := frame_runOneCpuSlice hrun
  have hok' := (h.runOneCpuSlice hrun).ok i (hn' ▸ hlt)
  rcases runOneCpuSlice_cons hq rfl rfl with ⟨hleft, log, heq⟩ | ⟨hdone, hblock, log, heq⟩ |
    ⟨hdone, hnoio, hmore, log, heq⟩ | ⟨hdone, hnoio, hlast, log, heq⟩
  · -- preempted: to the end of the queue, with one slice less of this burst
    have ht := Option.some.inj (heq.symm.trans hrun)
    have hproc := proc_of_set (s := s) (t := t) (by rw [← ht]) hlt
    have hready : t.readyQueue = queue ++ [i] := by rw [← ht]
    have hmin : (s.proc i).loaded - min s.quantum (s.proc i).loaded
        = (s.proc i).loaded - s.quantum := by omega
    have hslices := Process.slicesLeft_preempted (p := s.proc i) (q := t.proc i) hquantum
      (by omega) (by rw [hproc]) (by rw [hproc]) (by rw [hproc]; exact hmin)
    have hahead := Process.ioAhead_congr (p := s.proc i) (q := t.proc i) (by rw [hproc])
    have hcurrent : (t.proc i).currentBurst = (s.proc i).currentBurst := by rw [hproc]
    have hpos := slicesOf_pos hquantum (hok'.loaded_pos (by rw [hproc]; simp))
    refine .inr (.inl ⟨queue.length, hready ▸ hback, ?_⟩)
    rw [hq', hn', hahead, hcurrent]
    obtain ⟨σ, hσ⟩ : ∃ σ, (t.proc i).slicesLeft s.quantum = σ + 1 :=
      Nat.exists_eq_succ_of_ne_zero (by unfold Process.slicesLeft; omega)
    rw [← hslices, hσ, Nat.add_sub_cancel, Nat.mul_succ] at hle
    rw [hσ, Nat.add_sub_cancel]
    omega
  · -- blocked: the I/O of this burst, then the slices of the next ones
    have ht := Option.some.inj (heq.symm.trans hrun)
    have hproc := proc_of_set (s := s) (t := t) (by rw [← ht]) hlt
    have hwait : i ∈ t.waitingList := by
      rw [← ht]
      exact List.mem_append_right _ List.mem_cons_self
    have hslices := Process.slicesLeft_next (p := s.proc i) (q := t.proc i) hload
      (by omega : (s.proc i).loaded ≤ s.quantum) (hok.lt_of_io hlive hblock) (by rw [hproc])
      (by rw [hproc]) (by rw [hproc]; exact hdone)
    have hahead := Process.ioAhead_congr (p := s.proc i) (q := t.proc i) (by rw [hproc])
    have hcurrent : (t.proc i).currentBurst = (s.proc i).currentBurst + 1 := by rw [hproc]
    have hrem : (t.proc i).remainingIoTicks
        = ((s.proc i).bursts.getD (s.proc i).currentBurst default).ioTicks := by
      rw [hproc]
      rfl
    refine .inr (.inr ⟨hwait, ?_⟩)
    rw [hq', hn', hahead, hcurrent, hrem]
    rw [← hslices, Nat.add_sub_cancel, hio] at hle
    omega
  · -- on to the next burst
    have ht := Option.some.inj (heq.symm.trans hrun)
    have hproc := proc_of_set (s := s) (t := t) (by rw [← ht]) hlt
    have hready : t.readyQueue = queue ++ [i] := by rw [← ht]
    have hslices := Process.slicesLeft_next (p := s.proc i) (q := t.proc i) hload
      (by omega : (s.proc i).loaded ≤ s.quantum) hmore (by rw [hproc])
      (by rw [hproc]) (by rw [hproc]; exact hdone)
    have hahead := Process.ioAhead_congr (p := s.proc i) (q := t.proc i) (by rw [hproc])
    have hcurrent : (t.proc i).currentBurst = (s.proc i).currentBurst + 1 := by rw [hproc]
    have hpos := slicesOf_pos hquantum (hok'.loaded_pos (by rw [hproc]; simp))
    refine .inr (.inl ⟨queue.length, hready ▸ hback, ?_⟩)
    rw [hq', hn', hahead, hcurrent]
    obtain ⟨σ, hσ⟩ : ∃ σ, (t.proc i).slicesLeft s.quantum = σ + 1 :=
      Nat.exists_eq_succ_of_ne_zero (by unfold Process.slicesLeft; omega)
    rw [← hslices, hσ, Nat.add_sub_cancel, Nat.mul_succ, hio] at hle
    rw [hσ, Nat.add_sub_cancel]
    omega
  · -- terminated
    obtain ⟨a, -, ht⟩ := Option.map_eq_some_iff.mp (heq.symm.trans hrun)
    refine .inl ?_
    rw [proc_of_set (s := s) (t := t) (by rw [← ht]) hlt]

/-- A slice and a process that is in the ready queue. -/
theorem Due.of_ready (h : QueueInv s s.waitingList) (hrun : s.runOneCpuSlice = some t)
    (hi : s.readyQueue[j]? = some i)
    (hle : j + s.allProcesses.length * ((s.proc i).slicesLeft s.quantum - 1)
      + (s.proc i).ioAhead (s.proc i).currentBurst ≤ m) : Due t i m := by
  cases j with
  | zero =>
    rw [Nat.zero_add] at hle
    exact Due.of_head h hrun hi hle
  | succ j =>
    obtain ⟨hq', hn'⟩ := frame_runOneCpuSlice hrun
    have hhead : s.readyQueue.head? ≠ some i := by
      intro hhead
      rw [List.head?_eq_getElem?] at hhead
      have hnodup := (List.nodup_append.mp h.nodup).1
      have heq := (List.getElem?_inj (List.getElem?_eq_some_iff.mp hhead).1 hnodup).mp
        (hhead.trans hi.symm)
      omega
    have hproc := (proc_runOneCpuSlice hrun hhead).1
    refine .inr (.inl ⟨j, readyQueue_runOneCpuSlice hrun hi, ?_⟩)
    rw [hproc, hq', hn']
    exact hle

/-- **A tick takes one off the bound.** -/
theorem Due.tickOnce (h : QueueInv s s.waitingList) (hdue : Due s i (m + 1))
    (hrun : s.tickOnce = some t) : Due t i m := by
  have hd := h.dispatch
  have hslice : s.dispatch.runOneCpuSlice = some t := hrun
  rcases hdue with hterm | ⟨j, hj, hle⟩ | ⟨hi, hle⟩
  · -- terminated processes are in no queue
    have hnot : i ∉ s.waitingList := by
      intro hi
      rw [((h.mem_waiting i).mp hi).2] at hterm
      cases hterm
    have hproc := proc_dispatch h (i := i) (by rw [hterm]; decide)
    rw [if_neg hnot] at hproc
    have hhead : s.dispatch.readyQueue.head? ≠ some i := by
      intro hhead
      have hstate := ((hd.mem_ready i).mp (List.mem_of_mem_head? hhead)).2
      rw [hproc, hterm] at hstate
      cases hstate
    refine .inl ?_
    rw [(proc_runOneCpuSlice hslice hhead).1, hproc, hterm]
  · obtain ⟨l, hl⟩ := readyQueue_dispatch h
    have hmem := List.mem_of_getElem? hj
    obtain ⟨hlt, hstate⟩ := (h.mem_ready i).mp hmem
    have hnot : i ∉ s.waitingList := by
      intro hi
      exact h.not_ready hi hmem
    have hproc := proc_dispatch h (i := i) (by rw [hstate]; decide)
    rw [if_neg hnot] at hproc
    apply Due.of_ready hd hslice (j := j)
    · rw [hl, List.getElem?_append_left (List.getElem?_eq_some_iff.mp hj).1, hj]
    · rw [hproc, length_dispatch, quantum_dispatch]
      omega
  · obtain ⟨hlt, hstate⟩ := (h.mem_waiting i).mp hi
    have hok := h.ok i hlt
    obtain ⟨hio, -⟩ := hok.waiting_io hstate
    have hproc := proc_dispatch h (i := i) (by rw [hstate]; decide)
    rw [if_pos hi] at hproc
    have hslices : (s.dispatch.proc i).slicesLeft s.dispatch.quantum
        = (s.proc i).slicesLeft s.quantum := by
      rw [hproc, quantum_dispatch]
      rfl
    have hahead : (s.dispatch.proc i).ioAhead (s.dispatch.proc i).currentBurst
        = (s.proc i).ioAhead (s.proc i).currentBurst := by
      rw [hproc]
      rfl
    have hwaits : Waits s i (s.proc i).remainingIoTicks := ⟨hi, rfl⟩
    obtain ⟨hready, hstill⟩ := hwaits.dispatch h
    by_cases hone : (s.proc i).remainingIoTicks ≤ 1
    · -- the wait is over, and the process is somewhere in the queue of this tick
      obtain ⟨j, hj⟩ := List.mem_iff_getElem?.mp (hready hone)
      have hjlt := (List.getElem?_eq_some_iff.mp hj).1
      have hlength := hd.length_le
      rw [length_dispatch] at hlength
      have hpos := slicesLeft_pos h hlt (by rw [hstate]; decide)
      apply Due.of_ready hd hslice hj
      rw [hslices, hahead, length_dispatch]
      obtain ⟨σ, hσ⟩ := Nat.exists_eq_add_of_le hpos
      rw [hσ, Nat.mul_add, Nat.mul_one] at hle
      rw [hσ, show 1 + σ - 1 = σ by omega]
      omega
    · obtain ⟨hwait, hrem⟩ := hstill (by omega)
      obtain ⟨hq', hn'⟩ := frame_runOneCpuSlice hslice
      have hhead : s.dispatch.readyQueue.head? ≠ some i := by
        intro hhead
        exact hd.not_ready hwait (List.mem_of_mem_head? hhead)
      obtain ⟨hsame, hkeep⟩ := proc_runOneCpuSlice hslice hhead
      refine .inr (.inr ⟨hkeep hwait, ?_⟩)
      rw [hsame, hq', hn', hslices, hahead, hrem, length_dispatch]
      omega

/-! ## Runs -/

variable {A : BuddyArena} {L : FreeIndices} {Q : List (ℕ × ℕ)} {own : ℕ → ℕ × ℕ} {d u : Scheduler}
  {N k : ℕ}

/-- A process that is not terminated keeps the loop going. -/
theorem allTerminated_false (hi : i < s.allProcesses.length)
    (hstate : (s.proc i).state ≠ .terminated) : s.allTerminated = false := by
  apply Bool.eq_false_iff.mpr
  intro hall
  have hterm := List.all_eq_true.mp hall _ (proc_mem hi)
  exact hstate (of_decide_eq_true hterm)

/-- The loop in the middle: where its `k`-th tick begins. -/
theorem Inv.loop_at (h : Inv A s s.waitingList L Q own) (hd : (dispatchesOfLoop N s)[k]? = some d) :
    ∃ u, d = u.dispatch ∧ u.tick = s.tick + k ∧ u.quantum = s.quantum ∧
      u.allProcesses.length = s.allProcesses.length ∧
      (∃ L Q own, Inv A u u.waitingList L Q own) ∧ k < N ∧
      (ticksOfLoop N s).drop k = ticksOfLoop (N - k) u := by
  induction k generalizing s N L Q own with
  | zero =>
    cases N with
    | zero => cases hd
    | succ N =>
      refine ⟨s, ?_, by simp, rfl, rfl, ⟨L, Q, own, h⟩, Nat.succ_pos N, rfl⟩
      exact (Option.some.inj hd).symm
  | succ k ih =>
    cases N with
    | zero => cases hd
    | succ N =>
      obtain ⟨t, hrun, L', Q', own', ht⟩ := h.tickOnce
      cases hall : t.allTerminated with
      | true =>
        simp only [dispatchesOfLoop, hrun, hall, if_true, List.getElem?_cons_succ,
          List.getElem?_nil, reduceCtorEq] at hd
      | false =>
        obtain ⟨hdispatches, hticks⟩ := loop_succ N hrun hall
        rw [hdispatches, List.getElem?_cons_succ] at hd
        have hnext : Inv A { t with tick := t.tick + 1 } t.waitingList L' Q' own' :=
          ht.congr rfl rfl rfl rfl
        obtain ⟨u, hdu, htick, hquantum, hlength, hinv, hlt, hdrop⟩ := ih hnext hd
        have hslice : s.dispatch.runOneCpuSlice = some t := hrun
        obtain ⟨hq, hn⟩ := frame_runOneCpuSlice hslice
        refine ⟨u, hdu, ?_, ?_, ?_, hinv, Nat.succ_lt_succ hlt, ?_⟩
        · rw [htick]
          show t.tick + 1 + (k : ℤ) = s.tick + ((k + 1 : ℕ) : ℤ)
          rw [tick_tickOnce hrun]
          push_cast
          ring
        · rw [hquantum]
          exact hq.trans (quantum_dispatch s)
        · rw [hlength]
          exact hn.trans (length_dispatch s)
        · rw [hticks, List.drop_succ_cons, hdrop, Nat.add_sub_add_right]

/-- **First in, first out**: the process at place `j` of the ready queue is dispatched in
the tick with number `j`. -/
theorem Inv.dispatched_at (h : Inv A s s.waitingList L Q own) (hj : s.readyQueue[j]? = some i)
    (hN : j < N) :
    ∃ d t, (dispatchesOfLoop N s)[j]? = some d ∧ d.readyQueue.head? = some i ∧
      (ticksOfLoop N s)[j]? = some t ∧ d.runOneCpuSlice = some t := by
  induction j generalizing s N L Q own with
  | zero =>
    obtain ⟨N, rfl⟩ : ∃ N', N = N' + 1 := Nat.exists_eq_succ_of_ne_zero (by omega)
    obtain ⟨t, hrun, -⟩ := h.tickOnce
    obtain ⟨l, hl⟩ := readyQueue_dispatch h.queues
    refine ⟨s.dispatch, t, rfl, ?_, ?_, hrun⟩
    · rw [hl, List.head?_append, List.head?_eq_getElem?, hj]
      rfl
    · simp only [ticksOfLoop, hrun, List.getElem?_cons_zero]
  | succ j ih =>
    obtain ⟨N, rfl⟩ : ∃ N', N = N' + 1 := Nat.exists_eq_succ_of_ne_zero (by omega)
    obtain ⟨t, hrun, L', Q', own', ht⟩ := h.tickOnce
    have hslice : s.dispatch.runOneCpuSlice = some t := hrun
    obtain ⟨l, hl⟩ := readyQueue_dispatch h.queues
    have hd : s.dispatch.readyQueue[j + 1]? = some i := by
      rw [hl, List.getElem?_append_left (List.getElem?_eq_some_iff.mp hj).1, hj]
    have htj := readyQueue_runOneCpuSlice hslice hd
    obtain ⟨hlt, hstate⟩ := (ht.queues.mem_ready i).mp (List.mem_of_getElem? htj)
    have hall := allTerminated_false hlt (by rw [hstate]; decide)
    obtain ⟨hdispatches, hticks⟩ := loop_succ N hrun hall
    have hnext : Inv A { t with tick := t.tick + 1 } t.waitingList L' Q' own' :=
      ht.congr rfl rfl rfl rfl
    rw [hdispatches, hticks, List.getElem?_cons_succ, List.getElem?_cons_succ]
    exact ih hnext htj (by omega)

/-- **The bound is kept by the loop**: a process that is due in `m + 1` ticks has terminated
at the end of one of them. -/
theorem Inv.terminated_by (h : Inv A s s.waitingList L Q own) (hdue : Due s i (m + 1))
    (hN : m < N) :
    ∃ k t, k ≤ m ∧ (ticksOfLoop N s)[k]? = some t ∧ (t.proc i).state = .terminated := by
  induction m generalizing s N L Q own with
  | zero =>
    obtain ⟨N, rfl⟩ : ∃ N', N = N' + 1 := Nat.exists_eq_succ_of_ne_zero (by omega)
    obtain ⟨t, hrun, L', Q', own', ht⟩ := h.tickOnce
    have hzero := hdue.tickOnce h.queues hrun
    refine ⟨0, t, le_rfl, ?_, hzero.terminated ht.queues⟩
    simp only [ticksOfLoop, hrun, List.getElem?_cons_zero]
  | succ m ih =>
    obtain ⟨N, rfl⟩ : ∃ N', N = N' + 1 := Nat.exists_eq_succ_of_ne_zero (by omega)
    obtain ⟨t, hrun, L', Q', own', ht⟩ := h.tickOnce
    have hnow := hdue.tickOnce h.queues hrun
    by_cases hterm : (t.proc i).state = .terminated
    · refine ⟨0, t, Nat.zero_le _, ?_, hterm⟩
      simp only [ticksOfLoop, hrun, List.getElem?_cons_zero]
    · have hlt : i < t.allProcesses.length := by
        rcases hnow with hcon | ⟨j, hj, -⟩ | ⟨hi, -⟩
        · exact absurd hcon hterm
        · exact ((ht.queues.mem_ready i).mp (List.mem_of_getElem? hj)).1
        · exact ((ht.queues.mem_waiting i).mp hi).1
      obtain ⟨-, hticks⟩ := loop_succ N hrun (allTerminated_false hlt hterm)
      have hnext : Inv A { t with tick := t.tick + 1 } t.waitingList L' Q' own' :=
        ht.congr rfl rfl rfl rfl
      obtain ⟨k, v, hk, hv, hvterm⟩ :=
        ih (s := { t with tick := t.tick + 1 }) (N := N) hnext hnow (by omega)
      refine ⟨k + 1, v, by omega, ?_, hvterm⟩
      rw [hticks, List.getElem?_cons_succ, hv]

/-- The start of a run satisfies the invariant. -/
theorem inv_start (A : BuddyArena) (mem : Mem) {quantum : ℤ} (hquantum : 1 ≤ quantum)
    {ps : List Process} (hps : ∀ p ∈ ps, p.WellFormed) :
    ∃ L Q own, Inv A { Scheduler.create (A.start mem) quantum ps with tick := 0 }
      (Scheduler.create (A.start mem) quantum ps).waitingList L Q own := by
  have hinit := inv_create A mem hquantum hps
  have hwaiting : (Scheduler.create (A.start mem) quantum ps).waitingList = [] := by
    rw [allProcesses_create]
  rw [← hwaiting] at hinit
  exact ⟨_, _, _, hinit.congr rfl rfl rfl rfl⟩

/-- The end of a tick is the end of a tick of the loop in the middle. -/
theorem Inv.tick_at (h : Inv A s s.waitingList L Q own) (ht : (ticksOfLoop N s)[k]? = some t) :
    t.allProcesses.length = s.allProcesses.length ∧
      (∃ L Q own, Inv A t t.waitingList L Q own) ∧ k < N ∧
      (t.allTerminated = false → (ticksOfLoop N s).drop (k + 1)
        = ticksOfLoop (N - (k + 1)) { t with tick := t.tick + 1 } ∧
          (dispatchesOfLoop N s).drop (k + 1)
            = dispatchesOfLoop (N - (k + 1)) { t with tick := t.tick + 1 }) := by
  induction k generalizing s N L Q own with
  | zero =>
    cases N with
    | zero => cases ht
    | succ N =>
      obtain ⟨t', hrun, L', Q', own', ht'⟩ := h.tickOnce
      simp only [ticksOfLoop, hrun, List.getElem?_cons_zero] at ht
      obtain rfl := Option.some.inj ht
      have hslice : s.dispatch.runOneCpuSlice = some t' := hrun
      refine ⟨(frame_runOneCpuSlice hslice).2.trans (length_dispatch s),
        ⟨L', Q', own', ht'⟩, Nat.succ_pos N, fun hall => ?_⟩
      obtain ⟨hdispatches, hticks⟩ := loop_succ N hrun hall
      rw [hdispatches, hticks]
      exact ⟨rfl, rfl⟩
  | succ k ih =>
    cases N with
    | zero => cases ht
    | succ N =>
      obtain ⟨t', hrun, L', Q', own', ht'⟩ := h.tickOnce
      cases hall : t'.allTerminated with
      | true =>
        simp only [ticksOfLoop, hrun, hall, if_true, List.getElem?_cons_succ,
          List.getElem?_nil, reduceCtorEq] at ht
      | false =>
        obtain ⟨hdispatches, hticks⟩ := loop_succ N hrun hall
        rw [hticks, List.getElem?_cons_succ] at ht
        have hnext : Inv A { t' with tick := t'.tick + 1 } t'.waitingList L' Q' own' :=
          ht'.congr rfl rfl rfl rfl
        obtain ⟨hlength, hinv, hlt, hrest⟩ := ih hnext ht
        have hslice : s.dispatch.runOneCpuSlice = some t' := hrun
        refine ⟨?_, hinv, Nat.succ_lt_succ hlt, fun hgo => ?_⟩
        · exact hlength.trans ((frame_runOneCpuSlice hslice).2.trans (length_dispatch s))
        · rw [hdispatches, hticks, List.drop_succ_cons, List.drop_succ_cons,
            Nat.add_sub_add_right]
          exact hrest hgo

end Scheduler

/-- **Bounded waiting.**  In every run over well-formed processes, a process that is `READY`
at the end of a tick has a place `j` in the ready queue, below the number of processes, and
is dispatched in the `j + 1`-st tick from there: nobody overtakes it and nobody starves. -/
theorem scheduler_bounded_waiting (A : BuddyArena) (mem : Mem) {quantum : ℤ} (maxTicks : ℤ)
    {ps : List Process} (hquantum : 1 ≤ quantum) (hps : ∀ p ∈ ps, p.WellFormed) {k i : ℕ}
    {t : Scheduler}
    (ht : ((Scheduler.create (A.start mem) quantum ps).ticksOfRun maxTicks)[k]? = some t)
    (hi : i < ps.length) (hstate : (t.proc i).state = .ready) :
    ∃ j < ps.length, t.readyQueue[j]? = some i ∧
      (((k + 1 + j : ℕ) : ℤ) < maxTicks →
        ∃ d u, ((Scheduler.create (A.start mem) quantum ps).dispatchesOfRun maxTicks)[k + 1 + j]?
            = some d ∧ d.readyQueue.head? = some i ∧
          ((Scheduler.create (A.start mem) quantum ps).ticksOfRun maxTicks)[k + 1 + j]? = some u ∧
          ⟨((k + 1 + j : ℕ) : ℤ), "process_scheduled", (d.proc i).id,
            [("burstIndex", .num (d.proc i).currentBurst)]⟩ ∈ u.log) := by
  obtain ⟨L, Q, own, hstart⟩ := Scheduler.inv_start A mem hquantum hps
  have hlength : (Scheduler.create (A.start mem) quantum ps).allProcesses.length = ps.length := by
    rw [Scheduler.allProcesses_create]
  obtain ⟨hn, ⟨L', Q', own', hinv⟩, hlt, hrest⟩ := hstart.tick_at ht
  have hn' : t.allProcesses.length = ps.length := hn.trans hlength
  have hmem : i ∈ t.readyQueue := (hinv.queues.mem_ready i).mpr ⟨by omega, hstate⟩
  obtain ⟨j, hj⟩ := List.mem_iff_getElem?.mp hmem
  have hjlt := (List.getElem?_eq_some_iff.mp hj).1
  have hle := hinv.queues.length_le
  refine ⟨j, by omega, hj, fun hmax => ?_⟩
  have hall := Scheduler.allTerminated_false (s := t) (i := i) (by omega) (by rw [hstate]; decide)
  obtain ⟨hticks, hdispatches⟩ := hrest hall
  have hnext : Scheduler.Inv A { t with tick := t.tick + 1 } t.waitingList L' Q' own' :=
    hinv.congr rfl rfl rfl rfl
  obtain ⟨d, u, hd, hhead, hu, hslice⟩ :=
    Scheduler.Inv.dispatched_at (s := { t with tick := t.tick + 1 })
      (N := maxTicks.toNat - (k + 1)) hnext hj (by omega)
  have hd' : ((Scheduler.create (A.start mem) quantum ps).dispatchesOfRun maxTicks)[k + 1 + j]?
      = some d := by
    rw [← List.getElem?_drop]
    show (List.drop (k + 1) (Scheduler.dispatchesOfLoop _ _))[j]? = some d
    rw [hdispatches, hd]
  refine ⟨d, u, hd', hhead, ?_, ?_⟩
  · rw [← List.getElem?_drop]
    show (List.drop (k + 1) (Scheduler.ticksOfLoop _ _))[j]? = some u
    rw [hticks, hu]
  · obtain ⟨v, hv, htick, -⟩ := hstart.loop_at hd'
    have hnow : d.tick = ((k + 1 + j : ℕ) : ℤ) := by
      rw [hv, Scheduler.tick_dispatch, htick]
      exact Int.zero_add _
    rw [← hnow]
    exact Scheduler.log_runOneCpuSlice hslice hhead

/-- **Turnaround.**  In every run over `n` well-formed processes, a process that is `READY`
when a tick reaches its slice (when it has just been admitted, say) has terminated within
`n` ticks for each CPU slice of a quantum that it still needs and the ticks of I/O that it
still has, if the run is given so many ticks. -/
theorem scheduler_turnaround_bound (A : BuddyArena) (mem : Mem) {quantum : ℤ} (maxTicks : ℤ)
    {ps : List Process} (hquantum : 1 ≤ quantum) (hps : ∀ p ∈ ps, p.WellFormed) {k i : ℕ}
    {d : Scheduler}
    (hd : ((Scheduler.create (A.start mem) quantum ps).dispatchesOfRun maxTicks)[k]? = some d)
    (hi : i < ps.length) (hstate : (d.proc i).state = .ready)
    (hmax : ((k + (ps.length * (d.proc i).slicesLeft quantum
      + (d.proc i).ioAhead (d.proc i).currentBurst) : ℕ) : ℤ) ≤ maxTicks) :
    ∃ j t, j < ps.length * (d.proc i).slicesLeft quantum
        + (d.proc i).ioAhead (d.proc i).currentBurst ∧
      ((Scheduler.create (A.start mem) quantum ps).ticksOfRun maxTicks)[k + j]? = some t ∧
      (t.proc i).state = .terminated := by
  obtain ⟨L, Q, own, hstart⟩ := Scheduler.inv_start A mem hquantum hps
  obtain ⟨u, hdu, -, hq, hn, ⟨L', Q', own', hinv⟩, hlt, hdrop⟩ := hstart.loop_at hd
  have hlength : u.allProcesses.length = ps.length := by
    rw [hn, Scheduler.allProcesses_create]
  have hquantum' : u.quantum = quantum := by
    rw [hq, Scheduler.allProcesses_create]
  have hqueues := hinv.queues.dispatch
  rw [← hdu] at hqueues
  have hdlength : d.allProcesses.length = ps.length := by
    rw [hdu, Scheduler.length_dispatch, hlength]
  have hdquantum : d.quantum = quantum := by
    rw [hdu, Scheduler.quantum_dispatch, hquantum']
  -- the process is somewhere in the ready queue of this tick
  have hmem : i ∈ d.readyQueue := (hqueues.mem_ready i).mpr ⟨by omega, hstate⟩
  obtain ⟨j, hj⟩ := List.mem_iff_getElem?.mp hmem
  have hjlt := (List.getElem?_eq_some_iff.mp hj).1
  have hle := hqueues.length_le
  have hpos := Scheduler.slicesLeft_pos hqueues (i := i) (by omega) (by rw [hstate]; decide)
  rw [hdquantum] at hpos
  obtain ⟨σ, hσ⟩ : ∃ σ, (d.proc i).slicesLeft quantum = σ + 1 :=
    Nat.exists_eq_succ_of_ne_zero (by omega)
  obtain ⟨t, hrun, L₁, Q₁, own₁, ht⟩ := hinv.tickOnce
  have hslice : d.runOneCpuSlice = some t := by
    rw [hdu]
    exact hrun
  rw [hσ, Nat.mul_succ] at hmax ⊢
  have hdue : Scheduler.Due t i
      (ps.length * σ + ps.length - 1 + (d.proc i).ioAhead (d.proc i).currentBurst) := by
    apply Scheduler.Due.of_ready hqueues hslice hj
    rw [hdquantum, hσ, hdlength, Nat.add_sub_cancel]
    omega
  obtain ⟨N, hN⟩ : ∃ N, maxTicks.toNat - k = N + 1 :=
    Nat.exists_eq_succ_of_ne_zero (by omega)
  have hfirst : ((Scheduler.create (A.start mem) quantum ps).ticksOfRun maxTicks).drop k
      = t :: if t.allTerminated then [] else Scheduler.ticksOfLoop N { t with tick := t.tick + 1 } := by
    show (Scheduler.ticksOfLoop _ _).drop k = _
    rw [hdrop, hN]
    simp only [Scheduler.ticksOfLoop, hrun]
  by_cases hterm : (t.proc i).state = .terminated
  · refine ⟨0, t, by omega, ?_, hterm⟩
    rw [← List.getElem?_drop, hfirst, List.getElem?_cons_zero]
  · have hilt : i < t.allProcesses.length := by
      rw [(Scheduler.frame_runOneCpuSlice hslice).2]
      omega
    have hall := Scheduler.allTerminated_false hilt hterm
    have hnext : Scheduler.Inv A { t with tick := t.tick + 1 } t.waitingList L₁ Q₁ own₁ :=
      ht.congr rfl rfl rfl rfl
    obtain ⟨m, hm⟩ : ∃ m, ps.length * σ + ps.length - 1
        + (d.proc i).ioAhead (d.proc i).currentBurst = m + 1 := by
      apply Nat.exists_eq_succ_of_ne_zero
      intro hzero
      rw [hzero] at hdue
      exact hterm (hdue.terminated ht.queues)
    rw [hm] at hdue
    obtain ⟨l, v, hl, hv, hvterm⟩ :=
      Scheduler.Inv.terminated_by (s := { t with tick := t.tick + 1 }) (N := N) hnext hdue (by omega)
    refine ⟨l + 1, v, by omega, ?_, hvterm⟩
    rw [← List.getElem?_drop, hfirst, hall, List.getElem?_cons_succ]
    exact hv

/-- The compiler of the crowd is admitted at once, in a queue of two. -/
theorem crowd_bounded_waiting :
    ∃ t, ((Scheduler.create (testArena.start (fun _ => 0)) 2 crowd).ticksOfRun 9)[0]? = some t ∧
      (t.proc 1).state = .ready ∧
      ∃ j < crowd.length, t.readyQueue[j]? = some 1 ∧
        (((0 + 1 + j : ℕ) : ℤ) < 9 →
          ∃ d u, ((Scheduler.create (testArena.start (fun _ => 0)) 2 crowd).dispatchesOfRun
              9)[0 + 1 + j]? = some d ∧ d.readyQueue.head? = some 1 ∧
            ((Scheduler.create (testArena.start (fun _ => 0)) 2 crowd).ticksOfRun
              9)[0 + 1 + j]? = some u ∧
            ⟨((0 + 1 + j : ℕ) : ℤ), "process_scheduled", (d.proc 1).id,
              [("burstIndex", .num (d.proc 1).currentBurst)]⟩ ∈ u.log) := by
  have hend : ((Scheduler.create (testArena.start (fun _ => 0)) 2 crowd).ticksOfRun 9)[0]?.map
      (fun t => (t.proc 1).state) = some .ready := by decide +kernel
  obtain ⟨t, ht, hstate⟩ := Option.map_eq_some_iff.mp hend
  exact ⟨t, ht, hstate, scheduler_bounded_waiting testArena (fun _ => 0) 9 (by norm_num)
    crowd_wellFormed ht (by decide) hstate⟩

/-- It needs one slice, and has terminated within three ticks. -/
theorem crowd_turnaround_bound :
    ∃ d, ((Scheduler.create (testArena.start (fun _ => 0)) 2 crowd).dispatchesOfRun 9)[0]? = some d ∧
      ∃ j t, j < 3 ∧
        ((Scheduler.create (testArena.start (fun _ => 0)) 2 crowd).ticksOfRun 9)[0 + j]? = some t ∧
        (t.proc 1).state = .terminated := by
  have hend : ((Scheduler.create (testArena.start (fun _ => 0)) 2 crowd).dispatchesOfRun 9)[0]?.map
      (fun d => ((d.proc 1).state, (d.proc 1).slicesLeft 2, (d.proc 1).ioAhead
        (d.proc 1).currentBurst)) = some (.ready, 1, 0) := by decide +kernel
  obtain ⟨d, hd, hfacts⟩ := Option.map_eq_some_iff.mp hend
  obtain ⟨hstate, hrest⟩ := Prod.mk.inj hfacts
  obtain ⟨hslices, hio⟩ := Prod.mk.inj hrest
  have hbound := scheduler_turnaround_bound testArena (fun _ => 0) 9 (by norm_num)
    crowd_wellFormed hd (by decide) hstate (by rw [hslices, hio]; decide)
  rw [hslices, hio] at hbound
  exact ⟨d, hd, hbound⟩

end OS
