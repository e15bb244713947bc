/-
# The scheduler conserves work

A run is observed at two points of every tick: when it reaches `RunOneCpuSlice`
(`dispatchesOfRun`) and at its end (`ticksOfRun`).  The slices of the CPU are read off
the first of these; they name a process by its index, since nothing keeps the `id`s
apart, and the log is shown to record exactly them.

`Process.remainingCpuTicks` is also the mark of a burst that has not begun, so that the
books of a process balance as follows (`Accounts`): the slices on a burst that is left
behind add up to its `cpuTicks`, and the slices on the current burst together with what
a dispatch would load make up its `cpuTicks`.  Admission and the countdown of the
blocked processes touch neither side; a slice moves `ran` ticks from one to the other.
-/
import MemoryAllocator.OsSchedulerInvariant

namespace OS

open Memory

/-! ## Slices -/

/-- A slice of the CPU: the process with index `idx` runs `ran` ticks of a burst. -/
structure Slice where
  tick : ℤ
  idx : ℕ
  pid : ℤ
  burst : ℕ
  ran : ℤ
  remaining : ℤ
  deriving DecidableEq, Repr

namespace Slice

/-- What the log says of a slice. -/
def events (x : Slice) : List Event :=
  [⟨x.tick, "process_scheduled", x.pid, [("burstIndex", .num x.burst)]⟩,
    ⟨x.tick, "cpu_run", x.pid, [("ticks", .num x.ran), ("remaining", .num x.remaining)]⟩]

end Slice

/-- An event that `RunOneCpuSlice` logs for the slice itself. -/
def Event.isSlice (e : Event) : Bool := e.type = "process_scheduled" ∨ e.type = "cpu_run"

/-- The ticks that the process with index `i` has run on burst `b`. -/
def ranOn (xs : List Slice) (i b : ℕ) : ℤ :=
  ((xs.filter (fun x => x.idx = i ∧ x.burst = b)).map Slice.ran).sum

/-- The bursts on which the process with index `i` has run, slice by slice. -/
def burstsOf (xs : List Slice) (i : ℕ) : List ℕ :=
  (xs.filter (fun x => x.idx = i)).map Slice.burst

section Slices

variable {xs : List Slice} {x : Slice} {i b : ℕ}

@[simp] theorem ranOn_nil : ranOn [] i b = 0 := rfl

theorem ranOn_append_self (hi : x.idx = i) (hb : x.burst = b) :
    ranOn (xs ++ [x]) i b = ranOn xs i b + x.ran := by
  simp [ranOn, hi, hb]

theorem ranOn_append_other (h : x.idx ≠ i ∨ x.burst ≠ b) :
    ranOn (xs ++ [x]) i b = ranOn xs i b := by
  have hneg : ¬ (x.idx = i ∧ x.burst = b) := by tauto
  simp [ranOn, hneg]

/-- Nothing has run on a burst that no slice is on. -/
theorem ranOn_eq_zero (h : ∀ x ∈ xs, x.idx = i → x.burst ≠ b) : ranOn xs i b = 0 := by
  have hnil : xs.filter (fun x => x.idx = i ∧ x.burst = b) = [] := by
    rw [List.filter_eq_nil_iff]
    intro x hx
    simpa using h x hx
  rw [ranOn, hnil]
  rfl

theorem burstsOf_append_other (h : x.idx ≠ i) : burstsOf (xs ++ [x]) i = burstsOf xs i := by
  simp [burstsOf, h]

theorem burstsOf_append_self (h : x.idx = i) :
    burstsOf (xs ++ [x]) i = burstsOf xs i ++ [x.burst] := by
  simp [burstsOf, h]

end Slices

namespace Scheduler

/-- The state in which a tick reaches `RunOneCpuSlice`. -/
def dispatch (s : Scheduler) : Scheduler := s.admitPendingProcesses.serviceIoQueue

/-- The slice that `RunOneCpuSlice` runs, if any. -/
def slice (s : Scheduler) : List Slice :=
  match s.readyQueue with
  | [] => []
  | idx :: _ =>
    let p := s.proc idx
    let ran := min s.quantum p.loaded
    [⟨s.tick, idx, p.id, p.currentBurst, ran, p.loaded - ran⟩]

/-- The states in which the ticks of the loop of `Run` reach `RunOneCpuSlice`. -/
def dispatchesOfLoop : ℕ → Scheduler → List Scheduler
  | 0, _ => []
  | n + 1, s =>
    s.dispatch ::
      match s.tickOnce with
      | none => []
      | some t => if t.allTerminated then [] else dispatchesOfLoop n { t with tick := t.tick + 1 }

/-- The states in which the ticks of `Run` reach `RunOneCpuSlice`. -/
def dispatchesOfRun (s : Scheduler) (maxTicks : ℤ) : List Scheduler :=
  dispatchesOfLoop maxTicks.toNat { s with tick := 0 }

/-- The slices of the first `k` ticks of `Run`. -/
def slicesOfRun (s : Scheduler) (maxTicks : ℤ) (k : ℕ) : List Slice :=
  ((s.dispatchesOfRun maxTicks).take k).flatMap slice

/-! ## The books of a process -/

end Scheduler

/-- How far a process has come. -/
def Process.progress (p : Process) : ℤ × List Burst × ℕ × ℤ :=
  (p.id, p.bursts, p.currentBurst, p.remainingCpuTicks)

/-- The books of the process with index `i`, which was given as `p₀` and is now `p`. -/
structure Accounts (p₀ p : Process) (i : ℕ) (xs : List Slice) : Prop where
  id_eq : p.id = p₀.id
  bursts_eq : p.bursts = p₀.bursts
  behind : ∀ b < p.currentBurst, ranOn xs i b = (p.bursts.getD b default).cpuTicks
  current : ranOn xs i p.currentBurst + p.loaded = p.burst.cpuTicks
  reached : ∀ x ∈ xs, x.idx = i → x.burst ≤ p.currentBurst ∧ x.burst < p.bursts.length
  ordered : (burstsOf xs i).Pairwise (· ≤ ·)

namespace Accounts

variable {p₀ p p' : Process} {i : ℕ} {xs : List Slice} {x : Slice}

/-- Only the progress of the process matters. -/
theorem congr (h : Accounts p₀ p i xs) (hp : p'.progress = p.progress) : Accounts p₀ p' i xs := by
  simp only [Process.progress, Prod.mk.injEq] at hp
  obtain ⟨hid, hbursts, hcurrent, hrem⟩ := hp
  have hburst : p'.burst = p.burst := by rw [Process.burst, Process.burst, hbursts, hcurrent]
  have hloaded : p'.loaded = p.loaded := by rw [Process.loaded, Process.loaded, hburst, hrem]
  refine ⟨hid ▸ h.id_eq, hbursts ▸ h.bursts_eq, ?_, ?_, ?_, h.ordered⟩
  · rw [hcurrent, hbursts]
    exact h.behind
  · rw [hcurrent, hloaded, hburst]
    exact h.current
  · rw [hcurrent, hbursts]
    exact h.reached

/-- The slices of other processes do not matter. -/
theorem append_other (h : Accounts p₀ p i xs) (hx : x.idx ≠ i) : Accounts p₀ p i (xs ++ [x]) := by
  refine ⟨h.id_eq, h.bursts_eq, ?_, ?_, ?_, ?_⟩
  · intro b hb
    rw [ranOn_append_other (.inl hx)]
    exact h.behind b hb
  · rw [ranOn_append_other (.inl hx)]
    exact h.current
  · intro y hy hi
    rcases List.mem_append.mp hy with hy | hy
    · exact h.reached y hy hi
    · rw [List.mem_singleton.mp hy] at hi
      exact absurd hi hx
  · rw [burstsOf_append_other hx]
    exact h.ordered

/-- A slice on the current burst keeps the order of the bursts. -/
theorem ordered_append (h : Accounts p₀ p i xs) (hidx : x.idx = i) (hburst : x.burst = p.currentBurst) :
    (burstsOf (xs ++ [x]) i).Pairwise (· ≤ ·) := by
  rw [burstsOf_append_self hidx, List.pairwise_append]
  refine ⟨h.ordered, List.pairwise_singleton _ _, ?_⟩
  intro b hb c hc
  obtain ⟨y, hy, rfl⟩ := List.mem_map.mp hb
  rw [List.mem_filter] at hy
  rw [List.mem_singleton.mp hc, hburst]
  exact (h.reached y hy.1 (by simpa using hy.2)).1

/-- The slice leaves some of the burst. -/
theorem preempt (h : Accounts p₀ p i xs) (hlt : p.currentBurst < p.bursts.length)
    (hidx : x.idx = i) (hburst : x.burst = p.currentBurst) {rem : ℤ} (hrem : 0 < rem)
    (hran : x.ran + rem = p.loaded) {p' : Process}
    (hp : p'.progress = (p.id, p.bursts, p.currentBurst, rem)) : Accounts p₀ p' i (xs ++ [x]) := by
  simp only [Process.progress, Prod.mk.injEq] at hp
  obtain ⟨hid, hbursts, hcurrent, hrem'⟩ := hp
  have hcurrentBurst : p'.burst = p.burst := by rw [Process.burst, Process.burst, hbursts, hcurrent]
  have hloaded : p'.loaded = rem := by
    rw [Process.loaded, hrem', if_neg (not_le.mpr hrem)]
  refine ⟨hid ▸ h.id_eq, hbursts ▸ h.bursts_eq, ?_, ?_, ?_, h.ordered_append hidx hburst⟩
  · intro b hb
    rw [hcurrent] at hb
    rw [hbursts, ranOn_append_other (.inr (by omega))]
    exact h.behind b hb
  · have hold := h.current
    rw [hcurrent, ranOn_append_self hidx hburst, hloaded, hcurrentBurst]
    omega
  · intro y hy hi
    rw [hcurrent, hbursts]
    rcases List.mem_append.mp hy with hy | hy
    · exact h.reached y hy hi
    · rw [List.mem_singleton.mp hy, hburst]
      exact ⟨le_refl _, hlt⟩

/-- The slice is the last one of the burst. -/
theorem leave (h : Accounts p₀ p i xs) (hlt : p.currentBurst < p.bursts.length)
    (hidx : x.idx = i) (hburst : x.burst = p.currentBurst) {rem : ℤ} (hrem : rem ≤ 0)
    (hran : x.ran = p.loaded) {p' : Process}
    (hp : p'.progress = (p.id, p.bursts, p.currentBurst + 1, rem)) :
    Accounts p₀ p' i (xs ++ [x]) := by
  simp only [Process.progress, Prod.mk.injEq] at hp
  obtain ⟨hid, hbursts, hcurrent, hrem'⟩ := hp
  have hloaded : p'.loaded = p'.burst.cpuTicks := by
    rw [Process.loaded, hrem', if_pos hrem]
  have hreached : ∀ y ∈ xs ++ [x], y.idx = i →
      y.burst ≤ p.currentBurst ∧ y.burst < p.bursts.length := by
    intro y hy hi
    rcases List.mem_append.mp hy with hy | hy
    · exact h.reached y hy hi
    · rw [List.mem_singleton.mp hy, hburst]
      exact ⟨le_refl _, hlt⟩
  refine ⟨hid ▸ h.id_eq, hbursts ▸ h.bursts_eq, ?_, ?_, ?_, h.ordered_append hidx hburst⟩
  · intro b hb
    rw [hbursts]
    by_cases hbc : b = p.currentBurst
    · -- the burst that is left behind now
      have hold := h.current
      rw [hbc, ranOn_append_self hidx hburst, hran]
      exact hold
    · rw [ranOn_append_other (.inr (by omega))]
      exact h.behind b (by omega)
  · have hzero : ranOn (xs ++ [x]) i p'.currentBurst = 0 := by
      refine ranOn_eq_zero (fun y hy hi => ?_)
      have := (hreached y hy hi).1
      omega
    rw [hzero, hloaded, zero_add]
  · intro y hy hi
    rw [hcurrent, hbursts]
    obtain ⟨hle, hlen⟩ := hreached y hy hi
    exact ⟨by omega, hlen⟩

end Accounts

namespace Scheduler

/-! ## The invariant -/

/-- The slices `xs` are what the scheduler has run since `s₀`: they are in bounds, they
are the ones in the log, and with them the books of every process balance. -/
structure Worked (s₀ s : Scheduler) (xs : List Slice) : Prop where
  queues : QueueInv s s.waitingList
  length_eq : s.allProcesses.length = s₀.allProcesses.length
  quantum_eq : s.quantum = s₀.quantum
  accounts : ∀ i < s.allProcesses.length, Accounts (s₀.proc i) (s.proc i) i xs
  finished : ∀ i < s.allProcesses.length, (s.proc i).state = .terminated →
    (s.proc i).bursts.length ≤ (s.proc i).currentBurst
  bounds : ∀ x ∈ xs, 1 ≤ x.ran ∧ x.ran ≤ s₀.quantum
  logged : s.log.filter Event.isSlice = xs.flatMap Slice.events

variable {s₀ s t : Scheduler} {xs : List Slice}

/-- A phase without a slice. -/
theorem Worked.congr (h : Worked s₀ s xs) (hqueues : QueueInv t t.waitingList)
    (hlength : t.allProcesses.length = s.allProcesses.length) (hquantum : t.quantum = s.quantum)
    (hprogress : ∀ i, (t.proc i).progress = (s.proc i).progress)
    (hstate : ∀ i, (t.proc i).state = .terminated → (s.proc i).state = .terminated)
    (hlog : t.log.filter Event.isSlice = s.log.filter Event.isSlice) : Worked s₀ t xs := by
  refine ⟨hqueues, hlength.trans h.length_eq, hquantum.trans h.quantum_eq, ?_, ?_, h.bounds,
    hlog.trans h.logged⟩
  · intro i hi
    exact (h.accounts i (hlength ▸ hi)).congr (hprogress i)
  · intro i hi hterm
    have hprogress := hprogress i
    simp only [Process.progress, Prod.mk.injEq] at hprogress
    rw [hprogress.2.1, hprogress.2.2.1]
    exact h.finished i (hlength ▸ hi) (hstate i hterm)

theorem Worked.admitOne (h : Worked s₀ s xs) {i : ℕ} (hi : i < s.allProcesses.length) :
    Worked s₀ (s.admitOne i) xs := by
  have hwaiting : (s.admitOne i).waitingList = s.waitingList := by
    rcases admitOne_cases s i with ⟨a, heq⟩ | ⟨-, a, ptr, offset, size, created, granted, heq⟩ <;>
      rw [heq]
  have hqueues : QueueInv (s.admitOne i) (s.admitOne i).waitingList := by
    rw [hwaiting]
    exact h.queues.admitOne hi
  rcases admitOne_cases s i with ⟨a, heq⟩ | ⟨-, a, ptr, offset, size, created, granted, heq⟩
  · exact h.congr hqueues (length_admitOne s i) (by rw [heq]) (fun j => by rw [heq]; rfl)
      (fun j => by rw [heq]; exact id) (by rw [heq])
  · refine h.congr hqueues (length_admitOne s i) (by rw [heq]) (fun j => ?_) (fun j => ?_) ?_
    · by_cases hj : j = i
      · subst hj
        rw [proc_of_set (s := s) (by rw [heq]) hi]
        rfl
      · rw [proc_of_set_ne (s := s) (by rw [heq]) hj]
    · by_cases hj : j = i
      · subst hj
        rw [proc_of_set (s := s) (by rw [heq]) hi]
        simp
      · rw [proc_of_set_ne (s := s) (by rw [heq]) hj]
        exact id
    · rw [heq]
      simp [Event.isSlice]

theorem filter_log_serviceLoop (rest : List ℕ) (s : Scheduler) :
    (serviceLoop rest s).2.log.filter Event.isSlice = s.log.filter Event.isSlice := by
  induction rest generalizing s with
  | nil => rfl
  | cons i rest ih =>
    rcases serviceLoop_cons i rest s with ⟨-, t, ht, heq⟩ | ⟨-, t, ht, heq⟩
    · rw [heq, ih t, ht]
      simp [Event.isSlice]
    · rw [heq, ih t, ht]
      rfl

/-- Admission and the countdown of the blocked processes. -/
theorem Worked.dispatch (h : Worked s₀ s xs) : Worked s₀ s.dispatch xs := by
  have hadmitted : Worked s₀ s.admitPendingProcesses xs :=
    admitPendingProcesses_induct s (P := fun u => Worked s₀ u xs) h (fun _ _ hi hu => hu.admitOne hi)
  obtain ⟨hlength, hquantum, -, -⟩ := serviceLoop_frame s.admitPendingProcesses.waitingList
    s.admitPendingProcesses
  obtain ⟨-, -, hproc⟩ := hadmitted.queues.serviceIoQueue_spec
  refine hadmitted.congr hadmitted.queues.serviceIoQueue hlength hquantum (fun i => ?_)
    (fun i => ?_) (filter_log_serviceLoop _ _)
  · rw [Scheduler.dispatch, hproc]
    split_ifs <;> rfl
  · rw [Scheduler.dispatch, hproc]
    split_ifs with hwait
    · -- a process that is done with its wait is ready
      intro hterm
      unfold Process.serviced at hterm
      dsimp only at hterm
      split_ifs at hterm
      exact hterm
    · exact id

/-- What a slice logs, beside what is not about the slice itself. -/
theorem filter_log_runOneCpuSlice (hrun : s.runOneCpuSlice = some t) :
    t.log.filter Event.isSlice = s.log.filter Event.isSlice ++ s.slice.flatMap Slice.events := by
  match hq : s.readyQueue with
  | [] =>
    rw [Scheduler.runOneCpuSlice, hq] at hrun
    obtain rfl := Option.some.inj hrun
    simp [slice, hq]
  | idx :: queue =>
    by_cases hload : (s.proc idx).remainingCpuTicks ≤ 0
    all_goals
      simp only [Scheduler.runOneCpuSlice, hq, hload, if_true, if_false] at hrun
      split_ifs at hrun with h1 h2 h3
      · obtain rfl := Option.some.inj hrun
        simp [slice, hq, Slice.events, Event.isSlice, Process.loaded, Process.burst, hload]
      · obtain rfl := Option.some.inj hrun
        simp [slice, hq, Slice.events, Event.isSlice, Process.loaded, Process.burst, hload]
      · obtain rfl := Option.some.inj hrun
        simp [slice, hq, Slice.events, Event.isSlice, Process.loaded, Process.burst, hload]
      · obtain ⟨a, -, rfl⟩ := Option.map_eq_some_iff.mp hrun
        simp [slice, hq, Slice.events, Event.isSlice, Process.loaded, Process.burst, hload]

/-- A slice has at least one tick and at most a quantum. -/
theorem QueueInv.slice_bounds {W : List ℕ} (h : QueueInv s W) :
    ∀ x ∈ s.slice, 1 ≤ x.ran ∧ x.ran ≤ s.quantum := by
  intro x hx
  match hq : s.readyQueue with
  | [] => simp [slice, hq] at hx
  | idx :: queue =>
    obtain ⟨hlt, hstate⟩ := (h.mem_ready idx).mp (by simp [hq])
    have hload := (h.ok idx hlt).loaded_pos (by simp [hstate])
    have hpos := h.quantum_pos
    simp only [slice, hq, List.mem_singleton] at hx
    rw [hx]
    exact ⟨le_min hpos hload, min_le_left _ _⟩

/-- **A slice of the CPU** is entered in the books. -/
theorem Worked.runOneCpuSlice (h : Worked s₀ s xs) (hrun : s.runOneCpuSlice = some t) :
    Worked s₀ t (xs ++ s.slice) := by
  have hqueues := h.queues.runOneCpuSlice hrun
  have hlog : t.log.filter Event.isSlice = (xs ++ s.slice).flatMap Slice.events := by
    rw [filter_log_runOneCpuSlice hrun, h.logged, List.flatMap_append]
  match hq : s.readyQueue with
  | [] =>
    have hnone : s.slice = [] := by rw [slice, hq]
    rw [Scheduler.runOneCpuSlice, hq] at hrun
    obtain rfl := Option.some.inj hrun
    rw [hnone, List.append_nil]
    exact h
  | idx :: queue =>
    obtain ⟨hlt, hstate⟩ := (h.queues.mem_ready idx).mp (by simp [hq])
    have hok := h.queues.ok idx hlt
    have hlive : (s.proc idx).state ≠ .terminated := by simp [hstate]
    have hburst := hok.burst_lt hlive
    have hload := hok.loaded_pos hlive
    have hpos := h.queues.quantum_pos
    have hbooks := h.accounts idx hlt
    obtain ⟨x, hx⟩ : ∃ x : Slice, x = ⟨s.tick, idx, (s.proc idx).id, (s.proc idx).currentBurst,
        min s.quantum (s.proc idx).loaded,
        (s.proc idx).loaded - min s.quantum (s.proc idx).loaded⟩ := ⟨_, rfl⟩
    have hidx : x.idx = idx := by rw [hx]
    have hcurrent : x.burst = (s.proc idx).currentBurst := by rw [hx]
    have hran : x.ran = min s.quantum (s.proc idx).loaded := by rw [hx]
    have hslice : s.slice = [x] := by rw [slice, hq, hx]
    obtain ⟨rem, hrem⟩ : ∃ rem, rem = (s.proc idx).loaded - min s.quantum (s.proc idx).loaded :=
      ⟨_, rfl⟩
    have hbounds : ∀ y ∈ xs ++ s.slice, 1 ≤ y.ran ∧ y.ran ≤ s₀.quantum := by
      intro y hy
      rcases List.mem_append.mp hy with hy | hy
      · exact h.bounds y hy
      · exact h.quantum_eq ▸ h.queues.slice_bounds y hy
    -- the books of the process that ran, and those of the others
    have hfinish : ∀ (p : Process), t.allProcesses = s.allProcesses.set idx p →
        t.quantum = s.quantum → Accounts (s₀.proc idx) p idx (xs ++ [x]) →
        (p.state = .terminated → p.bursts.length ≤ p.currentBurst) →
        Worked s₀ t (xs ++ s.slice) := by
      intro p hprocs hquantum hp hfinished
      have hlength : t.allProcesses.length = s.allProcesses.length := by simp [hprocs]
      refine ⟨hqueues, hlength.trans h.length_eq, hquantum.trans h.quantum_eq, ?_, ?_, hbounds, hlog⟩
      · intro i hi
        rw [hslice]
        by_cases hi' : i = idx
        · subst hi'
          rw [proc_of_set hprocs hlt]
          exact hp
        · rw [proc_of_set_ne hprocs hi']
          exact (h.accounts i (hlength ▸ hi)).append_other (fun heq => hi' (heq.symm.trans hidx))
      · intro i hi
        by_cases hi' : i = idx
        · subst hi'
          rw [proc_of_set hprocs hlt]
          exact hfinished
        · rw [proc_of_set_ne hprocs hi']
          exact h.finished i (hlength ▸ hi)
    rcases runOneCpuSlice_cons hq rfl hrem with ⟨hleft, log, heq⟩ | ⟨hdone, -, log, heq⟩ |
      ⟨hdone, -, -, log, heq⟩ | ⟨hdone, -, hlast, log, heq⟩
    · -- preempted
      obtain rfl := Option.some.inj (heq.symm.trans hrun)
      exact hfinish _ rfl rfl (hbooks.preempt hburst hidx hcurrent hleft (by omega) rfl) (by simp)
    · -- blocked
      obtain rfl := Option.some.inj (heq.symm.trans hrun)
      exact hfinish _ rfl rfl (hbooks.leave hburst hidx hcurrent hdone (by omega) rfl) (by simp)
    · -- on to the next burst
      obtain rfl := Option.some.inj (heq.symm.trans hrun)
      exact hfinish _ rfl rfl (hbooks.leave hburst hidx hcurrent hdone (by omega) rfl) (by simp)
    · -- terminated
      obtain ⟨a, -, rfl⟩ := Option.map_eq_some_iff.mp (heq.symm.trans hrun)
      exact hfinish _ rfl rfl (hbooks.leave hburst hidx hcurrent hdone (by omega) rfl)
        (fun _ => hlast)

theorem Worked.withTick (h : Worked s₀ s xs) (k : ℤ) : Worked s₀ { s with tick := k } xs :=
  h.congr (h.queues.congr rfl rfl rfl) rfl rfl (fun _ => rfl) (fun _ => id) rfl

/-! ## Waiting -/

/-- The process with index `i` is blocked for `r` more ticks. -/
def Waits (s : Scheduler) (i : ℕ) (r : ℤ) : Prop :=
  i ∈ s.waitingList ∧ (s.proc i).remainingIoTicks = r

variable {i : ℕ} {r : ℤ}

theorem QueueInv.not_ready (h : QueueInv s s.waitingList) (hi : i ∈ s.waitingList) :
    i ∉ s.readyQueue := by
  intro hmem
  exact (List.nodup_append.mp h.nodup).2.2 i hmem i hi rfl

/-- Admission does not touch a blocked process. -/
theorem Waits.admitPendingProcesses (h : Waits s i r) (hwait : (s.proc i).state = .waiting) :
    Waits s.admitPendingProcesses i r := by
  have hsame : s.admitPendingProcesses.proc i = s.proc i := by
    apply admitPendingProcesses_induct s (P := fun u => u.proc i = s.proc i) rfl
    intro u j hj hu
    rcases admitOne_cases u j with ⟨a, heq⟩ | ⟨hnew, a, ptr, offset, size, created, granted, heq⟩
    · rw [heq]
      exact hu
    · have hij : i ≠ j := by
        rintro rfl
        rw [hu, hwait] at hnew
        simp at hnew
      rw [proc_of_set_ne (s := u) (by rw [heq]) hij, hu]
  exact ⟨waitingList_admitPendingProcesses s ▸ h.1, by rw [hsame]; exact h.2⟩

/-- A tick takes one tick off the wait, and ends it at the right time. -/
theorem Waits.dispatch (hq : QueueInv s s.waitingList) (h : Waits s i r) :
    (r ≤ 1 → i ∈ s.dispatch.readyQueue) ∧ (1 < r → Waits s.dispatch i (r - 1)) := by
  have hadmission := h.admitPendingProcesses ((hq.mem_waiting i).mp h.1).2
  have hqueues : QueueInv s.admitPendingProcesses s.admitPendingProcesses.waitingList := by
    rw [waitingList_admitPendingProcesses]
    exact hq.admitPendingProcesses
  obtain ⟨hwaiting, hready, hproc⟩ := hqueues.serviceIoQueue_spec
  constructor
  · intro hr
    rw [Scheduler.dispatch, hready, List.mem_append, List.mem_filter]
    exact .inr ⟨hadmission.1, by simpa [hadmission.2] using hr⟩
  · intro hr
    refine ⟨?_, ?_⟩
    · rw [Scheduler.dispatch, hwaiting, List.mem_filter]
      exact ⟨hadmission.1, by simpa [hadmission.2] using hr⟩
    · rw [Scheduler.dispatch, hproc, if_pos hadmission.1, ← hadmission.2]
      rfl

/-- The processes that the slice does not run are as they were. -/
theorem proc_runOneCpuSlice (hrun : s.runOneCpuSlice = some t) (hi : s.readyQueue.head? ≠ some i) :
    t.proc i = s.proc i ∧ (i ∈ s.waitingList → i ∈ t.waitingList) := by
  match hq : s.readyQueue with
  | [] =>
    rw [Scheduler.runOneCpuSlice, hq] at hrun
    obtain rfl := Option.some.inj hrun
    exact ⟨rfl, id⟩
  | idx :: queue =>
    have hne : i ≠ idx := by
      rintro rfl
      exact hi (by rw [hq]; rfl)
    rcases runOneCpuSlice_cons hq rfl rfl with ⟨-, log, heq⟩ | ⟨-, -, log, heq⟩ |
      ⟨-, -, -, log, heq⟩ | ⟨-, -, -, log, heq⟩
    · obtain rfl := Option.some.inj (heq.symm.trans hrun)
      exact ⟨proc_of_set_ne rfl hne, id⟩
    · obtain rfl := Option.some.inj (heq.symm.trans hrun)
      exact ⟨proc_of_set_ne rfl hne, List.mem_append_left _⟩
    · obtain rfl := Option.some.inj (heq.symm.trans hrun)
      exact ⟨proc_of_set_ne rfl hne, id⟩
    · obtain ⟨a, -, rfl⟩ := Option.map_eq_some_iff.mp (heq.symm.trans hrun)
      exact ⟨proc_of_set_ne rfl hne, id⟩

theorem Waits.runOneCpuSlice (hq : QueueInv s s.waitingList) (h : Waits s i r)
    (hrun : s.runOneCpuSlice = some t) : Waits t i r := by
  have hnot := hq.not_ready h.1
  obtain ⟨hproc, hwait⟩ := proc_runOneCpuSlice hrun (i := i) (fun hhead =>
    hnot (List.mem_of_mem_head? hhead))
  exact ⟨hwait h.1, by rw [hproc]; exact h.2⟩

/-- **Leaving a burst with I/O** blocks the process for as long as the I/O takes. -/
theorem QueueInv.waits_of_leave (hq : QueueInv s s.waitingList) (hrun : s.runOneCpuSlice = some t)
    (hleave : (t.proc i).currentBurst ≠ (s.proc i).currentBurst)
    (hio : 0 < (s.proc i).burst.ioTicks) : Waits t i (s.proc i).burst.ioTicks := by
  by_cases hhead : s.readyQueue.head? = some i
  · obtain ⟨queue, hcons⟩ := List.head?_eq_some_iff.mp hhead
    have hlt := ((hq.mem_ready i).mp (by simp [hcons])).1
    rcases runOneCpuSlice_cons hcons rfl rfl with ⟨-, log, heq⟩ | ⟨-, -, log, heq⟩ |
      ⟨-, hnone, -, log, heq⟩ | ⟨-, hnone, -, log, heq⟩
    · obtain rfl := Option.some.inj (heq.symm.trans hrun)
      rw [proc_of_set (s := s) rfl hlt] at hleave
      exact absurd rfl hleave
    · obtain rfl := Option.some.inj (heq.symm.trans hrun)
      refine ⟨by simp, ?_⟩
      rw [proc_of_set (s := s) rfl hlt]
    · exact absurd hio (not_lt.mpr hnone)
    · exact absurd hio (not_lt.mpr hnone)
  · rw [(proc_runOneCpuSlice hrun hhead).1] at hleave
    exact absurd rfl hleave

/-! ## Runs -/

theorem tick_dispatch (s : Scheduler) : s.dispatch.tick = s.tick := by
  have hadmission : s.admitPendingProcesses.tick = s.tick := by
    apply admitPendingProcesses_induct s (P := fun u => u.tick = s.tick) rfl
    intro u i _ hu
    rcases admitOne_cases u i with ⟨a, heq⟩ | ⟨-, a, ptr, offset, size, created, granted, heq⟩
    · rw [heq]
      exact hu
    · rw [heq]
      exact hu
  exact (serviceLoop_frame _ _).2.2.1.trans hadmission

theorem tick_tickOnce (hrun : s.tickOnce = some t) : t.tick = s.tick := by
  have hslice : s.dispatch.runOneCpuSlice = some t := hrun
  rw [← tick_dispatch s]
  match hq : s.dispatch.readyQueue with
  | [] =>
    rw [Scheduler.runOneCpuSlice, hq] at hslice
    rw [Option.some.inj hslice]
  | idx :: queue =>
    rcases runOneCpuSlice_cons hq rfl rfl with ⟨-, log, heq⟩ | ⟨-, -, log, heq⟩ |
      ⟨-, -, -, log, heq⟩ | ⟨-, -, -, log, heq⟩
    · rw [← Option.some.inj (heq.symm.trans hslice)]
    · rw [← Option.some.inj (heq.symm.trans hslice)]
    · rw [← Option.some.inj (heq.symm.trans hslice)]
    · obtain ⟨a, -, rfl⟩ := Option.map_eq_some_iff.mp (heq.symm.trans hslice)
      rfl

/-- A tick that does not end the loop. -/
theorem loop_succ (n : ℕ) (hrun : s.tickOnce = some t) (hall : t.allTerminated = false) :
    dispatchesOfLoop (n + 1) s
      = s.dispatch :: dispatchesOfLoop n { t with tick := t.tick + 1 } ∧
    ticksOfLoop (n + 1) s = t :: ticksOfLoop n { t with tick := t.tick + 1 } := by
  simp [dispatchesOfLoop, ticksOfLoop, hrun, hall]

/-- **Tick by tick.**  The `k`-th dispatch of the loop comes from a state with the books of
the slices before it, and if that tick ends, the rest of the loop starts where it ends. -/
theorem dispatchesOfLoop_getElem? (s₀ : Scheduler) (n : ℕ) {k : ℕ} {d : Scheduler}
    (hd : (dispatchesOfLoop n s)[k]? = some d) :
    ∃ u, d = u.dispatch ∧ u.tick = s.tick + k ∧
      (∀ xs, Worked s₀ s xs →
        Worked s₀ u (xs ++ ((dispatchesOfLoop n s).take k).flatMap slice)) ∧
      ∀ t, (ticksOfLoop n s)[k]? = some t → u.tickOnce = some t ∧
        ∃ m, (dispatchesOfLoop n s).drop (k + 1) = dispatchesOfLoop m { t with tick := t.tick + 1 } ∧
          (ticksOfLoop n s).drop (k + 1) = ticksOfLoop m { t with tick := t.tick + 1 } := by
  induction n generalizing s k with
  | zero => simp [dispatchesOfLoop] at hd
  | succ n ih =>
    cases k with
    | zero =>
      refine ⟨s, by simpa [dispatchesOfLoop] using hd.symm, by simp, fun xs h => by simpa using h, ?_⟩
      intro t ht
      cases hrun : s.tickOnce with
      | none => simp [ticksOfLoop, hrun] at ht
      | some t' =>
        obtain rfl : t' = t := by simpa [ticksOfLoop, hrun] using ht
        refine ⟨rfl, ?_⟩
        simp only [dispatchesOfLoop, ticksOfLoop, hrun, List.drop_succ_cons, List.drop_zero]
        split_ifs with hall
        · exact ⟨0, rfl, rfl⟩
        · exact ⟨n, rfl, rfl⟩
    | succ k =>
      cases hrun : s.tickOnce with
      | none => simp [dispatchesOfLoop, hrun] at hd
      | some t' =>
        by_cases hall : t'.allTerminated
        · simp [dispatchesOfLoop, hrun, hall] at hd
        · obtain ⟨hdispatches, hticks⟩ := loop_succ n hrun (by simpa using hall)
          rw [hdispatches, List.getElem?_cons_succ] at hd
          obtain ⟨u, hdu, htick, hworked, hrest⟩ := ih hd
          refine ⟨u, hdu, ?_, ?_, ?_⟩
          · rw [htick]
            show t'.tick + 1 + (k : ℤ) = s.tick + ((k + 1 : ℕ) : ℤ)
            rw [tick_tickOnce hrun]
            push_cast
            ring
          · intro xs h
            have hnext := (h.dispatch.runOneCpuSlice hrun).withTick (t'.tick + 1)
            have hu := hworked _ hnext
            rwa [hdispatches, List.take_succ_cons, List.flatMap_cons, ← List.append_assoc]
          · intro t ht
            rw [hticks, List.getElem?_cons_succ] at ht
            rw [hdispatches, hticks, List.drop_succ_cons, List.drop_succ_cons]
            exact hrest t ht

/-- A tick that ends has dispatched. -/
theorem dispatchesOfLoop_of_ticksOfLoop (n : ℕ) {k : ℕ} (ht : (ticksOfLoop n s)[k]? = some t) :
    ∃ d, (dispatchesOfLoop n s)[k]? = some d := by
  induction n generalizing s k with
  | zero => simp [ticksOfLoop] at ht
  | succ n ih =>
    cases k with
    | zero => exact ⟨s.dispatch, rfl⟩
    | succ k =>
      cases hrun : s.tickOnce with
      | none => simp [ticksOfLoop, hrun] at ht
      | some t' =>
        by_cases hall : t'.allTerminated
        · simp [ticksOfLoop, hrun, hall] at ht
        · obtain ⟨hdispatches, hticks⟩ := loop_succ n hrun (by simpa using hall)
          rw [hticks, List.getElem?_cons_succ] at ht
          rw [hdispatches, List.getElem?_cons_succ]
          exact ih ht

/-- The end of the `k`-th tick has the books of the slices up to it. -/
theorem Worked.ticksOfLoop (h : Worked s₀ s xs) (n : ℕ) {k : ℕ}
    (ht : (Scheduler.ticksOfLoop n s)[k]? = some t) :
    Worked s₀ t (xs ++ ((dispatchesOfLoop n s).take (k + 1)).flatMap slice) := by
  obtain ⟨d, hd⟩ := dispatchesOfLoop_of_ticksOfLoop n ht
  obtain ⟨u, rfl, -, hworked, hend⟩ := dispatchesOfLoop_getElem? s₀ n hd
  have hslice := (hworked xs h).dispatch.runOneCpuSlice (hend t ht).1
  rw [List.take_add_one, hd, List.flatMap_append, ← List.append_assoc]
  simpa using hslice

/-- **The wait.**  A process that is blocked for `r + 1` more ticks stays so for `r` ticks
and is ready when the next one dispatches. -/
theorem Worked.waits (h : Worked s₀ s xs) {r : ℕ} (hwait : Waits s i (r + 1)) (n : ℕ) :
    (∀ j < r, (∀ d, (dispatchesOfLoop n s)[j]? = some d → i ∈ d.waitingList ∧ i ∉ d.readyQueue) ∧
      ∀ t, (Scheduler.ticksOfLoop n s)[j]? = some t → i ∈ t.waitingList ∧ i ∉ t.readyQueue) ∧
    ∀ d, (dispatchesOfLoop n s)[r]? = some d → i ∈ d.readyQueue ∧ i ∉ d.waitingList := by
  induction n generalizing s xs r with
  | zero => simp [dispatchesOfLoop, Scheduler.ticksOfLoop]
  | succ n ih =>
    have hdispatch := h.dispatch
    obtain ⟨hlast, hmore⟩ := hwait.dispatch h.queues
    cases r with
    | zero =>
      refine ⟨by simp, fun d hd => ?_⟩
      obtain rfl : s.dispatch = d := by simpa [dispatchesOfLoop] using hd
      have hready := hlast (by simp)
      exact ⟨hready, fun hmem => hdispatch.queues.not_ready hmem hready⟩
    | succ r =>
      have hwaits : Waits s.dispatch i (r + 1) := by
        have := hmore (by push_cast; omega)
        rwa [show ((r + 1 : ℕ) : ℤ) + 1 - 1 = (r : ℤ) + 1 by push_cast; ring] at this
      have hstill : i ∈ s.dispatch.waitingList ∧ i ∉ s.dispatch.readyQueue :=
        ⟨hwaits.1, hdispatch.queues.not_ready hwaits.1⟩
      cases hrun : s.tickOnce with
      | none =>
        refine ⟨fun j _ => ⟨fun d hd => ?_, fun t ht => ?_⟩, fun d hd => ?_⟩
        · cases j with
          | zero =>
            obtain rfl : s.dispatch = d := by simpa [dispatchesOfLoop] using hd
            exact hstill
          | succ j => simp [dispatchesOfLoop, hrun] at hd
        · simp [Scheduler.ticksOfLoop, hrun] at ht
        · simp [dispatchesOfLoop, hrun] at hd
      | some t' =>
        have hnext := (hdispatch.runOneCpuSlice hrun).withTick (t'.tick + 1)
        have hwaits' := hwaits.runOneCpuSlice hdispatch.queues hrun
        have hafter : i ∈ t'.waitingList ∧ i ∉ t'.readyQueue :=
          ⟨hwaits'.1, hnext.queues.not_ready hwaits'.1⟩
        -- a blocked process keeps the loop going
        have hnot : t'.allTerminated = false := by
          obtain ⟨hlt, hstate⟩ := (hnext.queues.mem_waiting i).mp hwaits'.1
          rw [allTerminated, List.all_eq_false]
          exact ⟨t'.proc i, proc_mem hlt, by simpa using (show (t'.proc i).state ≠ _ by
            rw [show (t'.proc i).state = .waiting from hstate]; simp)⟩
        obtain ⟨hdispatches, hticks⟩ := loop_succ n hrun hnot
        obtain ⟨hrest, hend⟩ := ih hnext (r := r) hwaits'
        rw [hdispatches, hticks]
        refine ⟨fun j hj => ?_, fun d hd => ?_⟩
        · cases j with
          | zero =>
            refine ⟨fun d hd => ?_, fun t ht => ?_⟩
            · obtain rfl : s.dispatch = d := by simpa using hd
              exact hstill
            · obtain rfl : t' = t := by simpa using ht
              exact hafter
          | succ j => simpa only [List.getElem?_cons_succ] using hrest j (by omega)
        · rw [List.getElem?_cons_succ] at hd
          exact hend d hd

/-! ## What an observer of a run sees -/

/-- The work of a run is accounted for. -/
structure ConservesWork (s : Scheduler) (maxTicks : ℤ) : Prop where
  clock : ∀ (k : ℕ) (d : Scheduler), (s.dispatchesOfRun maxTicks)[k]? = some d → d.tick = k
  logged : ∀ k t, (s.ticksOfRun maxTicks)[k]? = some t →
    t.log.filter Event.isSlice = (s.slicesOfRun maxTicks (k + 1)).flatMap Slice.events
  slice_bounds : ∀ k, ∀ x ∈ s.slicesOfRun maxTicks k, 1 ≤ x.ran ∧ x.ran ≤ s.quantum
  cpu_run_bounds : ∀ t ∈ s.ticksOfRun maxTicks, ∀ e ∈ t.log, e.type = "cpu_run" →
    ∃ ran, e.fields.lookup "ticks" = some (.num ran) ∧ 1 ≤ ran ∧ ran ≤ s.quantum
  left_behind : ∀ k t, (s.ticksOfRun maxTicks)[k]? = some t → ∀ i < s.allProcesses.length,
    ∀ b < (t.proc i).currentBurst,
      ranOn (s.slicesOfRun maxTicks (k + 1)) i b = ((s.proc i).bursts.getD b default).cpuTicks
  io_return : ∀ k d t, (s.dispatchesOfRun maxTicks)[k]? = some d →
    (s.ticksOfRun maxTicks)[k]? = some t → ∀ i,
    (t.proc i).currentBurst ≠ (d.proc i).currentBurst → ∀ io : ℕ, 0 < io →
    (d.proc i).burst.ioTicks = (io : ℤ) →
      (∀ j, k ≤ j → j < k + io → ∀ u, (s.ticksOfRun maxTicks)[j]? = some u →
        i ∈ u.waitingList ∧ i ∉ u.readyQueue) ∧
      (∀ j, k < j → j < k + io → ∀ u, (s.dispatchesOfRun maxTicks)[j]? = some u →
        i ∈ u.waitingList ∧ i ∉ u.readyQueue) ∧
      ∀ u, (s.dispatchesOfRun maxTicks)[k + io]? = some u →
        i ∈ u.readyQueue ∧ i ∉ u.waitingList
  terminated : ∀ k t, (s.ticksOfRun maxTicks)[k]? = some t → ∀ i < s.allProcesses.length,
    (t.proc i).state = .terminated →
      (burstsOf (s.slicesOfRun maxTicks (k + 1)) i).Pairwise (· ≤ ·) ∧
      (∀ b ∈ burstsOf (s.slicesOfRun maxTicks (k + 1)) i, b < (s.proc i).bursts.length) ∧
      ∀ b < (s.proc i).bursts.length,
        ranOn (s.slicesOfRun maxTicks (k + 1)) i b = ((s.proc i).bursts.getD b default).cpuTicks

/-- A scheduler with balanced books to begin with conserves work. -/
theorem Worked.conservesWork (h : Worked s { s with tick := 0 } []) (maxTicks : ℤ) :
    ConservesWork s maxTicks := by
  have hend : ∀ k t, (s.ticksOfRun maxTicks)[k]? = some t →
      Worked s t (s.slicesOfRun maxTicks (k + 1)) := fun k t ht =>
    h.ticksOfLoop maxTicks.toNat ht
  have hslices : ∀ k, ∀ x ∈ s.slicesOfRun maxTicks k, 1 ≤ x.ran ∧ x.ran ≤ s.quantum := by
    intro k x hx
    obtain ⟨d, hd, hx⟩ := List.mem_flatMap.mp hx
    obtain ⟨j, hj⟩ := List.mem_iff_getElem?.mp (List.mem_of_mem_take hd)
    obtain ⟨u, rfl, -, hworked, -⟩ := dispatchesOfLoop_getElem? s maxTicks.toNat hj
    have hu := (hworked [] h).dispatch
    exact hu.quantum_eq ▸ hu.queues.slice_bounds x hx
  refine ⟨?_, fun k t ht => (hend k t ht).logged, hslices, ?_, ?_, ?_, ?_⟩
  · intro k d hd
    obtain ⟨u, rfl, htick, -, -⟩ := dispatchesOfLoop_getElem? s maxTicks.toNat hd
    rw [tick_dispatch, htick]
    show (0 : ℤ) + k = k
    exact zero_add _
  · intro t ht e he htype
    obtain ⟨k, hk⟩ := List.mem_iff_getElem?.mp ht
    have hmem : e ∈ t.log.filter Event.isSlice := by
      rw [List.mem_filter]
      exact ⟨he, by simp [Event.isSlice, htype]⟩
    rw [(hend k t hk).logged] at hmem
    obtain ⟨x, hx, he⟩ := List.mem_flatMap.mp hmem
    refine ⟨x.ran, ?_, hslices _ x hx⟩
    simp only [Slice.events, List.mem_cons, List.not_mem_nil, or_false] at he
    rcases he with rfl | rfl
    · simp at htype
    · rfl
  · intro k t ht i hi b hb
    have hbooks := (hend k t ht).accounts i ((hend k t ht).length_eq ▸ hi)
    rw [hbooks.behind b hb, hbooks.bursts_eq]
  · intro k d t hd ht i hleave io hio hburst
    obtain ⟨u, rfl, -, hworked, hrest⟩ := dispatchesOfLoop_getElem? s maxTicks.toNat hd
    obtain ⟨hrun, m, hdispatches, hticks⟩ := hrest t ht
    have hqueues := (hworked [] h).dispatch.queues
    obtain ⟨r, rfl⟩ : ∃ r, io = r + 1 := ⟨io - 1, by omega⟩
    have hwaits : Waits t i (r + 1) := by
      have hblocked := hqueues.waits_of_leave hrun hleave (by omega)
      rwa [hburst, Nat.cast_succ] at hblocked
    obtain ⟨hbefore, hreturn⟩ := ((hend k t ht).withTick (t.tick + 1)).waits (i := i) hwaits m
    -- the ticks after this one are those of the rest of the loop
    have hdispatch : ∀ j, (s.dispatchesOfRun maxTicks)[k + 1 + j]?
        = (dispatchesOfLoop m { t with tick := t.tick + 1 })[j]? := fun j => by
      rw [← hdispatches, List.getElem?_drop]
      rfl
    have hafter : ∀ j, (s.ticksOfRun maxTicks)[k + 1 + j]?
        = (Scheduler.ticksOfLoop m { t with tick := t.tick + 1 })[j]? := fun j => by
      rw [← hticks, List.getElem?_drop]
      rfl
    refine ⟨?_, ?_, ?_⟩
    · intro j hkj hj u hu
      rcases Nat.eq_or_lt_of_le hkj with rfl | hlt
      · obtain rfl := Option.some.inj (ht.symm.trans hu)
        exact ⟨hwaits.1, (hend k t ht).queues.not_ready hwaits.1⟩
      · obtain ⟨j, rfl⟩ := Nat.exists_eq_add_of_le hlt
        exact (hbefore j (by omega)).2 u (by rw [← hafter]; exact hu)
    · intro j hkj hj u hu
      obtain ⟨j, rfl⟩ := Nat.exists_eq_add_of_le hkj
      exact (hbefore j (by omega)).1 u (by rw [← hdispatch]; exact hu)
    · intro u hu
      apply hreturn u
      rw [← hdispatch, ← hu]
      congr 1
      omega
  · intro k t ht i hi hstate
    have hi' : i < t.allProcesses.length := (hend k t ht).length_eq ▸ hi
    have hbooks := (hend k t ht).accounts i hi'
    have hall := (hend k t ht).finished i hi' hstate
    refine ⟨hbooks.ordered, ?_, ?_⟩
    · intro b hb
      obtain ⟨x, hx, rfl⟩ := List.mem_map.mp hb
      rw [List.mem_filter] at hx
      rw [← hbooks.bursts_eq]
      exact (hbooks.reached x hx.1 (by simpa using hx.2)).2
    · intro b hb
      rw [← hbooks.bursts_eq] at hb ⊢
      exact hbooks.behind b (hb.trans_le hall)

/-- A scheduler that has been given its processes has balanced books. -/
theorem worked_create (allocator : BuddySession) {quantum : ℤ} (hquantum : 1 ≤ quantum)
    {ps : List Process} (hps : ∀ p ∈ ps, p.WellFormed) :
    Worked (Scheduler.create allocator quantum ps)
      { Scheduler.create allocator quantum ps with tick := 0 } [] := by
  have hqueues := queueInv_create allocator hquantum hps
  rw [allProcesses_create] at hqueues ⊢
  have hwf : ∀ i < ps.length, (ps.getD i default).WellFormed := by
    intro i hi
    rw [List.getD_eq_getElem _ _ hi]
    exact hps _ (List.getElem_mem hi)
  refine ⟨hqueues.congr rfl rfl rfl, rfl, rfl, ?_, ?_, by simp, rfl⟩
  · intro i hi
    refine ⟨rfl, rfl, fun b hb => ?_, ?_, by simp, List.Pairwise.nil⟩
    · have hzero : b < (ps.getD i default).currentBurst := hb
      rw [(hwf i hi).currentBurst_eq] at hzero
      exact absurd hzero (Nat.not_lt_zero b)
    · rw [ranOn_nil, zero_add, Process.loaded]
      exact if_pos (hwf i hi).remainingCpu_eq.le
  · intro i hi hterm
    have hstate : (ps.getD i default).state = .terminated := hterm
    rw [(hwf i hi).state_eq] at hstate
    simp at hstate

end Scheduler

/-- **The scheduler conserves work.**  In every run over well-formed processes and any
allocator, every `cpu_run` of the log has between one tick and a quantum; the slices on
a burst that is left behind add up to its `cpuTicks`; a process that leaves a burst with
`io` ticks of I/O at tick `k` is blocked until tick `k + io` puts it back into the ready
queue; and a `TERMINATED` process has run all its bursts, in order. -/
theorem scheduler_conserves_work (allocator : BuddySession) (quantum maxTicks : ℤ)
    (ps : List Process) (hquantum : 1 ≤ quantum) (hps : ∀ p ∈ ps, p.WellFormed) :
    Scheduler.ConservesWork (Scheduler.create allocator quantum ps) maxTicks :=
  (Scheduler.worked_create allocator hquantum hps).conservesWork maxTicks

/-- The editor of the test runs its first burst in two slices, leaves it at tick 2 and is
ready again when tick 4 dispatches. -/
theorem crowd_conserves_work :
    ((Scheduler.create (testArena.start (fun _ => 0)) 2 crowd).slicesOfRun 9 9).map
        (fun x => (x.tick, x.idx, x.burst, x.ran))
      = [(0, 0, 0, 2), (1, 1, 0, 2), (2, 0, 0, 1), (4, 0, 1, 1), (5, 2, 0, 2)] ∧
    Scheduler.ConservesWork (Scheduler.create (testArena.start (fun _ => 0)) 2 crowd) 9 :=
  ⟨by decide +kernel,
    scheduler_conserves_work (testArena.start (fun _ => 0)) 2 9 crowd (by norm_num)
      crowd_wellFormed⟩

end OS
