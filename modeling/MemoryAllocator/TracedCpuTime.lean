/-
# The CPU time in the traces of the demos and of the scheduler

The `ticks` fields of the `cpu_run` events of a process, added up once it has ended.  For
`OS::Scheduler`, which logs the ticks that it runs, they are its CPU time.  The demos log
the time that the process could run, and the sum is the CPU time exactly if no CPU burst
has more than one tick.
-/
import MemoryAllocator.ContiguousCpuTime
import MemoryAllocator.OsSchedulerWork
import MemoryAllocator.VisualizerLoop

namespace OS

/-! ## The log of the scheduler -/

/-- The `ticks` field of a `cpu_run` event of a process. -/
def Event.cpuRunTicks (pid : ℤ) (e : Event) : Option ℤ :=
  if e.type = "cpu_run" ∧ e.pid = pid then
    match e.fields.lookup "ticks" with
    | some (.num ticks) => some ticks
    | _ => none
  else none

/-- The `ticks` fields of the `cpu_run` events of a process. -/
def Event.tracedTicks (log : List Event) (pid : ℤ) : List ℤ := log.filterMap (cpuRunTicks pid)

/-- The CPU ticks of all bursts. -/
def Process.totalCpuTicks (p : Process) : ℤ := (p.bursts.map Burst.cpuTicks).sum

section Sums

variable {xs : List Slice} {i m : ℕ} {pid : ℤ}

/-- Only the events of the slices are `cpu_run` events. -/
theorem Event.tracedTicks_filter (log : List Event) (pid : ℤ) :
    tracedTicks (log.filter Event.isSlice) pid = tracedTicks log pid := by
  unfold tracedTicks
  rw [List.filterMap_filter]
  congr 1
  funext e
  by_cases he : e.type = "cpu_run"
  · rw [if_pos (by simp [isSlice, he])]
  · have hnone : e.cpuRunTicks pid = none := if_neg (fun h => he h.1)
    rw [hnone]
    exact ite_self none

/-- What the events of the slices say. -/
theorem Event.tracedTicks_events (xs : List Slice) (pid : ℤ) :
    tracedTicks (xs.flatMap Slice.events) pid
      = (xs.filter (fun x => x.pid = pid)).map Slice.ran := by
  induction xs with
  | nil => rfl
  | cons x xs ih =>
    have hone : tracedTicks x.events pid = if x.pid = pid then [x.ran] else [] := by
      by_cases hpid : x.pid = pid
      · simp [tracedTicks, Slice.events, cpuRunTicks, hpid, List.lookup]
      · simp [tracedTicks, Slice.events, cpuRunTicks, hpid]
    rw [List.flatMap_cons, tracedTicks, List.filterMap_append, ← tracedTicks, ← tracedTicks, ih,
      hone, List.filter_cons]
    by_cases hpid : x.pid = pid
    · simp [hpid]
    · simp [hpid]

/-- The slices of a process are slices on its bursts. -/
theorem sum_ranOn (h : ∀ x ∈ xs, x.idx = i → x.burst < m) :
    ∑ b ∈ Finset.range m, ranOn xs i b = ((xs.filter (fun x => x.idx = i)).map Slice.ran).sum := by
  induction xs with
  | nil => simp
  | cons x xs ih =>
    have hrest := ih (fun y hy => h y (List.mem_cons_of_mem _ hy))
    have hsplit : ∀ b, ranOn (x :: xs) i b
        = (if x.idx = i ∧ x.burst = b then x.ran else 0) + ranOn xs i b := by
      intro b
      by_cases hx : x.idx = i ∧ x.burst = b
      · simp [ranOn, hx]
      · simp [ranOn, hx]
    simp only [hsplit]
    rw [Finset.sum_add_distrib, hrest]
    by_cases hidx : x.idx = i
    · have hburst := h x (List.mem_cons_self ..) hidx
      simp [hidx, hburst]
    · simp [hidx]

theorem Process.sum_cpuTicks (p : Process) :
    ∑ b ∈ Finset.range p.bursts.length, (p.bursts.getD b default).cpuTicks = p.totalCpuTicks := by
  unfold totalCpuTicks
  induction p.bursts with
  | nil => rfl
  | cons b bursts ih =>
    rw [List.length_cons, Finset.sum_range_succ', List.map_cons, List.sum_cons, ← ih, add_comm]
    rfl

end Sums

namespace Scheduler

variable {s : Scheduler}

/-- A slice has the pid of its process. -/
theorem Worked.slice_pid (h : Worked s { s with tick := 0 } []) {maxTicks : ℤ} {k : ℕ} {x : Slice}
    (hx : x ∈ s.slicesOfRun maxTicks k) :
    x.idx < s.allProcesses.length ∧ x.pid = (s.proc x.idx).id := by
  obtain ⟨d, hd, hx⟩ := List.mem_flatMap.mp hx
  obtain ⟨j, hj⟩ := List.mem_iff_getElem?.mp (List.mem_of_mem_take hd)
  obtain ⟨u, rfl, -, hworked, -⟩ := dispatchesOfLoop_getElem? s maxTicks.toNat hj
  have hu := (hworked [] h).dispatch
  unfold slice at hx
  split at hx
  · simp at hx
  · rename_i idx queue hqueue
    obtain rfl := List.mem_singleton.mp hx
    have hlt : idx < u.dispatch.allProcesses.length := by
      apply hu.queues.lt_length
      rw [hqueue]
      exact List.mem_append_left _ (List.mem_cons_self ..)
    exact ⟨hu.length_eq ▸ hlt, (hu.accounts idx hlt).id_eq⟩

end Scheduler

/-- **The log of the scheduler**: what it says of a terminated process adds up to the CPU
ticks of its bursts. -/
theorem scheduler_tracedTicks_sum {allocator : Memory.BuddySession} {quantum maxTicks : ℤ}
    {ps : List Process} (hquantum : 1 ≤ quantum) (hps : ∀ p ∈ ps, p.WellFormed)
    (hids : (ps.map Process.id).Nodup) {t : Scheduler}
    (ht : t ∈ (Scheduler.create allocator quantum ps).ticksOfRun maxTicks) {i : ℕ}
    (hi : i < ps.length) (hdone : (t.proc i).state = .terminated) :
    (Event.tracedTicks t.log (ps.getD i default).id).sum = (ps.getD i default).totalCpuTicks := by
  obtain ⟨k, hk⟩ := List.mem_iff_getElem?.mp ht
  have hworked := Scheduler.worked_create allocator hquantum hps
  have hall : (Scheduler.create allocator quantum ps).allProcesses = ps := by
    rw [Scheduler.allProcesses_create]
  have hproc : ∀ j, (Scheduler.create allocator quantum ps).proc j = ps.getD j default := by
    intro j
    rw [Scheduler.proc, hall]
  have hwork := hworked.conservesWork maxTicks
  obtain ⟨-, hbursts, hran⟩ := hwork.terminated k t hk i (by rw [hall]; exact hi) hdone
  obtain ⟨xs, hxs⟩ :
      ∃ xs, xs = (Scheduler.create allocator quantum ps).slicesOfRun maxTicks (k + 1) := ⟨_, rfl⟩
  rw [hproc] at hbursts hran
  -- the pid tells the slices of the process apart
  have hpid : ∀ x ∈ xs, x.pid = (ps.getD i default).id ↔ x.idx = i := by
    intro x hx
    obtain ⟨hlt, hx⟩ := hworked.slice_pid (hxs ▸ hx)
    rw [hall] at hlt
    rw [hx, hproc, List.getD_eq_getElem _ _ hlt, List.getD_eq_getElem _ _ hi]
    constructor
    · intro heq
      have hsame : ps[x.idx] = ps[i] :=
        List.inj_on_of_nodup_map hids (List.getElem_mem hlt) (List.getElem_mem hi) heq
      exact (List.Nodup.of_map _ hids).getElem_inj_iff.mp hsame
    · rintro rfl
      rfl
  have hlog : Event.tracedTicks t.log (ps.getD i default).id
      = (xs.filter (fun x => x.idx = i)).map Slice.ran := by
    rw [← Event.tracedTicks_filter, hwork.logged k t hk, ← hxs, Event.tracedTicks_events]
    refine congrArg (List.map Slice.ran) (List.filter_congr fun x hx => ?_)
    rw [decide_eq_decide]
    exact hpid x hx
  rw [← hxs] at hbursts hran
  rw [hlog, ← Process.sum_cpuTicks, ← sum_ranOn (m := (ps.getD i default).bursts.length)]
  · exact Finset.sum_congr rfl (fun b hb => hran b (Finset.mem_range.mp hb))
  · intro x hx hidx
    apply hbursts
    exact List.mem_map.mpr ⟨x, List.mem_filter.mpr ⟨hx, by simpa using hidx⟩, rfl⟩

end OS

/-! ## The demos -/

namespace Memlab

open Visualizer (Main)

/-- **When the traced CPU time is real.**  In every run of either demo, the `cpu_run` events
of a terminated process add up to its CPU time exactly if all its CPU bursts have one tick.
In every run of `OS::Scheduler`, they do so for all terminated processes. -/
theorem traced_cpu_time_iff {n : ℕ} (ps : Fin n → ArenaProcess)
    (hpids : Function.Injective (fun i => (ps i).pid))
    (halternates : ∀ i, (ps i).toProcess.Alternates) :
    (∀ s, Arena.AtTick (Arena.start ps) s → ∀ i, (s.procs i).state = .terminated →
      ((ArenaEvent.tracedTicks s.trace (ps i).pid).sum = (ps i).totalCpuBurst ↔
        ∀ b ∈ (ps i).bursts, b.type = .cpu → b.ticks = 1)) ∧
    (∀ s, Main.AtTick (Main.start ps) s → ∀ i, (s.procs i).state = .terminated →
      ((Visualizer.Event.tracedTicks s.memory.log (ps i).pid).sum = (ps i).totalCpuBurst ↔
        ∀ b ∈ (ps i).bursts, b.type = .cpu → b.ticks = 1)) ∧
    ∀ (allocator : Memory.BuddySession) (quantum maxTicks : ℤ) (qs : List OS.Process),
      1 ≤ quantum → (∀ q ∈ qs, q.WellFormed) → (qs.map OS.Process.id).Nodup →
      ∀ t ∈ (OS.Scheduler.create allocator quantum qs).ticksOfRun maxTicks, ∀ i < qs.length,
        (t.proc i).state = .terminated →
          (OS.Event.tracedTicks t.log (qs.getD i default).id).sum
            = (qs.getD i default).totalCpuTicks := by
  refine ⟨fun s hs i hdone => ?_, fun s hs i hdone => ?_, ?_⟩
  · exact hs.tracedTicks_sum hpids halternates hdone
  · exact hs.tracedTicks_sum hpids halternates hdone
  · intro allocator quantum maxTicks qs hquantum hqs hids t ht i hi hdone
    exact OS.scheduler_tracedTicks_sum hquantum hqs hids ht hi hdone

/-- A process with CPU bursts of one tick, and one with a burst of two. -/
def shortBursts : Fin 2 → ArenaProcess :=
  ![{ pid := 1, name := "init", memBytes := 4000, bursts := [⟨.cpu, 1⟩, ⟨.io, 2⟩, ⟨.cpu, 1⟩] },
    { pid := 2, name := "shell", memBytes := 4000, bursts := [⟨.cpu, 2⟩] }]

theorem shortBursts_alternates : ∀ i, (shortBursts i).toProcess.Alternates := by
  intro i
  fin_cases i
  · constructor <;> constructor <;> simp [shortBursts]
  · constructor <;> constructor <;> simp [shortBursts]

/-- The first process is traced with its CPU time, and so is the editor of the test. -/
theorem shortBursts_traced :
    (ArenaEvent.tracedTicks (Arena.step^[4] (Arena.start shortBursts)).trace 1).sum = 2 ∧
    (∃ s, Main.loop (List.replicate 4 (0, 0)) (Main.start shortBursts) = some s ∧
      (Visualizer.Event.tracedTicks s.memory.log 1).sum = 2) ∧
    ∃ t ∈ (OS.Scheduler.create (Memory.testArena.start (fun _ => 0)) 2 OS.crowd).ticksOfRun 9,
      (t.proc 0).state = .terminated ∧ (OS.Event.tracedTicks t.log 1).sum = 4 := by
  obtain ⟨harena, hvisualizer, hscheduler⟩ :=
    traced_cpu_time_iff shortBursts (by decide) shortBursts_alternates
  have hone : ∀ b ∈ (shortBursts 0).bursts, b.type = .cpu → b.ticks = 1 := by decide
  have hmain : (Main.loop (List.replicate 4 (0, 0)) (Main.start shortBursts)).map
      (fun s => (s.procs 0).state) = some .terminated := by decide +kernel
  have heditor : ((OS.Scheduler.create (Memory.testArena.start (fun _ => 0)) 2
      OS.crowd).ticksOfRun 9)[4]?.map (fun t => (t.proc 0).state) = some .terminated := by
    decide +kernel
  obtain ⟨s, hs, hdone⟩ := Option.map_eq_some_iff.mp hmain
  obtain ⟨t, ht, hdone'⟩ := Option.map_eq_some_iff.mp heditor
  have ht := List.mem_of_getElem? ht
  refine ⟨?_, ⟨s, hs, ?_⟩, t, ht, hdone', ?_⟩
  · exact (harena _ (Arena.atTick_iterate (by decide +kernel)) 0 (by decide +kernel)).mpr hone
  · exact (hvisualizer s (Main.atTick_loop .start _ hs) 0 hdone).mpr hone
  · exact hscheduler _ 2 9 OS.crowd (by norm_num) OS.crowd_wellFormed (by decide) t ht 0
      (by decide) hdone'

/-- The second process has a CPU time of two ticks, and the traces of the demos add up to
three. -/
theorem shortBursts_overtraced :
    ¬ (∀ s, Arena.AtTick (Arena.start shortBursts) s → ∀ i, (s.procs i).state = .terminated →
      (ArenaEvent.tracedTicks s.trace (shortBursts i).pid).sum = (shortBursts i).totalCpuBurst) ∧
    ¬ (∀ s, Main.AtTick (Main.start shortBursts) s → ∀ i, (s.procs i).state = .terminated →
      (Visualizer.Event.tracedTicks s.memory.log (shortBursts i).pid).sum
        = (shortBursts i).totalCpuBurst) := by
  refine ⟨fun hclaim => ?_, fun hclaim => ?_⟩
  · have hsum := hclaim _ (Arena.atTick_iterate (k := 4) (by decide +kernel)) 1 (by decide +kernel)
    exact absurd hsum (by decide +kernel)
  · have hrun : (Main.loop (List.replicate 4 (0, 0)) (Main.start shortBursts)).map (fun s =>
        ((s.procs 1).state, (Visualizer.Event.tracedTicks s.memory.log 2).sum))
          = some (.terminated, 3) := by decide +kernel
    obtain ⟨s, hs, hend⟩ := Option.map_eq_some_iff.mp hrun
    obtain ⟨hdone, hthree⟩ := Prod.mk.inj hend
    have hsum : (Visualizer.Event.tracedTicks s.memory.log 2).sum = 2 :=
      hclaim s (Main.atTick_loop .start _ hs) 1 hdone
    rw [hthree] at hsum
    exact absurd hsum (by decide)

end Memlab
