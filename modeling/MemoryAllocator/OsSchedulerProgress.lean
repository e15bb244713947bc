/-
# Memory-constrained admission never deadlocks

The measure is the work of a process: the CPU and I/O ticks that its bursts still ask
for.  Admission keeps the total work, the countdown of the blocked processes lowers it
by one for each of them, and a CPU slice lowers it by the ticks that ran
(`Advances`).

Once every process has arrived, a tick that lowers nothing has empty queues after
admission.  Then nobody holds memory, so that the arena has coalesced into one block
and admission would have found room for any pending process; hence all of them have
terminated (`Inv.all_terminated`).  The bound on the length of a run follows in
`admission_never_deadlocks`.
-/
import MemoryAllocator.OsSchedulerInvariant

namespace OS

open Memory

/-! ## The work of a process -/

def Burst.ticks (b : Burst) : ℤ := b.cpuTicks + b.ioTicks

/-- The ticks that a list of processes asks for. -/
def totalTicks (ps : List Process) : ℤ :=
  (ps.map (fun p => (p.bursts.map Burst.ticks).sum)).sum

/-- The latest arrival, or zero. -/
def latestArrival (ps : List Process) : ℤ := ps.foldr (fun p t => max p.arrivalTick t) 0

theorem arrivalTick_le_latestArrival {ps : List Process} {p : Process} (hp : p ∈ ps) :
    p.arrivalTick ≤ latestArrival ps := by
  induction ps with
  | nil => simp at hp
  | cons q ps ih =>
    rw [latestArrival, List.foldr_cons, ← latestArrival]
    rcases List.mem_cons.mp hp with rfl | hp
    · exact le_max_left _ _
    · exact (ih hp).trans (le_max_right _ _)

theorem latestArrival_nonneg (ps : List Process) : 0 ≤ latestArrival ps := by
  induction ps with
  | nil => exact le_refl 0
  | cons q ps ih => exact ih.trans (le_max_right _ _)

namespace Process

/-- The ticks of the bursts from the given one on. -/
def ahead (p : Process) (c : ℕ) : ℤ := ((p.bursts.drop c).map Burst.ticks).sum

/-- The ticks that a process still needs. -/
def work (p : Process) : ℤ :=
  match p.state with
  | .terminated => 0
  | .waiting => p.remainingIoTicks + p.ahead p.currentBurst
  | _ => p.loaded + p.burst.ioTicks + p.ahead (p.currentBurst + 1)

/-- What the scheduler relies on to get a process through: it arrives, the arena has room
for it, and its I/O does not take negative time. -/
structure Servable (A : BuddyArena) (T : ℤ) (p : Process) : Prop where
  arrives : p.arrivalTick ≤ T
  fits : p.memoryRequest ≤ A.minBlockSize * 2 ^ A.maxOrder
  io_nonneg : ∀ b ∈ p.bursts, 0 ≤ b.ioTicks

variable {A : BuddyArena} {T : ℤ} {p : Process}

/-- Only the program of a process matters. -/
theorem Servable.congr (h : p.Servable A T) {p' : Process} (hp : p'.program = p.program) :
    p'.Servable A T := by
  simp only [program, Prod.mk.injEq] at hp
  obtain ⟨-, -, harrival, hrequest, hbursts⟩ := hp
  exact ⟨harrival ▸ h.arrives, hrequest ▸ h.fits, hbursts ▸ h.io_nonneg⟩

theorem ahead_eq_add {c : ℕ} (hc : c < p.bursts.length) :
    p.ahead c = (p.bursts.getD c default).ticks + p.ahead (c + 1) := by
  rw [ahead, List.drop_eq_getElem_cons hc, List.map_cons, List.sum_cons,
    List.getD_eq_getElem _ _ hc]
  rfl

theorem ahead_of_length_le {c : ℕ} (hc : p.bursts.length ≤ c) : p.ahead c = 0 := by
  rw [ahead, List.drop_eq_nil_of_le hc]
  rfl

theorem ahead_nonneg (h : p.Servable A T) (hok : p.Ok) (c : ℕ) : 0 ≤ p.ahead c := by
  apply List.sum_nonneg
  intro x hx
  obtain ⟨b, hb, rfl⟩ := List.mem_map.mp hx
  have hcpu := hok.cpu_pos b (List.mem_of_mem_drop hb)
  have hio := h.io_nonneg b (List.mem_of_mem_drop hb)
  rw [Burst.ticks]
  omega

/-- A process that waits for the CPU with its burst not begun has all of it ahead. -/
theorem work_of_fresh (hstate : p.state = .new ∨ p.state = .ready) (hrem : p.remainingCpuTicks = 0)
    (hlt : p.currentBurst < p.bursts.length) : p.work = p.ahead p.currentBurst := by
  have hload : p.loaded = p.burst.cpuTicks := by rw [loaded, if_pos hrem.le]
  have hwork : p.work = p.loaded + p.burst.ioTicks + p.ahead (p.currentBurst + 1) := by
    rw [work]
    rcases hstate with hstate | hstate <;> rw [hstate]
  rw [hwork, hload, ahead_eq_add hlt, Burst.ticks, burst]

theorem work_nonneg (h : p.Servable A T) (hok : p.Ok) : 0 ≤ p.work := by
  have hahead := ahead_nonneg h hok
  have hdispatch : p.state ≠ .terminated → 0 ≤ p.loaded + p.burst.ioTicks := by
    intro hstate
    have hload := hok.loaded_pos hstate
    have hio := h.io_nonneg _ (burst_mem (hok.burst_lt hstate))
    omega
  rw [work]
  split
  · exact le_refl 0
  · next hstate =>
    have hio := (hok.waiting_io hstate).1
    have := hahead p.currentBurst
    omega
  · next hterm _ =>
    have := hdispatch hterm
    have := hahead (p.currentBurst + 1)
    omega

end Process

namespace Scheduler

/-! ## Steps that advance -/

/-- The work of all processes. -/
def totalWork (s : Scheduler) : ℤ := (s.allProcesses.map Process.work).sum

/-- A step that keeps the programs and the clock and does at least `d` ticks of work. -/
structure Advances (s t : Scheduler) (d : ℤ) : Prop where
  program_eq : t.allProcesses.map Process.program = s.allProcesses.map Process.program
  tick_eq : t.tick = s.tick
  work_le : t.totalWork + d ≤ s.totalWork

variable {A : BuddyArena} {T : ℤ} {s t u : Scheduler} {d e : ℤ}

theorem Advances.refl (s : Scheduler) : Advances s s 0 := ⟨rfl, rfl, by simp⟩

theorem Advances.trans (h : Advances s t d) (h' : Advances t u e) : Advances s u (d + e) := by
  refine ⟨h'.program_eq.trans h.program_eq, h'.tick_eq.trans h.tick_eq, ?_⟩
  have := h.work_le
  have := h'.work_le
  omega

/-- Work on one process is work of the scheduler. -/
theorem Advances.of_set {i : ℕ} (hi : i < s.allProcesses.length) {p : Process}
    (hprocs : t.allProcesses = s.allProcesses.set i p) (htick : t.tick = s.tick)
    (hprogram : p.program = (s.proc i).program) (hwork : p.work + d ≤ (s.proc i).work) :
    Advances s t d := by
  have hproc : s.proc i = s.allProcesses[i] := List.getD_eq_getElem _ _ hi
  refine ⟨?_, htick, ?_⟩
  · rw [hprocs, List.map_set, hprogram, hproc]
    apply List.ext_getElem
    · simp
    · intro j hj _
      by_cases hij : i = j
      · subst hij
        simp
      · simp [hij]
  · have hsplit : s.allProcesses
        = s.allProcesses.take i ++ s.proc i :: s.allProcesses.drop (i + 1) := by
      rw [hproc, ← List.drop_eq_getElem_cons hi, List.take_append_drop]
    have hset : t.allProcesses
        = s.allProcesses.take i ++ p :: s.allProcesses.drop (i + 1) := by
      rw [hprocs, List.set_eq_take_append_cons_drop, if_pos hi]
    have hs : s.totalWork = ((s.allProcesses.take i).map Process.work).sum
        + ((s.proc i).work + ((s.allProcesses.drop (i + 1)).map Process.work).sum) := by
      conv_lhs => rw [totalWork, hsplit]
      simp
    have ht : t.totalWork = ((s.allProcesses.take i).map Process.work).sum
        + (p.work + ((s.allProcesses.drop (i + 1)).map Process.work).sum) := by
      rw [totalWork, hset]
      simp
    omega

theorem Advances.servable (h : Advances s t d) (hs : ∀ p ∈ s.allProcesses, p.Servable A T) :
    ∀ p ∈ t.allProcesses, p.Servable A T := by
  intro p hp
  have hmem : p.program ∈ s.allProcesses.map Process.program :=
    h.program_eq ▸ List.mem_map_of_mem hp
  obtain ⟨q, hq, heq⟩ := List.mem_map.mp hmem
  exact (hs q hq).congr heq.symm

/-! ## The phases of a tick -/

variable {W : List ℕ} {L : FreeIndices} {Q : List (ℕ × ℕ)} {own : ℕ → ℕ × ℕ}

/-- Admission costs nothing. -/
theorem Inv.admitOne_advances (h : Inv A s W L Q own) {i : ℕ} (hi : i < s.allProcesses.length) :
    Advances s (s.admitOne i) 0 := by
  have htick : (s.admitOne i).tick = s.tick := by
    unfold Scheduler.admitOne
    dsimp only
    split_ifs <;> rfl
  rcases h.admitOne hi with ⟨hsame, -⟩ | ⟨hnew, -, ⟨ptr, offset, size, hprocs⟩, -⟩
  · rw [hsame]
    exact .refl s
  · refine .of_set hi hprocs htick rfl (le_of_eq ?_)
    rw [add_zero, Process.work, Process.work, hnew]
    rfl

theorem Inv.admitPendingProcesses_advances (h : Inv A s W L Q own) :
    Advances s s.admitPendingProcesses 0 := by
  refine (h.admitPendingProcesses_induct (P := fun u => Advances s u 0) (.refl s) ?_).1
  intro u L' Q' own' i hu hi hadv
  exact hadv.trans (hu.admitOne_advances hi)

/-- The countdown does one tick of work for every blocked process. -/
theorem serviceLoop_advances {rest : List ℕ} (hnodup : rest.Nodup)
    (hrest : ∀ i ∈ rest, i < s.allProcesses.length ∧ (s.proc i).state = .waiting ∧ (s.proc i).Ok) :
    Advances s (serviceLoop rest s).2 rest.length := by
  induction rest generalizing s with
  | nil => exact .refl s
  | cons i rest ih =>
    obtain ⟨hi, hwait, hok⟩ := hrest i (List.mem_cons_self ..)
    obtain ⟨hio, hcpu⟩ := hok.waiting_io hwait
    obtain ⟨hnot, hnodup⟩ := List.nodup_cons.mp hnodup
    have hwork : (s.proc i).work = (s.proc i).remainingIoTicks
        + (s.proc i).ahead (s.proc i).currentBurst := by
      rw [Process.work, hwait]
    have hlen : ((i :: rest).length : ℤ) = 1 + rest.length := by
      rw [List.length_cons]
      push_cast
      ring
    have htail : ∀ (t : Scheduler) (p : Process), t.allProcesses = s.allProcesses.set i p →
        ∀ j ∈ rest, j < t.allProcesses.length ∧ (t.proc j).state = .waiting ∧ (t.proc j).Ok := by
      intro t p ht j hj
      have hji : j ≠ i := fun heq => hnot (heq ▸ hj)
      rw [proc, ht, getD_set_ne _ hji, List.length_set]
      exact hrest j (List.mem_cons_of_mem _ hj)
    rw [Scheduler.serviceLoop, hlen]
    simp only
    split_ifs with hdone
    · -- the last tick of the wait: what is left are the bursts ahead
      refine Advances.trans ?_ (ih hnodup (htail _ _ rfl))
      refine .of_set hi rfl rfl rfl ?_
      have hfresh := Process.work_of_fresh (p := { s.proc i with
          remainingIoTicks := (s.proc i).remainingIoTicks - 1, state := .ready })
        (.inr rfl) hcpu (hok.burst_lt (by simp [hwait]))
      rw [hfresh, hwork]
      show (s.proc i).ahead (s.proc i).currentBurst + 1 ≤ _
      omega
    · -- the wait goes on
      refine Advances.trans ?_ (ih hnodup (htail _ _ rfl))
      refine .of_set hi rfl rfl rfl ?_
      rw [hwork, Process.work, hwait]
      show (s.proc i).remainingIoTicks - 1 + (s.proc i).ahead (s.proc i).currentBurst + 1 ≤ _
      omega

theorem Inv.serviceIoQueue_advances (h : Inv A s s.waitingList L Q own) :
    Advances s s.serviceIoQueue s.waitingList.length := by
  have hloop := serviceLoop_advances (List.nodup_append.mp h.nodup).2.1 (fun i hi => by
    obtain ⟨hlt, hwait⟩ := (h.mem_waiting i).mp hi
    exact ⟨hlt, hwait, h.ok i hlt⟩)
  exact ⟨hloop.program_eq, hloop.tick_eq, hloop.work_le⟩

/-- A slice of the CPU does at least one tick of work. -/
theorem Inv.runOneCpuSlice_advances (h : Inv A s s.waitingList L Q own)
    (hs : ∀ p ∈ s.allProcesses, p.Servable A T) (hready : s.readyQueue ≠ [])
    (hslice : s.runOneCpuSlice = some t) : Advances s t 1 := by
  obtain ⟨idx, queue, hq⟩ := List.exists_cons_of_ne_nil hready
  obtain ⟨hlt, hstate⟩ := (h.mem_ready idx).mp (by simp [hq])
  have hok := h.ok idx hlt
  have hlive : (s.proc idx).state ≠ .terminated := by simp [hstate]
  have hload := hok.loaded_pos hlive
  have hquantum := h.quantum_pos
  have hio := (hs _ (proc_mem hlt)).io_nonneg _ (Process.burst_mem (hok.burst_lt hlive))
  have hwork : (s.proc idx).work = (s.proc idx).loaded + (s.proc idx).burst.ioTicks
      + (s.proc idx).ahead ((s.proc idx).currentBurst + 1) := by
    rw [Process.work, hstate]
  obtain ⟨rem, hrem⟩ : ∃ rem, rem = (s.proc idx).loaded - min s.quantum (s.proc idx).loaded :=
    ⟨_, rfl⟩
  rcases runOneCpuSlice_cons hq rfl hrem with ⟨hpos, log, heq⟩ | ⟨hzero, hblock, log, heq⟩ |
    ⟨hzero, hnone, hmore, log, heq⟩ | ⟨hzero, hnone, hlast, log, heq⟩
  · -- preempted: the ticks that ran are gone from the burst
    cases hslice.symm.trans heq
    refine .of_set hlt rfl rfl rfl ?_
    have hrest : Process.loaded { s.proc idx with state := .ready, remainingCpuTicks := rem }
        = rem := by
      rw [Process.loaded, if_neg (not_le.mpr hpos)]
    rw [hwork, Process.work, hrest]
    show rem + (s.proc idx).burst.ioTicks
      + (s.proc idx).ahead ((s.proc idx).currentBurst + 1) + 1 ≤ _
    omega
  · -- blocked: the I/O of the burst is now counted by `remainingIoTicks`
    cases hslice.symm.trans heq
    refine .of_set hlt rfl rfl rfl ?_
    rw [hwork, Process.work]
    show (s.proc idx).burst.ioTicks + (s.proc idx).ahead ((s.proc idx).currentBurst + 1) + 1 ≤ _
    omega
  · -- on to the next burst
    cases hslice.symm.trans heq
    refine .of_set hlt rfl rfl rfl ?_
    have hrem0 : rem = 0 := by omega
    rw [hwork, Process.work_of_fresh (.inr rfl) hrem0 hmore]
    show (s.proc idx).ahead ((s.proc idx).currentBurst + 1) + 1 ≤ _
    omega
  · -- terminated: no burst is ahead
    obtain ⟨a, -, rfl⟩ := Option.map_eq_some_iff.mp (heq.symm.trans hslice)
    refine .of_set hlt rfl rfl rfl ?_
    rw [hwork, Process.ahead_of_length_le hlast]
    show (0 : ℤ) + 1 ≤ _
    omega

/-! ## Admission with empty queues -/

/-- If admission leaves the ready queue empty, it has refused every process. -/
theorem Inv.refused (h : Inv A s W L Q own) (hready : s.admitPendingProcesses.readyQueue = []) :
    s.admitPendingProcesses = s ∧ ∀ i < s.allProcesses.length,
      (s.proc i).state ≠ .new ∨ s.tick < (s.proc i).arrivalTick ∨
      ∀ k, s.allocator.alloc.getOrder (s.proc i).memoryRequest ≤ k → k ≤ A.maxOrder → L k = [] := by
  -- admission only adds to the ready queue
  have hgrow : ∀ (is : List ℕ) (s : Scheduler),
      (is.foldl Scheduler.admitOne s).readyQueue = [] → s.readyQueue = [] := by
    intro is
    induction is with
    | nil => exact fun _ => id
    | cons i is ih =>
      intro s hs
      have hone := ih _ hs
      unfold Scheduler.admitOne at hone
      dsimp only at hone
      split_ifs at hone with hskip hnull
      · exact hone
      · exact hone
      · simp at hone
  have hfold : ∀ is : List ℕ, (∀ i ∈ is, i < s.allProcesses.length) →
      (is.foldl Scheduler.admitOne s).readyQueue = [] →
      is.foldl Scheduler.admitOne s = s ∧ ∀ i ∈ is,
        (s.proc i).state ≠ .new ∨ s.tick < (s.proc i).arrivalTick ∨
        ∀ k, s.allocator.alloc.getOrder (s.proc i).memoryRequest ≤ k → k ≤ A.maxOrder →
          L k = [] := by
    intro is
    induction is with
    | nil => exact fun _ _ => ⟨rfl, by simp⟩
    | cons i is ih =>
      intro his hempty
      rcases h.admitOne (his i (List.mem_cons_self ..)) with ⟨hsame, hwhy⟩ | ⟨-, hadmitted, -⟩
      · rw [List.foldl_cons, hsame] at hempty ⊢
        obtain ⟨hrest, hall⟩ := ih (fun j hj => his j (List.mem_cons_of_mem _ hj)) hempty
        refine ⟨hrest, fun j hj => ?_⟩
        rcases List.mem_cons.mp hj with rfl | hj
        · exact hwhy
        · exact hall j hj
      · have hnil := hgrow is _ hempty
        simp [hadmitted] at hnil
  obtain ⟨hsame, hall⟩ := hfold _ (fun i hi => List.mem_range.mp hi) hready
  exact ⟨hsame, fun i hi => hall i (List.mem_range.mpr hi)⟩

/-- **No deadlock.**  If all processes have arrived and admission leaves both queues
empty, then all of them have terminated: nobody holds memory, the arena is one block
again, and there is room for any of them. -/
theorem Inv.all_terminated (h : Inv A s s.waitingList L Q own)
    (hs : ∀ p ∈ s.allProcesses, p.Servable A T) (hT : T ≤ s.tick)
    (hready : s.admitPendingProcesses.readyQueue = []) (hwaiting : s.waitingList = []) :
    ∀ p ∈ s.allProcesses, p.state = .terminated := by
  obtain ⟨hsame, hrefused⟩ := h.refused hready
  rw [hsame] at hready
  have hQ : Q = [] := by simpa [hready, hwaiting] using h.owned
  have hF : s.allocator.FreeListsAre (fun k => (L k).map (A.addr k)) :=
    h.session.freeListsAre_iff.mpr (fun _ _ => rfl)
  have hwhole := (h.session.free_of_live_nil (by rw [h.session.live_eq, hQ]; rfl) hF).1
  intro p hp
  obtain ⟨i, hi, rfl⟩ := exists_proc_of_mem hp
  have hserv := hs _ hp
  have hnew : (s.proc i).state ≠ .new := by
    rcases hrefused i hi with hnew | hlate | hfull
    · exact hnew
    · have := hserv.arrives
      omega
    · have hnil := hfull A.maxOrder (h.session.getOrder_le_iff.mpr hserv.fits) le_rfl
      simp [hnil] at hwhole
  have hnr : (s.proc i).state ≠ .ready := by
    intro hstate
    simpa [hready] using (h.mem_ready i).mpr ⟨hi, hstate⟩
  have hnw : (s.proc i).state ≠ .waiting := by
    intro hstate
    simpa [hwaiting] using (h.mem_waiting i).mpr ⟨hi, hstate⟩
  have hnrun := (h.ok i hi).not_running
  cases hstate : (s.proc i).state <;> simp_all

/-! ## Ticks and runs -/

/-- **A tick advances**: it never adds work, and once all processes have arrived it does
at least one tick of it or ends with everybody terminated. -/
theorem Inv.tickOnce_advances (h : Inv A s s.waitingList L Q own)
    (hs : ∀ p ∈ s.allProcesses, p.Servable A T) (htick : s.tickOnce = some t) :
    Advances s t 0 ∧ (T ≤ s.tick → t.allTerminated ∨ Advances s t 1) := by
  obtain ⟨L₁, Q₁, own₁, h₁⟩ := h.admitPendingProcesses
  rw [← waitingList_admitPendingProcesses s] at h₁
  have hadm := h.admitPendingProcesses_advances
  have hservice := h₁.serviceIoQueue_advances
  have h₂ := h₁.serviceIoQueue
  have hs₂ := hservice.servable (hadm.servable hs)
  have hslice : s.admitPendingProcesses.serviceIoQueue.runOneCpuSlice = some t := htick
  by_cases hready : s.admitPendingProcesses.serviceIoQueue.readyQueue = []
  · -- the CPU is idle; what counts is whether somebody was blocked
    have hidle : s.admitPendingProcesses.serviceIoQueue = t := by
      rw [Scheduler.runOneCpuSlice, hready] at hslice
      exact Option.some.inj hslice
    rw [hidle] at hservice
    have hboth := hadm.trans hservice
    refine ⟨⟨hboth.program_eq, hboth.tick_eq, ?_⟩, fun hT => ?_⟩
    · have := hboth.work_le
      omega
    · by_cases hwaiting : s.waitingList = []
      · have hempty : s.admitPendingProcesses.serviceIoQueue
            = { s.admitPendingProcesses with waitingList := [] } := by
          rw [Scheduler.serviceIoQueue, waitingList_admitPendingProcesses, hwaiting]
          rfl
        rw [hempty] at hready hidle
        have hall := h.all_terminated hs hT hready hwaiting
        refine .inl ?_
        rw [← hidle, Scheduler.allTerminated, (h.refused hready).1]
        simpa using hall
      · have hpos := List.length_pos_iff.mpr hwaiting
        rw [waitingList_admitPendingProcesses] at hboth
        refine .inr ⟨hboth.program_eq, hboth.tick_eq, ?_⟩
        have := hboth.work_le
        omega
  · have hall := (hadm.trans hservice).trans (h₂.runOneCpuSlice_advances hs₂ hready hslice)
    refine ⟨⟨hall.program_eq, hall.tick_eq, ?_⟩, fun _ => .inr ⟨hall.program_eq, hall.tick_eq, ?_⟩⟩
    · have := hall.work_le
      omega
    · have := hall.work_le
      omega

theorem Inv.totalWork_nonneg (h : Inv A s W L Q own) (hs : ∀ p ∈ s.allProcesses, p.Servable A T) :
    0 ≤ s.totalWork := by
  apply List.sum_nonneg
  intro x hx
  obtain ⟨p, hp, rfl⟩ := List.mem_map.mp hx
  obtain ⟨i, hi, rfl⟩ := exists_proc_of_mem hp
  exact Process.work_nonneg (hs _ hp) (h.ok i hi)

/-- **Enough ticks suffice**: as many as the time until the last arrival, the work, and
one more. -/
theorem Inv.runLoop_terminates (n : ℕ) (h : Inv A s s.waitingList L Q own)
    (hs : ∀ p ∈ s.allProcesses, p.Servable A T)
    (hn : max 0 (T - s.tick) + s.totalWork + 1 ≤ n) :
    ∃ t, s.runLoop n = some t ∧ t.allTerminated ∧
      t.allProcesses.map Process.program = s.allProcesses.map Process.program := by
  induction n generalizing s L Q own with
  | zero =>
    have := h.totalWork_nonneg hs
    push_cast at hn
    omega
  | succ n ih =>
    obtain ⟨t, ht, L', Q', own', h'⟩ := h.tickOnce
    obtain ⟨hadv, hlate⟩ := h.tickOnce_advances hs ht
    simp only [Scheduler.runLoop, ht]
    split_ifs with hall
    · exact ⟨t, rfl, hall, hadv.program_eq⟩
    · have hbound : max 0 (T - (t.tick + 1)) + t.totalWork + 1 ≤ n := by
        have hwork := hadv.work_le
        have htick := hadv.tick_eq
        push_cast at hn
        by_cases hT : T ≤ s.tick
        · have hless := ((hlate hT).resolve_left hall).work_le
          omega
        · omega
      obtain ⟨u, hu, hterm, hprog⟩ := ih (s := { t with tick := t.tick + 1 })
        (h'.congr rfl rfl rfl rfl) (hadv.servable hs) hbound
      exact ⟨u, hu, hterm, hprog.trans hadv.program_eq⟩

/-- The work at the start is what the bursts ask for. -/
theorem totalWork_create (allocator : BuddySession) (quantum : ℤ) {ps : List Process}
    (hps : ∀ p ∈ ps, p.WellFormed) :
    (Scheduler.create allocator quantum ps).totalWork = totalTicks ps := by
  rw [allProcesses_create, totalWork, totalTicks]
  congr 1
  apply List.map_congr_left
  intro p hp
  have hwf := hps p hp
  rw [Process.work_of_fresh (.inl hwf.state_eq) hwf.remainingCpu_eq
    (hwf.ok.burst_lt (by simp [hwf.state_eq])), hwf.currentBurst_eq]
  rfl

end Scheduler

/-- **Memory-constrained admission never deadlocks.**  If every process fits the arena on
its own, a run that is long enough for the latest arrival and all the ticks of all bursts
ends with every process terminated, however much the requests together exceed the
arena. -/
theorem admission_never_deadlocks (A : BuddyArena) (mem : Mem) (quantum maxTicks : ℤ)
    (ps : List Process) (hquantum : 1 ≤ quantum) (hps : ∀ p ∈ ps, p.WellFormed)
    (hio : ∀ p ∈ ps, ∀ b ∈ p.bursts, 0 ≤ b.ioTicks)
    (hfits : ∀ p ∈ ps, (A.initial mem).getOrder p.memoryRequest ≤ A.maxOrder)
    (hmax : latestArrival ps + totalTicks ps + 1 ≤ maxTicks) :
    ∃ t, (Scheduler.create (A.start mem) quantum ps).run maxTicks = some t ∧
      (∀ p ∈ t.allProcesses, p.state = .terminated) ∧
      t.allProcesses.map Process.program = ps.map Process.program := by
  have hinit := Scheduler.inv_create A mem hquantum hps
  have hwork := Scheduler.totalWork_create (A.start mem) quantum hps
  rw [Scheduler.allProcesses_create] at hinit hwork ⊢
  have hserv : ∀ p ∈ ps, p.Servable A (latestArrival ps) := by
    intro p hp
    exact ⟨arrivalTick_le_latestArrival hp,
      (sessionInv_start A mem).getOrder_le_iff.mp (hfits p hp), hio p hp⟩
  have hnonneg := latestArrival_nonneg ps
  have hbound : max 0 (latestArrival ps - 0) + totalTicks ps + 1 ≤ maxTicks.toNat := by
    omega
  rw [← hwork] at hbound
  obtain ⟨t, ht, hterm, hprog⟩ := hinit.runLoop_terminates maxTicks.toNat hserv hbound
  exact ⟨t, ht, by simpa [Scheduler.allTerminated] using hterm, hprog⟩

/-- The three processes of `crowd` get through, one after the other. -/
theorem crowd_terminates :
    ∃ t, (Scheduler.create (testArena.start (fun _ => 0)) 2 crowd).run 12 = some t ∧
      ∀ p ∈ t.allProcesses, p.state = .terminated := by
  obtain ⟨t, ht, hterm, -⟩ := admission_never_deadlocks testArena (fun _ => 0) 2 12 crowd
    (by norm_num) crowd_wellFormed (by decide) (by decide +kernel) (by decide)
  exact ⟨t, ht, hterm⟩

end OS
