/-
# The CPU time in the trace of the contiguous arena

The loop of `contiguous_demo.cpp` is the scheduling of `Core` with an arena around it:
every function that does not admit a process is the function of `Core` on what the arena
shows of it, and an admission either changes nothing there or puts a new process into
the queue.  The trace tells the processes apart by their pids.
-/
import MemoryAllocator.DemoCpu

namespace Memlab

/-- The `ticks` field of a `cpu_run` event of a process. -/
def ArenaEvent.cpuRunTicks (pid : ℤ) : ArenaEvent → Option ℕ
  | .cpuRun pid' ticks _ => if pid' = pid then some ticks else none
  | _ => none

/-- The `ticks` fields of the `cpu_run` events of a process. -/
def ArenaEvent.tracedTicks (trace : List ArenaEvent) (pid : ℤ) : List ℕ :=
  trace.filterMap (cpuRunTicks pid)

namespace Arena

variable {n : ℕ} (ps : Fin n → ArenaProcess) (s : Arena n)

/-- What the CPU time depends on. -/
def core : Core n :=
  { quantum := s.sched.quantum
    procs := s.processes
    queue := s.sched.q
    running := s.running
    ran := s.ran
    ioWait := s.ioWait
    traced := fun i => ArenaEvent.tracedTicks s.trace (ps i).pid }

/-- What only the admissions depend on. -/
def outside : ℕ × List (Fin n) := (s.tick, s.memWait)

variable {ps s} {i : Fin n}

/-! ## The parts of a tick -/

/-- An event that gives nobody the CPU leaves the core. -/
theorem core_log {event : ArenaEvent} (h : ∀ pid, event.cpuRunTicks pid = none) :
    (s.log event).core ps = s.core ps := by
  have htraced : ∀ pid, ArenaEvent.tracedTicks (s.trace ++ [event]) pid
      = ArenaEvent.tracedTicks s.trace pid := by
    intro pid
    rw [ArenaEvent.tracedTicks, List.filterMap_append, List.filterMap_cons_none (h pid),
      List.filterMap_nil, List.append_nil]
    rfl
  have hlog : (s.log event).core ps = { s.core ps with
      traced := fun i => ArenaEvent.tracedTicks (s.trace ++ [event]) (ps i).pid } := rfl
  rw [hlog]
  simp only [htraced]
  rfl

/-- Writing a process of the arena writes it in the core. -/
theorem core_setProc (ps : Fin n → ArenaProcess) (s : Arena n) (i : Fin n) (p : ArenaProcess) :
    (s.setProc i p).core ps = (s.core ps).setProc i p.toProcess := by
  have hprocs : (s.setProc i p).processes = Function.update s.processes i p.toProcess := by
    funext j
    by_cases hj : j = i
    · subst hj
      simp [processes, setProc]
    · simp [processes, setProc, hj]
  rw [core, hprocs]
  rfl

/-- A change of state is one in the core. -/
theorem core_setState (s : Arena n) (i : Fin n) (state : State) :
    (s.setState i state).core ps = (s.core ps).setState i state :=
  core_setProc ps s i { s.procs i with state := state }

/-- A process is queued in the core too. -/
theorem core_enqueue (s : Arena n) (i : Fin n) (preempted : Bool) :
    (s.enqueue i preempted).core ps = (s.core ps).enqueue i := by
  unfold Arena.enqueue
  dsimp only
  rw [core_log (fun _ => rfl), Core.enqueue, ← core_setState]
  rfl

/-- An admission either changes nothing of the CPU, or puts the process into the queue. -/
theorem core_tryAdmit (ps : Fin n → ArenaProcess) (s : Arena n) (i : Fin n) :
    (∃ t, s.tryAdmit i = (false, t) ∧ t.core ps = s.core ps ∧ t.outside = s.outside) ∨
      ∃ t, s.tryAdmit i = (true, t) ∧ t.core ps = (s.core ps).enqueue i ∧
        t.outside = s.outside := by
  unfold Arena.tryAdmit
  dsimp only
  split_ifs
  · exact .inl ⟨_, rfl, rfl, rfl⟩
  · refine .inr ⟨_, rfl, ?_, rfl⟩
    rw [core_enqueue, core_log (fun _ => rfl)]
    rfl

/-- Releasing the block terminates the process in the core. -/
theorem core_release (s : Arena n) (i : Fin n) :
    (s.release i).core ps = (s.core ps).setState i .terminated := by
  unfold Arena.release
  dsimp only
  rw [core_setState, core_log (fun _ => rfl), core_log (fun _ => rfl)]
  rfl

/-- The next burst is the next one in the core. -/
theorem core_advance (ps : Fin n → ArenaProcess) (s : Arena n) (i : Fin n) :
    (s.advance i).2.core ps = (s.core ps).setProc i (s.processes i).advanceBurst.2 :=
  core_setProc ps s i _

/-- A process that comes back from I/O comes back in the core. -/
theorem core_completeIo (s : Arena n) (i : Fin n) :
    (s.completeIo i).core ps = (s.core ps).completeIo i := by
  have hprocs : (s.core ps).procs i = s.processes i := rfl
  unfold Arena.completeIo Core.completeIo
  dsimp only
  have hadvance := core_advance ps (s.log (.ioAck (s.procs i).pid)) i
  rw [core_log (fun _ => rfl)] at hadvance
  have hfst : ((s.log (.ioAck (s.procs i).pid)).advance i).1 = (s.processes i).advanceBurst.1 := rfl
  have hsnd : ((s.log (.ioAck (s.procs i).pid)).processes i) = s.processes i := rfl
  rw [hsnd] at hadvance
  rw [hprocs]
  generalize (s.log (.ioAck (s.procs i).pid)).advance i = r at hadvance hfst
  generalize (s.processes i).advanceBurst = a at hadvance hfst
  obtain ⟨more, u⟩ := r
  obtain ⟨more', p⟩ := a
  dsimp only at hadvance hfst
  subst hfst
  cases more
  · show (u.release i).core ps = _
    rw [core_release, hadvance]
  · show (u.enqueue i false).core ps = _
    rw [core_enqueue, hadvance]

/-- The arrivals and the memory do not see a process come back from I/O. -/
theorem outside_completeIo (s : Arena n) (i : Fin n) : (s.completeIo i).outside = s.outside := by
  obtain ⟨htick, hmemWait⟩ := completeIo_same s i
  rw [outside, htick, hmemWait]
  rfl

/-- The loop over the waiting list. -/
theorem core_ioLoop (ps : Fin n → ArenaProcess) (rest : List (Fin n × ℕ)) (s : Arena n) :
    Core.ioLoop rest (s.core ps) = ((ioLoop rest s).1, (ioLoop rest s).2.core ps) ∧
      (ioLoop rest s).2.outside = s.outside := by
  induction rest generalizing s with
  | nil => exact ⟨rfl, rfl⟩
  | cons x rest ih =>
    obtain ⟨i, ticks⟩ := x
    rw [Core.ioLoop, ioLoop]
    split_ifs
    · obtain ⟨hcore, houtside⟩ := ih (s.completeIo i)
      rw [← core_completeIo]
      exact ⟨hcore, houtside.trans (outside_completeIo s i)⟩
    · obtain ⟨hcore, houtside⟩ := ih s
      rw [hcore]
      exact ⟨rfl, houtside⟩

/-- The I/O completions of a tick are those of the core. -/
theorem core_ioCompletions (ps : Fin n → ArenaProcess) (s : Arena n) :
    s.ioCompletions.core ps = (s.core ps).ioCompletions ∧ s.ioCompletions.outside = s.outside := by
  obtain ⟨hcore, houtside⟩ := core_ioLoop ps s.ioWait s
  refine ⟨?_, houtside⟩
  unfold Core.ioCompletions
  dsimp only
  rw [show (s.core ps).ioWait = s.ioWait from rfl, hcore]
  rfl

/-- A preemption is one in the core. -/
theorem core_preempt (ps : Fin n → ArenaProcess) (s : Arena n) :
    s.preempt.core ps = (s.core ps).preempt ∧ s.preempt.outside = s.outside := by
  have hrunning : (s.core ps).running = s.running := rfl
  unfold Arena.preempt Core.preempt
  rw [hrunning]
  cases s.running with
  | none => exact ⟨rfl, rfl⟩
  | some i =>
    have hshould : RoundRobin.scheduler.shouldPreempt s.processes s.sched i s.ran
        = decide ((s.core ps).quantum ≤ (s.core ps).ran) := rfl
    dsimp only
    rw [hshould]
    by_cases hran : (s.core ps).quantum ≤ (s.core ps).ran
    · rw [if_pos (decide_eq_true hran), if_pos hran, ← core_enqueue s i true]
      exact ⟨rfl, rfl⟩
    · rw [if_neg (by simpa using hran), if_neg hran]
      exact ⟨rfl, rfl⟩

/-- A dispatch is one in the core. -/
theorem core_dispatch (ps : Fin n → ArenaProcess) (s : Arena n) :
    s.dispatch.core ps = (s.core ps).dispatch ∧ s.dispatch.outside = s.outside := by
  have hrunning : (s.core ps).running = s.running := rfl
  have hqueue : (s.core ps).queue = s.sched.q := rfl
  cases hrun : s.running with
  | some i =>
    have heq : s.dispatch = s := by
      unfold Arena.dispatch
      rw [hrun]
    have heq' : (s.core ps).dispatch = s.core ps := by
      unfold Core.dispatch
      rw [hrunning, hrun]
    rw [heq, heq']
    exact ⟨rfl, rfl⟩
  | none =>
    rcases dispatch_cases hrun with ⟨hq, heq⟩ | ⟨i, q, hq, heq⟩
    · have heq' : (s.core ps).dispatch = s.core ps := by
        unfold Core.dispatch
        rw [hrunning, hrun, hqueue, hq]
      rw [heq, heq']
      exact ⟨rfl, rfl⟩
    · have heq' : (s.core ps).dispatch
          = { s.core ps with queue := q, running := some i, ran := 0 } := by
        unfold Core.dispatch
        rw [hrunning, hrun, hqueue, hq]
      rw [heq, heq', core_log (fun _ => rfl)]
      exact ⟨rfl, rfl⟩

/-- The end of a burst is one in the core. -/
theorem core_endBurst (ps : Fin n → ArenaProcess) (s : Arena n) (i : Fin n) :
    (s.endBurst i).core ps = (s.core ps).endBurst i ∧ (s.endBurst i).outside = s.outside := by
  have hprocs : (s.core ps).procs i = s.processes i := rfl
  have hadvance := core_advance ps s i
  have hfst : (s.advance i).1 = (s.processes i).advanceBurst.1 := rfl
  have hsnd : (s.advance i).2.processes i = (s.processes i).advanceBurst.2 := by
    simp [advance, processes, setProc]
  have houtside : (s.advance i).2.outside = s.outside := rfl
  unfold Arena.endBurst Core.endBurst
  rw [hprocs]
  generalize s.advance i = r at hadvance hfst hsnd houtside
  generalize (s.processes i).advanceBurst = a at hadvance hfst hsnd
  obtain ⟨more, u⟩ := r
  obtain ⟨more', p⟩ := a
  dsimp only at hadvance hfst hsnd houtside
  subst hfst
  cases more
  · refine ⟨?_, houtside⟩
    have hrelease : (u.release i).core ps = ((s.core ps).setProc i p).setState i .terminated := by
      rw [core_release, hadvance]
    exact congrArg (fun c : Core n => { c with running := none, ran := 0 }) hrelease
  · have hcurrent : (u.procs i).toProcess.currentBurst = p.currentBurst := by rw [← hsnd]; rfl
    dsimp only
    rw [hcurrent]
    cases p.currentBurst with
    | none => exact ⟨hadvance, houtside⟩
    | some nb =>
      dsimp only
      split_ifs
      · refine ⟨?_, houtside⟩
        have hblocked :
            ((u.log (.ioRequested (u.procs i).pid nb.ticks)).setState i .waiting).core ps
              = ((s.core ps).setProc i p).setState i .waiting := by
          rw [core_setState, core_log (fun _ => rfl), hadvance]
        have hioWait : u.ioWait = (s.core ps).ioWait := congrArg Core.ioWait hadvance
        rw [← hioWait]
        exact congrArg (fun c : Core n =>
          { c with ioWait := u.ioWait ++ [(i, nb.ticks)], running := none, ran := 0 }) hblocked
      · exact ⟨hadvance, houtside⟩

/-- What is logged for a process is told apart by its pid. -/
theorem core_cpuRun (s : Arena n) (hpids : Function.Injective (fun j => (ps j).pid))
    (hpid : (s.procs i).pid = (ps i).pid) (ticks remaining : ℕ) :
    (s.log (.cpuRun (s.procs i).pid ticks remaining)).core ps = (s.core ps).trace i ticks := by
  refine congrArg (fun traced => { s.core ps with traced := traced }) (funext fun j => ?_)
  show ArenaEvent.tracedTicks (s.trace ++ [.cpuRun (s.procs i).pid ticks remaining]) (ps j).pid
    = Function.update (s.core ps).traced i ((s.core ps).traced i ++ [ticks]) j
  rw [ArenaEvent.tracedTicks, List.filterMap_append]
  by_cases hj : j = i
  · subst hj
    have hself : (ArenaEvent.cpuRun (s.procs j).pid ticks remaining).cpuRunTicks (ps j).pid
        = some ticks := if_pos hpid
    rw [Function.update_self, List.filterMap_cons_some hself]
    rfl
  · have hne : (s.procs i).pid ≠ (ps j).pid := fun heq => hj (hpids (hpid.symm.trans heq)).symm
    have hother : (ArenaEvent.cpuRun (s.procs i).pid ticks remaining).cpuRunTicks (ps j).pid
        = none := if_neg hne
    rw [Function.update_of_ne hj, List.filterMap_cons_none hother, List.filterMap_nil,
      List.append_nil]
    rfl

/-- A tick of the running process is one in the core. -/
theorem core_runTick (ps : Fin n → ArenaProcess) (s : Arena n)
    (hpids : Function.Injective (fun j => (ps j).pid))
    (hpid : ∀ j, (s.procs j).pid = (ps j).pid) :
    s.runTick.core ps = (s.core ps).runTick ∧ s.runTick.outside = s.outside := by
  cases hrun : s.running with
  | none =>
    have heq : s.runTick = s := by
      unfold Arena.runTick
      rw [hrun]
    have heq' : (s.core ps).runTick = s.core ps := by
      unfold Core.runTick
      rw [show (s.core ps).running = none from hrun]
    rw [heq, heq']
    exact ⟨rfl, rfl⟩
  | some i =>
    obtain ⟨u, hu⟩ : ∃ u : Arena n, u = { (s.log (.cpuRun (s.procs i).pid
        (min (s.procs i).burstRemaining (sub32 s.sched.quantum s.ran))
        (dec32 (s.procs i).burstRemaining))).setProc i { s.procs i with
          burstRemaining := dec32 (s.procs i).burstRemaining } with ran := s.ran + 1 } := ⟨_, rfl⟩
    have hself : (u.procs i).burstRemaining = dec32 (s.procs i).burstRemaining := by
      rw [hu]
      simp [setProc]
    have heq : s.runTick = if dec32 (s.procs i).burstRemaining = 0 then u.endBurst i else u := by
      rw [← hself, hu]
      unfold Arena.runTick
      split
      · rename_i hnone
        exact absurd (hrun.symm.trans hnone) (by simp)
      · rename_i j hj
        obtain rfl : i = j := Option.some.inj (hrun.symm.trans hj)
        rfl
    have hcore : u.core ps = { ((s.core ps).trace i
        (min (s.procs i).burstRemaining (sub32 s.sched.quantum s.ran))).setProc i
          { s.processes i with burstRemaining := dec32 (s.procs i).burstRemaining } with
        ran := s.ran + 1 } := by
      have hset := core_setProc ps (s.log (.cpuRun (s.procs i).pid
        (min (s.procs i).burstRemaining (sub32 s.sched.quantum s.ran))
        (dec32 (s.procs i).burstRemaining))) i
        { s.procs i with burstRemaining := dec32 (s.procs i).burstRemaining }
      rw [core_cpuRun s hpids (hpid i)] at hset
      rw [hu]
      exact congrArg (fun c : Core n => { c with ran := s.ran + 1 }) hset
    have heq' : (s.core ps).runTick
        = if dec32 (s.procs i).burstRemaining = 0 then (u.core ps).endBurst i else u.core ps := by
      rw [hcore]
      unfold Core.runTick
      split
      · rename_i hnone
        exact absurd (hrun.symm.trans hnone) (by simp)
      · rename_i j hj
        obtain rfl : i = j := Option.some.inj (hrun.symm.trans hj)
        rfl
    rw [heq, heq']
    split_ifs
    · obtain ⟨hcore, houtside⟩ := core_endBurst ps u i
      rw [hcore, houtside, hu]
      exact ⟨rfl, rfl⟩
    · rw [hu]
      exact ⟨rfl, rfl⟩

/-! ## Admissions -/

/-- The invariant of the CPU, with the processes that wait. -/
def CpuInv (ps : Fin n → ArenaProcess) (k : ℕ) (s : Arena n) (W M : List (Fin n)) : Prop :=
  (s.core ps).Inv (fun i => (ps i).toProcess) k W M

variable {k : ℕ} {W M : List (Fin n)}

/-- The processes keep their pids. -/
theorem CpuInv.pid_eq (h : CpuInv ps k s W M) (i : Fin n) : (s.procs i).pid = (ps i).pid :=
  congrArg Prod.fst (h.program i)

/-- The processes keep their arrivals. -/
theorem CpuInv.arrival_eq (h : CpuInv ps k s W M) (i : Fin n) :
    (s.procs i).arrival = (ps i).arrival :=
  Process.arrival_of_program (h.program i)

/-- A process that waits for memory still waits, or is admitted. -/
theorem CpuInv.tryAdmit (h : CpuInv ps k s W (i :: M)) :
    ∃ t, t.outside = s.outside ∧ t.ioWait = s.ioWait ∧
      ((s.tryAdmit i = (false, t) ∧ CpuInv ps k t W (i :: M)) ∨
        (s.tryAdmit i = (true, t) ∧ CpuInv ps k t W M)) := by
  have hnew : (s.core ps).states i = .new := h.mem.state i (List.mem_cons_self ..)
  have hiM : i ∉ M := (List.nodup_cons.mp h.mem.nodup).1
  rcases core_tryAdmit ps s i with ⟨t, heq, hcore, houtside⟩ | ⟨t, heq, hcore, houtside⟩
  · refine ⟨t, houtside, congrArg Core.ioWait hcore, .inl ⟨heq, ?_⟩⟩
    rw [CpuInv, hcore]
    exact h
  · refine ⟨t, houtside, congrArg Core.ioWait hcore, .inr ⟨heq, ?_⟩⟩
    rw [CpuInv, hcore]
    exact Core.Inv.enqueue h hnew (List.sublist_cons_self i M) hiM

/-- A new process waits for memory; nothing else has changed. -/
theorem CpuInv.wait (h : CpuInv ps k s W M) (hnew : (s.core ps).states i = .new) (hi : i ∉ M) :
    CpuInv ps k s W (i :: M) := by
  refine { h with mem := ⟨.cons hi h.mem.nodup, fun j hj => ?_⟩ }
  rcases List.mem_cons.mp hj with rfl | hj
  · exact hnew
  · exact h.mem.state j hj

/-- A process that arrives is queued or waits for memory, and the invariant stays. -/
theorem CpuInv.arrive (h : CpuInv ps k s W s.memWait)
    (hi : (ps i).arrival = s.tick → i ∉ s.memWait) :
    CpuInv ps k (s.arrive i) W (s.arrive i).memWait ∧ (s.arrive i).tick = s.tick ∧
      (s.arrive i).ioWait = s.ioWait ∧
      ∀ j ∈ (s.arrive i).memWait, j ∈ s.memWait ∨ (j = i ∧ (ps j).arrival = s.tick) := by
  unfold Arena.arrive
  split_ifs with hcond
  · obtain ⟨hnew, harrival⟩ := hcond
    rw [h.arrival_eq] at harrival
    have hcreated : CpuInv ps k (s.log (.processCreated (s.procs i).pid (s.procs i).name
        (s.procs i).memBytes)) W s.memWait := by
      rw [CpuInv, core_log (fun _ => rfl)]
      exact h
    obtain ⟨t, houtside, hioWait, hadmit⟩ := (hcreated.wait (i := i) hnew (hi harrival)).tryAdmit
    obtain ⟨htick, hmemWait⟩ : t.tick = s.tick ∧ t.memWait = s.memWait := Prod.mk.inj houtside
    dsimp only
    rcases hadmit with ⟨heq, hinv⟩ | ⟨heq, hinv⟩
    · rw [heq]
      have hperm : (i :: s.memWait).Perm (t.memWait ++ [i]) := by
        rw [hmemWait]
        exact (List.perm_append_singleton i s.memWait).symm
      refine ⟨Core.Inv.perm hinv (.refl W) hperm, htick, hioWait, fun j hj => ?_⟩
      rcases List.mem_append.mp hj with hj | hj
      · exact .inl (hmemWait ▸ hj)
      · obtain rfl := List.mem_singleton.mp hj
        exact .inr ⟨rfl, harrival⟩
    · rw [heq]
      refine ⟨?_, htick, hioWait, fun j hj => .inl (hmemWait ▸ hj)⟩
      show CpuInv ps k t W t.memWait
      rw [hmemWait]
      exact hinv
  · exact ⟨h, rfl, rfl, fun j hj => .inl hj⟩

/-- **The arrivals**: before them, the processes that wait have arrived earlier. -/
theorem CpuInv.arrivals (h : CpuInv ps k s W s.memWait)
    (hearlier : ∀ j ∈ s.memWait, (ps j).arrival < s.tick) :
    CpuInv ps k s.arrivals W s.arrivals.memWait ∧ s.arrivals.tick = s.tick ∧
      s.arrivals.ioWait = s.ioWait ∧ ∀ j ∈ s.arrivals.memWait, (ps j).arrival ≤ s.tick := by
  -- induct on the processes that have been looked at
  have hloop : ∀ l : List (Fin n), l.Nodup →
      CpuInv ps k (l.foldl Arena.arrive s) W (l.foldl Arena.arrive s).memWait ∧
        (l.foldl Arena.arrive s).tick = s.tick ∧ (l.foldl Arena.arrive s).ioWait = s.ioWait ∧
        ∀ j ∈ (l.foldl Arena.arrive s).memWait,
          j ∈ s.memWait ∨ (j ∈ l ∧ (ps j).arrival = s.tick) := by
    intro l
    induction l using List.reverseRecOn with
    | nil => exact fun _ => ⟨h, rfl, rfl, fun j hj => .inl hj⟩
    | append_singleton l i ih =>
      intro hnodup
      have hil : i ∉ l := by
        intro hin
        exact (List.disjoint_of_nodup_append hnodup) hin (List.mem_singleton_self i)
      obtain ⟨hinv, htick, hioWait, hwait⟩ := ih (hnodup.sublist (List.sublist_append_left l [i]))
      rw [List.foldl_append]
      obtain ⟨hinv', htick', hioWait', hwait'⟩ := hinv.arrive (i := i) (by
        intro harrival hin
        rw [htick] at harrival
        rcases hwait i hin with hin | ⟨hin, -⟩
        · have hlt := hearlier i hin
          omega
        · exact hil hin)
      refine ⟨hinv', htick'.trans htick, hioWait'.trans hioWait, fun j hj => ?_⟩
      rcases hwait' j hj with hj | ⟨rfl, harrival⟩
      · rcases hwait j hj with hj | ⟨hj, harrival⟩
        · exact .inl hj
        · exact .inr ⟨List.mem_append_left _ hj, harrival⟩
      · rw [htick] at harrival
        exact .inr ⟨List.mem_append_right _ (List.mem_singleton_self j), harrival⟩
  obtain ⟨hinv, htick, hioWait, hwait⟩ := hloop (List.finRange n) (List.nodup_finRange n)
  refine ⟨hinv, htick, hioWait, fun j hj => ?_⟩
  rcases hwait j hj with hj | ⟨-, harrival⟩
  · exact (hearlier j hj).le
  · exact harrival.le

/-- The loop over the rest of the processes that wait for memory; `kept` still waits. -/
theorem CpuInv.memLoop {rest kept : List (Fin n)} (h : CpuInv ps k s W (rest ++ kept)) :
    CpuInv ps k (Arena.memLoop rest s).2 W ((Arena.memLoop rest s).1 ++ kept) ∧
      (Arena.memLoop rest s).1.Sublist rest ∧ (Arena.memLoop rest s).2.outside = s.outside ∧
      (Arena.memLoop rest s).2.ioWait = s.ioWait := by
  induction rest generalizing s kept with
  | nil => exact ⟨h, .refl [], rfl, rfl⟩
  | cons i rest ih =>
    rw [Arena.memLoop]
    obtain ⟨t, houtside, hioWait, ⟨heq, hinv⟩ | ⟨heq, hinv⟩⟩ := h.tryAdmit
    · rw [heq]
      have hkept : CpuInv ps k t W (rest ++ i :: kept) :=
        Core.Inv.perm hinv (.refl W) List.perm_middle.symm
      obtain ⟨hinv', hsub, houtside', hioWait'⟩ := ih hkept
      exact ⟨Core.Inv.perm hinv' (.refl W) List.perm_middle, hsub.cons_cons i,
        houtside'.trans houtside, hioWait'.trans hioWait⟩
    · rw [heq]
      obtain ⟨hinv', hsub, houtside', hioWait'⟩ := ih hinv
      exact ⟨hinv', hsub.cons i, houtside'.trans houtside, hioWait'.trans hioWait⟩

/-- The admissions of a tick keep the invariant. -/
theorem CpuInv.admissions (h : CpuInv ps k s W s.memWait) :
    CpuInv ps k s.admissions W s.admissions.memWait ∧
      s.admissions.memWait.Sublist s.memWait ∧ s.admissions.tick = s.tick ∧
      s.admissions.ioWait = s.ioWait := by
  rw [← List.append_nil s.memWait] at h
  obtain ⟨hinv, hsub, houtside, hioWait⟩ := h.memLoop
  rw [List.append_nil] at hinv
  exact ⟨hinv, hsub, congrArg Prod.fst houtside, hioWait⟩

/-! ## Ticks -/

/-- The I/O completions of a tick keep the invariant. -/
theorem CpuInv.ioCompletions (h : CpuInv ps k s (s.ioWait.map Prod.fst) s.memWait) :
    CpuInv ps k s.ioCompletions (s.ioCompletions.ioWait.map Prod.fst) s.ioCompletions.memWait ∧
      s.ioCompletions.outside = s.outside := by
  obtain ⟨hcore, houtside⟩ := core_ioCompletions ps s
  have hmemWait : s.ioCompletions.memWait = s.memWait := congrArg Prod.snd houtside
  have hinv := Core.Inv.ioCompletions h
  rw [← hcore] at hinv
  rw [hmemWait]
  exact ⟨hinv, houtside⟩

/-- The running process is preempted or not, another one is dispatched or not, and there
is a tick on the CPU. -/
theorem CpuInv.cpu (h : CpuInv ps k s (s.ioWait.map Prod.fst) s.memWait)
    (hpids : Function.Injective (fun j => (ps j).pid))
    (halternates : ∀ i, (ps i).toProcess.Alternates) :
    CpuInv ps (k + 1) s.preempt.dispatch.runTick
      (s.preempt.dispatch.runTick.ioWait.map Prod.fst) s.preempt.dispatch.runTick.memWait ∧
      s.preempt.dispatch.runTick.outside = s.outside := by
  obtain ⟨hpreempt, hio, hran⟩ := Core.Inv.preempt h
  obtain ⟨hdispatch, hio', hran'⟩ := hpreempt.dispatch hran
  obtain ⟨hcore₁, houtside₁⟩ := core_preempt ps s
  obtain ⟨hcore₂, houtside₂⟩ := core_dispatch ps s.preempt
  rw [← hcore₁, ← hcore₂] at hdispatch hio' hran'
  rw [hcore₁, hio] at hio'
  have hpid : ∀ j, (s.preempt.dispatch.procs j).pid = (ps j).pid :=
    CpuInv.pid_eq (W := s.ioWait.map Prod.fst) (M := s.memWait) hdispatch
  obtain ⟨hcore₃, houtside₃⟩ := core_runTick ps s.preempt.dispatch hpids hpid
  have houtside := houtside₃.trans (houtside₂.trans houtside₁)
  have hmemWait : s.preempt.dispatch.runTick.memWait = s.memWait := congrArg Prod.snd houtside
  have hwait : (s.preempt.dispatch.core ps).ioWait = s.ioWait := hio'
  rw [← show (s.core ps).ioWait = s.ioWait from rfl, ← hio'] at hdispatch
  have hinv := hdispatch.runTick halternates hran'
  rw [← hcore₃] at hinv
  rw [hmemWait]
  exact ⟨hinv, houtside⟩

/-- **A tick.** -/
theorem CpuInv.step (h : CpuInv ps s.tick s (s.ioWait.map Prod.fst) s.memWait)
    (hpids : Function.Injective (fun j => (ps j).pid))
    (halternates : ∀ i, (ps i).toProcess.Alternates)
    (hearlier : ∀ j ∈ s.memWait, (ps j).arrival < s.tick) :
    CpuInv ps s.step.tick s.step (s.step.ioWait.map Prod.fst) s.step.memWait ∧
      (∀ j ∈ s.step.memWait, (ps j).arrival < s.step.tick) ∧ s.step.tick = s.tick + 1 := by
  obtain ⟨h₁, htick₁, hio₁, hlate⟩ := h.arrivals hearlier
  rw [← hio₁] at h₁
  obtain ⟨h₂, houtside₂⟩ := h₁.ioCompletions
  obtain ⟨h₃, hsub, htick₃, hio₃⟩ := h₂.admissions
  rw [← hio₃] at h₃
  obtain ⟨h₄, houtside₄⟩ := h₃.cpu hpids halternates
  obtain ⟨htick₂, hmem₂⟩ := Prod.mk.inj houtside₂
  obtain ⟨htick₄, hmem₄⟩ := Prod.mk.inj houtside₄
  have htick : s.step.tick = s.tick + 1 := by
    show s.arrivals.ioCompletions.admissions.preempt.dispatch.runTick.tick + 1 = _
    rw [htick₄, htick₃, htick₂, htick₁]
  refine ⟨htick ▸ h₄, fun j hj => ?_, htick⟩
  have hj : j ∈ s.arrivals.ioCompletions.admissions.preempt.dispatch.runTick.memWait := hj
  rw [hmem₄] at hj
  have hwait := hsub.subset hj
  rw [hmem₂] at hwait
  have hle := hlate j hwait
  omega

/-- **Every run**, which ends before tick 1000 at the latest. -/
theorem AtTick.cpuInv (h : AtTick (Arena.start ps) s)
    (hpids : Function.Injective (fun j => (ps j).pid))
    (halternates : ∀ i, (ps i).toProcess.Alternates) :
    CpuInv ps s.tick s (s.ioWait.map Prod.fst) s.memWait ∧
      (∀ j ∈ s.memWait, (ps j).arrival < s.tick) ∧ s.tick ≤ 1000 := by
  induction h with
  | start =>
    exact ⟨Core.inv_start halternates 4 (by norm_num) (by norm_num),
      fun _ hj => absurd hj List.not_mem_nil, Nat.zero_le _⟩
  | next _ hcontinues ih =>
    obtain ⟨hinv, hearlier, htick⟩ := ih.1.step hpids halternates ih.2.1
    refine ⟨hinv, hearlier, ?_⟩
    have hlt := of_decide_eq_true (Bool.and_eq_true_iff.mp hcontinues).2
    omega

/-- The `cpu_run` events of a terminated process add up to its CPU time exactly if all its
CPU bursts take one tick. -/
theorem AtTick.tracedTicks_sum (h : AtTick (Arena.start ps) s)
    (hpids : Function.Injective (fun j => (ps j).pid))
    (halternates : ∀ i, (ps i).toProcess.Alternates) (hdone : (s.procs i).state = .terminated) :
    (ArenaEvent.tracedTicks s.trace (ps i).pid).sum = (ps i).totalCpuBurst ↔
      ∀ b ∈ (ps i).bursts, b.type = .cpu → b.ticks = 1 := by
  obtain ⟨hinv, -, htick⟩ := h.cpuInv hpids halternates
  exact Core.Inv.traced_of_terminated hinv (by omega) hdone

end Arena

end Memlab
