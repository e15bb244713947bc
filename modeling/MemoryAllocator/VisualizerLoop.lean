/-
# The main loop of `visualizer_demo.cpp`

The scheduling of the visualizer, around the page accesses of its virtual memory system.
A tick draws two random numbers, for the page and for the offset of its access; a run is
a run for any such draws.

The loop stays within the guards of `demoMachine`, so that the memory never gets stuck
and all that is known of the runs of that machine is known of the loop.  And what the
CPU time depends on is `Core`, as for the contiguous arena.
-/
import MemoryAllocator.DemoCpu
import MemoryAllocator.Visualizer

namespace Visualizer

open Memlab (Process ArenaProcess State RoundRobin Core dec32 sub32)

/-! ## The loop -/

/-- A segment of a process: its first page and how many pages it has. -/
structure SegmentInfo where
  name : Segment
  baseVpn : ℕ
  numPages : ℕ
  deriving DecidableEq, Repr

/-- The segments that every process is given. -/
def procSegments : List SegmentInfo :=
  [⟨.code, 0, 2⟩, ⟨.data, 2, 2⟩, ⟨.heap, 4, 4⟩, ⟨.stack, 8, 2⟩]

/-- The variables of `main`. -/
structure Main (n : ℕ) where
  memory : Demo := {}
  sched : RoundRobin n := { quantum := 4 }
  procs : Fin n → ArenaProcess
  tick : ℕ := 0
  running : Option (Fin n) := none
  ranTicks : ℕ := 0
  ioWaiting : List (Fin n × ℕ) := []

namespace Main

variable {n : ℕ}

/-- The start of the loop. -/
def start (procs : Fin n → ArenaProcess) : Main n :=
  { procs := fun i =>
      { procs i with
        memBytes := 10 * 4096
        state := .new
        curBurst := 0
        burstRemaining :=
          match (procs i).bursts with
          | [] => 0
          | b :: _ => b.ticks } }

variable (s : Main n)

def log (event : Event) : Main n :=
  { s with memory := { s.memory with log := s.memory.log ++ [event] } }

/-- Store back a process. -/
def setProc (i : Fin n) (p : ArenaProcess) : Main n :=
  { s with procs := Function.update s.procs i p }

/-- Write the state of a process. -/
def setState (i : Fin n) (state : State) : Main n :=
  s.setProc i { s.procs i with state := state }

/-- A process gets ready, and the log says so. -/
def doEnqueue (i : Fin n) (preempted : Bool) : Main n :=
  let s := s.setState i .ready
  let s := { s with sched := RoundRobin.add (fun j => (s.procs j).toProcess) i s.sched }
  s.log (.processReady (s.procs i).pid preempted)

/-- One round of the loop over the arrivals. -/
def arrive (i : Fin n) : Main n :=
  if (s.procs i).state = .new ∧ (s.procs i).arrival = s.tick then
    let pid := (s.procs i).pid
    let s := s.log (.processCreated pid (s.procs i).name (s.procs i).memBytes 10)
    let s := procSegments.foldl
      (fun s seg => s.log (.segmentCreated pid seg.name seg.baseVpn seg.numPages)) s
    s.doEnqueue i false
  else s

/-- The loop over the processes that may arrive. -/
def arrivals : Main n := (List.finRange n).foldl arrive s

/-- The end of a process, in both places. -/
def terminate (i : Fin n) : Main n :=
  let pid := (s.procs i).pid
  let r := s.memory.vm.terminate pid
  { s with
    memory := { vm := r.2, dead := pid :: s.memory.dead, log := s.memory.log ++ r.1 }
    }.setState i .terminated

/-- Go to the next burst of a process, and say whether there is one. -/
def advance (i : Fin n) : Bool × Main n :=
  let r := (s.procs i).toProcess.advanceBurst
  (r.1, s.setProc i { s.procs i with toProcess := r.2 })

/-- The I/O burst of a process is over. -/
def completeIo (i : Fin n) : Main n :=
  let s := s.log (.ioAck (s.procs i).pid)
  match s.advance i with
  | (true, s) => s.doEnqueue i false
  | (false, s) => s.terminate i

/-- The loop over the rest of the waiting list: the entries that stay, and the state. -/
def ioLoop : List (Fin n × ℕ) → Main n → List (Fin n × ℕ) × Main n
  | [], s => ([], s)
  | (i, ticks) :: rest, s =>
    if dec32 ticks = 0 then ioLoop rest (s.completeIo i)
    else
      let r := ioLoop rest s
      ((i, dec32 ticks) :: r.1, r.2)

/-- The loop over the processes in I/O. -/
def ioCompletions : Main n :=
  let r := ioLoop s.ioWaiting s
  { r.2 with ioWaiting := r.1 }

/-- The processes, as the policy sees them. -/
def processes (i : Fin n) : Process := (s.procs i).toProcess

/-- A process whose slice is over goes back to the queue. -/
def preempt : Main n :=
  match s.running with
  | none => s
  | some i =>
    if RoundRobin.scheduler.shouldPreempt s.processes s.sched i s.ranTicks then
      { s.doEnqueue i true with running := none, ranTicks := 0 }
    else s

/-- An idle CPU takes the next process. -/
def schedule : Main n :=
  match s.running with
  | some _ => s
  | none =>
    match RoundRobin.scheduler.pickNext s.processes s.sched with
    | (none, sched) => { s with sched := sched }
    | (some i, sched) =>
      { s with sched := sched, running := some i, ranTicks := 0 }.log
        (.processScheduled (s.procs i).pid (s.procs i).curBurst)

/-- The page that a process accesses at a tick, with the random numbers of `rng`. -/
def target (pid : ℤ) (tick : ℕ) (draw : ℕ × ℕ) : Access :=
  let seg := procSegments.get
    ⟨((tick + pid) % 2 ^ 32).toNat % procSegments.length, Nat.mod_lt _ (by decide)⟩
  let vpn := seg.baseVpn + draw.1 % seg.numPages
  ⟨pid, vpn, seg.name, vpn * 4096 + draw.2 % 1024⟩

/-- The memory access of the running process. -/
def access (i : Fin n) (draw : ℕ × ℕ) : Option (Main n) :=
  (s.memory.vm.access (target (s.procs i).pid s.tick draw)).map (fun (events, vm) =>
    { s with memory := { s.memory with vm := vm, log := s.memory.log ++ events } })

/-- The burst of the running process is over. -/
def endBurst (i : Fin n) : Main n :=
  match s.advance i with
  | (true, s) =>
    match (s.procs i).toProcess.currentBurst with
    | none => s
    | some nb =>
      if nb.type = .io then
        let s := s.log (.ioRequested (s.procs i).pid nb.ticks)
        let s := s.setState i .waiting
        { s with ioWaiting := s.ioWaiting ++ [(i, nb.ticks)], running := none, ranTicks := 0 }
      else s
  | (false, s) => { s.terminate i with running := none, ranTicks := 0 }

/-- The step on the CPU. -/
def execute (i : Fin n) : Main n :=
  let p := s.procs i
  let runFor := min p.burstRemaining (sub32 s.sched.quantum s.ranTicks)
  let s := s.log (.cpuRun p.pid runFor (dec32 p.burstRemaining))
  let s := s.setProc i { p with burstRemaining := dec32 p.burstRemaining }
  let s := { s with ranTicks := s.ranTicks + 1 }
  if (s.procs i).burstRemaining = 0 then s.endBurst i else s

/-- Access and execution. -/
def runTick (draw : ℕ × ℕ) : Option (Main n) :=
  match s.running with
  | none => some s
  | some i => (s.access i draw).map (fun s => s.execute i)

/-- One iteration of the loop, a simulated tick.  There is none if a page fault finds no
frame in the queue. -/
def step (draw : ℕ × ℕ) : Option (Main n) :=
  (s.arrivals.ioCompletions.preempt.schedule.runTick draw).map (fun s =>
    { s with tick := s.tick + 1 })

/-- The condition of the loop. -/
def continues : Bool :=
  !decide (∀ i, (s.procs i).state = .terminated) && decide (s.tick < 1000)

/-- The states at the end of the simulated ticks, and the start. -/
inductive AtTick (s₀ : Main n) : Main n → Prop
  | start : AtTick s₀ s₀
  | next {s t : Main n} (draw : ℕ × ℕ) : AtTick s₀ s → s.continues = true →
      s.step draw = some t → AtTick s₀ t

theorem AtTick.trans {s t u : Main n} (hs : AtTick s t) (ht : AtTick t u) : AtTick s u := by
  induction ht with
  | start => exact hs
  | next draw _ hcontinues hstep ih => exact ih.next draw hcontinues hstep

/-- The loop, for as many ticks as there are random numbers. -/
def loop : List (ℕ × ℕ) → Main n → Option (Main n)
  | [], s => some s
  | draw :: draws, s =>
    if s.continues then
      match s.step draw with
      | none => none
      | some t => loop draws t
    else some s

/-- The loop ends where a further tick would start. -/
theorem atTick_loop {s₀ s t : Main n} (h : AtTick s₀ s) (draws : List (ℕ × ℕ))
    (hloop : loop draws s = some t) : AtTick s₀ t := by
  induction draws generalizing s with
  | nil => exact Option.some.inj hloop ▸ h
  | cons draw draws ih =>
    rw [loop] at hloop
    split_ifs at hloop with hcontinues
    · cases hstep : s.step draw with
      | none =>
        rw [hstep] at hloop
        simp at hloop
      | some u =>
        rw [hstep] at hloop
        exact ih (.next draw h hcontinues hstep) hloop
    · exact Option.some.inj hloop ▸ h

end Main

/-! ## What the CPU time depends on -/

/-- The `ticks` field of a `cpu_run` event of a process. -/
def Event.cpuRunTicks (pid : ℤ) : Event → Option ℕ
  | .cpuRun pid' ticks _ => if pid' = pid then some ticks else none
  | _ => none

/-- The `ticks` fields of the `cpu_run` events of a process. -/
def Event.tracedTicks (log : List Event) (pid : ℤ) : List ℕ := log.filterMap (cpuRunTicks pid)

/-- The event is not a `cpu_run`. -/
def Event.Untimed (event : Event) : Prop := ∀ pid, event.cpuRunTicks pid = none

/-- Events of the memory leave the traced ticks. -/
theorem Event.tracedTicks_append {events : List Event} (h : ∀ e ∈ events, e.Untimed)
    (log : List Event) (pid : ℤ) : tracedTicks (log ++ events) pid = tracedTicks log pid := by
  have hnil : events.filterMap (cpuRunTicks pid) = [] :=
    List.filterMap_eq_nil_iff.mpr (fun e he => h e he pid)
  rw [tracedTicks, List.filterMap_append, hnil, List.append_nil]
  rfl

/-- The end of a process logs events of the memory. -/
theorem VirtualMemorySystem.untimed_terminate (v : VirtualMemorySystem) (pid : ℤ) :
    ∀ e ∈ (v.terminate pid).1, e.Untimed := by
  intro e he
  rcases List.mem_append.mp he with he | he
  · obtain ⟨f, -, rfl⟩ := List.mem_map.mp he
    exact fun _ => rfl
  · obtain rfl := List.mem_singleton.mp he
    exact fun _ => rfl

/-- A page fault logs events of the memory. -/
theorem VirtualMemorySystem.untimed_fault {v v' : VirtualMemorySystem} {op : Access}
    {events : List Event} (h : v.fault op = some (events, v')) : ∀ e ∈ events, e.Untimed := by
  unfold VirtualMemorySystem.fault at h
  split at h
  · obtain ⟨rfl, -⟩ := Prod.mk.inj (Option.some.inj h)
    intro e he
    obtain rfl := List.mem_singleton.mp he
    exact fun _ => rfl
  · obtain ⟨⟨event, pfn, u⟩, hevict, heq⟩ := Option.map_eq_some_iff.mp h
    obtain ⟨rfl, -⟩ := Prod.mk.inj heq
    unfold evict at hevict
    split at hevict
    · simp at hevict
    · obtain ⟨rfl, -⟩ := Prod.mk.inj (Option.some.inj hevict)
      intro e he
      rcases List.mem_cons.mp he with rfl | he
      · exact fun _ => rfl
      · obtain rfl := List.mem_singleton.mp he
        exact fun _ => rfl

/-- An access logs events of the memory. -/
theorem VirtualMemorySystem.untimed_access {v v' : VirtualMemorySystem} {op : Access}
    {events : List Event} (h : v.access op = some (events, v')) : ∀ e ∈ events, e.Untimed := by
  rcases access_cases v op with ⟨f, -, heq⟩ | ⟨f, -, -, heq⟩ | ⟨-, -, heq⟩
  · rw [heq] at h
    obtain ⟨rfl, -⟩ := Prod.mk.inj (Option.some.inj h)
    intro e he
    obtain rfl := List.mem_singleton.mp he
    exact fun _ => rfl
  · rw [heq] at h
    obtain ⟨rfl, -⟩ := Prod.mk.inj (Option.some.inj h)
    intro e he
    rcases List.mem_cons.mp he with rfl | he
    · exact fun _ => rfl
    · obtain rfl := List.mem_singleton.mp he
      exact fun _ => rfl
  · rw [heq] at h
    obtain ⟨⟨faulted, u⟩, hfault, heq'⟩ := Option.map_eq_some_iff.mp h
    obtain ⟨rfl, -⟩ := Prod.mk.inj heq'
    intro e he
    rcases List.mem_cons.mp he with rfl | he
    · exact fun _ => rfl
    · rcases List.mem_cons.mp he with rfl | he
      · exact fun _ => rfl
      · exact untimed_fault hfault e he

namespace Main

variable {n : ℕ} (ps : Fin n → ArenaProcess) (s : Main n)

/-- What the CPU time depends on. -/
def core : Core n :=
  { quantum := s.sched.quantum
    procs := s.processes
    queue := s.sched.q
    running := s.running
    ran := s.ranTicks
    ioWait := s.ioWaiting
    traced := fun i => Event.tracedTicks s.memory.log (ps i).pid }

variable {ps s} {i : Fin n}

/-- Other events than `cpu_run`, and the memory, do not matter. -/
theorem core_remember {memory : Demo} {events : List Event}
    (hlog : memory.log = s.memory.log ++ events) (h : ∀ e ∈ events, e.Untimed) :
    ({ s with memory := memory } : Main n).core ps = s.core ps := by
  have htraced : ∀ pid, Event.tracedTicks memory.log pid = Event.tracedTicks s.memory.log pid := by
    intro pid
    rw [hlog, Event.tracedTicks_append h]
  simp only [core, htraced]
  rfl

/-- An event of the memory leaves the core. -/
theorem core_log {event : Event} (h : event.Untimed) : (s.log event).core ps = s.core ps :=
  core_remember rfl (List.forall_mem_singleton.mpr h)

/-- Writing a process writes it in the core. -/
theorem core_setProc (ps : Fin n → ArenaProcess) (s : Main n) (i : Fin n) (p : ArenaProcess) :
    (s.setProc i p).core ps = (s.core ps).setProc i p.toProcess := by
  have hprocs : (s.setProc i p).processes = Function.update s.processes i p.toProcess := by
    funext j
    by_cases hj : j = i
    · subst hj
      simp [processes, setProc]
    · simp [processes, setProc, hj]
  rw [core, hprocs]
  rfl

theorem core_setState (s : Main n) (i : Fin n) (state : State) :
    (s.setState i state).core ps = (s.core ps).setState i state :=
  core_setProc ps s i { s.procs i with state := state }

/-- A process is queued in the core too. -/
theorem core_doEnqueue (s : Main n) (i : Fin n) (preempted : Bool) :
    (s.doEnqueue i preempted).core ps = (s.core ps).enqueue i := by
  unfold Main.doEnqueue
  dsimp only
  rw [core_log (fun _ => rfl), Core.enqueue, ← core_setState]
  rfl

/-- A process ends in the core too. -/
theorem core_terminate (s : Main n) (i : Fin n) :
    (s.terminate i).core ps = (s.core ps).setState i .terminated := by
  unfold Main.terminate
  dsimp only
  rw [core_setState, core_remember rfl (s.memory.vm.untimed_terminate _)]

/-- The next burst is the next one in the core. -/
theorem core_advance (ps : Fin n → ArenaProcess) (s : Main n) (i : Fin n) :
    (s.advance i).2.core ps = (s.core ps).setProc i (s.processes i).advanceBurst.2 :=
  core_setProc ps s i _

/-- An arrival changes nothing of the CPU, or puts a new process into the queue. -/
theorem core_arrive (ps : Fin n → ArenaProcess) (s : Main n) (i : Fin n) :
    ((s.arrive i).core ps = s.core ps ∨
      ((s.core ps).states i = .new ∧ (s.arrive i).core ps = (s.core ps).enqueue i)) ∧
      (s.arrive i).tick = s.tick := by
  unfold Main.arrive
  split_ifs with harrives
  · refine ⟨.inr ⟨harrives.1, ?_⟩, rfl⟩
    simp only [procSegments, List.foldl_cons, List.foldl_nil]
    rw [core_doEnqueue, core_log (fun _ => rfl), core_log (fun _ => rfl), core_log (fun _ => rfl),
      core_log (fun _ => rfl), core_log (fun _ => rfl)]
  · exact ⟨.inl rfl, rfl⟩

/-- A process that comes back from I/O comes back in the core. -/
theorem core_completeIo (ps : Fin n → ArenaProcess) (s : Main n) (i : Fin n) :
    (s.completeIo i).core ps = (s.core ps).completeIo i ∧ (s.completeIo i).tick = s.tick := by
  have hprocs : (s.core ps).procs i = s.processes i := rfl
  have hadvance := core_advance ps (s.log (.ioAck (s.procs i).pid)) i
  rw [core_log (fun _ => rfl)] at hadvance
  have hfst : ((s.log (.ioAck (s.procs i).pid)).advance i).1 = (s.processes i).advanceBurst.1 := rfl
  have hsnd : ((s.log (.ioAck (s.procs i).pid)).processes i) = s.processes i := rfl
  have htick : ((s.log (.ioAck (s.procs i).pid)).advance i).2.tick = s.tick := rfl
  unfold Main.completeIo Core.completeIo
  dsimp only
  rw [hsnd] at hadvance
  rw [hprocs]
  generalize (s.log (.ioAck (s.procs i).pid)).advance i = r at hadvance hfst htick
  generalize (s.processes i).advanceBurst = a at hadvance hfst
  obtain ⟨more, u⟩ := r
  obtain ⟨more', p⟩ := a
  dsimp only at hadvance hfst htick
  subst hfst
  cases more
  · refine ⟨?_, htick⟩
    show (u.terminate i).core ps = _
    rw [core_terminate, hadvance]
  · refine ⟨?_, htick⟩
    show (u.doEnqueue i false).core ps = _
    rw [core_doEnqueue, hadvance]

/-- The loop over the waiting list. -/
theorem core_ioLoop (ps : Fin n → ArenaProcess) (rest : List (Fin n × ℕ)) (s : Main n) :
    Core.ioLoop rest (s.core ps) = ((ioLoop rest s).1, (ioLoop rest s).2.core ps) ∧
      (ioLoop rest s).2.tick = s.tick := by
  induction rest generalizing s with
  | nil => exact ⟨rfl, rfl⟩
  | cons x rest ih =>
    obtain ⟨i, ticks⟩ := x
    rw [Core.ioLoop, ioLoop]
    split_ifs
    · obtain ⟨hcore, htick⟩ := ih (s.completeIo i)
      obtain ⟨hcomplete, hsame⟩ := core_completeIo ps s i
      rw [← hcomplete]
      exact ⟨hcore, htick.trans hsame⟩
    · obtain ⟨hcore, htick⟩ := ih s
      rw [hcore]
      exact ⟨rfl, htick⟩

/-- The I/O completions of a tick are those of the core. -/
theorem core_ioCompletions (ps : Fin n → ArenaProcess) (s : Main n) :
    s.ioCompletions.core ps = (s.core ps).ioCompletions ∧ s.ioCompletions.tick = s.tick := by
  obtain ⟨hcore, htick⟩ := core_ioLoop ps s.ioWaiting s
  refine ⟨?_, htick⟩
  unfold Core.ioCompletions
  dsimp only
  rw [show (s.core ps).ioWait = s.ioWaiting from rfl, hcore]
  rfl

/-- A preemption is one in the core. -/
theorem core_preempt (ps : Fin n → ArenaProcess) (s : Main n) :
    s.preempt.core ps = (s.core ps).preempt ∧ s.preempt.tick = s.tick := by
  have hrunning : (s.core ps).running = s.running := rfl
  unfold Main.preempt Core.preempt
  rw [hrunning]
  cases s.running with
  | none => exact ⟨rfl, rfl⟩
  | some i =>
    have hshould : RoundRobin.scheduler.shouldPreempt s.processes s.sched i s.ranTicks
        = decide ((s.core ps).quantum ≤ (s.core ps).ran) := rfl
    dsimp only
    rw [hshould]
    by_cases hran : (s.core ps).quantum ≤ (s.core ps).ran
    · rw [if_pos (decide_eq_true hran), if_pos hran, ← core_doEnqueue s i true]
      exact ⟨rfl, rfl⟩
    · rw [if_neg (by simpa using hran), if_neg hran]
      exact ⟨rfl, rfl⟩

/-- A dispatch is one in the core. -/
theorem core_schedule (ps : Fin n → ArenaProcess) (s : Main n) :
    s.schedule.core ps = (s.core ps).dispatch ∧ s.schedule.tick = s.tick := by
  have hrunning : (s.core ps).running = s.running := rfl
  have hqueue : (s.core ps).queue = s.sched.q := rfl
  cases hrun : s.running with
  | some i =>
    unfold Main.schedule Core.dispatch
    rw [hrunning, hrun]
    exact ⟨rfl, rfl⟩
  | none =>
    unfold Main.schedule Core.dispatch
    rw [hrunning, hrun, hqueue]
    rcases RoundRobin.pickNext_cases s.processes s.sched with ⟨hq, hpick⟩ | ⟨i, q, hq, hpick⟩
    · have hsame : { s with running := none } = s := by rw [← hrun]
      rw [hpick, hq]
      exact ⟨congrArg (core ps) hsame, rfl⟩
    · rw [hpick, hq]
      exact ⟨core_log (fun _ => rfl), rfl⟩

/-- The end of a burst is one in the core. -/
theorem core_endBurst (ps : Fin n → ArenaProcess) (s : Main n) (i : Fin n) :
    (s.endBurst i).core ps = (s.core ps).endBurst i ∧ (s.endBurst i).tick = s.tick := by
  have hprocs : (s.core ps).procs i = s.processes i := rfl
  have hadvance := core_advance ps s i
  have hfst : (s.advance i).1 = (s.processes i).advanceBurst.1 := rfl
  have hsnd : (s.advance i).2.processes i = (s.processes i).advanceBurst.2 := by
    simp [advance, processes, setProc]
  have htick : (s.advance i).2.tick = s.tick := rfl
  unfold Main.endBurst Core.endBurst
  rw [hprocs]
  generalize s.advance i = r at hadvance hfst hsnd htick
  generalize (s.processes i).advanceBurst = a at hadvance hfst hsnd
  obtain ⟨more, u⟩ := r
  obtain ⟨more', p⟩ := a
  dsimp only at hadvance hfst hsnd htick
  subst hfst
  cases more
  · refine ⟨?_, htick⟩
    have hterminate : (u.terminate i).core ps
        = ((s.core ps).setProc i p).setState i .terminated := by
      rw [core_terminate, hadvance]
    exact congrArg (fun c : Core n => { c with running := none, ran := 0 }) hterminate
  · have hcurrent : (u.procs i).toProcess.currentBurst = p.currentBurst := by rw [← hsnd]; rfl
    dsimp only
    rw [hcurrent]
    cases p.currentBurst with
    | none => exact ⟨hadvance, htick⟩
    | some nb =>
      dsimp only
      split_ifs
      · refine ⟨?_, htick⟩
        have hblocked :
            ((u.log (.ioRequested (u.procs i).pid nb.ticks)).setState i .waiting).core ps
              = ((s.core ps).setProc i p).setState i .waiting := by
          rw [core_setState, core_log (fun _ => rfl), hadvance]
        have hioWaiting : u.ioWaiting = (s.core ps).ioWait := congrArg Core.ioWait hadvance
        rw [← hioWaiting]
        exact congrArg (fun c : Core n =>
          { c with ioWait := u.ioWaiting ++ [(i, nb.ticks)], running := none, ran := 0 }) hblocked
      · exact ⟨hadvance, htick⟩

/-- What is logged for a process is told apart by its pid. -/
theorem core_cpuRun (s : Main n) (hpids : Function.Injective (fun j => (ps j).pid))
    (hpid : (s.procs i).pid = (ps i).pid) (ticks remaining : ℕ) :
    (s.log (.cpuRun (s.procs i).pid ticks remaining)).core ps = (s.core ps).trace i ticks := by
  refine congrArg (fun traced => { s.core ps with traced := traced }) (funext fun j => ?_)
  show Event.tracedTicks (s.memory.log ++ [.cpuRun (s.procs i).pid ticks remaining]) (ps j).pid
    = Function.update (s.core ps).traced i ((s.core ps).traced i ++ [ticks]) j
  rw [Event.tracedTicks, List.filterMap_append]
  by_cases hj : j = i
  · subst hj
    have hself : (Event.cpuRun (s.procs j).pid ticks remaining).cpuRunTicks (ps j).pid
        = some ticks := if_pos hpid
    rw [Function.update_self, List.filterMap_cons_some hself]
    rfl
  · have hne : (s.procs i).pid ≠ (ps j).pid := fun heq => hj (hpids (hpid.symm.trans heq)).symm
    have hother : (Event.cpuRun (s.procs i).pid ticks remaining).cpuRunTicks (ps j).pid
        = none := if_neg hne
    rw [Function.update_of_ne hj, List.filterMap_cons_none hother, List.filterMap_nil,
      List.append_nil]
    rfl

/-- A tick of the running process is one in the core. -/
theorem core_execute (s : Main n) (hpids : Function.Injective (fun j => (ps j).pid))
    (hpid : (s.procs i).pid = (ps i).pid) (hrun : s.running = some i) :
    (s.execute i).core ps = (s.core ps).runTick ∧ (s.execute i).tick = s.tick := by
  obtain ⟨u, hu⟩ : ∃ u : Main n, u = { (s.log (.cpuRun (s.procs i).pid
      (min (s.procs i).burstRemaining (sub32 s.sched.quantum s.ranTicks))
      (dec32 (s.procs i).burstRemaining))).setProc i { s.procs i with
        burstRemaining := dec32 (s.procs i).burstRemaining } with ranTicks := s.ranTicks + 1 } :=
    ⟨_, rfl⟩
  have hself : (u.procs i).burstRemaining = dec32 (s.procs i).burstRemaining := by
    rw [hu]
    simp [setProc]
  have heq : s.execute i = if dec32 (s.procs i).burstRemaining = 0 then u.endBurst i else u := by
    rw [← hself, hu]
    rfl
  have hcore : u.core ps = { ((s.core ps).trace i
      (min (s.procs i).burstRemaining (sub32 s.sched.quantum s.ranTicks))).setProc i
        { s.processes i with burstRemaining := dec32 (s.procs i).burstRemaining } with
      ran := s.ranTicks + 1 } := by
    have hset := core_setProc ps (s.log (.cpuRun (s.procs i).pid
      (min (s.procs i).burstRemaining (sub32 s.sched.quantum s.ranTicks))
      (dec32 (s.procs i).burstRemaining))) i
      { s.procs i with burstRemaining := dec32 (s.procs i).burstRemaining }
    rw [core_cpuRun s hpids hpid] at hset
    rw [hu]
    exact congrArg (fun c : Core n => { c with ran := s.ranTicks + 1 }) hset
  have heq' : (s.core ps).runTick
      = if dec32 (s.procs i).burstRemaining = 0 then (u.core ps).endBurst i else u.core ps := by
    rw [hcore]
    unfold Core.runTick
    split
    · rename_i hnone
      exact absurd (hrun.symm.trans hnone) (by simp)
    · rename_i j hj
      obtain rfl : i = j := Option.some.inj (hrun.symm.trans hj)
      rfl
  rw [heq, heq']
  split_ifs
  · obtain ⟨hend, htick⟩ := core_endBurst ps u i
    rw [hend, htick, hu]
    exact ⟨rfl, rfl⟩
  · rw [hu]
    exact ⟨rfl, rfl⟩

/-- The access before the tick does not matter to the core. -/
theorem core_runTick {t : Main n} {draw : ℕ × ℕ} (h : s.runTick draw = some t)
    (hpids : Function.Injective (fun j => (ps j).pid))
    (hpid : ∀ j, (s.procs j).pid = (ps j).pid) :
    t.core ps = (s.core ps).runTick ∧ t.tick = s.tick := by
  unfold Main.runTick at h
  cases hrun : s.running with
  | none =>
    rw [hrun] at h
    obtain rfl := Option.some.inj h
    have heq : (s.core ps).runTick = s.core ps := by
      unfold Core.runTick
      rw [show (s.core ps).running = none from hrun]
    exact ⟨heq.symm, rfl⟩
  | some i =>
    rw [hrun] at h
    obtain ⟨u, haccess, rfl⟩ := Option.map_eq_some_iff.mp h
    obtain ⟨⟨events, vm⟩, hevents, rfl⟩ := Option.map_eq_some_iff.mp haccess
    have hcore : ({ s with memory := { s.memory with vm := vm, log := s.memory.log ++ events } } :
        Main n).core ps = s.core ps :=
      core_remember rfl (VirtualMemorySystem.untimed_access hevents)
    rw [← hcore]
    exact core_execute _ hpids (hpid i) hrun

/-! ## Ticks -/

/-- The invariant of the CPU, with the processes that wait. -/
def CpuInv (ps : Fin n → ArenaProcess) (k : ℕ) (s : Main n) (W : List (Fin n)) : Prop :=
  (s.core ps).Inv (fun i => (ps i).toProcess) k W []

variable {k : ℕ} {W : List (Fin n)}

theorem CpuInv.arrivals (h : CpuInv ps k s W) :
    CpuInv ps k s.arrivals W ∧ s.arrivals.tick = s.tick ∧ s.arrivals.ioWaiting = s.ioWaiting := by
  unfold Main.arrivals
  generalize List.finRange n = l
  induction l generalizing s with
  | nil => exact ⟨h, rfl, rfl⟩
  | cons i l ih =>
    obtain ⟨hcore, htick⟩ := core_arrive ps s i
    have hstep : CpuInv ps k (s.arrive i) W ∧ (s.arrive i).ioWaiting = s.ioWaiting := by
      rcases hcore with hcore | ⟨hnew, hcore⟩
      · refine ⟨?_, congrArg Core.ioWait hcore⟩
        rw [CpuInv, hcore]
        exact h
      · refine ⟨?_, congrArg Core.ioWait hcore⟩
        rw [CpuInv, hcore]
        exact Core.Inv.enqueue h hnew (.refl []) List.not_mem_nil
    obtain ⟨hinv, htick', hio⟩ := ih hstep.1
    exact ⟨hinv, htick'.trans htick, hio.trans hstep.2⟩

/-- **A tick.** -/
theorem CpuInv.step {t : Main n} {draw : ℕ × ℕ}
    (h : CpuInv ps s.tick s (s.ioWaiting.map Prod.fst))
    (hpids : Function.Injective (fun j => (ps j).pid))
    (halternates : ∀ i, (ps i).toProcess.Alternates) (hstep : s.step draw = some t) :
    CpuInv ps t.tick t (t.ioWaiting.map Prod.fst) ∧ t.tick = s.tick + 1 := by
  obtain ⟨u, hu, rfl⟩ := Option.map_eq_some_iff.mp hstep
  obtain ⟨h₁, htick₁, hio₁⟩ := h.arrivals
  rw [← hio₁] at h₁
  obtain ⟨hcore₂, htick₂⟩ := core_ioCompletions ps s.arrivals
  obtain ⟨hcore₃, htick₃⟩ := core_preempt ps s.arrivals.ioCompletions
  obtain ⟨hcore₄, htick₄⟩ := core_schedule ps s.arrivals.ioCompletions.preempt
  have h₂ := Core.Inv.ioCompletions h₁
  obtain ⟨h₃, hio₃, hran₃⟩ := h₂.preempt
  obtain ⟨h₄, hio₄, hran₄⟩ := h₃.dispatch hran₃
  rw [← hio₃, ← hio₄, ← hcore₂, ← hcore₃, ← hcore₄] at h₄
  rw [← hcore₂, ← hcore₃, ← hcore₄] at hran₄
  have hpid : ∀ j, (s.arrivals.ioCompletions.preempt.schedule.procs j).pid = (ps j).pid :=
    fun j => congrArg Prod.fst (h₄.program j)
  obtain ⟨hcore₅, htick₅⟩ := core_runTick hu hpids hpid
  have h₅ := h₄.runTick halternates hran₄
  rw [← hcore₅] at h₅
  have htick : u.tick = s.tick := by rw [htick₅, htick₄, htick₃, htick₂, htick₁]
  refine ⟨?_, congrArg (· + 1) htick⟩
  show (u.core ps).Inv _ (u.tick + 1) _ _
  rw [htick]
  exact h₅

/-- **Every run**, which ends before tick 1000 at the latest. -/
theorem AtTick.cpuInv (h : AtTick (Main.start ps) s)
    (hpids : Function.Injective (fun j => (ps j).pid))
    (halternates : ∀ i, (ps i).toProcess.Alternates) :
    CpuInv ps s.tick s (s.ioWaiting.map Prod.fst) ∧ s.tick ≤ 1000 := by
  induction h with
  | start =>
    exact ⟨Core.inv_start halternates 4 (by norm_num) (by norm_num), Nat.zero_le _⟩
  | next draw _ hcontinues hstep ih =>
    obtain ⟨hinv, htick⟩ := ih.1.step hpids halternates hstep
    refine ⟨hinv, ?_⟩
    have hlt := of_decide_eq_true (Bool.and_eq_true_iff.mp hcontinues).2
    omega

/-- The `cpu_run` events of a terminated process add up to its CPU time exactly if all its
CPU bursts take one tick. -/
theorem AtTick.tracedTicks_sum (h : AtTick (Main.start ps) s)
    (hpids : Function.Injective (fun j => (ps j).pid))
    (halternates : ∀ i, (ps i).toProcess.Alternates) (hdone : (s.procs i).state = .terminated) :
    (Event.tracedTicks s.memory.log (ps i).pid).sum = (ps i).totalCpuBurst ↔
      ∀ b ∈ (ps i).bursts, b.type = .cpu → b.ticks = 1 := by
  obtain ⟨hinv, htick⟩ := h.cpuInv hpids halternates
  exact Core.Inv.traced_of_terminated hinv (by omega) hdone

/-! ## The memory -/

/-- **The loop is a run of the memory**, in which the processes that have ended are the
terminated ones. -/
structure Linked (s : Main n) : Prop where
  pids : Function.Injective (fun j => (s.procs j).pid)
  pids_ne : ∀ j, (s.procs j).pid ≠ -1
  reaches : ∃ ops, demoMachine.Reaches {} ops s.memory
  ended : ∀ pid ∈ s.memory.dead, ∃ j, (s.procs j).pid = pid ∧ (s.procs j).state = .terminated

/-- The scheduling does not matter. -/
theorem Linked.of_eq {t : Main n} (h : s.Linked) (hprocs : t.procs = s.procs)
    (hmemory : t.memory = s.memory) : t.Linked := by
  refine ⟨?_, ?_, ?_, ?_⟩
  · rw [hprocs]
    exact h.pids
  · rw [hprocs]
    exact h.pids_ne
  · rw [hmemory]
    exact h.reaches
  · rw [hprocs, hmemory]
    exact h.ended

/-- A process that has not ended has its pages. -/
theorem Linked.live (h : s.Linked) (hi : (s.procs i).state ≠ .terminated) :
    s.memory.Live (s.procs i).pid := by
  refine ⟨h.pids_ne i, fun hdead => ?_⟩
  obtain ⟨j, hpid, hstate⟩ := h.ended _ hdead
  rw [h.pids hpid] at hstate
  exact hi hstate

/-- What holds in all runs of the memory holds here. -/
theorem Linked.memory_inv (h : s.Linked) : s.memory.Inv := by
  obtain ⟨ops, hops⟩ := h.reaches
  refine hops.invariant (fun u op t hu hpre hexec => ?_) Demo.inv_start
  obtain ⟨t', ht', hinv⟩ := hu.step hpre
  rw [hexec] at ht'
  rwa [Option.some.inj ht']

/-- A step of the memory that ends no process. -/
theorem Linked.perform (h : s.Linked) (op : Op) {memory : Demo} (hpre : demoMachine.pre s.memory op)
    (hexec : demoMachine.exec s.memory op = some memory) (hdead : memory.dead = s.memory.dead) :
    ({ s with memory := memory } : Main n).Linked := by
  obtain ⟨ops, hops⟩ := h.reaches
  exact ⟨h.pids, h.pids_ne, ⟨_, hops.append (.single hpre hexec)⟩,
    fun pid hpid => h.ended pid (hdead ▸ hpid)⟩

theorem Linked.log (h : s.Linked) {event : Event} (hevent : event.OfScheduler) :
    (s.log event).Linked :=
  h.perform (.schedule event) hevent rfl rfl

/-- A process that has not ended is stored back. -/
theorem Linked.setProc (h : s.Linked) (hi : (s.procs i).state ≠ .terminated) {p : ArenaProcess}
    (hpid : p.pid = (s.procs i).pid) : (s.setProc i p).Linked := by
  have hpids : ∀ j, ((s.setProc i p).procs j).pid = (s.procs j).pid := by
    intro j
    by_cases hj : j = i
    · subst hj
      simpa [Main.setProc] using hpid
    · simp [Main.setProc, hj]
  refine ⟨?_, fun j => hpids j ▸ h.pids_ne j, h.reaches, fun pid hdead => ?_⟩
  · simpa only [hpids] using h.pids
  · obtain ⟨j, hj, hstate⟩ := h.ended pid hdead
    have hne : j ≠ i := by
      rintro rfl
      exact hi hstate
    refine ⟨j, (hpids j).trans hj, ?_⟩
    simpa [Main.setProc, hne] using hstate

/-- Queueing a process keeps the memory in step. -/
theorem Linked.doEnqueue (h : s.Linked) (hi : (s.procs i).state ≠ .terminated) (preempted : Bool) :
    (s.doEnqueue i preempted).Linked := by
  have hready := h.setProc (p := { s.procs i with state := .ready }) hi rfl
  have hqueued : ({ s.setState i .ready with
      sched := RoundRobin.add (fun j => ((s.setState i .ready).procs j).toProcess) i s.sched } :
      Main n).Linked := hready.of_eq rfl rfl
  exact hqueued.log trivial

/-- The end of a process frees its pages. -/
theorem Linked.terminate (h : s.Linked) (hi : (s.procs i).state ≠ .terminated) :
    (s.terminate i).Linked := by
  have hpids : ∀ j, ((s.terminate i).procs j).pid = (s.procs j).pid := by
    intro j
    by_cases hj : j = i
    · subst hj
      simp [Main.terminate, setState, Main.setProc]
    · simp [Main.terminate, setState, Main.setProc, hj]
  have hpre : demoMachine.pre s.memory (.terminate (s.procs i).pid) := h.live hi
  obtain ⟨ops, hops⟩ := h.reaches
  refine ⟨?_, fun j => hpids j ▸ h.pids_ne j, ⟨_, hops.append (.single hpre rfl)⟩,
    fun pid hdead => ?_⟩
  · simpa only [hpids] using h.pids
  · rcases List.mem_cons.mp hdead with rfl | hdead
    · refine ⟨i, hpids i, ?_⟩
      simp [Main.terminate, setState, Main.setProc]
    · obtain ⟨j, hj, hstate⟩ := h.ended pid hdead
      have hne : j ≠ i := by
        rintro rfl
        exact hi hstate
      refine ⟨j, (hpids j).trans hj, ?_⟩
      simpa [Main.terminate, setState, Main.setProc, hne] using hstate

/-- The next burst, for a process that has not ended. -/
theorem Linked.advance (h : s.Linked) (hi : (s.procs i).state ≠ .terminated) :
    (s.advance i).2.Linked ∧ ((s.advance i).2.procs i).state ≠ .terminated := by
  have hsame : (s.procs i).toProcess.advanceBurst.2.pid = (s.procs i).pid ∧
      (s.procs i).toProcess.advanceBurst.2.state = (s.procs i).state := by
    rcases (s.procs i).toProcess.advanceBurst_cases with ⟨-, heq⟩ | ⟨nb, -, heq⟩
    · rw [heq]
      exact ⟨rfl, rfl⟩
    · rw [heq]
      exact ⟨rfl, rfl⟩
  refine ⟨h.setProc hi hsame.1, ?_⟩
  have hself : ((s.advance i).2.procs i).state = (s.procs i).toProcess.advanceBurst.2.state := by
    simp [Main.advance, Main.setProc]
  rw [hself, hsame.2]
  exact hi

theorem Linked.arrivals (h : s.Linked) : s.arrivals.Linked := by
  unfold Main.arrivals
  generalize List.finRange n = l
  induction l generalizing s with
  | nil => exact h
  | cons i l ih =>
    apply ih
    unfold Main.arrive
    split_ifs with harrives
    · have hnew : (s.procs i).state ≠ .terminated := by simp [harrives.1]
      simp only [procSegments, List.foldl_cons, List.foldl_nil]
      have hcreated : (s.log (.processCreated (s.procs i).pid (s.procs i).name
          (s.procs i).memBytes 10)).Linked := h.log trivial
      have hsegment : ∀ {u : Main n} {segment : Segment} {baseVpn numPages : ℕ}, u.Linked →
          (u.log (.segmentCreated (s.procs i).pid segment baseVpn numPages)).Linked :=
        fun hu => hu.log trivial
      exact (hsegment (hsegment (hsegment (hsegment hcreated)))).doEnqueue hnew false
    · exact h

/-- A process that comes back from I/O keeps its pages, or ends. -/
theorem Linked.completeIo (h : s.Linked) (hi : (s.procs i).state ≠ .terminated) :
    (s.completeIo i).Linked := by
  have hacked : (s.log (.ioAck (s.procs i).pid)).Linked := h.log trivial
  obtain ⟨hadvanced, hstate⟩ := hacked.advance (i := i) hi
  unfold Main.completeIo
  dsimp only
  generalize (s.log (.ioAck (s.procs i).pid)).advance i = r at hadvanced hstate
  obtain ⟨more, u⟩ := r
  cases more
  · exact hadvanced.terminate hstate
  · exact hadvanced.doEnqueue hstate false

/-- The loop over the waiting list: the processes in it are blocked. -/
theorem Linked.ioLoop {rest : List (Fin n × ℕ)} {kept : List (Fin n)} (h : s.Linked)
    (hinv : CpuInv ps k s (rest.map Prod.fst ++ kept)) : (Main.ioLoop rest s).2.Linked := by
  induction rest generalizing s kept with
  | nil => exact h
  | cons x rest ih =>
    obtain ⟨i, ticks⟩ := x
    rw [Main.ioLoop]
    split_ifs
    · have hwait : (s.core ps).states i = .waiting := hinv.io.state i (List.mem_cons_self ..)
      have hi : (s.procs i).state ≠ .terminated := by
        rw [show (s.procs i).state = .waiting from hwait]
        simp
      have hrest : CpuInv ps k (s.completeIo i) (rest.map Prod.fst ++ kept) := by
        rw [CpuInv, (core_completeIo ps s i).1]
        exact Core.Inv.completeIo hinv
      exact ih (h.completeIo hi) hrest
    · have hrest : CpuInv ps k s (rest.map Prod.fst ++ i :: kept) :=
        Core.Inv.perm hinv List.perm_middle.symm (.refl [])
      exact ih h hrest

theorem Linked.ioCompletions (h : s.Linked) (hinv : CpuInv ps k s (s.ioWaiting.map Prod.fst)) :
    s.ioCompletions.Linked := by
  rw [← List.append_nil (s.ioWaiting.map Prod.fst)] at hinv
  exact (h.ioLoop hinv).of_eq rfl rfl

theorem CpuInv.running_state (hinv : CpuInv ps k s W) (hrun : s.running = some i) :
    (s.procs i).state ≠ .terminated := by
  have hready : (s.core ps).states i = .ready := Core.Inv.running_state hinv hrun
  rw [show (s.procs i).state = .ready from hready]
  simp

theorem Linked.preempt (h : s.Linked) (hinv : CpuInv ps k s W) : s.preempt.Linked := by
  unfold Main.preempt
  cases hrun : s.running with
  | none => exact h
  | some i =>
    dsimp only
    split_ifs
    · exact (h.doEnqueue (hinv.running_state hrun) true).of_eq rfl rfl
    · exact h

theorem Linked.schedule (h : s.Linked) : s.schedule.Linked := by
  unfold Main.schedule
  cases s.running with
  | some i => exact h
  | none =>
    rcases RoundRobin.pickNext_cases s.processes s.sched with ⟨-, hpick⟩ | ⟨i, q, -, hpick⟩
    · rw [hpick]
      exact h.of_eq rfl rfl
    · have hpicked : ({ s with
          sched := { s.sched with q := q }, running := some i, ranTicks := 0 } : Main n).Linked :=
        h.of_eq rfl rfl
      rw [hpick]
      exact hpicked.log trivial

/-- A process whose burst is over keeps its pages, or ends. -/
theorem Linked.endBurst (h : s.Linked) (hi : (s.procs i).state ≠ .terminated) :
    (s.endBurst i).Linked := by
  obtain ⟨hadvanced, hstate⟩ := h.advance hi
  unfold Main.endBurst
  generalize s.advance i = r at hadvanced hstate
  obtain ⟨more, u⟩ := r
  cases more
  · exact (hadvanced.terminate hstate).of_eq rfl rfl
  · dsimp only
    cases (u.procs i).toProcess.currentBurst with
    | none => exact hadvanced
    | some nb =>
      dsimp only
      split_ifs
      · have hlogged : (u.log (.ioRequested (u.procs i).pid nb.ticks)).Linked :=
          hadvanced.log trivial
        exact (hlogged.setProc (i := i) (p := { u.procs i with state := .waiting })
          hstate rfl).of_eq rfl rfl
      · exact hadvanced

/-- A tick on the CPU keeps the memory in step. -/
theorem Linked.execute (h : s.Linked) (hi : (s.procs i).state ≠ .terminated) :
    (s.execute i).Linked := by
  have hlogged : (s.log (.cpuRun (s.procs i).pid
      (min (s.procs i).burstRemaining (sub32 s.sched.quantum s.ranTicks))
      (dec32 (s.procs i).burstRemaining))).Linked := h.log trivial
  have hticked := hlogged.setProc (i := i)
    (p := { s.procs i with burstRemaining := dec32 (s.procs i).burstRemaining }) hi rfl
  unfold Main.execute
  dsimp only
  split_ifs
  · refine Linked.endBurst (hticked.of_eq rfl rfl) ?_
    simpa [Main.setProc, Main.log] using hi
  · exact hticked.of_eq rfl rfl

/-- The memory never gets stuck. -/
theorem Linked.runTick (h : s.Linked) (hinv : CpuInv ps k s W) (draw : ℕ × ℕ) :
    ∃ t, s.runTick draw = some t ∧ t.Linked := by
  unfold Main.runTick
  cases hrun : s.running with
  | none => exact ⟨s, rfl, h⟩
  | some i =>
    have hi := hinv.running_state hrun
    have hlive : s.memory.Live (target (s.procs i).pid s.tick draw).pid := h.live hi
    obtain ⟨events, vm, hevents, -⟩ := h.memory_inv.coherent.access hlive.1 hlive.2
    have haccess : s.access i draw = some { s with memory := { s.memory with
        vm := vm, log := s.memory.log ++ events } } := by
      rw [Main.access, hevents]
      rfl
    refine ⟨_, by dsimp only; rw [haccess]; rfl, ?_⟩
    refine Linked.execute ?_ hi
    refine h.perform (.access (target (s.procs i).pid s.tick draw)) hlive ?_ rfl
    show (s.memory.vm.access _).map _ = _
    rw [hevents]
    rfl

/-- **The loop stays within the guards of the memory**, and none of its ticks gets stuck. -/
theorem AtTick.linked (h : AtTick (Main.start ps) s)
    (hpids : Function.Injective (fun j => (ps j).pid)) (hne : ∀ j, (ps j).pid ≠ -1)
    (halternates : ∀ i, (ps i).toProcess.Alternates) :
    s.Linked ∧ ∀ draw, ∃ t, s.step draw = some t ∧ t.Linked := by
  have hstep : ∀ u : Main n, AtTick (Main.start ps) u → u.Linked →
      ∀ draw, ∃ t, u.step draw = some t ∧ t.Linked := by
    intro u hu hlinked draw
    obtain ⟨hinv, -⟩ := hu.cpuInv hpids halternates
    obtain ⟨h₁, -, hio₁⟩ := hinv.arrivals
    rw [← hio₁] at h₁
    have h₂ : CpuInv ps u.tick u.arrivals.ioCompletions
        (u.arrivals.ioCompletions.ioWaiting.map Prod.fst) := by
      have hcore := Core.Inv.ioCompletions h₁
      rw [← (core_ioCompletions ps u.arrivals).1] at hcore
      exact hcore
    have h₄ : CpuInv ps u.tick u.arrivals.ioCompletions.preempt.schedule
        (u.arrivals.ioCompletions.ioWaiting.map Prod.fst) := by
      obtain ⟨h₃, -, hran⟩ := Core.Inv.preempt h₂
      have hcore := (h₃.dispatch hran).1
      rw [← (core_preempt ps u.arrivals.ioCompletions).1, ← (core_schedule ps _).1] at hcore
      exact hcore
    obtain ⟨t, ht, hlinked'⟩ := (((hlinked.arrivals.ioCompletions h₁).preempt h₂).schedule).runTick
      h₄ draw
    refine ⟨{ t with tick := t.tick + 1 }, ?_, hlinked'.of_eq rfl rfl⟩
    rw [Main.step, ht]
    rfl
  have hlinked : s.Linked := by
    induction h with
    | start => exact ⟨hpids, hne, ⟨[], trivial, rfl⟩, fun _ hdead =>
        absurd hdead List.not_mem_nil⟩
    | next draw hat _ hnext ih =>
      obtain ⟨t, ht, hlinked⟩ := hstep _ hat ih draw
      rw [hnext] at ht
      rwa [Option.some.inj ht]
  exact ⟨hlinked, hstep s h hlinked⟩

/-- Page table, frames and TLB agree at the end of every tick. -/
theorem AtTick.consistent (h : AtTick (Main.start ps) s)
    (hpids : Function.Injective (fun j => (ps j).pid)) (hne : ∀ j, (ps j).pid ≠ -1)
    (halternates : ∀ i, (ps i).toProcess.Alternates) : s.memory.Consistent :=
  (h.linked hpids hne halternates).1.memory_inv.consistent

end Main

end Visualizer
