/-
# `Process.hpp` and `Scheduler.hpp`

The round-robin scheduler with memory-constrained admission, over the buddy allocator.
A tick has three phases: `AdmitPendingProcesses` moves arrived processes from `NEW` to
`READY` if the allocator grants their memory, `ServiceIoQueue` counts down the blocked
ones, and `RunOneCpuSlice` runs the head of the ready queue for at most one quantum.

The C++ `int`s are integers: none of the counters below can leave the range of an `int`
that holds its initial value.  The allocator comes with the record of its live blocks
(`BuddySession`).  A slice that ends a process calls `Free`, whose list search might not
return, so that slices, ticks and runs are optional values.
-/
import MemoryAllocator.BuddySession

namespace OS

open Memory

/-! ## Processes -/

/-- The five states of a process. -/
inductive ProcessState where
  | new
  | ready
  | running
  | waiting
  | terminated
  deriving DecidableEq, Repr, Inhabited

/-- A CPU burst, followed by I/O if `ioTicks` is positive. -/
structure Burst where
  cpuTicks : ℤ
  ioTicks : ℤ
  deriving DecidableEq, Repr, Inhabited

/-- The process control block. -/
structure Process where
  id : ℤ
  name : String
  arrivalTick : ℤ
  memoryRequest : ℕ
  bursts : List Burst
  currentBurst : ℕ := 0
  remainingCpuTicks : ℤ := 0
  remainingIoTicks : ℤ := 0
  state : ProcessState := .new
  memPtr : ℕ := 0
  memOffset : ℕ := 0
  memBlockSize : ℕ := 0
  deriving DecidableEq, Repr, Inhabited

def Process.hasMoreBursts (p : Process) : Bool := p.currentBurst < p.bursts.length

/-! ## The event log -/

/-- The value of a field of an event: `EventLogger::Num` or `EventLogger::Str`. -/
inductive FieldValue where
  | num (n : ℤ)
  | str (s : String)
  deriving DecidableEq, Repr

/-- One call of `EventLogger::Log`. -/
structure Event where
  tick : ℤ
  type : String
  pid : ℤ
  fields : List (String × FieldValue) := []
  deriving DecidableEq, Repr

/-! ## The scheduler -/

structure Scheduler where
  allocator : BuddySession
  log : List Event := []
  quantum : ℤ
  tick : ℤ := 0
  allProcesses : List Process := []
  readyQueue : List ℕ := []
  waitingList : List ℕ := []

namespace Scheduler

variable (s : Scheduler)

def addProcess (p : Process) : Scheduler :=
  { s with allProcesses := s.allProcesses ++ [p] }

/-- `allProcesses_[i]`. -/
def proc (i : ℕ) : Process := s.allProcesses.getD i default

/-- Store back a process. -/
def setProc (i : ℕ) (p : Process) : Scheduler :=
  { s with allProcesses := s.allProcesses.set i p }

def allTerminated : Bool :=
  s.allProcesses.all (fun p => p.state = .terminated)

/-- One round of the loop of `AdmitPendingProcesses`. -/
def admitOne (i : ℕ) : Scheduler :=
  let p := s.proc i
  if p.state ≠ .new ∨ p.arrivalTick > s.tick then s
  else
    let r := s.allocator.allocate p.memoryRequest
    let ptr := r.1
    if ptr = 0 then { s with allocator := r.2 }
    else
      let p' : Process := { p with
        memPtr := ptr
        memOffset := r.2.alloc.offsetOf ptr
        memBlockSize := r.2.alloc.blockSizeForRequest p.memoryRequest
        state := .ready }
      { s with
        allocator := r.2
        allProcesses := s.allProcesses.set i p'
        readyQueue := s.readyQueue ++ [i]
        log := s.log ++
          [⟨s.tick, "process_created", p.id,
              [("name", .str p.name), ("memoryRequest", .num p.memoryRequest)]⟩,
            ⟨s.tick, "memory_allocated", p.id,
              [("offset", .num p'.memOffset), ("size", .num p'.memBlockSize)]⟩,
            ⟨s.tick, "process_ready", p.id, []⟩] }

def admitPendingProcesses : Scheduler :=
  (List.range s.allProcesses.length).foldl admitOne s

/-- The loop of `ServiceIoQueue` over the rest of the waiting list: the indices that stay
in the list, and the scheduler. -/
def serviceLoop : List ℕ → Scheduler → List ℕ × Scheduler
  | [], s => ([], s)
  | i :: rest, s =>
    let p := s.proc i
    let p : Process := { p with remainingIoTicks := p.remainingIoTicks - 1 }
    if p.remainingIoTicks ≤ 0 then
      serviceLoop rest
        { s with
          allProcesses := s.allProcesses.set i { p with state := .ready }
          readyQueue := s.readyQueue ++ [i]
          log := s.log ++ [⟨s.tick, "io_ack", p.id, []⟩, ⟨s.tick, "process_ready", p.id, []⟩] }
    else
      let r := serviceLoop rest (s.setProc i p)
      (i :: r.1, r.2)

def serviceIoQueue : Scheduler :=
  let r := serviceLoop s.waitingList s
  { r.2 with waitingList := r.1 }

/-- `RunOneCpuSlice`, with its four ways out: preempted, blocked, on to the next burst,
terminated. -/
def runOneCpuSlice : Option Scheduler :=
  match s.readyQueue with
  | [] => some s
  | idx :: queue =>
    let p : Process := { s.proc idx with state := .running }
    let scheduled : Event :=
      ⟨s.tick, "process_scheduled", p.id, [("burstIndex", .num p.currentBurst)]⟩
    let burst := p.bursts.getD p.currentBurst default
    let p : Process :=
      if p.remainingCpuTicks ≤ 0 then { p with remainingCpuTicks := burst.cpuTicks } else p
    let ran := min s.quantum p.remainingCpuTicks
    let p : Process := { p with remainingCpuTicks := p.remainingCpuTicks - ran }
    let cpuRun : Event :=
      ⟨s.tick, "cpu_run", p.id, [("ticks", .num ran), ("remaining", .num p.remainingCpuTicks)]⟩
    if p.remainingCpuTicks > 0 then
      some { s with
        allProcesses := s.allProcesses.set idx { p with state := .ready }
        readyQueue := queue ++ [idx]
        log := s.log ++ [scheduled, cpuRun,
          ⟨s.tick, "process_ready", p.id, [("reason", .str "preempted")]⟩] }
    else if burst.ioTicks > 0 then
      some { s with
        allProcesses := s.allProcesses.set idx { p with
          state := .waiting
          remainingIoTicks := burst.ioTicks
          currentBurst := p.currentBurst + 1 }
        readyQueue := queue
        waitingList := s.waitingList ++ [idx]
        log := s.log ++ [scheduled, cpuRun,
          ⟨s.tick, "io_requested", p.id, [("ioTicks", .num burst.ioTicks)]⟩] }
    else
      let p : Process := { p with currentBurst := p.currentBurst + 1 }
      if p.hasMoreBursts then
        some { s with
          allProcesses := s.allProcesses.set idx { p with state := .ready }
          readyQueue := queue ++ [idx]
          log := s.log ++ [scheduled, cpuRun, ⟨s.tick, "process_ready", p.id, []⟩] }
      else
        (s.allocator.free p.memPtr p.memBlockSize).map (fun allocator =>
          { s with
            allocator := allocator
            allProcesses := s.allProcesses.set idx { p with state := .terminated }
            readyQueue := queue
            log := s.log ++ [scheduled, cpuRun,
              ⟨s.tick, "memory_freed", p.id,
                [("offset", .num p.memOffset), ("size", .num p.memBlockSize)]⟩,
              ⟨s.tick, "process_terminated", p.id, []⟩] })

/-! ## Runs -/

/-- The three phases of a tick. -/
def tickOnce : Option Scheduler :=
  s.admitPendingProcesses.serviceIoQueue.runOneCpuSlice

/-- The loop of `Run`, for at most the given number of further ticks. -/
def runLoop : ℕ → Scheduler → Option Scheduler
  | 0, s => some s
  | n + 1, s =>
    match s.tickOnce with
    | none => none
    | some t => if t.allTerminated then some t else runLoop n { t with tick := t.tick + 1 }

def run (maxTicks : ℤ) : Option Scheduler :=
  runLoop maxTicks.toNat { s with tick := 0 }

/-- The states at the end of the ticks of the loop of `Run`. -/
def ticksOfLoop : ℕ → Scheduler → List Scheduler
  | 0, _ => []
  | n + 1, s =>
    match s.tickOnce with
    | none => []
    | some t => t :: if t.allTerminated then [] else ticksOfLoop n { t with tick := t.tick + 1 }

/-- The states at the end of the ticks of `Run`. -/
def ticksOfRun (maxTicks : ℤ) : List Scheduler :=
  ticksOfLoop maxTicks.toNat { s with tick := 0 }

end Scheduler

/-- A scheduler over an allocator, with the given processes added in order. -/
def Scheduler.create (allocator : BuddySession) (quantum : ℤ) (ps : List Process) : Scheduler :=
  ps.foldl Scheduler.addProcess { allocator := allocator, quantum := quantum }

/-! ## Access to the processes -/

namespace Scheduler

variable {s : Scheduler} {i j : ℕ} {p : Process}

theorem allProcesses_create (allocator : BuddySession) (quantum : ℤ) (ps : List Process) :
    Scheduler.create allocator quantum ps
      = { allocator := allocator, quantum := quantum, allProcesses := ps } := by
  have hfold : ∀ (qs : List Process) (s : Scheduler), qs.foldl Scheduler.addProcess s
      = { s with allProcesses := s.allProcesses ++ qs } := by
    intro qs
    induction qs with
    | nil => simp
    | cons q qs ih =>
      intro s
      rw [List.foldl_cons, ih]
      simp [addProcess]
  rw [Scheduler.create, hfold]
  simp

theorem proc_mem (hi : i < s.allProcesses.length) : s.proc i ∈ s.allProcesses := by
  rw [proc, List.getD_eq_getElem _ _ hi]
  exact List.getElem_mem hi

theorem exists_proc_of_mem (hp : p ∈ s.allProcesses) :
    ∃ i < s.allProcesses.length, s.proc i = p := by
  obtain ⟨i, hi, rfl⟩ := List.mem_iff_getElem.mp hp
  exact ⟨i, hi, by rw [proc, List.getD_eq_getElem _ _ hi]⟩

/-- A process that was stored back is the one that is read. -/
theorem getD_set_self (l : List Process) (hi : i < l.length) :
    (l.set i p).getD i default = p := by
  rw [List.getD_eq_getElem _ _ (by simpa using hi)]
  exact List.getElem_set_self _

/-- The other processes are as they were. -/
theorem getD_set_ne (l : List Process) (hij : j ≠ i) :
    (l.set i p).getD j default = l.getD j default := by
  rw [List.getD_eq_getElem?_getD, List.getD_eq_getElem?_getD, List.getElem?_set_ne hij.symm]

theorem proc_of_set {t : Scheduler} (hprocs : t.allProcesses = s.allProcesses.set i p)
    (hi : i < s.allProcesses.length) : t.proc i = p := by
  rw [proc, hprocs, getD_set_self _ hi]

theorem proc_of_set_ne {t : Scheduler} (hprocs : t.allProcesses = s.allProcesses.set i p)
    (hij : j ≠ i) : t.proc j = s.proc j := by
  rw [proc, hprocs, getD_set_ne _ hij, proc]

end Scheduler

end OS
