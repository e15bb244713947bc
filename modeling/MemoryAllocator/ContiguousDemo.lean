/-
# `contiguous_demo.cpp` and `contiguous.html`

The demo of the first-fit allocator: a process is admitted once it gets its memory and
gives it back when it ends, and every change is logged.  The page replays the log.  It
keeps a map from the offsets of the blocks to their owners, and counts the gaps between
them.

The maps of the page are insertion-ordered (`JsMap`).
-/
import MemoryAllocator.FirstFit
import MemoryAllocator.SimPolicies

namespace Memlab

/-! ## The demo -/

/-- The events of the demo. -/
inductive ArenaEvent where
  | processCreated (pid : ℤ) (name : String) (memoryRequest : ℕ)
  | memoryAllocated (pid : ℤ) (offset size : ℕ)
  | memoryFreed (pid : ℤ) (offset size : ℕ)
  | processReady (pid : ℤ) (preempted : Bool)
  | processScheduled (pid : ℤ) (burstIndex : ℕ)
  | cpuRun (pid : ℤ) (ticks remaining : ℕ)
  | ioRequested (pid : ℤ) (ioTicks : ℕ)
  | ioAck (pid : ℤ)
  | processTerminated (pid : ℤ)
  deriving DecidableEq, Repr

/-- A process with the fields that only the demos use. -/
structure ArenaProcess extends Process where
  name : String := ""
  memBytes : ℕ
  deriving DecidableEq, Repr

/-- The variables of `main`. -/
structure Arena (n : ℕ) where
  alloc : FirstFitAllocator
  sched : RoundRobin n := { quantum := 4 }
  procs : Fin n → ArenaProcess
  tick : ℕ := 0
  running : Option (Fin n) := none
  ran : ℕ := 0
  ioWait : List (Fin n × ℕ) := []
  memWait : List (Fin n) := []
  allocs : ℤ → ℕ := fun _ => 0
  trace : List ArenaEvent := []

namespace Arena

variable {n : ℕ}

/-- The number of bytes of the arena. -/
def total : ℕ := 8192

/-- The start of the loop. -/
def start (procs : Fin n → ArenaProcess) : Arena n :=
  { alloc := .create total
    procs := fun i =>
      { procs i with
        state := .new
        curBurst := 0
        burstRemaining :=
          match (procs i).bursts with
          | [] => 0
          | b :: _ => b.ticks } }

variable (s : Arena n)

def log (event : ArenaEvent) : Arena n := { s with trace := s.trace ++ [event] }

/-- Store back a process. -/
def setProc (i : Fin n) (p : ArenaProcess) : Arena n :=
  { s with procs := Function.update s.procs i p }

def setState (i : Fin n) (state : State) : Arena n :=
  s.setProc i { s.procs i with state := state }

def enqueue (i : Fin n) (preempted : Bool) : Arena n :=
  let s := s.setState i .ready
  let s := { s with sched := RoundRobin.add (fun j => (s.procs j).toProcess) i s.sched }
  s.log (.processReady (s.procs i).pid preempted)

def tryAdmit (i : Fin n) : Bool × Arena n :=
  let r := s.alloc.allocate (s.procs i).memBytes
  let s := { s with alloc := r.2 }
  if r.1 = 0 then (false, s)
  else
    let s := { s with allocs := Function.update s.allocs (s.procs i).pid r.1 }
    let s := s.log (.memoryAllocated (s.procs i).pid (r.1 - 1) (s.procs i).memBytes)
    (true, s.enqueue i false)

/-- One round of the loop over the arrivals. -/
def arrive (i : Fin n) : Arena n :=
  if (s.procs i).state = .new ∧ (s.procs i).arrival = s.tick then
    let s := s.log (.processCreated (s.procs i).pid (s.procs i).name (s.procs i).memBytes)
    match s.tryAdmit i with
    | (true, s) => s
    | (false, s) => { s with memWait := s.memWait ++ [i] }
  else s

def arrivals : Arena n := (List.finRange n).foldl arrive s

/-- The end of a process, in both places. -/
def release (i : Fin n) : Arena n :=
  let ptr := s.allocs (s.procs i).pid
  let s := { s with alloc := s.alloc.free ptr }
  let s := s.log (.memoryFreed (s.procs i).pid (ptr - 1) (s.procs i).memBytes)
  let s := s.log (.processTerminated (s.procs i).pid)
  s.setState i .terminated

/-- Go to the next burst of a process, and say whether there is one. -/
def advance (i : Fin n) : Bool × Arena n :=
  let r := (s.procs i).toProcess.advanceBurst
  (r.1, s.setProc i { s.procs i with toProcess := r.2 })

/-- The I/O burst of a process is over. -/
def completeIo (i : Fin n) : Arena n :=
  let s := s.log (.ioAck (s.procs i).pid)
  match s.advance i with
  | (true, s) => s.enqueue i false
  | (false, s) => s.release i

/-- The loop over the rest of the waiting list: the entries that stay, and the state. -/
def ioLoop : List (Fin n × ℕ) → Arena n → List (Fin n × ℕ) × Arena n
  | [], s => ([], s)
  | (i, ticks) :: rest, s =>
    if dec32 ticks = 0 then ioLoop rest (s.completeIo i)
    else
      let r := ioLoop rest s
      ((i, dec32 ticks) :: r.1, r.2)

def ioCompletions : Arena n :=
  let r := ioLoop s.ioWait s
  { r.2 with ioWait := r.1 }

/-- The loop over the rest of the processes that wait for memory. -/
def memLoop : List (Fin n) → Arena n → List (Fin n) × Arena n
  | [], s => ([], s)
  | i :: rest, s =>
    match s.tryAdmit i with
    | (true, s) => memLoop rest s
    | (false, s) =>
      let r := memLoop rest s
      (i :: r.1, r.2)

def admissions : Arena n :=
  let r := memLoop s.memWait s
  { r.2 with memWait := r.1 }

/-- The processes, as the policy sees them. -/
def processes (i : Fin n) : Process := (s.procs i).toProcess

def preempt : Arena n :=
  match s.running with
  | none => s
  | some i =>
    if RoundRobin.scheduler.shouldPreempt s.processes s.sched i s.ran then
      { s.enqueue i true with running := none, ran := 0 }
    else s

def dispatch : Arena n :=
  match s.running with
  | some _ => s
  | none =>
    match RoundRobin.scheduler.pickNext s.processes s.sched with
    | (none, sched) => { s with sched := sched }
    | (some i, sched) =>
      { s with sched := sched, running := some i, ran := 0 }.log
        (.processScheduled (s.procs i).pid (s.procs i).curBurst)

/-- The burst of the running process is over. -/
def endBurst (i : Fin n) : Arena n :=
  match s.advance i with
  | (true, s) =>
    match (s.procs i).toProcess.currentBurst with
    | none => s
    | some nb =>
      if nb.type = .io then
        let s := s.log (.ioRequested (s.procs i).pid nb.ticks)
        let s := s.setState i .waiting
        { s with ioWait := s.ioWait ++ [(i, nb.ticks)], running := none, ran := 0 }
      else s
  | (false, s) => { s.release i with running := none, ran := 0 }

def runTick : Arena n :=
  match s.running with
  | none => s
  | some i =>
    let p := s.procs i
    let runFor := min p.burstRemaining (sub32 s.sched.quantum s.ran)
    let s := s.log (.cpuRun p.pid runFor (dec32 p.burstRemaining))
    let s := s.setProc i { p with burstRemaining := dec32 p.burstRemaining }
    let s := { s with ran := s.ran + 1 }
    if (s.procs i).burstRemaining = 0 then s.endBurst i else s

/-- One iteration of the loop, a simulated tick. -/
def step : Arena n :=
  let s := s.arrivals.ioCompletions.admissions.preempt.dispatch.runTick
  { s with tick := s.tick + 1 }

/-- The condition of the loop. -/
def continues : Bool :=
  !decide (∀ i, (s.procs i).state = .terminated) && decide (s.tick < 1000)

/-- The states at the end of the simulated ticks, and the start. -/
inductive AtTick (s₀ : Arena n) : Arena n → Prop
  | start : AtTick s₀ s₀
  | next {s : Arena n} : AtTick s₀ s → s.continues = true → AtTick s₀ s.step

theorem AtTick.trans {s t u : Arena n} (hs : AtTick s t) (ht : AtTick t u) : AtTick s u := by
  induction ht with
  | start => exact hs
  | next _ hcontinues ih => exact ih.next hcontinues

end Arena

/-! ## The page -/

/-- A `Map` of the page: its entries, in the order of insertion. -/
abbrev JsMap (κ α : Type) := List (κ × α)

namespace JsMap

variable {κ α : Type} [DecidableEq κ]

def get (m : JsMap κ α) (k : κ) : Option α := (m.find? (fun x => x.1 = k)).map Prod.snd

/-- A key that is there keeps its place. -/
def set (m : JsMap κ α) (k : κ) (v : α) : JsMap κ α :=
  if m.any (fun x => x.1 = k) then m.map (fun x => if x.1 = k then (k, v) else x) else m ++ [(k, v)]

def delete (m : JsMap κ α) (k : κ) : JsMap κ α := m.eraseP (fun x => x.1 = k)

end JsMap

/-- The states that the page has for processes. -/
inductive ArenaLane where
  | new
  | ready
  | running
  | waiting
  | terminated
  deriving DecidableEq, Repr

structure ArenaPageProcess where
  name : String
  state : ArenaLane := .new
  offset : Option ℕ := none
  size : Option ℕ := none
  deriving DecidableEq, Repr

/-- A block that the page knows to be occupied. -/
structure OccupiedBlock where
  pid : ℤ
  size : ℕ
  deriving DecidableEq, Repr

/-- The variables of the page, as `reset` leaves them. -/
structure ArenaPage where
  processes : JsMap ℤ ArenaPageProcess := []
  occupied : JsMap ℕ OccupiedBlock := []
  statAlloc : ℕ := 0
  statFree : ℕ := 0
  statBytes : ℕ := 0
  deriving DecidableEq, Repr

namespace ArenaPage

variable (p : ArenaPage)

/-- Change a process, if the page knows it. -/
def updateProcess (pid : ℤ) (f : ArenaPageProcess → ArenaPageProcess) : ArenaPage :=
  match p.processes.get pid with
  | none => p
  | some q => { p with processes := p.processes.set pid (f q) }

def setState (pid : ℤ) (state : ArenaLane) : ArenaPage :=
  p.updateProcess pid ({ · with state := state })

/-- Forget the first block of a process. -/
def freeBlock (pid : ℤ) : ArenaPage :=
  match p.occupied.find? (fun x => x.2.pid = pid) with
  | none => p
  | some x => { p with occupied := p.occupied.delete x.1 }

/-- Take the size of a process off the statistics. -/
def freeBytes (pid : ℤ) : ArenaPage :=
  match p.processes.get pid with
  | none => p
  | some q =>
    { p with
      statBytes := p.statBytes - q.size.getD 0
      processes := p.processes.set pid { q with offset := none, size := none } }

/-- The switch of `applyEvent`.  Types without a case change nothing. -/
def applyEvent : ArenaEvent → ArenaPage
  | .processCreated pid name _ =>
    { p with processes := p.processes.set pid { name := name } }
  | .memoryAllocated pid offset size =>
    let p := p.updateProcess pid ({ · with offset := some offset, size := some size })
    { p with
      occupied := p.occupied.set offset ⟨pid, size⟩
      statAlloc := p.statAlloc + 1
      statBytes := p.statBytes + size }
  | .memoryFreed pid _ _ =>
    let p := (p.freeBlock pid).freeBytes pid
    { p with statFree := p.statFree + 1 }
  | .processReady pid _ => p.setState pid .ready
  | .processScheduled pid _ => p.setState pid .running
  | .cpuRun pid _ _ => p.setState pid .running
  | .ioRequested pid _ => p.setState pid .waiting
  | .processTerminated pid => p.setState pid .terminated
  | .ioAck _ => p

/-- The loop of `countFreeFragments` over the sorted blocks, at a position. -/
def countLoop (cursor : ℕ) : List (ℕ × OccupiedBlock) → ℕ
  | [] => if cursor < Arena.total then 1 else 0
  | (off, blk) :: rest => (if off > cursor then 1 else 0) + countLoop (off + blk.size) rest

def countFreeFragments : ℕ :=
  countLoop 0 (p.occupied.mergeSort (fun x y => decide (x.1 ≤ y.1)))

end ArenaPage

/-- The page after the events of a trace. -/
def replayArena (trace : List ArenaEvent) : ArenaPage := trace.foldl ArenaPage.applyEvent {}

end Memlab
