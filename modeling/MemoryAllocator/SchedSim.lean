/-
# `sched_sim_main.cpp`: the simulation engine

One iteration of the loop of `simulate` has six parts: processes arrive, I/O completes,
the running process may be preempted, another one is dispatched, the running process runs
for a tick, and the clock goes on.  A dispatch also costs ticks, by which the clock
advances at once.

The loop ends when all processes have terminated or the clock has reached 50000.  The
clock is a `uint32_t` that a context switch may wrap around, so that this is not obvious:
`loop` is given a number of iterations.
-/
import MemoryAllocator.SimPolicies

namespace Memlab

/-- The part of the context-switch model that `simulate` reads, a `uint32_t`. -/
structure CsModel where
  costTicks : ℕ := 0
  costTicks_lt : costTicks < 2 ^ 32 := by decide

/-- What a run of the simulator reports. -/
structure SimResult where
  cpuUtil : ℚ := 0
  avgTurnaround : ℚ := 0
  avgWaiting : ℚ := 0
  avgResponse : ℚ := 0
  totalCtxSwitches : ℕ := 0
  totalOverheadTicks : ℕ := 0
  totalTicks : ℕ := 0

/-- The variables of `simulate`. -/
structure Sim (n : ℕ) (σ : Type) where
  sched : σ
  procs : Fin n → Process
  tick : ℕ := 0
  usefulTicks : ℕ := 0
  csOverhead : ℕ := 0
  totalCs : ℕ := 0
  running : Option (Fin n) := none
  ranTicks : ℕ := 0
  waiting : List (Fin n × ℕ) := []

/-- The state of a process when `simulate` starts. -/
def Process.reset (p : Process) : Process :=
  { p with
    state := .new
    curBurst := 0
    burstRemaining :=
      match p.bursts with
      | [] => 0
      | b :: _ => b.ticks
    firstRun := 2 ^ 32 - 1
    finish := 0
    ctxSwitches := 0 }

namespace Sim

variable {n : ℕ} {σ : Type}

/-- The vector of processes, reset, and an empty CPU. -/
def start (sched : σ) (procs : Fin n → Process) : Sim n σ :=
  { sched := sched, procs := fun i => (procs i).reset }

variable (S : IScheduler n σ) (cs : CsModel) (s : Sim n σ)

/-- Store back a process. -/
def setProc (i : Fin n) (p : Process) : Sim n σ :=
  { s with procs := Function.update s.procs i p }

/-- A process gets ready. -/
def enqueue (i : Fin n) : Sim n σ :=
  let s := s.setProc i { s.procs i with state := .ready }
  { s with sched := S.add s.procs i s.sched }

/-! ## One iteration -/

/-- One round of the loop over the arrivals. -/
def arrive (i : Fin n) : Sim n σ :=
  if (s.procs i).state = .new ∧ (s.procs i).arrival = s.tick then s.enqueue S i else s

/-- The loop over the processes that may arrive. -/
def arrivals : Sim n σ := (List.finRange n).foldl (arrive S) s

/-- The I/O burst of a process is over. -/
def completeIo (i : Fin n) : Sim n σ :=
  match (s.procs i).advanceBurst with
  | (true, p) => (s.setProc i p).enqueue S i
  | (false, p) => s.setProc i { p with state := .terminated, finish := s.tick }

/-- The loop over the rest of the waiting list: the entries that stay, and the state. -/
def ioLoop : List (Fin n × ℕ) → Sim n σ → List (Fin n × ℕ) × Sim n σ
  | [], s => ([], s)
  | (i, ticks) :: rest, s =>
    if dec32 ticks = 0 then ioLoop rest (s.completeIo S i)
    else
      let r := ioLoop rest s
      ((i, dec32 ticks) :: r.1, r.2)

/-- The loop over the processes that wait. -/
def ioCompletions : Sim n σ :=
  let r := ioLoop S s.waiting s
  { r.2 with waiting := r.1 }

/-- The running process goes back to the policy if the policy says so. -/
def preempt : Sim n σ :=
  match s.running with
  | none => s
  | some i =>
    if S.shouldPreempt s.procs s.sched i s.ranTicks then
      { s.enqueue S i with running := none, ranTicks := 0 }
    else s

/-- The ticks that a context switch costs. -/
def chargeSwitch : Sim n σ :=
  if cs.costTicks > 0 then
    { s with
      tick := add32 s.tick cs.costTicks
      csOverhead := add32 s.csOverhead cs.costTicks
      totalCs := add32 s.totalCs 1 }
  else s

/-- An idle CPU takes the process that the policy picks, at the cost of a switch. -/
def dispatch : Sim n σ :=
  match s.running with
  | some _ => s
  | none =>
    match S.pickNext s.procs s.sched with
    | (none, sched) => { s with sched := sched }
    | (some i, sched) =>
      let s := chargeSwitch cs { s with sched := sched }
      let p := s.procs i
      let s := s.setProc i { p with
        firstRun := if p.firstRun = 2 ^ 32 - 1 then s.tick else p.firstRun
        ctxSwitches := add32 p.ctxSwitches 1
        state := .running }
      { s with running := some i, ranTicks := 0 }

/-- The burst of the running process is over.  A burst that is not a CPU burst is left as
it is. -/
def endBurst (i : Fin n) : Sim n σ :=
  match (s.procs i).currentBurst with
  | none => s
  | some b =>
    if b.type = .cpu then
      match (s.procs i).advanceBurst with
      | (true, p) =>
        match p.currentBurst with
        | none => s.setProc i p
        | some nb =>
          if nb.type = .io then
            { s.setProc i { p with state := .waiting } with
              waiting := s.waiting ++ [(i, nb.ticks)]
              running := none
              ranTicks := 0 }
          else s.setProc i p
      | (false, p) =>
        { s.setProc i { p with state := .terminated, finish := add32 s.tick 1 } with
          running := none
          ranTicks := 0 }
    else s

/-- A tick of the running process. -/
def runTick : Sim n σ :=
  match s.running with
  | none => s
  | some i =>
    let p := { s.procs i with burstRemaining := dec32 (s.procs i).burstRemaining }
    let s := { s.setProc i p with
      usefulTicks := add32 s.usefulTicks 1
      ranTicks := add32 s.ranTicks 1 }
    if p.burstRemaining = 0 then s.endBurst i else s

def step : Sim n σ :=
  let s := (((s.arrivals S).ioCompletions S).preempt S).dispatch S cs |>.runTick
  { s with tick := add32 s.tick 1 }

/-! ## The loop -/

/-- Every process has ended. -/
def allDone : Bool := decide (∀ i, (s.procs i).state = .terminated)

/-- The condition of the loop. -/
def continues : Bool := !s.allDone && decide (s.tick < 50000)

def loop : ℕ → Sim n σ → Option (Sim n σ)
  | 0, _ => none
  | fuel + 1, s => if s.continues then loop fuel (s.step S cs) else some s

/-- The metrics. -/
def result : SimResult :=
  let done := (List.finRange n).filter (fun i => (s.procs i).state = .terminated)
  let sumTt := done.foldl (fun t i => add32 t (s.procs i).turnaround) 0
  let sumRt := done.foldl (fun t i => add32 t (s.procs i).response) 0
  { totalTicks := s.tick
    totalCtxSwitches := s.totalCs
    totalOverheadTicks := s.csOverhead
    cpuUtil := if s.tick > 0 then s.usefulTicks / s.tick else 0
    avgTurnaround := if done.length > 0 then sumTt / done.length else 0
    avgResponse := if done.length > 0 then sumRt / done.length else 0 }

/-- The states at the top of the loop, where its condition is evaluated. -/
inductive AtTop (s₀ : Sim n σ) : Sim n σ → Prop
  | start : AtTop s₀ s₀
  | next {s : Sim n σ} : AtTop s₀ s → s.continues = true → AtTop s₀ (s.step S cs)

end Sim

/-- `simulate`, for at most the given number of iterations. -/
def simulate {n : ℕ} {σ : Type} (S : IScheduler n σ) (cs : CsModel) (fuel : ℕ) (sched : σ)
    (procs : Fin n → Process) : Option SimResult :=
  ((Sim.start sched procs).loop S cs fuel).map Sim.result

end Memlab
