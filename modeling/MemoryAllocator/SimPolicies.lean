/-
# `sched/process.hpp`, `sched/scheduler.hpp` and `sched/policies/*.hpp`

The processes of the scheduler simulator and its six policies.  The processes are in a
vector, and a `Process*` into a vector of length `n` is an index below `n`; a policy is
handed the vector whenever it may follow its pointers.  The `uint32_t` counters are
natural numbers, with the arithmetic modulo `2 ^ 32` written out.

`IScheduler.Lawful` is what the simulator relies on: a policy holds what has been added
and not been picked.  For the policies with a heap this needs the keys of the queued
processes to stay as they are.
-/
import MemoryAllocator.PriorityQueue
import Mathlib

namespace Memlab

open PriorityQueue

/-! ## Processes -/

/-- The states of a process. -/
inductive State where
  | new
  | ready
  | running
  | waiting
  | terminated
  deriving DecidableEq, Repr

/-- What a burst needs: the CPU, a device, or a page. -/
inductive Burst.Kind where
  | cpu
  | io
  | pageFault
  deriving DecidableEq, Repr

/-- A burst of a process, and for how many ticks it lasts. -/
structure Burst where
  type : Burst.Kind
  ticks : ℕ
  deriving DecidableEq, Repr

/-- A process control block.  The largest `uint32_t` in `firstRun` says that the process
has not run yet. -/
structure Process where
  pid : ℤ := -1
  arrival : ℕ := 0
  priority : ℕ := 0
  bursts : List Burst := []
  curBurst : ℕ := 0
  burstRemaining : ℕ := 0
  state : State := .new
  firstRun : ℕ := 2 ^ 32 - 1
  finish : ℕ := 0
  ctxSwitches : ℕ := 0
  deriving DecidableEq, Repr

/-- `--x` on a `uint32_t`. -/
def dec32 (x : ℕ) : ℕ := if x = 0 then 2 ^ 32 - 1 else x - 1

/-- `x - y` on `uint32_t`s. -/
def sub32 (x y : ℕ) : ℕ := (x + (2 ^ 32 - y)) % 2 ^ 32

/-- `x + y` on `uint32_t`s. -/
def add32 (x y : ℕ) : ℕ := (x + y) % 2 ^ 32

/-- A sum wraps below `2 ^ 32`. -/
theorem add32_lt (x y : ℕ) : add32 x y < 2 ^ 32 := Nat.mod_lt _ (by decide)

/-- A difference that does not go below zero does not wrap. -/
theorem sub32_eq_sub {x y : ℕ} (hx : x < 2 ^ 32) (hle : y ≤ x) : sub32 x y = x - y := by
  unfold sub32
  omega

/-- A counter that is not zero goes down by one. -/
theorem dec32_add_one {x : ℕ} (h : 1 ≤ x) : dec32 x + 1 = x := by
  unfold dec32
  split_ifs
  · omega
  · omega

namespace Process

variable (p : Process)

/-- The ticks from the arrival to the end. -/
def turnaround : ℕ := sub32 p.finish p.arrival

/-- The ticks from the arrival to the first run, and zero for a process that has not
run. -/
def response : ℕ := if p.firstRun = 2 ^ 32 - 1 then 0 else sub32 p.firstRun p.arrival

/-- The ticks of the CPU bursts together. -/
def totalCpuBurst : ℕ :=
  p.bursts.foldl (fun t b => if b.type = .cpu then add32 t b.ticks else t) 0

/-- The burst that the process is in, if its index is inside the list. -/
def currentBurst : Option Burst := p.bursts[p.curBurst]?

/-- Go to the next burst, and say whether there is one. -/
def advanceBurst : Bool × Process :=
  let p := { p with curBurst := p.curBurst + 1 }
  match p.currentBurst with
  | none => (false, p)
  | some b => (true, { p with burstRemaining := b.ticks })

/-- What the policies look at. -/
def key : ℤ × ℕ × ℕ := (p.pid, p.priority, p.burstRemaining)

end Process

/-! ## The interface of the policies -/

/-- The interface of the policies.  `shouldPreempt` is asked about the running process and
the ticks it has run since it was dispatched. -/
structure IScheduler (n : ℕ) (σ : Type) where
  add : (Fin n → Process) → Fin n → σ → σ
  pickNext : (Fin n → Process) → σ → Option (Fin n) × σ
  shouldPreempt : (Fin n → Process) → σ → Fin n → ℕ → Bool
  onUnblock : (Fin n → Process) → Fin n → σ → σ
  name : String

variable {n : ℕ}

/-- `front` and `pop` of a queue. -/
def popFront : List (Fin n) → Option (Fin n) × List (Fin n)
  | [] => (none, [])
  | p :: q => (some p, q)

/-- `top` and `pop` of a heap. -/
def popTop (heap : HeapFns (Fin n)) (key : Fin n → ℤ) : List (Fin n) → Option (Fin n) × List (Fin n)
  | [] => (none, [])
  | p :: q => (some p, heap.pop key (p :: q))

/-! ## FCFS -/

/-- First come, first served: one queue. -/
structure FCFS (n : ℕ) where
  q : List (Fin n) := []

namespace FCFS

/-- A process is queued at the back. -/
def add (_procs : Fin n → Process) (p : Fin n) (s : FCFS n) : FCFS n := ⟨s.q ++ [p]⟩

/-- The front of the queue is picked, and nobody is preempted. -/
def scheduler : IScheduler n (FCFS n) where
  add := add
  pickNext _ s := ((popFront s.q).1, ⟨(popFront s.q).2⟩)
  shouldPreempt _ _ _ _ := false
  onUnblock := add
  name := "FCFS"

end FCFS

/-! ## SJF and SRTF -/

/-- The key of the comparison by remaining burst. -/
def remainingKey (procs : Fin n → Process) (p : Fin n) : ℤ := (procs p).burstRemaining

/-- Shortest job first: a heap by the remaining burst. -/
structure SJF (n : ℕ) where
  q : List (Fin n) := []

namespace SJF

variable (heap : HeapFns (Fin n))

/-- A process is pushed onto the heap with the burst that it has left now. -/
def add (procs : Fin n → Process) (p : Fin n) (s : SJF n) : SJF n :=
  ⟨heap.push (remainingKey procs) s.q p⟩

/-- The top of the heap is picked, and nobody is preempted. -/
def scheduler : IScheduler n (SJF n) where
  add := add heap
  pickNext procs s :=
    ((popTop heap (remainingKey procs) s.q).1, ⟨(popTop heap (remainingKey procs) s.q).2⟩)
  shouldPreempt _ _ _ _ := false
  onUnblock := add heap
  name := "SJF"

end SJF

/-- Shortest remaining time first: the same heap, with preemption. -/
structure SRTF (n : ℕ) where
  q : List (Fin n) := []

namespace SRTF

variable (heap : HeapFns (Fin n))

/-- A process is pushed onto the heap with the burst that it has left now. -/
def add (procs : Fin n → Process) (p : Fin n) (s : SRTF n) : SRTF n :=
  ⟨heap.push (remainingKey procs) s.q p⟩

/-- The running process is preempted if the top of the heap has strictly less left. -/
def shouldPreempt (procs : Fin n → Process) (s : SRTF n) (running : Fin n) (_ranTicks : ℕ) : Bool :=
  match s.q with
  | [] => false
  | top :: _ => (procs top).burstRemaining < (procs running).burstRemaining

/-- The top of the heap is picked. -/
def scheduler : IScheduler n (SRTF n) where
  add := add heap
  pickNext procs s :=
    ((popTop heap (remainingKey procs) s.q).1, ⟨(popTop heap (remainingKey procs) s.q).2⟩)
  shouldPreempt := shouldPreempt
  onUnblock := add heap
  name := "SRTF"

end SRTF

/-! ## Round robin -/

/-- One queue, and the slice of a process. -/
structure RoundRobin (n : ℕ) where
  q : List (Fin n) := []
  quantum : ℕ

namespace RoundRobin

/-- A process is queued at the back. -/
def add (_procs : Fin n → Process) (p : Fin n) (s : RoundRobin n) : RoundRobin n :=
  { s with q := s.q ++ [p] }

/-- The front of the queue is picked, and a process is preempted when its slice is
over. -/
def scheduler : IScheduler n (RoundRobin n) where
  add := add
  pickNext _ s := ((popFront s.q).1, { s with q := (popFront s.q).2 })
  shouldPreempt _ s _ ranTicks := ranTicks ≥ s.quantum
  onUnblock := add
  name := "RR"

/-- The front of the queue is picked, if there is one. -/
theorem pickNext_cases (procs : Fin n → Process) (s : RoundRobin n) :
    (s.q = [] ∧ scheduler.pickNext procs s = (none, s)) ∨
      ∃ i q, s.q = i :: q ∧ scheduler.pickNext procs s = (some i, { s with q := q }) := by
  obtain ⟨queue, quantum⟩ := s
  cases queue with
  | nil => exact .inl ⟨rfl, rfl⟩
  | cons i q => exact .inr ⟨i, q, rfl, rfl⟩

end RoundRobin

/-! ## Priority -/

/-- The heap, and the aging bonus of the processes by pid. -/
structure PriorityScheduler (n : ℕ) where
  aged : ℤ → Option ℕ := fun _ => none
  data : List (Fin n) := []

namespace PriorityScheduler

/-- The ticks for which the priority goes up by one. -/
def kAgingInterval : ℕ := 10

/-- The effective priority.  The conversions to `int` take a `uint32_t` to the integer
with the same 32 bits. -/
def effective (procs : Fin n → Process) (s : PriorityScheduler n) (p : Fin n) : ℤ :=
  Int.bmod (procs p).priority (2 ^ 32)
    - match s.aged (procs p).pid with
      | some bonus => Int.bmod bonus (2 ^ 32)
      | none => 0

variable (heap : HeapFns (Fin n))

/-- A process is pushed onto the heap with the effective priority that it has now. -/
def add (procs : Fin n → Process) (p : Fin n) (s : PriorityScheduler n) : PriorityScheduler n :=
  { s with data := heap.push (s.effective procs) s.data p }

/-- The processes in the order in which they are popped. -/
def popAll (key : Fin n → ℤ) : ℕ → List (Fin n) → List (Fin n)
  | 0, _ => []
  | _ + 1, [] => []
  | fuel + 1, p :: q => p :: popAll key fuel (heap.pop key (p :: q))

/-- The aging bonuses, from the ticks since the arrival. -/
def ageReadyQueue (procs : Fin n → Process) (currentTick : ℕ) (s : PriorityScheduler n) :
    PriorityScheduler n :=
  let tmp := popAll heap (s.effective procs) s.data.length s.data
  tmp.foldl (fun s p =>
    let waited := sub32 currentTick (procs p).arrival
    add heap procs p { s with
      aged := Function.update s.aged (procs p).pid (some (waited / kAgingInterval)) })
    { s with data := [] }

/-- The process of the least effective priority is picked, and nobody is preempted. -/
def scheduler : IScheduler n (PriorityScheduler n) where
  add := add heap
  pickNext procs s :=
    ((popTop heap (s.effective procs) s.data).1,
      { s with data := (popTop heap (s.effective procs) s.data).2 })
  shouldPreempt _ _ _ _ := false
  onUnblock := add heap
  name := "Priority"

end PriorityScheduler

/-! ## MLFQ -/

/-- There is a first level. -/
instance neZero_levels : NeZero 3 := ⟨by norm_num⟩

/-- Three queues, and the level of the processes by pid. -/
structure MLFQ (n : ℕ) where
  qbase : ℕ
  boostInterval : ℕ
  queues : Fin 3 → List (Fin n) := fun _ => []
  level : ℤ → Option (Fin 3) := fun _ => none

namespace MLFQ

/-- Append a process to one of the queues. -/
def pushBack (q : Fin 3) (p : Fin n) (s : MLFQ n) : MLFQ n :=
  { s with queues := Function.update s.queues q (s.queues q ++ [p]) }

/-- The level of a process, the first one if the map has none for it. -/
def levelOf (procs : Fin n → Process) (s : MLFQ n) (p : Fin n) : Fin 3 :=
  (s.level (procs p).pid).getD 0

/-- A process that is added starts at the first level. -/
def add (procs : Fin n → Process) (p : Fin n) (s : MLFQ n) : MLFQ n :=
  pushBack 0 p { s with level := Function.update s.level (procs p).pid (some 0) }

/-- The front of the first queue that is not empty. -/
def pickNext (_procs : Fin n → Process) (s : MLFQ n) : Option (Fin n) × MLFQ n :=
  match (List.finRange 3).find? (fun q => s.queues q ≠ []) with
  | none => (none, s)
  | some q =>
    ((s.queues q).head?, { s with queues := Function.update s.queues q (s.queues q).tail })

/-- The quantum doubles from level to level. -/
def quantumFor (procs : Fin n → Process) (s : MLFQ n) (p : Fin n) : ℕ :=
  s.qbase * 2 ^ (s.levelOf procs p).val % 2 ^ 32

/-- The process has used up its quantum. -/
def onQuantumExpired (procs : Fin n → Process) (p : Fin n) (s : MLFQ n) : MLFQ n :=
  let lvl := s.levelOf procs p
  let s := if lvl < 2 then
      { s with level := Function.update s.level (procs p).pid (some (lvl + 1)) }
    else s
  pushBack (s.levelOf procs p) p s

/-- Move the processes of a queue to the first one. -/
def boostQueue (procs : Fin n → Process) (s : MLFQ n) (q : Fin 3) : MLFQ n :=
  let s := (s.queues q).foldl (fun s p => add procs p s) s
  { s with queues := Function.update s.queues q [] }

/-- The periodic boost. -/
def tick (procs : Fin n → Process) (currentTick : ℕ) (s : MLFQ n) : MLFQ n :=
  if currentTick % s.boostInterval ≠ 0 ∨ currentTick = 0 then s
  else [1, 2].foldl (boostQueue procs) s

/-- A process is preempted when its quantum is over, and comes back to its level
from I/O. -/
def scheduler : IScheduler n (MLFQ n) where
  add := add
  pickNext := pickNext
  shouldPreempt procs s running ranTicks := ranTicks ≥ s.quantumFor procs running
  onUnblock procs p s := pushBack (s.levelOf procs p) p s
  name := "MLFQ"

end MLFQ

/-! ## What the simulator relies on -/

/-- The processes in the `queue` of the policy are those that have been added and not been
picked.  `Ok` is what the policy needs for that; it depends on the processes in the
queue only. -/
structure IScheduler.Lawful {σ : Type} (S : IScheduler n σ) (queue : σ → List (Fin n))
    (Ok : (Fin n → Process) → σ → Prop) : Prop where
  add_ok : ∀ {procs p s}, Ok procs s → Ok procs (S.add procs p s)
  add_perm : ∀ {procs p s}, Ok procs s → (queue (S.add procs p s)).Perm (p :: queue s)
  pick_ok : ∀ {procs s}, Ok procs s → Ok procs (S.pickNext procs s).2
  pick_none : ∀ {procs s}, Ok procs s → (S.pickNext procs s).1 = none →
    queue s = [] ∧ queue (S.pickNext procs s).2 = []
  pick_some : ∀ {procs p s}, Ok procs s → (S.pickNext procs s).1 = some p →
    (queue s).Perm (p :: queue (S.pickNext procs s).2)
  congr : ∀ {procs procs' s}, Ok procs s → (∀ p ∈ queue s, (procs' p).key = (procs p).key) →
    Ok procs' s

/-- Nothing comes from a queue that is empty only. -/
theorem popFront_none {q : List (Fin n)} (h : (popFront q).1 = none) :
    q = [] ∧ (popFront q).2 = [] := by
  cases q with
  | nil => exact ⟨rfl, rfl⟩
  | cons p q => simp [popFront] at h

/-- What is popped from a queue was its front. -/
theorem popFront_some {q : List (Fin n)} {p : Fin n} (h : (popFront q).1 = some p) :
    q = p :: (popFront q).2 := by
  cases q with
  | nil => simp [popFront] at h
  | cons p' q =>
    obtain rfl : p' = p := Option.some.inj h
    rfl

section Heaps

variable {heap : HeapFns (Fin n)} {key : Fin n → ℤ} {q : List (Fin n)}

/-- Nothing comes from a heap that is empty only. -/
theorem popTop_none (h : (popTop heap key q).1 = none) : q = [] ∧ (popTop heap key q).2 = [] := by
  cases q with
  | nil => exact ⟨rfl, rfl⟩
  | cons p q => simp [popTop] at h

/-- The process that is popped leaves the heap, and the others stay. -/
theorem popTop_some (hheap : IsHeap key q) {p : Fin n} (h : (popTop heap key q).1 = some p) :
    q.Perm (p :: (popTop heap key q).2) := by
  cases q with
  | nil => simp [popTop] at h
  | cons p' q =>
    obtain rfl : p' = p := Option.some.inj h
    exact ((heap.pop_perm hheap).cons p').symm

/-- What is left after a `pop` is a heap. -/
theorem isHeap_popTop (hheap : IsHeap key q) : IsHeap key (popTop heap key q).2 := by
  cases q with
  | nil => exact isHeap_nil key
  | cons p q => exact heap.isHeap_pop hheap

end Heaps

/-- A queue needs nothing to be lawful. -/
theorem FCFS.lawful : (FCFS.scheduler (n := n)).Lawful FCFS.q (fun _ _ => True) where
  add_ok _ := trivial
  add_perm _ := List.perm_append_singleton _ _
  pick_ok _ := trivial
  pick_none _ h := popFront_none h
  pick_some _ h := .of_eq (popFront_some h)
  congr _ _ := trivial

/-- The queue of round robin is lawful like that of FCFS. -/
theorem RoundRobin.lawful :
    (RoundRobin.scheduler (n := n)).Lawful RoundRobin.q (fun _ _ => True) where
  add_ok _ := trivial
  add_perm _ := List.perm_append_singleton _ _
  pick_ok _ := trivial
  pick_none _ h := popFront_none h
  pick_some _ h := .of_eq (popFront_some h)
  congr _ _ := trivial

/-- The remaining burst is part of what the policies look at. -/
theorem remainingKey_congr {procs procs' : Fin n → Process} {p : Fin n}
    (h : (procs' p).key = (procs p).key) : remainingKey procs' p = remainingKey procs p := by
  rw [Process.key, Process.key, Prod.mk.injEq, Prod.mk.injEq] at h
  rw [remainingKey, remainingKey, h.2.2]

/-- The heap of SJF is lawful as long as it is a heap for the remaining bursts. -/
theorem SJF.lawful (heap : HeapFns (Fin n)) :
    (SJF.scheduler heap).Lawful SJF.q (fun procs s => IsHeap (remainingKey procs) s.q) where
  add_ok h := heap.isHeap_push h
  add_perm h := heap.push_perm h
  pick_ok h := isHeap_popTop h
  pick_none _ h := popTop_none h
  pick_some hheap h := popTop_some hheap h
  congr hheap h := hheap.congr (fun p hp => remainingKey_congr (h p hp))

/-- The heap of SRTF is lawful as long as it is a heap for the remaining bursts. -/
theorem SRTF.lawful (heap : HeapFns (Fin n)) :
    (SRTF.scheduler heap).Lawful SRTF.q (fun procs s => IsHeap (remainingKey procs) s.q) where
  add_ok h := heap.isHeap_push h
  add_perm h := heap.push_perm h
  pick_ok h := isHeap_popTop h
  pick_none _ h := popTop_none h
  pick_some hheap h := popTop_some hheap h
  congr hheap h := hheap.congr (fun p hp => remainingKey_congr (h p hp))

/-- The effective priority comes from the pid and the priority. -/
theorem PriorityScheduler.effective_congr {procs procs' : Fin n → Process} {p : Fin n}
    {s : PriorityScheduler n} (h : (procs' p).key = (procs p).key) :
    s.effective procs' p = s.effective procs p := by
  rw [Process.key, Process.key, Prod.mk.injEq, Prod.mk.injEq] at h
  unfold effective
  rw [h.1, h.2.1]

/-- The priority heap is lawful as long as it is a heap for the effective priorities. -/
theorem PriorityScheduler.lawful (heap : HeapFns (Fin n)) :
    (PriorityScheduler.scheduler heap).Lawful PriorityScheduler.data
      (fun procs s => IsHeap (s.effective procs) s.data) where
  add_ok h := heap.isHeap_push h
  add_perm h := heap.push_perm h
  pick_ok h := isHeap_popTop h
  pick_none _ h := popTop_none h
  pick_some hheap h := popTop_some hheap h
  congr hheap h := hheap.congr (fun p hp => effective_congr (h p hp))

namespace MLFQ

/-- The three queues together. -/
def queued (s : MLFQ n) : List (Fin n) := s.queues 0 ++ s.queues 1 ++ s.queues 2

/-- A process at the back of the first queue is one more in the three. -/
theorem queued_pushBack (p : Fin n) (s : MLFQ n) :
    (pushBack 0 p s).queued.Perm (p :: s.queued) := by
  show (s.queues 0 ++ [p] ++ s.queues 1 ++ s.queues 2).Perm _
  rw [List.append_assoc, List.append_assoc, queued, List.append_assoc]
  exact List.perm_middle

/-- The first of the three queues together is picked, if there is one. -/
theorem pickNext_cases (procs : Fin n → Process) (s : MLFQ n) :
    (pickNext procs s = (none, s) ∧ s.queued = []) ∨
      ∃ p, (pickNext procs s).1 = some p ∧ s.queued = p :: (pickNext procs s).2.queued := by
  have hrange : List.finRange 3 = [0, 1, 2] := by decide
  unfold pickNext
  rw [hrange]
  cases h0 : s.queues 0 with
  | cons p q => exact .inr ⟨p, by simp [h0], by simp [h0, queued]⟩
  | nil =>
    cases h1 : s.queues 1 with
    | cons p q => exact .inr ⟨p, by simp [h0, h1], by simp [h0, h1, queued]⟩
    | nil =>
      cases h2 : s.queues 2 with
      | cons p q => exact .inr ⟨p, by simp [h0, h1, h2], by simp [h0, h1, h2, queued]⟩
      | nil => exact .inl ⟨by simp [h0, h1, h2], by simp [h0, h1, h2, queued]⟩

/-- The three queues need nothing to be lawful. -/
theorem lawful : (MLFQ.scheduler (n := n)).Lawful queued (fun _ _ => True) where
  add_ok _ := trivial
  add_perm {procs p s} _ := queued_pushBack p _
  pick_ok _ := trivial
  pick_none {procs s} _ h := by
    rcases pickNext_cases procs s with ⟨heq, hnil⟩ | ⟨p, hp, -⟩
    · refine ⟨hnil, ?_⟩
      show (pickNext procs s).2.queued = []
      rw [heq, hnil]
    · exact absurd (hp.symm.trans h) (by simp)
  pick_some {procs p s} _ h := by
    rcases pickNext_cases procs s with ⟨heq, hnil⟩ | ⟨p', hp, hqueue⟩
    · have hnone : (pickNext procs s).1 = some p := h
      rw [heq] at hnone
      simp at hnone
    · obtain rfl : p' = p := Option.some.inj (hp.symm.trans h)
      exact .of_eq hqueue
  congr _ _ := trivial

end MLFQ

/-! ## The six policies together -/

/-- The policies of the simulator, with what they are constructed from. -/
inductive SchedPolicy (n : ℕ) where
  | fcfs
  | sjf (heap : HeapFns (Fin n))
  | srtf (heap : HeapFns (Fin n))
  | rr (quantum : ℕ)
  | priority (heap : HeapFns (Fin n))
  | mlfq (quantumBase boostInterval : ℕ)

namespace SchedPolicy

/-- The object of a policy. -/
def State : SchedPolicy n → Type
  | fcfs => FCFS n
  | sjf _ => SJF n
  | srtf _ => SRTF n
  | rr _ => RoundRobin n
  | priority _ => PriorityScheduler n
  | mlfq _ _ => MLFQ n

/-- The methods of a policy. -/
def scheduler : (k : SchedPolicy n) → IScheduler n k.State
  | fcfs => FCFS.scheduler
  | sjf heap => SJF.scheduler heap
  | srtf heap => SRTF.scheduler heap
  | rr _ => RoundRobin.scheduler
  | priority heap => PriorityScheduler.scheduler heap
  | mlfq _ _ => MLFQ.scheduler

/-- The object as it is constructed. -/
def initial : (k : SchedPolicy n) → k.State
  | fcfs => ({} : FCFS n)
  | sjf _ => ({} : SJF n)
  | srtf _ => ({} : SRTF n)
  | rr quantum => ({ quantum := quantum } : RoundRobin n)
  | priority _ => ({} : PriorityScheduler n)
  | mlfq quantumBase boostInterval =>
    ({ qbase := quantumBase, boostInterval := boostInterval } : MLFQ n)

/-- The processes that the policy holds. -/
def queue : (k : SchedPolicy n) → k.State → List (Fin n)
  | fcfs => fun s : FCFS n => s.q
  | sjf _ => fun s : SJF n => s.q
  | srtf _ => fun s : SRTF n => s.q
  | rr _ => fun s : RoundRobin n => s.q
  | priority _ => fun s : PriorityScheduler n => s.data
  | mlfq _ _ => fun s : MLFQ n => s.queued

/-- The heap of a policy is one. -/
def Ok : (k : SchedPolicy n) → (Fin n → Process) → k.State → Prop
  | fcfs => fun _ _ => True
  | sjf _ => fun procs (s : SJF n) => IsHeap (remainingKey procs) s.q
  | srtf _ => fun procs (s : SRTF n) => IsHeap (remainingKey procs) s.q
  | rr _ => fun _ _ => True
  | priority _ => fun procs (s : PriorityScheduler n) => IsHeap (s.effective procs) s.data
  | mlfq _ _ => fun _ _ => True

/-- **The six policies are lawful.** -/
theorem lawful : (k : SchedPolicy n) → k.scheduler.Lawful k.queue k.Ok
  | fcfs => FCFS.lawful
  | sjf heap => SJF.lawful heap
  | srtf heap => SRTF.lawful heap
  | rr _ => RoundRobin.lawful
  | priority heap => PriorityScheduler.lawful heap
  | mlfq _ _ => MLFQ.lawful

/-- A policy starts without processes. -/
theorem queue_initial (k : SchedPolicy n) : k.queue k.initial = [] := by
  cases k <;> rfl

/-- An empty heap is one for any keys. -/
theorem ok_initial (k : SchedPolicy n) (procs : Fin n → Process) : k.Ok procs k.initial := by
  cases k with
  | fcfs => exact trivial
  | sjf heap => exact isHeap_nil _
  | srtf heap => exact isHeap_nil _
  | rr quantum => exact trivial
  | priority heap => exact isHeap_nil _
  | mlfq quantumBase boostInterval => exact trivial

end SchedPolicy

end Memlab
