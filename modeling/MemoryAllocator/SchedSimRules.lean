/-
# What three of the policies promise, in the simulation

SRTF says that it runs the shortest remaining job, and it does: all processes that are
ready are in its heap when it decides about the running one.

MLFQ says that it demotes a process that has used up its quantum, keeps the level of one
that has blocked, and boosts.  `simulate` knows `add` only, which puts every process at
the top: the first rule is broken by every preemption, and the other two are kept because
there is only one level.

The priority policy says that it ages the processes that wait.  `simulate` does not ask it
to.
-/
import MemoryAllocator.SchedSimProgress

namespace Memlab

open PriorityQueue

variable {n : ℕ}

/-! ## SRTF -/

section Srtf

variable {heap : HeapFns (Fin n)} {ps : Fin n → Process} {cs : CsModel} {s : Sim n (SRTF n)}
  {W : List (Fin n)}

/-- The invariant of a simulation with SRTF. -/
abbrev SRTF.Inv (ps : Fin n → Process) (s : Sim n (SRTF n)) (W : List (Fin n)) : Prop :=
  Sim.Inv SRTF.q (fun procs t => IsHeap (remainingKey procs) t.q) ps s W

/-- The first process in the queue has the least remaining burst of all that are ready. -/
theorem SRTF.Inv.head_le (h : SRTF.Inv ps s W) {i : Fin n} {q : List (Fin n)}
    (hq : s.sched.q = i :: q) {j : Fin n} (hj : (s.procs j).state = .ready) :
    (s.procs i).burstRemaining ≤ (s.procs j).burstRemaining := by
  have hmem : j ∈ i :: q := by
    have hcount := h.places.ready j
    rw [if_pos hj, hq] at hcount
    exact List.count_pos_iff.mp (by omega)
  have hheap : IsHeap (remainingKey s.procs) (i :: q) := hq ▸ h.sched_ok
  have hle := hheap.head_le hmem
  unfold remainingKey at hle
  omega

/-- A process that is not preempted has at most the remaining burst of any that is
ready. -/
theorem SRTF.Inv.le_of_not_preempt (h : SRTF.Inv ps s W) {i : Fin n}
    (hkeep : SRTF.shouldPreempt s.procs s.sched i s.ranTicks = false) {j : Fin n}
    (hj : (s.procs j).state = .ready) :
    (s.procs i).burstRemaining ≤ (s.procs j).burstRemaining := by
  cases hq : s.sched.q with
  | nil =>
    have hcount := h.places.ready j
    rw [if_pos hj, hq] at hcount
    simp at hcount
  | cons top q =>
    have hle := h.head_le hq hj
    simp only [SRTF.shouldPreempt, hq, decide_eq_false_iff_not] at hkeep
    omega

/-- The dispatch takes a process with the least remaining burst. -/
theorem SRTF.Inv.dispatch_le (h : SRTF.Inv ps s W) {i : Fin n} (hnone : s.running = none)
    (hrun : (s.dispatch (SRTF.scheduler heap) cs).running = some i) {j : Fin n}
    (hj : ((s.dispatch (SRTF.scheduler heap) cs).procs j).state = .ready) :
    ((s.dispatch (SRTF.scheduler heap) cs).procs i).burstRemaining
      ≤ ((s.dispatch (SRTF.scheduler heap) cs).procs j).burstRemaining := by
  rcases Sim.dispatch_cases (SRTF.scheduler heap) cs s with ⟨k, hsome, -⟩ | ⟨-, -, heq⟩ |
    ⟨k, -, hpick, heq⟩
  · rw [hnone] at hsome
    simp at hsome
  · rw [heq] at hrun
    exact absurd (hnone.symm.trans hrun) (by simp)
  · have hki : k = i := by
      rw [heq] at hrun
      exact Option.some.inj hrun
    subst hki
    have hprocs : (s.dispatch (SRTF.scheduler heap) cs).procs
        = Function.update s.procs k (s.dispatched cs k) := by
      rw [heq]
      show Function.update (s.chargeSwitch cs).procs k _ = _
      rw [Sim.procs_chargeSwitch]
    rw [hprocs] at hj ⊢
    have hne : j ≠ k := by
      rintro rfl
      rw [Function.update_self] at hj
      simp [Sim.dispatched] at hj
    rw [Function.update_of_ne hne] at hj ⊢
    rw [Function.update_self]
    show (s.procs k).burstRemaining ≤ _
    cases hq : s.sched.q with
    | nil =>
      have hempty : (popTop heap (remainingKey s.procs) s.sched.q).1 = some k := hpick
      rw [hq] at hempty
      simp [popTop] at hempty
    | cons top q =>
      have htop : (popTop heap (remainingKey s.procs) s.sched.q).1 = some k := hpick
      rw [hq] at htop
      obtain rfl : top = k := Option.some.inj htop
      exact h.head_le hq hj

/-- **SRTF runs the shortest remaining job.**  In every iteration that runs a tick, the
remaining burst of the running process before the tick is at most that of every process
that is ready then. -/
theorem srtf_runs_shortest (heap : HeapFns (Fin n)) (cs : CsModel) (ps : Fin n → Process)
    (hvalid : ∀ i, (ps i).Valid) (s : Sim n (SRTF n))
    (h : Sim.AtTop (SRTF.scheduler heap) cs (Sim.start {} ps) s) (i : Fin n)
    (hrun : (s.beforeTick (SRTF.scheduler heap) cs).running = some i) (j : Fin n)
    (hj : ((s.beforeTick (SRTF.scheduler heap) cs).procs j).state = .ready) :
    ((s.beforeTick (SRTF.scheduler heap) cs).procs i).burstRemaining
      ≤ ((s.beforeTick (SRTF.scheduler heap) cs).procs j).burstRemaining := by
  have hinv := (h.inv (SRTF.lawful heap) hvalid rfl (fun _ => isHeap_nil _)).1
  have hsettled := (hinv.settled (SRTF.lawful heap)).1
  cases hnone : (s.settled (SRTF.scheduler heap)).running with
  | none => exact SRTF.Inv.dispatch_le hsettled hnone hrun hj
  | some k =>
    -- nobody is dispatched, and `k` has not been preempted
    have hbefore : s.beforeTick (SRTF.scheduler heap) cs = s.settled (SRTF.scheduler heap) := by
      show (s.settled (SRTF.scheduler heap)).dispatch (SRTF.scheduler heap) cs = _
      rw [Sim.dispatch, hnone]
    rw [hbefore] at hrun hj ⊢
    rcases Sim.preempt_cases (SRTF.scheduler heap)
        ((s.arrivals (SRTF.scheduler heap)).ioCompletions (SRTF.scheduler heap)) with
      ⟨hkeep, heq⟩ | ⟨k', -, -, heq⟩
    · have hsame : s.settled (SRTF.scheduler heap)
          = (s.arrivals (SRTF.scheduler heap)).ioCompletions (SRTF.scheduler heap) := heq
      rw [← hsame] at hkeep
      exact SRTF.Inv.le_of_not_preempt hsettled (hkeep i hrun) hj
    · have hgone : (s.settled (SRTF.scheduler heap)).running = none := by
        unfold Sim.settled
        rw [heq]
      exact absurd (hgone.symm.trans hrun) (by simp)

/-- The simulation of a short and a long process, before its third iteration. -/
def thirdIteration : Sim 2 (SRTF 2) :=
  ((Sim.start {} shortAndLong).step (SRTF.scheduler (.sorting (Fin 2))) { costTicks := 1 }).step
    (SRTF.scheduler (.sorting (Fin 2))) { costTicks := 1 }

/-- The state in which the third iteration comes to run a tick. -/
def thirdTick : Sim 2 (SRTF 2) :=
  thirdIteration.beforeTick (SRTF.scheduler (.sorting (Fin 2))) { costTicks := 1 }

/-- In the third iteration the short process comes back from its I/O and preempts the long
one. -/
theorem shortAndLong_runs_shortest :
    thirdTick.running = some 0 ∧ (thirdTick.procs 1).state = .ready ∧
      (thirdTick.procs 1).burstRemaining = 4 ∧
      (thirdTick.procs 0).burstRemaining ≤ (thirdTick.procs 1).burstRemaining := by
  have htop : Sim.AtTop (SRTF.scheduler (.sorting (Fin 2))) { costTicks := 1 }
      (Sim.start {} shortAndLong) thirdIteration :=
    (Sim.AtTop.start.next (by decide +kernel)).next (by decide +kernel)
  have hrun : thirdTick.running = some 0 := by decide +kernel
  have hready : (thirdTick.procs 1).state = .ready := by decide +kernel
  exact ⟨hrun, hready, by decide +kernel,
    srtf_runs_shortest (.sorting (Fin 2)) { costTicks := 1 } shortAndLong shortAndLong_valid
      thirdIteration htop 0 hrun 1 hready⟩

end Srtf

/-! ## Runs -/

namespace Sim

variable {σ : Type} {S : IScheduler n σ} {cs : CsModel} {s t : Sim n σ}

/-- The ticks by which the clock advances in an iteration. -/
def elapsed (S : IScheduler n σ) (cs : CsModel) (s : Sim n σ) : ℕ :=
  (if s.Dispatches S then cs.costTicks else 0) + 1

/-- The ticks for which a process has been ready when an iteration comes to its dispatch,
from the ticks `w` at the start of the iteration.  A process that becomes ready in the
iteration starts with 0. -/
def readyTicks (s : Sim n σ) (w : Fin n → ℕ) (i : Fin n) : ℕ :=
  if (s.procs i).state = .ready then w i else 0

/-- The states at the top of the loop, with the ticks for which each process that is ready
has been ready. -/
inductive Timed (S : IScheduler n σ) (cs : CsModel) (s₀ : Sim n σ) :
    Sim n σ → (Fin n → ℕ) → Prop
  | start : Timed S cs s₀ s₀ (fun _ => 0)
  | next {s : Sim n σ} {w : Fin n → ℕ} : Timed S cs s₀ s w → s.continues = true →
      Timed S cs s₀ (s.step S cs) (fun i => s.readyTicks w i + s.elapsed S cs)

theorem Timed.atTop {s₀ : Sim n σ} {w : Fin n → ℕ} (h : Timed S cs s₀ s w) : AtTop S cs s₀ s := by
  induction h with
  | start => exact .start
  | next _ hcontinues ih => exact ih.next hcontinues

theorem AtTop.timed {s₀ : Sim n σ} (h : AtTop S cs s₀ s) : ∃ w, Timed S cs s₀ s w := by
  induction h with
  | start => exact ⟨_, .start⟩
  | next _ hcontinues ih =>
    obtain ⟨w, hw⟩ := ih
    exact ⟨_, hw.next hcontinues⟩

/-- The states at the top of the loop, one after the other. -/
def tops (S : IScheduler n σ) (cs : CsModel) :
    ℕ → Sim n σ → (Fin n → ℕ) → List (Sim n σ × (Fin n → ℕ))
  | 0, s, w => [(s, w)]
  | fuel + 1, s, w =>
    if s.continues then
      (s, w) :: tops S cs fuel (s.step S cs) (fun i => s.readyTicks w i + s.elapsed S cs)
    else [(s, w)]

theorem mem_tops (fuel : ℕ) (s : Sim n σ) (w : Fin n → ℕ) : (s, w) ∈ tops S cs fuel s w := by
  cases fuel with
  | zero => exact List.mem_singleton_self _
  | succ fuel =>
    rw [tops]
    split_ifs <;> simp

theorem Timed.of_mem_tops {s₀ : Sim n σ} {x : Sim n σ × (Fin n → ℕ)} {fuel : ℕ} {w : Fin n → ℕ}
    (h : Timed S cs s₀ s w) (hx : x ∈ tops S cs fuel s w) : Timed S cs s₀ x.1 x.2 := by
  induction fuel generalizing s w with
  | zero =>
    rw [List.mem_singleton.mp hx]
    exact h
  | succ fuel ih =>
    rw [tops] at hx
    split_ifs at hx with hcontinues
    · rcases List.mem_cons.mp hx with rfl | hx
      · exact h
      · exact ih (h.next hcontinues) hx
    · rw [List.mem_singleton.mp hx]
      exact h

/-- If the loop ends, these are all. -/
theorem Timed.mem_tops {s₀ : Sim n σ} {fuel : ℕ} (hloop : s₀.loop S cs fuel = some t)
    {w : Fin n → ℕ} (h : Timed S cs s₀ s w) : (s, w) ∈ tops S cs fuel s₀ (fun _ => 0) := by
  have hnext : ∀ {fuel : ℕ} {s₀ s : Sim n σ} {w₀ w : Fin n → ℕ}, s₀.loop S cs fuel = some t →
      (s, w) ∈ tops S cs fuel s₀ w₀ → s.continues = true →
      (s.step S cs, fun i => s.readyTicks w i + s.elapsed S cs) ∈ tops S cs fuel s₀ w₀ := by
    intro fuel
    induction fuel with
    | zero =>
      intro s₀ s w₀ w hloop
      simp [loop] at hloop
    | succ fuel ih =>
      intro s₀ s w₀ w hloop hs hcontinues
      rw [loop] at hloop
      rw [tops] at hs ⊢
      split_ifs at hloop hs ⊢ with hgo
      · rcases List.mem_cons.mp hs with heq | hs
        · obtain ⟨rfl, rfl⟩ := Prod.mk.inj heq
          exact List.mem_cons_of_mem _ (Sim.mem_tops fuel _ _)
        · exact List.mem_cons_of_mem _ (ih hloop hs hcontinues)
      · rw [(Prod.mk.inj (List.mem_singleton.mp hs)).1] at hcontinues
        exact absurd hcontinues hgo
  induction h with
  | start => exact Sim.mem_tops fuel s₀ _
  | next _ hcontinues ih => exact hnext hloop ih hcontinues

/-- The parts of an iteration use `add` and `pickNext` of the policy only. -/
structure SchedClosed (S : IScheduler n σ) (P : σ → Prop) : Prop where
  add : ∀ procs i {t}, P t → P (S.add procs i t)
  pickNext : ∀ procs {t}, P t → P (S.pickNext procs t).2

variable {P : σ → Prop}

theorem SchedClosed.arrivals (hP : SchedClosed S P) (h : P s.sched) : P (s.arrivals S).sched := by
  have hfold : ∀ (l : List (Fin n)) (t : Sim n σ), P t.sched → P (l.foldl (arrive S) t).sched := by
    intro l
    induction l with
    | nil => exact fun t ht => ht
    | cons i l ih =>
      intro t ht
      apply ih _
      rcases arrive_cases S t i with ⟨-, heq⟩ | ⟨-, -, heq⟩
      · rwa [heq]
      · rw [heq]
        exact hP.add _ i ht
  exact hfold _ s h

theorem SchedClosed.completeIo (hP : SchedClosed S P) (h : P s.sched) (i : Fin n) :
    P (s.completeIo S i).sched := by
  unfold Sim.completeIo
  split
  · exact hP.add _ i h
  · exact h

theorem SchedClosed.ioCompletions (hP : SchedClosed S P) (h : P s.sched) :
    P (s.ioCompletions S).sched := by
  have hloop : ∀ (rest : List (Fin n × ℕ)) (t : Sim n σ), P t.sched → P (ioLoop S rest t).2.sched := by
    intro rest
    induction rest with
    | nil => exact fun t ht => ht
    | cons x rest ih =>
      intro t ht
      rw [ioLoop]
      split_ifs
      · exact ih _ (hP.completeIo ht x.1)
      · exact ih t ht
  exact hloop s.waiting s h

theorem SchedClosed.preempt (hP : SchedClosed S P) (h : P s.sched) : P (s.preempt S).sched := by
  rcases preempt_cases S s with ⟨-, heq⟩ | ⟨i, -, -, heq⟩
  · rwa [heq]
  · rw [heq]
    exact hP.add _ i h

theorem SchedClosed.settled (hP : SchedClosed S P) (h : P s.sched) : P (s.settled S).sched :=
  hP.preempt (hP.ioCompletions (hP.arrivals h))

theorem SchedClosed.beforeTick (hP : SchedClosed S P) (h : P s.sched) :
    P (s.beforeTick S cs).sched := by
  show P ((s.settled S).dispatch S cs).sched
  have hsettled := hP.settled h
  rcases dispatch_cases S cs (s.settled S) with ⟨i, -, heq⟩ | ⟨-, -, heq⟩ | ⟨i, -, -, heq⟩
  · rwa [heq]
  · rw [heq]
    exact hP.pickNext _ hsettled
  · rw [heq]
    exact hP.pickNext _ hsettled

theorem sched_endBurst (s : Sim n σ) (i : Fin n) : (s.endBurst i).sched = s.sched := by
  unfold endBurst
  split
  · rfl
  · split_ifs
    · split
      · split
        · rfl
        · split_ifs <;> rfl
      · rfl
    · rfl

theorem sched_runTick (s : Sim n σ) : s.runTick.sched = s.sched := by
  unfold runTick
  split
  · rfl
  · dsimp only
    split_ifs
    · exact sched_endBurst _ _
    · rfl

/-- The arrivals and the I/O leave the running process alone. -/
theorem Inv.running_before {queue : σ → List (Fin n)} {Ok : (Fin n → Process) → σ → Prop}
    {ps : Fin n → Process} (hS : S.Lawful queue Ok)
    (h : Inv queue Ok ps s (s.waiting.map Prod.fst)) :
    Inv queue Ok ps ((s.arrivals S).ioCompletions S)
        (((s.arrivals S).ioCompletions S).waiting.map Prod.fst) ∧
      ((s.arrivals S).ioCompletions S).running = s.running ∧
      ((s.arrivals S).ioCompletions S).ranTicks = s.ranTicks := by
  have harrived := arrived_arrivals S s
  obtain ⟨h₂, hserviced⟩ := h.serviced hS
  exact ⟨h₂, hserviced.running_eq.trans harrived.running_eq,
    hserviced.ranTicks_eq.trans harrived.ranTicks_eq⟩

/-- What `add` and `pickNext` keep is kept in every run. -/
theorem SchedClosed.atTop (hP : SchedClosed S P) {sched : σ} {ps : Fin n → Process} (h : P sched)
    (htop : AtTop S cs (Sim.start sched ps) s) : P s.sched := by
  induction htop with
  | start => exact h
  | @next s _ _ ih =>
    show P (s.beforeTick S cs).runTick.sched
    rw [sched_runTick]
    exact hP.beforeTick ih

end Sim

/-! ## MLFQ -/

namespace MLFQ

variable {procs : Fin n → Process} {p : Fin n} {s : MLFQ n}

/-- The level below, where the lowest level stays the lowest. -/
def below (q : Fin 3) : Fin 3 := if q < 2 then q + 1 else q

/-- A process is queued at a level. -/
def QueuedAt (procs : Fin n → Process) (s : MLFQ n) (p : Fin n) (q : Fin 3) : Prop :=
  p ∈ s.queues q ∧ s.levelOf procs p = q

/-! ### The rules, in a simulation -/

variable (cs : CsModel) (s₀ : Sim n (MLFQ n))

/-- A process has blocked at a level, and has been waiting since. -/
inductive Blocked (i : Fin n) : Fin 3 → Sim n (MLFQ n) → Prop
  | block {s : Sim n (MLFQ n)} : Sim.AtTop scheduler cs s₀ s → s.continues = true →
      (s.beforeTick scheduler cs).running = some i →
      ((s.step scheduler cs).procs i).state = .waiting →
      Blocked i (levelOf (s.beforeTick scheduler cs).procs (s.beforeTick scheduler cs).sched i)
        (s.step scheduler cs)
  | wait {q : Fin 3} {s : Sim n (MLFQ n)} : Blocked i q s → s.continues = true →
      (((s.arrivals scheduler).ioCompletions scheduler).procs i).state = .waiting →
      Blocked i q (s.step scheduler cs)

/-- A preempted process re-enters at the level below the one it ran at. -/
def Demotes (s : Sim n (MLFQ n)) : Prop :=
  let before := (s.arrivals scheduler).ioCompletions scheduler
  let after := before.preempt scheduler
  ∀ i, before.running = some i →
    scheduler.shouldPreempt before.procs before.sched i before.ranTicks = true →
    QueuedAt after.procs after.sched i (below (levelOf before.procs before.sched i))

/-- A process that returns from I/O re-enters at the level it blocked at. -/
def KeepsLevel (s : Sim n (MLFQ n)) : Prop :=
  let after := (s.arrivals scheduler).ioCompletions scheduler
  ∀ i q, Blocked cs s₀ i q s → (after.procs i).state = .ready →
    QueuedAt after.procs after.sched i q

/-- When the clock passes a multiple of the interval, the processes that are queued at
lower levels move to the first queue, unless they get to run. -/
def Boosts (s : Sim n (MLFQ n)) : Prop :=
  let after := s.step scheduler cs
  (∃ m, 0 < m ∧ s.tick ≤ m * s.sched.boostInterval ∧ m * s.sched.boostInterval < after.tick) →
    ∀ q ≠ 0, ∀ i ∈ s.sched.queues q, (after.procs i).state = .ready →
      QueuedAt after.procs after.sched i 0

/-- The rules of the policy are followed throughout the simulation. -/
def FollowsRules : Prop :=
  ∀ s, Sim.AtTop scheduler cs s₀ s → s.continues = true →
    Demotes s ∧ KeepsLevel cs s₀ s ∧ Boosts cs s

/-- All processes are at the first level. -/
structure Flat (qbase : ℕ) (s : MLFQ n) : Prop where
  qbase_eq : s.qbase = qbase
  level_eq : ∀ pid, (s.level pid).getD 0 = 0
  queues_eq : ∀ q ≠ 0, s.queues q = []

variable {cs s₀}

theorem flat_closed (qbase : ℕ) : Sim.SchedClosed (scheduler (n := n)) (Flat qbase) where
  add procs i {t} h := by
    refine ⟨h.qbase_eq, fun pid => ?_, fun q hq => ?_⟩
    · show (Function.update t.level (procs i).pid (some 0) pid).getD 0 = 0
      by_cases hpid : pid = (procs i).pid
      · rw [hpid, Function.update_self]
        rfl
      · rw [Function.update_of_ne hpid]
        exact h.level_eq pid
    · show Function.update t.queues 0 _ q = []
      rw [Function.update_of_ne hq]
      exact h.queues_eq q hq
  pickNext procs {t} h := by
    show Flat qbase (pickNext procs t).2
    unfold pickNext
    split
    · exact h
    · next q _ =>
      refine ⟨h.qbase_eq, h.level_eq, fun q' hq' => ?_⟩
      show Function.update t.queues q _ q' = []
      by_cases hqq : q' = q
      · subst hqq
        rw [Function.update_self, h.queues_eq q' hq']
        rfl
      · rw [Function.update_of_ne hqq]
        exact h.queues_eq q' hq'

theorem flat_initial (qbase boostInterval : ℕ) :
    Flat qbase ({ qbase := qbase, boostInterval := boostInterval } : MLFQ n) :=
  ⟨rfl, fun _ => rfl, fun _ _ => rfl⟩

theorem Flat.levelOf_eq {qbase : ℕ} (h : Flat qbase s) : s.levelOf procs p = 0 := h.level_eq _

/-- With one level, a process is preempted after `quantum_base` ticks. -/
theorem Flat.shouldPreempt_iff {qbase : ℕ} (h : Flat qbase s) (hlt : qbase < 2 ^ 32) (ran : ℕ) :
    scheduler.shouldPreempt procs s p ran = true ↔ qbase ≤ ran := by
  show decide (ran ≥ s.quantumFor procs p) = true ↔ _
  rw [decide_eq_true_iff, quantumFor, h.levelOf_eq, h.qbase_eq]
  show qbase * 1 % 2 ^ 32 ≤ ran ↔ _
  rw [Nat.mul_one, Nat.mod_eq_of_lt hlt]

/-- With one level, no other level is blocked at. -/
theorem Blocked.level_eq {qbase boostInterval : ℕ} {ps : Fin n → Process} {i : Fin n} {q : Fin 3}
    {s : Sim n (MLFQ n)}
    (h : Blocked cs (Sim.start { qbase := qbase, boostInterval := boostInterval } ps) i q s) :
    q = 0 := by
  induction h with
  | block htop _ _ _ =>
    have hflat := (flat_closed qbase).atTop (flat_initial qbase boostInterval) htop
    exact ((flat_closed qbase).beforeTick hflat).levelOf_eq
  | wait _ _ _ ih => exact ih

/-- With one level, a ready process is queued there. -/
theorem Flat.queuedAt {qbase : ℕ} {ps : Fin n → Process} {s : Sim n (MLFQ n)} {W : List (Fin n)}
    (hflat : Flat qbase s.sched) (h : Sim.Inv queued (fun _ _ => True) ps s W) {i : Fin n}
    (hi : (s.procs i).state = .ready) : QueuedAt s.procs s.sched i 0 := by
  refine ⟨?_, hflat.levelOf_eq⟩
  have hcount := h.places.ready i
  rw [if_pos hi, queued, hflat.queues_eq 1 (by decide), hflat.queues_eq 2 (by decide),
    List.append_nil, List.append_nil] at hcount
  exact List.count_pos_iff.mp (by omega)

end MLFQ

/-- **When MLFQ follows its rules.**  `simulate` with MLFQ follows the rules of the policy
exactly if it never preempts: no iteration starts with a running process that has run for
`quantum_base` ticks. -/
theorem mlfq_follows_rules_iff (quantumBase boostInterval : ℕ) (hbase : quantumBase < 2 ^ 32)
    (cs : CsModel) (ps : Fin n → Process) (hvalid : ∀ i, (ps i).Valid) :
    MLFQ.FollowsRules cs
        (Sim.start { qbase := quantumBase, boostInterval := boostInterval } ps) ↔
      ∀ s, Sim.AtTop MLFQ.scheduler cs
          (Sim.start { qbase := quantumBase, boostInterval := boostInterval } ps) s →
        s.continues = true → ∀ i, s.running = some i → s.ranTicks < quantumBase := by
  have hclosed := MLFQ.flat_closed (n := n) quantumBase
  have hflat := fun {s} (hs : Sim.AtTop MLFQ.scheduler cs
      (Sim.start { qbase := quantumBase, boostInterval := boostInterval } ps) s) =>
    hclosed.atTop (MLFQ.flat_initial quantumBase boostInterval) hs
  refine ⟨fun h s hs hcontinues i hrun => ?_, fun h s hs hcontinues => ⟨?_, ?_, ?_⟩⟩
  · by_contra hran
    have hinv := (hs.inv MLFQ.lawful hvalid rfl (fun _ => trivial)).1
    obtain ⟨-, hrun', hran'⟩ := hinv.running_before MLFQ.lawful
    have hbefore := hclosed.ioCompletions (hclosed.arrivals (hflat hs))
    -- the process re-enters at the first level, not at the second
    obtain ⟨hmem, -⟩ := (h s hs hcontinues).1 i (hrun'.trans hrun)
      ((hbefore.shouldPreempt_iff hbase _).mpr (by omega))
    rw [hbefore.levelOf_eq] at hmem
    have hempty := (hclosed.preempt hbefore).queues_eq 1 (by decide)
    exact absurd (hempty ▸ hmem) (List.not_mem_nil)
  · intro i hrun hpreempt
    have hinv := (hs.inv MLFQ.lawful hvalid rfl (fun _ => trivial)).1
    obtain ⟨-, hrun', hran'⟩ := hinv.running_before MLFQ.lawful
    have hbefore := hclosed.ioCompletions (hclosed.arrivals (hflat hs))
    have hle := (hbefore.shouldPreempt_iff hbase _).mp hpreempt
    have hlt := h s hs hcontinues i (hrun'.symm.trans hrun)
    omega
  · intro i q hblocked hready
    have hinv := (hs.inv MLFQ.lawful hvalid rfl (fun _ => trivial)).1
    obtain ⟨hafter, -, -⟩ := hinv.running_before MLFQ.lawful
    rw [hblocked.level_eq]
    exact (hclosed.ioCompletions (hclosed.arrivals (hflat hs))).queuedAt hafter hready
  · intro _ q hq i hi
    rw [(hflat hs).queues_eq q hq] at hi
    simp at hi

/-- Two processes whose bursts end within the quantum. -/
theorem latecomer_follows_rules :
    MLFQ.FollowsRules {} (Sim.start { qbase := 4, boostInterval := 100 } latecomer) := by
  apply (mlfq_follows_rules_iff 4 100 (by decide) {} latecomer latecomer_valid).mpr
  intro s hs _ i hrun
  have hloop : ((Sim.start { qbase := 4, boostInterval := 100 } latecomer).loop MLFQ.scheduler {}
      10).isSome = true := by decide +kernel
  obtain ⟨t, ht⟩ := Option.isSome_iff_exists.mp hloop
  have hall : ∀ x ∈ Sim.tops MLFQ.scheduler {} 10
      (Sim.start { qbase := 4, boostInterval := 100 } latecomer) (fun _ => 0),
      x.1.running ≠ none → x.1.ranTicks < 4 := by decide +kernel
  obtain ⟨w, hw⟩ := hs.timed
  exact hall (s, w) (hw.mem_tops ht) (by simp [hrun])

/-- The process with a burst of four ticks is preempted after two, and is queued at the
first level again. -/
theorem latecomer_breaks_rules :
    ¬ MLFQ.FollowsRules {} (Sim.start { qbase := 2, boostInterval := 100 } latecomer) := by
  intro h
  have htop : Sim.AtTop MLFQ.scheduler {} (Sim.start { qbase := 2, boostInterval := 100 } latecomer)
      (((Sim.start { qbase := 2, boostInterval := 100 } latecomer).step MLFQ.scheduler {}).step
        MLFQ.scheduler {}) :=
    (Sim.AtTop.start.next (by decide +kernel)).next (by decide +kernel)
  have hmem := ((h _ htop (by decide +kernel)).1 0 (by decide +kernel) (by decide +kernel)).1
  revert hmem
  decide +kernel

/-! ## Priorities -/

namespace PriorityScheduler

variable (heap : HeapFns (Fin n)) (cs : CsModel) (s : Sim n (PriorityScheduler n))

/-- The priority of a process, less its bonus for being ready. -/
def agedPriority (w : Fin n → ℕ) (i : Fin n) : ℤ :=
  (s.procs i).priority - (s.readyTicks w i / kAgingInterval : ℕ)

/-- A process that is ready when the iteration comes to its dispatch. -/
def IsReady (i : Fin n) : Prop := ((s.settled (scheduler heap)).procs i).state = .ready

/-- A ready process with the least priority. -/
def LeastPriority (i : Fin n) : Prop :=
  IsReady heap s i ∧ ∀ j, IsReady heap s j → (s.procs i).priority ≤ (s.procs j).priority

/-- A ready process with the least aged priority. -/
def LeastAged (w : Fin n → ℕ) (i : Fin n) : Prop :=
  IsReady heap s i ∧ ∀ j, IsReady heap s j → agedPriority s w i ≤ agedPriority s w j

/-- The process that is dispatched. -/
def picked : Option (Fin n) :=
  if (s.settled (scheduler heap)).running = none then
    ((scheduler heap).pickNext (s.settled (scheduler heap)).procs
      (s.settled (scheduler heap)).sched).1
  else none

/-- Every dispatch picks a ready process with the least aged priority. -/
def Ages (s₀ : Sim n (PriorityScheduler n)) : Prop :=
  ∀ s w, Sim.Timed (scheduler heap) cs s₀ s w → s.continues = true →
    ∀ i, picked heap s = some i → LeastAged heap s w i

variable {heap cs s}

theorem aged_closed : Sim.SchedClosed (scheduler heap) (fun t => t.aged = fun _ => none) where
  add _ _ _ h := h
  pickNext _ _ h := h

theorem effective_of_aged {procs : Fin n → Process} {t : PriorityScheduler n} {i : Fin n}
    (haged : t.aged = fun _ => none) (hlt : (procs i).priority < 2 ^ 31) :
    t.effective procs i = (procs i).priority := by
  have hbmod : Int.bmod (procs i).priority (2 ^ 32) = (procs i).priority :=
    Int.bmod_eq_of_le_mul_two (by omega) (by omega)
  unfold effective
  rw [hbmod, haged]
  exact Int.sub_zero _

/-- **Every dispatch picks a ready process with the least priority.** -/
theorem leastPriority_of_picked {ps : Fin n → Process} (hvalid : ∀ i, (ps i).Valid)
    (hprio : ∀ i, (ps i).priority < 2 ^ 31)
    (htop : Sim.AtTop (scheduler heap) cs (Sim.start {} ps) s) {i : Fin n}
    (hpick : picked heap s = some i) : LeastPriority heap s i := by
  have hinv := (htop.inv (lawful heap) hvalid rfl (fun _ => isHeap_nil _)).1
  have hsettled := (hinv.settled (lawful heap)).1
  have haged : (s.settled (scheduler heap)).sched.aged = fun _ => none :=
    aged_closed.settled (aged_closed.atTop (P := fun t => t.aged = fun _ => none) rfl htop)
  have hsame : ∀ j, ((s.settled (scheduler heap)).procs j).priority = (s.procs j).priority := by
    intro j
    apply Process.priority_of_program
    rw [hsettled.program_eq, hinv.program_eq]
  have heff : ∀ j, (s.settled (scheduler heap)).sched.effective
      (s.settled (scheduler heap)).procs j = (s.procs j).priority := by
    intro j
    rw [effective_of_aged haged, hsame]
    rw [hsame, Process.priority_of_program (hinv.program_eq j)]
    exact hprio j
  unfold picked at hpick
  split_ifs at hpick with hnone
  have htopOf : (popTop heap ((s.settled (scheduler heap)).sched.effective
      (s.settled (scheduler heap)).procs) (s.settled (scheduler heap)).sched.data).1 = some i := hpick
  cases hq : (s.settled (scheduler heap)).sched.data with
  | nil =>
    rw [hq] at htopOf
    simp [popTop] at htopOf
  | cons top q =>
    rw [hq] at htopOf
    obtain rfl : top = i := Option.some.inj htopOf
    have hheap : IsHeap ((s.settled (scheduler heap)).sched.effective
        (s.settled (scheduler heap)).procs) (top :: q) := hq ▸ hsettled.sched_ok
    refine ⟨?_, fun j hj => ?_⟩
    · apply hsettled.places.state_of_mem_queue
      rw [hq]
      exact List.mem_cons_self ..
    · have hmem : j ∈ top :: q := by
        have hcount := hsettled.places.ready j
        have hready : ((s.settled (scheduler heap)).procs j).state = .ready := hj
        rw [if_pos hready, hq] at hcount
        exact List.count_pos_iff.mp (by omega)
      have hle := hheap.head_le hmem
      rw [heff, heff] at hle
      exact Int.ofNat_le.mp hle

/-- A dispatch picks a process. -/
theorem picked_of_dispatches (h : s.Dispatches (scheduler heap)) : ∃ i, picked heap s = some i := by
  unfold picked
  rw [if_pos h.1]
  exact Option.ne_none_iff_exists'.mp h.2

theorem dispatches_of_picked {i : Fin n} (h : picked heap s = some i) :
    s.Dispatches (scheduler heap) := by
  unfold picked at h
  split_ifs at h with hnone
  exact ⟨hnone, by simp [h]⟩

variable (heap s)

/-- No ready process has caught up with one of the least priority: the difference of the
bonuses is at most that of the priorities. -/
def NoCatchUp (w : Fin n → ℕ) : Prop :=
  ∀ i j, LeastPriority heap s i → IsReady heap s j →
    s.readyTicks w j / kAgingInterval + (s.procs i).priority
      ≤ s.readyTicks w i / kAgingInterval + (s.procs j).priority

instance (i : Fin n) : Decidable (IsReady heap s i) := inferInstanceAs (Decidable (_ = _))

instance (i : Fin n) : Decidable (LeastPriority heap s i) :=
  inferInstanceAs (Decidable (_ ∧ ∀ _, _ → _))

instance (w : Fin n → ℕ) : Decidable (NoCatchUp heap s w) :=
  inferInstanceAs (Decidable (∀ _ _, _ → _ → _))

end PriorityScheduler

/-- **When priority scheduling ages.**  Every dispatch picks a ready process with the least
aged priority if no dispatch finds a ready process that has caught up with one of the
least priority; and only then, if no two processes have the same priority. -/
theorem priority_ages (heap : HeapFns (Fin n)) (cs : CsModel) (ps : Fin n → Process)
    (hvalid : ∀ i, (ps i).Valid) (hprio : ∀ i, (ps i).priority < 2 ^ 31) :
    ((∀ s w, Sim.Timed (PriorityScheduler.scheduler heap) cs (Sim.start {} ps) s w →
        s.continues = true → s.Dispatches (PriorityScheduler.scheduler heap) →
        PriorityScheduler.NoCatchUp heap s w) →
      PriorityScheduler.Ages heap cs (Sim.start {} ps)) ∧
    ((∀ i j, (ps i).priority = (ps j).priority → i = j) →
      PriorityScheduler.Ages heap cs (Sim.start {} ps) →
      ∀ s w, Sim.Timed (PriorityScheduler.scheduler heap) cs (Sim.start {} ps) s w →
        s.continues = true → s.Dispatches (PriorityScheduler.scheduler heap) →
        PriorityScheduler.NoCatchUp heap s w) := by
  refine ⟨fun h s w hs hcontinues i hpick => ?_, fun hdistinct h s w hs hcontinues hd i j hi hj => ?_⟩
  · have hleast := PriorityScheduler.leastPriority_of_picked hvalid hprio hs.atTop hpick
    refine ⟨hleast.1, fun j hj => ?_⟩
    have hle := h s w hs hcontinues (PriorityScheduler.dispatches_of_picked hpick) i j hleast hj
    unfold PriorityScheduler.agedPriority
    omega
  · obtain ⟨k, hpick⟩ := PriorityScheduler.picked_of_dispatches hd
    have hleast := PriorityScheduler.leastPriority_of_picked hvalid hprio hs.atTop hpick
    have hinv := (hs.atTop.inv (PriorityScheduler.lawful heap) hvalid rfl (fun _ => isHeap_nil _)).1
    have hsame : ∀ x, (s.procs x).priority = (ps x).priority :=
      fun x => Process.priority_of_program (hinv.program_eq x)
    -- the process that is picked is the only one of the least priority
    obtain rfl : k = i := by
      apply hdistinct k i
      rw [← hsame, ← hsame]
      exact le_antisymm (hleast.2 i hi.1) (hi.2 k hleast.1)
    have hle := (h s w hs hcontinues k hpick).2 j hj
    unfold PriorityScheduler.agedPriority at hle
    omega

/-- A long burst, a short one of a lower priority, and one of the highest priority that
comes when the long burst is over. -/
def overtaken (long : ℕ) : Fin 3 → Process :=
  ![{ pid := 1, priority := 0, bursts := [⟨.cpu, long⟩] },
    { pid := 2, priority := 2, bursts := [⟨.cpu, 1⟩] },
    { pid := 3, priority := 1, arrival := long, bursts := [⟨.cpu, 1⟩] }]

theorem overtaken_valid (long : ℕ) (hpos : 1 ≤ long) (hlt : long < 2 ^ 32) :
    ∀ i, (overtaken long i).Valid
  | 0 => ⟨rfl, by simp [overtaken], by simp [overtaken], by simpa [overtaken], by simpa [overtaken]⟩
  | 1 => ⟨rfl, by simp [overtaken], by simp [overtaken], by simp [overtaken], by simp [overtaken]⟩
  | 2 => ⟨rfl, by simp [overtaken], by simp [overtaken], by simp [overtaken], by simp [overtaken]⟩

/-- After fifteen ticks the second process has aged, and is level with the third one, which
is dispatched. -/
theorem overtaken_ages :
    PriorityScheduler.Ages (.sorting (Fin 3)) {} (Sim.start {} (overtaken 15)) ∧
      ∃ s w, Sim.Timed (PriorityScheduler.scheduler (.sorting (Fin 3))) {}
          (Sim.start {} (overtaken 15)) s w ∧
        PriorityScheduler.picked (.sorting (Fin 3)) s = some 2 ∧
        PriorityScheduler.agedPriority s w 1 = 1 ∧ (s.procs 1).priority = 2 := by
  have hloop : ((Sim.start {} (overtaken 15)).loop
      (PriorityScheduler.scheduler (.sorting (Fin 3))) {} 20).isSome = true := by decide +kernel
  obtain ⟨t, ht⟩ := Option.isSome_iff_exists.mp hloop
  refine ⟨(priority_ages (.sorting (Fin 3)) {} (overtaken 15)
    (overtaken_valid 15 (by decide) (by decide)) (by decide)).1 (fun s w hs _ hd => ?_), ?_⟩
  · have hall : ∀ x ∈ Sim.tops (PriorityScheduler.scheduler (.sorting (Fin 3))) {} 20
        (Sim.start {} (overtaken 15)) (fun _ => 0),
        x.1.Dispatches (PriorityScheduler.scheduler (.sorting (Fin 3))) →
        PriorityScheduler.NoCatchUp (.sorting (Fin 3)) x.1 x.2 := by decide +kernel
    exact hall (s, w) (hs.mem_tops ht) hd
  · have hfound : ∃ x ∈ Sim.tops (PriorityScheduler.scheduler (.sorting (Fin 3))) {} 20
        (Sim.start {} (overtaken 15)) (fun _ => 0),
        PriorityScheduler.picked (.sorting (Fin 3)) x.1 = some 2 ∧
        PriorityScheduler.agedPriority x.1 x.2 1 = 1 ∧ (x.1.procs 1).priority = 2 := by
      decide +kernel
    obtain ⟨x, hx, hpick, haged, hpriority⟩ := hfound
    exact ⟨x.1, x.2, Sim.Timed.start.of_mem_tops hx, hpick, haged, hpriority⟩

/-- After twenty ticks the second process has caught up with the third one, which is
dispatched all the same. -/
theorem overtaken_not_ages :
    ¬ PriorityScheduler.Ages (.sorting (Fin 3)) {} (Sim.start {} (overtaken 20)) := by
  intro h
  have hfound : ∃ x ∈ Sim.tops (PriorityScheduler.scheduler (.sorting (Fin 3))) {} 20
      (Sim.start {} (overtaken 20)) (fun _ => 0), x.1.continues = true ∧
      PriorityScheduler.picked (.sorting (Fin 3)) x.1 = some 2 ∧
      PriorityScheduler.IsReady (.sorting (Fin 3)) x.1 1 ∧
      PriorityScheduler.agedPriority x.1 x.2 1 < PriorityScheduler.agedPriority x.1 x.2 2 := by
    decide +kernel
  obtain ⟨x, hx, hcontinues, hpick, hready, hlt⟩ := hfound
  have htimed := Sim.Timed.start.of_mem_tops hx
  exact absurd ((h x.1 x.2 htimed hcontinues 2 hpick).2 1 hready) (not_le.mpr hlt)

end Memlab
