/-
# One process in one iteration

What an iteration of `simulate` does, whatever the bursts of the processes are.  It moves
single processes from one place to another: a process is in the queue of the policy, on
the CPU, in the waiting list, or nowhere, as its state says (`Places`), and all parts of
an iteration keep it so (`Placed`).

The records of a run that the program does not keep are kept by `loopWith`.
-/
import MemoryAllocator.SchedSim

namespace Memlab

theorem dec32_eq_zero_iff {x : ℕ} : dec32 x = 0 ↔ x = 1 := by
  unfold dec32
  split_ifs with hx
  · simp [hx]
  · omega

namespace Process

/-- The two outcomes of `advanceBurst`. -/
theorem advanceBurst_cases (p : Process) :
    (p.bursts[p.curBurst + 1]? = none ∧
      p.advanceBurst = (false, { p with curBurst := p.curBurst + 1 })) ∨
    ∃ b, p.bursts[p.curBurst + 1]? = some b ∧
      p.advanceBurst = (true, { p with curBurst := p.curBurst + 1, burstRemaining := b.ticks }) := by
  cases hb : p.bursts[p.curBurst + 1]? with
  | none =>
    refine .inl ⟨rfl, ?_⟩
    simp only [advanceBurst, currentBurst, hb]
  | some b =>
    refine .inr ⟨b, rfl, ?_⟩
    simp only [advanceBurst, currentBurst, hb]

/-- The process after a tick on the CPU. -/
def ticked (p : Process) : Process := { p with burstRemaining := dec32 p.burstRemaining }

/-- The process after its I/O burst. -/
def serviced (p : Process) (tick : ℕ) : Process :=
  match p.advanceBurst with
  | (true, q) => { q with state := .ready }
  | (false, q) => { q with state := .terminated, finish := tick }

/-- The running process after its burst, as far as it is a CPU burst. -/
def burstEnded (p : Process) (tick : ℕ) : Process :=
  match p.currentBurst with
  | none => p
  | some b =>
    if b.type = .cpu then
      match p.advanceBurst with
      | (true, q) =>
        match q.currentBurst with
        | none => q
        | some nb => if nb.type = .io then { q with state := .waiting } else q
      | (false, q) => { q with state := .terminated, finish := add32 tick 1 }
    else p

/-- The running process after a tick. -/
def afterTick (p : Process) (tick : ℕ) : Process :=
  if p.ticked.burstRemaining = 0 then p.ticked.burstEnded tick else p.ticked

/-- The burst after the one that the process is at. -/
def nextBurst (p : Process) : Option Burst := p.bursts[p.curBurst + 1]?

variable {p : Process}

theorem serviced_of_none (h : p.nextBurst = none) (tick : ℕ) :
    p.serviced tick
      = { p with curBurst := p.curBurst + 1, state := .terminated, finish := tick } := by
  rcases p.advanceBurst_cases with ⟨-, hadvance⟩ | ⟨b, hb, -⟩
  · rw [serviced, hadvance]
  · exact absurd (h.symm.trans hb) (by simp)

theorem serviced_of_some {b : Burst} (h : p.nextBurst = some b) (tick : ℕ) :
    p.serviced tick
      = { p with curBurst := p.curBurst + 1, burstRemaining := b.ticks, state := .ready } := by
  rcases p.advanceBurst_cases with ⟨hnone, -⟩ | ⟨b', hb', hadvance⟩
  · exact absurd (hnone.symm.trans h) (by simp)
  · obtain rfl : b' = b := Option.some.inj (hb'.symm.trans h)
    rw [serviced, hadvance]

theorem burstEnded_of_none {b : Burst} (hb : p.currentBurst = some b) (hcpu : b.type = .cpu)
    (h : p.nextBurst = none) (tick : ℕ) :
    p.burstEnded tick
      = { p with curBurst := p.curBurst + 1, state := .terminated, finish := add32 tick 1 } := by
  rcases p.advanceBurst_cases with ⟨-, hadvance⟩ | ⟨nb, hnb, -⟩
  · rw [burstEnded, hb]
    dsimp only
    rw [if_pos hcpu, hadvance]
  · exact absurd (h.symm.trans hnb) (by simp)

theorem burstEnded_of_some {b nb : Burst} (hb : p.currentBurst = some b) (hcpu : b.type = .cpu)
    (h : p.nextBurst = some nb) (tick : ℕ) :
    p.burstEnded tick
      = { p with
          curBurst := p.curBurst + 1
          burstRemaining := nb.ticks
          state := if nb.type = .io then .waiting else p.state } := by
  rcases p.advanceBurst_cases with ⟨hnone, -⟩ | ⟨nb', hnb, hadvance⟩
  · exact absurd (hnone.symm.trans h) (by simp)
  · obtain rfl : nb' = nb := Option.some.inj (hnb.symm.trans h)
    have hcurrent : ({ p with
        curBurst := p.curBurst + 1, burstRemaining := nb'.ticks } : Process).currentBurst
          = some nb' := hnb
    rw [burstEnded, hb]
    dsimp only
    rw [if_pos hcpu, hadvance]
    dsimp only
    rw [hcurrent]
    dsimp only
    split_ifs <;> rfl

/-- **A tick of a CPU burst**: the burst goes on, it was the last one, or the process comes
to the next one. -/
theorem afterTick_cases {b : Burst} (hb : p.currentBurst = some b) (hcpu : b.type = .cpu)
    (tick : ℕ) :
    (p.ticked.burstRemaining ≠ 0 ∧ p.afterTick tick = p.ticked) ∨
    (p.ticked.burstRemaining = 0 ∧ p.nextBurst = none ∧ p.afterTick tick
      = { p.ticked with
          curBurst := p.curBurst + 1, state := .terminated, finish := add32 tick 1 }) ∨
    ∃ nb, p.ticked.burstRemaining = 0 ∧ p.nextBurst = some nb ∧ p.afterTick tick
      = { p.ticked with
          curBurst := p.curBurst + 1
          burstRemaining := nb.ticks
          state := if nb.type = .io then .waiting else p.state } := by
  have hcurrent : p.ticked.currentBurst = some b := hb
  unfold afterTick
  by_cases hzero : p.ticked.burstRemaining = 0
  · rw [if_pos hzero]
    cases hnext : p.nextBurst with
    | none => exact .inr (.inl ⟨hzero, rfl, burstEnded_of_none hcurrent hcpu hnext tick⟩)
    | some nb => exact .inr (.inr ⟨nb, hzero, rfl, burstEnded_of_some hcurrent hcpu hnext tick⟩)
  · rw [if_neg hzero]
    exact .inl ⟨hzero, rfl⟩

theorem state_burstEnded (hrun : p.state = .running) (tick : ℕ) :
    (p.burstEnded tick).state = .running ∨ (p.burstEnded tick).state = .waiting ∨
      (p.burstEnded tick).state = .terminated := by
  cases hb : p.currentBurst with
  | none =>
    rw [burstEnded, hb]
    exact .inl hrun
  | some b =>
    by_cases hcpu : b.type = .cpu
    · cases hnext : p.nextBurst with
      | none =>
        rw [burstEnded_of_none hb hcpu hnext]
        exact .inr (.inr rfl)
      | some nb =>
        rw [burstEnded_of_some hb hcpu hnext]
        by_cases hio : nb.type = .io
        · exact .inr (.inl (if_pos hio))
        · exact .inl ((if_neg hio).trans hrun)
    · rw [burstEnded, hb]
      dsimp only
      rw [if_neg hcpu]
      exact .inl hrun

theorem state_afterTick (hrun : p.state = .running) (tick : ℕ) :
    (p.afterTick tick).state = .running ∨ (p.afterTick tick).state = .waiting ∨
      (p.afterTick tick).state = .terminated := by
  unfold afterTick
  split_ifs
  · exact state_burstEnded (p := p.ticked) hrun tick
  · exact .inl hrun

end Process

/-! ## Places -/

section Places

variable {n : ℕ}

/-- Each process is in the place that its state names: once in the queue of the policy,
running, once in the waiting list, or nowhere. -/
structure Places (procs : Fin n → Process) (queue : List (Fin n)) (running : Option (Fin n))
    (waiting : List (Fin n)) : Prop where
  ready : ∀ i, queue.count i = if (procs i).state = .ready then 1 else 0
  running : ∀ i, running = some i ↔ (procs i).state = .running
  waiting : ∀ i, waiting.count i = if (procs i).state = .waiting then 1 else 0

variable {procs : Fin n → Process} {queue queue' : List (Fin n)} {running running' : Option (Fin n)}
  {waiting waiting' : List (Fin n)}

/-- **One process moves**, and the places of the others stay. -/
theorem Places.update (h : Places procs queue running waiting) (i : Fin n) (p : Process)
    (hother : ∀ j ≠ i, queue'.count j = queue.count j ∧ (running' = some j ↔ running = some j) ∧
      waiting'.count j = waiting.count j)
    (hready : queue'.count i = if p.state = .ready then 1 else 0)
    (hrunning : running' = some i ↔ p.state = .running)
    (hwaiting : waiting'.count i = if p.state = .waiting then 1 else 0) :
    Places (Function.update procs i p) queue' running' waiting' := by
  refine ⟨fun j => ?_, fun j => ?_, fun j => ?_⟩
  · by_cases hj : j = i
    · subst hj
      rw [Function.update_self, hready]
    · rw [Function.update_of_ne hj, (hother j hj).1, h.ready]
  · by_cases hj : j = i
    · subst hj
      rw [Function.update_self, hrunning]
    · rw [Function.update_of_ne hj, (hother j hj).2.1, h.running]
  · by_cases hj : j = i
    · subst hj
      rw [Function.update_self, hwaiting]
    · rw [Function.update_of_ne hj, (hother j hj).2.2, h.waiting]

theorem Places.notMem_queue (h : Places procs queue running waiting) {i : Fin n}
    (hi : (procs i).state ≠ .ready) : i ∉ queue := by
  rw [← List.count_eq_zero, h.ready, if_neg hi]

theorem Places.notMem_waiting (h : Places procs queue running waiting) {i : Fin n}
    (hi : (procs i).state ≠ .waiting) : i ∉ waiting := by
  rw [← List.count_eq_zero, h.waiting, if_neg hi]

theorem Places.nodup_waiting (h : Places procs queue running waiting) : waiting.Nodup := by
  rw [List.nodup_iff_count_le_one]
  intro i
  rw [h.waiting]
  split_ifs <;> omega

theorem Places.state_of_mem_queue (h : Places procs queue running waiting) {i : Fin n}
    (hi : i ∈ queue) : (procs i).state = .ready := by
  by_contra hne
  exact h.notMem_queue hne hi

theorem Places.state_of_mem_waiting (h : Places procs queue running waiting) {i : Fin n}
    (hi : i ∈ waiting) : (procs i).state = .waiting := by
  by_contra hne
  exact h.notMem_waiting hne hi

/-- A process leaves the waiting list. -/
theorem Places.count_leave {kept rest : List (Fin n)} {i : Fin n}
    (h : Places procs queue running (kept ++ i :: rest)) (j : Fin n) :
    (kept ++ rest).count j = if j = i then 0 else (kept ++ i :: rest).count j := by
  have hnodup := List.nodup_middle.mp h.nodup_waiting
  by_cases hj : j = i
  · subst hj
    rw [if_pos rfl, List.count_eq_zero]
    exact (List.nodup_cons.mp hnodup).1
  · rw [if_neg hj, List.count_append, List.count_append, List.count_cons_of_ne (Ne.symm hj)]

/-- A process that is not ready becomes ready, and leaves the place where it was. -/
theorem Places.enqueue (h : Places procs queue running waiting) {i : Fin n} {p : Process}
    (hp : p.state = .ready) (hi : (procs i).state ≠ .ready) (hqueue : queue'.Perm (i :: queue))
    (hrunning : ∀ j, running' = some j ↔ running = some j ∧ j ≠ i)
    (hwaiting : ∀ j, waiting'.count j = if j = i then 0 else waiting.count j) :
    Places (Function.update procs i p) queue' running' waiting' := by
  refine h.update i p (fun j hj => ⟨?_, ?_, ?_⟩) ?_ ?_ ?_
  · rw [hqueue.count_eq, List.count_cons_of_ne (Ne.symm hj)]
  · rw [hrunning]
    exact ⟨fun hj => hj.1, fun hrun => ⟨hrun, hj⟩⟩
  · rw [hwaiting, if_neg hj]
  · rw [hqueue.count_eq, List.count_cons_self, List.count_eq_zero.mpr (h.notMem_queue hi),
      if_pos hp]
  · rw [hrunning, hp]
    simp
  · rw [hwaiting, if_pos rfl, hp]
    rfl

end Places

namespace Sim

variable {n : ℕ} {σ : Type} {S : IScheduler n σ} {cs : CsModel} {s t : Sim n σ} {i : Fin n}

/-! ## The parts of an iteration -/

/-- What one round of the arrivals does. -/
theorem arrive_cases (S : IScheduler n σ) (s : Sim n σ) (i : Fin n) :
    (((s.procs i).state ≠ .new ∨ (s.procs i).arrival ≠ s.tick) ∧ s.arrive S i = s) ∨
    ((s.procs i).state = .new ∧ (s.procs i).arrival = s.tick ∧
      s.arrive S i = s.enqueue S i) := by
  unfold arrive
  split_ifs with h
  · exact .inr ⟨h.1, h.2, rfl⟩
  · exact .inl ⟨not_and_or.mp h, rfl⟩

/-- The arrivals leave the waiting list alone. -/
theorem waiting_arrivals (S : IScheduler n σ) (s : Sim n σ) : (s.arrivals S).waiting = s.waiting := by
  have hfold : ∀ (l : List (Fin n)) (t : Sim n σ), (l.foldl (arrive S) t).waiting = t.waiting := by
    intro l
    induction l with
    | nil => exact fun t => rfl
    | cons i l ih =>
      intro t
      rw [List.foldl_cons, ih]
      rcases arrive_cases S t i with ⟨-, heq⟩ | ⟨-, -, heq⟩
      · rw [heq]
      · rw [heq]
        rfl
  exact hfold _ s

/-- What the preemption check does. -/
theorem preempt_cases (S : IScheduler n σ) (s : Sim n σ) :
    ((∀ i, s.running = some i → S.shouldPreempt s.procs s.sched i s.ranTicks = false) ∧
      s.preempt S = s) ∨
    ∃ i, s.running = some i ∧ S.shouldPreempt s.procs s.sched i s.ranTicks = true ∧
      s.preempt S = { s.enqueue S i with running := none, ranTicks := 0 } := by
  unfold Sim.preempt
  cases hrun : s.running with
  | none => exact .inl ⟨fun i hi => by simp at hi, rfl⟩
  | some i =>
    dsimp only
    split_ifs with hpreempt
    · exact .inr ⟨i, rfl, hpreempt, rfl⟩
    · refine .inl ⟨fun j hj => ?_, rfl⟩
      obtain rfl : i = j := Option.some.inj hj
      exact Bool.eq_false_iff.mpr hpreempt

/-- The process that is dispatched. -/
def dispatched (s : Sim n σ) (cs : CsModel) (i : Fin n) : Process :=
  { s.procs i with
    firstRun := if (s.procs i).firstRun = 2 ^ 32 - 1 then (s.chargeSwitch cs).tick
      else (s.procs i).firstRun
    ctxSwitches := add32 (s.procs i).ctxSwitches 1
    state := .running }

/-- What a dispatch does: nothing while a process is running or the queue is empty. -/
theorem dispatch_cases (S : IScheduler n σ) (cs : CsModel) (s : Sim n σ) :
    (∃ i, s.running = some i ∧ s.dispatch S cs = s) ∨
    (s.running = none ∧ (S.pickNext s.procs s.sched).1 = none ∧
      s.dispatch S cs = { s with sched := (S.pickNext s.procs s.sched).2 }) ∨
    ∃ i, s.running = none ∧ (S.pickNext s.procs s.sched).1 = some i ∧
      s.dispatch S cs =
        { (s.chargeSwitch cs).setProc i (s.dispatched cs i) with
          sched := (S.pickNext s.procs s.sched).2
          running := some i
          ranTicks := 0 } := by
  unfold Sim.dispatch
  split
  · next i hi => exact .inl ⟨i, hi, rfl⟩
  · next hnone =>
    split
    · next sched hpick => exact .inr (.inl ⟨hnone, by rw [hpick], by rw [hpick]⟩)
    · next i sched hpick =>
      refine .inr (.inr ⟨i, hnone, by rw [hpick], ?_⟩)
      rw [hpick]
      by_cases hcost : cs.costTicks > 0
      · simp only [dispatched, chargeSwitch, if_pos hcost]
        rfl
      · simp only [dispatched, chargeSwitch, if_neg hcost]
        rfl

theorem procs_chargeSwitch (cs : CsModel) (s : Sim n σ) :
    (s.chargeSwitch cs).procs = s.procs := by
  unfold chargeSwitch
  split_ifs <;> rfl

theorem usefulTicks_chargeSwitch (cs : CsModel) (s : Sim n σ) :
    (s.chargeSwitch cs).usefulTicks = s.usefulTicks := by
  unfold chargeSwitch
  split_ifs <;> rfl

theorem waiting_chargeSwitch (cs : CsModel) (s : Sim n σ) :
    (s.chargeSwitch cs).waiting = s.waiting := by
  unfold chargeSwitch
  split_ifs <;> rfl

/-- The state in which the tick is run. -/
def counted (s : Sim n σ) (i : Fin n) : Sim n σ :=
  { s.setProc i (s.procs i).ticked with
    usefulTicks := add32 s.usefulTicks 1
    ranTicks := add32 s.ranTicks 1 }

theorem runTick_of_none (h : s.running = none) : s.runTick = s := by
  rw [runTick, h]

/-- The state in which an iteration comes to run a tick. -/
def beforeTick (S : IScheduler n σ) (cs : CsModel) (s : Sim n σ) : Sim n σ :=
  (((s.arrivals S).ioCompletions S).preempt S).dispatch S cs

theorem step_eq (S : IScheduler n σ) (cs : CsModel) (s : Sim n σ) :
    s.step S cs =
      { (s.beforeTick S cs).runTick with tick := add32 (s.beforeTick S cs).runTick.tick 1 } := rfl

/-- The state in which an iteration comes to its dispatch. -/
def settled (S : IScheduler n σ) (s : Sim n σ) : Sim n σ :=
  ((s.arrivals S).ioCompletions S).preempt S

/-! ## The waiting list -/

theorem procs_completeIo (S : IScheduler n σ) (s : Sim n σ) (i : Fin n) :
    (s.completeIo S i).procs = Function.update s.procs i ((s.procs i).serviced s.tick) ∧
      (s.completeIo S i).tick = s.tick ∧ (s.completeIo S i).running = s.running := by
  unfold completeIo Process.serviced
  cases (s.procs i).advanceBurst with
  | mk more q =>
    cases more with
    | true =>
      refine ⟨?_, rfl, rfl⟩
      show Function.update (Function.update s.procs i q) i
        { Function.update s.procs i q i with state := .ready } = _
      rw [Function.update_self, Function.update_idem]
    | false => exact ⟨rfl, rfl, rfl⟩

/-- **The loop over the waiting list** takes a tick from each entry, and those that come to
zero leave the list. -/
theorem ioLoop_fst (S : IScheduler n σ) (rest : List (Fin n × ℕ)) (s : Sim n σ) :
    (ioLoop S rest s).1 = (rest.map (fun x => (x.1, dec32 x.2))).filter (fun x => x.2 ≠ 0) := by
  induction rest generalizing s with
  | nil => rfl
  | cons x rest ih =>
    obtain ⟨i, ticks⟩ := x
    rw [ioLoop]
    by_cases hzero : dec32 ticks = 0
    · rw [if_pos hzero, ih, List.map_cons, List.filter_cons, if_neg (by simp [hzero])]
    · rw [if_neg hzero, List.map_cons, List.filter_cons, if_pos (by simp [hzero]), ← ih s]

theorem exists_of_mem_ioLoop {rest : List (Fin n × ℕ)} {ticks : ℕ}
    (h : (i, ticks) ∈ (ioLoop S rest s).1) : ∃ ticks', (i, ticks') ∈ rest ∧ dec32 ticks' = ticks := by
  rw [ioLoop_fst] at h
  obtain ⟨⟨j, ticks'⟩, hmem, heq⟩ := List.mem_map.mp (List.mem_filter.mp h).1
  obtain ⟨rfl, rfl⟩ := Prod.mk.inj heq
  exact ⟨ticks', hmem, rfl⟩

/-- Processes without an entry that comes to zero are left alone. -/
theorem procs_ioLoop_of_notMem (S : IScheduler n σ) {rest : List (Fin n × ℕ)} (s : Sim n σ)
    (hi : (i, 1) ∉ rest) : (ioLoop S rest s).2.procs i = s.procs i := by
  induction rest generalizing s with
  | nil => rfl
  | cons x rest ih =>
    obtain ⟨j, ticks⟩ := x
    have hrest : (i, 1) ∉ rest := fun hmem => hi (List.mem_cons_of_mem _ hmem)
    rw [ioLoop]
    by_cases hzero : dec32 ticks = 0
    · have hne : i ≠ j := by
        rintro rfl
        rw [dec32_eq_zero_iff] at hzero
        exact hi (hzero ▸ List.mem_cons_self ..)
      rw [if_pos hzero, ih _ hrest, (procs_completeIo S s j).1, Function.update_of_ne hne]
    · rw [if_neg hzero]
      exact ih s hrest

theorem running_ioLoop (S : IScheduler n σ) (rest : List (Fin n × ℕ)) (s : Sim n σ) :
    (ioLoop S rest s).2.running = s.running := by
  induction rest generalizing s with
  | nil => rfl
  | cons x rest ih =>
    obtain ⟨j, ticks⟩ := x
    rw [ioLoop]
    split_ifs
    · rw [ih, (procs_completeIo S s j).2.2]
    · exact ih s

/-- A process whose entry comes to zero has completed its I/O. -/
theorem procs_ioLoop_of_mem (S : IScheduler n σ) {rest : List (Fin n × ℕ)} (s : Sim n σ)
    (hnodup : (rest.map Prod.fst).Nodup) (hi : (i, 1) ∈ rest) :
    (ioLoop S rest s).2.procs i = (s.procs i).serviced s.tick := by
  induction rest generalizing s with
  | nil => simp at hi
  | cons x rest ih =>
    obtain ⟨j, ticks⟩ := x
    obtain ⟨hj, hrest⟩ := List.nodup_cons.mp hnodup
    rw [ioLoop]
    rcases List.mem_cons.mp hi with heq | hmem
    · obtain ⟨rfl, rfl⟩ := Prod.mk.inj heq
      have hgone : (i, 1) ∉ rest := fun hmem => hj (List.mem_map.mpr ⟨_, hmem, rfl⟩)
      rw [if_pos (dec32_eq_zero_iff.mpr rfl), procs_ioLoop_of_notMem S _ hgone, (procs_completeIo S s i).1,
        Function.update_self]
    · have hne : i ≠ j := by
        rintro rfl
        exact hj (List.mem_map.mpr ⟨_, hmem, rfl⟩)
      by_cases hzero : dec32 ticks = 0
      · obtain ⟨hprocs, htick, -⟩ := procs_completeIo S s j
        rw [if_pos hzero, ih _ hrest hmem, hprocs, htick, Function.update_of_ne hne]
      · rw [if_neg hzero]
        exact ih s hrest hmem

/-! ## The tick -/

/-- Where the running process goes when it becomes `q`. -/
structure Leaves (s t : Sim n σ) (i : Fin n) (q : Process) : Prop where
  procs_eq : t.procs = Function.update s.procs i q
  running_eq : t.running = if q.state = .running then some i else none
  waiting_eq : t.waiting
    = s.waiting ++ if q.state = .waiting then [(i, q.burstRemaining)] else []
  sched_eq : t.sched = s.sched
  tick_eq : t.tick = s.tick
  csOverhead_eq : t.csOverhead = s.csOverhead
  totalCs_eq : t.totalCs = s.totalCs

/-- The process goes on as it is. -/
theorem Leaves.of_running {q : Process} (hrun : s.running = some i) (hq : q.state = .running) :
    Leaves s (s.setProc i q) i q := by
  refine ⟨rfl, ?_, ?_, rfl, rfl, rfl, rfl⟩
  · rw [if_pos hq]
    exact hrun
  · rw [if_neg (by simp [hq]), List.append_nil]
    rfl

theorem leaves_endBurst (hrun : s.running = some i) (hstate : (s.procs i).state = .running) :
    Leaves s (s.endBurst i) i ((s.procs i).burstEnded s.tick) := by
  have hsame : Leaves s s i (s.procs i) := by
    have hgo := Leaves.of_running (q := s.procs i) hrun hstate
    unfold setProc at hgo
    rwa [Function.update_eq_self] at hgo
  unfold endBurst Process.burstEnded
  cases hb : (s.procs i).currentBurst with
  | none => exact hsame
  | some b =>
    dsimp only
    by_cases hcpu : b.type = .cpu
    · rw [if_pos hcpu, if_pos hcpu]
      rcases (s.procs i).advanceBurst_cases with ⟨-, hadvance⟩ | ⟨nb, hnb, hadvance⟩
      · rw [hadvance]
        exact ⟨rfl, rfl, (List.append_nil _).symm, rfl, rfl, rfl, rfl⟩
      · rw [hadvance]
        dsimp only
        have hcurrent : ({ s.procs i with
            curBurst := (s.procs i).curBurst + 1, burstRemaining := nb.ticks } : Process).currentBurst
              = some nb := hnb
        rw [hcurrent]
        dsimp only
        by_cases hio : nb.type = .io
        · rw [if_pos hio, if_pos hio]
          exact ⟨rfl, rfl, rfl, rfl, rfl, rfl, rfl⟩
        · rw [if_neg hio, if_neg hio]
          exact Leaves.of_running hrun hstate
    · rw [if_neg hcpu, if_neg hcpu]
      exact hsame

/-- **The tick** changes the running process, and that says where it goes. -/
theorem leaves_runTick (hrun : s.running = some i) (hstate : (s.procs i).state = .running) :
    Leaves s s.runTick i ((s.procs i).afterTick s.tick) := by
  have heq : s.runTick
      = if (s.procs i).ticked.burstRemaining = 0 then (s.counted i).endBurst i else s.counted i := by
    rw [runTick, hrun]
    rfl
  have hcounted : (s.counted i).procs i = (s.procs i).ticked := Function.update_self ..
  rw [heq]
  unfold Process.afterTick
  split_ifs with hzero
  · have hend := leaves_endBurst (s := s.counted i) hrun (by rw [hcounted]; exact hstate)
    rw [hcounted] at hend
    refine ⟨hend.procs_eq.trans (Function.update_idem ..), hend.running_eq, hend.waiting_eq,
      hend.sched_eq, hend.tick_eq, hend.csOverhead_eq, hend.totalCs_eq⟩
  · have hgo := Leaves.of_running (q := (s.procs i).ticked) hrun hstate
    exact ⟨hgo.procs_eq, hgo.running_eq, hgo.waiting_eq, rfl, rfl, rfl, rfl⟩

/-! ## The rest of the iteration -/

/-- The dispatch changes the process that it picks. -/
theorem dispatch_proc (S : IScheduler n σ) (cs : CsModel) (s : Sim n σ) (i : Fin n) :
    ((s.dispatch S cs).procs i = s.procs i ∧
      ((s.dispatch S cs).running = some i ↔ s.running = some i)) ∨
    (s.running = none ∧ (S.pickNext s.procs s.sched).1 = some i ∧
      (s.dispatch S cs).running = some i ∧ (s.dispatch S cs).procs i = s.dispatched cs i) := by
  rcases dispatch_cases S cs s with ⟨j, -, heq⟩ | ⟨-, -, heq⟩ | ⟨j, hnone, hpick, heq⟩
  · rw [heq]
    exact .inl ⟨rfl, Iff.rfl⟩
  · rw [heq]
    exact .inl ⟨rfl, Iff.rfl⟩
  · rw [heq]
    by_cases hij : i = j
    · subst hij
      exact .inr ⟨hnone, hpick, rfl, Function.update_self ..⟩
    · refine .inl ⟨?_, iff_of_false (fun h => hij (Option.some.inj h).symm) (by simp [hnone])⟩
      show Function.update (s.chargeSwitch cs).procs j _ i = s.procs i
      rw [Function.update_of_ne hij, procs_chargeSwitch]

/-- The process that runs the tick. -/
theorem step_proc_of_running
    (hstate : ∀ j, (s.beforeTick S cs).running = some j →
      ((s.beforeTick S cs).procs j).state = .running)
    (hrun : (s.beforeTick S cs).running = some i) :
    (s.step S cs).procs i
      = ((s.beforeTick S cs).procs i).afterTick (s.beforeTick S cs).tick := by
  have hleaves := leaves_runTick hrun (hstate i hrun)
  show (s.beforeTick S cs).runTick.procs i = _
  rw [hleaves.procs_eq, Function.update_self]

/-- The other processes, and what they have in the waiting list. -/
theorem step_proc_of_not_running
    (hstate : ∀ j, (s.beforeTick S cs).running = some j →
      ((s.beforeTick S cs).procs j).state = .running)
    (hrun : (s.beforeTick S cs).running ≠ some i) :
    (s.step S cs).procs i = (s.beforeTick S cs).procs i ∧
      ∀ ticks, (i, ticks) ∈ (s.step S cs).waiting → (i, ticks) ∈ (s.beforeTick S cs).waiting := by
  show (s.beforeTick S cs).runTick.procs i = _ ∧
    ∀ ticks, (i, ticks) ∈ (s.beforeTick S cs).runTick.waiting → _
  cases hj : (s.beforeTick S cs).running with
  | none =>
    rw [runTick_of_none hj]
    exact ⟨rfl, fun _ hmem => hmem⟩
  | some j =>
    have hleaves := leaves_runTick hj (hstate j hj)
    have hij : i ≠ j := by
      rintro rfl
      exact hrun hj
    rw [hleaves.procs_eq, hleaves.waiting_eq, Function.update_of_ne hij]
    refine ⟨rfl, fun ticks hmem => ?_⟩
    rcases List.mem_append.mp hmem with hmem | hmem
    · exact hmem
    · split_ifs at hmem
      · exact absurd (Prod.mk.inj (List.mem_singleton.mp hmem)).1 hij
      · simp at hmem

/-! ## Every process has its place -/

section Places

variable {queue : σ → List (Fin n)} {Ok : (Fin n → Process) → σ → Prop} {W W' : List (Fin n)}

/-- The processes are in their places, `W` of them in the waiting list, and the policy is
sound. -/
structure Placed (queue : σ → List (Fin n)) (Ok : (Fin n → Process) → σ → Prop)
    (s : Sim n σ) (W : List (Fin n)) : Prop where
  sched_ok : Ok s.procs s.sched
  places : Places s.procs (queue s.sched) s.running W

/-- The policy is not concerned with a process that is not ready. -/
theorem Placed.ok_update (hS : S.Lawful queue Ok) (h : Placed queue Ok s W)
    (hi : (s.procs i).state ≠ .ready) (p : Process) :
    Ok (Function.update s.procs i p) s.sched := by
  refine hS.congr h.sched_ok (fun j hj => ?_)
  have hne : j ≠ i := by
    rintro rfl
    exact h.places.notMem_queue hi hj
  rw [Function.update_of_ne hne]

/-- A process becomes ready, and leaves the place where it was. -/
theorem Placed.enqueue (hS : S.Lawful queue Ok) (h : Placed queue Ok s W) {p : Process}
    (hprocs : t.procs = Function.update s.procs i p) (hsched : t.sched = S.add t.procs i s.sched)
    (hready : p.state = .ready) (hi : (s.procs i).state ≠ .ready)
    (hrunning : ∀ j, t.running = some j ↔ s.running = some j ∧ j ≠ i)
    (hwaiting : ∀ j, W'.count j = if j = i then 0 else W.count j) : Placed queue Ok t W' := by
  have hok : Ok t.procs s.sched := by
    rw [hprocs]
    exact h.ok_update hS hi p
  refine ⟨?_, ?_⟩
  · rw [hsched]
    exact hS.add_ok hok
  · rw [hprocs]
    refine h.places.enqueue hready hi ?_ hrunning hwaiting
    rw [hsched]
    exact hS.add_perm hok

/-- A process that is in none of the other places. -/
theorem Placed.count_waiting (h : Placed queue Ok s W) (hi : (s.procs i).state ≠ .waiting)
    (j : Fin n) : W.count j = if j = i then 0 else W.count j := by
  split_ifs with hj
  · rw [hj, List.count_eq_zero]
    exact h.places.notMem_waiting hi
  · rfl

theorem Placed.running_ne (h : Placed queue Ok s W) (hi : (s.procs i).state ≠ .running)
    (j : Fin n) : s.running = some j ↔ s.running = some j ∧ j ≠ i := by
  refine ⟨fun hrun => ⟨hrun, ?_⟩, fun hrun => hrun.1⟩
  rintro rfl
  exact hi ((h.places.running j).mp hrun)

theorem Placed.arrive (hS : S.Lawful queue Ok) (h : Placed queue Ok s W) (i : Fin n) :
    Placed queue Ok (s.arrive S i) W := by
  rcases arrive_cases S s i with ⟨-, heq⟩ | ⟨hnew, -, heq⟩
  · rw [heq]
    exact h
  · rw [heq]
    exact h.enqueue hS rfl rfl rfl (by simp [hnew]) (h.running_ne (by simp [hnew]))
      (h.count_waiting (by simp [hnew]))

theorem Placed.arrivals (hS : S.Lawful queue Ok) (h : Placed queue Ok s W) :
    Placed queue Ok (s.arrivals S) W := by
  have hfold : ∀ (l : List (Fin n)) (t : Sim n σ), Placed queue Ok t W →
      Placed queue Ok (l.foldl (Sim.arrive S) t) W := by
    intro l
    induction l with
    | nil => exact fun t ht => ht
    | cons i l ih => exact fun t ht => ih _ (ht.arrive hS i)
  exact hfold _ s h

/-- The end of an I/O burst. -/
theorem Placed.completeIo (hS : S.Lawful queue Ok) (h : Placed queue Ok s W)
    (hi : (s.procs i).state = .waiting) (hW : ∀ j, W'.count j = if j = i then 0 else W.count j) :
    Placed queue Ok (s.completeIo S i) W' := by
  have hrunning := h.running_ne (i := i) (by simp [hi])
  obtain ⟨hprocs, -, hrun⟩ := procs_completeIo S s i
  rcases (s.procs i).advanceBurst_cases with ⟨hnone, hadvance⟩ | ⟨b, hb, hadvance⟩
  · have hsched : (s.completeIo S i).sched = s.sched := by
      rw [Sim.completeIo, hadvance]
      rfl
    rw [Process.serviced_of_none hnone] at hprocs
    refine ⟨?_, ?_⟩
    · rw [hprocs, hsched]
      exact h.ok_update hS (by simp [hi]) _
    · rw [hprocs, hsched, hrun]
      refine h.places.update i _ (fun j hj => ⟨rfl, Iff.rfl, by rw [hW, if_neg hj]⟩) ?_ ?_ ?_
      · exact List.count_eq_zero.mpr (h.places.notMem_queue (by simp [hi]))
      · exact iff_of_false (fun hcon => ((hrunning i).mp hcon).2 rfl) (by simp)
      · rw [hW, if_pos rfl]
        rfl
  · have hsched : (s.completeIo S i).sched = S.add (s.completeIo S i).procs i s.sched := by
      rw [Sim.completeIo, hadvance]
      rfl
    rw [Process.serviced_of_some hb] at hprocs
    refine h.enqueue hS hprocs hsched rfl (by simp [hi]) ?_ hW
    rw [hrun]
    exact hrunning

theorem Placed.ioLoop (hS : S.Lawful queue Ok) {kept : List (Fin n)} {rest : List (Fin n × ℕ)}
    (h : Placed queue Ok s (kept ++ rest.map Prod.fst)) :
    Placed queue Ok (ioLoop S rest s).2 (kept ++ (ioLoop S rest s).1.map Prod.fst) := by
  induction rest generalizing s kept with
  | nil => exact h
  | cons x rest ih =>
    obtain ⟨i, ticks⟩ := x
    have hmem : i ∈ kept ++ ((i, ticks) :: rest).map Prod.fst := by simp
    have hwait := h.places.state_of_mem_waiting hmem
    rw [Sim.ioLoop]
    by_cases hzero : dec32 ticks = 0
    · rw [if_pos hzero]
      -- the process leaves the list
      exact ih (h.completeIo hS hwait h.places.count_leave)
    · rw [if_neg hzero]
      -- the process stays
      have hkept : Placed queue Ok s ((kept ++ [i]) ++ rest.map Prod.fst) := by
        rw [List.append_assoc]
        exact h
      have hrest := ih hkept
      rw [List.append_assoc] at hrest
      exact hrest

theorem Placed.ioCompletions (hS : S.Lawful queue Ok)
    (h : Placed queue Ok s (s.waiting.map Prod.fst)) :
    Placed queue Ok (s.ioCompletions S) ((s.ioCompletions S).waiting.map Prod.fst) := by
  have hnil : Placed queue Ok s ([] ++ s.waiting.map Prod.fst) := h
  have hloop := hnil.ioLoop hS
  exact ⟨hloop.sched_ok, hloop.places⟩

theorem Placed.preempt (hS : S.Lawful queue Ok) (h : Placed queue Ok s W) :
    Placed queue Ok (s.preempt S) W ∧ (s.preempt S).waiting = s.waiting := by
  rcases preempt_cases S s with ⟨-, heq⟩ | ⟨i, hrun, -, heq⟩
  · rw [heq]
    exact ⟨h, rfl⟩
  · have hstate := (h.places.running i).mp hrun
    rw [heq]
    refine ⟨h.enqueue hS rfl rfl rfl (by simp [hstate]) (fun j => ?_)
      (h.count_waiting (by simp [hstate])), rfl⟩
    refine iff_of_false (by simp) (fun hj => hj.2 ?_)
    exact Option.some.inj (hj.1.symm.trans hrun)

theorem Placed.settled (hS : S.Lawful queue Ok)
    (h : Placed queue Ok s (s.waiting.map Prod.fst)) :
    Placed queue Ok (s.settled S) ((s.settled S).waiting.map Prod.fst) := by
  have harrived : Placed queue Ok (s.arrivals S) ((s.arrivals S).waiting.map Prod.fst) := by
    rw [waiting_arrivals]
    exact h.arrivals hS
  obtain ⟨hplaced, hwaiting⟩ := (harrived.ioCompletions hS).preempt hS
  unfold Sim.settled
  rw [hwaiting]
  exact hplaced

/-- The policy picks a process that is ready. -/
theorem Placed.ready_of_pick (hS : S.Lawful queue Ok) (h : Placed queue Ok s W)
    (hpick : (S.pickNext s.procs s.sched).1 = some i) : (s.procs i).state = .ready :=
  h.places.state_of_mem_queue
    ((hS.pick_some h.sched_ok hpick).mem_iff.mpr (List.mem_cons_self ..))

theorem Placed.dispatch (hS : S.Lawful queue Ok) (cs : CsModel) (h : Placed queue Ok s W) :
    Placed queue Ok (s.dispatch S cs) W ∧ (s.dispatch S cs).waiting = s.waiting := by
  rcases dispatch_cases S cs s with ⟨i, -, heq⟩ | ⟨-, hpick, heq⟩ | ⟨i, hnone, hpick, heq⟩
  · rw [heq]
    exact ⟨h, rfl⟩
  · rw [heq]
    obtain ⟨hempty, hempty'⟩ := hS.pick_none h.sched_ok hpick
    refine ⟨⟨hS.pick_ok h.sched_ok, fun i => ?_, h.places.running, h.places.waiting⟩, rfl⟩
    show (queue (S.pickNext s.procs s.sched).2).count i = _
    rw [hempty', ← hempty, h.places.ready]
  · have hperm := hS.pick_some h.sched_ok hpick
    have hready := h.ready_of_pick hS hpick
    have hcount := h.places.ready i
    rw [hperm.count_eq, List.count_cons_self, if_pos hready] at hcount
    have hprocs : (s.dispatch S cs).procs = Function.update s.procs i (s.dispatched cs i) := by
      rw [heq]
      show Function.update (s.chargeSwitch cs).procs i _ = _
      rw [procs_chargeSwitch]
    have hsched : (s.dispatch S cs).sched = (S.pickNext s.procs s.sched).2 := by rw [heq]
    have hrunning : (s.dispatch S cs).running = some i := by rw [heq]
    refine ⟨⟨?_, ?_⟩, ?_⟩
    · rw [hprocs, hsched]
      -- the process has left the queue
      refine hS.congr (hS.pick_ok h.sched_ok) (fun j hj => ?_)
      have hne : j ≠ i := by
        rintro rfl
        have hpos := List.count_pos_iff.mpr hj
        omega
      rw [Function.update_of_ne hne]
    · rw [hprocs, hsched, hrunning]
      refine h.places.update i _ (fun j hj => ⟨?_, ?_, rfl⟩) ?_ ?_ ?_
      · rw [hperm.count_eq, List.count_cons_of_ne (Ne.symm hj)]
      · rw [hnone]
        exact iff_of_false (fun heq => hj (Option.some.inj heq).symm) (by simp)
      · show _ = 0
        omega
      · exact iff_of_true rfl rfl
      · show W.count i = 0
        exact List.count_eq_zero.mpr (h.places.notMem_waiting (by simp [hready]))
    · rw [heq]
      exact waiting_chargeSwitch cs s

/-- The running process goes on, waits, or has terminated. -/
theorem Placed.leave (hS : S.Lawful queue Ok) {q : Process}
    (h : Placed queue Ok s (s.waiting.map Prod.fst)) (hrun : s.running = some i)
    (hleaves : Leaves s t i q)
    (hq : q.state = .running ∨ q.state = .waiting ∨ q.state = .terminated) :
    Placed queue Ok t (t.waiting.map Prod.fst) := by
  have hstate := (h.places.running i).mp hrun
  have hqueue : (queue s.sched).count i = 0 :=
    List.count_eq_zero.mpr (h.places.notMem_queue (by simp [hstate]))
  have hwait : (s.waiting.map Prod.fst).count i = 0 :=
    List.count_eq_zero.mpr (h.places.notMem_waiting (by simp [hstate]))
  have hother : ∀ j ≠ i, s.running ≠ some j := by
    rw [hrun]
    exact fun j hj heq => hj (Option.some.inj heq).symm
  refine ⟨?_, ?_⟩
  · rw [hleaves.procs_eq, hleaves.sched_eq]
    exact h.ok_update hS (by simp [hstate]) q
  · rw [hleaves.procs_eq, hleaves.sched_eq, hleaves.running_eq, hleaves.waiting_eq]
    rcases hq with hq | hq | hq
    · rw [if_pos hq, if_neg (by simp [hq]), List.append_nil]
      refine h.places.update i q (fun j _ => ⟨rfl, by rw [hrun], rfl⟩) ?_ ?_ ?_
      · simp [hqueue, hq]
      · simp [hq]
      · simp [hwait, hq]
    · rw [if_neg (by simp [hq]), if_pos hq]
      refine h.places.update i q (fun j hj => ⟨rfl, ?_, ?_⟩) ?_ ?_ ?_
      · exact iff_of_false (by simp) (hother j hj)
      · simp [List.count_append, Ne.symm hj]
      · simp [hqueue, hq]
      · simp [hq]
      · simp [List.count_append, hwait, hq]
    · rw [if_neg (by simp [hq]), if_neg (by simp [hq]), List.append_nil]
      refine h.places.update i q (fun j hj => ⟨rfl, ?_, rfl⟩) ?_ ?_ ?_
      · exact iff_of_false (by simp) (hother j hj)
      · simp [hqueue, hq]
      · simp [hq]
      · simp [hwait, hq]

theorem Placed.runTick (hS : S.Lawful queue Ok)
    (h : Placed queue Ok s (s.waiting.map Prod.fst)) :
    Placed queue Ok s.runTick (s.runTick.waiting.map Prod.fst) := by
  cases hrun : s.running with
  | none =>
    rw [runTick_of_none hrun]
    exact h
  | some i =>
    have hstate := (h.places.running i).mp hrun
    exact h.leave hS hrun (leaves_runTick hrun hstate) (Process.state_afterTick hstate s.tick)

theorem Placed.beforeTick (hS : S.Lawful queue Ok) (cs : CsModel)
    (h : Placed queue Ok s (s.waiting.map Prod.fst)) :
    Placed queue Ok (s.beforeTick S cs) ((s.beforeTick S cs).waiting.map Prod.fst) := by
  obtain ⟨hplaced, hwaiting⟩ := (h.settled hS).dispatch hS cs
  show Placed queue Ok ((s.settled S).dispatch S cs)
    (((s.settled S).dispatch S cs).waiting.map Prod.fst)
  rw [hwaiting]
  exact hplaced

/-- **An iteration** keeps every process in its place. -/
theorem Placed.step (hS : S.Lawful queue Ok) (cs : CsModel)
    (h : Placed queue Ok s (s.waiting.map Prod.fst)) :
    Placed queue Ok (s.step S cs) ((s.step S cs).waiting.map Prod.fst) := by
  have hrun := (h.beforeTick hS cs).runTick hS
  exact ⟨hrun.sched_ok, hrun.places⟩

theorem placed_start {sched : σ} {ps : Fin n → Process} (hqueue : queue sched = [])
    (hok : ∀ procs, Ok procs sched) : Placed queue Ok (start sched ps) [] := by
  refine ⟨hok _, fun i => ?_, fun i => ?_, fun i => rfl⟩
  · show (queue sched).count i = 0
    rw [hqueue]
    rfl
  · exact iff_of_false (by simp [start]) (by simp [start, Process.reset])

end Places

/-! ## Records of a run -/

/-- The loop with a record that each iteration brings up to date. -/
def loopWith {α : Type} (S : IScheduler n σ) (cs : CsModel) (record : Sim n σ → α → α) :
    ℕ → Sim n σ → α → Option (Sim n σ × α)
  | 0, _, _ => none
  | fuel + 1, s, a =>
    if s.continues then loopWith S cs record fuel (s.step S cs) (record s a) else some (s, a)

variable {α : Type} {record : Sim n σ → α → α}

/-- The record does not change the run. -/
theorem loopWith_fst (fuel : ℕ) (s : Sim n σ) (a : α) :
    (s.loopWith S cs record fuel a).map Prod.fst = s.loop S cs fuel := by
  induction fuel generalizing s a with
  | zero => rfl
  | succ fuel ih =>
    rw [loopWith, loop]
    split_ifs
    · exact ih _ _
    · rfl

/-- **What every iteration keeps holds in the end.** -/
theorem loopWith_invariant {P : Sim n σ → α → Prop}
    (hstep : ∀ s a, P s a → s.continues = true → P (s.step S cs) (record s a)) {fuel : ℕ} {a b : α}
    (h : P s a) (hloop : s.loopWith S cs record fuel a = some (t, b)) : P t b := by
  induction fuel generalizing s a with
  | zero => simp [loopWith] at hloop
  | succ fuel ih =>
    rw [loopWith] at hloop
    split_ifs at hloop with hcontinues
    · exact ih (hstep s a h hcontinues) hloop
    · obtain ⟨rfl, rfl⟩ := Prod.mk.inj (Option.some.inj hloop)
      exact h

/-- The run returns with a record if it returns. -/
theorem exists_loopWith (h : ∃ fuel t, s.loop S cs fuel = some t) (a : α) :
    ∃ fuel t b, s.loopWith S cs record fuel a = some (t, b) := by
  obtain ⟨fuel, t, hloop⟩ := h
  have hfst : (s.loopWith S cs record fuel a).map Prod.fst = s.loop S cs fuel :=
    loopWith_fst fuel s a
  rw [← hfst] at hloop
  obtain ⟨⟨t', b⟩, hsome, -⟩ := Option.map_eq_some_iff.mp hloop
  exact ⟨fuel, t', b, hsome⟩

end Sim

end Memlab
