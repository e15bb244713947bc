/-
# Arrivals in the scheduler simulation

A process is admitted in the iteration whose tick equals its arrival.  A context switch
advances the clock by its whole cost, so that a process that arrives at a tick in between
is missed, and since the clock does not come back it is missed for good
(`Missed.step`).  No process is missed as long as no switch skips an arrival
(`Waited.step`); the two together are `simulate_admits_iff`.

The loop itself always ends (`loop_returns`): an iteration runs a CPU tick, or it does not
dispatch and the clock advances by one.
-/
import MemoryAllocator.SchedSimInvariant

namespace Memlab

namespace Sim

variable {n : ℕ} {σ : Type} {S : IScheduler n σ} {queue : σ → List (Fin n)}
  {Ok : (Fin n → Process) → σ → Prop} {ps : Fin n → Process} {s t : Sim n σ} {W : List (Fin n)}
  {cs : CsModel}

/-! ## The parts of an iteration -/

/-- The iteration dispatches a process. -/
def Dispatches (S : IScheduler n σ) (s : Sim n σ) : Prop :=
  (s.settled S).running = none ∧
    (S.pickNext (s.settled S).procs (s.settled S).sched).1 ≠ none

instance (S : IScheduler n σ) (s : Sim n σ) : Decidable (s.Dispatches S) :=
  inferInstanceAs (Decidable (_ ∧ _))

/-- **What happens to a process before the dispatch**, and what it becomes. -/
inductive Settles (s : Sim n σ) (i : Fin n) (q : Process) : Prop
  | arrives (hnew : (s.procs i).state = .new) (harrival : (s.procs i).arrival = s.tick)
      (heq : q = { s.procs i with state := .ready })
  | waits {ticks : ℕ} (hmem : (i, ticks) ∈ s.waiting) (hticks : ticks ≠ 1) (heq : q = s.procs i)
  | completes (hmem : (i, 1) ∈ s.waiting) (heq : q = (s.procs i).serviced s.tick)
  | preempted (hrun : s.running = some i) (heq : q = { s.procs i with state := .ready })
  | stays (hnew : (s.procs i).state = .new → (s.procs i).arrival ≠ s.tick)
      (hwait : (s.procs i).state ≠ .waiting) (heq : q = s.procs i)

/-- **Every process settles** in one of these ways, if the waiting list has the processes
that wait, once each. -/
theorem settles (S : IScheduler n σ) {queue : List (Fin n)}
    (h : Places s.procs queue s.running (s.waiting.map Prod.fst)) (i : Fin n) :
    Settles s i ((s.settled S).procs i) := by
  have harrived := arrived_arrivals S s
  have hnodup := h.nodup_waiting
  have hmid : ((s.arrivals S).ioCompletions S).procs i
      = (ioLoop S s.waiting (s.arrivals S)).2.procs i := by
    rw [← harrived.waiting_eq]
    rfl
  have hrunning : ((s.arrivals S).ioCompletions S).running = s.running :=
    (running_ioLoop S _ _).trans harrived.running_eq
  have hpreempt : (s.settled S).procs i = ((s.arrivals S).ioCompletions S).procs i ∨
      (s.running = some i ∧ (s.settled S).procs i
        = { ((s.arrivals S).ioCompletions S).procs i with state := .ready }) := by
    unfold settled
    rcases preempt_cases S ((s.arrivals S).ioCompletions S) with ⟨-, heq⟩ | ⟨j, hrun, -, heq⟩
    · exact .inl (by rw [heq])
    · rw [heq]
      by_cases hij : i = j
      · subst hij
        exact .inr ⟨hrunning.symm.trans hrun, Function.update_self ..⟩
      · exact .inl (Function.update_of_ne hij _ _)
  rw [hmid] at hpreempt
  have harrive := harrived.procs_eq i
  by_cases hone : (i, 1) ∈ s.waiting
  · have hwait : (s.procs i).state = .waiting :=
      h.state_of_mem_waiting (List.mem_map.mpr ⟨_, hone, rfl⟩)
    rw [if_neg (by simp [hwait])] at harrive
    rw [procs_ioLoop_of_mem S _ hnodup hone, harrive, harrived.same.tick_eq] at hpreempt
    rcases hpreempt with heq | ⟨hrun, -⟩
    · exact .completes hone heq
    · have hstate := (h.running i).mp hrun
      rw [hwait] at hstate
      simp at hstate
  · rw [procs_ioLoop_of_notMem S _ hone] at hpreempt
    rcases hpreempt with heq | ⟨hrun, heq⟩
    · by_cases hnew : (s.procs i).state = .new ∧ (s.procs i).arrival = s.tick
      · rw [if_pos ⟨List.mem_finRange i, hnew⟩] at harrive
        exact .arrives hnew.1 hnew.2 (heq.trans harrive)
      · rw [if_neg (fun hin => hnew hin.2)] at harrive
        by_cases hwait : (s.procs i).state = .waiting
        · have hcount := h.waiting i
          rw [if_pos hwait] at hcount
          obtain ⟨⟨j, ticks⟩, hmem, rfl⟩ := List.mem_map.mp
            (List.count_pos_iff.mp (by omega : 0 < (s.waiting.map Prod.fst).count i))
          refine .waits hmem ?_ (heq.trans harrive)
          rintro rfl
          exact hone hmem
        · exact .stays (fun hn ha => hnew ⟨hn, ha⟩) hwait (heq.trans harrive)
    · have hstate := (h.running i).mp hrun
      rw [if_neg (by simp [hstate])] at harrive
      exact .preempted hrun (by rw [heq, harrive])

/-- The same processes are new. -/
def SameNew (s t : Sim n σ) : Prop := ∀ i, (t.procs i).state = .new ↔ (s.procs i).state = .new

theorem SameNew.trans {u : Sim n σ} (h : SameNew s t) (h' : SameNew t u) : SameNew s u :=
  fun i => (h' i).trans (h i)

/-- A process that is not new does not become new. -/
theorem SameNew.of_update {i : Fin n} {p : Process}
    (hprocs : t.procs = Function.update s.procs i p) (hi : (s.procs i).state ≠ .new)
    (hp : p.state ≠ .new) : SameNew s t := by
  intro j
  rw [hprocs]
  by_cases hj : j = i
  · subst hj
    rw [Function.update_self]
    exact iff_of_false hp hi
  · rw [Function.update_of_ne hj]

/-- The new processes after the arrivals. -/
theorem new_arrivals (S : IScheduler n σ) (s : Sim n σ) (i : Fin n) :
    ((s.arrivals S).procs i).state = .new ↔
      (s.procs i).state = .new ∧ (s.procs i).arrival ≠ s.tick := by
  rw [(arrived_arrivals S s).procs_eq]
  split_ifs with h
  · exact iff_of_false (by simp) (fun hnew => hnew.2 h.2.2)
  · refine ⟨fun hnew => ⟨hnew, fun harrival => ?_⟩, fun hnew => hnew.1⟩
    exact h ⟨List.mem_finRange i, hnew, harrival⟩

theorem Serviced.sameNew (h : Serviced s t) : SameNew s t := by
  intro i
  by_cases hi : (s.procs i).state = .waiting
  · rcases h.state_of_waiting i hi with heq | hready | hdone
    · rw [heq]
    · simp [hready, hi]
    · simp [hdone, hi]
  · rw [h.procs_eq i hi]

/-- Before the dispatch the clock and the counters stay as they are. -/
theorem Inv.sameClock_settled (hS : S.Lawful queue Ok)
    (h : Inv queue Ok ps s (s.waiting.map Prod.fst)) : SameClock s (s.settled S) := by
  obtain ⟨h₂, hserviced⟩ := h.serviced hS
  exact ((arrived_arrivals S s).same.trans hserviced.same).trans (h₂.preempt hS).2.1

theorem Inv.settled (hS : S.Lawful queue Ok) (h : Inv queue Ok ps s (s.waiting.map Prod.fst)) :
    Inv queue Ok ps (s.settled S) ((s.settled S).waiting.map Prod.fst) ∧
      (s.settled S).tick = s.tick ∧
      ∀ i, ((s.settled S).procs i).state = .new ↔
        (s.procs i).state = .new ∧ (s.procs i).arrival ≠ s.tick := by
  obtain ⟨h₂, hserviced⟩ := h.serviced hS
  obtain ⟨h₃, -, hwaiting, -⟩ := h₂.preempt hS
  have hnew : SameNew ((s.arrivals S).ioCompletions S) (s.settled S) := by
    unfold Sim.settled
    rcases preempt_cases S ((s.arrivals S).ioCompletions S) with ⟨-, heq⟩ | ⟨i, hrun, -, heq⟩
    · rw [heq]
      exact fun _ => Iff.rfl
    · rw [heq]
      exact SameNew.of_update (i := i) rfl (by simp [(h₂.places.running i).mp hrun]) (by simp)
  refine ⟨?_, (h.sameClock_settled hS).tick_eq, fun i => ?_⟩
  · unfold Sim.settled
    rw [hwaiting]
    exact h₃
  · rw [hserviced.sameNew.trans hnew i, new_arrivals]

/-- The clock after a dispatch. -/
theorem Inv.dispatch_tick (hS : S.Lawful queue Ok) (cs : CsModel) (h : Inv queue Ok ps s W)
    (hlt : s.tick < 2 ^ 32) :
    (s.dispatch S cs).tick = (if s.running = none ∧ (S.pickNext s.procs s.sched).1 ≠ none
      then add32 s.tick cs.costTicks else s.tick) ∧ SameNew s (s.dispatch S cs) := by
  rcases dispatch_cases S cs s with ⟨i, hrun, heq⟩ | ⟨hnone, hpick, heq⟩ | ⟨i, hnone, hpick, heq⟩
  · rw [heq, if_neg (by simp [hrun])]
    exact ⟨rfl, fun _ => Iff.rfl⟩
  · rw [heq, if_neg (by simp [hpick])]
    exact ⟨rfl, fun _ => Iff.rfl⟩
  · have hready := h.placed.ready_of_pick hS hpick
    rw [if_pos ⟨hnone, by simp [hpick]⟩]
    constructor
    · rw [heq]
      show (s.chargeSwitch cs).tick = _
      unfold chargeSwitch
      split_ifs with hcost
      · rfl
      · rw [add32, show cs.costTicks = 0 by omega, Nat.add_zero, Nat.mod_eq_of_lt hlt]
    · refine SameNew.of_update (i := i) (p := s.dispatched cs i) ?_ (by simp [hready])
        (by simp [dispatched])
      rw [heq]
      show Function.update (s.chargeSwitch cs).procs i _ = _
      rw [procs_chargeSwitch]

theorem Inv.runTick_tick (h : Inv queue Ok ps s W) :
    s.runTick.tick = s.tick ∧ SameNew s s.runTick := by
  cases hrun : s.running with
  | none =>
    rw [runTick_of_none hrun]
    exact ⟨rfl, fun _ => Iff.rfl⟩
  | some i =>
    have hstate := (h.places.running i).mp hrun
    have hleaves := leaves_runTick hrun hstate
    refine ⟨hleaves.tick_eq, SameNew.of_update hleaves.procs_eq (by simp [hstate]) ?_⟩
    rcases Process.state_afterTick hstate s.tick with hp | hp | hp
    · simp [hp]
    · simp [hp]
    · simp [hp]

/-- **One iteration**: where the clock goes, and which processes stay new. -/
theorem Inv.step_tick (hS : S.Lawful queue Ok) (cs : CsModel)
    (h : Inv queue Ok ps s (s.waiting.map Prod.fst)) (hlt : s.tick < 2 ^ 32) :
    (s.step S cs).tick
        = (s.tick + (if s.Dispatches S then cs.costTicks else 0) + 1) % 2 ^ 32 ∧
      ∀ i, ((s.step S cs).procs i).state = .new ↔
        (s.procs i).state = .new ∧ (s.procs i).arrival ≠ s.tick := by
  obtain ⟨h₁, htick, hnew⟩ := h.settled hS
  obtain ⟨htick', hnew'⟩ := h₁.dispatch_tick hS cs (htick ▸ hlt)
  obtain ⟨htick'', hnew''⟩ := (h.beforeTick hS cs).1.runTick_tick
  constructor
  · rw [step_eq]
    show add32 (s.beforeTick S cs).runTick.tick 1 = _
    rw [htick'']
    show add32 ((s.settled S).dispatch S cs).tick 1 = _
    rw [htick', htick, add32, add32]
    by_cases hd : s.Dispatches S
    · have hpick := hd
      unfold Dispatches at hpick
      rw [if_pos hpick, if_pos hd, Nat.mod_add_mod]
    · have hpick := hd
      unfold Dispatches at hpick
      rw [if_neg hpick, if_neg hd, Nat.add_zero]
  · intro i
    rw [← hnew i, ← hnew' i]
    exact hnew'' i

theorem AtTop.tick_lt {sched : σ} (h : AtTop S cs (Sim.start sched ps) s) : s.tick < 2 ^ 32 := by
  cases h with
  | start => exact Nat.two_pow_pos 32
  | next _ _ => exact add32_lt _ 1

theorem tick_lt_of_continues (h : s.continues = true) : s.tick < 50000 := by
  simp only [continues, Bool.and_eq_true, decide_eq_true_eq] at h
  exact h.2

/-! ## The end of the loop -/

/-- What an iteration lowers. -/
def rank (s : Sim n σ) : ℕ := s.cpuLeft * 50001 + (50000 - s.tick)

/-- Without a running process there was no dispatch. -/
theorem running_of_dispatches (h : s.Dispatches S) : (s.beforeTick S cs).running ≠ none := by
  show ((s.settled S).dispatch S cs).running ≠ none
  rcases dispatch_cases S cs (s.settled S) with ⟨i, hrun, -⟩ | ⟨-, hpick, -⟩ | ⟨i, -, -, heq⟩
  · exact absurd h.1 (by simp [hrun])
  · exact absurd hpick h.2
  · rw [heq]
    simp

/-- **Every iteration lowers the rank.** -/
theorem Inv.rank_step (hS : S.Lawful queue Ok) (cs : CsModel) (h : Inv queue Ok ps s (s.waiting.map Prod.fst))
    (hcontinues : s.continues = true) : (s.step S cs).rank < s.rank := by
  have htick := tick_lt_of_continues hcontinues
  have hnext := (h.step_tick hS cs (by omega)).1
  unfold rank
  rcases h.work_step hS cs with ⟨hnone, -, hleft⟩ | ⟨-, -, hleft⟩
  · rw [if_neg (fun hd => running_of_dispatches hd hnone), Nat.add_zero,
      Nat.mod_eq_of_lt (by omega)] at hnext
    rw [hleft, hnext]
    omega
  · omega

/-- **`simulate` returns.** -/
theorem Inv.loop_returns (hS : S.Lawful queue Ok) (cs : CsModel)
    (h : Inv queue Ok ps s (s.waiting.map Prod.fst)) : ∃ fuel t, s.loop S cs fuel = some t := by
  induction hrank : s.rank using Nat.strong_induction_on generalizing s with
  | _ r ih =>
    by_cases hcontinues : s.continues = true
    · have hless : (s.step S cs).rank < r := by
        rw [← hrank]
        exact h.rank_step hS cs hcontinues
      obtain ⟨fuel, t, hloop⟩ := ih _ hless (h.step hS cs) rfl
      refine ⟨fuel + 1, t, ?_⟩
      rw [loop, if_pos hcontinues]
      exact hloop
    · refine ⟨1, s, ?_⟩
      rw [loop, if_neg hcontinues]

/-! ## Arrivals -/

/-- The context switch of the iteration skips the arrival of a process. -/
def SkipsArrival (S : IScheduler n σ) (cs : CsModel) (s : Sim n σ) : Prop :=
  s.Dispatches S ∧ s.tick + cs.costTicks + 1 < 2 ^ 32 ∧
    ∃ i, (s.procs i).state = .new ∧ s.tick < (s.procs i).arrival ∧
      (s.procs i).arrival ≤ s.tick + cs.costTicks

instance (S : IScheduler n σ) (cs : CsModel) (s : Sim n σ) : Decidable (s.SkipsArrival S cs) :=
  inferInstanceAs (Decidable (_ ∧ _ ∧ _))

/-- The new processes are still to come. -/
def Waited (s : Sim n σ) : Prop := ∀ i, (s.procs i).state = .new → s.tick ≤ (s.procs i).arrival

/-- A process has been missed, and the clock will not come back. -/
def Missed (cs : CsModel) (s : Sim n σ) : Prop :=
  (s.tick < 50000 → cs.costTicks + 50000 < 2 ^ 32) ∧
    ∃ i, (s.procs i).state = .new ∧ (s.procs i).arrival < s.tick

theorem Inv.arrival_step (hS : S.Lawful queue Ok) (h : Inv queue Ok ps s (s.waiting.map Prod.fst))
    (i : Fin n) : ((s.step S cs).procs i).arrival = (s.procs i).arrival := by
  apply Process.arrival_of_program
  rw [(h.step hS cs).program_eq, h.program_eq]

theorem Waited.step (hS : S.Lawful queue Ok) (h : Inv queue Ok ps s (s.waiting.map Prod.fst))
    (hlt : s.tick < 2 ^ 32) (hwaited : Waited s) (hskip : ¬ SkipsArrival S cs s) :
    Waited (s.step S cs) := by
  intro i hnew
  obtain ⟨htick, hiff⟩ := h.step_tick hS cs hlt
  obtain ⟨hold, hne⟩ := (hiff i).mp hnew
  have hle := hwaited i hold
  have hcost := cs.costTicks_lt
  rw [h.arrival_step hS, htick]
  by_cases hd : s.Dispatches S
  · rw [if_pos hd]
    by_cases hwrap : s.tick + cs.costTicks + 1 < 2 ^ 32
    · rw [Nat.mod_eq_of_lt hwrap]
      by_contra hlate
      exact hskip ⟨hd, hwrap, i, hold, by omega, by omega⟩
    · -- the clock goes back
      omega
  · rw [if_neg hd]
    omega

theorem Missed.of_skips (hS : S.Lawful queue Ok)
    (h : Inv queue Ok ps s (s.waiting.map Prod.fst)) (hlt : s.tick < 2 ^ 32)
    (hskip : SkipsArrival S cs s) : Missed cs (s.step S cs) := by
  obtain ⟨hd, hwrap, i, hnew, hgt, hle⟩ := hskip
  obtain ⟨htick, hiff⟩ := h.step_tick hS cs hlt
  rw [if_pos hd, Nat.mod_eq_of_lt hwrap] at htick
  refine ⟨fun hsmall => by omega, i, (hiff i).mpr ⟨hnew, by omega⟩, ?_⟩
  rw [h.arrival_step hS, htick]
  omega

theorem Missed.step (hS : S.Lawful queue Ok) (h : Inv queue Ok ps s (s.waiting.map Prod.fst))
    (hcontinues : s.continues = true) (hmissed : Missed cs s) : Missed cs (s.step S cs) := by
  obtain ⟨hsmall, i, hnew, hlate⟩ := hmissed
  have hlt := tick_lt_of_continues hcontinues
  have hcost := hsmall hlt
  obtain ⟨htick, hiff⟩ := h.step_tick hS cs (by omega)
  refine ⟨fun _ => hcost, i, (hiff i).mpr ⟨hnew, by omega⟩, ?_⟩
  rw [h.arrival_step hS, htick]
  split_ifs <;> omega

/-! ## Runs -/

theorem AtTop.trans {s₀ : Sim n σ} (h : AtTop S cs s₀ s) (h' : AtTop S cs s t) :
    AtTop S cs s₀ t := by
  induction h' with
  | start => exact h
  | next _ hcontinues ih => exact ih.next hcontinues

/-- Every state at the top of a loop that ends is one of its iterates, and from there the
loop ends in the same state. -/
theorem AtTop.loop_eq {s₀ : Sim n σ} (h : AtTop S cs s₀ s) {fuel : ℕ}
    (hloop : s₀.loop S cs fuel = some t) :
    ∃ k fuel', k + fuel' = fuel ∧ (step S cs)^[k] s₀ = s ∧ s.loop S cs fuel' = some t := by
  induction h with
  | start => exact ⟨0, fuel, Nat.zero_add fuel, rfl, hloop⟩
  | next _ hcontinues ih =>
    obtain ⟨k, fuel', hsum, hiterate, hfuel⟩ := ih
    cases fuel' with
    | zero => simp [loop] at hfuel
    | succ fuel' =>
      rw [loop, if_pos hcontinues] at hfuel
      exact ⟨k + 1, fuel', by omega, by rw [Function.iterate_succ_apply', hiterate], hfuel⟩

/-- **A process that is missed is missed in the end.** -/
theorem AtTop.missed_of_skips (hS : S.Lawful queue Ok) (hvalid : ∀ i, (ps i).Valid) {sched : σ}
    (hqueue : queue sched = []) (hok : ∀ procs, Ok procs sched) {u : Sim n σ}
    (h : AtTop S cs (Sim.start sched ps) t) (hcontinues : t.continues = true)
    (hskip : t.SkipsArrival S cs) {fuel : ℕ}
    (hloop : (Sim.start sched ps).loop S cs fuel = some u) : u.Missed cs := by
  have hinv : ∀ {v}, AtTop S cs (Sim.start sched ps) v →
      Inv queue Ok ps v (v.waiting.map Prod.fst) := fun hv => (hv.inv hS hvalid hqueue hok).1
  have hnext := h.next hcontinues
  obtain ⟨-, fuel', -, -, hloop'⟩ := hnext.loop_eq hloop
  have hmissed : ∀ {v}, AtTop S cs (t.step S cs) v → v.Missed cs := by
    intro v hv
    induction hv with
    | start => exact Missed.of_skips hS (hinv h) h.tick_lt hskip
    | next hv hc ih => exact ih.step hS (hinv (hnext.trans hv)) hc
  exact hmissed (AtTop.of_loop .start hloop').1

end Sim

/-- **When `simulate` admits every process.**  For each of the six policies, `simulate`
returns; and no process whose arrival is below `total_ticks` is left new exactly if no
context switch of the run skips the arrival of a process. -/
theorem simulate_admits_iff {n : ℕ} (k : SchedPolicy n) (cs : CsModel) (ps : Fin n → Process)
    (hvalid : ∀ i, (ps i).Valid) :
    (∃ fuel s, (Sim.start k.initial ps).loop k.scheduler cs fuel = some s) ∧
    ∀ fuel s, (Sim.start k.initial ps).loop k.scheduler cs fuel = some s →
      ((∀ i, (s.procs i).state = .new → ¬ (s.procs i).arrival < s.result.totalTicks) ↔
        ∀ t, Sim.AtTop k.scheduler cs (Sim.start k.initial ps) t → t.continues = true →
          ¬ t.SkipsArrival k.scheduler cs) := by
  have hinv : ∀ {t}, Sim.AtTop k.scheduler cs (Sim.start k.initial ps) t →
      Sim.Inv k.queue k.Ok ps t (t.waiting.map Prod.fst) :=
    fun ht => (ht.inv k.lawful hvalid k.queue_initial k.ok_initial).1
  refine ⟨(hinv .start).loop_returns k.lawful cs, fun fuel s hloop => ⟨fun h t ht hcontinues hskip => ?_,
    fun h => ?_⟩⟩
  · obtain ⟨-, i, hnew, hlate⟩ := ht.missed_of_skips k.lawful hvalid k.queue_initial k.ok_initial
      hcontinues hskip hloop
    exact h i hnew hlate
  · -- nobody is missed on the way
    have hwaited : ∀ {u}, Sim.AtTop k.scheduler cs (Sim.start k.initial ps) u → u.Waited := by
      intro u hu
      induction hu with
      | start => exact fun i _ => Nat.zero_le _
      | next hu hc ih => exact ih.step k.lawful (hinv hu) hu.tick_lt (h _ hu hc)
    intro i hnew hlate
    exact absurd (hwaited (Sim.AtTop.of_loop .start hloop).1 i hnew) (not_le.mpr hlate)

/-- One process at tick 0, and one at tick 3. -/
def latecomer : Fin 2 → Process :=
  ![{ pid := 1, bursts := [⟨.cpu, 4⟩] }, { pid := 2, arrival := 3, bursts := [⟨.cpu, 3⟩] }]

theorem latecomer_valid : ∀ i, (latecomer i).Valid
  | 0 => ⟨rfl, by decide, by decide, by decide, by decide⟩
  | 1 => ⟨rfl, by decide, by decide, by decide, by decide⟩

/-- If a switch costs two ticks, the dispatch at tick 0 is over before tick 3, and both
processes run. -/
theorem latecomer_admitted :
    ((Sim.start SchedPolicy.fcfs.initial latecomer).loop SchedPolicy.fcfs.scheduler
      { costTicks := 2 } 20).map (fun s => (s.tick, s.allDone)) = some (11, true) ∧
    ∀ fuel s, (Sim.start SchedPolicy.fcfs.initial latecomer).loop SchedPolicy.fcfs.scheduler
      { costTicks := 2 } fuel = some s →
        ∀ i, (s.procs i).state = .new → ¬ (s.procs i).arrival < s.result.totalTicks := by
  have hends : ((Sim.start SchedPolicy.fcfs.initial latecomer).loop SchedPolicy.fcfs.scheduler
      { costTicks := 2 } 20).map (fun s => (s.tick, s.allDone)) = some (11, true) := by
    decide +kernel
  refine ⟨hends, fun fuel s hloop => ?_⟩
  apply ((simulate_admits_iff .fcfs { costTicks := 2 } latecomer latecomer_valid).2 fuel s hloop).mpr
  intro t ht _
  obtain ⟨u, hu, -⟩ := Option.map_eq_some_iff.mp hends
  obtain ⟨k, fuel', hsum, rfl, -⟩ := ht.loop_eq hu
  have hall : ∀ k < 21, ¬ ((Sim.step SchedPolicy.fcfs.scheduler { costTicks := 2 })^[k]
      (Sim.start SchedPolicy.fcfs.initial latecomer)).SkipsArrival SchedPolicy.fcfs.scheduler
        { costTicks := 2 } := by decide +kernel
  exact hall k (by omega)

/-- If a switch costs five ticks, the dispatch at tick 0 skips tick 3: `simulate` returns
with the second process still new. -/
theorem latecomer_missed :
    ∃ fuel s, (Sim.start SchedPolicy.fcfs.initial latecomer).loop SchedPolicy.fcfs.scheduler
        { costTicks := 5 } fuel = some s ∧
      ¬ ∀ i, (s.procs i).state = .new → ¬ (s.procs i).arrival < s.result.totalTicks := by
  have hinv := Sim.inv_start (n := 2) latecomer_valid SchedPolicy.fcfs.initial
    SchedPolicy.fcfs.queue_initial SchedPolicy.fcfs.ok_initial
  obtain ⟨fuel, s, hloop⟩ := hinv.loop_returns SchedPolicy.fcfs.lawful { costTicks := 5 }
  refine ⟨fuel, s, hloop, fun h => ?_⟩
  have hskip : (Sim.start SchedPolicy.fcfs.initial latecomer).SkipsArrival
      SchedPolicy.fcfs.scheduler { costTicks := 5 } :=
    ⟨by decide +kernel, by decide, 1, rfl, by decide, by decide⟩
  obtain ⟨-, i, hnew, hlate⟩ := Sim.AtTop.start.missed_of_skips SchedPolicy.fcfs.lawful
    latecomer_valid SchedPolicy.fcfs.queue_initial SchedPolicy.fcfs.ok_initial (by decide +kernel)
    hskip hloop
  exact h i hnew hlate

end Memlab
