/-
# Context switches

`simulate` compares the process that it dispatches with the running one, which is always
null then, and it counts a switch where it charges for one.  So every dispatch counts as a
switch if switches cost anything, also one that gives the CPU back to the process that had
it last, and no dispatch counts if they cost nothing.
-/
import MemoryAllocator.SchedSimAdmission

namespace Memlab

/-! ## The dispatches of a run -/

section History

variable {α : Type*} [DecidableEq α]

/-- The changes from one entry of a history to the next; the first entry is one. -/
def switches (h : List α) : ℕ :=
  (if h = [] then 0 else 1) + (h.zip h.tail).countP (fun x => x.1 ≠ x.2)

/-- The entries of a history that repeat the entry before. -/
def repeats (h : List α) : ℕ := (h.zip h.tail).countP (fun x => x.1 = x.2)

/-- Every entry is a change or a repetition. -/
theorem switches_add_repeats (h : List α) : switches h + repeats h = h.length := by
  have hzip := List.length_eq_countP_add_countP (fun x : α × α => decide (x.1 = x.2))
    (l := h.zip h.tail)
  have hlength : (h.zip h.tail).length = h.length - 1 := by
    rw [List.length_zip, List.length_tail]
    omega
  have hne : (h.zip h.tail).countP (fun x => decide (¬ decide (x.1 = x.2) = true))
      = (h.zip h.tail).countP (fun x => x.1 ≠ x.2) := by
    simp
  rw [hlength] at hzip
  unfold switches repeats
  cases h with
  | nil => rfl
  | cons a h =>
    rw [if_neg (List.cons_ne_nil a h)]
    rw [List.length_cons] at hzip ⊢
    omega

end History

namespace Sim

variable {n : ℕ} {σ : Type} {S : IScheduler n σ} {queue : σ → List (Fin n)}
  {Ok : (Fin n → Process) → σ → Prop} {ps : Fin n → Process} {s t : Sim n σ} {cs : CsModel}
  {h : List (Fin n)}

/-- The process that the iteration dispatches. -/
def picks (S : IScheduler n σ) (s : Sim n σ) : Option (Fin n) :=
  if (s.settled S).running = none then
    (S.pickNext (s.settled S).procs (s.settled S).sched).1
  else none

/-- The processes that have been dispatched, one after the other. -/
def recordDispatch (S : IScheduler n σ) (s : Sim n σ) (h : List (Fin n)) : List (Fin n) :=
  h ++ (s.picks S).toList

/-- **An iteration charges for its dispatch** if a dispatch costs anything. -/
theorem Inv.charge_step (hS : S.Lawful queue Ok) (cs : CsModel)
    (hinv : Inv queue Ok ps s (s.waiting.map Prod.fst)) :
    ((s.step S cs).totalCs, (s.step S cs).csOverhead) =
      if 0 < cs.costTicks ∧ s.picks S ≠ none then
        (add32 s.totalCs 1, add32 s.csOverhead cs.costTicks)
      else (s.totalCs, s.csOverhead) := by
  have hsame := hinv.sameClock_settled hS
  obtain ⟨hbefore, -⟩ := hinv.beforeTick hS cs
  have htick : (s.step S cs).totalCs = (s.beforeTick S cs).totalCs ∧
      (s.step S cs).csOverhead = (s.beforeTick S cs).csOverhead := by
    show (s.beforeTick S cs).runTick.totalCs = _ ∧ (s.beforeTick S cs).runTick.csOverhead = _
    cases hrun : (s.beforeTick S cs).running with
    | none =>
      rw [runTick_of_none hrun]
      exact ⟨rfl, rfl⟩
    | some i =>
      have hleaves := leaves_runTick hrun ((hbefore.places.running i).mp hrun)
      exact ⟨hleaves.totalCs_eq, hleaves.csOverhead_eq⟩
  rw [htick.1, htick.2, ← hsame.totalCs_eq, ← hsame.csOverhead_eq]
  show (((s.settled S).dispatch S cs).totalCs, ((s.settled S).dispatch S cs).csOverhead) = _
  unfold picks
  rcases dispatch_cases S cs (s.settled S) with ⟨i, hrun, heq⟩ | ⟨hnone, hpick, heq⟩ |
    ⟨i, hnone, hpick, heq⟩
  · rw [heq, if_neg (by simp [hrun])]
  · rw [heq, if_pos hnone, hpick, if_neg (by simp)]
  · rw [heq, if_pos hnone, hpick]
    show (((s.settled S).chargeSwitch cs).totalCs, ((s.settled S).chargeSwitch cs).csOverhead) = _
    unfold chargeSwitch
    by_cases hcost : 0 < cs.costTicks
    · rw [if_pos hcost, if_pos ⟨hcost, by simp⟩]
    · rw [if_neg hcost, if_neg (fun hand => hcost hand.1)]

/-- What has been charged, for the dispatches so far. -/
structure Charged (cs : CsModel) (s : Sim n σ) (h : List (Fin n)) : Prop where
  totalCs_eq : s.totalCs = (if cs.costTicks = 0 then 0 else h.length) % 2 ^ 32
  csOverhead_eq : s.csOverhead = cs.costTicks * s.totalCs % 2 ^ 32

theorem Charged.step (hS : S.Lawful queue Ok)
    (hinv : Inv queue Ok ps s (s.waiting.map Prod.fst)) (hcharged : Charged cs s h) :
    Charged cs (s.step S cs) (recordDispatch S s h) := by
  obtain ⟨htotal, hoverhead⟩ := hcharged
  have hstep := hinv.charge_step hS cs
  unfold recordDispatch
  cases hpick : s.picks S with
  | none =>
    rw [hpick, if_neg (by simp)] at hstep
    obtain ⟨htotal', hoverhead'⟩ := Prod.mk.inj hstep
    refine ⟨?_, ?_⟩
    · rw [htotal', htotal]
      simp
    · rw [hoverhead', htotal', hoverhead]
  | some i =>
    by_cases hcost : cs.costTicks = 0
    · rw [if_neg (by simp [hcost])] at hstep
      obtain ⟨htotal', hoverhead'⟩ := Prod.mk.inj hstep
      refine ⟨?_, ?_⟩
      · rw [htotal', htotal, if_pos hcost, if_pos hcost]
      · rw [hoverhead', htotal', hoverhead]
    · rw [if_pos ⟨by omega, by simp [hpick]⟩] at hstep
      obtain ⟨htotal', hoverhead'⟩ := Prod.mk.inj hstep
      refine ⟨?_, ?_⟩
      · rw [htotal', htotal, if_neg hcost, if_neg hcost, add32, Nat.mod_add_mod]
        simp
      · rw [hoverhead', htotal', hoverhead, add32, add32, Nat.mod_add_mod, Nat.mul_mod,
          Nat.mod_mod, ← Nat.mul_mod, Nat.mul_add_one]

/-- The charges in every run. -/
theorem charged_of_loopWith (hS : S.Lawful queue Ok) (hvalid : ∀ i, (ps i).Valid) {sched : σ}
    (hqueue : queue sched = []) (hok : ∀ procs, Ok procs sched) {fuel : ℕ}
    (hloop : (start sched ps).loopWith S cs (recordDispatch S) fuel [] = some (s, h)) :
    Charged cs s h := by
  refine (loopWith_invariant (P := fun s h => AtTop S cs (start sched ps) s ∧ Charged cs s h)
    (fun s h hinv hcontinues => ?_) ⟨.start, ?_⟩ hloop).2
  · obtain ⟨htop, hcharged⟩ := hinv
    exact ⟨htop.next hcontinues, hcharged.step hS (htop.inv hS hvalid hqueue hok).1⟩
  · refine ⟨?_, ?_⟩
    · show 0 = _
      split_ifs <;> rfl
    · show 0 = cs.costTicks * 0 % 2 ^ 32
      rw [Nat.mul_zero, Nat.zero_mod]

end Sim

/-- **When context switches are counted right.**  The overhead is always the cost of a
switch times the number of switches.  But that number, a `uint32_t`, is the number of
dispatches of another process than the one that ran last exactly if switches cost
something and no dispatch gives the CPU back to the process that ran last, or switches
cost nothing and there has been none (as `uint32_t`s both). -/
theorem simulate_counts_switches_iff {n : ℕ} (k : SchedPolicy n) (cs : CsModel)
    (ps : Fin n → Process) (hvalid : ∀ i, (ps i).Valid) :
    (∃ fuel s h, (Sim.start k.initial ps).loopWith k.scheduler cs
      (Sim.recordDispatch k.scheduler) fuel [] = some (s, h)) ∧
    ∀ fuel s h, (Sim.start k.initial ps).loopWith k.scheduler cs
        (Sim.recordDispatch k.scheduler) fuel [] = some (s, h) →
      ((s.result.totalCtxSwitches = switches h % 2 ^ 32 ∧
          s.result.totalOverheadTicks = cs.costTicks * s.result.totalCtxSwitches % 2 ^ 32) ↔
        2 ^ 32 ∣ if cs.costTicks = 0 then switches h else repeats h) := by
  refine ⟨Sim.exists_loopWith ((Sim.inv_start hvalid k.initial k.queue_initial
    k.ok_initial).loop_returns k.lawful cs) _, fun fuel s h hloop => ?_⟩
  obtain ⟨htotal, hoverhead⟩ :=
    Sim.charged_of_loopWith k.lawful hvalid k.queue_initial k.ok_initial hloop
  have hsum := switches_add_repeats h
  show (s.totalCs = _ ∧ s.csOverhead = cs.costTicks * s.totalCs % 2 ^ 32) ↔ _
  rw [and_iff_left hoverhead, htotal]
  split_ifs with hcost
  · omega
  · omega

/-- One process with a CPU burst of four ticks. -/
def alone : Fin 1 → Process := ![{ pid := 1, bursts := [⟨.cpu, 4⟩] }]

/-- With round robin and a quantum of two ticks, a process that is alone is preempted and
picked again, which is charged as a switch.  If switches cost nothing, not even its first
dispatch counts. -/
theorem alone_miscounted :
    ¬ (∀ fuel s h, (Sim.start (SchedPolicy.rr 2).initial alone).loopWith
        (SchedPolicy.rr 2).scheduler { costTicks := 1 }
        (Sim.recordDispatch (SchedPolicy.rr 2).scheduler) fuel [] = some (s, h) →
      s.result.totalCtxSwitches = switches h % 2 ^ 32 ∧
        s.result.totalOverheadTicks = 1 * s.result.totalCtxSwitches % 2 ^ 32) ∧
    ¬ (∀ fuel s h, (Sim.start (SchedPolicy.rr 2).initial alone).loopWith
        (SchedPolicy.rr 2).scheduler {}
        (Sim.recordDispatch (SchedPolicy.rr 2).scheduler) fuel [] = some (s, h) →
      s.result.totalCtxSwitches = switches h % 2 ^ 32 ∧
        s.result.totalOverheadTicks = 0 * s.result.totalCtxSwitches % 2 ^ 32) := by
  constructor
  · intro hall
    have hrun : ((Sim.start (SchedPolicy.rr 2).initial alone).loopWith
        (SchedPolicy.rr 2).scheduler { costTicks := 1 }
        (Sim.recordDispatch (SchedPolicy.rr 2).scheduler) 10 []).map
          (fun r => (r.1.totalCs, r.2)) = some (2, [0, 0]) := by decide +kernel
    obtain ⟨⟨s, h⟩, hloop, heq⟩ := Option.map_eq_some_iff.mp hrun
    obtain ⟨htotal, hhist⟩ := Prod.mk.inj heq
    have hcount : s.totalCs = switches h % 2 ^ 32 := (hall 10 s h hloop).1
    dsimp only at htotal hhist
    rw [htotal, hhist] at hcount
    exact absurd hcount (by decide)
  · intro hall
    have hrun : ((Sim.start (SchedPolicy.rr 2).initial alone).loopWith
        (SchedPolicy.rr 2).scheduler {}
        (Sim.recordDispatch (SchedPolicy.rr 2).scheduler) 10 []).map
          (fun r => (r.1.totalCs, r.2)) = some (0, [0, 0]) := by decide +kernel
    obtain ⟨⟨s, h⟩, hloop, heq⟩ := Option.map_eq_some_iff.mp hrun
    obtain ⟨htotal, hhist⟩ := Prod.mk.inj heq
    have hcount : s.totalCs = switches h % 2 ^ 32 := (hall 10 s h hloop).1
    dsimp only at htotal hhist
    rw [htotal, hhist] at hcount
    exact absurd hcount (by decide)

/-- With FCFS the two processes of `shortAndLong` take turns, and three switches count. -/
theorem shortAndLong_counts_switches :
    ((Sim.start SchedPolicy.fcfs.initial shortAndLong).loopWith SchedPolicy.fcfs.scheduler
        { costTicks := 5 } (Sim.recordDispatch SchedPolicy.fcfs.scheduler) 20 []).map
          (fun r => (r.1.totalCs, r.1.csOverhead, r.2)) = some (3, 15, [0, 1, 0]) ∧
    ∀ fuel s h, (Sim.start SchedPolicy.fcfs.initial shortAndLong).loopWith
        SchedPolicy.fcfs.scheduler { costTicks := 5 }
        (Sim.recordDispatch SchedPolicy.fcfs.scheduler) fuel [] = some (s, h) →
      ((s.result.totalCtxSwitches = switches h % 2 ^ 32 ∧
          s.result.totalOverheadTicks = 5 * s.result.totalCtxSwitches % 2 ^ 32) ↔
        2 ^ 32 ∣ if (5 : ℕ) = 0 then switches h else repeats h) :=
  ⟨by decide +kernel,
    (simulate_counts_switches_iff .fcfs { costTicks := 5 } shortAndLong shortAndLong_valid).2⟩

end Memlab
