/-
# Bursts that do not fit

`simulate` looks for I/O only where a CPU burst ends, and it does not look for page faults
at all.  So a process whose first burst is not a CPU burst, or that comes from I/O to a
burst that is not one, is put into the queue of the policy, and one that comes from a CPU
burst to a page fault keeps the CPU.  The burst is run down to zero on the CPU, it does
not end there, and the next tick turns the zero into 2 ^ 32 - 1.

As long as no process comes to such a burst (`BurstsFit`), the running process has a CPU
burst and a tick of it to run (`simulate_runs_cpu_bursts`).  A process that has come to one
never gets past it (`simulate_fits_iff`), so that a run in which all processes terminate
has had none.
-/
import MemoryAllocator.SchedSimAdmission

namespace Memlab

namespace Process

variable {p q : Process}

/-- The process is at a CPU burst. -/
def AtCpuBurst (p : Process) : Prop := ∃ b, p.currentBurst = some b ∧ b.type = .cpu

/-- The burst of a process that is new, or that the CPU is for. -/
structure Fits (p : Process) : Prop where
  ticks_pos : ∀ b ∈ p.bursts, 1 ≤ b.ticks
  new : p.state = .new → p.currentBurst ≠ none ∧ 1 ≤ p.burstRemaining
  cpu : p.state = .ready ∨ p.state = .running → p.AtCpuBurst ∧ 1 ≤ p.burstRemaining

theorem fits_reset (hne : p.bursts ≠ []) (hpos : ∀ b ∈ p.bursts, 1 ≤ b.ticks) : p.reset.Fits := by
  refine ⟨hpos, fun _ => ?_, fun hstate => by simp [reset] at hstate⟩
  obtain ⟨b, rest, hbursts⟩ := List.exists_cons_of_ne_nil hne
  have hb : b ∈ p.bursts := by
    rw [hbursts]
    exact List.mem_cons_self ..
  constructor
  · show p.bursts[0]? ≠ none
    rw [hbursts]
    simp
  · unfold reset
    rw [hbursts]
    exact hpos b hb

/-- The policy and the dispatch leave the bursts alone. -/
theorem Fits.of_cpu (h : p.Fits) (hbursts : q.bursts = p.bursts) (hcur : q.curBurst = p.curBurst)
    (hremaining : q.burstRemaining = p.burstRemaining) (hcpu : p.AtCpuBurst)
    (hpos : 1 ≤ p.burstRemaining) (hnew : q.state ≠ .new) : q.Fits := by
  have hcurrent : q.currentBurst = p.currentBurst := by
    unfold currentBurst
    rw [hbursts, hcur]
  refine ⟨?_, fun hstate => absurd hstate hnew, fun _ => ⟨?_, ?_⟩⟩
  · rw [hbursts]
    exact h.ticks_pos
  · unfold AtCpuBurst
    rw [hcurrent]
    exact hcpu
  · rw [hremaining]
    exact hpos

/-- A process comes to its next burst, which is a CPU burst if the CPU is for it. -/
theorem Fits.of_next (h : p.Fits) {b : Burst} (hb : p.nextBurst = some b)
    (hbursts : q.bursts = p.bursts) (hcur : q.curBurst = p.curBurst + 1)
    (hremaining : q.burstRemaining = b.ticks) (hnew : q.state ≠ .new)
    (hcpu : q.state = .ready ∨ q.state = .running → b.type = .cpu) : q.Fits := by
  have hcurrent : q.currentBurst = some b := by
    unfold currentBurst
    rw [hbursts, hcur]
    exact hb
  refine ⟨?_, fun hstate => absurd hstate hnew, fun hstate => ⟨⟨b, hcurrent, hcpu hstate⟩, ?_⟩⟩
  · rw [hbursts]
    exact h.ticks_pos
  · rw [hremaining]
    exact h.ticks_pos b (List.mem_of_getElem? hb)

/-- A process that has terminated. -/
theorem Fits.of_done (h : p.Fits) (hbursts : q.bursts = p.bursts) (hdone : q.state = .terminated) :
    q.Fits := by
  refine ⟨?_, fun hstate => by simp [hdone] at hstate, fun hstate => by simp [hdone] at hstate⟩
  rw [hbursts]
  exact h.ticks_pos

/-- **The end of an I/O burst** after which no burst comes but a CPU burst. -/
theorem Fits.serviced (h : p.Fits) (hnext : ∀ b ∈ p.nextBurst, b.type = .cpu) (tick : ℕ) :
    (p.serviced tick).Fits := by
  cases hb : p.nextBurst with
  | none =>
    rw [serviced_of_none hb]
    exact h.of_done rfl rfl
  | some b =>
    rw [serviced_of_some hb]
    exact h.of_next hb rfl rfl rfl (by simp) (fun _ => hnext b hb)

/-- **A tick on the CPU**, after which no page fault comes. -/
theorem Fits.afterTick (h : p.Fits) (hrun : p.state = .running)
    (hnext : p.burstRemaining = 1 → ∀ b ∈ p.nextBurst, b.type ≠ .pageFault) (tick : ℕ) :
    (p.afterTick tick).Fits := by
  obtain ⟨⟨b, hb, htype⟩, -⟩ := h.cpu (.inr hrun)
  rcases afterTick_cases hb htype tick with ⟨hmore, heq⟩ | ⟨-, -, heq⟩ | ⟨nb, hzero, hnb, heq⟩
  · rw [heq]
    refine ⟨h.ticks_pos, fun hstate => ?_, fun _ => ⟨⟨b, hb, htype⟩, ?_⟩⟩
    · exact absurd (hrun.symm.trans hstate) (by simp)
    · exact Nat.one_le_iff_ne_zero.mpr hmore
  · rw [heq]
    exact h.of_done rfl rfl
  · have hfault := hnext (dec32_eq_zero_iff.mp hzero) nb hnb
    rw [heq]
    refine h.of_next hnb rfl rfl rfl ?_ (fun hstate => ?_)
    · show (if nb.type = .io then State.waiting else p.state) ≠ .new
      split_ifs
      · simp
      · simp [hrun]
    · -- it keeps the CPU only if it comes to a CPU burst
      replace hstate : (if nb.type = .io then State.waiting else p.state) = .ready ∨
          (if nb.type = .io then State.waiting else p.state) = .running := hstate
      cases hnbtype : nb.type with
      | cpu => rfl
      | io => simp [hnbtype] at hstate
      | pageFault => exact absurd hnbtype hfault

end Process

namespace Sim

variable {n : ℕ} {σ : Type} {S : IScheduler n σ} {queue : σ → List (Fin n)}
  {Ok : (Fin n → Process) → σ → Prop} {ps : Fin n → Process} {s t : Sim n σ} {cs : CsModel}
  {i : Fin n}

/-- **The bursts that processes come to in an iteration fit**: a process that arrives, or
is back from I/O, has a CPU burst to run, and no page fault follows the CPU burst that
ends with the tick. -/
structure BurstsFit (S : IScheduler n σ) (cs : CsModel) (s : Sim n σ) : Prop where
  arrives : ∀ i, (s.procs i).state = .new → (s.procs i).arrival = s.tick →
    ∀ b ∈ (s.procs i).currentBurst, b.type = .cpu
  returns : ∀ i, (i, 1) ∈ s.waiting → ∀ b ∈ (s.procs i).nextBurst, b.type = .cpu
  ends : ∀ i, (s.beforeTick S cs).running = some i →
    ((s.beforeTick S cs).procs i).burstRemaining = 1 →
      ∀ b ∈ ((s.beforeTick S cs).procs i).nextBurst, b.type ≠ .pageFault

instance (S : IScheduler n σ) (cs : CsModel) (s : Sim n σ) : Decidable (s.BurstsFit S cs) :=
  decidable_of_iff
    ((∀ i, (s.procs i).state = .new → (s.procs i).arrival = s.tick →
        ∀ b ∈ (s.procs i).currentBurst, b.type = .cpu) ∧
      (∀ i, (i, 1) ∈ s.waiting → ∀ b ∈ (s.procs i).nextBurst, b.type = .cpu) ∧
      ∀ i, (s.beforeTick S cs).running = some i →
        ((s.beforeTick S cs).procs i).burstRemaining = 1 →
          ∀ b ∈ ((s.beforeTick S cs).procs i).nextBurst, b.type ≠ .pageFault)
    ⟨fun h => ⟨h.1, h.2.1, h.2.2⟩, fun h => ⟨h.arrives, h.returns, h.ends⟩⟩

/-! ## The step -/

/-- A process settles at a burst that fits. -/
theorem Settles.fits {q : Process} (h : Settles s i q)
    (hstate : s.running = some i → (s.procs i).state = .running) (hp : (s.procs i).Fits)
    (harrives : (s.procs i).state = .new → (s.procs i).arrival = s.tick →
      ∀ b ∈ (s.procs i).currentBurst, b.type = .cpu)
    (hreturns : (i, 1) ∈ s.waiting → ∀ b ∈ (s.procs i).nextBurst, b.type = .cpu) : q.Fits := by
  cases h with
  | arrives hnew harrival heq =>
    obtain ⟨hsome, hpos⟩ := hp.new hnew
    obtain ⟨b, hb⟩ := Option.ne_none_iff_exists'.mp hsome
    rw [heq]
    exact hp.of_cpu rfl rfl rfl ⟨b, hb, harrives hnew harrival b hb⟩ hpos (by simp)
  | waits _ _ heq =>
    rw [heq]
    exact hp
  | completes hmem heq =>
    rw [heq]
    exact hp.serviced (hreturns hmem) s.tick
  | preempted hrun heq =>
    obtain ⟨hcpu, hpos⟩ := hp.cpu (.inr (hstate hrun))
    rw [heq]
    exact hp.of_cpu rfl rfl rfl hcpu hpos (by simp)
  | stays _ _ heq =>
    rw [heq]
    exact hp

/-- The process that runs the tick is at a burst that fits. -/
theorem Placed.fits_beforeTick (hS : S.Lawful queue Ok) (cs : CsModel)
    (h : Placed queue Ok s (s.waiting.map Prod.fst)) (hp : (s.procs i).Fits)
    (harrives : (s.procs i).state = .new → (s.procs i).arrival = s.tick →
      ∀ b ∈ (s.procs i).currentBurst, b.type = .cpu)
    (hreturns : (i, 1) ∈ s.waiting → ∀ b ∈ (s.procs i).nextBurst, b.type = .cpu) :
    ((s.beforeTick S cs).procs i).Fits := by
  have hsettled : ((s.settled S).procs i).Fits :=
    (settles S h.places i).fits (h.places.running i).mp hp harrives hreturns
  show (((s.settled S).dispatch S cs).procs i).Fits
  rcases dispatch_proc S cs (s.settled S) i with ⟨heq, -⟩ | ⟨-, hpick, -, heq⟩
  · rw [heq]
    exact hsettled
  · obtain ⟨hcpu, hpos⟩ := hsettled.cpu (.inl ((h.settled hS).ready_of_pick hS hpick))
    rw [heq]
    exact hsettled.of_cpu rfl rfl rfl hcpu hpos (by simp [dispatched])

/-- **An iteration** with bursts that fit. -/
theorem Placed.fits_step (hS : S.Lawful queue Ok)
    (h : Placed queue Ok s (s.waiting.map Prod.fst)) (hp : ∀ i, (s.procs i).Fits)
    (hfit : s.BurstsFit S cs) (i : Fin n) : ((s.step S cs).procs i).Fits := by
  have hbefore := h.fits_beforeTick hS cs (hp i) (hfit.arrives i) (hfit.returns i)
  have hstate := fun j => ((h.beforeTick hS cs).places.running j).mp
  by_cases hrun : (s.beforeTick S cs).running = some i
  · rw [step_proc_of_running hstate hrun]
    exact hbefore.afterTick (hstate i hrun) (hfit.ends i hrun) _
  · rw [(step_proc_of_not_running hstate hrun).1]
    exact hbefore

/-! ## Bursts that do not fit -/

/-- The process is in the queue or has the CPU, at a burst that is not a CPU burst. -/
def Stuck (s : Sim n σ) (i : Fin n) : Prop :=
  ((s.procs i).state = .ready ∨ (s.procs i).state = .running) ∧
    ∃ b, (s.procs i).currentBurst = some b ∧ b.type ≠ .cpu

theorem Stuck.of_procs (h : s.Stuck i)
    (hcurrent : (t.procs i).currentBurst = (s.procs i).currentBurst)
    (hstate : (t.procs i).state = .ready ∨ (t.procs i).state = .running) : t.Stuck i := by
  obtain ⟨-, b, hb, hcpu⟩ := h
  exact ⟨hstate, b, hcurrent.trans hb, hcpu⟩

theorem Stuck.beforeTick (hi : (s.settled S).Stuck i) : (s.beforeTick S cs).Stuck i := by
  show ((s.settled S).dispatch S cs).Stuck i
  rcases dispatch_proc S cs (s.settled S) i with ⟨heq, -⟩ | ⟨-, -, -, heq⟩
  · exact hi.of_procs (by rw [heq]) (by rw [heq]; exact hi.1)
  · exact hi.of_procs (by rw [heq]; rfl) (by rw [heq]; exact .inr rfl)

/-- A burst that is not a CPU burst does not end on the CPU. -/
theorem Placed.stuck_of_beforeTick (hS : S.Lawful queue Ok)
    (h : Placed queue Ok s (s.waiting.map Prod.fst)) (hi : (s.beforeTick S cs).Stuck i) :
    (s.step S cs).Stuck i := by
  have hstate := fun j => ((h.beforeTick hS cs).places.running j).mp
  by_cases hrun : (s.beforeTick S cs).running = some i
  · obtain ⟨b, hb, hcpu⟩ := hi.2
    have hstays : ∀ p : Process, p.currentBurst = some b → ∀ tick,
        (p.afterTick tick).currentBurst = some b ∧ (p.afterTick tick).state = p.state := by
      intro p hp tick
      have hticked : p.ticked.currentBurst = some b := hp
      unfold Process.afterTick Process.burstEnded
      rw [hticked]
      dsimp only
      rw [if_neg hcpu, ite_self]
      exact ⟨hp, rfl⟩
    have hproc := step_proc_of_running hstate hrun
    obtain ⟨hcurrent, hkept⟩ := hstays _ hb (s.beforeTick S cs).tick
    refine ⟨.inr ?_, b, ?_, hcpu⟩
    · rw [hproc, hkept, hstate i hrun]
    · rw [hproc, hcurrent]
  · have hproc := (step_proc_of_not_running hstate hrun).1
    exact hi.of_procs (by rw [hproc]) (by rw [hproc]; exact hi.1)

/-- **A process does not get past a burst that does not fit.** -/
theorem Placed.stuck_step (hS : S.Lawful queue Ok)
    (h : Placed queue Ok s (s.waiting.map Prod.fst)) (hi : s.Stuck i) : (s.step S cs).Stuck i := by
  refine h.stuck_of_beforeTick hS (Stuck.beforeTick ?_)
  cases settles S h.places i with
  | arrives hnew =>
    have hstate := hi.1
    simp [hnew] at hstate
  | waits hmem _ heq => exact hi.of_procs (by rw [heq]) (by rw [heq]; exact hi.1)
  | completes hmem =>
    have hwait := h.places.state_of_mem_waiting (List.mem_map.mpr ⟨_, hmem, rfl⟩)
    have hstate := hi.1
    simp [hwait] at hstate
  | preempted _ heq => exact hi.of_procs (by rw [heq]; rfl) (by rw [heq]; exact .inl rfl)
  | stays _ _ heq => exact hi.of_procs (by rw [heq]) (by rw [heq]; exact hi.1)

/-- A process that arrives in the iteration. -/
theorem Placed.settled_of_arrives (h : Placed queue Ok s (s.waiting.map Prod.fst))
    (hnew : (s.procs i).state = .new) (harrival : (s.procs i).arrival = s.tick) :
    (s.settled S).procs i = { s.procs i with state := .ready } := by
  have hwait : ∀ ticks, (i, ticks) ∉ s.waiting := by
    intro ticks hmem
    have hstate := h.places.state_of_mem_waiting (List.mem_map.mpr ⟨_, hmem, rfl⟩)
    exact absurd (hnew.symm.trans hstate) (by simp)
  cases settles S h.places i with
  | arrives _ _ heq => exact heq
  | waits hmem => exact absurd hmem (hwait _)
  | completes hmem => exact absurd hmem (hwait _)
  | preempted hrun =>
    have hstate := (h.places.running i).mp hrun
    exact absurd (hnew.symm.trans hstate) (by simp)
  | stays hother => exact absurd harrival (hother hnew)

/-- A process whose I/O burst ends in the iteration. -/
theorem Placed.settled_of_completes (h : Placed queue Ok s (s.waiting.map Prod.fst))
    (hmem : (i, 1) ∈ s.waiting) : (s.settled S).procs i = (s.procs i).serviced s.tick := by
  have hstate := h.places.state_of_mem_waiting (List.mem_map.mpr ⟨_, hmem, rfl⟩)
  cases settles S h.places i with
  | arrives hnew => exact absurd (hnew.symm.trans hstate) (by simp)
  | waits hmem' hticks =>
    have heq := List.inj_on_of_nodup_map h.places.nodup_waiting hmem' hmem rfl
    exact absurd (Prod.mk.inj heq).2 hticks
  | completes _ heq => exact heq
  | preempted hrun =>
    have hrunning := (h.places.running i).mp hrun
    exact absurd (hrunning.symm.trans hstate) (by simp)
  | stays _ hwait => exact absurd hstate hwait

/-- **An iteration with a burst that does not fit** leaves a process at such a burst. -/
theorem Placed.stuck_of_not_fit (hS : S.Lawful queue Ok)
    (h : Placed queue Ok s (s.waiting.map Prod.fst)) (hp : ∀ i, (s.procs i).Fits)
    (hfit : ¬ s.BurstsFit S cs) : ∃ i, (s.step S cs).Stuck i := by
  by_contra hnone
  have hbefore : ∀ i, ¬ (s.beforeTick S cs).Stuck i :=
    fun i hi => hnone ⟨i, h.stuck_of_beforeTick hS hi⟩
  have hsettled : ∀ i, ¬ (s.settled S).Stuck i := fun i hi => hbefore i hi.beforeTick
  have harrives : ∀ i, (s.procs i).state = .new → (s.procs i).arrival = s.tick →
      ∀ b ∈ (s.procs i).currentBurst, b.type = .cpu := by
    intro i hnew harrival b hb
    by_contra hcpu
    have hproc := h.settled_of_arrives (S := S) hnew harrival
    exact hsettled i ⟨.inl (by rw [hproc]), b, by rw [hproc]; exact hb, hcpu⟩
  have hreturns : ∀ i, (i, 1) ∈ s.waiting → ∀ b ∈ (s.procs i).nextBurst, b.type = .cpu := by
    intro i hmem b hb
    by_contra hcpu
    have hproc := h.settled_of_completes (S := S) hmem
    rw [Process.serviced_of_some hb] at hproc
    exact hsettled i ⟨.inl (by rw [hproc]), b, by rw [hproc]; exact hb, hcpu⟩
  refine hfit ⟨harrives, hreturns, fun i hrun hone b hb hfault => ?_⟩
  -- the page fault follows a CPU burst
  have hstate := fun j => ((h.beforeTick hS cs).places.running j).mp
  have hproc := step_proc_of_running hstate hrun
  obtain ⟨⟨b', hb', hcpu⟩, -⟩ :=
    (h.fits_beforeTick hS cs (hp i) (harrives i) (hreturns i)).cpu (.inr (hstate i hrun))
  have hzero : ((s.beforeTick S cs).procs i).ticked.burstRemaining = 0 := by
    show dec32 _ = 0
    rw [hone]
    rfl
  rw [Process.afterTick, if_pos hzero,
    Process.burstEnded_of_some (p := Process.ticked _) hb' hcpu hb] at hproc
  refine hnone ⟨i, .inr ?_, b, ?_, by simp [hfault]⟩
  · rw [hproc]
    show (if b.type = .io then State.waiting else ((s.beforeTick S cs).procs i).state) = .running
    rw [if_neg (by simp [hfault]), hstate i hrun]
  · rw [hproc]
    exact hb

/-! ## The run -/

/-- The tops of the loop that are reached by iterations that all meet a condition. -/
inductive AtTopWhile (S : IScheduler n σ) (cs : CsModel) (C : Sim n σ → Prop) (s₀ : Sim n σ) :
    Sim n σ → Prop
  | start : AtTopWhile S cs C s₀ s₀
  | next {s : Sim n σ} : AtTopWhile S cs C s₀ s → s.continues = true → C s →
      AtTopWhile S cs C s₀ (s.step S cs)

/-- As long as the bursts fit, every process is in its place, at a burst that fits. -/
theorem AtTopWhile.fits (hS : S.Lawful queue Ok) {sched : σ} (hqueue : queue sched = [])
    (hok : ∀ procs, Ok procs sched) (hps : ∀ i, (ps i).reset.Fits)
    (h : AtTopWhile S cs (BurstsFit S cs) (Sim.start sched ps) s) :
    Placed queue Ok s (s.waiting.map Prod.fst) ∧ ∀ i, (s.procs i).Fits := by
  induction h with
  | start => exact ⟨placed_start hqueue hok, hps⟩
  | next _ _ hfit ih => exact ⟨ih.1.step hS cs, ih.1.fits_step hS ih.2 hfit⟩

/-- **Either all bursts have fitted so far, or a process has come to one that does not**,
where it still is. -/
theorem AtTop.fits_or_stuck (hS : S.Lawful queue Ok) {sched : σ} (hqueue : queue sched = [])
    (hok : ∀ procs, Ok procs sched) (hps : ∀ i, (ps i).reset.Fits)
    (h : AtTop S cs (Sim.start sched ps) s) :
    Placed queue Ok s (s.waiting.map Prod.fst) ∧
      (AtTopWhile S cs (BurstsFit S cs) (Sim.start sched ps) s ∨ ∃ i, s.Stuck i) := by
  induction h with
  | start => exact ⟨placed_start hqueue hok, .inl .start⟩
  | @next s _ hcontinues ih =>
    obtain ⟨hplaced, hfits | ⟨i, hi⟩⟩ := ih
    · refine ⟨hplaced.step hS cs, ?_⟩
      by_cases hfit : s.BurstsFit S cs
      · exact .inl (hfits.next hcontinues hfit)
      · exact .inr (hplaced.stuck_of_not_fit hS (hfits.fits hS hqueue hok hps).2 hfit)
    · exact ⟨hplaced.step hS cs, .inr ⟨i, hplaced.stuck_step hS hi⟩⟩

/-- The running process, if there is one, is at a CPU burst. -/
def RunsCpuBurst (s : Sim n σ) : Prop := ∀ i, s.running = some i → (s.procs i).AtCpuBurst

/-- The running process, if there is one, has a tick of its burst left. -/
def HasTickLeft (s : Sim n σ) : Prop := ∀ i, s.running = some i → (s.procs i).burstRemaining ≠ 0

end Sim

/-- **As long as the bursts fit, the CPU runs CPU bursts.**  At the top of the loop and when
the tick is run, a process that has the CPU is at a CPU burst, and no tick is taken from a
burst that has none left. -/
theorem simulate_runs_cpu_bursts {n : ℕ} (k : SchedPolicy n) (cs : CsModel)
    (ps : Fin n → Process) (hne : ∀ i, (ps i).bursts ≠ [])
    (hpos : ∀ i, ∀ b ∈ (ps i).bursts, 1 ≤ b.ticks) {s : Sim n k.State}
    (hrun : Sim.AtTopWhile k.scheduler cs (Sim.BurstsFit k.scheduler cs)
      (Sim.start k.initial ps) s) :
    s.RunsCpuBurst ∧
      (s.continues = true → s.BurstsFit k.scheduler cs →
        (s.beforeTick k.scheduler cs).RunsCpuBurst ∧ (s.beforeTick k.scheduler cs).HasTickLeft) := by
  obtain ⟨hplaced, hfits⟩ := hrun.fits k.lawful k.queue_initial k.ok_initial
    (fun i => Process.fits_reset (hne i) (hpos i))
  refine ⟨fun i hi => ?_, fun _ hfit => ?_⟩
  · exact ((hfits i).cpu (.inr ((hplaced.places.running i).mp hi))).1
  · have hbefore := hplaced.beforeTick k.lawful cs
    have hcpu : ∀ i, (s.beforeTick k.scheduler cs).running = some i →
        ((s.beforeTick k.scheduler cs).procs i).AtCpuBurst ∧
          1 ≤ ((s.beforeTick k.scheduler cs).procs i).burstRemaining := by
      intro i hi
      have hfits' := hplaced.fits_beforeTick k.lawful cs (hfits i) (hfit.arrives i) (hfit.returns i)
      exact hfits'.cpu (.inr ((hbefore.places.running i).mp hi))
    refine ⟨fun i hi => (hcpu i hi).1, fun i hi => ?_⟩
    exact Nat.one_le_iff_ne_zero.mp (hcpu i hi).2

/-- A process whose page fault comes after a CPU burst. -/
def faulting : Fin 1 → Process := ![{ pid := 1, bursts := [⟨.cpu, 1⟩, ⟨.pageFault, 1⟩] }]

/-- After one tick it has the CPU with its page fault, and the third tick is taken from a
burst that has none left. -/
theorem faulting_wraps :
    ¬ (∀ s, Sim.AtTop SchedPolicy.fcfs.scheduler {}
        (Sim.start SchedPolicy.fcfs.initial faulting) s → s.RunsCpuBurst) ∧
    ¬ (∀ s, Sim.AtTop SchedPolicy.fcfs.scheduler {}
        (Sim.start SchedPolicy.fcfs.initial faulting) s →
      s.continues = true → (s.beforeTick SchedPolicy.fcfs.scheduler {}).HasTickLeft) := by
  constructor
  · intro hall
    obtain ⟨b, hb, hcpu⟩ := hall _ (.next .start (by decide +kernel)) 0 (by decide +kernel)
    have hfault : (((Sim.start SchedPolicy.fcfs.initial faulting).step SchedPolicy.fcfs.scheduler
        {}).procs 0).currentBurst.map Burst.type = some .pageFault := by decide +kernel
    rw [hb, Option.map_some, hcpu] at hfault
    exact absurd hfault (by simp)
  · intro hall
    exact hall _ (.next (.next .start (by decide +kernel)) (by decide +kernel)) (by decide +kernel)
      0 (by decide +kernel) (by decide +kernel)

/-- In the third iteration of `shortAndLong` the I/O of one process is over while the other
process has the CPU. -/
theorem shortAndLong_runs_cpu_bursts :
    ∃ s : Sim 2 (SchedPolicy.State .fcfs), s.tick = 2 ∧ s.running = some 1 ∧ s.waiting = [(0, 1)] ∧
      s.RunsCpuBurst ∧
      (s.continues = true → s.BurstsFit SchedPolicy.fcfs.scheduler {} →
        (s.beforeTick SchedPolicy.fcfs.scheduler {}).RunsCpuBurst ∧
          (s.beforeTick SchedPolicy.fcfs.scheduler {}).HasTickLeft) := by
  refine ⟨_, ?_, ?_, ?_, simulate_runs_cpu_bursts .fcfs {} shortAndLong (by decide) (by decide)
    (.next (.next .start ?_ ?_) ?_ ?_)⟩
  all_goals decide +kernel

/-- **Exactly if the bursts fit, no process is stuck.** -/
theorem simulate_fits_iff {n : ℕ} (k : SchedPolicy n) (cs : CsModel) (ps : Fin n → Process)
    (hne : ∀ i, (ps i).bursts ≠ []) (hpos : ∀ i, ∀ b ∈ (ps i).bursts, 1 ≤ b.ticks)
    {s : Sim n k.State} (hrun : Sim.AtTop k.scheduler cs (Sim.start k.initial ps) s) :
    Sim.AtTopWhile k.scheduler cs (Sim.BurstsFit k.scheduler cs) (Sim.start k.initial ps) s ↔
      ∀ i, ¬ s.Stuck i := by
  have hreset := fun i => Process.fits_reset (hne i) (hpos i)
  refine ⟨fun hfits i hi => ?_, fun hnone => ?_⟩
  · obtain ⟨hstate, b, hb, hcpu⟩ := hi
    obtain ⟨⟨b', hb', hcpu'⟩, -⟩ :=
      ((hfits.fits k.lawful k.queue_initial k.ok_initial hreset).2 i).cpu hstate
    obtain rfl : b' = b := Option.some.inj (hb'.symm.trans hb)
    exact hcpu hcpu'
  · obtain ⟨-, hfits | ⟨i, hi⟩⟩ :=
      hrun.fits_or_stuck k.lawful k.queue_initial k.ok_initial hreset
    · exact hfits
    · exact absurd hi (hnone i)

/-- **If all processes have terminated, all bursts have fitted.** -/
theorem simulate_done_fits {n : ℕ} (k : SchedPolicy n) (cs : CsModel) (ps : Fin n → Process)
    (hne : ∀ i, (ps i).bursts ≠ []) (hpos : ∀ i, ∀ b ∈ (ps i).bursts, 1 ≤ b.ticks)
    {s : Sim n k.State} (hrun : Sim.AtTop k.scheduler cs (Sim.start k.initial ps) s)
    (hdone : ∀ i, (s.procs i).state = .terminated) :
    Sim.AtTopWhile k.scheduler cs (Sim.BurstsFit k.scheduler cs) (Sim.start k.initial ps) s := by
  refine (simulate_fits_iff k cs ps hne hpos hrun).mpr (fun i hi => ?_)
  have hstate := hi.1
  simp [hdone i] at hstate

/-- The bursts of a process that starts with a CPU burst and has no page faults and no two
I/O bursts in a row fit. -/
theorem simulate_valid_fits {n : ℕ} (k : SchedPolicy n) (cs : CsModel) (ps : Fin n → Process)
    (hvalid : ∀ i, (ps i).Valid) {s : Sim n k.State}
    (hrun : Sim.AtTop k.scheduler cs (Sim.start k.initial ps) s) :
    Sim.AtTopWhile k.scheduler cs (Sim.BurstsFit k.scheduler cs) (Sim.start k.initial ps) s := by
  have hne : ∀ i, (ps i).bursts ≠ [] := by
    intro i hnil
    have hfirst := (hvalid i).first_cpu
    simp [hnil] at hfirst
  refine (simulate_fits_iff k cs ps hne (fun i => (hvalid i).ticks_pos) hrun).mpr (fun i hi => ?_)
  obtain ⟨hstate, b, hb, hcpu⟩ := hi
  obtain ⟨hinv, -⟩ := hrun.inv k.lawful hvalid k.queue_initial k.ok_initial
  obtain ⟨b', hb', hcpu', -⟩ := (hinv.procs_ok i).cpu (.inr hstate)
  obtain rfl : b' = b := Option.some.inj (hb'.symm.trans hb)
  exact hcpu hcpu'

end Memlab
