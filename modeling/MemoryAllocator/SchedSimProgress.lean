/-
# `simulate` finishes

If context switches cost nothing, an iteration runs a CPU tick, or brings forward the I/O
that is under way, or it waits for a process to arrive.  The ticks that are left
(`ticksLeft`) and the clock are therefore bounded together (`Paced`), and the loop ends
with all processes terminated before it reaches its last tick.
-/
import MemoryAllocator.SchedSimAdmission

namespace Memlab

/-- The ticks of all bursts of all processes. -/
def totalTicks {n : ℕ} (ps : Fin n → Process) : ℕ := ∑ i, ((ps i).bursts.map Burst.ticks).sum

/-- The last tick at which a process arrives. -/
def latestArrival {n : ℕ} (ps : Fin n → Process) : ℕ := Finset.univ.sup (fun i => (ps i).arrival)

theorem cpuTicks_add_ioTicks (bursts : List Burst) :
    cpuTicks bursts + ioTicks bursts = (bursts.map Burst.ticks).sum := by
  induction bursts with
  | nil => rfl
  | cons b bursts ih =>
    simp only [cpuTicks, ioTicks, List.map_cons, List.sum_cons] at ih ⊢
    split_ifs <;> omega

namespace Process

variable {p : Process}

/-- The first burst is a CPU burst, so that all I/O ticks are still to come. -/
theorem Valid.ioLeft_reset (h : p.Valid) : p.reset.ioLeft = ioTicks p.bursts := by
  obtain ⟨b, hb, hcpu⟩ := Option.map_eq_some_iff.mp h.first_cpu
  obtain ⟨rest, hrest⟩ := List.head?_eq_some_iff.mp hb
  show ioTicks (p.bursts.drop 1) = _
  rw [hrest, List.drop_one, List.tail_cons, ioTicks, ioTicks, List.map_cons, List.sum_cons,
    if_pos hcpu, Nat.zero_add]

theorem Ok.cpuLeft_pos (h : p.Ok) (hp : p.WantsCpu) : 1 ≤ p.cpuLeft := by
  obtain ⟨b, hb, hcpu, hpos, -⟩ := h.cpu hp
  rw [cpuLeft, hb]
  dsimp only
  rw [if_pos hcpu]
  omega

theorem Ok.ioLeft_of_done (h : p.Ok) (hp : p.state = .terminated) : p.ioLeft = 0 := by
  have hlen := List.getElem?_eq_none_iff.mp (h.done hp)
  exact ioLeft_of_none (List.getElem?_eq_none_iff.mpr (Nat.le_succ_of_le hlen))

end Process

namespace Sim

variable {n : ℕ} {σ : Type} {S : IScheduler n σ} {queue : σ → List (Fin n)}
  {Ok : (Fin n → Process) → σ → Prop} {ps : Fin n → Process} {s : Sim n σ} {cs : CsModel}

/-! ## The ticks that are left -/

/-- The ticks that are left: CPU ticks, I/O ticks to come, and I/O ticks under way. -/
def ticksLeft (s : Sim n σ) : ℕ := s.cpuLeft + s.ioLeft + (s.waiting.map Prod.snd).sum

/-- The I/O that is under way has ticks left. -/
def IoUnderWay (s : Sim n σ) : Prop := ∀ x ∈ s.waiting, 1 ≤ x.2

/-- The loop over the waiting list takes a tick from each entry. -/
theorem ioLoop_ticks (S : IScheduler n σ) {rest : List (Fin n × ℕ)} (hpos : ∀ x ∈ rest, 1 ≤ x.2)
    (s : Sim n σ) :
    ((ioLoop S rest s).1.map Prod.snd).sum + rest.length = (rest.map Prod.snd).sum ∧
      ∀ x ∈ (ioLoop S rest s).1, 1 ≤ x.2 := by
  induction rest generalizing s with
  | nil => exact ⟨rfl, fun x hx => by simp [ioLoop] at hx⟩
  | cons x rest ih =>
    obtain ⟨i, ticks⟩ := x
    have hticks : dec32 ticks + 1 = ticks :=
      dec32_add_one (hpos (i, ticks) (List.mem_cons_self ..))
    have hrest := fun x hx => hpos x (List.mem_cons_of_mem _ hx)
    rw [ioLoop]
    by_cases hzero : dec32 ticks = 0
    · rw [if_pos hzero]
      obtain ⟨hsum, hpos'⟩ := ih hrest (s.completeIo S i)
      refine ⟨?_, hpos'⟩
      simp only [List.map_cons, List.sum_cons, List.length_cons]
      omega
    · rw [if_neg hzero]
      obtain ⟨hsum, hpos'⟩ := ih hrest s
      refine ⟨?_, ?_⟩
      · simp only [List.map_cons, List.sum_cons, List.length_cons]
        omega
      · intro x hx
        rcases List.mem_cons.mp hx with rfl | hx
        · exact Nat.one_le_iff_ne_zero.mpr hzero
        · exact hpos' x hx

/-- **What an iteration takes from the ticks that are left**: one from each entry of the
waiting list, and one if a process runs. -/
theorem Inv.ticksLeft_step (hS : S.Lawful queue Ok) (cs : CsModel)
    (h : Inv queue Ok ps s (s.waiting.map Prod.fst)) (hio : IoUnderWay s) :
    (s.step S cs).ticksLeft + s.waiting.length
        + (if (s.beforeTick S cs).running = none then 0 else 1) = s.ticksLeft ∧
      IoUnderWay (s.step S cs) := by
  obtain ⟨hb, -, hcpuLeft, hioLeft, hwaiting⟩ := h.beforeTick hS cs
  obtain ⟨hsum, hpos⟩ := ioLoop_ticks S hio (s.arrivals S)
  rw [← hwaiting] at hsum hpos
  have hbefore : (s.beforeTick S cs).ticksLeft + s.waiting.length = s.ticksLeft := by
    unfold ticksLeft
    omega
  have hstep : (s.step S cs).ticksLeft = (s.beforeTick S cs).runTick.ticksLeft := rfl
  have hway : IoUnderWay (s.step S cs) ↔ ∀ x ∈ (s.beforeTick S cs).runTick.waiting, 1 ≤ x.2 :=
    Iff.rfl
  rw [hstep, hway, ← hbefore]
  cases hrun : (s.beforeTick S cs).running with
  | none =>
    rw [runTick_of_none hrun, if_pos rfl]
    exact ⟨rfl, hpos⟩
  | some i =>
    rw [if_neg (by simp)]
    have hstate := (hb.places.running i).mp hrun
    have hleaves := leaves_runTick hrun hstate
    obtain ⟨-, -, hcpu, hleft⟩ := (hb.procs_ok i).afterTick hstate (s.beforeTick S cs).tick
    have hcpuSum := cpuLeft_update hleaves.procs_eq
    have hioSum := ioLeft_update hleaves.procs_eq
    have hwaits := hleaves.waiting_eq
    unfold ticksLeft
    rcases hleft with ⟨hnot, hleft⟩ | ⟨hwait, hone, hleft⟩
    · rw [if_neg hnot, List.append_nil] at hwaits
      rw [hwaits]
      exact ⟨by omega, hpos⟩
    · -- the I/O ticks of the next burst are under way
      rw [if_pos hwait] at hwaits
      rw [hwaits]
      refine ⟨?_, fun x hx => ?_⟩
      · rw [List.map_append, List.sum_append]
        simp only [List.map_cons, List.map_nil, List.sum_cons, List.sum_nil]
        omega
      · rcases List.mem_append.mp hx with hx | hx
        · exact hpos x hx
        · rw [List.mem_singleton.mp hx]
          exact hone

/-- With no ticks left, all processes have terminated. -/
theorem Inv.done_of_ticksLeft (h : Inv queue Ok ps s (s.waiting.map Prod.fst))
    (hio : IoUnderWay s) (hzero : s.ticksLeft = 0) (i : Fin n) : (s.procs i).state = .terminated := by
  have hcpu : (s.procs i).cpuLeft ≤ s.cpuLeft :=
    Finset.single_le_sum (f := fun j => (s.procs j).cpuLeft) (fun _ _ => Nat.zero_le _)
      (Finset.mem_univ i)
  have hnot : ¬ (s.procs i).WantsCpu := by
    intro hwants
    have hpos := (h.procs_ok i).cpuLeft_pos hwants
    unfold ticksLeft at hzero
    omega
  cases hstate : (s.procs i).state with
  | new => exact absurd (.inl hstate) hnot
  | ready => exact absurd (.inr (.inl hstate)) hnot
  | running => exact absurd (.inr (.inr hstate)) hnot
  | waiting =>
    have hcount := h.places.waiting i
    rw [if_pos hstate] at hcount
    obtain ⟨x, hx, -⟩ := List.mem_map.mp (List.count_pos_iff.mp (by omega :
      0 < (s.waiting.map Prod.fst).count i))
    have hle := List.single_le_sum (l := s.waiting.map Prod.snd) (fun _ _ => Nat.zero_le _) x.2
      (List.mem_map_of_mem hx)
    have hpos := hio x hx
    unfold ticksLeft at hzero
    omega
  | terminated => rfl

/-- Once all processes have terminated, no ticks are left. -/
theorem Inv.ticksLeft_of_done (h : Inv queue Ok ps s (s.waiting.map Prod.fst))
    (hdone : ∀ i, (s.procs i).state = .terminated) : s.ticksLeft = 0 := by
  have hcpu : s.cpuLeft = 0 :=
    Finset.sum_eq_zero (fun i _ => Process.cpuLeft_of_none ((h.procs_ok i).done (hdone i)))
  have hioLeft : s.ioLeft = 0 :=
    Finset.sum_eq_zero (fun i _ => (h.procs_ok i).ioLeft_of_done (hdone i))
  have hwaiting : s.waiting.map Prod.fst = [] := by
    refine List.eq_nil_iff_forall_not_mem.mpr (fun i hi => ?_)
    exact h.places.notMem_waiting (by simp [hdone i]) hi
  rw [ticksLeft, hcpu, hioLeft, List.map_eq_nil_iff.mp hwaiting]
  rfl

/-! ## Idle ticks -/

/-- A process that is ready stays ready until the dispatch. -/
theorem Inv.settled_of_ready (h : Inv queue Ok ps s (s.waiting.map Prod.fst)) {i : Fin n}
    (hi : (s.procs i).state = .ready) : (s.settled S).procs i = s.procs i := by
  cases settles S h.places i with
  | arrives hnew harrival heq => simp [hi] at hnew
  | waits hmem hticks heq => exact heq
  | completes hmem heq =>
    have hwait := h.places.state_of_mem_waiting (List.mem_map.mpr ⟨_, hmem, rfl⟩)
    simp [hi] at hwait
  | preempted hrun heq =>
    have hrunning := (h.places.running i).mp hrun
    simp [hi] at hrunning
  | stays hnew hwait heq => exact heq

/-- **The CPU is idle only if no process is ready**: at the start of the iteration, when
it comes to the tick, and at its end. -/
theorem Inv.idle (hS : S.Lawful queue Ok) (h : Inv queue Ok ps s (s.waiting.map Prod.fst))
    (hnone : (s.beforeTick S cs).running = none) (i : Fin n) :
    (s.procs i).state ≠ .ready ∧ ((s.beforeTick S cs).procs i).state ≠ .ready ∧
      ((s.step S cs).procs i).state ≠ .ready := by
  have hsettled := (h.settled hS).1
  have hbefore : s.beforeTick S cs = (s.settled S).dispatch S cs := rfl
  have hempty : ∀ j, ((s.settled S).procs j).state ≠ .ready ∧
      (s.beforeTick S cs).procs j = (s.settled S).procs j := by
    rw [hbefore] at hnone ⊢
    rcases dispatch_cases S cs (s.settled S) with ⟨j, hrun, heq⟩ | ⟨-, hpick, heq⟩ | ⟨j, -, -, heq⟩
    · rw [heq, hrun] at hnone
      simp at hnone
    · intro j
      rw [heq]
      refine ⟨fun hready => ?_, rfl⟩
      have hcount := hsettled.places.ready j
      rw [(hS.pick_none hsettled.sched_ok hpick).1, if_pos hready] at hcount
      simp at hcount
    · rw [heq] at hnone
      simp at hnone
  refine ⟨fun hready => ?_, ?_, ?_⟩
  · apply (hempty i).1
    rw [h.settled_of_ready hready]
    exact hready
  · rw [(hempty i).2]
    exact (hempty i).1
  · rw [step_eq, runTick_of_none hnone]
    show ((s.beforeTick S cs).procs i).state ≠ .ready
    rw [(hempty i).2]
    exact (hempty i).1

/-- An iteration without work: a process is still to arrive. -/
theorem Inv.arrival_of_idle (hS : S.Lawful queue Ok)
    (h : Inv queue Ok ps s (s.waiting.map Prod.fst)) (hio : IoUnderWay s) (hwaited : Waited s)
    (hlt : s.tick < 2 ^ 32) (hundone : s.allDone = false)
    (hnone : (s.beforeTick S cs).running = none) (hnil : s.waiting = []) :
    s.tick < latestArrival ps := by
  have h' := h.step hS cs
  obtain ⟨hleft, hio'⟩ := h.ticksLeft_step hS cs hio
  rw [hnil, if_pos hnone, List.length_nil, Nat.add_zero] at hleft
  obtain ⟨i, hi⟩ : ∃ i, ((s.step S cs).procs i).state ≠ .terminated := by
    by_contra hall
    simp only [not_exists, not_not] at hall
    have hzero : s.ticksLeft = 0 := by rw [← hleft, h'.ticksLeft_of_done hall]
    have hdone := h.done_of_ticksLeft hio hzero
    simp [allDone, hdone] at hundone
  have hnew : ((s.step S cs).procs i).state = .new := by
    have hsame : s.step S cs = { s.beforeTick S cs with tick := add32 (s.beforeTick S cs).tick 1 } := by
      rw [step_eq, runTick_of_none hnone]
    cases hstate : ((s.step S cs).procs i).state with
    | new => rfl
    | ready => exact absurd hstate (h.idle hS hnone i).2.2
    | running =>
      have hrun := (h'.places.running i).mpr hstate
      rw [hsame] at hrun
      exact absurd (hnone.symm.trans hrun) (by simp)
    | waiting =>
      have hcount := h'.places.waiting i
      have hwaiting : (s.step S cs).waiting = [] := by
        rw [hsame]
        show (s.beforeTick S cs).waiting = []
        rw [(h.beforeTick hS cs).2.2.2.2, hnil]
        rfl
      rw [hwaiting, if_pos hstate] at hcount
      simp at hcount
    | terminated => exact absurd hstate hi
  obtain ⟨hold, hne⟩ := ((h.step_tick hS cs hlt).2 i).mp hnew
  have hle := hwaited i hold
  have harrival := Process.arrival_of_program (h.program_eq i)
  have hlatest : (ps i).arrival ≤ latestArrival ps :=
    Finset.le_sup (f := fun i => (ps i).arrival) (Finset.mem_univ i)
  omega

/-! ## The bound -/

/-- The clock and the ticks that are left, bounded together. -/
def Paced (ps : Fin n → Process) (s : Sim n σ) : Prop :=
  s.tick + s.ticksLeft ≤ totalTicks ps + min s.tick (latestArrival ps)

theorem not_skipsArrival (hcost : cs.costTicks = 0) : ¬ SkipsArrival S cs s := by
  rintro ⟨-, -, i, -, hgt, hle⟩
  omega

theorem Inv.paced_step (hS : S.Lawful queue Ok) (h : Inv queue Ok ps s (s.waiting.map Prod.fst))
    (hcost : cs.costTicks = 0) (hio : IoUnderWay s) (hwaited : Waited s)
    (hcontinues : s.continues = true) (hpaced : Paced ps s) : Paced ps (s.step S cs) := by
  have hlt := tick_lt_of_continues hcontinues
  have htick : (s.step S cs).tick = s.tick + 1 := by
    rw [(h.step_tick hS cs (by omega)).1, hcost]
    split_ifs <;> omega
  have hleft := (h.ticksLeft_step hS cs hio).1
  unfold Paced at hpaced ⊢
  rw [htick]
  by_cases hidle : (s.beforeTick S cs).running = none ∧ s.waiting = []
  · obtain ⟨hnone, hnil⟩ := hidle
    have hundone : s.allDone = false := by
      simp only [continues, Bool.and_eq_true, Bool.not_eq_true'] at hcontinues
      exact hcontinues.1
    have harrival := h.arrival_of_idle hS hio hwaited (by omega) hundone hnone hnil
    omega
  · have hwork : (s.step S cs).ticksLeft + 1 ≤ s.ticksLeft := by
      by_cases hnone : (s.beforeTick S cs).running = none
      · have hpos : s.waiting.length ≠ 0 :=
          fun hlen => hidle ⟨hnone, List.length_eq_zero_iff.mp hlen⟩
        omega
      · rw [if_neg hnone] at hleft
        omega
    omega

theorem paced_start (hvalid : ∀ i, (ps i).Valid) (sched : σ) :
    Paced ps (start sched ps) := by
  have hleft : (start sched ps).ticksLeft = totalTicks ps := by
    show (∑ i, (ps i).reset.cpuLeft) + (∑ i, (ps i).reset.ioLeft) + 0 = _
    rw [Nat.add_zero, ← Finset.sum_add_distrib]
    refine Finset.sum_congr rfl (fun i _ => ?_)
    rw [(hvalid i).cpuLeft_reset, (hvalid i).ioLeft_reset, cpuTicks_add_ioTicks]
  unfold Paced
  rw [hleft]
  show 0 + _ ≤ _
  omega

/-- **The bound holds at the top of every iteration.** -/
theorem AtTop.paced (hS : S.Lawful queue Ok) (hcost : cs.costTicks = 0)
    (hvalid : ∀ i, (ps i).Valid) {sched : σ} (hqueue : queue sched = [])
    (hok : ∀ procs, Ok procs sched) (h : AtTop S cs (Sim.start sched ps) s) :
    IoUnderWay s ∧ Waited s ∧ Paced ps s := by
  induction h with
  | start =>
    have hnil : (Sim.start sched ps).waiting = [] := rfl
    refine ⟨?_, fun i _ => Nat.zero_le _, paced_start hvalid sched⟩
    intro x hx
    simp [hnil] at hx
  | next h hcontinues ih =>
    obtain ⟨hio, hwaited, hpaced⟩ := ih
    have hinv := (h.inv hS hvalid hqueue hok).1
    exact ⟨(hinv.ticksLeft_step hS cs hio).2,
      hwaited.step hS hinv h.tick_lt (not_skipsArrival hcost),
      hinv.paced_step hS hcost hio hwaited hcontinues hpaced⟩

end Sim

/-- **`simulate` is work-conserving and finishes.**  If context switches cost nothing and
the latest arrival and all ticks together are at most 50000, each of the six policies ends
with all processes terminated, at the latest at that tick; and a tick passes without a
useful tick only if no process is ready. -/
theorem simulate_work_conserving {n : ℕ} (k : SchedPolicy n) (cs : CsModel)
    (hcost : cs.costTicks = 0) (ps : Fin n → Process) (hvalid : ∀ i, (ps i).Valid)
    (hbound : latestArrival ps + totalTicks ps ≤ 50000) :
    (∃ fuel s, (Sim.start k.initial ps).loop k.scheduler cs fuel = some s ∧
      simulate k.scheduler cs fuel k.initial ps = some s.result ∧
      (∀ i, (s.procs i).state = .terminated) ∧
      s.result.totalTicks ≤ latestArrival ps + totalTicks ps) ∧
    ∀ t, Sim.AtTop k.scheduler cs (Sim.start k.initial ps) t → t.continues = true →
      (t.step k.scheduler cs).usefulTicks = t.usefulTicks →
      ∀ i, (t.procs i).state ≠ .ready ∧ ((t.beforeTick k.scheduler cs).procs i).state ≠ .ready ∧
        ((t.step k.scheduler cs).procs i).state ≠ .ready := by
  have hinv : ∀ {t}, Sim.AtTop k.scheduler cs (Sim.start k.initial ps) t →
      Sim.Inv k.queue k.Ok ps t (t.waiting.map Prod.fst) :=
    fun ht => (ht.inv k.lawful hvalid k.queue_initial k.ok_initial).1
  refine ⟨?_, fun t ht hcontinues huseful => ?_⟩
  · obtain ⟨fuel, s, hloop⟩ := (hinv .start).loop_returns k.lawful cs
    obtain ⟨htop, hend⟩ := Sim.AtTop.of_loop .start hloop
    obtain ⟨hio, -, hpaced⟩ := htop.paced k.lawful hcost hvalid k.queue_initial k.ok_initial
    unfold Sim.Paced at hpaced
    have hdone : ∀ i, (s.procs i).state = .terminated := by
      simp only [Sim.continues, Bool.and_eq_false_iff, Bool.not_eq_false', decide_eq_false_iff_not]
        at hend
      rcases hend with hall | hlate
      · exact of_decide_eq_true hall
      · exact (hinv htop).done_of_ticksLeft hio (by omega)
    refine ⟨fuel, s, hloop, by rw [simulate, hloop]; rfl, hdone, ?_⟩
    show s.tick ≤ _
    omega
  · have hnone : (t.beforeTick k.scheduler cs).running = none := by
      rcases (hinv ht).work_step k.lawful cs with ⟨hnone, -, -⟩ | ⟨-, hcount, -⟩
      · exact hnone
      · rw [hcount, add32] at huseful
        omega
    exact fun i => (hinv ht).idle k.lawful hnone i

/-- A burst of four ticks at tick 0 and one of three at tick 3, with round robin and a
quantum of two ticks: everything is done by tick 10. -/
theorem latecomer_work_conserving :
    latestArrival latecomer + totalTicks latecomer = 10 ∧
    ∃ fuel s, (Sim.start (SchedPolicy.rr 2).initial latecomer).loop (SchedPolicy.rr 2).scheduler {}
        fuel = some s ∧
      (∀ i, (s.procs i).state = .terminated) ∧ s.result.totalTicks ≤ 10 := by
  have hten : latestArrival latecomer + totalTicks latecomer = 10 := by decide
  obtain ⟨⟨fuel, s, hloop, -, hdone, hticks⟩, -⟩ :=
    simulate_work_conserving (.rr 2) {} rfl latecomer latecomer_valid (by omega)
  exact ⟨hten, fuel, s, hloop, hdone, hten ▸ hticks⟩

end Memlab
