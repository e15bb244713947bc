/-
# Turnaround and work

The I/O of a process loses its first tick in the iteration after the one that has started
it, and in the iteration in which it loses its last, the process may be dispatched.  An
I/O burst of `t` ticks therefore takes `t - 1` ticks of the clock: for each of its I/O
bursts, a process is done one tick early.  Only the ticks for which it is ready while the
tick is run make up for that (`Process.Paid`).
-/
import MemoryAllocator.SchedSimProgress

namespace Memlab

/-! ## The account of a process -/

/-- The number of I/O bursts. -/
def ioBursts (bursts : List Burst) : ℕ := bursts.countP (fun b => b.type = .io)

namespace Process

variable {p : Process} {b : Burst} {clock tick waited pending : ℕ}

/-- The I/O bursts that the process has not completed. -/
def iosLeft (p : Process) : ℕ :=
  ioBursts (p.bursts.drop (p.curBurst + 1)) + if p.state = .waiting then 1 else 0

/-- The account of a process with `pending` ticks of I/O under way: the clock, the I/O bursts
and the ticks that are left make up the arrival, the work, the ticks that the process has
waited, and the I/O bursts that are left. -/
def Paid (p : Process) (clock waited pending : ℕ) : Prop :=
  clock + ioBursts p.bursts + (p.cpuLeft + p.ioLeft + pending)
    = p.arrival + (p.bursts.map Burst.ticks).sum + waited + p.iosLeft

/-- The account of a process at the end of its burst. -/
def PaidUp (p : Process) (clock waited : ℕ) : Prop :=
  clock + ioBursts p.bursts + (cpuTicks (p.bursts.drop (p.curBurst + 1)) + p.ioLeft)
    = p.arrival + (p.bursts.map Burst.ticks).sum + waited
      + ioBursts (p.bursts.drop (p.curBurst + 1))

/-- At the next burst, what the bursts from there on take is left. -/
theorem left_of_next {q : Process} (h : p.nextBurst = some b) (hbursts : q.bursts = p.bursts)
    (hcur : q.curBurst = p.curBurst + 1) (hremaining : q.burstRemaining = b.ticks) :
    q.cpuLeft + q.ioLeft + (if b.type = .cpu then 0 else b.ticks)
        = cpuTicks (p.bursts.drop (p.curBurst + 1)) + p.ioLeft ∧
      ioBursts (q.bursts.drop (q.curBurst + 1)) + (if b.type = .io then 1 else 0)
        = ioBursts (p.bursts.drop (p.curBurst + 1)) := by
  have hcpuLeft : q.cpuLeft
      = ({ p with curBurst := p.curBurst + 1, burstRemaining := b.ticks } : Process).cpuLeft := by
    unfold cpuLeft currentBurst
    rw [hbursts, hcur, hremaining]
  have hioLeft : q.ioLeft
      = ({ p with curBurst := p.curBurst + 1, burstRemaining := b.ticks } : Process).ioLeft := by
    unfold ioLeft
    rw [hbursts, hcur]
  constructor
  · rw [hcpuLeft, hioLeft, cpuLeft_advance p h, Nat.add_assoc, ioLeft_advance p h]
  · obtain ⟨hlt, rfl⟩ := List.getElem?_eq_some_iff.mp h
    rw [hbursts, hcur, List.drop_eq_getElem_cons hlt, ioBursts, ioBursts, List.countP_cons]
    simp

/-- Past the last burst, nothing is left. -/
theorem left_of_end {q : Process} (h : p.nextBurst = none) (hbursts : q.bursts = p.bursts)
    (hcur : q.curBurst = p.curBurst + 1) :
    q.cpuLeft + q.ioLeft = 0 ∧ ioBursts (q.bursts.drop (q.curBurst + 1)) = 0 ∧
      cpuTicks (p.bursts.drop (p.curBurst + 1)) + p.ioLeft = 0 ∧
      ioBursts (p.bursts.drop (p.curBurst + 1)) = 0 := by
  have hlen := List.getElem?_eq_none_iff.mp h
  have hnone : q.bursts[q.curBurst]? = none := by
    rw [hbursts, hcur]
    exact h
  have hdrop : p.bursts.drop (p.curBurst + 1) = [] := List.drop_eq_nil_of_le hlen
  have hpast : q.bursts.drop (q.curBurst + 1) = [] := by
    rw [hbursts, hcur]
    exact List.drop_eq_nil_of_le (by omega)
  rw [cpuLeft_of_none hnone, ioLeft, ioLeft, hdrop, hpast]
  exact ⟨rfl, rfl, rfl, rfl⟩

/-- A process that starts with a CPU burst has all of its work to do. -/
theorem Valid.paid_reset (h : p.Valid) : p.reset.Paid p.arrival 0 0 := by
  obtain ⟨b, hb, hcpu⟩ := Option.map_eq_some_iff.mp h.first_cpu
  obtain ⟨rest, hrest⟩ := List.head?_eq_some_iff.mp hb
  have hios : p.reset.iosLeft = ioBursts p.bursts := by
    show ioBursts (p.bursts.drop 1) + 0 = _
    rw [hrest]
    simp [ioBursts, hcpu]
  unfold Paid
  rw [h.cpuLeft_reset, h.ioLeft_reset, cpuTicks_add_ioTicks, hios]
  show p.arrival + ioBursts p.bursts + ((p.bursts.map Burst.ticks).sum + 0)
    = p.arrival + (p.bursts.map Burst.ticks).sum + 0 + ioBursts p.bursts
  omega

/-- The account does not depend on the state of a process that is not waiting. -/
theorem Paid.of_state (h : p.Paid clock waited pending) (hp : p.state ≠ .waiting) {q : Process}
    (hprogram : q.program = p.program) (hcur : q.curBurst = p.curBurst)
    (hremaining : q.burstRemaining = p.burstRemaining) (hq : q.state ≠ .waiting) :
    q.Paid clock waited pending := by
  have hbursts := bursts_of_program hprogram
  have harrival := arrival_of_program hprogram
  unfold Paid cpuLeft ioLeft iosLeft currentBurst at h ⊢
  rw [if_neg hp] at h
  rw [if_neg hq, hbursts, harrival, hcur, hremaining]
  exact h

/-- From the end of a burst to the next burst, which is under way if it is an I/O burst. -/
theorem PaidUp.paid_of_next (h : p.PaidUp clock waited) {q : Process} (hb : p.nextBurst = some b)
    (hprogram : q.program = p.program) (hcur : q.curBurst = p.curBurst + 1)
    (hremaining : q.burstRemaining = b.ticks) (hstate : q.state = .waiting ↔ b.type = .io)
    (htype : b.type = .cpu ∨ b.type = .io) :
    q.Paid clock waited (if b.type = .io then b.ticks else 0) := by
  have hbursts := bursts_of_program hprogram
  obtain ⟨hrest, hios⟩ := left_of_next hb hbursts hcur hremaining
  unfold PaidUp at h
  unfold Paid iosLeft
  rw [arrival_of_program hprogram]
  rw [hbursts] at hios ⊢
  rcases htype with hcpu | hio
  · rw [if_pos hcpu] at hrest
    rw [if_neg (by simp [hcpu])] at hios
    rw [if_neg (by simp [hcpu]), if_neg (by simp [hstate, hcpu])]
    omega
  · rw [if_neg (by simp [hio])] at hrest
    rw [if_pos hio] at hios
    rw [if_pos hio, if_pos (hstate.mpr hio)]
    omega

/-- From the end of the last burst to the end of the process. -/
theorem PaidUp.paid_of_end (h : p.PaidUp clock waited) {q : Process} (hb : p.nextBurst = none)
    (hprogram : q.program = p.program) (hcur : q.curBurst = p.curBurst + 1)
    (hstate : q.state ≠ .waiting) : q.Paid clock waited 0 := by
  have hbursts := bursts_of_program hprogram
  obtain ⟨hzero, hios, hrest, hios'⟩ := left_of_end hb hbursts hcur
  unfold PaidUp at h
  unfold Paid iosLeft
  rw [arrival_of_program hprogram, if_neg hstate]
  rw [hbursts] at hios ⊢
  omega

/-- **The end of an I/O burst** with one tick under way: that tick and the burst are no
longer left. -/
theorem Ok.paid_serviced (h : p.Ok) (hwait : p.state = .waiting) (hpaid : p.Paid clock waited 1)
    (tick : ℕ) : (p.serviced tick).Paid clock waited 0 ∧
      ((p.serviced tick).state = .ready ∨
        (p.serviced tick).state = .terminated ∧ (p.serviced tick).finish = tick) := by
  obtain ⟨b, hb, hio⟩ := h.io hwait
  have hup : p.PaidUp clock waited := by
    unfold Paid iosLeft at hpaid
    rw [h.cpuLeft_of_waiting hwait, if_pos hwait] at hpaid
    unfold PaidUp
    omega
  cases hnext : p.nextBurst with
  | none =>
    rw [serviced_of_none hnext]
    exact ⟨hup.paid_of_end hnext rfl rfl (by simp), .inr ⟨rfl, rfl⟩⟩
  | some nb =>
    have hcpu := h.valid.cpu_of_io hb hnext hio
    have hpaid' := hup.paid_of_next (q := p.serviced tick) hnext
      (by rw [serviced_of_some hnext]; rfl) (by rw [serviced_of_some hnext])
      (by rw [serviced_of_some hnext]) (by rw [serviced_of_some hnext]; simp [hcpu]) (.inl hcpu)
    rw [if_neg (by simp [hcpu])] at hpaid'
    exact ⟨hpaid', .inl (by rw [serviced_of_some hnext])⟩

/-- **A tick on the CPU** pays for one tick of the clock. -/
theorem Ok.paid_afterTick (h : p.Ok) (hrun : p.state = .running) (hpaid : p.Paid tick waited 0) :
    ((p.afterTick tick).state = .running ∧ (p.afterTick tick).Paid (tick + 1) waited 0) ∨
    ((p.afterTick tick).state = .waiting ∧
      (p.afterTick tick).Paid (tick + 1) waited (p.afterTick tick).burstRemaining) ∨
    ((p.afterTick tick).state = .terminated ∧ (p.afterTick tick).finish = add32 tick 1 ∧
      (p.afterTick tick).Paid (tick + 1) waited 0) := by
  obtain ⟨b, hb, hcpu, -, -⟩ := h.cpu (.inr (.inr hrun))
  have hup : p.ticked.burstRemaining = 0 → p.PaidUp (tick + 1) waited := by
    intro hzero
    have hleft := h.cpuLeft_last hrun hzero
    unfold Paid iosLeft at hpaid
    rw [if_neg (by simp [hrun])] at hpaid
    unfold PaidUp
    omega
  rcases afterTick_cases hb hcpu tick with ⟨-, heq⟩ | ⟨hzero, hnext, heq⟩ | ⟨nb, hzero, hnext, heq⟩
  · have hleft := h.cpuLeft_ticked hrun
    rw [heq]
    refine .inl ⟨hrun, ?_⟩
    show tick + 1 + ioBursts p.bursts + (p.ticked.cpuLeft + p.ioLeft + 0)
      = p.arrival + (p.bursts.map Burst.ticks).sum + waited + p.iosLeft
    unfold Paid at hpaid
    omega
  · rw [heq]
    exact .inr (.inr ⟨rfl, rfl, (hup hzero).paid_of_end hnext rfl rfl (by simp)⟩)
  · have htype : nb.type = .cpu ∨ nb.type = .io := by
      have hpage := h.valid.no_pageFault nb (List.mem_of_getElem? hnext)
      cases htype : nb.type with
      | cpu => exact .inl rfl
      | io => exact .inr rfl
      | pageFault => exact absurd htype hpage
    have hremaining : (p.afterTick tick).burstRemaining = nb.ticks := by rw [heq]
    have hstate : (p.afterTick tick).state = if nb.type = .io then .waiting else .running := by
      rw [heq, ← hrun]
    have hpaid' := (hup hzero).paid_of_next (q := p.afterTick tick) hnext (by rw [heq]; rfl)
      (by rw [heq]) hremaining (by rw [hstate]; split_ifs with hio <;> simp [hio]) htype
    by_cases hio : nb.type = .io
    · rw [if_pos hio] at hpaid' hstate
      refine .inr (.inl ⟨hstate, ?_⟩)
      rwa [hremaining]
    · rw [if_neg hio] at hpaid' hstate
      exact .inl ⟨hstate, hpaid'⟩

end Process

namespace Sim

variable {n : ℕ} {σ : Type} {S : IScheduler n σ} {queue : σ → List (Fin n)}
  {Ok : (Fin n → Process) → σ → Prop} {ps : Fin n → Process} {s t : Sim n σ} {cs : CsModel}
  {w : Fin n → ℕ} {i : Fin n}

/-! ## The account along a run -/

/-- The number of iterations in which each process has been ready while the tick was run. -/
def countReady (S : IScheduler n σ) (cs : CsModel) (s : Sim n σ) (w : Fin n → ℕ) : Fin n → ℕ :=
  fun i => w i + if ((s.beforeTick S cs).procs i).state = .ready then 1 else 0

/-- The account of a process at the top of an iteration; it has `w` iterations of waiting. -/
structure Balanced (ps : Fin n → Process) (s : Sim n σ) (w : ℕ) (i : Fin n) : Prop where
  new : (s.procs i).state = .new → w = 0 ∧ s.procs i = (ps i).reset
  active : (s.procs i).state = .ready ∨ (s.procs i).state = .running →
    (s.procs i).Paid s.tick w 0
  waiting : (s.procs i).state = .waiting → ∀ ticks, (i, ticks) ∈ s.waiting →
    (s.procs i).Paid s.tick w ticks
  done : (s.procs i).state = .terminated →
    (s.procs i).finish ≤ s.tick ∧ (s.procs i).Paid (s.procs i).finish w 0

/-- The account of a process before the dispatch: a tick of its I/O has been taken, for
which the clock has not advanced. -/
theorem Inv.settled_balanced (h : Inv queue Ok ps s (s.waiting.map Prod.fst)) (hb : Balanced ps s (w i) i)
    (hvalid : (ps i).Valid) :
    (((s.settled S).procs i).state = .new ∧ w i = 0 ∧ (s.settled S).procs i = (ps i).reset) ∨
    ((((s.settled S).procs i).state = .ready ∨ ((s.settled S).procs i).state = .running) ∧
      ((s.settled S).procs i).Paid s.tick (w i) 0) ∨
    (((s.settled S).procs i).state = .waiting ∧ (s.settled S).procs i = s.procs i) ∨
    (((s.settled S).procs i).state = .terminated ∧ ((s.settled S).procs i).finish ≤ s.tick ∧
      ((s.settled S).procs i).Paid ((s.settled S).procs i).finish (w i) 0) := by
  cases settles S h.places i with
  | arrives hnew harrival heq =>
    obtain ⟨hzero, hreset⟩ := hb.new hnew
    rw [heq, hzero]
    refine .inr (.inl ⟨.inl rfl, ?_⟩)
    have hpaid := hvalid.paid_reset
    have htick : s.tick = (ps i).arrival := by
      rw [← harrival, hreset]
      rfl
    rw [← hreset, ← htick] at hpaid
    exact hpaid.of_state (by simp [hnew]) rfl rfl rfl (by simp)
  | waits hmem hticks heq =>
    have hwait := h.places.state_of_mem_waiting (List.mem_map.mpr ⟨_, hmem, rfl⟩)
    exact .inr (.inr (.inl ⟨heq ▸ hwait, heq⟩))
  | completes hmem heq =>
    have hwait := h.places.state_of_mem_waiting (List.mem_map.mpr ⟨_, hmem, rfl⟩)
    obtain ⟨hpaid, hstate⟩ := (h.procs_ok i).paid_serviced hwait (hb.waiting hwait 1 hmem) s.tick
    rw [heq]
    rcases hstate with hready | ⟨hdone, hfinish⟩
    · exact .inr (.inl ⟨.inl hready, hpaid⟩)
    · exact .inr (.inr (.inr ⟨hdone, hfinish.le, by rwa [hfinish]⟩))
  | preempted hrun heq =>
    have hstate := (h.places.running i).mp hrun
    rw [heq]
    exact .inr (.inl ⟨.inl rfl,
      (hb.active (.inr hstate)).of_state (by simp [hstate]) rfl rfl rfl (by simp)⟩)
  | stays hnew hwait heq =>
    rw [heq]
    cases hstate : (s.procs i).state with
    | new => exact .inl ⟨rfl, hb.new hstate⟩
    | ready => exact .inr (.inl ⟨.inl rfl, hb.active (.inl hstate)⟩)
    | running => exact .inr (.inl ⟨.inr rfl, hb.active (.inr hstate)⟩)
    | waiting => exact absurd hstate hwait
    | terminated => exact .inr (.inr (.inr ⟨rfl, hb.done hstate⟩))

/-- The process that runs the tick. -/
theorem Inv.balanced_of_running
    (h : Inv queue Ok ps (s.beforeTick S cs) ((s.beforeTick S cs).waiting.map Prod.fst))
    (hrun : (s.beforeTick S cs).running = some i) (hlt : (s.beforeTick S cs).tick + 1 < 2 ^ 32)
    (hpaid : ((s.beforeTick S cs).procs i).Paid (s.beforeTick S cs).tick (w i) 0)
    (hnext : (s.step S cs).tick = (s.beforeTick S cs).tick + 1) :
    Balanced ps (s.step S cs) (countReady S cs s w i) i := by
  have hstate : ∀ j, (s.beforeTick S cs).running = some j →
      ((s.beforeTick S cs).procs j).state = .running := fun j => (h.places.running j).mp
  have hleaves := leaves_runTick hrun (hstate i hrun)
  have hproc := step_proc_of_running hstate hrun
  have hcount : countReady S cs s w i = w i := by
    unfold countReady
    rw [if_neg (by simp [hstate i hrun]), Nat.add_zero]
  have htick := (h.procs_ok i).paid_afterTick (hstate i hrun) hpaid
  rw [← hproc] at htick
  rw [hcount]
  refine ⟨fun hnew => ?_, fun hactive => ?_, fun hwait ticks hmem => ?_, fun hdone => ?_⟩
  · simp [hnew] at htick
  · rw [hnext]
    rcases hactive with hready | hrunning
    · simp [hready] at htick
    · simpa [hrunning] using htick
  · -- the only entry of the process is the one that the tick has made
    have hentry : (i, ticks) ∈ (s.beforeTick S cs).runTick.waiting := hmem
    rw [hleaves.waiting_eq, ← hproc, if_pos hwait] at hentry
    rcases List.mem_append.mp hentry with hold | hnew
    · have hin : i ∈ (s.beforeTick S cs).waiting.map Prod.fst :=
        List.mem_map.mpr ⟨_, hold, rfl⟩
      exact absurd hin (h.places.notMem_waiting (by simp [hstate i hrun]))
    · rw [(Prod.mk.inj (List.mem_singleton.mp hnew)).2, hnext]
      simpa [hwait] using htick
  · have hexact : add32 (s.beforeTick S cs).tick 1 = (s.beforeTick S cs).tick + 1 :=
      Nat.mod_eq_of_lt hlt
    have hfinish : ((s.step S cs).procs i).finish = (s.beforeTick S cs).tick + 1 ∧
        ((s.step S cs).procs i).Paid ((s.beforeTick S cs).tick + 1) (w i) 0 := by
      rw [hexact] at htick
      simpa [hdone] using htick
    rw [hfinish.1, hnext]
    exact ⟨le_rfl, hfinish.2⟩

/-- **The accounts stay balanced.** -/
theorem Inv.balanced_step (hS : S.Lawful queue Ok)
    (h : Inv queue Ok ps s (s.waiting.map Prod.fst)) (hcost : cs.costTicks = 0)
    (hio : IoUnderWay s) (hcontinues : s.continues = true) (hb : Balanced ps s (w i) i)
    (hvalid : (ps i).Valid) : Balanced ps (s.step S cs) (countReady S cs s w i) i := by
  have hlt := tick_lt_of_continues hcontinues
  obtain ⟨hsettled, htick, -⟩ := h.settled hS
  obtain ⟨hbefore, -, -, -, hlist⟩ := h.beforeTick hS cs
  have hstate : ∀ j, (s.beforeTick S cs).running = some j →
      ((s.beforeTick S cs).procs j).state = .running := fun j => (hbefore.places.running j).mp
  have htick' : (s.beforeTick S cs).tick = s.tick := by
    have hdispatch := (hsettled.dispatch_tick hS cs (by omega)).1
    show ((s.settled S).dispatch S cs).tick = _
    rw [hdispatch, htick, hcost, add32, Nat.add_zero, Nat.mod_eq_of_lt (by omega), ite_self]
  have hnext : (s.step S cs).tick = s.tick + 1 := by
    rw [(h.step_tick hS cs (by omega)).1, hcost]
    split_ifs <;> omega
  have hpaid := h.settled_balanced (S := S) hb hvalid
  rcases dispatch_proc S cs (s.settled S) i with ⟨hsame, hrunning⟩ | ⟨-, hpick, hrun, hproc⟩
  · have hsame' : (s.beforeTick S cs).procs i = (s.settled S).procs i := hsame
    have hrunning' : (s.beforeTick S cs).running = some i ↔ (s.settled S).running = some i :=
      hrunning
    by_cases hrun : (s.beforeTick S cs).running = some i
    · refine hbefore.balanced_of_running hrun (by omega) ?_ (by omega)
      have hsettledRun := (hsettled.places.running i).mp (hrunning'.mp hrun)
      rw [htick', hsame']
      simpa [hsettledRun] using hpaid
    · obtain ⟨hproc, hwaiting⟩ := step_proc_of_not_running hstate hrun
      have hnot : ((s.settled S).procs i).state ≠ .running := by
        rw [← hsame']
        exact fun hcon => hrun ((hbefore.places.running i).mpr hcon)
      have hcount : countReady S cs s w i
          = w i + if ((s.settled S).procs i).state = .ready then 1 else 0 := by
        rw [countReady, hsame']
      rw [hsame'] at hproc
      rcases hpaid with ⟨hnew, hnone, hreset⟩ | ⟨hactive, hpaid⟩ | ⟨hwait, heq⟩ |
        ⟨hdone, hfinish, hpaid⟩
      · rw [hcount, if_neg (by simp [hnew]), Nat.add_zero]
        exact ⟨fun _ => ⟨hnone, hproc.trans hreset⟩, by simp [hproc, hnew], by simp [hproc, hnew],
          by simp [hproc, hnew]⟩
      · -- the process is ready while the tick is run
        have hready := hactive.resolve_right hnot
        rw [hcount, if_pos hready]
        refine ⟨by simp [hproc, hready], fun _ => ?_, by simp [hproc, hready],
          by simp [hproc, hready]⟩
        rw [hproc, hnext]
        unfold Process.Paid at hpaid ⊢
        omega
      · rw [hcount, if_neg (by simp [hwait]), Nat.add_zero]
        refine ⟨by simp [hproc, hwait], by simp [hproc, hwait], fun _ ticks hmem => ?_,
          by simp [hproc, hwait]⟩
        -- a tick has been taken from its entry
        have hentry := hwaiting ticks hmem
        rw [hlist] at hentry
        obtain ⟨ticks', hold, hticks⟩ := exists_of_mem_ioLoop hentry
        have hpos : 1 ≤ ticks' := hio _ hold
        have hone := dec32_add_one hpos
        have hpaid := hb.waiting (heq ▸ hwait) ticks' hold
        rw [hproc, heq, hnext]
        unfold Process.Paid at hpaid ⊢
        omega
      · rw [hcount, if_neg (by simp [hdone]), Nat.add_zero]
        refine ⟨by simp [hproc, hdone], by simp [hproc, hdone], by simp [hproc, hdone],
          fun _ => ?_⟩
        rw [hproc, hnext]
        exact ⟨by omega, hpaid⟩
  · -- the process was ready, and is dispatched
    have hready : ((s.settled S).procs i).state = .ready :=
      hsettled.places.state_of_mem_queue
        ((hS.pick_some hsettled.sched_ok hpick).mem_iff.mpr (List.mem_cons_self ..))
    refine hbefore.balanced_of_running hrun (by omega) ?_ (by omega)
    have hdispatched : (s.beforeTick S cs).procs i = (s.settled S).dispatched cs i := hproc
    have hwas : ((s.settled S).procs i).Paid s.tick (w i) 0 := by simpa [hready] using hpaid
    rw [hdispatched, htick']
    exact hwas.of_state (by simp [hready]) rfl rfl rfl (by simp [dispatched])

/-- The accounts are balanced in every run. -/
theorem balanced_of_loopWith (hS : S.Lawful queue Ok) (hcost : cs.costTicks = 0)
    (hvalid : ∀ i, (ps i).Valid) {sched : σ} (hqueue : queue sched = [])
    (hok : ∀ procs, Ok procs sched) {fuel : ℕ}
    (hloop : (start sched ps).loopWith S cs (countReady S cs) fuel (fun _ => 0) = some (s, w)) :
    AtTop S cs (start sched ps) s ∧ ∀ i, Balanced ps s (w i) i := by
  refine loopWith_invariant (P := fun s w => AtTop S cs (start sched ps) s ∧
    ∀ i, Balanced ps s (w i) i) (fun s w hinv hcontinues => ?_) ⟨.start, fun i => ?_⟩ hloop
  · obtain ⟨htop, hb⟩ := hinv
    have h := (htop.inv hS hvalid hqueue hok).1
    obtain ⟨hio, -, -⟩ := htop.paced hS hcost hvalid hqueue hok
    exact ⟨htop.next hcontinues,
      fun i => h.balanced_step hS hcost hio hcontinues (hb i) (hvalid i)⟩
  · exact ⟨fun _ => ⟨rfl, rfl⟩, by simp [start, Process.reset], by simp [start, Process.reset],
      by simp [start, Process.reset]⟩

end Sim

theorem ioBursts_le_sum {bursts : List Burst} (h : ∀ b ∈ bursts, 1 ≤ b.ticks) :
    ioBursts bursts ≤ (bursts.map Burst.ticks).sum := by
  induction bursts with
  | nil => rfl
  | cons b bursts ih =>
    have hb := h b (List.mem_cons_self ..)
    have hrest := ih (fun b' hb' => h b' (List.mem_cons_of_mem _ hb'))
    unfold ioBursts at hrest ⊢
    rw [List.countP_cons, List.map_cons, List.sum_cons]
    split_ifs <;> omega

/-- **When a process takes at least as long as its work.**  If context switches cost
nothing, a process that has terminated has a turnaround of at least the sum of the ticks
of all its bursts exactly if it has been ready in at least as many iterations, while the
tick was run, as it has I/O bursts. -/
theorem simulate_turnaround_iff {n : ℕ} (k : SchedPolicy n) (cs : CsModel)
    (hcost : cs.costTicks = 0) (ps : Fin n → Process) (hvalid : ∀ i, (ps i).Valid) :
    (∃ fuel s w, (Sim.start k.initial ps).loopWith k.scheduler cs
      (Sim.countReady k.scheduler cs) fuel (fun _ => 0) = some (s, w)) ∧
    ∀ fuel s w, (Sim.start k.initial ps).loopWith k.scheduler cs
        (Sim.countReady k.scheduler cs) fuel (fun _ => 0) = some (s, w) →
      ∀ i, (s.procs i).state = .terminated →
        (((ps i).bursts.map Burst.ticks).sum ≤ (s.procs i).turnaround ↔
          ioBursts (ps i).bursts ≤ w i) := by
  have hinv := fun {t} (ht : Sim.AtTop k.scheduler cs (Sim.start k.initial ps) t) =>
    (ht.inv k.lawful hvalid k.queue_initial k.ok_initial).1
  refine ⟨Sim.exists_loopWith ((hinv .start).loop_returns k.lawful cs) _,
    fun fuel s w hloop i hdone => ?_⟩
  obtain ⟨htop, hb⟩ :=
    Sim.balanced_of_loopWith k.lawful hcost hvalid k.queue_initial k.ok_initial hloop
  obtain ⟨hfinish, hpaid⟩ := (hb i).done hdone
  have hlt := htop.tick_lt
  have hok := (hinv htop).procs_ok i
  have hprogram := (hinv htop).program_eq i
  have hbursts := Process.bursts_of_program hprogram
  have hle := ioBursts_le_sum (hvalid i).ticks_pos
  have hcpu := Process.cpuLeft_of_none (hok.done hdone)
  have hio := hok.ioLeft_of_done hdone
  have hios : (s.procs i).iosLeft = 0 := by
    have hlen := List.getElem?_eq_none_iff.mp (hok.done hdone)
    rw [Process.iosLeft, if_neg (by simp [hdone]), List.drop_eq_nil_of_le (by omega)]
    rfl
  unfold Process.Paid at hpaid
  rw [hcpu, hio, hios, hbursts] at hpaid
  have hturnaround : (s.procs i).turnaround = (s.procs i).finish - (s.procs i).arrival := by
    unfold Process.turnaround sub32
    omega
  rw [hturnaround]
  omega

/-- A process that does I/O for one tick, with a CPU tick before and after. -/
def shortIo : Fin 1 → Process := ![{ pid := 1, bursts := [⟨.cpu, 1⟩, ⟨.io, 1⟩, ⟨.cpu, 1⟩] }]

/-- Alone, it is done after two ticks, with three ticks of work. -/
theorem shortIo_too_fast :
    ¬ ∀ fuel s, (Sim.start SchedPolicy.fcfs.initial shortIo).loop SchedPolicy.fcfs.scheduler {}
        fuel = some s → ∀ i, (s.procs i).state = .terminated →
      ((shortIo i).bursts.map Burst.ticks).sum ≤ (s.procs i).turnaround := by
  intro h
  have hrun : ((Sim.start SchedPolicy.fcfs.initial shortIo).loop SchedPolicy.fcfs.scheduler {} 3).map
      (fun s => ((s.procs 0).state, (s.procs 0).turnaround)) = some (.terminated, 2) := by
    decide +kernel
  obtain ⟨s, hloop, heq⟩ := Option.map_eq_some_iff.mp hrun
  obtain ⟨hstate, hturnaround⟩ := Prod.mk.inj heq
  have hle := h 3 s hloop 0 hstate
  rw [hturnaround] at hle
  exact absurd hle (by decide)

/-- The short process of `shortAndLong` is back while the long one runs, and waits. -/
theorem shortAndLong_turnaround :
    ((Sim.start SchedPolicy.fcfs.initial shortAndLong).loopWith SchedPolicy.fcfs.scheduler {}
        (Sim.countReady SchedPolicy.fcfs.scheduler {}) 20 (fun _ => 0)).map
          (fun r => ((r.1.procs 0).turnaround, r.2 0, (r.1.procs 1).turnaround, r.2 1))
      = some (8, 4, 6, 1) ∧
    ∀ fuel s w, (Sim.start SchedPolicy.fcfs.initial shortAndLong).loopWith
        SchedPolicy.fcfs.scheduler {} (Sim.countReady SchedPolicy.fcfs.scheduler {}) fuel
        (fun _ => 0) = some (s, w) →
      ∀ i, (s.procs i).state = .terminated →
        (((shortAndLong i).bursts.map Burst.ticks).sum ≤ (s.procs i).turnaround ↔
          ioBursts (shortAndLong i).bursts ≤ w i) :=
  ⟨by decide +kernel, (simulate_turnaround_iff .fcfs {} rfl shortAndLong shortAndLong_valid).2⟩

end Memlab
