/-
# The invariant of the scheduler simulation

Each process is in the place that its state names (`Places`), and the burst it is at fits
its state (`Process.Ok`).  Every part of an iteration moves single processes from one
place to another, so that the invariant follows from one lemma on moves
(`Places.update`).  CPU ticks are counted where they are taken from a process
(`Process.cpuLeft`), and nowhere else.
-/
import MemoryAllocator.SchedSimMoves

namespace Memlab

/-! ## Processes -/

/-- The CPU ticks of a list of bursts. -/
def cpuTicks (bursts : List Burst) : ℕ :=
  (bursts.map (fun b => if b.type = .cpu then b.ticks else 0)).sum

/-- The other ticks of a list of bursts. -/
def ioTicks (bursts : List Burst) : ℕ :=
  (bursts.map (fun b => if b.type = .cpu then 0 else b.ticks)).sum

namespace Process

variable {p : Process}

/-- A process of a workload: it starts with a CPU burst, has no two I/O bursts in a row
and no page faults, and every burst takes a tick or more. -/
structure Valid (p : Process) : Prop where
  first_cpu : p.bursts.head?.map Burst.type = some .cpu
  no_two_io : p.bursts.IsChain (fun b b' => b.type = .io → b'.type ≠ .io)
  no_pageFault : ∀ b ∈ p.bursts, b.type ≠ .pageFault
  ticks_pos : ∀ b ∈ p.bursts, 1 ≤ b.ticks
  ticks_lt : ∀ b ∈ p.bursts, b.ticks < 2 ^ 32

/-- The CPU ticks that the process still has to run. -/
def cpuLeft (p : Process) : ℕ :=
  (match p.currentBurst with
    | some b => if b.type = .cpu then p.burstRemaining else 0
    | none => 0) + cpuTicks (p.bursts.drop (p.curBurst + 1))

/-- The I/O ticks of the bursts that the process has not come to. -/
def ioLeft (p : Process) : ℕ := ioTicks (p.bursts.drop (p.curBurst + 1))

/-- The process has a CPU burst to run. -/
def WantsCpu (p : Process) : Prop := p.state = .new ∨ p.state = .ready ∨ p.state = .running

/-- The burst that the process is at fits its state. -/
structure Ok (p : Process) : Prop where
  valid : p.Valid
  cpu : p.WantsCpu →
    ∃ b, p.currentBurst = some b ∧ b.type = .cpu ∧ 1 ≤ p.burstRemaining ∧ p.burstRemaining ≤ b.ticks
  io : p.state = .waiting → ∃ b, p.currentBurst = some b ∧ b.type = .io
  done : p.state = .terminated → p.currentBurst = none

/-- The sum of the CPU bursts wraps once, at the end. -/
theorem totalCpuBurst_eq (p : Process) : p.totalCpuBurst = cpuTicks p.bursts % 2 ^ 32 := by
  have hfold : ∀ (bursts : List Burst) (t : ℕ), t < 2 ^ 32 →
      bursts.foldl (fun t b => if b.type = .cpu then add32 t b.ticks else t) t
        = (t + cpuTicks bursts) % 2 ^ 32 := by
    intro bursts
    induction bursts with
    | nil =>
      intro t ht
      exact (Nat.mod_eq_of_lt ht).symm
    | cons b bursts ih =>
      intro t ht
      rw [List.foldl_cons, cpuTicks, List.map_cons, List.sum_cons, ← cpuTicks]
      split_ifs with hb
      · rw [ih (add32 t b.ticks) (add32_lt t b.ticks), add32, Nat.mod_add_mod, Nat.add_assoc]
      · rw [ih t ht, Nat.zero_add]
  rw [totalCpuBurst, hfold p.bursts 0 (by decide), Nat.zero_add]

/-- Whether a process is valid is a matter of its bursts. -/
theorem Valid.of_bursts {q : Process} (h : p.Valid) (hbursts : q.bursts = p.bursts) : q.Valid := by
  refine ⟨?_, ?_, ?_, ?_, ?_⟩
  · rw [hbursts]
    exact h.first_cpu
  · rw [hbursts]
    exact h.no_two_io
  · rw [hbursts]
    exact h.no_pageFault
  · rw [hbursts]
    exact h.ticks_pos
  · rw [hbursts]
    exact h.ticks_lt

/-- The burst after an I/O burst is a CPU burst. -/
theorem Valid.cpu_of_io (h : p.Valid) {i : ℕ} {b b' : Burst} (hb : p.bursts[i]? = some b)
    (hb' : p.bursts[i + 1]? = some b') (hio : b.type = .io) : b'.type = .cpu := by
  obtain ⟨hi, rfl⟩ := List.getElem?_eq_some_iff.mp hb
  obtain ⟨hi', rfl⟩ := List.getElem?_eq_some_iff.mp hb'
  have hchain := List.isChain_iff_getElem.mp h.no_two_io i hi'
  have hpage := h.no_pageFault _ (List.getElem_mem hi')
  cases htype : p.bursts[i + 1].type with
  | cpu => rfl
  | io => exact absurd htype (hchain hio)
  | pageFault => exact absurd htype hpage

/-! ## Going to the next burst -/

/-- At the next burst, the CPU ticks of the bursts from there on are left. -/
theorem cpuLeft_advance (p : Process) {b : Burst} (hb : p.bursts[p.curBurst + 1]? = some b) :
    ({ p with curBurst := p.curBurst + 1, burstRemaining := b.ticks } : Process).cpuLeft
      = cpuTicks (p.bursts.drop (p.curBurst + 1)) := by
  obtain ⟨hlt, rfl⟩ := List.getElem?_eq_some_iff.mp hb
  rw [List.drop_eq_getElem_cons hlt, cpuTicks, List.map_cons, List.sum_cons, ← cpuTicks, cpuLeft,
    currentBurst]
  dsimp only
  rw [hb]

/-- Past the last burst, nothing is left. -/
theorem cpuLeft_of_none (hb : p.bursts[p.curBurst]? = none) : p.cpuLeft = 0 := by
  have hlen := List.getElem?_eq_none_iff.mp hb
  rw [cpuLeft, currentBurst, hb, List.drop_eq_nil_of_le (by omega)]
  rfl

/-- The I/O ticks of the next burst are no longer to come. -/
theorem ioLeft_advance (p : Process) {b : Burst} (hb : p.bursts[p.curBurst + 1]? = some b) :
    ({ p with curBurst := p.curBurst + 1, burstRemaining := b.ticks } : Process).ioLeft
      + (if b.type = .cpu then 0 else b.ticks) = p.ioLeft := by
  obtain ⟨hlt, rfl⟩ := List.getElem?_eq_some_iff.mp hb
  rw [ioLeft, ioLeft, List.drop_eq_getElem_cons hlt]
  simp only [ioTicks, List.map_cons, List.sum_cons]
  omega

/-- At the last burst, no I/O ticks are to come. -/
theorem ioLeft_of_none (hb : p.bursts[p.curBurst + 1]? = none) : p.ioLeft = 0 := by
  rw [ioLeft, List.drop_eq_nil_of_le (List.getElem?_eq_none_iff.mp hb)]
  rfl

/-- Past the last burst, no I/O ticks are to come either. -/
theorem ioLeft_past (hb : p.bursts[p.curBurst + 1]? = none) :
    ({ p with curBurst := p.curBurst + 1 } : Process).ioLeft = p.ioLeft := by
  have hlen := List.getElem?_eq_none_iff.mp hb
  rw [ioLeft_of_none hb]
  exact ioLeft_of_none (List.getElem?_eq_none_iff.mpr (Nat.le_succ_of_le hlen))

/-- What never changes of a process. -/
def program (p : Process) : ℤ × ℕ × ℕ × List Burst := (p.pid, p.arrival, p.priority, p.bursts)

theorem bursts_of_program {q : Process} (h : q.program = p.program) : q.bursts = p.bursts := by
  simp only [program, Prod.mk.injEq] at h
  exact h.2.2.2

theorem priority_of_program {q : Process} (h : q.program = p.program) :
    q.priority = p.priority := by
  simp only [program, Prod.mk.injEq] at h
  exact h.2.2.1

theorem arrival_of_program {q : Process} (h : q.program = p.program) : q.arrival = p.arrival := by
  simp only [program, Prod.mk.injEq] at h
  exact h.2.1

/-- A process that wants the CPU may become ready or running. -/
theorem Ok.of_wantsCpu (h : p.Ok) (hp : p.WantsCpu) {q : Process} (hq : q.WantsCpu)
    (hbursts : q.bursts = p.bursts) (hcur : q.curBurst = p.curBurst)
    (hremaining : q.burstRemaining = p.burstRemaining) : q.Ok := by
  refine ⟨h.valid.of_bursts hbursts, fun _ => ?_, fun hwait => ?_, fun hdone => ?_⟩
  · obtain ⟨b, hb, hcpu, hpos, hle⟩ := h.cpu hp
    refine ⟨b, ?_, hcpu, hremaining ▸ hpos, hremaining ▸ hle⟩
    rw [currentBurst, hbursts, hcur]
    exact hb
  · rw [WantsCpu, hwait] at hq
    simp at hq
  · rw [WantsCpu, hdone] at hq
    simp at hq

/-- At the start of a CPU burst. -/
theorem Valid.ok_of_cpu (h : p.Valid) (hp : p.WantsCpu) {b : Burst} (hb : p.currentBurst = some b)
    (hcpu : b.type = .cpu) (hremaining : p.burstRemaining = b.ticks) : p.Ok := by
  refine ⟨h, fun _ => ⟨b, hb, hcpu, ?_, hremaining.le⟩, fun hwait => ?_, fun hdone => ?_⟩
  · rw [hremaining]
    exact h.ticks_pos b (List.mem_of_getElem? hb)
  · rw [WantsCpu, hwait] at hp
    simp at hp
  · rw [WantsCpu, hdone] at hp
    simp at hp

/-- A process in an I/O burst waits. -/
theorem Valid.ok_of_io (h : p.Valid) (hp : p.state = .waiting) {b : Burst}
    (hb : p.currentBurst = some b) (hio : b.type = .io) : p.Ok := by
  refine ⟨h, fun hcpu => ?_, fun _ => ⟨b, hb, hio⟩, fun hdone => ?_⟩
  · rw [WantsCpu, hp] at hcpu
    simp at hcpu
  · rw [hp] at hdone
    simp at hdone

/-- A process past its bursts has ended. -/
theorem Valid.ok_of_done (h : p.Valid) (hp : p.state = .terminated) (hb : p.currentBurst = none) :
    p.Ok := by
  refine ⟨h, fun hcpu => ?_, fun hwait => ?_, fun _ => hb⟩
  · rw [WantsCpu, hp] at hcpu
    simp at hcpu
  · rw [hp] at hwait
    simp at hwait

/-- A process that has been reset is at its first burst. -/
theorem Valid.ok_reset (h : p.Valid) : p.reset.Ok := by
  obtain ⟨b, hb, hcpu⟩ := Option.map_eq_some_iff.mp h.first_cpu
  obtain ⟨rest, hrest⟩ := List.head?_eq_some_iff.mp hb
  have hvalid : p.reset.Valid := h.of_bursts rfl
  refine hvalid.ok_of_cpu (.inl rfl) ?_ hcpu ?_
  · show p.bursts[0]? = some b
    rw [hrest]
    rfl
  · simp only [reset, hrest]

/-- At the start all CPU bursts are left. -/
theorem Valid.cpuLeft_reset (h : p.Valid) : p.reset.cpuLeft = cpuTicks p.bursts := by
  obtain ⟨b, hb, hcpu⟩ := Option.map_eq_some_iff.mp h.first_cpu
  obtain ⟨rest, hrest⟩ := List.head?_eq_some_iff.mp hb
  simp [cpuLeft, currentBurst, reset, hrest, cpuTicks]

/-! ## The three things that happen to a process -/

/-- A waiting process has the CPU ticks of the bursts to come. -/
theorem Ok.cpuLeft_of_waiting (h : p.Ok) (hwait : p.state = .waiting) :
    p.cpuLeft = cpuTicks (p.bursts.drop (p.curBurst + 1)) := by
  obtain ⟨b, hb, hio⟩ := h.io hwait
  rw [cpuLeft, hb]
  simp [hio]

/-- **The end of an I/O burst.** -/
theorem Ok.serviced (h : p.Ok) (hwait : p.state = .waiting) (tick : ℕ) :
    (p.serviced tick).Ok ∧ (p.serviced tick).program = p.program ∧
      (p.serviced tick).cpuLeft = p.cpuLeft ∧ (p.serviced tick).ioLeft = p.ioLeft ∧
      ((p.serviced tick).state = .ready ∨ (p.serviced tick).state = .terminated) := by
  obtain ⟨b, hb, hio⟩ := h.io hwait
  have hleft := h.cpuLeft_of_waiting hwait
  cases hnb : p.nextBurst with
  | none =>
    rw [serviced_of_none hnb]
    refine ⟨Valid.ok_of_done (h.valid.of_bursts rfl) rfl hnb, rfl, ?_, ioLeft_past hnb, .inr rfl⟩
    rw [hleft, List.drop_eq_nil_of_le (List.getElem?_eq_none_iff.mp hnb)]
    exact cpuLeft_of_none (p := { p with curBurst := p.curBurst + 1 }) hnb
  | some nb =>
    have hcpu := h.valid.cpu_of_io hb hnb hio
    rw [serviced_of_some hnb]
    refine ⟨?_, rfl, ?_, ?_, .inl rfl⟩
    · exact Valid.ok_of_cpu (h.valid.of_bursts rfl) (.inr (.inl rfl)) hnb hcpu rfl
    · rw [hleft]
      exact cpuLeft_advance p hnb
    · have hnext := ioLeft_advance p hnb
      rwa [if_pos hcpu] at hnext

/-- A tick takes one from the burst of the running process. -/
theorem Ok.ticked_remaining (h : p.Ok) (hrun : p.state = .running) :
    p.ticked.burstRemaining + 1 = p.burstRemaining := by
  obtain ⟨b, -, -, hpos, -⟩ := h.cpu (.inr (.inr hrun))
  exact dec32_add_one hpos

/-- A tick takes a CPU tick from the process. -/
theorem Ok.cpuLeft_ticked (h : p.Ok) (hrun : p.state = .running) :
    p.ticked.cpuLeft + 1 = p.cpuLeft := by
  obtain ⟨b, hb, hcpu, -, -⟩ := h.cpu (.inr (.inr hrun))
  have hticked : p.ticked.currentBurst = some b := hb
  have hremaining := h.ticked_remaining hrun
  rw [cpuLeft, cpuLeft, hb, hticked]
  dsimp only
  rw [if_pos hcpu, if_pos hcpu, ← hremaining]
  show _ + cpuTicks (p.bursts.drop (p.curBurst + 1)) + 1 = _
  omega

/-- The last tick of a CPU burst leaves the bursts after it. -/
theorem Ok.cpuLeft_last (h : p.Ok) (hrun : p.state = .running)
    (hzero : p.ticked.burstRemaining = 0) :
    cpuTicks (p.bursts.drop (p.curBurst + 1)) + 1 = p.cpuLeft := by
  obtain ⟨b, hb, hcpu, -, -⟩ := h.cpu (.inr (.inr hrun))
  have hleft := h.cpuLeft_ticked hrun
  have hticked : p.ticked.currentBurst = some b := hb
  rw [cpuLeft, hticked] at hleft
  dsimp only at hleft
  rw [if_pos hcpu, hzero, Nat.zero_add] at hleft
  exact hleft

/-- A tick that does not end the burst. -/
theorem Ok.ticked (h : p.Ok) (hrun : p.state = .running) (hmore : p.ticked.burstRemaining ≠ 0) :
    p.ticked.Ok := by
  obtain ⟨b, hb, hcpu, -, hle⟩ := h.cpu (.inr (.inr hrun))
  have hremaining := h.ticked_remaining hrun
  refine ⟨h.valid.of_bursts rfl, fun _ => ⟨b, hb, hcpu, by omega, by omega⟩, fun hwait => ?_,
    fun hdone => ?_⟩
  · have hstate : p.state = .waiting := hwait
    rw [hrun] at hstate
    simp at hstate
  · have hstate : p.state = .terminated := hdone
    rw [hrun] at hstate
    simp at hstate

/-- **A tick on the CPU**: the process is terminated, waiting, or running on.  If it is
waiting, the I/O that is under way is no longer to come. -/
theorem Ok.afterTick (h : p.Ok) (hrun : p.state = .running) (tick : ℕ) :
    (p.afterTick tick).Ok ∧ (p.afterTick tick).program = p.program ∧
      (p.afterTick tick).cpuLeft + 1 = p.cpuLeft ∧
      (((p.afterTick tick).state ≠ .waiting ∧ (p.afterTick tick).ioLeft = p.ioLeft) ∨
        ((p.afterTick tick).state = .waiting ∧ 1 ≤ (p.afterTick tick).burstRemaining ∧
          (p.afterTick tick).ioLeft + (p.afterTick tick).burstRemaining = p.ioLeft)) := by
  obtain ⟨b, hb, hcpu, -, -⟩ := h.cpu (.inr (.inr hrun))
  rcases afterTick_cases hb hcpu tick with ⟨hmore, heq⟩ | ⟨hzero, hnext, heq⟩ |
    ⟨nb, hzero, hnext, heq⟩
  · rw [heq]
    refine ⟨h.ticked hrun hmore, rfl, h.cpuLeft_ticked hrun, .inl ⟨?_, rfl⟩⟩
    show p.state ≠ .waiting
    simp [hrun]
  · have hcpuLeft : (p.afterTick tick).cpuLeft = 0 := by
      apply cpuLeft_of_none
      rw [heq]
      exact hnext
    refine ⟨?_, by rw [heq]; rfl, ?_, .inl ⟨by simp [heq], ?_⟩⟩
    · rw [heq]
      exact Valid.ok_of_done (h.valid.of_bursts rfl) rfl hnext
    · rw [hcpuLeft, ← h.cpuLeft_last hrun hzero,
        List.drop_eq_nil_of_le (List.getElem?_eq_none_iff.mp hnext)]
      rfl
    · rw [heq]
      exact ioLeft_past hnext
  · have hvalid : (p.afterTick tick).Valid := h.valid.of_bursts (by rw [heq]; rfl)
    have hcurrent : (p.afterTick tick).currentBurst = some nb := by
      rw [heq]
      exact hnext
    have hioLeft : (p.afterTick tick).ioLeft + (if nb.type = .cpu then 0 else nb.ticks) = p.ioLeft := by
      rw [heq]
      exact ioLeft_advance p hnext
    have hremaining : (p.afterTick tick).burstRemaining = nb.ticks := by rw [heq]
    have hstate : (p.afterTick tick).state = if nb.type = .io then .waiting else p.state := by
      rw [heq]
    have hcpuLeft : (p.afterTick tick).cpuLeft + 1 = p.cpuLeft := by
      rw [heq, ← h.cpuLeft_last hrun hzero]
      exact congrArg (· + 1) (cpuLeft_advance p hnext)
    have hprogram : (p.afterTick tick).program = p.program := by
      rw [heq]
      rfl
    cases htype : nb.type with
    | cpu =>
      rw [if_neg (by simp [htype]), hrun] at hstate
      rw [if_pos htype] at hioLeft
      exact ⟨hvalid.ok_of_cpu (.inr (.inr hstate)) hcurrent htype hremaining, hprogram, hcpuLeft,
        .inl ⟨by simp [hstate], hioLeft⟩⟩
    | io =>
      rw [if_pos htype] at hstate
      rw [if_neg (by simp [htype])] at hioLeft
      refine ⟨hvalid.ok_of_io hstate hcurrent htype, hprogram, hcpuLeft, .inr ⟨hstate, ?_, ?_⟩⟩
      · rw [hremaining]
        exact h.valid.ticks_pos nb (List.mem_of_getElem? hnext)
      · rw [hremaining]
        exact hioLeft
    | pageFault => exact absurd htype (h.valid.no_pageFault nb (List.mem_of_getElem? hnext))

end Process

/-! ## The invariant -/

namespace Sim

variable {n : ℕ} {σ : Type}

/-- The CPU ticks that are left altogether. -/
def cpuLeft (s : Sim n σ) : ℕ := ∑ i, (s.procs i).cpuLeft

/-- The I/O ticks that the processes have not come to. -/
def ioLeft (s : Sim n σ) : ℕ := ∑ i, (s.procs i).ioLeft

/-- Replacing one process changes a sum over the processes at its place. -/
theorem sum_update (f : Process → ℕ) {procs procs' : Fin n → Process} {i : Fin n} {p : Process}
    (hprocs : procs' = Function.update procs i p) :
    ∑ j, f (procs' j) + f (procs i) = ∑ j, f (procs j) + f p := by
  rw [hprocs, ← Finset.add_sum_erase _ _ (Finset.mem_univ i),
    ← Finset.add_sum_erase Finset.univ (fun j => f (procs j)) (Finset.mem_univ i),
    Function.update_self]
  have hrest : ∑ j ∈ Finset.univ.erase i, f (Function.update procs i p j)
      = ∑ j ∈ Finset.univ.erase i, f (procs j) := by
    refine Finset.sum_congr rfl (fun j hj => ?_)
    rw [Function.update_of_ne (Finset.ne_of_mem_erase hj)]
  rw [hrest]
  omega

/-- Writing a process changes what is left by its own part. -/
theorem cpuLeft_update {s t : Sim n σ} {i : Fin n} {p : Process}
    (hprocs : t.procs = Function.update s.procs i p) :
    t.cpuLeft + (s.procs i).cpuLeft = s.cpuLeft + p.cpuLeft :=
  sum_update Process.cpuLeft hprocs

/-- Writing a process changes the I/O that is left by its own part. -/
theorem ioLeft_update {s t : Sim n σ} {i : Fin n} {p : Process}
    (hprocs : t.procs = Function.update s.procs i p) :
    t.ioLeft + (s.procs i).ioLeft = s.ioLeft + p.ioLeft :=
  sum_update Process.ioLeft hprocs

variable {S : IScheduler n σ} {queue : σ → List (Fin n)} {Ok : (Fin n → Process) → σ → Prop}
  {ps : Fin n → Process} {s t : Sim n σ} {W W' : List (Fin n)}

/-- **The invariant**, with the processes `W` in the waiting list.  The process `ps i` is
the one that `simulate` was given. -/
structure Inv (queue : σ → List (Fin n)) (Ok : (Fin n → Process) → σ → Prop)
    (ps : Fin n → Process) (s : Sim n σ) (W : List (Fin n)) : Prop where
  sched_ok : Ok s.procs s.sched
  places : Places s.procs (queue s.sched) s.running W
  procs_ok : ∀ i, (s.procs i).Ok
  program_eq : ∀ i, (s.procs i).program = (ps i).program

theorem Inv.placed (h : Inv queue Ok ps s W) : Placed queue Ok s W := ⟨h.sched_ok, h.places⟩

/-- One process is replaced. -/
theorem Inv.move (h : Inv queue Ok ps s W) {i : Fin n} {p : Process}
    (hprocs : t.procs = Function.update s.procs i p) (hp : p.Ok)
    (hprogram : p.program = (s.procs i).program) (hplaced : Placed queue Ok t W') :
    Inv queue Ok ps t W' := by
  refine ⟨hplaced.sched_ok, hplaced.places, fun j => ?_, fun j => ?_⟩
  · rw [hprocs]
    by_cases hj : j = i
    · subst hj
      rwa [Function.update_self]
    · rw [Function.update_of_ne hj]
      exact h.procs_ok j
  · rw [hprocs]
    by_cases hj : j = i
    · subst hj
      rw [Function.update_self, hprogram, h.program_eq]
    · rw [Function.update_of_ne hj, h.program_eq]

/-! ## Arrivals -/

/-- What is left alone while processes become ready. -/
structure SameClock (s t : Sim n σ) : Prop where
  tick_eq : t.tick = s.tick
  usefulTicks_eq : t.usefulTicks = s.usefulTicks
  csOverhead_eq : t.csOverhead = s.csOverhead
  totalCs_eq : t.totalCs = s.totalCs
  cpuLeft_eq : t.cpuLeft = s.cpuLeft
  ioLeft_eq : t.ioLeft = s.ioLeft

theorem SameClock.refl (s : Sim n σ) : SameClock s s := ⟨rfl, rfl, rfl, rfl, rfl, rfl⟩

theorem SameClock.trans {u : Sim n σ} (h : SameClock s t) (h' : SameClock t u) : SameClock s u :=
  ⟨h'.tick_eq.trans h.tick_eq, h'.usefulTicks_eq.trans h.usefulTicks_eq,
    h'.csOverhead_eq.trans h.csOverhead_eq, h'.totalCs_eq.trans h.totalCs_eq,
    h'.cpuLeft_eq.trans h.cpuLeft_eq, h'.ioLeft_eq.trans h.ioLeft_eq⟩

theorem sameClock_enqueue (S : IScheduler n σ) (s : Sim n σ) (i : Fin n) :
    SameClock s (s.enqueue S i) := by
  have hprocs : (s.enqueue S i).procs
      = Function.update s.procs i { s.procs i with state := .ready } := rfl
  have hcpu := cpuLeft_update hprocs
  have hio := ioLeft_update hprocs
  have hcpu' : ({ s.procs i with state := .ready } : Process).cpuLeft = (s.procs i).cpuLeft := rfl
  have hio' : ({ s.procs i with state := .ready } : Process).ioLeft = (s.procs i).ioLeft := rfl
  exact ⟨rfl, rfl, rfl, rfl, by omega, by omega⟩

/-- A process that arrives is queued. -/
theorem Inv.arrive (hS : S.Lawful queue Ok) (h : Inv queue Ok ps s W) (i : Fin n) :
    Inv queue Ok ps (s.arrive S i) W := by
  have hplaced := h.placed.arrive hS i
  rcases arrive_cases S s i with ⟨-, heq⟩ | ⟨hnew, -, heq⟩
  · rw [heq]
    exact h
  · rw [heq] at hplaced ⊢
    refine h.move rfl ?_ rfl hplaced
    exact (h.procs_ok i).of_wantsCpu (.inl hnew) (.inr (.inl rfl)) rfl rfl rfl

/-- **What the arrivals do**: the new processes whose time has come are ready. -/
structure Arrived (s t : Sim n σ) (l : List (Fin n)) : Prop where
  same : SameClock s t
  running_eq : t.running = s.running
  ranTicks_eq : t.ranTicks = s.ranTicks
  waiting_eq : t.waiting = s.waiting
  procs_eq : ∀ i, t.procs i = if i ∈ l ∧ (s.procs i).state = .new ∧ (s.procs i).arrival = s.tick
    then { s.procs i with state := .ready } else s.procs i

/-- One more process has been looked at. -/
theorem Arrived.arrive {l : List (Fin n)} (h : Arrived s t l) {i : Fin n} (hi : i ∉ l) :
    Arrived s (t.arrive S i) (l ++ [i]) := by
  have hti : t.procs i = s.procs i := by
    rw [h.procs_eq, if_neg (fun hin => hi hin.1)]
  rcases arrive_cases S t i with ⟨hnot, heq⟩ | ⟨hnew, harrival, heq⟩
  · rw [heq]
    refine ⟨h.same, h.running_eq, h.ranTicks_eq, h.waiting_eq, fun j => ?_⟩
    rw [h.procs_eq]
    rw [hti, h.same.tick_eq] at hnot
    by_cases hj : j = i
    · subst hj
      rw [if_neg (fun hin => hi hin.1), if_neg]
      rintro ⟨-, hnew, harrival⟩
      exact hnot.elim (fun hne => hne hnew) (fun hne => hne harrival)
    · simp only [List.mem_append, List.mem_singleton, hj, or_false]
  · rw [heq]
    refine ⟨h.same.trans (sameClock_enqueue S t i), h.running_eq, h.ranTicks_eq, h.waiting_eq, fun j => ?_⟩
    rw [hti] at hnew harrival
    rw [h.same.tick_eq] at harrival
    show Function.update t.procs i { t.procs i with state := .ready } j = _
    by_cases hj : j = i
    · subst hj
      rw [Function.update_self, hti, if_pos ⟨by simp, hnew, harrival⟩]
    · rw [Function.update_of_ne hj, h.procs_eq]
      simp only [List.mem_append, List.mem_singleton, hj, or_false]

/-- The loop looks at every process once. -/
theorem arrived_arrivals (S : IScheduler n σ) (s : Sim n σ) :
    Arrived s (s.arrivals S) (List.finRange n) := by
  have hfold : ∀ (l l' : List (Fin n)) (t : Sim n σ), (l' ++ l).Nodup → Arrived s t l' →
      Arrived s (l.foldl (Sim.arrive S) t) (l' ++ l) := by
    intro l
    induction l with
    | nil =>
      intro l' t _ h
      rwa [List.append_nil]
    | cons i l ih =>
      intro l' t hnodup h
      have hi : i ∉ l' := by
        intro hmem
        exact (List.nodup_append.mp hnodup).2.2 i hmem i (List.mem_cons_self ..) rfl
      rw [List.foldl_cons, ← List.singleton_append, ← List.append_assoc]
      refine ih (l' ++ [i]) (t.arrive S i) ?_ (h.arrive hi)
      rwa [List.append_assoc, List.singleton_append]
  apply hfold (List.finRange n) [] s (List.nodup_finRange n)
  exact ⟨.refl s, rfl, rfl, rfl, fun i => by simp⟩

/-- The arrivals keep the invariant. -/
theorem Inv.arrivals (hS : S.Lawful queue Ok) (h : Inv queue Ok ps s W) :
    Inv queue Ok ps (s.arrivals S) W := by
  have hfold : ∀ (l : List (Fin n)) (t : Sim n σ), Inv queue Ok ps t W →
      Inv queue Ok ps (l.foldl (Sim.arrive S) t) W := by
    intro l
    induction l with
    | nil => exact fun t ht => ht
    | cons i l ih => exact fun t ht => ih _ (ht.arrive hS i)
  exact hfold _ s h

/-! ## I/O completions -/

/-- What the end of an I/O burst does: the process is ready or has terminated. -/
theorem Inv.completeIo (hS : S.Lawful queue Ok) (h : Inv queue Ok ps s W) {i : Fin n}
    (hi : (s.procs i).state = .waiting) (hW : ∀ j, W'.count j = if j = i then 0 else W.count j) :
    Inv queue Ok ps (s.completeIo S i) W' ∧ SameClock s (s.completeIo S i) ∧
      (s.completeIo S i).running = s.running ∧ (s.completeIo S i).ranTicks = s.ranTicks ∧
      ∃ p, (s.completeIo S i).procs = Function.update s.procs i p ∧
        (p.state = .ready ∨ p.state = .terminated) := by
  obtain ⟨hprocs, htick, hrunning⟩ := procs_completeIo S s i
  obtain ⟨hok, hprogram, hleft, hio, hstate⟩ := (h.procs_ok i).serviced hi s.tick
  have hcpuSum := cpuLeft_update hprocs
  have hioSum := ioLeft_update hprocs
  have hsame : (s.completeIo S i).usefulTicks = s.usefulTicks ∧
      (s.completeIo S i).csOverhead = s.csOverhead ∧ (s.completeIo S i).totalCs = s.totalCs ∧
      (s.completeIo S i).ranTicks = s.ranTicks := by
    unfold Sim.completeIo
    split <;> exact ⟨rfl, rfl, rfl, rfl⟩
  refine ⟨h.move hprocs hok hprogram (h.placed.completeIo hS hi hW), ?_, hrunning, hsame.2.2.2,
    _, hprocs, hstate⟩
  exact ⟨htick, hsame.1, hsame.2.1, hsame.2.2.1, by omega, by omega⟩

/-- **What the loop over the waiting list does.**  Processes that are not waiting are left
alone, and those that leave the list become ready or terminate. -/
structure Serviced (s t : Sim n σ) : Prop where
  same : SameClock s t
  running_eq : t.running = s.running
  ranTicks_eq : t.ranTicks = s.ranTicks
  procs_eq : ∀ i, (s.procs i).state ≠ .waiting → t.procs i = s.procs i
  state_of_waiting : ∀ i, (s.procs i).state = .waiting →
    t.procs i = s.procs i ∨ (t.procs i).state = .ready ∨ (t.procs i).state = .terminated

theorem Serviced.refl (s : Sim n σ) : Serviced s s :=
  ⟨.refl s, rfl, rfl, fun _ _ => rfl, fun _ _ => .inl rfl⟩

theorem Serviced.trans {u : Sim n σ} (h : Serviced s t) (h' : Serviced t u) : Serviced s u := by
  refine ⟨h.same.trans h'.same, h'.running_eq.trans h.running_eq,
    h'.ranTicks_eq.trans h.ranTicks_eq, fun i hi => ?_, fun i hi => ?_⟩
  · rw [h'.procs_eq i (by rwa [h.procs_eq i hi]), h.procs_eq i hi]
  · rcases h.state_of_waiting i hi with heq | hstate
    · rcases h'.state_of_waiting i (heq ▸ hi) with heq' | hstate'
      · exact .inl (heq'.trans heq)
      · exact .inr hstate'
    · refine .inr ?_
      rw [h'.procs_eq i (by rcases hstate with h | h <;> simp [h])]
      exact hstate

/-- The loop over the rest of the waiting processes; `kept` still waits. -/
theorem Inv.ioLoop (hS : S.Lawful queue Ok) {kept : List (Fin n)} {rest : List (Fin n × ℕ)}
    (h : Inv queue Ok ps s (kept ++ rest.map Prod.fst)) :
    Inv queue Ok ps (ioLoop S rest s).2 (kept ++ (ioLoop S rest s).1.map Prod.fst) ∧
      Serviced s (ioLoop S rest s).2 := by
  induction rest generalizing s kept with
  | nil => exact ⟨h, .refl s⟩
  | cons x rest ih =>
    obtain ⟨i, ticks⟩ := x
    have hmem : i ∈ kept ++ ((i, ticks) :: rest).map Prod.fst := by simp
    have hwait := h.places.state_of_mem_waiting hmem
    rw [Sim.ioLoop]
    by_cases hzero : dec32 ticks = 0
    · rw [if_pos hzero]
      -- the process leaves the list
      obtain ⟨hinv, hsame, hrunning, hran, p, hprocs, hp⟩ :=
        h.completeIo hS hwait h.places.count_leave
      have hserviced : Serviced s (s.completeIo S i) := by
        refine ⟨hsame, hrunning, hran, fun j hj => ?_, fun j hj => ?_⟩
        · rw [hprocs, Function.update_of_ne (by rintro rfl; exact hj hwait)]
        · rw [hprocs]
          by_cases hji : j = i
          · subst hji
            rw [Function.update_self]
            exact .inr hp
          · rw [Function.update_of_ne hji]
            exact .inl rfl
      obtain ⟨hinv', hserviced'⟩ := ih hinv
      exact ⟨hinv', hserviced.trans hserviced'⟩
    · rw [if_neg hzero]
      -- the process stays
      have hkept : Inv queue Ok ps s ((kept ++ [i]) ++ rest.map Prod.fst) := by
        rw [List.append_assoc]
        exact h
      obtain ⟨hinv, hserviced⟩ := ih hkept
      rw [List.append_assoc] at hinv
      exact ⟨hinv, hserviced⟩

/-- The I/O completions of a tick keep the invariant. -/
theorem Inv.ioCompletions (hS : S.Lawful queue Ok)
    (h : Inv queue Ok ps s (s.waiting.map Prod.fst)) :
    Inv queue Ok ps (s.ioCompletions S) ((s.ioCompletions S).waiting.map Prod.fst) ∧
      Serviced s (s.ioCompletions S) := by
  have hnil : Inv queue Ok ps s ([] ++ s.waiting.map Prod.fst) := h
  obtain ⟨hinv, hserviced⟩ := hnil.ioLoop hS
  exact ⟨⟨hinv.sched_ok, hinv.places, hinv.procs_ok, hinv.program_eq⟩,
    ⟨⟨hserviced.same.tick_eq, hserviced.same.usefulTicks_eq, hserviced.same.csOverhead_eq,
      hserviced.same.totalCs_eq, hserviced.same.cpuLeft_eq, hserviced.same.ioLeft_eq⟩,
      hserviced.running_eq,
      hserviced.ranTicks_eq, hserviced.procs_eq, hserviced.state_of_waiting⟩⟩

/-- The arrivals and the completions together. -/
theorem Inv.serviced (hS : S.Lawful queue Ok) (h : Inv queue Ok ps s (s.waiting.map Prod.fst)) :
    Inv queue Ok ps ((s.arrivals S).ioCompletions S)
        (((s.arrivals S).ioCompletions S).waiting.map Prod.fst) ∧
      Serviced (s.arrivals S) ((s.arrivals S).ioCompletions S) := by
  apply Inv.ioCompletions hS
  rw [(arrived_arrivals S s).waiting_eq]
  exact h.arrivals hS

/-! ## Preemption and dispatch -/

/-- A preempted process is in the queue again. -/
theorem Inv.preempt (hS : S.Lawful queue Ok) (h : Inv queue Ok ps s W) :
    Inv queue Ok ps (s.preempt S) W ∧ SameClock s (s.preempt S) ∧
      (s.preempt S).waiting = s.waiting ∧
      ∀ i, (s.procs i).state ≠ .running → (s.preempt S).procs i = s.procs i := by
  have hplaced := (h.placed.preempt hS).1
  rcases preempt_cases S s with ⟨-, heq⟩ | ⟨i, hrun, -, heq⟩
  · rw [heq]
    exact ⟨h, .refl s, rfl, fun _ _ => rfl⟩
  · have hstate := (h.places.running i).mp hrun
    rw [heq] at hplaced ⊢
    have hsame := sameClock_enqueue S s i
    refine ⟨?_, ⟨rfl, rfl, rfl, rfl, hsame.cpuLeft_eq, hsame.ioLeft_eq⟩, rfl, fun j hj => ?_⟩
    · refine h.move rfl ?_ rfl hplaced
      exact (h.procs_ok i).of_wantsCpu (.inr (.inr hstate)) (.inr (.inl rfl)) rfl rfl rfl
    · have hne : j ≠ i := by
        rintro rfl
        exact hj hstate
      exact Function.update_of_ne hne _ _

theorem Inv.dispatch (hS : S.Lawful queue Ok) (cs : CsModel) (h : Inv queue Ok ps s W) :
    Inv queue Ok ps (s.dispatch S cs) W ∧
      (s.dispatch S cs).usefulTicks = s.usefulTicks ∧ (s.dispatch S cs).cpuLeft = s.cpuLeft ∧
      (s.dispatch S cs).ioLeft = s.ioLeft ∧ (s.dispatch S cs).waiting = s.waiting ∧
      ∀ i, (s.procs i).state ≠ .ready → (s.dispatch S cs).procs i = s.procs i := by
  obtain ⟨hplaced, hwaiting⟩ := h.placed.dispatch hS cs
  rcases dispatch_cases S cs s with ⟨i, -, heq⟩ | ⟨-, -, heq⟩ | ⟨i, -, hpick, heq⟩
  · rw [heq]
    exact ⟨h, rfl, rfl, rfl, rfl, fun _ _ => rfl⟩
  · rw [heq] at hplaced ⊢
    exact ⟨⟨hplaced.sched_ok, hplaced.places, h.procs_ok, h.program_eq⟩, rfl, rfl, rfl, rfl,
      fun _ _ => rfl⟩
  · have hready := h.placed.ready_of_pick hS hpick
    have hprocs : (s.dispatch S cs).procs = Function.update s.procs i (s.dispatched cs i) := by
      rw [heq]
      show Function.update (s.chargeSwitch cs).procs i _ = _
      rw [procs_chargeSwitch]
    have hcpuSum := cpuLeft_update hprocs
    have hioSum := ioLeft_update hprocs
    have hcpu : (s.dispatched cs i).cpuLeft = (s.procs i).cpuLeft := rfl
    have hio : (s.dispatched cs i).ioLeft = (s.procs i).ioLeft := rfl
    refine ⟨h.move hprocs ?_ rfl hplaced, ?_, by omega, by omega, hwaiting, fun j hj => ?_⟩
    · exact (h.procs_ok i).of_wantsCpu (.inr (.inl hready)) (.inr (.inr rfl)) rfl rfl rfl
    · rw [heq]
      exact usefulTicks_chargeSwitch cs s
    · have hne : j ≠ i := by
        rintro rfl
        exact hj hready
      rw [hprocs, Function.update_of_ne hne]

/-! ## A tick on the CPU -/

/-- The end of a burst is no useful tick. -/
theorem usefulTicks_endBurst (s : Sim n σ) (i : Fin n) :
    (s.endBurst i).usefulTicks = s.usefulTicks := by
  unfold endBurst
  split
  · rfl
  · split_ifs
    · split
      · split
        · rfl
        · split_ifs <;> rfl
      · rfl
    · rfl

/-- A tick of the running process is a useful tick. -/
theorem usefulTicks_runTick {i : Fin n} (hrun : s.running = some i) :
    s.runTick.usefulTicks = add32 s.usefulTicks 1 := by
  unfold Sim.runTick
  rw [hrun]
  dsimp only
  split_ifs
  · rw [usefulTicks_endBurst]
  · rfl

/-- A tick of the running process keeps the invariant. -/
theorem Inv.runTick (hS : S.Lawful queue Ok) (h : Inv queue Ok ps s (s.waiting.map Prod.fst)) :
    Inv queue Ok ps s.runTick (s.runTick.waiting.map Prod.fst) := by
  cases hrun : s.running with
  | none =>
    rw [runTick_of_none hrun]
    exact h
  | some i =>
    have hstate := (h.places.running i).mp hrun
    obtain ⟨hok, hprogram, -⟩ := (h.procs_ok i).afterTick hstate s.tick
    exact h.move (leaves_runTick hrun hstate).procs_eq hok hprogram (h.placed.runTick hS)

/-! ## Iterations -/

theorem Inv.beforeTick (hS : S.Lawful queue Ok) (cs : CsModel)
    (h : Inv queue Ok ps s (s.waiting.map Prod.fst)) :
    Inv queue Ok ps (s.beforeTick S cs) ((s.beforeTick S cs).waiting.map Prod.fst) ∧
      (s.beforeTick S cs).usefulTicks = s.usefulTicks ∧
      (s.beforeTick S cs).cpuLeft = s.cpuLeft ∧ (s.beforeTick S cs).ioLeft = s.ioLeft ∧
      (s.beforeTick S cs).waiting = (Sim.ioLoop S s.waiting (s.arrivals S)).1 := by
  have harrived := arrived_arrivals S s
  obtain ⟨h₂, hserviced⟩ := h.serviced hS
  obtain ⟨h₃, hsame, hwaiting₃, -⟩ := h₂.preempt hS
  obtain ⟨h₄, huseful, hcpu, hio, hwaiting₄, -⟩ := h₃.dispatch hS cs
  refine ⟨?_, ?_, ?_, ?_, ?_⟩
  · unfold Sim.beforeTick
    rw [hwaiting₄, hwaiting₃]
    exact h₄
  · unfold Sim.beforeTick
    rw [huseful, hsame.usefulTicks_eq, hserviced.same.usefulTicks_eq,
      harrived.same.usefulTicks_eq]
  · unfold Sim.beforeTick
    rw [hcpu, hsame.cpuLeft_eq, hserviced.same.cpuLeft_eq, harrived.same.cpuLeft_eq]
  · unfold Sim.beforeTick
    rw [hio, hsame.ioLeft_eq, hserviced.same.ioLeft_eq, harrived.same.ioLeft_eq]
  · unfold Sim.beforeTick
    rw [hwaiting₄, hwaiting₃, ← harrived.waiting_eq]
    rfl

/-- A round of the loop keeps the invariant. -/
theorem Inv.step (hS : S.Lawful queue Ok) (cs : CsModel)
    (h : Inv queue Ok ps s (s.waiting.map Prod.fst)) :
    Inv queue Ok ps (s.step S cs) ((s.step S cs).waiting.map Prod.fst) := by
  have hrun := (h.beforeTick hS cs).1.runTick hS
  exact ⟨hrun.sched_ok, hrun.places, hrun.procs_ok, hrun.program_eq⟩

/-- An iteration runs a tick exactly if a process is running when it comes to that. -/
theorem Inv.work_step (hS : S.Lawful queue Ok) (cs : CsModel)
    (h : Inv queue Ok ps s (s.waiting.map Prod.fst)) :
    ((s.beforeTick S cs).running = none ∧ (s.step S cs).usefulTicks = s.usefulTicks ∧
      (s.step S cs).cpuLeft = s.cpuLeft) ∨
    ((s.beforeTick S cs).running ≠ none ∧ (s.step S cs).usefulTicks = add32 s.usefulTicks 1 ∧
      (s.step S cs).cpuLeft + 1 = s.cpuLeft) := by
  obtain ⟨hb, huseful, hleft, -, -⟩ := h.beforeTick hS cs
  cases hrun : (s.beforeTick S cs).running with
  | none =>
    refine .inl ⟨rfl, ?_, ?_⟩
    · rw [step_eq, runTick_of_none hrun]
      exact huseful
    · rw [step_eq, runTick_of_none hrun]
      exact hleft
  | some i =>
    have hstate := (hb.places.running i).mp hrun
    obtain ⟨-, -, hp, -⟩ := (hb.procs_ok i).afterTick hstate (s.beforeTick S cs).tick
    have hsum := cpuLeft_update (leaves_runTick hrun hstate).procs_eq
    refine .inr ⟨by simp, ?_, ?_⟩
    · rw [step_eq]
      show (s.beforeTick S cs).runTick.usefulTicks = _
      rw [usefulTicks_runTick hrun, huseful]
    · show (s.beforeTick S cs).runTick.cpuLeft + 1 = _
      omega

/-- `simulate` starts with the invariant. -/
theorem inv_start (hvalid : ∀ i, (ps i).Valid) (sched : σ) (hqueue : queue sched = [])
    (hok : ∀ procs, Ok procs sched) : Inv queue Ok ps (start sched ps) [] := by
  have hplaced : Placed queue Ok (start sched ps) [] := placed_start hqueue hok
  exact ⟨hplaced.sched_ok, hplaced.places, fun i => (hvalid i).ok_reset, fun i => rfl⟩

/-- The useful ticks are the CPU ticks that the processes have run, counted in 32 bits. -/
def Counted (ps : Fin n → Process) (s : Sim n σ) : Prop :=
  ∃ ran, s.usefulTicks = ran % 2 ^ 32 ∧ ran + s.cpuLeft = ∑ i, cpuTicks (ps i).bursts

/-- **The invariant holds at the top of every iteration**, and the ticks are counted. -/
theorem AtTop.inv (hS : S.Lawful queue Ok) {cs : CsModel} (hvalid : ∀ i, (ps i).Valid) {sched : σ}
    (hqueue : queue sched = []) (hok : ∀ procs, Ok procs sched)
    (h : AtTop S cs (Sim.start sched ps) s) :
    Inv queue Ok ps s (s.waiting.map Prod.fst) ∧ Counted ps s := by
  induction h with
  | start =>
    refine ⟨inv_start hvalid sched hqueue hok, 0, rfl, ?_⟩
    rw [Nat.zero_add]
    exact Finset.sum_congr rfl (fun i _ => (hvalid i).cpuLeft_reset)
  | @next s _ _ ih =>
    obtain ⟨hinv, ran, hran, hsum⟩ := ih
    refine ⟨hinv.step hS cs, ?_⟩
    rcases hinv.work_step hS cs with ⟨-, huseful, hleft⟩ | ⟨-, huseful, hleft⟩
    · exact ⟨ran, huseful.trans hran, by omega⟩
    · refine ⟨ran + 1, ?_, by omega⟩
      rw [huseful, add32, hran, Nat.mod_add_mod]

/-- The loop ends at its top, with its condition false. -/
theorem AtTop.of_loop {cs : CsModel} {s₀ : Sim n σ} {fuel : ℕ} (h : AtTop S cs s₀ s)
    (hloop : s.loop S cs fuel = some t) : AtTop S cs s₀ t ∧ t.continues = false := by
  induction fuel generalizing s with
  | zero => simp [loop] at hloop
  | succ fuel ih =>
    rw [loop] at hloop
    split_ifs at hloop with hcontinues
    · exact ih (h.next hcontinues) hloop
    · obtain rfl := Option.some.inj hloop
      exact ⟨h, by simpa using hcontinues⟩

end Sim

/-- **`simulate` conserves CPU work.**  For each of the six policies, at the top of every
iteration, each process is in the place that its state names, and the useful ticks and
the CPU ticks that are left add up to the sum of `total_cpu_burst()`: as `uint32_t`s, and
as numbers if the workload has fewer than `2 ^ 32` CPU ticks.  Once all processes have
terminated, the useful ticks are that sum. -/
theorem simulate_conserves_work {n : ℕ} (k : SchedPolicy n) (cs : CsModel) (ps : Fin n → Process)
    (hvalid : ∀ i, (ps i).Valid) (s : Sim n k.State)
    (h : Sim.AtTop k.scheduler cs (Sim.start k.initial ps) s) :
    Places s.procs (k.queue s.sched) s.running (s.waiting.map Prod.fst) ∧
      (s.usefulTicks + ∑ i, (s.procs i).cpuLeft) % 2 ^ 32
        = (∑ i, (ps i).totalCpuBurst) % 2 ^ 32 ∧
      (∑ i, cpuTicks (ps i).bursts < 2 ^ 32 →
        s.usefulTicks + ∑ i, (s.procs i).cpuLeft = ∑ i, (ps i).totalCpuBurst) ∧
      ((∀ i, (s.procs i).state = .terminated) →
        s.usefulTicks = (∑ i, (ps i).totalCpuBurst) % 2 ^ 32) := by
  obtain ⟨hinv, ran, hran, hsum⟩ := h.inv k.lawful hvalid k.queue_initial k.ok_initial
  have hleft : s.cpuLeft = ∑ i, (s.procs i).cpuLeft := rfl
  have htotal : (∑ i, (ps i).totalCpuBurst) % 2 ^ 32
      = (∑ i, cpuTicks (ps i).bursts) % 2 ^ 32 := by
    simp only [Process.totalCpuBurst_eq]
    exact (Finset.sum_nat_mod _ _ _).symm
  refine ⟨hinv.places, ?_, fun hlt => ?_, fun hdone => ?_⟩
  · rw [htotal, hran, Nat.mod_add_mod, ← hleft, hsum]
  · have hexact : ∑ i, (ps i).totalCpuBurst = ∑ i, cpuTicks (ps i).bursts := by
      refine Finset.sum_congr rfl (fun i _ => ?_)
      rw [Process.totalCpuBurst_eq, Nat.mod_eq_of_lt]
      exact lt_of_le_of_lt
        (Finset.single_le_sum (f := fun i => cpuTicks (ps i).bursts) (fun _ _ => Nat.zero_le _)
          (Finset.mem_univ i)) hlt
    rw [hexact, hran, Nat.mod_eq_of_lt (by omega), ← hleft, hsum]
  · have hzero : s.cpuLeft = 0 :=
      Finset.sum_eq_zero (fun i _ => Process.cpuLeft_of_none ((hinv.procs_ok i).done (hdone i)))
    rw [htotal, hran, ← hsum, hzero, Nat.add_zero]

/-- A process with a short burst, I/O and another burst, and one with a long burst. -/
def shortAndLong : Fin 2 → Process :=
  ![{ pid := 1, bursts := [⟨.cpu, 1⟩, ⟨.io, 2⟩, ⟨.cpu, 2⟩] },
    { pid := 2, bursts := [⟨.cpu, 5⟩] }]

theorem shortAndLong_valid : ∀ i, (shortAndLong i).Valid
  | 0 => ⟨rfl, by decide, by decide, by decide, by decide⟩
  | 1 => ⟨rfl, by decide, by decide, by decide, by decide⟩

/-- With SRTF the short process comes back while the long one is running. -/
theorem shortAndLong_conserves_work :
    ((Sim.start (SchedPolicy.srtf (.sorting (Fin 2))).initial shortAndLong).loop
      (SchedPolicy.srtf (.sorting (Fin 2))).scheduler { costTicks := 1 } 20).map
        (fun s => (s.usefulTicks, s.tick, s.allDone)) = some (8, 12, true) ∧
    ∀ s, (Sim.start (SchedPolicy.srtf (.sorting (Fin 2))).initial shortAndLong).loop
      (SchedPolicy.srtf (.sorting (Fin 2))).scheduler { costTicks := 1 } 20 = some s →
      Places s.procs ((SchedPolicy.srtf (.sorting (Fin 2))).queue s.sched) s.running
        (s.waiting.map Prod.fst) ∧
      (s.usefulTicks + ∑ i, (s.procs i).cpuLeft) % 2 ^ 32
        = (∑ i, (shortAndLong i).totalCpuBurst) % 2 ^ 32 ∧
      (∑ i, cpuTicks (shortAndLong i).bursts < 2 ^ 32 →
        s.usefulTicks + ∑ i, (s.procs i).cpuLeft = ∑ i, (shortAndLong i).totalCpuBurst) ∧
      ((∀ i, (s.procs i).state = .terminated) →
        s.usefulTicks = (∑ i, (shortAndLong i).totalCpuBurst) % 2 ^ 32) :=
  ⟨by decide +kernel, fun s hloop =>
    simulate_conserves_work (.srtf (.sorting (Fin 2))) { costTicks := 1 } shortAndLong
      shortAndLong_valid s (Sim.AtTop.of_loop .start hloop).1⟩

end Memlab
