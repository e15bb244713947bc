/-
# The burst index of a dispatched process

`RunOneCpuSlice` reads `p.bursts[p.currentBurst]` without looking at the length of the
list.  The exit through the end of a CPU burst tests `HasMoreBursts()` before it puts the
process back into the ready queue; the exit into I/O advances `currentBurst` without that
test, and the index is used when the I/O is over, many ticks later.

`Placed` is what holds of the queues whatever the burst lists look like, together with
the range of the index wherever there is a list to index.  Admission and the countdown
keep it, and a slice keeps it if the process that it dispatches `Continues`.
-/
import MemoryAllocator.OsSchedulerWork

namespace OS

open Memory

/-! ## The condition on a dispatch -/

/-- A process as `AddProcess` is called with one. -/
def Process.Fresh (p : Process) : Prop := p.state = .new ∧ p.currentBurst = 0

namespace Scheduler

/-- The dispatched process has a list of bursts, and if this slice takes it into I/O then
there is a burst to come back to. -/
def Continues (d : Scheduler) : Prop :=
  ∀ i ∈ d.readyQueue.head?, (d.proc i).bursts ≠ [] ∧
    ((d.proc i).loaded ≤ d.quantum → 0 < (d.proc i).burst.ioTicks →
      (d.proc i).currentBurst + 1 < (d.proc i).bursts.length)

/-- The dispatched process is in one of its bursts, and is in one or has terminated when
the slice is over. -/
def StaysInBursts (d : Scheduler) : Prop :=
  ∀ i ∈ d.readyQueue.head?, (d.proc i).hasMoreBursts ∧
    ∀ t, d.runOneCpuSlice = some t →
      (t.proc i).state = .terminated ∨ (t.proc i).hasMoreBursts

variable {s t : Scheduler} {ps : List Process} {W : List ℕ} {i : ℕ}

/-- The queues between the phases of a tick of a run over the processes `ps`; `W` is the
waiting list. -/
structure Placed (ps : List Process) (s : Scheduler) (W : List ℕ) : Prop where
  length_eq : s.allProcesses.length = ps.length
  nodup : (s.readyQueue ++ W).Nodup
  lt_length : ∀ i ∈ s.readyQueue ++ W, i < s.allProcesses.length
  not_new : ∀ i ∈ s.readyQueue ++ W, (s.proc i).state ≠ .new
  fresh : ∀ i, (s.proc i).state = .new → (s.proc i).currentBurst = 0
  bursts_eq : ∀ i, (s.proc i).bursts = (ps.getD i default).bursts
  in_bursts : ∀ i ∈ s.readyQueue ++ W, (s.proc i).bursts ≠ [] → (s.proc i).hasMoreBursts

theorem Placed.congr (h : Placed ps s W) (hprocs : t.allProcesses = s.allProcesses)
    (hready : t.readyQueue = s.readyQueue) : Placed ps t W := by
  have hproc : ∀ i, t.proc i = s.proc i := fun i => by rw [proc, proc, hprocs]
  refine ⟨hprocs ▸ h.length_eq, hready ▸ h.nodup, ?_, ?_, ?_, ?_, ?_⟩
  · rw [hready, hprocs]
    exact h.lt_length
  · intro i hi
    rw [hproc]
    exact h.not_new i (hready ▸ hi)
  · intro i
    rw [hproc]
    exact h.fresh i
  · intro i
    rw [hproc]
    exact h.bursts_eq i
  · intro i hi
    rw [hproc]
    exact h.in_bursts i (hready ▸ hi)

/-- **Storing back a process** that is no longer new, and is in one of its bursts if it
stays in a queue. -/
theorem Placed.update (h : Placed ps s W) (hi : i < s.allProcesses.length) {p : Process}
    (hstate : p.state ≠ .new) (hbursts : p.bursts = (s.proc i).bursts) {R W' : List ℕ}
    (hnodup : (R ++ W').Nodup) (hmem : ∀ j ∈ R ++ W', j = i ∨ j ∈ s.readyQueue ++ W)
    (hin : i ∈ R ++ W' → p.bursts ≠ [] → p.hasMoreBursts)
    (hprocs : t.allProcesses = s.allProcesses.set i p) (hready : t.readyQueue = R) :
    Placed ps t W' := by
  have hself : t.proc i = p := proc_of_set hprocs hi
  have hother : ∀ j, j ≠ i → t.proc j = s.proc j := fun j hj => proc_of_set_ne hprocs hj
  subst hready
  have hlength : t.allProcesses.length = s.allProcesses.length := by rw [hprocs, List.length_set]
  refine ⟨hlength.trans h.length_eq, hnodup, ?_, ?_, ?_, ?_, ?_⟩
  · intro j hj
    rw [hlength]
    rcases hmem j hj with rfl | hj
    · exact hi
    · exact h.lt_length j hj
  · intro j hj
    by_cases hji : j = i
    · subst hji
      rw [hself]
      exact hstate
    · rw [hother j hji]
      exact h.not_new j ((hmem j hj).resolve_left hji)
  · intro j
    by_cases hji : j = i
    · subst hji
      rw [hself]
      exact fun hnew => absurd hnew hstate
    · rw [hother j hji]
      exact h.fresh j
  · intro j
    by_cases hji : j = i
    · subst hji
      rw [hself, hbursts]
      exact h.bursts_eq j
    · rw [hother j hji]
      exact h.bursts_eq j
  · intro j hj
    by_cases hji : j = i
    · subst hji
      rw [hself]
      exact hin hj
    · rw [hother j hji]
      exact h.in_bursts j ((hmem j hj).resolve_left hji)

/-! ## Admission and the countdown -/

/-- An admitted process begins with its first burst. -/
theorem Placed.admitOne (h : Placed ps s W) (hi : i < s.allProcesses.length) :
    Placed ps (s.admitOne i) W := by
  rcases admitOne_cases s i with ⟨a, heq⟩ | ⟨hnew, a, ptr, offset, size, created, granted, heq⟩
  · rw [heq]
    exact h.congr rfl rfl
  · have hnot : i ∉ s.readyQueue ++ W := fun hmem => h.not_new i hmem hnew
    have hperm := perm_readyQueue s.readyQueue W i
    rw [heq]
    refine h.update hi (p := { s.proc i with
        memPtr := ptr, memOffset := offset, memBlockSize := size, state := .ready })
      (by simp) rfl ?_ ?_ ?_ rfl rfl
    · rw [hperm.nodup_iff]
      exact List.nodup_cons.mpr ⟨hnot, h.nodup⟩
    · intro j hj
      exact List.mem_cons.mp (hperm.mem_iff.mp hj)
    · intro _ hne
      have hlen : 0 < (s.proc i).bursts.length := List.length_pos_iff.mpr hne
      have hcursor := h.fresh i hnew
      simpa [Process.hasMoreBursts, hcursor] using hlen

theorem Placed.admitPendingProcesses (h : Placed ps s W) : Placed ps s.admitPendingProcesses W :=
  admitPendingProcesses_induct s (P := fun u => Placed ps u W) h (fun _ _ hi hu => hu.admitOne hi)

/-- The countdown moves processes and leaves their indices alone. -/
theorem Placed.serviceIoQueue (h : Placed ps s s.waitingList) :
    Placed ps s.serviceIoQueue s.serviceIoQueue.waitingList := by
  obtain ⟨-, hnodup, -⟩ := List.nodup_append.mp h.nodup
  have hlt : ∀ i ∈ s.waitingList, i < s.allProcesses.length := fun i hi =>
    h.lt_length i (List.mem_append_right _ hi)
  have hperm := Scheduler.serviceIoQueue_perm hnodup hlt
  have hproc : ∀ j, s.serviceIoQueue.proc j
      = if j ∈ s.waitingList then (s.proc j).serviced else s.proc j :=
    (serviceLoop_spec hnodup hlt).2.2
  have hlength : s.serviceIoQueue.allProcesses.length = s.allProcesses.length :=
    (serviceLoop_frame s.waitingList s).1
  have hbursts : ∀ j, (s.serviceIoQueue.proc j).bursts = (s.proc j).bursts := by
    intro j
    rw [hproc]
    split_ifs <;> rfl
  have hcursor : ∀ j, (s.serviceIoQueue.proc j).currentBurst = (s.proc j).currentBurst := by
    intro j
    rw [hproc]
    split_ifs <;> rfl
  -- a process that is done with its wait becomes ready, the others keep their states
  have hnew : ∀ j, (s.serviceIoQueue.proc j).state = .new ↔ (s.proc j).state = .new := by
    intro j
    rw [hproc]
    split_ifs with hj
    · have hold := h.not_new j (List.mem_append_right _ hj)
      rw [Process.serviced]
      split_ifs <;> simp [hold]
    · exact Iff.rfl
  refine ⟨hlength.trans h.length_eq, hperm.nodup_iff.mpr h.nodup, ?_, ?_, ?_, ?_, ?_⟩
  · intro j hj
    rw [hlength]
    exact h.lt_length j (hperm.mem_iff.mp hj)
  · intro j hj
    rw [Ne, hnew]
    exact h.not_new j (hperm.mem_iff.mp hj)
  · intro j hj
    rw [hcursor]
    exact h.fresh j ((hnew j).mp hj)
  · intro j
    rw [hbursts]
    exact h.bursts_eq j
  · intro j hj hne
    rw [hbursts] at hne
    have hold := h.in_bursts j (hperm.mem_iff.mp hj) hne
    rwa [Process.hasMoreBursts, hcursor, hbursts]

theorem Placed.dispatch (h : Placed ps s s.waitingList) :
    Placed ps s.dispatch s.dispatch.waitingList := by
  apply Placed.serviceIoQueue
  rw [waitingList_admitPendingProcesses]
  exact h.admitPendingProcesses

/-! ## The slice -/

/-- **A slice** of a process that continues keeps the queues in their bursts. -/
theorem Placed.runOneCpuSlice (h : Placed ps s s.waitingList) (hcont : s.Continues)
    (hrun : s.runOneCpuSlice = some t) : Placed ps t t.waitingList := by
  match hq : s.readyQueue with
  | [] =>
    rw [Scheduler.runOneCpuSlice, hq] at hrun
    obtain rfl := Option.some.inj hrun
    exact h
  | idx :: queue =>
    have hmem : idx ∈ s.readyQueue ++ s.waitingList := by simp [hq]
    have hlt := h.lt_length idx hmem
    obtain ⟨hne, hio_more⟩ := hcont idx (by simp [hq])
    have hin : (s.proc idx).currentBurst < (s.proc idx).bursts.length := by
      simpa [Process.hasMoreBursts] using h.in_bursts idx hmem hne
    have hnodup := h.nodup
    rw [hq, List.cons_append, List.nodup_cons] at hnodup
    have hsub : ∀ j ∈ queue ++ s.waitingList, j = idx ∨ j ∈ s.readyQueue ++ s.waitingList := by
      intro j hj
      rw [hq]
      exact .inr (List.mem_cons_of_mem _ hj)
    have hback := perm_readyQueue queue s.waitingList idx
    have hblock : (queue ++ (s.waitingList ++ [idx])).Perm (idx :: (queue ++ s.waitingList)) := by
      rw [← List.append_assoc]
      exact List.perm_append_singleton _ _
    -- whatever order the process comes back in, the queues hold the same processes
    have hstay : ∀ l : List ℕ, l.Perm (idx :: (queue ++ s.waitingList)) →
        l.Nodup ∧ ∀ j ∈ l, j = idx ∨ j ∈ s.readyQueue ++ s.waitingList := by
      intro l hperm
      refine ⟨hperm.nodup_iff.mpr (List.nodup_cons.mpr hnodup), fun j hj => ?_⟩
      rcases List.mem_cons.mp (hperm.mem_iff.mp hj) with rfl | hj
      · exact .inl rfl
      · exact hsub j hj
    obtain ⟨rem, hrem⟩ : ∃ rem, rem = (s.proc idx).loaded - min s.quantum (s.proc idx).loaded :=
      ⟨_, rfl⟩
    rcases runOneCpuSlice_cons hq rfl hrem with ⟨hpos, log, hslice⟩ | ⟨hzero, hio, log, hslice⟩ |
      ⟨hzero, hio, hmore, log, hslice⟩ | ⟨hzero, hio, hlast, log, hslice⟩
    · -- preempted
      obtain rfl := Option.some.inj (hslice.symm.trans hrun)
      obtain ⟨hnodup', hmem'⟩ := hstay _ hback
      refine h.update hlt ?_ ?_ hnodup' hmem' ?_ rfl rfl
      · simp
      · rfl
      · intro _ _
        simpa [Process.hasMoreBursts] using hin
    · -- blocked: the index moves on untested, so there has to be a next burst
      obtain rfl := Option.some.inj (hslice.symm.trans hrun)
      obtain ⟨hnodup', hmem'⟩ := hstay _ hblock
      refine h.update hlt ?_ ?_ hnodup' hmem' ?_ rfl rfl
      · simp
      · rfl
      · intro _ _
        have hnext := hio_more (by omega) hio
        simpa [Process.hasMoreBursts] using hnext
    · -- on to the next burst
      obtain rfl := Option.some.inj (hslice.symm.trans hrun)
      obtain ⟨hnodup', hmem'⟩ := hstay _ hback
      refine h.update hlt ?_ ?_ hnodup' hmem' ?_ rfl rfl
      · simp
      · rfl
      · intro _ _
        simpa [Process.hasMoreBursts] using hmore
    · -- terminated, and in no queue any more
      obtain ⟨a, -, rfl⟩ := Option.map_eq_some_iff.mp (hslice.symm.trans hrun)
      refine h.update hlt ?_ ?_ hnodup.2 hsub ?_ rfl rfl
      · simp
      · rfl
      · exact fun hcon => absurd hcon hnodup.1

/-- A dispatched process that continues is in one of its bursts. -/
theorem Placed.hasMoreBursts (h : Placed ps s W) (hcont : s.Continues) :
    ∀ i ∈ s.readyQueue.head?, (s.proc i).hasMoreBursts := by
  intro i hi
  apply h.in_bursts i (List.mem_append_left _ (List.mem_of_mem_head? hi))
  exact (hcont i hi).1

/-- **The condition is exact**: a process continues if and only if it stays in its bursts. -/
theorem Placed.continues_iff (h : Placed ps s s.waitingList) :
    s.Continues ↔ s.StaysInBursts := by
  match hq : s.readyQueue with
  | [] => simp [Continues, StaysInBursts, hq]
  | idx :: queue =>
    have hhead : s.readyQueue.head? = some idx := by simp [hq]
    have hlt := h.lt_length idx (by simp [hq])
    obtain ⟨rem, hrem⟩ : ∃ rem, rem = (s.proc idx).loaded - min s.quantum (s.proc idx).loaded :=
      ⟨_, rfl⟩
    have hways := runOneCpuSlice_cons hq rfl hrem
    constructor
    · intro hcont i hi
      obtain rfl : idx = i := Option.some.inj (hhead.symm.trans hi)
      have hin := h.hasMoreBursts hcont idx hhead
      refine ⟨hin, fun t ht => ?_⟩
      have hin' : (s.proc idx).currentBurst < (s.proc idx).bursts.length := by
        simpa [Process.hasMoreBursts] using hin
      rcases hways with ⟨hpos, log, hslice⟩ | ⟨hzero, hio, log, hslice⟩ |
        ⟨hzero, hio, hmore, log, hslice⟩ | ⟨hzero, hio, hlast, log, hslice⟩
      · obtain rfl := Option.some.inj (hslice.symm.trans ht)
        right
        rw [proc_of_set rfl hlt]
        simpa [Process.hasMoreBursts] using hin'
      · obtain rfl := Option.some.inj (hslice.symm.trans ht)
        have hnext := (hcont idx hhead).2 (by omega) hio
        right
        rw [proc_of_set rfl hlt]
        simpa [Process.hasMoreBursts] using hnext
      · obtain rfl := Option.some.inj (hslice.symm.trans ht)
        right
        rw [proc_of_set rfl hlt]
        simpa [Process.hasMoreBursts] using hmore
      · obtain ⟨a, -, rfl⟩ := Option.map_eq_some_iff.mp (hslice.symm.trans ht)
        left
        rw [proc_of_set rfl hlt]
    · intro hstays i hi
      obtain rfl : idx = i := Option.some.inj (hhead.symm.trans hi)
      obtain ⟨hin, hafter⟩ := hstays idx hhead
      refine ⟨?_, fun hload hio => ?_⟩
      · rintro hnil
        simp [Process.hasMoreBursts, hnil] at hin
      · rcases hways with ⟨hpos, log, hslice⟩ | ⟨hzero, -, log, hslice⟩ | ⟨hzero, hcon, -⟩ |
          ⟨hzero, hcon, -⟩
        · omega
        · rcases hafter _ hslice with hterm | hmore
          · rw [proc_of_set rfl hlt] at hterm
            simp at hterm
          · rw [proc_of_set rfl hlt] at hmore
            simpa [Process.hasMoreBursts] using hmore
        · exact absurd hio (not_lt.mpr hcon)
        · exact absurd hio (not_lt.mpr hcon)

/-- Processes with lists that are not empty and do not end in I/O continue. -/
theorem Placed.continues (h : Placed ps s W)
    (hps : ∀ p ∈ ps, p.bursts ≠ [] ∧ ∀ b ∈ p.bursts.getLast?, b.ioTicks ≤ 0) : s.Continues := by
  intro i hhead
  have hmem := List.mem_append_left W (List.mem_of_mem_head? hhead)
  have hi : i < ps.length := h.length_eq ▸ h.lt_length i hmem
  have hgiven : (s.proc i).bursts ≠ [] ∧ ∀ b ∈ (s.proc i).bursts.getLast?, b.ioTicks ≤ 0 := by
    rw [h.bursts_eq, List.getD_eq_getElem _ _ hi]
    exact hps _ (List.getElem_mem hi)
  obtain ⟨hne, hlast⟩ := hgiven
  have hin : (s.proc i).currentBurst < (s.proc i).bursts.length := by
    simpa [Process.hasMoreBursts] using h.in_bursts i hmem hne
  refine ⟨hne, fun _ hio => ?_⟩
  by_contra hcon
  have hget : (s.proc i).bursts.getLast? = some (s.proc i).burst := by
    rw [List.getLast?_eq_getElem?, Process.burst, List.getD_eq_getElem _ _ hin,
      show (s.proc i).bursts.length - 1 = (s.proc i).currentBurst by omega]
    exact List.getElem?_eq_getElem hin
  have hnone := hlast _ hget
  omega

/-! ## Runs -/

/-- A tick that dispatches a process that continues leaves the queues in their bursts. -/
theorem Placed.tickOnce (h : Placed ps s s.waitingList) (hcont : s.dispatch.Continues)
    (hrun : s.tickOnce = some t) : Placed ps t t.waitingList :=
  h.dispatch.runOneCpuSlice hcont hrun

/-- **Run by run**: if what is known of every dispatch makes it continue, then the queues
are in their bursts throughout. -/
theorem Placed.dispatchesOfLoop {P : Scheduler → Prop} (h : Placed ps s s.waitingList) (n : ℕ)
    (hP : ∀ u, Placed ps u u.waitingList → P u → u.Continues)
    (hall : ∀ d ∈ Scheduler.dispatchesOfLoop n s, P d) :
    ∀ d ∈ Scheduler.dispatchesOfLoop n s, Placed ps d d.waitingList ∧ d.Continues := by
  induction n generalizing s with
  | zero => simp [Scheduler.dispatchesOfLoop]
  | succ n ih =>
    have hfirst : s.dispatch.Continues :=
      hP _ h.dispatch (hall _ (by simp [Scheduler.dispatchesOfLoop]))
    intro d hd
    rw [Scheduler.dispatchesOfLoop, List.mem_cons] at hd
    rcases hd with rfl | hd
    · exact ⟨h.dispatch, hfirst⟩
    · cases hrun : s.tickOnce with
      | none => simp [hrun] at hd
      | some t =>
        by_cases hend : t.allTerminated
        · simp [hrun, hend] at hd
        · have hnext : Placed ps { t with tick := t.tick + 1 } t.waitingList :=
            (h.tickOnce hfirst hrun).congr rfl rfl
          have hrest := (loop_succ n hrun (by simpa using hend)).1
          simp only [hrun, hend, Bool.false_eq_true, if_false] at hd
          refine ih hnext (fun e he => hall e ?_) d hd
          rw [hrest]
          exact List.mem_cons_of_mem _ he

theorem placed_create (allocator : BuddySession) (quantum : ℤ) (hps : ∀ p ∈ ps, p.Fresh) :
    Placed ps { Scheduler.create allocator quantum ps with tick := 0 } [] := by
  rw [allProcesses_create]
  refine ⟨rfl, List.nodup_nil, by simp, by simp, ?_, fun i => rfl, by simp⟩
  intro i _
  show (ps.getD i default).currentBurst = 0
  by_cases hi : i < ps.length
  · rw [List.getD_eq_getElem _ _ hi]
    exact (hps _ (List.getElem_mem hi)).2
  · rw [List.getD_eq_default _ _ (not_lt.mp hi)]
    rfl

end Scheduler

/-- **The burst index of a dispatched process.**  In a run over fresh processes with any
burst lists, as long as every dispatched process continues, every dispatch finds the
process in one of its bursts.  The processes continue throughout if and only if none is
dispatched, blocked or put back outside its list.  Lists that are not empty and do not
end in I/O are never left. -/
theorem scheduler_indexes_bursts (allocator : BuddySession) (quantum maxTicks : ℤ)
    (ps : List Process) (hps : ∀ p ∈ ps, p.Fresh) :
    ((∀ d ∈ (Scheduler.create allocator quantum ps).dispatchesOfRun maxTicks, d.Continues) →
      ∀ d ∈ (Scheduler.create allocator quantum ps).dispatchesOfRun maxTicks,
        ∀ i ∈ d.readyQueue.head?, (d.proc i).hasMoreBursts) ∧
    ((∀ d ∈ (Scheduler.create allocator quantum ps).dispatchesOfRun maxTicks, d.Continues) ↔
      ∀ d ∈ (Scheduler.create allocator quantum ps).dispatchesOfRun maxTicks,
        d.StaysInBursts) ∧
    ((∀ p ∈ ps, p.bursts ≠ [] ∧ ∀ b ∈ p.bursts.getLast?, b.ioTicks ≤ 0) →
      ∀ d ∈ (Scheduler.create allocator quantum ps).dispatchesOfRun maxTicks,
        ∀ i ∈ d.readyQueue.head?, (d.proc i).hasMoreBursts) := by
  have hplaced := Scheduler.placed_create allocator quantum hps
  have hwaiting : (Scheduler.create allocator quantum ps).waitingList = [] := by
    rw [Scheduler.allProcesses_create]
  have hstart : Scheduler.Placed ps { Scheduler.create allocator quantum ps with tick := 0 }
      (Scheduler.create allocator quantum ps).waitingList := by
    rw [hwaiting]
    exact hplaced
  have hrun := fun P => hstart.dispatchesOfLoop (P := P) maxTicks.toNat
  refine ⟨fun hcont d hd => ?_, ⟨fun hcont d hd => ?_, fun hstays d hd => ?_⟩,
    fun hlists d hd => ?_⟩
  · obtain ⟨hd', hcont'⟩ := hrun Scheduler.Continues (fun _ _ hu => hu) hcont d hd
    exact hd'.hasMoreBursts hcont'
  · obtain ⟨hd', hcont'⟩ := hrun Scheduler.Continues (fun _ _ hu => hu) hcont d hd
    exact hd'.continues_iff.mp hcont'
  · exact (hrun Scheduler.StaysInBursts (fun _ hu => hu.continues_iff.mpr) hstays d hd).2
  · obtain ⟨hd', hcont'⟩ := hrun (fun _ => True) (fun _ hu _ => hu.continues hlists)
      (fun _ _ => trivial) d hd
    exact hd'.hasMoreBursts hcont'

/-- The burst index that every dispatch of a run uses, with the length of the list. -/
def Scheduler.indicesOfRun (s : Scheduler) (maxTicks : ℤ) : List (Option (ℕ × ℕ)) :=
  (s.dispatchesOfRun maxTicks).map (fun d =>
    d.readyQueue.head?.map (fun i => ((d.proc i).currentBurst, (d.proc i).bursts.length)))

/-- The processes of the test are dispatched within their lists: they end without I/O. -/
theorem crowd_indexes_bursts :
    (Scheduler.create (testArena.start (fun _ => 0)) 2 crowd).indicesOfRun 9
      = [some (0, 2), some (0, 1), some (0, 2), none, some (1, 2), some (0, 1)] ∧
    ∀ d ∈ (Scheduler.create (testArena.start (fun _ => 0)) 2 crowd).dispatchesOfRun 9,
      ∀ i ∈ d.readyQueue.head?, (d.proc i).hasMoreBursts :=
  ⟨by decide +kernel,
    (scheduler_indexes_bursts (testArena.start (fun _ => 0)) 2 9 crowd (fun p hp =>
      ⟨(crowd_wellFormed p hp).state_eq, (crowd_wellFormed p hp).currentBurst_eq⟩)).2.2
      (fun p hp => ⟨(crowd_wellFormed p hp).bursts_ne, fun b hb =>
        ((crowd_wellFormed p hp).last_io b hb).le⟩)⟩

/-- A process whose only burst ends in one tick of I/O, and one without bursts. -/
def tailed : Process where
  id := 1
  name := "editor"
  arrivalTick := 0
  memoryRequest := 64
  bursts := [⟨1, 1⟩]

def burstless : Process := { tailed with bursts := [] }

/-- The first is dispatched again when its I/O is over, at index 1 of a list of one burst;
the second is dispatched at index 0 of the empty list. -/
theorem scheduler_indexes_past_the_list :
    (Scheduler.create (testArena.start (fun _ => 0)) 2 [tailed]).indicesOfRun 9
      = [some (0, 1), some (1, 1)] ∧
    (Scheduler.create (testArena.start (fun _ => 0)) 2 [burstless]).indicesOfRun 9
      = [some (0, 0)] ∧
    ¬ ∀ (allocator : BuddySession) (quantum maxTicks : ℤ) (ps : List Process), 1 ≤ quantum →
      (∀ p ∈ ps, p.Fresh ∧ ∀ b ∈ p.bursts, 1 ≤ b.cpuTicks) →
      ∀ d ∈ (Scheduler.create allocator quantum ps).dispatchesOfRun maxTicks,
        ∀ i ∈ d.readyQueue.head?, (d.proc i).hasMoreBursts := by
  have htailed : (Scheduler.create (testArena.start (fun _ => 0)) 2 [tailed]).indicesOfRun 9
      = [some (0, 1), some (1, 1)] := by
    decide +kernel
  refine ⟨htailed, by decide +kernel, fun hclaim => ?_⟩
  -- the second dispatch of the first run
  have hmem : some (1, 1)
      ∈ (Scheduler.create (testArena.start (fun _ => 0)) 2 [tailed]).indicesOfRun 9 := by
    simp [htailed]
  obtain ⟨d, hd, hindex⟩ := List.mem_map.mp hmem
  obtain ⟨i, hi, hpair⟩ := Option.map_eq_some_iff.mp hindex
  obtain ⟨hcursor, hlength⟩ := Prod.mk.inj hpair
  have hmore := hclaim _ 2 9 [tailed] (by norm_num)
    (by simp [Process.Fresh, tailed]) d hd i hi
  rw [Process.hasMoreBursts, hcursor, hlength] at hmore
  simp at hmore

end OS
