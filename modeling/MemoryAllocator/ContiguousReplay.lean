/-
# Replaying the trace of the contiguous arena

A process that is ready is at most once in the queue or on the CPU, and the processes in
the waiting list are waiting.  So whatever is released is live, and each part of a tick
keeps the agreement of the allocator with the page (`Inv`).  A process that waits for
memory is new, and its arrival is past.
-/
import MemoryAllocator.ContiguousStored

namespace Memlab

namespace Arena

variable {n : ℕ} {ps : Fin n → ArenaProcess} {s t u : Arena n} {i : Fin n}
  {W W' M M' : List (Fin n)}

/-! ## Lists of processes in a state -/

/-- The list has processes of one state, each at most once. -/
structure InState (f : Fin n → State) (state : State) (l : List (Fin n)) : Prop where
  nodup : l.Nodup
  state : ∀ i ∈ l, f i = state

section InState

variable {f g : Fin n → State} {state : State} {l l' : List (Fin n)}

theorem InState.nil (f : Fin n → State) (state : State) : InState f state [] :=
  ⟨.nil, fun _ hi => absurd hi List.not_mem_nil⟩

theorem InState.perm (h : InState f state l) (hperm : l.Perm l') : InState f state l' :=
  ⟨hperm.nodup_iff.mp h.nodup, fun i hi => h.state i (hperm.mem_iff.mpr hi)⟩

theorem InState.sublist (h : InState f state l) (hsub : l'.Sublist l) : InState f state l' :=
  ⟨h.nodup.sublist hsub, fun i hi => h.state i (hsub.subset hi)⟩

theorem InState.notMem (h : InState f state l) (hi : f i ≠ state) : i ∉ l :=
  fun hin => hi (h.state i hin)

/-- A process that is not in the list changes. -/
theorem InState.update (h : InState f state l) (hi : i ∉ l) (state' : State) :
    InState (Function.update f i state') state l := by
  refine ⟨h.nodup, fun j hj => ?_⟩
  have hji : j ≠ i := fun heq => hi (heq ▸ hj)
  rw [Function.update_of_ne hji]
  exact h.state j hj

/-- A process enters the state. -/
theorem InState.enter (h : InState f state l) (hi : i ∉ l) :
    InState (Function.update f i state) state (i :: l) := by
  refine ⟨.cons hi h.nodup, fun j hj => ?_⟩
  rcases List.mem_cons.mp hj with rfl | hj
  · exact Function.update_self ..
  · exact (h.update hi state).state j hj

end InState

/-! ## The invariant -/

/-- **The invariant** within a tick, with the processes that wait for I/O and those that
wait for memory. -/
structure Inv (ps : Fin n → ArenaProcess) (s : Arena n) (W M : List (Fin n)) : Prop where
  data : ∀ i, (s.procs i).data = (ps i).data
  cpu : InState s.states .ready (s.sched.q ++ s.running.toList)
  io : InState s.states .waiting W
  mem : InState s.states .new M
  known : ∀ i ∈ M, (s.page.processes.get (ps i).pid).isSome
  stored : Stored s s.page

theorem Inv.perm (h : Inv ps s W M) (hW : W.Perm W') (hM : M.Perm M') : Inv ps s W' M' :=
  ⟨h.data, h.cpu, h.io.perm hW, h.mem.perm hM, fun i hi => h.known i (hM.mem_iff.mpr hi), h.stored⟩

/-- What concerns the memory has not changed, and the lists are as they should be. -/
theorem Inv.quiet (h : Inv ps s W M) (hquiet : Quiet s t)
    (hcpu : InState t.states .ready (t.sched.q ++ t.running.toList))
    (hio : InState t.states .waiting W') (hmem : InState t.states .new M) : Inv ps t W' M :=
  ⟨fun i => (hquiet.data i).trans (h.data i), hcpu, hio, hmem,
    fun i hi => hquiet.known _ (h.known i hi), h.stored.quiet hquiet⟩

/-- A process has moved. -/
theorem Inv.moved {state : State} {queue : List (Fin n)} (h : Inv ps s W M)
    (hmoved : Moved s t i state queue)
    (hcpu : InState t.states .ready (queue ++ s.running.toList)) (hW : W'.Sublist W) (hiW : i ∉ W')
    (hM : M'.Sublist M) (hiM : i ∉ M') : Inv ps t W' M' := by
  refine ⟨fun j => (hmoved.data j).trans (h.data j), ?_, ?_, ?_, fun j hj => ?_, hmoved.stored⟩
  · rw [hmoved.queue, hmoved.running]
    exact hcpu
  · rw [hmoved.states]
    exact (h.io.sublist hW).update hiW state
  · rw [hmoved.states]
    exact (h.mem.sublist hM).update hiM state
  · exact hmoved.known _ (h.known j (hM.subset hj))

/-- A process becomes ready. -/
theorem Inv.moved_ready (h : Inv ps s W M) (hmoved : Moved s t i .ready (s.sched.q ++ [i]))
    (hi : s.states i ≠ .ready) (hW : W'.Sublist W) (hiW : i ∉ W') (hM : M'.Sublist M)
    (hiM : i ∉ M') : Inv ps t W' M' := by
  refine h.moved hmoved ?_ hW hiW hM hiM
  rw [hmoved.states]
  apply (h.cpu.enter (h.cpu.notMem hi)).perm
  rw [List.append_assoc]
  exact List.perm_middle.symm

/-- A process that waits for memory still waits, or is admitted. -/
theorem Inv.tryAdmit (h : Inv ps s W (i :: M)) (hpids : Function.Injective (fun j => (ps j).pid))
    (hpos : ∀ j, 1 ≤ (ps j).memBytes) :
    s.tryAdmit i = (false, s) ∨ ∃ t, s.tryAdmit i = (true, t) ∧ Inv ps t W M ∧
      Moved s t i .ready (s.sched.q ++ [i]) := by
  have hin : i ∈ i :: M := List.mem_cons_self ..
  have hnew := h.mem.state i hin
  have hknown : (s.page.processes.get (s.procs i).pid).isSome := by
    rw [ArenaProcess.pid_of_data (h.data i)]
    exact h.known i hin
  rcases tryAdmit_cases h.data hpids (hpos i) h.stored hnew hknown with heq | ⟨t, heq, hmoved⟩
  · exact .inl heq
  · refine .inr ⟨t, heq, ?_, hmoved⟩
    have hiW : i ∉ W := h.io.notMem (by simp [hnew])
    have hiM : i ∉ M := (List.nodup_cons.mp h.mem.nodup).1
    exact h.moved_ready hmoved (by simp [hnew]) (.refl W) hiW (List.sublist_cons_self i M) hiM

/-! ## Arrivals -/

/-- A process is created. -/
theorem Inv.created (h : Inv ps s W M) (hpids : Function.Injective (fun j => (ps j).pid))
    (hnew : s.states i = .new) (hi : i ∉ M) (name : String) (size : ℕ) :
    Inv ps (s.log (.processCreated (s.procs i).pid name size)) W (i :: M) := by
  have hpid : (s.procs i).pid = (ps i).pid := ArenaProcess.pid_of_data (h.data i)
  have hget : ∀ pid, ((s.log (.processCreated (s.procs i).pid name size)).page.processes.get pid)
      = if pid = (ps i).pid then some { name := name } else s.page.processes.get pid := by
    intro pid
    rw [page_log, ← hpid]
    exact JsMap.get_set ..
  refine ⟨h.data, h.cpu, h.io, ⟨.cons hi h.mem.nodup, fun j hj => ?_⟩, fun j hj => ?_, ?_⟩
  · rcases List.mem_cons.mp hj with rfl | hj
    · exact hnew
    · exact h.mem.state j hj
  · rw [hget]
    split_ifs with heq
    · rfl
    · rcases List.mem_cons.mp hj with rfl | hj
      · exact absurd rfl heq
      · exact h.known j hj
  · rw [page_log]
    refine ⟨h.stored.alloc, h.stored.occupied, h.stored.bytes, fun j hj => ?_⟩
    have hne : (s.procs j).pid ≠ (ps i).pid := by
      intro heq
      obtain rfl := eq_of_pid h.data hpids (heq.trans hpid.symm)
      have hlive : s.states j = .ready ∨ s.states j = .waiting := hj
      rw [hnew] at hlive
      simp at hlive
    rw [← page_log, hget]
    show (if (s.procs j).pid = _ then _ else _ : Option _).map _ = _
    rw [if_neg hne]
    exact h.stored.sizes j hj

/-- What the arrivals keep, and where the processes that wait for memory come from. -/
structure Arrived (s t : Arena n) (l : List (Fin n)) : Prop where
  tick : t.tick = s.tick
  ioWait : t.ioWait = s.ioWait
  memWait : ∀ j ∈ t.memWait, j ∈ s.memWait ∨ (j ∈ l ∧ (s.procs j).arrival = s.tick)
  arrival : ∀ j, (t.procs j).arrival = (s.procs j).arrival

theorem Arrived.refl (s : Arena n) (l : List (Fin n)) : Arrived s s l :=
  ⟨rfl, rfl, fun _ hj => .inl hj, fun _ => rfl⟩

theorem Arrived.trans {l l' : List (Fin n)} (h : Arrived s t l) (h' : Arrived t u l') :
    Arrived s u (l ++ l') := by
  refine ⟨h'.tick.trans h.tick, h'.ioWait.trans h.ioWait, fun j hj => ?_,
    fun j => (h'.arrival j).trans (h.arrival j)⟩
  rcases h'.memWait j hj with hj | ⟨hl, harrival⟩
  · rcases h.memWait j hj with hj | ⟨hl, harrival⟩
    · exact .inl hj
    · exact .inr ⟨List.mem_append_left _ hl, harrival⟩
  · rw [h.arrival, h.tick] at harrival
    exact .inr ⟨List.mem_append_right _ hl, harrival⟩

theorem Inv.arrive (h : Inv ps s W s.memWait) (hpids : Function.Injective (fun j => (ps j).pid))
    (hpos : ∀ j, 1 ≤ (ps j).memBytes)
    (hi : (s.procs i).arrival = s.tick → i ∉ s.memWait) :
    Inv ps (s.arrive i) W (s.arrive i).memWait ∧ Arrived s (s.arrive i) [i] := by
  unfold Arena.arrive
  split_ifs with hcond
  · obtain ⟨hnew, harrival⟩ := hcond
    dsimp only
    have hcreated := h.created hpids hnew (hi harrival) (s.procs i).name (s.procs i).memBytes
    rcases hcreated.tryAdmit hpids hpos with heq | ⟨t, heq, hinv, hmoved⟩
    · rw [heq]
      refine ⟨?_, rfl, rfl, fun j hj => ?_, fun _ => rfl⟩
      · have hperm : (i :: s.memWait).Perm (s.memWait ++ [i]) :=
          (List.perm_append_singleton i s.memWait).symm
        have hwait := hcreated.perm (.refl W) hperm
        exact hwait.quiet ⟨rfl, rfl, fun _ => rfl, fun _ => Iff.rfl, .refl _⟩ hwait.cpu
          hwait.io hwait.mem
      · rcases List.mem_append.mp hj with hj | hj
        · exact .inl hj
        · obtain rfl := List.mem_singleton.mp hj
          exact .inr ⟨hj, harrival⟩
    · rw [heq]
      have hmemWait : t.memWait = s.memWait := hmoved.memWait
      refine ⟨?_, hmoved.tick, hmoved.ioWait, fun j hj => ?_, fun j => ?_⟩
      · show Inv ps t W t.memWait
        rw [hmemWait]
        exact hinv
      · have hj : j ∈ t.memWait := hj
        rw [hmemWait] at hj
        exact .inl hj
      · exact ArenaProcess.arrival_of_data (hmoved.data j)
  · exact ⟨h, .refl s [i]⟩

/-- **The arrivals**: before them, the processes that wait have arrived earlier. -/
theorem Inv.arrivals (h : Inv ps s W s.memWait) (hpids : Function.Injective (fun j => (ps j).pid))
    (hpos : ∀ j, 1 ≤ (ps j).memBytes) (hearlier : ∀ j ∈ s.memWait, (s.procs j).arrival < s.tick) :
    Inv ps s.arrivals W s.arrivals.memWait ∧ Arrived s s.arrivals (List.finRange n) := by
  -- induct on the processes that have been looked at
  have hloop : ∀ l : List (Fin n), l.Nodup →
      Inv ps (l.foldl Arena.arrive s) W (l.foldl Arena.arrive s).memWait ∧
        Arrived s (l.foldl Arena.arrive s) l := by
    intro l
    induction l using List.reverseRecOn with
    | nil => exact fun _ => ⟨h, .refl s []⟩
    | append_singleton l i ih =>
      intro hnodup
      have hil : i ∉ l := by
        intro hin
        exact (List.disjoint_of_nodup_append hnodup) hin (List.mem_singleton_self i)
      obtain ⟨hinv, harrived⟩ := ih (hnodup.sublist (List.sublist_append_left l [i]))
      rw [List.foldl_append]
      obtain ⟨hinv', harrived'⟩ := hinv.arrive hpids hpos (i := i) (by
        intro harrival hin
        rw [harrived.arrival, harrived.tick] at harrival
        rcases harrived.memWait i hin with hin | ⟨hin, -⟩
        · have hlt := hearlier i hin
          omega
        · exact hil hin)
      exact ⟨hinv', harrived.trans harrived'⟩
  exact hloop (List.finRange n) (List.nodup_finRange n)

/-! ## The two waiting lists -/

theorem moved_enqueue (hstored : Stored s s.page) (hi : s.IsLive i) (preempted : Bool) :
    Moved s (s.enqueue i preempted) i .ready (s.sched.q ++ [i]) := by
  have hquiet := quiet_enqueue s hi preempted
  have hstates : (s.enqueue i preempted).states = Function.update s.states i .ready :=
    states_setProc ..
  exact ⟨hstates, hquiet.data, rfl, rfl, rfl, rfl, rfl, hquiet.known, hstored.quiet hquiet⟩

/-- A live process that is not ready ends. -/
theorem Inv.release (h : Inv ps s W M) (hpids : Function.Injective (fun j => (ps j).pid))
    (hi : s.IsLive i) (hcpu : i ∉ s.sched.q ++ s.running.toList) (hW : W'.Sublist W)
    (hiW : i ∉ W') : Inv ps (s.release i) W' M := by
  have hmoved := moved_release h.data hpids h.stored hi
  have hiM : i ∉ M := by
    refine h.mem.notMem (fun hnew => ?_)
    rcases hi with hi | hi <;> simp [hnew] at hi
  refine h.moved hmoved ?_ hW hiW (.refl M) hiM
  rw [hmoved.states]
  exact h.cpu.update hcpu .terminated

theorem Inv.setRan (h : Inv ps s W M) (ran : ℕ) : Inv ps { s with ran := ran } W M :=
  h.quiet ⟨rfl, rfl, fun _ => rfl, fun _ => Iff.rfl, .refl _⟩ h.cpu h.io h.mem

/-- A process is changed, but not its state. -/
theorem Inv.setProc (h : Inv ps s W M) {p : ArenaProcess} (hdata : p.data = (s.procs i).data)
    (hstate : p.state = s.states i) : Inv ps (s.setProc i p) W M := by
  have hstates : (s.setProc i p).states = s.states := by
    rw [states_setProc, hstate]
    exact Function.update_eq_self i s.states
  have hquiet : Quiet s (s.setProc i p) := by
    apply quiet_setProc s hdata
    rw [hstate]
    exact Iff.rfl
  refine h.quiet hquiet ?_ ?_ ?_
  · rw [hstates]
    exact h.cpu
  · rw [hstates]
    exact h.io
  · rw [hstates]
    exact h.mem

/-- A process goes to its next burst. -/
theorem Inv.advance (h : Inv ps s W M) (i : Fin n) : Inv ps (s.advance i).2 W M := by
  obtain ⟨hdata, hstate⟩ := advance_same (s.procs i)
  exact h.setProc hdata hstate

theorem Inv.log (h : Inv ps s W M) (event : ArenaEvent) (hevent : event.OfScheduler) :
    Inv ps (s.log event) W M :=
  h.quiet (quiet_log s hevent) h.cpu h.io h.mem

/-- The I/O burst of a process is over. -/
theorem Inv.completeIo (h : Inv ps s (i :: W) M)
    (hpids : Function.Injective (fun j => (ps j).pid)) : Inv ps (s.completeIo i) W M := by
  have hin : i ∈ i :: W := List.mem_cons_self ..
  have hiW : i ∉ W := (List.nodup_cons.mp h.io.nodup).1
  have hadvance := (h.log (.ioAck (s.procs i).pid) trivial).advance i
  unfold Arena.completeIo
  dsimp only
  generalize (s.log (.ioAck (s.procs i).pid)).advance i = r at hadvance
  obtain ⟨more, u⟩ := r
  have hwaiting : u.states i = .waiting := hadvance.io.state i hin
  have hcpu := hadvance.cpu.notMem (i := i) (by rw [hwaiting]; decide)
  have hiM := hadvance.mem.notMem (i := i) (by rw [hwaiting]; decide)
  cases more with
  | true =>
    have hmoved := moved_enqueue hadvance.stored (.inr hwaiting) false
    exact hadvance.moved_ready hmoved (by rw [hwaiting]; decide) (List.sublist_cons_self i W) hiW
      (.refl M) hiM
  | false => exact hadvance.release hpids (.inr hwaiting) hcpu (List.sublist_cons_self i W) hiW

/-- The parts of the state that the loop over the waiting list does not change. -/
theorem completeIo_same (s : Arena n) (i : Fin n) :
    (s.completeIo i).tick = s.tick ∧ (s.completeIo i).memWait = s.memWait := by
  unfold Arena.completeIo Arena.advance
  dsimp only
  generalize ((s.log (.ioAck (s.procs i).pid)).procs i).toProcess.advanceBurst.1 = more
  cases more <;> exact ⟨rfl, rfl⟩

/-- The loop over the rest of the waiting list; `kept` stays. -/
theorem Inv.ioLoop {rest : List (Fin n × ℕ)} {kept : List (Fin n)}
    (h : Inv ps s (rest.map Prod.fst ++ kept) M)
    (hpids : Function.Injective (fun j => (ps j).pid)) :
    Inv ps (Arena.ioLoop rest s).2 ((Arena.ioLoop rest s).1.map Prod.fst ++ kept) M ∧
      (Arena.ioLoop rest s).2.tick = s.tick ∧ (Arena.ioLoop rest s).2.memWait = s.memWait := by
  induction rest generalizing s kept with
  | nil => exact ⟨h, rfl, rfl⟩
  | cons x rest ih =>
    obtain ⟨i, ticks⟩ := x
    rw [Arena.ioLoop]
    split_ifs
    · obtain ⟨hinv, htick, hmemWait⟩ := ih (h.completeIo hpids)
      obtain ⟨htick', hmemWait'⟩ := completeIo_same s i
      exact ⟨hinv, htick.trans htick', hmemWait.trans hmemWait'⟩
    · have hkept : Inv ps s (rest.map Prod.fst ++ i :: kept) M :=
        h.perm List.perm_middle.symm (.refl M)
      obtain ⟨hinv, hsame⟩ := ih hkept
      exact ⟨hinv.perm List.perm_middle (.refl M), hsame⟩

theorem Inv.ioCompletions (h : Inv ps s (s.ioWait.map Prod.fst) M)
    (hpids : Function.Injective (fun j => (ps j).pid)) :
    Inv ps s.ioCompletions (s.ioCompletions.ioWait.map Prod.fst) M ∧
      s.ioCompletions.tick = s.tick ∧ s.ioCompletions.memWait = s.memWait := by
  rw [← List.append_nil (s.ioWait.map Prod.fst)] at h
  obtain ⟨hinv, hsame⟩ := h.ioLoop hpids
  rw [List.append_nil] at hinv
  refine ⟨?_, hsame⟩
  exact hinv.quiet ⟨rfl, rfl, fun _ => rfl, fun _ => Iff.rfl, .refl _⟩ hinv.cpu hinv.io hinv.mem

/-- The loop over the rest of the processes that wait for memory; `kept` still waits. -/
theorem Inv.memLoop {rest kept : List (Fin n)} (h : Inv ps s W (rest ++ kept))
    (hpids : Function.Injective (fun j => (ps j).pid)) (hpos : ∀ j, 1 ≤ (ps j).memBytes) :
    Inv ps (Arena.memLoop rest s).2 W ((Arena.memLoop rest s).1 ++ kept) ∧
      (Arena.memLoop rest s).1.Sublist rest ∧
      (Arena.memLoop rest s).2.tick = s.tick ∧ (Arena.memLoop rest s).2.ioWait = s.ioWait := by
  induction rest generalizing s kept with
  | nil => exact ⟨h, .refl [], rfl, rfl⟩
  | cons i rest ih =>
    rw [Arena.memLoop]
    rcases h.tryAdmit hpids hpos with heq | ⟨t, heq, hinv, hmoved⟩
    · rw [heq]
      have hkept : Inv ps s W (rest ++ i :: kept) := h.perm (.refl W) List.perm_middle.symm
      obtain ⟨hinv, hsub, hsame⟩ := ih hkept
      exact ⟨hinv.perm (.refl W) List.perm_middle, hsub.cons_cons i, hsame⟩
    · rw [heq]
      obtain ⟨hinv, hsub, htick, hioWait⟩ := ih hinv
      exact ⟨hinv, hsub.cons i, htick.trans hmoved.tick, hioWait.trans hmoved.ioWait⟩

theorem Inv.admissions (h : Inv ps s W s.memWait)
    (hpids : Function.Injective (fun j => (ps j).pid)) (hpos : ∀ j, 1 ≤ (ps j).memBytes) :
    Inv ps s.admissions W s.admissions.memWait ∧ s.admissions.memWait.Sublist s.memWait ∧
      s.admissions.tick = s.tick ∧ s.admissions.ioWait = s.ioWait := by
  rw [← List.append_nil s.memWait] at h
  obtain ⟨hinv, hsame⟩ := h.memLoop hpids hpos
  rw [List.append_nil] at hinv
  refine ⟨?_, hsame⟩
  exact hinv.quiet ⟨rfl, rfl, fun _ => rfl, fun _ => Iff.rfl, .refl _⟩ hinv.cpu hinv.io hinv.mem

/-! ## The CPU -/

theorem Inv.preempt (h : Inv ps s W M) :
    Inv ps s.preempt W M ∧ s.preempt.tick = s.tick ∧ s.preempt.memWait = s.memWait ∧
      s.preempt.ioWait = s.ioWait := by
  unfold Arena.preempt
  split
  · exact ⟨h, rfl, rfl, rfl⟩
  · rename_i i hrun
    split_ifs
    · have hcpu := h.cpu
      rw [hrun, Option.toList_some] at hcpu
      have hready : s.states i = .ready := hcpu.state i (by simp)
      have hmoved := moved_enqueue h.stored (.inl hready) true
      have hsame : (s.enqueue i true).states = s.states := by
        rw [hmoved.states, ← hready]
        exact Function.update_eq_self i s.states
      refine ⟨?_, rfl, rfl, rfl⟩
      refine h.quiet ((quiet_enqueue s (.inl hready) true).trans
        ⟨rfl, rfl, fun _ => rfl, fun _ => Iff.rfl, .refl _⟩) ?_ ?_ ?_
      · show InState (s.enqueue i true).states .ready ((s.sched.q ++ [i]) ++ [])
        rw [hsame, List.append_nil]
        exact hcpu
      · show InState (s.enqueue i true).states .waiting W
        rw [hsame]
        exact h.io
      · show InState (s.enqueue i true).states .new M
        rw [hsame]
        exact h.mem
    · exact ⟨h, rfl, rfl, rfl⟩

/-- The front of the queue goes to the CPU. -/
theorem dispatch_cases (hrun : s.running = none) :
    (s.sched.q = [] ∧ s.dispatch = s) ∨ ∃ i q, s.sched.q = i :: q ∧
      s.dispatch = { s with sched := { s.sched with q := q }, running := some i, ran := 0 }.log
        (.processScheduled (s.procs i).pid (s.procs i).curBurst) := by
  unfold Arena.dispatch
  rw [hrun]
  rcases RoundRobin.pickNext_cases s.processes s.sched with ⟨hq, hpick⟩ | ⟨i, q, hq, hpick⟩
  · have hsame : { s with running := none } = s := by rw [← hrun]
    left
    rw [hpick]
    exact ⟨hq, hsame⟩
  · right
    rw [hpick]
    exact ⟨i, q, hq, rfl⟩

theorem Inv.dispatch (h : Inv ps s W M) :
    Inv ps s.dispatch W M ∧ s.dispatch.tick = s.tick ∧ s.dispatch.memWait = s.memWait ∧
      s.dispatch.ioWait = s.ioWait := by
  cases hrun : s.running with
  | some i =>
    have heq : s.dispatch = s := by
      unfold Arena.dispatch
      rw [hrun]
    rw [heq]
    exact ⟨h, rfl, rfl, rfl⟩
  | none =>
    rcases dispatch_cases hrun with ⟨-, heq⟩ | ⟨i, q, hq, heq⟩
    · rw [heq]
      exact ⟨h, rfl, rfl, rfl⟩
    · rw [heq]
      refine ⟨Inv.log ?_ _ trivial, rfl, rfl, rfl⟩
      refine h.quiet ⟨rfl, rfl, fun _ => rfl, fun _ => Iff.rfl, .refl _⟩ ?_ h.io h.mem
      apply h.cpu.perm
      rw [hrun, hq]
      show (i :: q ++ []).Perm (q ++ [i])
      rw [List.append_nil]
      exact (List.perm_append_singleton i q).symm

/-- The running process leaves the CPU. -/
theorem Inv.stop (h : Inv ps s W M) (hrun : s.running = some i) :
    Inv ps { s with running := none, ran := 0 } W M ∧ i ∉ s.sched.q ∧ s.states i = .ready := by
  have hcpu := h.cpu
  rw [hrun, Option.toList_some] at hcpu
  have hnotin : i ∉ s.sched.q := by
    intro hin
    exact (List.disjoint_of_nodup_append hcpu.nodup) hin (List.mem_singleton_self i)
  refine ⟨?_, hnotin, hcpu.state i (by simp)⟩
  refine h.quiet ⟨rfl, rfl, fun _ => rfl, fun _ => Iff.rfl, .refl _⟩ ?_ h.io h.mem
  apply hcpu.sublist
  show (s.sched.q ++ []).Sublist (s.sched.q ++ [i])
  rw [List.append_nil]
  exact List.sublist_append_left _ _

/-- The next burst is an I/O burst. -/
theorem Inv.block (h : Inv ps s (s.ioWait.map Prod.fst) M) (hrun : s.running = some i)
    (ticks : ℕ) :
    Inv ps { s.setState i .waiting with
      ioWait := s.ioWait ++ [(i, ticks)], running := none, ran := 0 }
      ((s.ioWait ++ [(i, ticks)]).map Prod.fst) M := by
  obtain ⟨hstop, hnotin, hready⟩ := h.stop hrun
  have hstates : (s.setState i .waiting).states = Function.update s.states i .waiting :=
    states_setProc ..
  have hiW : i ∉ s.ioWait.map Prod.fst := h.io.notMem (by rw [hready]; decide)
  have hiM : i ∉ M := h.mem.notMem (by rw [hready]; decide)
  refine h.quiet ((quiet_setState s (.inl hready) (.inr rfl)).trans
    ⟨rfl, rfl, fun _ => rfl, fun _ => Iff.rfl, .refl _⟩) ?_ ?_ ?_
  · show InState (s.setState i .waiting).states .ready (s.sched.q ++ [])
    rw [hstates]
    refine hstop.cpu.update ?_ .waiting
    show i ∉ s.sched.q ++ []
    rw [List.append_nil]
    exact hnotin
  · show InState (s.setState i .waiting).states .waiting _
    rw [hstates, List.map_append]
    exact (h.io.enter hiW).perm (List.perm_append_singleton i _).symm
  · show InState (s.setState i .waiting).states .new M
    rw [hstates]
    exact h.mem.update hiM .waiting

theorem Inv.endBurst (h : Inv ps s (s.ioWait.map Prod.fst) M)
    (hpids : Function.Injective (fun j => (ps j).pid)) (hrun : s.running = some i) :
    Inv ps (s.endBurst i) ((s.endBurst i).ioWait.map Prod.fst) M ∧
      (s.endBurst i).tick = s.tick ∧ (s.endBurst i).memWait = s.memWait := by
  have hadvance := h.advance i
  have hsame : (s.advance i).2.running = s.running ∧ (s.advance i).2.ioWait = s.ioWait ∧
      (s.advance i).2.tick = s.tick ∧ (s.advance i).2.memWait = s.memWait := ⟨rfl, rfl, rfl, rfl⟩
  unfold Arena.endBurst
  generalize s.advance i = r at hadvance hsame
  obtain ⟨more, u⟩ := r
  obtain ⟨hrunning, hioWait, htick, hmemWait⟩ := hsame
  dsimp only at hadvance hrunning hioWait htick hmemWait
  rw [← hioWait] at hadvance
  rw [hrun] at hrunning
  cases more with
  | true =>
    dsimp only
    split
    · exact ⟨hadvance, htick, hmemWait⟩
    · rename_i nb hnb
      split_ifs
      · refine ⟨?_, htick, hmemWait⟩
        exact (hadvance.log (.ioRequested (u.procs i).pid nb.ticks) trivial).block hrunning
          nb.ticks
      · exact ⟨hadvance, htick, hmemWait⟩
  | false =>
    refine ⟨?_, htick, hmemWait⟩
    obtain ⟨hstop, hnotin, hready⟩ := hadvance.stop hrunning
    have hcpu : i ∉ u.sched.q ++ [] := by
      rw [List.append_nil]
      exact hnotin
    have hiW : i ∉ u.ioWait.map Prod.fst := hadvance.io.notMem (by rw [hready]; decide)
    exact hstop.release hpids (.inl hready) hcpu (.refl _) hiW

theorem Inv.runTick (h : Inv ps s (s.ioWait.map Prod.fst) M)
    (hpids : Function.Injective (fun j => (ps j).pid)) :
    Inv ps s.runTick (s.runTick.ioWait.map Prod.fst) M ∧ s.runTick.tick = s.tick ∧
      s.runTick.memWait = s.memWait := by
  unfold Arena.runTick
  split
  · exact ⟨h, rfl, rfl⟩
  · rename_i i hrun
    dsimp only
    have hlog := h.log (.cpuRun (s.procs i).pid
      (min (s.procs i).burstRemaining (sub32 s.sched.quantum s.ran))
      (dec32 (s.procs i).burstRemaining)) trivial
    have hran := (hlog.setProc (i := i)
      (p := { s.procs i with burstRemaining := dec32 (s.procs i).burstRemaining })
      rfl rfl).setRan (s.ran + 1)
    split_ifs
    · exact hran.endBurst hpids hrun
    · exact ⟨hran, rfl, rfl⟩

/-! ## Ticks -/

/-- **A tick.** -/
theorem Inv.step (h : Inv ps s (s.ioWait.map Prod.fst) s.memWait)
    (hpids : Function.Injective (fun j => (ps j).pid)) (hpos : ∀ j, 1 ≤ (ps j).memBytes)
    (hearlier : ∀ j ∈ s.memWait, (ps j).arrival < s.tick) :
    Inv ps s.step (s.step.ioWait.map Prod.fst) s.step.memWait ∧
      ∀ j ∈ s.step.memWait, (ps j).arrival < s.step.tick := by
  have harrival := fun j => ArenaProcess.arrival_of_data (h.data j)
  obtain ⟨h₁, harrived⟩ := h.arrivals hpids hpos (fun j hj => by
    rw [harrival]
    exact hearlier j hj)
  have hlate : ∀ j ∈ s.arrivals.memWait, (ps j).arrival ≤ s.tick := by
    intro j hj
    rcases harrived.memWait j hj with hj | ⟨-, heq⟩
    · exact (hearlier j hj).le
    · rw [harrival] at heq
      exact heq.le
  rw [← harrived.ioWait] at h₁
  obtain ⟨h₂, htick₂, hmem₂⟩ := h₁.ioCompletions hpids
  rw [← hmem₂] at h₂ hlate
  obtain ⟨h₃, hsub, htick₃, hio₃⟩ := h₂.admissions hpids hpos
  obtain ⟨h₄, htick₄, hmem₄, hio₄⟩ := h₃.preempt
  obtain ⟨h₅, htick₅, hmem₅, hio₅⟩ := h₄.dispatch
  rw [← hio₃, ← hio₄, ← hio₅, ← hmem₄, ← hmem₅] at h₅
  obtain ⟨h₆, htick₆, hmem₆⟩ := h₅.runTick hpids
  rw [← hmem₆] at h₆
  have htick : s.step.tick = s.tick + 1 := by
    show s.arrivals.ioCompletions.admissions.preempt.dispatch.runTick.tick + 1 = _
    rw [htick₆, htick₅, htick₄, htick₃, htick₂, harrived.tick]
  refine ⟨?_, fun j hj => ?_⟩
  · exact h₆.quiet ⟨rfl, rfl, fun _ => rfl, fun _ => Iff.rfl, .refl _⟩ h₆.cpu h₆.io h₆.mem
  · have hj : j ∈ s.arrivals.ioCompletions.admissions.preempt.dispatch.runTick.memWait := hj
    rw [hmem₆, hmem₅, hmem₄] at hj
    have hle := hlate j (hsub.subset hj)
    omega

theorem inv_start (ps : Fin n → ArenaProcess) : Inv ps (start ps) [] [] := by
  have hlive : (start ps).live = [] := by
    refine List.filter_eq_nil_iff.mpr (fun i _ => ?_)
    simp [IsLive, states, start]
  refine ⟨fun _ => rfl, .nil _ _, .nil _ _, .nil _ _, fun _ hi => absurd hi List.not_mem_nil,
    ⟨?_, ?_, ?_, fun i hi => ?_⟩⟩
  · rw [hlive]
    exact FirstFitAllocator.inv_create (by decide)
  · rw [hlive]
    exact .refl []
  · rw [hlive]
    rfl
  · rw [← mem_live, hlive] at hi
    exact absurd hi List.not_mem_nil

theorem AtTick.inv (hpids : Function.Injective (fun j => (ps j).pid))
    (hpos : ∀ j, 1 ≤ (ps j).memBytes) (h : AtTick (Arena.start ps) s) :
    Inv ps s (s.ioWait.map Prod.fst) s.memWait ∧ ∀ j ∈ s.memWait, (ps j).arrival < s.tick := by
  induction h with
  | start => exact ⟨inv_start ps, fun _ hj => absurd hj List.not_mem_nil⟩
  | next _ _ ih => exact ih.1.step hpids hpos ih.2

/-! ## The page reproduces the arena -/

/-- The block at an offset has been given to the process with the pid, which is live. -/
def Owns (s : Arena n) (pid : ℤ) (offset : ℕ) : Prop :=
  ∃ i, (s.procs i).pid = pid ∧ s.IsLive i ∧ s.allocs pid = offset + 1

/-- The page shows the allocator: its map has the allocated blocks, with the owners and
the sizes; the bytes in use and the free blocks are counted. -/
structure Reproduces (s : Arena n) (page : ArenaPage) : Prop where
  nodup : (page.occupied.map Prod.fst).Nodup
  occupied : ∀ offset pid size, (offset, ⟨pid, size⟩) ∈ page.occupied ↔
    ⟨offset, size, false⟩ ∈ s.alloc.blocks ∧ s.Owns pid offset
  owned : ∀ b ∈ s.alloc.blocks, b.free = false → ∃! pid, s.Owns pid b.offset
  bytes : page.statBytes = ((s.alloc.blocks.filter (fun b => !b.free)).map Block.size).sum
  fragments : page.countFreeFragments = (s.alloc.blocks.filter (fun b => b.free)).length

/-- The allocated blocks are those of the live processes. -/
theorem Stored.mem_blocks {page : ArenaPage} (h : Stored s page) {offset size : ℕ} :
    ⟨offset, size, false⟩ ∈ s.alloc.blocks ↔
      ∃ i, s.IsLive i ∧ s.ptr i = offset + 1 ∧ (s.procs i).memBytes = size := by
  have hallocated : ⟨offset, size, false⟩ ∈ s.alloc.blocks ↔
      (offset + 1, size) ∈ allocated s.alloc.blocks := by
    unfold allocated
    rw [List.mem_map]
    constructor
    · intro hb
      exact ⟨_, List.mem_filter.mpr ⟨hb, rfl⟩, rfl⟩
    · rintro ⟨⟨offset', size', free⟩, hb, heq⟩
      obtain ⟨hb, hused⟩ := List.mem_filter.mp hb
      obtain ⟨hoffset, hsize⟩ := Prod.mk.inj heq
      dsimp only at hoffset hsize hused
      obtain rfl : offset' = offset := by omega
      obtain rfl : free = false := by simpa using hused
      rwa [hsize] at hb
  rw [hallocated, h.alloc.live_perm.mem_iff, List.mem_map]
  constructor
  · rintro ⟨i, hi, heq⟩
    obtain ⟨hptr, hsize⟩ := Prod.mk.inj heq
    exact ⟨i, mem_live.mp hi, hptr, hsize⟩
  · rintro ⟨i, hi, hptr, hsize⟩
    refine ⟨i, mem_live.mpr hi, ?_⟩
    rw [slot, hptr, hsize]

/-- The sorted map has the allocated blocks, in their order. -/
theorem Stored.sorted_eq {page : ArenaPage} (h : Stored s page) :
    (page.occupied.mergeSort (fun x y => decide (x.1 ≤ y.1))).map (fun x => (x.1 + 1, x.2.size))
      = allocated s.alloc.blocks := by
  have hperm : ((page.occupied.mergeSort (fun x y => decide (x.1 ≤ y.1))).map
      (fun x => (x.1 + 1, x.2.size))).Perm (allocated s.alloc.blocks) := by
    refine ((List.mergeSort_perm _ _).map _).trans ((h.occupied.map _).trans ?_)
    rw [List.map_map]
    refine List.Perm.trans (.of_eq ?_) h.alloc.live_perm.symm
    refine List.map_congr_left (fun i hi => ?_)
    have hptr := h.ptr_ne_zero (mem_live.mp hi)
    show (s.ptr i - 1 + 1, (s.procs i).memBytes) = (s.ptr i, (s.procs i).memBytes)
    rw [Nat.sub_add_cancel (by omega)]
  have hpair := h.alloc.pairwise_allocated
  have hnodup : ((allocated s.alloc.blocks).map Prod.fst).Nodup :=
    (List.pairwise_map.mpr hpair).imp Nat.ne_of_lt
  have hsorted : (page.occupied.mergeSort (fun x y => decide (x.1 ≤ y.1))).Pairwise
      (fun x y => decide (x.1 ≤ y.1) = true) := by
    refine List.pairwise_mergeSort (fun x y z hxy hyz => ?_) (fun x y => ?_) _
    · exact decide_eq_true ((of_decide_eq_true hxy).trans (of_decide_eq_true hyz))
    · rw [Bool.or_eq_true, decide_eq_true_eq, decide_eq_true_eq]
      exact Nat.le_total x.1 y.1
  have hsorted' : ((page.occupied.mergeSort (fun x y => decide (x.1 ≤ y.1))).map
      (fun x => (x.1 + 1, x.2.size))).Pairwise (fun x y => x.1 ≤ y.1) := by
    refine List.pairwise_map.mpr (hsorted.imp ?_)
    intro x y hle
    exact Nat.add_le_add_right (of_decide_eq_true hle) 1
  refine List.Perm.eq_of_pairwise (fun x y hx hy hle hle' => ?_) hsorted'
    (hpair.imp Nat.le_of_lt) hperm
  exact List.inj_on_of_nodup_map hnodup (hperm.mem_iff.mp hx) hy (Nat.le_antisymm hle hle')

theorem Stored.reproduces {page : ArenaPage} (h : Stored s page) : Reproduces s page := by
  refine ⟨?_, fun offset pid size => ?_, fun b hb hused => ?_, ?_, ?_⟩
  · rw [(h.occupied.map Prod.fst).nodup_iff, List.map_map]
    refine (nodup_live s).map_on (fun j hj i hi heq => ?_)
    exact h.eq_of_offset (mem_live.mp hi) (mem_live.mp hj) heq
  · rw [h.mem_occupied, h.mem_blocks]
    constructor
    · rintro ⟨i, hi, heq⟩
      have hptr := h.ptr_ne_zero hi
      obtain ⟨hoffset, hblock⟩ := Prod.mk.inj heq
      obtain ⟨rfl, hsize⟩ := OccupiedBlock.mk.inj hblock
      have hptr' : s.ptr i = offset + 1 := by omega
      exact ⟨⟨i, hi, hptr', hsize⟩, i, rfl, hi, hptr'⟩
    · rintro ⟨⟨i, hi, hptr, hsize⟩, j, rfl, hj, hptr'⟩
      have hptr' : s.ptr j = offset + 1 := hptr'
      obtain rfl := h.eq_of_offset hi hj (by omega)
      refine ⟨j, hj, ?_⟩
      rw [entry, hptr, hsize, Nat.add_sub_cancel]
  · obtain ⟨offset, size, free⟩ := b
    obtain rfl : free = false := hused
    obtain ⟨i, hi, hptr, -⟩ := h.mem_blocks.mp hb
    refine ⟨(s.procs i).pid, ⟨i, rfl, hi, hptr⟩, ?_⟩
    rintro pid ⟨j, rfl, hj, hptr'⟩
    have hptr' : s.ptr j = offset + 1 := hptr'
    rw [h.eq_of_offset hi hj (by omega)]
  · have hsum := (h.alloc.live_perm.map Prod.snd).sum_eq
    unfold allocated at hsum
    rw [List.map_map, List.map_map] at hsum
    rw [h.bytes]
    exact hsum.symm
  · exact countLoop_eq h.alloc.tiles h.alloc.size_pos h.alloc.coalesced h.sorted_eq

end Arena

/-- **Replaying the trace reproduces the contiguous arena**, at the end of every simulated
tick. -/
theorem arena_replayed {n : ℕ} (ps : Fin n → ArenaProcess)
    (hpids : Function.Injective (fun i => (ps i).pid)) (hpos : ∀ i, 1 ≤ (ps i).memBytes)
    (s : Arena n) (hs : Arena.AtTick (Arena.start ps) s) :
    Arena.Reproduces s (replayArena s.trace) :=
  (hs.inv hpids hpos).1.stored.reproduces

/-- The states after as many ticks as the loop makes. -/
theorem Arena.atTick_iterate {n : ℕ} {s : Arena n} {k : ℕ}
    (h : ∀ j < k, (Arena.step^[j] s).continues = true) : Arena.AtTick s (Arena.step^[k] s) := by
  induction k with
  | zero => exact .start
  | succ k ih =>
    rw [Function.iterate_succ_apply']
    exact .next (ih (fun j hj => h j (by omega))) (h k (by omega))

/-- The last process waits until the second one has ended, and gets a part of its block. -/
def fullArena : Fin 4 → ArenaProcess :=
  ![{ pid := 1, name := "compiler", memBytes := 4000, bursts := [⟨.cpu, 1⟩, ⟨.io, 1⟩, ⟨.cpu, 3⟩] },
    { pid := 2, name := "shell", memBytes := 4000, bursts := [⟨.cpu, 2⟩] },
    { pid := 3, name := "logger", memBytes := 100, bursts := [⟨.cpu, 4⟩] },
    { pid := 4, name := "browser", arrival := 1, memBytes := 1000, bursts := [⟨.cpu, 2⟩] }]

theorem fullArena_replayed :
    (Arena.step^[4] (Arena.start fullArena)).alloc.blocks
        = [⟨0, 4000, false⟩, ⟨4000, 1000, false⟩, ⟨5000, 3000, true⟩, ⟨8000, 100, false⟩,
          ⟨8100, 92, true⟩] ∧
    Arena.Reproduces (Arena.step^[4] (Arena.start fullArena))
      (replayArena (Arena.step^[4] (Arena.start fullArena)).trace) :=
  ⟨by decide +kernel, arena_replayed fullArena (by decide) (by decide)
    (Arena.step^[4] (Arena.start fullArena)) (Arena.atTick_iterate (by decide +kernel))⟩

end Memlab
