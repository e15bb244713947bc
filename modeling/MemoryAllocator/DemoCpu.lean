/-
# The CPU time in the traces of the demos

The loops of `contiguous_demo.cpp` and `visualizer_demo.cpp` share their scheduling: the
round-robin queue, the waiting list, and a CPU that executes one tick at a time.  `Core`
is that part, with the `ticks` fields of the `cpu_run` events of every process.

What is logged for a tick is the time that the process could run, `min` of what is left
of the burst and of the quantum, and not the tick that it runs.  So the books are kept
for the logged amounts (`Core.Inv.books`): what has been logged for a process and what
will be logged for the rest of its bursts add up to an amount that depends on the bursts
only.  The amounts are weighted, so that the same books also count the executed ticks.
-/
import MemoryAllocator.ContiguousReplay
import MemoryAllocator.SchedSimInvariant

namespace Memlab

open Arena (InState)

/-! ## The logged ticks of a burst -/

/-- What is logged for the rest of a CPU burst, with `ran` ticks of the quantum used. -/
def tracedBurst (w : ℕ → ℕ) (quantum : ℕ) : ℕ → ℕ → ℕ
  | 0, _ => 0
  | r + 1, ran => w (min (r + 1) (quantum - ran)) + tracedBurst w quantum r ((ran + 1) % quantum)

/-- What is logged for the CPU bursts of a list. -/
def tracedBursts (w : ℕ → ℕ) (quantum : ℕ) (bursts : List Burst) : ℕ :=
  (bursts.map (fun b => if b.type = .cpu then tracedBurst w quantum b.ticks 0 else 0)).sum

section Amounts

variable {quantum : ℕ}

/-- With weight one, the ticks are counted. -/
theorem tracedBurst_one (r ran : ℕ) : tracedBurst (fun _ => 1) quantum r ran = r := by
  induction r generalizing ran with
  | zero => rfl
  | succ r ih => rw [tracedBurst, ih, Nat.add_comm]

theorem tracedBursts_one (bursts : List Burst) :
    tracedBursts (fun _ => 1) quantum bursts = cpuTicks bursts := by
  simp only [tracedBursts, cpuTicks, tracedBurst_one]

/-- Every tick logs at least one. -/
theorem le_tracedBurst (hq : 1 ≤ quantum) (r : ℕ) {ran : ℕ} (hran : ran < quantum) :
    r ≤ tracedBurst id quantum r ran := by
  induction r generalizing ran with
  | zero => exact Nat.zero_le _
  | succ r ih =>
    have hrest := ih (Nat.mod_lt (ran + 1) hq)
    rw [tracedBurst, id]
    omega

/-- A burst of two ticks or more logs more than it has. -/
theorem tracedBurst_eq_iff (hq : 2 ≤ quantum) {r : ℕ} (hr : 1 ≤ r) :
    tracedBurst id quantum r 0 = r ↔ r = 1 := by
  constructor
  · intro heq
    by_contra hne
    obtain ⟨r, rfl⟩ : ∃ r', r = r' + 2 := ⟨r - 2, by omega⟩
    have hrest := le_tracedBurst (by omega) (r + 1) (Nat.mod_lt (0 + 1) (by omega : 0 < quantum))
    rw [tracedBurst, id] at heq
    omega
  · rintro rfl
    rw [tracedBurst, tracedBurst, id]
    omega

/-- **The logged ticks are the executed ones** exactly for bursts of one tick. -/
theorem tracedBursts_eq_iff (hq : 2 ≤ quantum) {bursts : List Burst}
    (hpos : ∀ b ∈ bursts, 1 ≤ b.ticks) :
    tracedBursts id quantum bursts = cpuTicks bursts ↔
      ∀ b ∈ bursts, b.type = .cpu → b.ticks = 1 := by
  have hle : ∀ l : List Burst, cpuTicks l ≤ tracedBursts id quantum l := by
    intro l
    apply List.sum_le_sum
    intro b _
    split_ifs
    · exact le_tracedBurst (by omega) b.ticks (by omega)
    · exact le_rfl
  induction bursts with
  | nil => simp [tracedBursts, cpuTicks]
  | cons b bursts ih =>
    have hrest : tracedBursts id quantum bursts = cpuTicks bursts ↔
        ∀ b ∈ bursts, b.type = .cpu → b.ticks = 1 :=
      ih (fun b' hb' => hpos b' (List.mem_cons_of_mem _ hb'))
    have htail := hle bursts
    have hhead := tracedBurst_eq_iff hq (hpos b (List.mem_cons_self ..))
    have hburst := le_tracedBurst (by omega) b.ticks (by omega : 0 < quantum)
    rw [List.forall_mem_cons, ← hrest, tracedBursts, cpuTicks, List.map_cons, List.map_cons,
      List.sum_cons, List.sum_cons, ← tracedBursts, ← cpuTicks]
    split_ifs with hcpu
    · rw [← hhead]
      constructor
      · intro heq
        exact ⟨fun _ => by omega, by omega⟩
      · rintro ⟨hone, heq⟩
        rw [hone hcpu, heq]
    · simp [hcpu]

end Amounts

namespace Process

/-- CPU and I/O bursts alternate, from a CPU burst on. -/
structure Alternates (p : Process) : Prop extends p.Valid where
  io_of_cpu : p.bursts.IsChain (fun b b' => b.type = .cpu → b'.type = .io)

/-- What is logged for the process from now on, with `ran` ticks of the quantum used. -/
def tracedLeft (p : Process) (w : ℕ → ℕ) (quantum ran : ℕ) : ℕ :=
  (match p.currentBurst with
    | some b => if b.type = .cpu then tracedBurst w quantum p.burstRemaining ran else 0
    | none => 0) + tracedBursts w quantum (p.bursts.drop (p.curBurst + 1))

variable {p : Process} {w : ℕ → ℕ} {quantum : ℕ}

/-- The process at its next burst. -/
def atNext (p : Process) (remaining : ℕ) (state : State) : Process :=
  { p with curBurst := p.curBurst + 1, burstRemaining := remaining, state := state }

/-- At the next burst, nothing has been logged for it. -/
theorem tracedLeft_atNext {b : Burst} (hb : p.nextBurst = some b) (state : State) :
    (p.atNext b.ticks state).tracedLeft w quantum 0
      = tracedBursts w quantum (p.bursts.drop (p.curBurst + 1)) := by
  obtain ⟨hlt, rfl⟩ := List.getElem?_eq_some_iff.mp hb
  have hcurrent : (p.atNext p.bursts[p.curBurst + 1].ticks state).currentBurst
      = some p.bursts[p.curBurst + 1] := hb
  rw [List.drop_eq_getElem_cons hlt, tracedBursts, List.map_cons, List.sum_cons, ← tracedBursts,
    tracedLeft, hcurrent]
  rfl

/-- Past the last burst, nothing more is logged. -/
theorem tracedLeft_of_none (hb : p.currentBurst = none) (ran : ℕ) :
    p.tracedLeft w quantum ran = 0 := by
  have hlen := List.getElem?_eq_none_iff.mp hb
  rw [tracedLeft, hb, List.drop_eq_nil_of_le (by omega)]
  rfl

theorem tracedBursts_of_last (hb : p.nextBurst = none) :
    tracedBursts w quantum (p.bursts.drop (p.curBurst + 1)) = 0 := by
  rw [List.drop_eq_nil_of_le (List.getElem?_eq_none_iff.mp hb)]
  rfl

/-- During an I/O burst, nothing is logged. -/
theorem tracedLeft_of_io {b : Burst} (hb : p.currentBurst = some b) (hio : b.type = .io)
    (ran : ℕ) : p.tracedLeft w quantum ran
      = tracedBursts w quantum (p.bursts.drop (p.curBurst + 1)) := by
  rw [tracedLeft, hb]
  simp [hio]

/-- During a CPU burst, the rest of it is. -/
theorem tracedLeft_of_cpu {b : Burst} (hb : p.currentBurst = some b) (hcpu : b.type = .cpu)
    (ran : ℕ) : p.tracedLeft w quantum ran
      = tracedBurst w quantum p.burstRemaining ran
        + tracedBursts w quantum (p.bursts.drop (p.curBurst + 1)) := by
  rw [tracedLeft, hb]
  dsimp only
  rw [if_pos hcpu]

/-- The burst after a CPU burst is an I/O burst. -/
theorem Alternates.io_of_next (h : p.Alternates) {b nb : Burst} (hb : p.currentBurst = some b)
    (hnb : p.nextBurst = some nb) (hcpu : b.type = .cpu) : nb.type = .io := by
  obtain ⟨hi, rfl⟩ := List.getElem?_eq_some_iff.mp hb
  obtain ⟨hi', rfl⟩ := List.getElem?_eq_some_iff.mp hnb
  exact List.isChain_iff_getElem.mp h.io_of_cpu p.curBurst hi' hcpu

end Process

/-! ## The scheduling of the demos -/

/-- The part of a demo that its CPU time depends on; `traced` are the `ticks` fields of
the `cpu_run` events of every process. -/
structure Core (n : ℕ) where
  quantum : ℕ
  procs : Fin n → Process
  queue : List (Fin n)
  running : Option (Fin n)
  ran : ℕ
  ioWait : List (Fin n × ℕ)
  traced : Fin n → List ℕ

namespace Core

variable {n : ℕ} (c : Core n)

def setProc (i : Fin n) (p : Process) : Core n :=
  { c with procs := Function.update c.procs i p }

def setState (i : Fin n) (state : State) : Core n :=
  c.setProc i { c.procs i with state := state }

def enqueue (i : Fin n) : Core n := { c.setState i .ready with queue := c.queue ++ [i] }

/-- The I/O burst of a process is over. -/
def completeIo (i : Fin n) : Core n :=
  match (c.procs i).advanceBurst with
  | (true, p) => (c.setProc i p).enqueue i
  | (false, p) => (c.setProc i p).setState i .terminated

/-- The loop over the rest of the waiting list: the entries that stay, and the state. -/
def ioLoop : List (Fin n × ℕ) → Core n → List (Fin n × ℕ) × Core n
  | [], c => ([], c)
  | (i, ticks) :: rest, c =>
    if dec32 ticks = 0 then ioLoop rest (c.completeIo i)
    else
      let r := ioLoop rest c
      ((i, dec32 ticks) :: r.1, r.2)

def ioCompletions : Core n :=
  let r := ioLoop c.ioWait c
  { r.2 with ioWait := r.1 }

def preempt : Core n :=
  match c.running with
  | none => c
  | some i => if c.quantum ≤ c.ran then { c.enqueue i with running := none, ran := 0 } else c

def dispatch : Core n :=
  match c.running, c.queue with
  | none, i :: q => { c with queue := q, running := some i, ran := 0 }
  | _, _ => c

/-- The burst of the running process is over. -/
def endBurst (i : Fin n) : Core n :=
  match (c.procs i).advanceBurst with
  | (true, p) =>
    match p.currentBurst with
    | none => c.setProc i p
    | some nb =>
      if nb.type = .io then
        { (c.setProc i p).setState i .waiting with
          ioWait := c.ioWait ++ [(i, nb.ticks)], running := none, ran := 0 }
      else c.setProc i p
  | (false, p) => { (c.setProc i p).setState i .terminated with running := none, ran := 0 }

/-- Log a `cpu_run` event. -/
def trace (i : Fin n) (ticks : ℕ) : Core n :=
  { c with traced := Function.update c.traced i (c.traced i ++ [ticks]) }

/-- A tick on the CPU, with what is logged for it. -/
def runTick : Core n :=
  match c.running with
  | none => c
  | some i =>
    let p := c.procs i
    let c := c.trace i (min p.burstRemaining (sub32 c.quantum c.ran))
    let c := c.setProc i { p with burstRemaining := dec32 p.burstRemaining }
    let c := { c with ran := c.ran + 1 }
    if dec32 p.burstRemaining = 0 then c.endBurst i else c

def states (i : Fin n) : State := (c.procs i).state

/-- The part of the quantum that a process has used. -/
def used (i : Fin n) : ℕ := if c.running = some i then c.ran % c.quantum else 0

/-! ## The books -/

variable {c}

/-- **The invariant** within a tick, with the processes that wait for I/O and those that
wait for memory, while no process has been logged more than `k` times. -/
structure Inv (ps : Fin n → Process) (k : ℕ) (c : Core n) (W M : List (Fin n)) : Prop where
  two_le : 2 ≤ c.quantum
  quantum_lt : c.quantum < 2 ^ 32
  program : ∀ i, (c.procs i).program = (ps i).program
  ok : ∀ i, (c.procs i).Ok
  cpu : InState c.states .ready (c.queue ++ c.running.toList)
  io : InState c.states .waiting W
  mem : InState c.states .new M
  ran_le : ∀ i, c.running = some i → c.ran ≤ c.quantum
  length_le : ∀ i, (c.traced i).length ≤ k
  books : ∀ (w : ℕ → ℕ) i, ((c.traced i).map w).sum
    + (c.procs i).tracedLeft w c.quantum (c.used i) = tracedBursts w c.quantum (ps i).bursts

variable {ps : Fin n → Process} {k : ℕ} {W W' M M' : List (Fin n)} {i : Fin n}

theorem states_setProc (c : Core n) (i : Fin n) (p : Process) :
    (c.setProc i p).states = Function.update c.states i p.state := by
  funext j
  by_cases hj : j = i
  · subst hj
    simp [states, setProc]
  · simp [states, setProc, hj]

theorem Inv.quantum_pos (h : Inv ps k c W M) : 1 ≤ c.quantum := one_le_two.trans h.two_le

theorem Inv.perm (h : Inv ps k c W M) (hW : W.Perm W') (hM : M.Perm M') : Inv ps k c W' M' :=
  { h with io := h.io.perm hW, mem := h.mem.perm hM }

theorem Inv.bursts (h : Inv ps k c W M) (i : Fin n) : (c.procs i).bursts = (ps i).bursts :=
  Process.bursts_of_program (h.program i)

/-- A process that is not running has used nothing of its quantum. -/
theorem used_of_ne (hi : c.running ≠ some i) : c.used i = 0 := if_neg hi

/-- Only the running process has used a part of its quantum. -/
theorem used_of_running (hrun : c.running = some i) {j : Fin n} (hj : j ≠ i) : c.used j = 0 :=
  used_of_ne (by rw [hrun]; simpa using Ne.symm hj)

theorem Inv.running_state (h : Inv ps k c W M) (hrun : c.running = some i) :
    c.states i = .ready := by
  apply h.cpu.state i
  rw [hrun]
  exact List.mem_append_right _ (List.mem_singleton_self i)

theorem Inv.used_of_not_ready (h : Inv ps k c W M) (hi : c.states i ≠ .ready) : c.used i = 0 :=
  used_of_ne (fun hrun => hi (h.running_state hrun))

/-- **Storing back a process.**  The books stay balanced if those of this process do. -/
theorem Inv.store (h : Inv ps k c W M) {c' : Core n} {p : Process} {k' : ℕ}
    (hprocs : c'.procs = Function.update c.procs i p) (hquantum : c'.quantum = c.quantum)
    (hok : p.Ok) (hprogram : p.program = (c.procs i).program)
    (hcpu : InState c'.states .ready (c'.queue ++ c'.running.toList))
    (hio : InState c'.states .waiting W') (hmem : InState c'.states .new M')
    (hran : ∀ j, c'.running = some j → c'.ran ≤ c.quantum)
    (hused : ∀ j ≠ i, c'.used j = c.used j) (htraced : ∀ j ≠ i, c'.traced j = c.traced j)
    (hk : k ≤ k') (hlength : (c'.traced i).length ≤ k')
    (hbooks : ∀ w : ℕ → ℕ, ((c'.traced i).map w).sum + p.tracedLeft w c.quantum (c'.used i)
      = ((c.traced i).map w).sum + (c.procs i).tracedLeft w c.quantum (c.used i)) :
    Inv ps k' c' W' M' := by
  have hself : c'.procs i = p := by rw [hprocs, Function.update_self]
  have hother : ∀ j ≠ i, c'.procs j = c.procs j := fun j hj => by
    rw [hprocs, Function.update_of_ne hj]
  refine ⟨hquantum ▸ h.two_le, hquantum ▸ h.quantum_lt, fun j => ?_, fun j => ?_, hcpu, hio,
    hmem, fun j hj => hquantum ▸ hran j hj, fun j => ?_, fun w j => ?_⟩
  · by_cases hj : j = i
    · subst hj
      rw [hself, hprogram]
      exact h.program j
    · rw [hother j hj]
      exact h.program j
  · by_cases hj : j = i
    · subst hj
      rw [hself]
      exact hok
    · rw [hother j hj]
      exact h.ok j
  · by_cases hj : j = i
    · subst hj
      exact hlength
    · rw [htraced j hj]
      exact (h.length_le j).trans hk
  · by_cases hj : j = i
    · subst hj
      rw [hself, hquantum, hbooks]
      exact h.books w j
    · rw [hother j hj, hquantum, htraced j hj, hused j hj]
      exact h.books w j

/-- A process becomes ready; only its state is new to the books. -/
theorem Inv.enqueue (h : Inv ps k c W M) (hi : c.states i = .new) (hM : M'.Sublist M)
    (hiM : i ∉ M') : Inv ps k (c.enqueue i) W M' := by
  have hstates : (c.enqueue i).states = Function.update c.states i .ready := states_setProc ..
  have hwants : (c.procs i).WantsCpu := .inl hi
  have hnot : c.states i ≠ .ready := by simp [hi]
  refine h.store (p := { c.procs i with state := .ready }) rfl rfl ?_ rfl ?_ ?_ ?_ h.ran_le
    (fun _ _ => rfl) (fun _ _ => rfl) le_rfl (h.length_le i) (fun w => rfl)
  · exact (h.ok i).of_wantsCpu hwants (.inr (.inl rfl)) rfl rfl rfl
  · rw [hstates]
    apply (h.cpu.enter (h.cpu.notMem hnot)).perm
    show (i :: (c.queue ++ c.running.toList)).Perm (c.queue ++ [i] ++ c.running.toList)
    rw [List.append_assoc]
    exact List.perm_middle.symm
  · rw [hstates]
    exact h.io.update (h.io.notMem (by simp [hi])) .ready
  · rw [hstates]
    exact (h.mem.sublist hM).update hiM .ready

theorem setState_setProc (c : Core n) (i : Fin n) (p : Process) (state : State) :
    (c.setProc i p).setState i state = c.setProc i { p with state := state } := by
  simp [setState, setProc]

/-! ## The waiting list -/

/-- The I/O burst of a process is over: it goes to its next burst, or ends. -/
theorem Inv.completeIo (h : Inv ps k c (i :: W) M) : Inv ps k (c.completeIo i) W M := by
  have hwait : c.states i = .waiting := h.io.state i (List.mem_cons_self ..)
  have hiW : i ∉ W := (List.nodup_cons.mp h.io.nodup).1
  have hio : InState c.states .waiting W := h.io.sublist (List.sublist_cons_self i W)
  have hicpu : i ∉ c.queue ++ c.running.toList := h.cpu.notMem (by simp [hwait])
  have hiM : i ∉ M := h.mem.notMem (by simp [hwait])
  have hused : c.used i = 0 := h.used_of_not_ready (by simp [hwait])
  have hok := h.ok i
  obtain ⟨b, hb, htype⟩ := hok.io hwait
  have hleft : ∀ w : ℕ → ℕ, (c.procs i).tracedLeft w c.quantum 0
      = tracedBursts w c.quantum ((c.procs i).bursts.drop ((c.procs i).curBurst + 1)) :=
    fun w => Process.tracedLeft_of_io hb htype 0
  rcases (c.procs i).advanceBurst_cases with ⟨hnone, hadvance⟩ | ⟨nb, hnb, hadvance⟩
  · -- it was the last burst
    have heq : c.completeIo i
        = c.setProc i ((c.procs i).atNext (c.procs i).burstRemaining .terminated) := by
      rw [Core.completeIo, hadvance]
      exact setState_setProc ..
    have hend : ((c.procs i).atNext (c.procs i).burstRemaining .terminated).currentBurst = none :=
      hnone
    rw [heq]
    refine h.store rfl rfl (Process.Valid.ok_of_done (hok.valid.of_bursts rfl) rfl hend) rfl
      ?_ ?_ ?_ h.ran_le (fun _ _ => rfl) (fun _ _ => rfl) le_rfl (h.length_le i) (fun w => ?_)
    · rw [states_setProc]
      exact h.cpu.update hicpu .terminated
    · rw [states_setProc]
      exact hio.update hiW .terminated
    · rw [states_setProc]
      exact h.mem.update hiM .terminated
    · rw [Process.tracedLeft_of_none hend, hused, hleft, Process.tracedBursts_of_last hnone]
      rfl
  · have hcpu := hok.valid.cpu_of_io hb hnb htype
    have heq : c.completeIo i = { c.setProc i ((c.procs i).atNext nb.ticks .ready) with
        queue := c.queue ++ [i] } := by
      rw [Core.completeIo, hadvance]
      show ({ (c.setProc i _).setState i .ready with queue := c.queue ++ [i] } : Core n) = _
      rw [setState_setProc]
      rfl
    have hstates : (c.completeIo i).states = Function.update c.states i .ready := by
      rw [heq]
      exact states_setProc c i ((c.procs i).atNext nb.ticks .ready)
    rw [heq] at hstates ⊢
    refine h.store rfl rfl
      (Process.Valid.ok_of_cpu (hok.valid.of_bursts rfl) (.inr (.inl rfl)) hnb hcpu rfl) rfl
      ?_ ?_ ?_ h.ran_le (fun _ _ => rfl) (fun _ _ => rfl) le_rfl (h.length_le i) (fun w => ?_)
    · rw [hstates]
      apply (h.cpu.enter hicpu).perm
      show (i :: (c.queue ++ c.running.toList)).Perm (c.queue ++ [i] ++ c.running.toList)
      rw [List.append_assoc]
      exact List.perm_middle.symm
    · rw [hstates]
      exact hio.update hiW .ready
    · rw [hstates]
      exact h.mem.update hiM .ready
    · have hused' : ({ c.setProc i ((c.procs i).atNext nb.ticks .ready) with
          queue := c.queue ++ [i] } : Core n).used i = 0 := hused
      rw [hused', hused, Process.tracedLeft_atNext hnb, hleft]
      rfl

/-- The loop over the rest of the waiting list; `kept` stays. -/
theorem Inv.ioLoop {rest : List (Fin n × ℕ)} {kept : List (Fin n)}
    (h : Inv ps k c (rest.map Prod.fst ++ kept) M) :
    Inv ps k (Core.ioLoop rest c).2 ((Core.ioLoop rest c).1.map Prod.fst ++ kept) M := by
  induction rest generalizing c kept with
  | nil => exact h
  | cons x rest ih =>
    obtain ⟨i, ticks⟩ := x
    rw [Core.ioLoop]
    split_ifs
    · exact ih h.completeIo
    · have hkept : Inv ps k c (rest.map Prod.fst ++ i :: kept) M :=
        h.perm List.perm_middle.symm (.refl M)
      exact (ih hkept).perm List.perm_middle (.refl M)

theorem Inv.ioCompletions (h : Inv ps k c (c.ioWait.map Prod.fst) M) :
    Inv ps k c.ioCompletions (c.ioCompletions.ioWait.map Prod.fst) M := by
  rw [← List.append_nil (c.ioWait.map Prod.fst)] at h
  have hloop := h.ioLoop
  rw [List.append_nil] at hloop
  exact { hloop with }

/-! ## The CPU -/

/-- A preempted process has used up its quantum, as if it had not begun one. -/
theorem Inv.preempt (h : Inv ps k c W M) : Inv ps k c.preempt W M ∧ c.preempt.ioWait = c.ioWait ∧
    ∀ j, c.preempt.running = some j → c.preempt.ran < c.preempt.quantum := by
  cases hrun : c.running with
  | none =>
    have heq : c.preempt = c := by rw [Core.preempt, hrun]
    rw [heq]
    exact ⟨h, rfl, fun j hj => by simp [hrun] at hj⟩
  | some i =>
    by_cases hran : c.quantum ≤ c.ran
    · have hready := h.running_state hrun
      have heq : c.preempt = { c.enqueue i with running := none, ran := 0 } := by
        rw [Core.preempt, hrun]
        exact if_pos hran
      have hstates : (c.enqueue i).states = c.states := by
        have hupdate : (c.enqueue i).states = Function.update c.states i .ready := states_setProc ..
        rw [hupdate, ← hready]
        exact Function.update_eq_self i c.states
      have hcpu := h.cpu
      rw [hrun] at hcpu
      have hwants : (c.procs i).WantsCpu := .inr (.inl hready)
      rw [heq]
      refine ⟨h.store (p := { c.procs i with state := .ready }) rfl rfl
        ((h.ok i).of_wantsCpu hwants (.inr (.inl rfl)) rfl rfl rfl) rfl ?_ ?_ ?_
        (fun j hj => by simp at hj) (fun j hj => ?_) (fun _ _ => rfl) le_rfl (h.length_le i)
        (fun w => ?_), rfl, fun j hj => by simp at hj⟩
      · show InState (c.enqueue i).states .ready (c.queue ++ [i] ++ [])
        rw [hstates, List.append_nil]
        exact hcpu
      · show InState (c.enqueue i).states .waiting W
        rw [hstates]
        exact h.io
      · show InState (c.enqueue i).states .new M
        rw [hstates]
        exact h.mem
      · rw [used_of_running hrun hj]
        rfl
      · -- the whole quantum is used, and the next one is not begun
        have hwhole : c.ran = c.quantum := le_antisymm (h.ran_le i hrun) hran
        have hused : c.used i = 0 := by
          rw [used, if_pos hrun, hwhole, Nat.mod_self]
        rw [hused]
        rfl
    · have heq : c.preempt = c := by
        rw [Core.preempt, hrun]
        exact if_neg hran
      rw [heq]
      exact ⟨h, rfl, fun _ _ => not_le.mp hran⟩

/-- The front of the queue goes to the CPU, with a whole quantum. -/
theorem Inv.dispatch (h : Inv ps k c W M)
    (hran : ∀ j, c.running = some j → c.ran < c.quantum) :
    Inv ps k c.dispatch W M ∧ c.dispatch.ioWait = c.ioWait ∧
      ∀ j, c.dispatch.running = some j → c.dispatch.ran < c.dispatch.quantum := by
  unfold Core.dispatch
  split
  · rename_i i q hrun hq
    have hcpu := h.cpu
    rw [hrun, hq] at hcpu
    refine ⟨{ h with
      cpu := hcpu.perm ?_
      ran_le := fun _ _ => Nat.zero_le _
      books := fun w j => ?_ }, rfl, fun _ _ => h.quantum_pos⟩
    · show (i :: q ++ []).Perm (q ++ [i])
      rw [List.append_nil]
      exact (List.perm_append_singleton i q).symm
    · have hused : c.used j = 0 := used_of_ne (by simp [hrun])
      have hzero : ({ c with queue := q, running := some i, ran := 0 } : Core n).used j = 0 := by
        rw [used]
        split_ifs
        · exact Nat.zero_mod _
        · rfl
      have hbooks := h.books w j
      rw [hused] at hbooks
      rw [hzero]
      exact hbooks
  · exact ⟨h, rfl, hran⟩

/-- What is logged for a tick of the running process. -/
def runFor (c : Core n) (i : Fin n) : ℕ := min (c.procs i).burstRemaining (sub32 c.quantum c.ran)

/-- The log after the tick. -/
def tracedAfter (c : Core n) (i : Fin n) : Fin n → List ℕ := (c.trace i (c.runFor i)).traced

/-- **What a tick can do**: leave the process on the CPU, end it, or block it. -/
theorem runTick_cases (hrun : c.running = some i)
    (hio : ∀ nb, (c.procs i).nextBurst = some nb → nb.type = .io) :
    (dec32 (c.procs i).burstRemaining ≠ 0 ∧ c.runTick = { c.setProc i (c.procs i).ticked with
      ran := c.ran + 1, traced := c.tracedAfter i }) ∨
    (dec32 (c.procs i).burstRemaining = 0 ∧ (c.procs i).nextBurst = none ∧
      c.runTick = { c.setProc i ((c.procs i).atNext 0 .terminated) with
        running := none, ran := 0, traced := c.tracedAfter i }) ∨
    ∃ nb, dec32 (c.procs i).burstRemaining = 0 ∧ (c.procs i).nextBurst = some nb ∧
      c.runTick = { c.setProc i ((c.procs i).atNext nb.ticks .waiting) with
        ioWait := c.ioWait ++ [(i, nb.ticks)], running := none, ran := 0
        traced := c.tracedAfter i } := by
  have htick : c.runTick = if dec32 (c.procs i).burstRemaining = 0 then
      ({ c.setProc i (c.procs i).ticked with
        ran := c.ran + 1, traced := c.tracedAfter i } : Core n).endBurst i
      else { c.setProc i (c.procs i).ticked with
        ran := c.ran + 1, traced := c.tracedAfter i } := by
    unfold Core.runTick
    split
    · rename_i hnone
      exact absurd (hrun.symm.trans hnone) (by simp)
    · rename_i j hj
      obtain rfl : i = j := Option.some.inj (hrun.symm.trans hj)
      rfl
  rw [htick]
  have hself : ({ c.setProc i (c.procs i).ticked with
      ran := c.ran + 1, traced := c.tracedAfter i } : Core n).procs i = (c.procs i).ticked :=
    Function.update_self ..
  by_cases hzero : dec32 (c.procs i).burstRemaining = 0
  · right
    rw [if_pos hzero, Core.endBurst, hself]
    rcases (c.procs i).ticked.advanceBurst_cases with ⟨hnone, hadvance⟩ | ⟨nb, hnb, hadvance⟩
    · refine .inl ⟨hzero, hnone, ?_⟩
      rw [hadvance]
      simp [setState, setProc, Process.atNext, Process.ticked, hzero]
    · refine .inr ⟨nb, hzero, hnb, ?_⟩
      have hcurrent : ({ (c.procs i).ticked with
          curBurst := (c.procs i).ticked.curBurst + 1
          burstRemaining := nb.ticks } : Process).currentBurst = some nb := hnb
      rw [hadvance]
      dsimp only
      rw [hcurrent]
      dsimp only
      rw [if_pos (hio nb hnb)]
      simp [setState, setProc, Process.atNext, Process.ticked]
  · exact .inl ⟨hzero, if_neg hzero⟩

theorem tracedAfter_of_ne {j : Fin n} (hj : j ≠ i) : c.tracedAfter i j = c.traced j :=
  Function.update_of_ne hj _ _

theorem tracedAfter_self (c : Core n) (i : Fin n) :
    c.tracedAfter i i = c.traced i ++ [c.runFor i] :=
  Function.update_self ..

theorem sum_tracedAfter (c : Core n) (i : Fin n) (w : ℕ → ℕ) :
    ((c.tracedAfter i i).map w).sum = ((c.traced i).map w).sum + w (c.runFor i) := by
  rw [tracedAfter_self]
  simp

theorem Inv.length_tracedAfter (h : Inv ps k c W M) (i : Fin n) :
    (c.tracedAfter i i).length ≤ k + 1 := by
  rw [tracedAfter_self, List.length_append, List.length_singleton]
  exact Nat.add_le_add_right (h.length_le i) 1

/-- Without the running process, the ready ones are those in the queue. -/
theorem Inv.ready_queue (h : Inv ps k c W M) (hrun : c.running = some i) :
    i ∉ c.queue ∧ InState c.states .ready c.queue := by
  have hlist := h.cpu
  rw [hrun, Option.toList_some] at hlist
  exact ⟨fun hin => (List.disjoint_of_nodup_append hlist.nodup) hin (List.mem_singleton_self i),
    hlist.sublist (List.sublist_append_left _ _)⟩

/-- **What the books have put aside** for the running process: this tick, the rest of the
burst, and the bursts after it. -/
theorem Inv.tracedLeft_running (h : Inv ps k c W M) (hrun : c.running = some i)
    (hran : c.ran < c.quantum) (w : ℕ → ℕ) :
    (c.procs i).tracedLeft w c.quantum (c.used i) = w (c.runFor i)
      + tracedBurst w c.quantum (dec32 (c.procs i).burstRemaining) ((c.ran + 1) % c.quantum)
      + tracedBursts w c.quantum ((c.procs i).bursts.drop ((c.procs i).curBurst + 1)) := by
  obtain ⟨b, hb, hcpu, hpos, -⟩ := (h.ok i).cpu (.inr (.inl (h.running_state hrun)))
  obtain ⟨r, hr⟩ : ∃ r, (c.procs i).burstRemaining = r + 1 := ⟨_, (Nat.sub_add_cancel hpos).symm⟩
  have hdec : dec32 (c.procs i).burstRemaining = r := by
    have hstep := dec32_add_one hpos
    omega
  have hused : c.used i = c.ran := by
    rw [used, if_pos hrun, Nat.mod_eq_of_lt hran]
  have hfor : c.runFor i = min (r + 1) (c.quantum - c.ran) := by
    rw [runFor, hr, sub32_eq_sub h.quantum_lt hran.le]
  rw [Process.tracedLeft_of_cpu hb hcpu, hused, hdec, hr, tracedBurst, hfor]

/-- The tick did not end the burst. -/
theorem Inv.stayOnCpu (h : Inv ps k c W M) (hrun : c.running = some i) (hran : c.ran < c.quantum)
    (hmore : dec32 (c.procs i).burstRemaining ≠ 0) :
    Inv ps (k + 1) { c.setProc i (c.procs i).ticked with
      ran := c.ran + 1, traced := c.tracedAfter i } W M := by
  have hready := h.running_state hrun
  obtain ⟨b, hb, hcpu, hpos, hle⟩ := (h.ok i).cpu (.inr (.inl hready))
  have hstates : (c.setProc i (c.procs i).ticked).states = c.states := by
    rw [states_setProc]
    exact Function.update_eq_self i c.states
  have hok : (c.procs i).ticked.Ok := by
    have hpos' : 1 ≤ (c.procs i).ticked.burstRemaining := Nat.one_le_iff_ne_zero.mpr hmore
    have hle' : (c.procs i).ticked.burstRemaining ≤ b.ticks := by
      have hremaining : (c.procs i).ticked.burstRemaining + 1 = (c.procs i).burstRemaining :=
        dec32_add_one hpos
      omega
    have hstate : (c.procs i).ticked.state = .ready := hready
    refine ⟨(h.ok i).valid.of_bursts rfl, fun _ => ⟨b, hb, hcpu, hpos', hle'⟩, ?_, ?_⟩
    · simp [hstate]
    · simp [hstate]
  refine h.store rfl rfl hok rfl ?_ ?_ ?_ (fun _ _ => hran) (fun j hj => ?_)
    (fun j hj => tracedAfter_of_ne hj) (Nat.le_succ k) (h.length_tracedAfter i) (fun w => ?_)
  · show InState (c.setProc i (c.procs i).ticked).states .ready _
    rw [hstates]
    exact h.cpu
  · show InState (c.setProc i (c.procs i).ticked).states .waiting _
    rw [hstates]
    exact h.io
  · show InState (c.setProc i (c.procs i).ticked).states .new _
    rw [hstates]
    exact h.mem
  · rw [used_of_running hrun hj]
    exact used_of_ne (by show c.running ≠ some j; rw [hrun]; simpa using Ne.symm hj)
  · have hused : ({ c.setProc i (c.procs i).ticked with
        ran := c.ran + 1, traced := c.tracedAfter i } : Core n).used i
          = (c.ran + 1) % c.quantum := if_pos hrun
    have hticked : (c.procs i).ticked.currentBurst = some b := hb
    rw [hused, Process.tracedLeft_of_cpu hticked hcpu, h.tracedLeft_running hrun hran]
    show ((c.tracedAfter i i).map w).sum + (tracedBurst w c.quantum
      (dec32 (c.procs i).burstRemaining) _
        + tracedBursts w c.quantum ((c.procs i).bursts.drop ((c.procs i).curBurst + 1))) = _
    rw [sum_tracedAfter]
    omega

/-- The tick ended the burst, and the process leaves the CPU in another state.  The books
hold if nothing but its next bursts is still to be logged. -/
theorem Inv.leaveCpu (h : Inv ps k c W M) (hrun : c.running = some i) (hran : c.ran < c.quantum)
    (hzero : dec32 (c.procs i).burstRemaining = 0) {remaining : ℕ} {state : State}
    {ioWait : List (Fin n × ℕ)} (hok : ((c.procs i).atNext remaining state).Ok)
    (hio : InState (Function.update c.states i state) .waiting W')
    (hmem : InState (Function.update c.states i state) .new M)
    (hleft : ∀ w : ℕ → ℕ, ((c.procs i).atNext remaining state).tracedLeft w c.quantum 0
      = tracedBursts w c.quantum ((c.procs i).bursts.drop ((c.procs i).curBurst + 1))) :
    Inv ps (k + 1) { c.setProc i ((c.procs i).atNext remaining state) with
      ioWait := ioWait, running := none, ran := 0, traced := c.tracedAfter i } W' M := by
  obtain ⟨hnot, hqueue⟩ := h.ready_queue hrun
  refine h.store rfl rfl hok rfl ?_ ?_ ?_ (fun j hj => by simp at hj) (fun j hj => ?_)
    (fun j hj => tracedAfter_of_ne hj) (Nat.le_succ k) (h.length_tracedAfter i) (fun w => ?_)
  · show InState (c.setProc i _).states .ready (c.queue ++ [])
    rw [states_setProc, List.append_nil]
    exact hqueue.update hnot state
  · show InState (c.setProc i _).states .waiting _
    rw [states_setProc]
    exact hio
  · show InState (c.setProc i _).states .new _
    rw [states_setProc]
    exact hmem
  · rw [used_of_running hrun hj]
    exact used_of_ne (by simp)
  · have hused : ({ c.setProc i ((c.procs i).atNext remaining state) with
        ioWait := ioWait, running := none, ran := 0, traced := c.tracedAfter i } : Core n).used i
          = 0 := used_of_ne (by simp)
    rw [hused, hleft, h.tracedLeft_running hrun hran, hzero]
    show ((c.tracedAfter i i).map w).sum + _ = _ + (_ + 0 + _)
    rw [sum_tracedAfter]
    omega

/-- **A tick on the CPU** logs what the books have put aside for it. -/
theorem Inv.runTick (h : Inv ps k c (c.ioWait.map Prod.fst) M)
    (halternates : ∀ i, (ps i).Alternates)
    (hran : ∀ j, c.running = some j → c.ran < c.quantum) :
    Inv ps (k + 1) c.runTick (c.runTick.ioWait.map Prod.fst) M := by
  cases hrun : c.running with
  | none =>
    have heq : c.runTick = c := by rw [Core.runTick, hrun]
    rw [heq]
    exact { h with length_le := fun i => (h.length_le i).trans (Nat.le_succ k) }
  | some i =>
    have hready := h.running_state hrun
    obtain ⟨b, hb, hcpu, -⟩ := (h.ok i).cpu (.inr (.inl hready))
    have halt : (c.procs i).Alternates :=
      ⟨(halternates i).toValid.of_bursts (h.bursts i), by
        rw [h.bursts i]
        exact (halternates i).io_of_cpu⟩
    have hiW : i ∉ c.ioWait.map Prod.fst := h.io.notMem (by simp [hready])
    have hiM : i ∉ M := h.mem.notMem (by simp [hready])
    rcases runTick_cases hrun (fun nb hnb => halt.io_of_next hb hnb hcpu) with ⟨hmore, heq⟩ |
      ⟨hzero, hnone, heq⟩ | ⟨nb, hzero, hnb, heq⟩
    · -- the burst goes on
      rw [heq]
      exact h.stayOnCpu hrun (hran i hrun) hmore
    · -- it was the last tick of the last burst
      have hend : ((c.procs i).atNext 0 .terminated).currentBurst = none := hnone
      rw [heq]
      refine h.leaveCpu hrun (hran i hrun) hzero
        (Process.Valid.ok_of_done ((h.ok i).valid.of_bursts rfl) rfl hend)
        (h.io.update hiW .terminated) (h.mem.update hiM .terminated) (fun w => ?_)
      rw [Process.tracedLeft_of_none hend, Process.tracedBursts_of_last hnone]
    · -- it was the last tick before I/O
      have hio := halt.io_of_next hb hnb hcpu
      have hnext : ((c.procs i).atNext nb.ticks .waiting).currentBurst = some nb := hnb
      rw [heq]
      refine h.leaveCpu hrun (hran i hrun) hzero
        (Process.Valid.ok_of_io ((h.ok i).valid.of_bursts rfl) rfl hnext hio) ?_
        (h.mem.update hiM .waiting) (fun w => Process.tracedLeft_atNext hnb .waiting)
      show InState _ .waiting ((c.ioWait ++ [(i, nb.ticks)]).map Prod.fst)
      rw [List.map_append]
      exact (h.io.enter hiW).perm (List.perm_append_singleton i _).symm

/-! ## The start -/

/-- A process before the loop. -/
def begun (p : Process) : Process :=
  { p with
    state := .new
    curBurst := 0
    burstRemaining :=
      match p.bursts with
      | [] => 0
      | b :: _ => b.ticks }

/-- Nothing has happened, and everything is still to be logged. -/
theorem inv_start (halternates : ∀ i, (ps i).Alternates) (quantum : ℕ) (htwo : 2 ≤ quantum)
    (hlt : quantum < 2 ^ 32) :
    Inv ps 0 ⟨quantum, fun i => begun (ps i), [], none, 0, [], fun _ => []⟩ [] [] := by
  refine ⟨htwo, hlt, fun _ => rfl, fun i => ?_, .nil _ _, .nil _ _, .nil _ _,
    fun i hi => by simp at hi, fun _ => le_rfl, fun w i => ?_⟩
  all_goals
    have hvalid : (ps i).Valid := (halternates i).toValid
    obtain ⟨b, hb, hcpu⟩ := Option.map_eq_some_iff.mp hvalid.first_cpu
    obtain ⟨rest, hrest⟩ := List.head?_eq_some_iff.mp hb
    have hcurrent : (begun (ps i)).currentBurst = some b := by
      show (ps i).bursts[0]? = some b
      rw [hrest]
      rfl
    have hremaining : (begun (ps i)).burstRemaining = b.ticks := by
      simp only [begun, hrest]
  · exact Process.Valid.ok_of_cpu (hvalid.of_bursts rfl) (.inl rfl) hcurrent hcpu hremaining
  · have hused :
        (⟨quantum, fun i => begun (ps i), [], none, 0, [], fun _ => []⟩ : Core n).used i = 0 :=
      used_of_ne (by simp)
    rw [hused, Process.tracedLeft_of_cpu hcurrent hcpu, hremaining, List.map_nil, List.sum_nil,
      Nat.zero_add]
    show tracedBurst w quantum b.ticks 0 + tracedBursts w quantum ((ps i).bursts.drop 1) = _
    rw [hrest, tracedBursts, tracedBursts, List.map_cons, List.sum_cons, if_pos hcpu]
    rfl

/-! ## A terminated process -/

/-- **What the trace says of a terminated process**: the sum of its `ticks` is its CPU time
exactly if all its CPU bursts take one tick. -/
theorem Inv.traced_of_terminated (h : Inv ps k c W M) (hk : k < 2 ^ 32)
    (hdone : c.states i = .terminated) :
    (c.traced i).sum = (ps i).totalCpuBurst ↔
      ∀ b ∈ (ps i).bursts, b.type = .cpu → b.ticks = 1 := by
  have hend := (h.ok i).done hdone
  have hbooks : ∀ w : ℕ → ℕ, ((c.traced i).map w).sum = tracedBursts w c.quantum (ps i).bursts := by
    intro w
    rw [← h.books w i, Process.tracedLeft_of_none hend, Nat.add_zero]
  -- as many events as CPU ticks
  have hcount : (c.traced i).length = cpuTicks (ps i).bursts := by
    rw [← tracedBursts_one, ← hbooks]
    simp
  have htotal : (ps i).totalCpuBurst = cpuTicks (ps i).bursts := by
    rw [Process.totalCpuBurst_eq, ← hcount]
    exact Nat.mod_eq_of_lt ((h.length_le i).trans_lt hk)
  have hsum : (c.traced i).sum = tracedBursts id c.quantum (ps i).bursts := by
    rw [← hbooks, List.map_id]
  rw [hsum, htotal]
  apply tracedBursts_eq_iff h.two_le
  rw [← h.bursts i]
  exact (h.ok i).valid.ticks_pos

end Core

end Memlab
