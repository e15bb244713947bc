/-
# The blocks of the contiguous arena and the map of the page

The blocks of the allocator and the map of the page are both compared with the processes
that are live, i.e. admitted and not terminated (`Stored`).  Only the admission and the
end of a process change what is live (`Moved`).

The gaps that the page counts are the free blocks, because no two free blocks are
neighbours (`countLoop_eq`).
-/
import MemoryAllocator.ContiguousDemo
import MemoryAllocator.SchedSimInvariant

namespace Memlab

/-! ## Maps -/

namespace JsMap

variable {κ α : Type} [DecidableEq κ]

/-- An entry that is set is found under its key, and the others stay. -/
theorem get_set (m : JsMap κ α) (k k' : κ) (v : α) :
    (m.set k v).get k' = if k' = k then some v else m.get k' := by
  unfold set
  split_ifs with hany hk
  · -- the entry with this key is replaced
    subst hk
    obtain ⟨x, hx, hxk⟩ := List.any_eq_true.mp hany
    have hsome : (m.find? (fun x => decide (x.1 = k'))).isSome = true :=
      List.find?_isSome.mpr ⟨x, hx, hxk⟩
    obtain ⟨y, hy⟩ := Option.isSome_iff_exists.mp hsome
    have hyk : y.1 = k' := by simpa using List.find?_some hy
    have hkey : (fun x : κ × α => decide (x.1 = k')) ∘ (fun x => if x.1 = k' then (k', v) else x)
        = fun x => decide (x.1 = k') := by
      funext x
      by_cases hx : x.1 = k' <;> simp [hx]
    rw [get, List.find?_map, hkey, hy]
    simp [hyk]
  · have hkey : (fun x : κ × α => decide (x.1 = k')) ∘ (fun x => if x.1 = k then (k, v) else x)
        = fun x => decide (x.1 = k') := by
      funext x
      by_cases hx : x.1 = k <;> simp [hx]
    rw [get, List.find?_map, hkey, get]
    cases hfind : m.find? (fun x => decide (x.1 = k')) with
    | none => rfl
    | some y =>
      have hyk : y.1 = k' := by simpa using List.find?_some hfind
      have hne : y.1 ≠ k := fun heq => hk (hyk.symm.trans heq)
      simp [hne]
  · rename_i hk
    subst hk
    have hnone : m.find? (fun x => decide (x.1 = k')) = none := by
      rw [List.find?_eq_none]
      intro x hx hxk
      exact hany (List.any_eq_true.mpr ⟨x, hx, hxk⟩)
    rw [get, List.find?_append, hnone]
    simp
  · rename_i hk
    rw [get, List.find?_append, get]
    have hne : k ≠ k' := fun heq => hk heq.symm
    simp [hne]

/-- A new key comes last. -/
theorem set_of_notMem {m : JsMap κ α} {k : κ} (h : k ∉ m.map Prod.fst) (v : α) :
    m.set k v = m ++ [(k, v)] := by
  unfold set
  rw [if_neg]
  intro hany
  obtain ⟨x, hx, hxk⟩ := List.any_eq_true.mp hany
  have hkey : x.1 = k := by simpa using hxk
  exact h (hkey ▸ List.mem_map_of_mem hx)

end JsMap

/-! ## Free fragments -/

/-- **The gaps are the free blocks**, in a tiling without free neighbours. -/
theorem countLoop_eq {start : ℕ} {blocks : List Block} {l : List (ℕ × OccupiedBlock)}
    (htiles : Tiles start blocks Arena.total) (hpos : ∀ b ∈ blocks, 1 ≤ b.size)
    (hcoalesced : Coalesced blocks)
    (hl : l.map (fun x => (x.1 + 1, x.2.size)) = allocated blocks) :
    ArenaPage.countLoop start l = (blocks.filter (fun b => b.free)).length := by
  induction blocks generalizing start l with
  | nil =>
    obtain rfl : l = [] := List.map_eq_nil_iff.mp hl
    have hend : start = Arena.total := htiles
    simp [ArenaPage.countLoop, hend]
  | cons b blocks ih =>
    have hpos' : ∀ x ∈ blocks, 1 ≤ x.size := fun x hx => hpos x (List.mem_cons_of_mem _ hx)
    have hb := hpos b (List.mem_cons_self ..)
    cases hfree : b.free with
    | false =>
      have hcons : allocated (b :: blocks) = (b.offset + 1, b.size) :: allocated blocks := by
        simp [allocated, hfree]
      rw [hcons] at hl
      obtain ⟨x, l, rfl, hx, hl⟩ := List.map_eq_cons_iff.mp hl
      obtain ⟨hxoff, hxsize⟩ := Prod.mk.inj hx
      have hoff := htiles.1
      have hrest := ih htiles.2 hpos' hcoalesced.tail hl
      have hcursor : x.1 + x.2.size = start + b.size := by omega
      rw [ArenaPage.countLoop, if_neg (by omega), Nat.zero_add, hcursor, hrest]
      simp [hfree]
    | true =>
      have hskip : allocated (b :: blocks) = allocated blocks := by simp [allocated, hfree]
      rw [hskip] at hl
      have hrest := ih htiles.2 hpos' hcoalesced.tail hl
      have hlength : ((b :: blocks).filter (fun b => b.free)).length
          = (blocks.filter (fun b => b.free)).length + 1 := by simp [hfree]
      rw [hlength]
      cases blocks with
      | nil =>
        obtain rfl : l = [] := List.map_eq_nil_iff.mp hl
        have hend : start + b.size = Arena.total := htiles.2
        rw [ArenaPage.countLoop, if_pos (by omega)]
        rfl
      | cons c blocks =>
        -- the next block is allocated, and ends the gap
        have hc : c.free = false := by
          have hboth := (List.isChain_cons_cons.mp hcoalesced).1
          simpa [hfree] using hboth
        have hcons : allocated (c :: blocks) = (c.offset + 1, c.size) :: allocated blocks := by
          simp [allocated, hc]
        rw [hcons] at hl
        obtain ⟨x, l, rfl, hx, hl⟩ := List.map_eq_cons_iff.mp hl
        have hxoff := (Prod.mk.inj hx).1
        have hoff := htiles.2.1
        rw [ArenaPage.countLoop, if_neg (by omega), Nat.zero_add] at hrest
        rw [ArenaPage.countLoop, if_pos (by omega), hrest, Nat.add_comm]

/-! ## What the page knows -/

namespace ArenaPage

variable {p q : ArenaPage}

/-- The page agrees on the blocks and the sizes. -/
structure SameBlocks (p q : ArenaPage) : Prop where
  occupied : q.occupied = p.occupied
  statBytes : q.statBytes = p.statBytes
  sizes : ∀ pid, (q.processes.get pid).map ArenaPageProcess.size
    = (p.processes.get pid).map ArenaPageProcess.size

theorem SameBlocks.refl (p : ArenaPage) : SameBlocks p p := ⟨rfl, rfl, fun _ => rfl⟩

theorem SameBlocks.trans {r : ArenaPage} (h : SameBlocks p q) (h' : SameBlocks q r) :
    SameBlocks p r :=
  ⟨h'.occupied.trans h.occupied, h'.statBytes.trans h.statBytes,
    fun pid => (h'.sizes pid).trans (h.sizes pid)⟩

/-- Only the process with the pid is updated. -/
theorem get_updateProcess (p : ArenaPage) (pid pid' : ℤ)
    (f : ArenaPageProcess → ArenaPageProcess) :
    (p.updateProcess pid f).processes.get pid'
      = if pid' = pid then (p.processes.get pid).map f else p.processes.get pid' := by
  unfold updateProcess
  cases hget : p.processes.get pid with
  | none =>
    split_ifs with heq
    · rw [heq]
      exact hget
    · rfl
  | some x => exact JsMap.get_set ..

/-- Updating a process leaves the occupied blocks. -/
theorem occupied_updateProcess (p : ArenaPage) (pid : ℤ)
    (f : ArenaPageProcess → ArenaPageProcess) : (p.updateProcess pid f).occupied = p.occupied := by
  unfold updateProcess
  cases p.processes.get pid <;> rfl

/-- Updating a process leaves the count of bytes. -/
theorem statBytes_updateProcess (p : ArenaPage) (pid : ℤ)
    (f : ArenaPageProcess → ArenaPageProcess) : (p.updateProcess pid f).statBytes = p.statBytes := by
  unfold updateProcess
  cases p.processes.get pid <;> rfl

/-- A process changes its lane and keeps its block. -/
theorem sameBlocks_setState (p : ArenaPage) (pid : ℤ) (state : ArenaLane) :
    SameBlocks p (p.setState pid state) := by
  refine ⟨occupied_updateProcess .., statBytes_updateProcess .., fun pid' => ?_⟩
  unfold setState
  rw [get_updateProcess]
  split_ifs with heq
  · rw [heq, Option.map_map]
    rfl
  · rfl

/-- What the page does for `memory_freed`, if it knows the process. -/
theorem applyEvent_memoryFreed {pid : ℤ} {occupied : JsMap ℕ OccupiedBlock} {x : ArenaPageProcess}
    (hfree : p.freeBlock pid = { p with occupied := occupied })
    (hx : p.processes.get pid = some x) (offset size : ℕ) :
    p.applyEvent (.memoryFreed pid offset size)
      = { p with
          processes := p.processes.set pid { x with offset := none, size := none }
          occupied := occupied
          statFree := p.statFree + 1
          statBytes := p.statBytes - x.size.getD 0 } := by
  simp only [applyEvent, hfree, freeBytes, hx]

end ArenaPage

/-- The events that do not concern the memory. -/
def ArenaEvent.OfScheduler : ArenaEvent → Prop
  | processReady .. | processScheduled .. | cpuRun .. | ioRequested .. | ioAck ..
  | processTerminated .. => True
  | _ => False

/-- The events of the scheduler leave the blocks. -/
theorem ArenaPage.sameBlocks_applyEvent (p : ArenaPage) {event : ArenaEvent}
    (h : event.OfScheduler) : SameBlocks p (p.applyEvent event) := by
  cases event with
  | processReady pid preempted => exact sameBlocks_setState p pid .ready
  | processScheduled pid burstIndex => exact sameBlocks_setState p pid .running
  | cpuRun pid ticks remaining => exact sameBlocks_setState p pid .running
  | ioRequested pid ioTicks => exact sameBlocks_setState p pid .waiting
  | processTerminated pid => exact sameBlocks_setState p pid .terminated
  | ioAck pid => exact .refl p
  | processCreated pid name memoryRequest => exact h.elim
  | memoryAllocated pid offset size => exact h.elim
  | memoryFreed pid offset size => exact h.elim

/-- One more event of the trace is one more call of `applyEvent`. -/
theorem replayArena_concat (trace : List ArenaEvent) (event : ArenaEvent) :
    replayArena (trace ++ [event]) = (replayArena trace).applyEvent event := by
  rw [replayArena, List.foldl_append]
  rfl

/-! ## What is live -/

/-- What never changes of a process. -/
def ArenaProcess.data (p : ArenaProcess) : ℤ × ℕ × ℕ := (p.pid, p.memBytes, p.arrival)

/-- The pid is among the data that never change. -/
theorem ArenaProcess.pid_of_data {p q : ArenaProcess} (h : p.data = q.data) : p.pid = q.pid :=
  congrArg Prod.fst h

/-- The size is among the data that never change. -/
theorem ArenaProcess.memBytes_of_data {p q : ArenaProcess} (h : p.data = q.data) :
    p.memBytes = q.memBytes :=
  congrArg (fun x => x.2.1) h

/-- The arrival is among the data that never change. -/
theorem ArenaProcess.arrival_of_data {p q : ArenaProcess} (h : p.data = q.data) :
    p.arrival = q.arrival :=
  congrArg (fun x => x.2.2) h

namespace Arena

variable {n : ℕ} {ps : Fin n → ArenaProcess} {s t u : Arena n} {i : Fin n}

/-- The page, as the events so far have left it. -/
def page (s : Arena n) : ArenaPage := replayArena s.trace

/-- The states of the processes. -/
def states (s : Arena n) (i : Fin n) : State := (s.procs i).state

/-- The process has been admitted and has not ended. -/
def IsLive (s : Arena n) (i : Fin n) : Prop := s.states i = .ready ∨ s.states i = .waiting

instance (s : Arena n) (i : Fin n) : Decidable (s.IsLive i) := inferInstanceAs (Decidable (_ ∨ _))

/-- The processes that have been admitted and have not ended, in the order of the
vector. -/
def live (s : Arena n) : List (Fin n) := (List.finRange n).filter (fun i => s.IsLive i)

/-- The pointer that a process has got. -/
def ptr (s : Arena n) (i : Fin n) : ℕ := s.allocs (s.procs i).pid

/-- The allocation of a process. -/
def slot (s : Arena n) (i : Fin n) : ℕ × ℕ := (s.ptr i, (s.procs i).memBytes)

/-- The entry of the map for a process. -/
def entry (s : Arena n) (i : Fin n) : ℕ × OccupiedBlock :=
  (s.ptr i - 1, ⟨(s.procs i).pid, (s.procs i).memBytes⟩)

theorem mem_live : i ∈ s.live ↔ s.IsLive i := by simp [live]

/-- No process is listed twice. -/
theorem nodup_live (s : Arena n) : s.live.Nodup := (List.nodup_finRange n).filter _

/-- One more process is live. -/
theorem live_perm_cons (hi : ¬ s.IsLive i) (hi' : t.IsLive i)
    (hother : ∀ j ≠ i, t.states j = s.states j) : t.live.Perm (i :: s.live) := by
  have hnotin : i ∉ s.live := fun hin => hi (mem_live.mp hin)
  apply (List.perm_ext_iff_of_nodup (nodup_live t) (.cons hnotin (nodup_live s))).mpr
  intro j
  rw [mem_live, List.mem_cons, mem_live]
  by_cases hj : j = i
  · subst hj
    exact iff_of_true hi' (.inl rfl)
  · unfold IsLive
    rw [hother j hj]
    exact ⟨fun h => .inr h, fun h => h.resolve_left hj⟩

/-- **The allocator and the page hold what is live.** -/
structure Stored (s : Arena n) (page : ArenaPage) : Prop where
  alloc : s.alloc.Inv total (s.live.map s.slot)
  occupied : page.occupied.Perm (s.live.map s.entry)
  bytes : page.statBytes = (s.live.map (fun i => (s.procs i).memBytes)).sum
  sizes : ∀ i, s.IsLive i → (page.processes.get (s.procs i).pid).map ArenaPageProcess.size
    = some (some (s.procs i).memBytes)

/-- What concerns the memory has not changed. -/
structure Quiet (s t : Arena n) : Prop where
  alloc : t.alloc = s.alloc
  allocs : t.allocs = s.allocs
  data : ∀ i, (t.procs i).data = (s.procs i).data
  live : ∀ i, t.IsLive i ↔ s.IsLive i
  page : s.page.SameBlocks t.page

theorem Quiet.refl (s : Arena n) : Quiet s s :=
  ⟨rfl, rfl, fun _ => rfl, fun _ => Iff.rfl, .refl _⟩

theorem Quiet.trans (h : Quiet s t) (h' : Quiet t u) : Quiet s u :=
  ⟨h'.alloc.trans h.alloc, h'.allocs.trans h.allocs, fun i => (h'.data i).trans (h.data i),
    fun i => (h'.live i).trans (h.live i), h.page.trans h'.page⟩

/-- What the page stores stays right when no block changes hands. -/
theorem Stored.quiet (h : Stored s s.page) (hquiet : Quiet s t) : Stored t t.page := by
  have hlive : t.live = s.live := by
    unfold Arena.live
    simp only [hquiet.live]
  have hpid := fun i => ArenaProcess.pid_of_data (hquiet.data i)
  have hmem := fun i => ArenaProcess.memBytes_of_data (hquiet.data i)
  have hptr : ∀ i, t.ptr i = s.ptr i := fun i => by rw [ptr, ptr, hquiet.allocs, hpid]
  have hslot : t.slot = s.slot := by
    funext i
    rw [slot, slot, hptr, hmem]
  have hentry : t.entry = s.entry := by
    funext i
    rw [entry, entry, hptr, hpid, hmem]
  refine ⟨?_, ?_, ?_, fun i hi => ?_⟩
  · rw [hquiet.alloc, hlive, hslot]
    exact h.alloc
  · rw [hquiet.page.occupied, hlive, hentry]
    exact h.occupied
  · rw [hquiet.page.statBytes, hlive]
    simp only [hmem]
    exact h.bytes
  · rw [hpid, hmem, hquiet.page.sizes]
    exact h.sizes i ((hquiet.live i).mp hi)

/-- An event of the scheduling. -/
theorem quiet_log (s : Arena n) {event : ArenaEvent} (h : event.OfScheduler) :
    Quiet s (s.log event) := by
  refine ⟨rfl, rfl, fun _ => rfl, fun _ => Iff.rfl, ?_⟩
  show s.page.SameBlocks (replayArena (s.trace ++ [event]))
  rw [replayArena_concat]
  exact ArenaPage.sameBlocks_applyEvent _ h

/-- Writing a process writes its state. -/
theorem states_setProc (s : Arena n) (i : Fin n) (p : ArenaProcess) :
    (s.setProc i p).states = Function.update s.states i p.state := by
  funext j
  show (Function.update s.procs i p j).state = _
  by_cases hj : j = i
  · subst hj
    rw [Function.update_self, Function.update_self]
  · rw [Function.update_of_ne hj, Function.update_of_ne hj]
    rfl

/-- Writing a process keeps the data that never change. -/
theorem data_setProc (s : Arena n) {p : ArenaProcess} (h : p.data = (s.procs i).data) (j : Fin n) :
    ((s.setProc i p).procs j).data = (s.procs j).data := by
  show (Function.update s.procs i p j).data = _
  by_cases hj : j = i
  · subst hj
    rw [Function.update_self, h]
  · rw [Function.update_of_ne hj]

/-- A process is changed, but stays live or not. -/
theorem quiet_setProc (s : Arena n) {p : ArenaProcess} (hdata : p.data = (s.procs i).data)
    (hlive : (p.state = .ready ∨ p.state = .waiting) ↔ s.IsLive i) : Quiet s (s.setProc i p) := by
  refine ⟨rfl, rfl, data_setProc s hdata, fun j => ?_, .refl _⟩
  unfold IsLive at hlive ⊢
  rw [states_setProc]
  by_cases hj : j = i
  · subst hj
    rw [Function.update_self, hlive]
  · rw [Function.update_of_ne hj]

/-- A process with a block gets ready or waits without giving it up. -/
theorem quiet_setState (s : Arena n) {state : State} (hi : s.IsLive i)
    (hstate : state = .ready ∨ state = .waiting) : Quiet s (s.setState i state) :=
  quiet_setProc s rfl (iff_of_true hstate hi)

/-- A process with a block keeps it in the queue. -/
theorem quiet_enqueue (s : Arena n) (hi : s.IsLive i) (preempted : Bool) :
    Quiet s (s.enqueue i preempted) := by
  have hstate := quiet_setState s hi (.inl rfl)
  have hsched : ∀ sched, Quiet (s.setState i .ready) { s.setState i .ready with sched := sched } :=
    fun sched => ⟨rfl, rfl, fun _ => rfl, fun _ => Iff.rfl, .refl _⟩
  exact (hstate.trans (hsched _)).trans (quiet_log _ trivial)

/-- What `advance` keeps of a process. -/
theorem advance_same (p : ArenaProcess) :
    { p with toProcess := p.toProcess.advanceBurst.2 }.data = p.data ∧
      p.toProcess.advanceBurst.2.state = p.state := by
  rcases p.toProcess.advanceBurst_cases with ⟨-, heq⟩ | ⟨b, -, heq⟩
  · rw [heq]
    exact ⟨rfl, rfl⟩
  · rw [heq]
    exact ⟨rfl, rfl⟩

/-! ## Admission and release -/

/-- One process has moved to a state, and the ready queue is now `queue`. -/
structure Moved (s t : Arena n) (i : Fin n) (state : State) (queue : List (Fin n)) : Prop where
  states : t.states = Function.update s.states i state
  data : ∀ j, (t.procs j).data = (s.procs j).data
  queue : t.sched.q = queue
  running : t.running = s.running
  tick : t.tick = s.tick
  memWait : t.memWait = s.memWait
  ioWait : t.ioWait = s.ioWait
  known : ∀ pid, (s.page.processes.get pid).isSome → (t.page.processes.get pid).isSome
  stored : Stored t t.page

/-- The page forgets no process. -/
theorem Quiet.known (h : Quiet s t) (pid : ℤ) (hpid : (s.page.processes.get pid).isSome) :
    (t.page.processes.get pid).isSome := by
  have hsize := h.page.sizes pid
  rw [← Option.isSome_map, hsize, Option.isSome_map]
  exact hpid

/-- Two processes with the same pid are the same. -/
theorem eq_of_pid (hdata : ∀ j, (s.procs j).data = (ps j).data)
    (hpids : Function.Injective (fun j => (ps j).pid)) {j : Fin n}
    (h : (s.procs j).pid = (s.procs i).pid) : j = i := by
  apply hpids
  show (ps j).pid = (ps i).pid
  rw [← ArenaProcess.pid_of_data (hdata j), ← ArenaProcess.pid_of_data (hdata i), h]

/-- The occupied blocks of the page are those of the live processes. -/
theorem Stored.mem_occupied {page : ArenaPage} (h : Stored s page) {x : ℕ × OccupiedBlock} :
    x ∈ page.occupied ↔ ∃ i, s.IsLive i ∧ s.entry i = x := by
  rw [h.occupied.mem_iff, List.mem_map]
  simp only [mem_live]

/-- A live process has a block. -/
theorem Stored.ptr_ne_zero {page : ArenaPage} (h : Stored s page) (hi : s.IsLive i) :
    s.ptr i ≠ 0 :=
  h.alloc.ptr_ne_zero (x := s.slot i) (List.mem_map_of_mem (mem_live.mpr hi))

/-- No two live processes have their blocks at the same offset. -/
theorem Stored.eq_of_offset {page : ArenaPage} (h : Stored s page) {j : Fin n} (hi : s.IsLive i)
    (hj : s.IsLive j) (heq : s.ptr j - 1 = s.ptr i - 1) : j = i := by
  have hi0 := h.ptr_ne_zero hi
  have hj0 := h.ptr_ne_zero hj
  have hnodup := h.alloc.nodup_ptr
  rw [List.map_map] at hnodup
  have hptr : s.ptr j = s.ptr i := by omega
  exact List.inj_on_of_nodup_map hnodup (mem_live.mpr hj) (mem_live.mpr hi) hptr

/-- A page with the same blocks stores them as well. -/
theorem Stored.samePage {page page' : ArenaPage} (h : Stored s page)
    (hsame : page.SameBlocks page') : Stored s page' := by
  refine ⟨h.alloc, ?_, hsame.statBytes.trans h.bytes, fun i hi => ?_⟩
  · rw [hsame.occupied]
    exact h.occupied
  · rw [hsame.sizes]
    exact h.sizes i hi

/-- The state with the pointer of a process, before the process is enqueued. -/
def granted (s : Arena n) (i : Fin n) (ptr : ℕ) (a : FirstFitAllocator) : Arena n :=
  { s with alloc := a, allocs := Function.update s.allocs (s.procs i).pid ptr }.log
    (.memoryAllocated (s.procs i).pid (ptr - 1) (s.procs i).memBytes)

/-- Logging an event is applying it to the page. -/
theorem page_log (s : Arena n) (event : ArenaEvent) :
    (s.log event).page = s.page.applyEvent event :=
  replayArena_concat s.trace event

/-- A list of what is live, with one more process. -/
theorem map_perm_cons {β : Type} {l l' : List (Fin n)} {f g : Fin n → β} (h : l'.Perm (i :: l))
    (hsame : ∀ j ∈ l, f j = g j) : (l'.map f).Perm (f i :: l.map g) := by
  refine (h.map f).trans (.of_eq ?_)
  rw [List.map_cons, List.map_congr_left hsame]

/-- The page and the allocator have the block of a process that is admitted. -/
theorem Stored.granted (hdata : ∀ j, (s.procs j).data = (ps j).data)
    (hpids : Function.Injective (fun j => (ps j).pid)) (hstored : Stored s s.page)
    (hnew : s.states i = .new) (hknown : (s.page.processes.get (s.procs i).pid).isSome)
    {ptr : ℕ} {a : FirstFitAllocator} (hptr : ptr ≠ 0)
    (hinv : a.Inv total ((ptr, (s.procs i).memBytes) :: s.live.map s.slot))
    (halloc : t.alloc = a) (hallocs : t.allocs = (s.granted i ptr a).allocs)
    (hstates : t.states = Function.update s.states i .ready)
    (hdata' : ∀ j, (t.procs j).data = (s.procs j).data) :
    Stored t (s.granted i ptr a).page := by
  have hpid := fun j => ArenaProcess.pid_of_data (hdata' j)
  have hmem := fun j => ArenaProcess.memBytes_of_data (hdata' j)
  have hnotin : i ∉ s.live := by
    rw [mem_live, IsLive, hnew]
    simp
  have hne : ∀ j ∈ s.live, (s.procs j).pid ≠ (s.procs i).pid := by
    intro j hj heq
    exact hnotin (eq_of_pid hdata hpids heq ▸ hj)
  have hlive : t.live.Perm (i :: s.live) := by
    refine live_perm_cons (fun hi => hnotin (mem_live.mpr hi)) (.inl ?_) (fun j hj => ?_)
    · rw [hstates, Function.update_self]
    · rw [hstates, Function.update_of_ne hj]
  have hptri : t.ptr i = ptr := by
    rw [Arena.ptr, hallocs, hpid]
    exact Function.update_self ..
  have hptrs : ∀ j ∈ s.live, t.ptr j = s.ptr j := by
    intro j hj
    rw [Arena.ptr, hallocs, hpid]
    exact Function.update_of_ne (hne j hj) _ _
  have hpage : (s.granted i ptr a).page
      = s.page.applyEvent (.memoryAllocated (s.procs i).pid (ptr - 1) (s.procs i).memBytes) :=
    page_log _ _
  rw [hpage]
  refine ⟨?_, ?_, ?_, fun j hj => ?_⟩
  · rw [halloc]
    have hslot : ∀ j ∈ s.live, t.slot j = s.slot j := by
      intro j hj
      rw [slot, slot, hptrs j hj, hmem]
    have hi : t.slot i = (ptr, (s.procs i).memBytes) := by rw [slot, hptri, hmem]
    rw [← hi] at hinv
    exact hinv.perm (map_perm_cons hlive hslot).symm
  · -- the offset is not that of a block which the page has
    have hfresh : ptr - 1 ∉ s.page.occupied.map Prod.fst := by
      rw [(hstored.occupied.map Prod.fst).mem_iff, List.map_map]
      intro hin
      obtain ⟨j, hj, heq⟩ := List.mem_map.mp hin
      have heq : s.ptr j - 1 = ptr - 1 := heq
      have hj0 := hstored.ptr_ne_zero (mem_live.mp hj)
      have hnodup := hinv.nodup_ptr
      rw [List.map_cons, List.map_map] at hnodup
      have hptr' : ptr = s.ptr j := by omega
      refine (List.nodup_cons.mp hnodup).1 (List.mem_map.mpr ⟨j, hj, ?_⟩)
      exact hptr'.symm
    show ((s.page.updateProcess _ _).occupied.set _ _).Perm _
    rw [ArenaPage.occupied_updateProcess, JsMap.set_of_notMem hfresh]
    have hentry : ∀ j ∈ s.live, t.entry j = s.entry j := by
      intro j hj
      rw [entry, entry, hptrs j hj, hpid, hmem]
    refine List.Perm.trans ?_ (map_perm_cons hlive hentry).symm
    have hi : t.entry i = (ptr - 1, ⟨(s.procs i).pid, (s.procs i).memBytes⟩) := by
      rw [entry, hptri, hpid, hmem]
    rw [hi]
    exact (List.perm_append_singleton _ _).trans (hstored.occupied.cons _)
  · show (s.page.updateProcess _ _).statBytes + _ = _
    rw [ArenaPage.statBytes_updateProcess, hstored.bytes]
    have hsum := (map_perm_cons hlive (f := fun j => (t.procs j).memBytes)
      (fun j _ => hmem j)).sum_eq
    rw [hsum, List.sum_cons, hmem, Nat.add_comm]
  · show (((s.page.updateProcess _ _).processes.get _).map _) = _
    rw [ArenaPage.get_updateProcess, hpid, hmem]
    split_ifs with heq
    · obtain ⟨x, hx⟩ := Option.isSome_iff_exists.mp hknown
      obtain rfl := eq_of_pid hdata hpids heq
      rw [hx]
      rfl
    · have hji : j ≠ i := fun hji => heq (by rw [hji])
      apply hstored.sizes j
      rwa [IsLive, hstates, Function.update_of_ne hji] at hj

/-- **What `try_admit` does**: nothing, or the process gets its memory and is ready. -/
theorem tryAdmit_cases (hdata : ∀ j, (s.procs j).data = (ps j).data)
    (hpids : Function.Injective (fun j => (ps j).pid)) (hpos : 1 ≤ (ps i).memBytes)
    (hstored : Stored s s.page) (hnew : s.states i = .new)
    (hknown : (s.page.processes.get (s.procs i).pid).isSome) :
    s.tryAdmit i = (false, s) ∨
      ∃ t, s.tryAdmit i = (true, t) ∧ Moved s t i .ready (s.sched.q ++ [i]) := by
  have hsize : 1 ≤ (s.procs i).memBytes := by
    rw [ArenaProcess.memBytes_of_data (hdata i)]
    exact hpos
  unfold tryAdmit
  rcases hstored.alloc.allocate hsize with ⟨heq, -⟩ | ⟨ptr, a, heq, hptr, hinv⟩
  · left
    rw [heq]
    rfl
  · right
    rw [heq]
    dsimp only
    rw [if_neg hptr]
    refine ⟨(s.granted i ptr a).enqueue i false, rfl, ?_⟩
    have hstates : ((s.granted i ptr a).enqueue i false).states
        = Function.update s.states i .ready := states_setProc ..
    have hdata' : ∀ j, (((s.granted i ptr a).enqueue i false).procs j).data = (s.procs j).data :=
      data_setProc (s.granted i ptr a) rfl
    have hsame : (s.granted i ptr a).page.SameBlocks ((s.granted i ptr a).enqueue i false).page := by
      unfold enqueue
      rw [page_log]
      exact ArenaPage.sameBlocks_applyEvent _ trivial
    have hstored' : Stored ((s.granted i ptr a).enqueue i false) (s.granted i ptr a).page :=
      hstored.granted hdata hpids hnew hknown hptr hinv rfl rfl hstates hdata'
    refine ⟨hstates, hdata', rfl, rfl, rfl, rfl, rfl, fun pid hpid => ?_, hstored'.samePage hsame⟩
    rw [← Option.isSome_map, hsame.sizes, Option.isSome_map, granted, page_log]
    show ((s.page.updateProcess _ _).processes.get _).isSome
    rw [ArenaPage.get_updateProcess]
    split_ifs with heq
    · rw [Option.isSome_map, ← heq]
      exact hpid
    · exact hpid

/-- The map of the page without the block of a live process. -/
theorem Stored.freeBlock {page : ArenaPage} (hdata : ∀ j, (s.procs j).data = (ps j).data)
    (hpids : Function.Injective (fun j => (ps j).pid)) (h : Stored s page) (hi : s.IsLive i) :
    ∃ occupied, page.freeBlock (s.procs i).pid = { page with occupied := occupied } ∧
      page.occupied.Perm (s.entry i :: occupied) := by
  have hin : s.entry i ∈ page.occupied := h.mem_occupied.mpr ⟨i, hi, rfl⟩
  -- the first entry of this pid is the entry of the process
  have hfind : page.occupied.find? (fun x => x.2.pid = (s.procs i).pid) = some (s.entry i) := by
    have hsome : (page.occupied.find? (fun x => x.2.pid = (s.procs i).pid)).isSome :=
      List.find?_isSome.mpr ⟨s.entry i, hin, by simp [entry]⟩
    obtain ⟨x, hx⟩ := Option.isSome_iff_exists.mp hsome
    obtain ⟨j, hj, rfl⟩ := h.mem_occupied.mp (List.mem_of_find?_eq_some hx)
    have hpid := List.find?_some hx
    rw [hx, eq_of_pid hdata hpids (of_decide_eq_true hpid)]
  -- and so is the first entry with its offset
  obtain ⟨x, l, l', -, hx, hl, herase⟩ :=
    List.exists_of_eraseP (p := fun x => decide (x.1 = (s.entry i).1)) hin (by simp)
  obtain ⟨j, hj, rfl⟩ := h.mem_occupied.mp (show x ∈ page.occupied by rw [hl]; simp)
  have hoff : s.ptr j - 1 = s.ptr i - 1 := of_decide_eq_true hx
  obtain rfl := h.eq_of_offset hi hj hoff
  refine ⟨page.occupied.delete (s.entry j).1, ?_, ?_⟩
  · unfold ArenaPage.freeBlock
    rw [hfind]
  · unfold JsMap.delete
    rw [herase]
    nth_rewrite 1 [hl]
    exact List.perm_middle

/-- **What the end of a process does**, if the process is live. -/
theorem moved_release (hdata : ∀ j, (s.procs j).data = (ps j).data)
    (hpids : Function.Injective (fun j => (ps j).pid)) (hstored : Stored s s.page)
    (hi : s.IsLive i) : Moved s (s.release i) i .terminated s.sched.q := by
  have hstates : (s.release i).states = Function.update s.states i .terminated :=
    states_setProc ..
  have hdata' : ∀ j, ((s.release i).procs j).data = (s.procs j).data := by
    unfold release
    exact data_setProc _ rfl
  have hpid := fun j => ArenaProcess.pid_of_data (hdata' j)
  have hmem := fun j => ArenaProcess.memBytes_of_data (hdata' j)
  have hptr : ∀ j, (s.release i).ptr j = s.ptr j := fun j => by
    rw [ptr, hpid]
    rfl
  have hlive : s.live.Perm (i :: (s.release i).live) := by
    refine live_perm_cons ?_ hi (fun j hj => ?_)
    · rw [IsLive, hstates, Function.update_self]
      simp
    · rw [hstates, Function.update_of_ne hj]
  have hne : ∀ j, (s.release i).IsLive j → j ≠ i := by
    rintro j hj rfl
    rw [IsLive, hstates, Function.update_self] at hj
    simp at hj
  obtain ⟨occupied, hfree, hoccupied⟩ := hstored.freeBlock hdata hpids hi
  obtain ⟨x, hx, hxsize⟩ := Option.map_eq_some_iff.mp (hstored.sizes i hi)
  -- the page after the release of the memory
  have hfreed := ArenaPage.applyEvent_memoryFreed hfree hx (s.ptr i - 1) (s.procs i).memBytes
  have hpage : (s.page.applyEvent
      (.memoryFreed (s.procs i).pid (s.ptr i - 1) (s.procs i).memBytes)).SameBlocks
        (s.release i).page := by
    have hlog : (s.release i).page = (s.page.applyEvent
        (.memoryFreed (s.procs i).pid (s.ptr i - 1) (s.procs i).memBytes)).applyEvent
          (.processTerminated (s.procs i).pid) := by
      unfold release
      show (log (log _ _) _).page = _
      rw [page_log, page_log]
      rfl
    rw [hlog]
    exact ArenaPage.sameBlocks_applyEvent _ trivial
  have hstored' : Stored (s.release i)
      (s.page.applyEvent (.memoryFreed (s.procs i).pid (s.ptr i - 1) (s.procs i).memBytes)) := by
    rw [hfreed]
    refine ⟨?_, ?_, ?_, fun j hj => ?_⟩
    · have hslot : ∀ j ∈ (s.release i).live, s.slot j = (s.release i).slot j := by
        intro j _
        rw [slot, slot, hptr, hmem]
      have hperm := map_perm_cons hlive hslot
      have hinv : (s.alloc.free (s.ptr i)).Inv total
          ((s.slot i :: (s.release i).live.map (s.release i).slot).erase (s.slot i)) :=
        (hstored.alloc.perm hperm).free (List.mem_cons_self ..)
      rw [List.erase_cons_head] at hinv
      exact hinv
    · have hentry : ∀ j ∈ (s.release i).live, s.entry j = (s.release i).entry j := by
        intro j _
        rw [entry, entry, hptr, hpid, hmem]
      have hperm := map_perm_cons hlive hentry
      exact ((hoccupied.symm.trans hstored.occupied).trans hperm).cons_inv
    · have hsum := (map_perm_cons hlive (f := fun j => (s.procs j).memBytes)
        (fun j _ => (hmem j).symm)).sum_eq
      rw [List.sum_cons] at hsum
      show s.page.statBytes - _ = _
      rw [hstored.bytes, hsum, hxsize, Option.getD_some, Nat.add_sub_cancel_left]
    · have hji := hne j hj
      have hpidne : (s.procs j).pid ≠ (s.procs i).pid :=
        fun heq => hji (eq_of_pid hdata hpids heq)
      rw [hpid, hmem, JsMap.get_set, if_neg hpidne]
      apply hstored.sizes j
      rwa [IsLive, hstates, Function.update_of_ne hji] at hj
  refine ⟨hstates, hdata', rfl, rfl, rfl, rfl, rfl, fun pid hin => ?_, hstored'.samePage hpage⟩
  rw [← Option.isSome_map, hpage.sizes, Option.isSome_map, hfreed, JsMap.get_set]
  split_ifs
  · rfl
  · exact hin

end Arena

end Memlab
