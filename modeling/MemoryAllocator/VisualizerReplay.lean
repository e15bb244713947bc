/-
# `virtual.html`: replaying the trace of the demand-paging demo

The page has frames and a TLB of its own, which it changes when it comes to an event.  It
follows the simulator through faults, evictions and terminations, but it has no case for
`page_table_hit`: a refill of the TLB is not replayed.  Without refills, page and
simulator agree all the time (`Shows`), and the first refill separates them.
-/
import MemoryAllocator.Visualizer

namespace Visualizer

/-! ## The page -/

/-- The states that the page has for processes. -/
inductive Lane where
  | new
  | ready
  | running
  | waiting
  | terminated
  deriving DecidableEq, Repr

structure PageSegment where
  name : Segment
  baseVpn : ℕ
  numPages : ℕ
  deriving DecidableEq, Repr

structure PageProcess where
  name : String
  state : Lane := .new
  segments : List PageSegment := []
  deriving DecidableEq, Repr

structure PageFrame where
  pid : ℤ
  vpn : ℕ
  segment : Segment
  deriving DecidableEq, Repr

structure PageTlbEntry where
  pid : ℤ
  vpn : ℕ
  pfn : Fin 32
  segment : Segment
  deriving DecidableEq, Repr

/-- The variables of the page, as `reset` leaves them. -/
structure Page where
  frames : Fin 32 → Option PageFrame := fun _ => none
  tlb : Fin 8 → Option PageTlbEntry := fun _ => none
  tlbPtr : Fin 8 := 0
  processes : ℤ → Option PageProcess := fun _ => none
  tlbHits : ℕ := 0
  tlbMisses : ℕ := 0
  pageFaults : ℕ := 0
  evictions : ℕ := 0

namespace Page

variable (p : Page)

/-- Change a process, if the page knows it. -/
def updateProcess (pid : ℤ) (f : PageProcess → PageProcess) : Page :=
  { p with processes := Function.update p.processes pid ((p.processes pid).map f) }

def setState (pid : ℤ) (state : Lane) : Page := p.updateProcess pid ({ · with state := state })

/-- Empty the slots of the TLB with a property. -/
def clearTlb (q : PageTlbEntry → Bool) : Page :=
  { p with tlb := fun i => (p.tlb i).filter (fun entry => !q entry) }

def setFrame (pfn : Fin 32) (frame : Option PageFrame) : Page :=
  { p with frames := Function.update p.frames pfn frame }

/-- The switch of `applyEvent`.  Types without a case change nothing. -/
def applyEvent : Event → Page
  | .processCreated pid name _ _ =>
    { p with processes := Function.update p.processes pid (some { name := name }) }
  | .segmentCreated pid segment baseVpn numPages =>
    p.updateProcess pid (fun q => { q with segments := q.segments ++ [⟨segment, baseVpn, numPages⟩] })
  | .processReady pid _ => p.setState pid .ready
  | .processScheduled pid _ => p.setState pid .running
  | .cpuRun pid _ _ => p.setState pid .running
  | .ioRequested pid _ => p.setState pid .waiting
  | .tlbHit .. => { p with tlbHits := p.tlbHits + 1 }
  | .tlbMiss .. => { p with tlbMisses := p.tlbMisses + 1 }
  | .pageFault pid _ _ _ => { p with pageFaults := p.pageFaults + 1 }.setState pid .waiting
  | .pageAllocated pid vpn pfn segment =>
    { p.setFrame pfn (some ⟨pid, vpn, segment⟩) with
      tlb := Function.update p.tlb p.tlbPtr (some ⟨pid, vpn, pfn, segment⟩)
      tlbPtr := p.tlbPtr + 1 }
  | .pageEvicted _ _ _ pfn =>
    { p.setFrame pfn none with evictions := p.evictions + 1 }.clearTlb (fun entry => entry.pfn = pfn)
  | .pageFreed _ pfn => p.setFrame pfn none
  | .processTerminated pid =>
    (p.setState pid .terminated).clearTlb (fun entry => entry.pid = pid)
  | .pageTableHit .. => p
  | .ioAck _ => p

end Page

/-- The page after the events of a log. -/
def replay (log : List Event) : Page := log.foldl Page.applyEvent {}

theorem replay_append (log events : List Event) :
    replay (log ++ events) = events.foldl Page.applyEvent (replay log) :=
  List.foldl_append ..

/-! ## Page and simulator -/

/-- What the page should have for a frame. -/
def VirtualMemorySystem.frame (v : VirtualMemorySystem) (pfn : Fin 32) : Option PageFrame :=
  if v.frameOwner pfn = -1 then none
  else some ⟨v.frameOwner pfn, v.frameVpn pfn, v.frameSegment pfn⟩

/-- What the page should have for a slot of the TLB. -/
def TLBEntry.shown (e : TLBEntry) : Option PageTlbEntry :=
  if e.valid then some ⟨e.pid, e.vpn, e.pfn, e.segment⟩ else none

/-- **The page shows the simulator**, up to a frame that is about to be loaded. -/
structure Shows (p : Page) (v : VirtualMemorySystem) (gap : Option (Fin 32)) : Prop where
  frames : ∀ pfn, some pfn ≠ gap → p.frames pfn = v.frame pfn
  tlb : ∀ i, p.tlb i = (v.tlb i).shown

/-- The page has the same frames and the same TLB. -/
structure SameTables (p q : Page) : Prop where
  frames : q.frames = p.frames
  tlb : q.tlb = p.tlb
  tlbPtr : q.tlbPtr = p.tlbPtr

theorem SameTables.trans {p q r : Page} (h : SameTables p q) (h' : SameTables q r) :
    SameTables p r :=
  ⟨h'.frames.trans h.frames, h'.tlb.trans h.tlb, h'.tlbPtr.trans h.tlbPtr⟩

/-- The events of the scheduling leave the tables alone. -/
theorem sameTables_of_scheduler (p : Page) {event : Event} (h : event.OfScheduler) :
    SameTables p (p.applyEvent event) := by
  cases event <;> first | exact ⟨rfl, rfl, rfl⟩ | exact h.elim

variable {p q : Page} {v : VirtualMemorySystem} {dead : List ℤ} {gap : Option (Fin 32)} {pfn : Fin 32} {op : Access}

theorem Shows.of_sameTables (h : Shows p v gap) (hpq : SameTables p q) : Shows q v gap := by
  refine ⟨fun pfn hpfn => ?_, fun i => ?_⟩
  · rw [hpq.frames]
    exact h.frames pfn hpfn
  · rw [hpq.tlb]
    exact h.tlb i

theorem Shows.weaken (h : Shows p v none) (gap : Option (Fin 32)) : Shows p v gap :=
  ⟨fun pfn _ => h.frames pfn (by simp), h.tlb⟩

/-- Making entries invalid empties the slots of the page. -/
theorem shown_invalidate (e : TLBEntry) (b : TLBEntry → Bool) (q : PageTlbEntry → Bool)
    (hbq : ∀ pid vpn pfn segment valid, b ⟨pid, vpn, pfn, segment, valid⟩ = q ⟨pid, vpn, pfn, segment⟩) :
    (if b e then { e with valid := false } else e).shown = e.shown.filter (fun x => !q x) := by
  obtain ⟨pid, vpn, pfn, segment, valid⟩ := e
  have heq := hbq pid vpn pfn segment valid
  cases hvalid : valid with
  | false =>
    subst hvalid
    split_ifs <;> rfl
  | true =>
    subst hvalid
    rw [heq]
    cases hq : q ⟨pid, vpn, pfn, segment⟩ with
    | false => simp [TLBEntry.shown, Option.filter, hq]
    | true => simp [TLBEntry.shown, Option.filter, hq]

/-- An eviction. -/
theorem Shows.evict (h : Shows p v none) (rest : List (Fin 32)) (pid evictedPid : ℤ)
    (evictedVpn : ℕ) :
    Shows (p.applyEvent (.pageEvicted pid evictedPid evictedVpn pfn)) (v.vacate pfn rest)
      (some pfn) := by
  refine ⟨fun g hg => ?_, fun i => ?_⟩
  · show Function.update p.frames pfn none g = v.frame g
    rw [Function.update_of_ne (fun heq => hg (congrArg some heq))]
    exact h.frames g (by simp)
  · show (p.tlb i).filter _ = (if _ then _ else _ : TLBEntry).shown
    rw [h.tlb i]
    exact (shown_invalidate (v.tlb i) (fun entry => entry.pfn = pfn) (fun entry => entry.pfn = pfn)
      (fun _ _ _ _ _ => rfl)).symm

/-- A page is loaded. -/
theorem Shows.load (h : Shows p v (some pfn)) (hptr : p.tlbPtr = v.tlbIdx) (hpid : op.pid ≠ -1) :
    Shows (p.applyEvent (.pageAllocated op.pid op.vpn pfn op.segment)) (v.loadPage op pfn) none ∧
      (p.applyEvent (.pageAllocated op.pid op.vpn pfn op.segment)).tlbPtr
        = (v.loadPage op pfn).tlbIdx := by
  refine ⟨⟨fun g _ => ?_, fun i => ?_⟩, ?_⟩
  · show Function.update p.frames pfn _ g = (v.loadPage op pfn).frame g
    unfold VirtualMemorySystem.frame
    have howner : (v.loadPage op pfn).frameOwner = Function.update v.frameOwner pfn op.pid := rfl
    have hvpn : (v.loadPage op pfn).frameVpn = Function.update v.frameVpn pfn op.vpn := rfl
    have hsegment : (v.loadPage op pfn).frameSegment
        = Function.update v.frameSegment pfn op.segment := rfl
    rw [howner, hvpn, hsegment]
    by_cases hg : g = pfn
    · subst hg
      rw [Function.update_self, Function.update_self, Function.update_self, Function.update_self,
        if_neg hpid]
    · rw [Function.update_of_ne hg, Function.update_of_ne hg, Function.update_of_ne hg,
        Function.update_of_ne hg]
      exact h.frames g (fun heq => hg (Option.some.inj heq))
  · show Function.update p.tlb p.tlbPtr _ i = (Function.update v.tlb v.tlbIdx _ i).shown
    rw [hptr]
    by_cases hi : i = v.tlbIdx
    · subst hi
      rw [Function.update_self, Function.update_self]
      rfl
    · rw [Function.update_of_ne hi, Function.update_of_ne hi]
      exact h.tlb i
  · show p.tlbPtr + 1 = v.tlbIdx + 1
    rw [hptr]

/-- Frames that are released one after the other. -/
theorem foldl_pageFreed (pid : ℤ) (l : List (Fin 32)) (p : Page) :
    ((l.map (Event.pageFreed pid)).foldl Page.applyEvent p).frames
        = (fun g => if g ∈ l then none else p.frames g) ∧
      ((l.map (Event.pageFreed pid)).foldl Page.applyEvent p).tlb = p.tlb ∧
      ((l.map (Event.pageFreed pid)).foldl Page.applyEvent p).tlbPtr = p.tlbPtr := by
  induction l generalizing p with
  | nil => simp
  | cons f l ih =>
    rw [List.map_cons, List.foldl_cons]
    obtain ⟨hframes, htlb, hptr⟩ := ih (p.applyEvent (.pageFreed pid f))
    refine ⟨?_, htlb, hptr⟩
    rw [hframes]
    funext g
    show (if g ∈ l then none else Function.update p.frames f none g) = _
    by_cases hg : g = f
    · subst hg
      simp
    · rw [Function.update_of_ne hg]
      simp [hg]

/-- The frames of a process that ends are free. -/
theorem frame_terminate (v : VirtualMemorySystem) (pid : ℤ) (g : Fin 32) :
    (v.terminate pid).2.frame g = if v.frameOwner g = pid then none else v.frame g := by
  have howner : (v.terminate pid).2.frameOwner g
      = if v.frameOwner g = pid then -1 else v.frameOwner g := rfl
  unfold VirtualMemorySystem.frame
  by_cases hg : v.frameOwner g = pid
  · rw [howner, if_pos hg, if_pos hg, if_pos rfl]
  · rw [howner, if_neg hg, if_neg hg]
    rfl

/-- A process ends. -/
theorem Shows.terminate (h : Shows p v none) (pid : ℤ) :
    Shows ((v.terminate pid).1.foldl Page.applyEvent p) (v.terminate pid).2 none ∧
      ((v.terminate pid).1.foldl Page.applyEvent p).tlbPtr = p.tlbPtr := by
  obtain ⟨hframes, htlb, hptr⟩ := foldl_pageFreed pid
    ((List.finRange 32).filter (fun i => v.frameOwner i = pid)) p
  have hevents : (v.terminate pid).1.foldl Page.applyEvent p
      = ((((List.finRange 32).filter (fun i => v.frameOwner i = pid)).map (Event.pageFreed pid)).foldl
          Page.applyEvent p).applyEvent (.processTerminated pid) := List.foldl_append ..
  rw [hevents]
  refine ⟨⟨fun g _ => ?_, fun i => ?_⟩, hptr⟩
  · show (List.foldl Page.applyEvent p _).frames g = _
    rw [hframes, frame_terminate, ← h.frames g (by simp)]
    simp
  · show ((List.foldl Page.applyEvent p _).tlb i).filter _ = (if _ then _ else _ : TLBEntry).shown
    rw [htlb, h.tlb i]
    exact (shown_invalidate (v.tlb i) (fun entry => entry.pid = pid) (fun entry => entry.pid = pid)
      (fun _ _ _ _ _ => rfl)).symm

/-! ## Runs -/

/-- The access finds its page in the page table, but not in the TLB. -/
def VirtualMemorySystem.Refills (v : VirtualMemorySystem) (op : Access) : Prop :=
  v.lookupTlb op.pid op.vpn = none ∧ v.lookupPage op.pid op.vpn ≠ none

/-- The step does not refill the TLB. -/
def NoRefill (s : Demo) : Op → Prop
  | .access op => ¬ s.vm.Refills op
  | _ => True

/-- The page that has processed the log shows the simulator. -/
def Demo.Replayed (s : Demo) : Prop :=
  (∀ pfn, (replay s.log).frames pfn = s.vm.frame pfn) ∧
    ∀ i, (replay s.log).tlb i = (s.vm.tlb i).shown

/-- What the replay relies on. -/
structure Demo.InStep (s : Demo) : Prop where
  inv : s.Inv
  shows : Shows (replay s.log) s.vm none
  tlbPtr_eq : (replay s.log).tlbPtr = s.vm.tlbIdx

theorem Demo.InStep.replayed {s : Demo} (h : s.InStep) : s.Replayed :=
  ⟨fun pfn => h.shows.frames pfn (by simp), h.shows.tlb⟩

/-- An access without a refill is replayed. -/
theorem Shows.access (hv : v.Coherent dead none) (h : Shows p v none) (hptr : p.tlbPtr = v.tlbIdx)
    (hpid : op.pid ≠ -1) (hrefill : ¬ v.Refills op) {events : List Event} {v' : VirtualMemorySystem}
    (haccess : v.access op = some (events, v')) :
    Shows (events.foldl Page.applyEvent p) v' none ∧
      (events.foldl Page.applyEvent p).tlbPtr = v'.tlbIdx := by
  rcases v.access_cases op with ⟨f, -, heq⟩ | ⟨f, hmiss, hpage, -⟩ | ⟨-, -, heq⟩
  · rw [heq] at haccess
    obtain ⟨rfl, rfl⟩ := Prod.mk.inj (Option.some.inj haccess)
    exact ⟨h.of_sameTables ⟨rfl, rfl, rfl⟩, hptr⟩
  · exact absurd ⟨hmiss, by simp [hpage]⟩ hrefill
  · rw [heq] at haccess
    -- the miss and the fault leave the tables of the page alone
    have hsame : SameTables p ((p.applyEvent (.tlbMiss op.pid op.vpn op.segment)).applyEvent
        (.pageFault op.pid op.vpn op.segment op.vaddr)) := ⟨rfl, rfl, rfl⟩
    have hshows := h.of_sameTables hsame
    have hptr' := hsame.tlbPtr.trans hptr
    rcases hv.fault_cases op with ⟨f, -, hfault⟩ | ⟨f, rest, -, -, hfault⟩
    · rw [hfault] at haccess
      obtain ⟨rfl, rfl⟩ := Prod.mk.inj (Option.some.inj haccess)
      exact (hshows.weaken (some f)).load hptr' hpid
    · rw [hfault] at haccess
      obtain ⟨rfl, rfl⟩ := Prod.mk.inj (Option.some.inj haccess)
      exact (hshows.evict rest op.pid (v.frameOwner f) (v.frameVpn f)).load hptr' hpid

theorem Demo.InStep.step {s t : Demo} (h : s.InStep) {op : Op} (hpre : demoMachine.pre s op)
    (hrefill : NoRefill s op) (hexec : demoMachine.exec s op = some t) : t.InStep := by
  obtain ⟨t', hexec', hinv⟩ := h.inv.step hpre
  obtain rfl : t = t' := Option.some.inj (hexec.symm.trans hexec')
  cases op with
  | access op =>
    obtain ⟨⟨events, v'⟩, haccess, rfl⟩ := Option.map_eq_some_iff.mp hexec
    obtain ⟨hshows, hptr⟩ := Shows.access h.inv.coherent h.shows h.tlbPtr_eq hpre.1 hrefill haccess
    refine ⟨hinv, ?_, ?_⟩
    · show Shows (replay (s.log ++ events)) v' none
      rw [replay_append]
      exact hshows
    · show (replay (s.log ++ events)).tlbPtr = v'.tlbIdx
      rw [replay_append]
      exact hptr
  | terminate pid =>
    obtain rfl := Option.some.inj hexec
    obtain ⟨hshows, hptr⟩ := h.shows.terminate pid
    refine ⟨hinv, ?_, ?_⟩
    · show Shows (replay (s.log ++ (s.vm.terminate pid).1)) (s.vm.terminate pid).2 none
      rw [replay_append]
      exact hshows
    · show (replay (s.log ++ (s.vm.terminate pid).1)).tlbPtr = s.vm.tlbIdx
      rw [replay_append, hptr]
      exact h.tlbPtr_eq
  | schedule event =>
    obtain rfl := Option.some.inj hexec
    have hsame := sameTables_of_scheduler (replay s.log) hpre
    refine ⟨hinv, ?_, ?_⟩
    · show Shows (replay (s.log ++ [event])) s.vm none
      rw [replay_append]
      exact h.shows.of_sameTables hsame
    · show (replay (s.log ++ [event])).tlbPtr = s.vm.tlbIdx
      rw [replay_append]
      exact hsame.tlbPtr.trans h.tlbPtr_eq

/-- **A refill separates page and simulator.** -/
theorem Demo.InStep.refill {s : Demo} (h : s.InStep) {op : Access} (hrefill : s.vm.Refills op) :
    ∃ t, demoMachine.exec s (.access op) = some t ∧ ¬ t.Replayed := by
  obtain ⟨hmiss, hpage⟩ := hrefill
  rcases s.vm.access_cases op with ⟨f, hhit, -⟩ | ⟨f, -, -, heq⟩ | ⟨-, hnone, -⟩
  · simp [hmiss] at hhit
  · refine ⟨_, by show (s.vm.access op).map _ = _; rw [heq]; rfl, ?_⟩
    rintro ⟨-, htlb⟩
    -- the slot that the simulator has filled
    have hslot := htlb s.vm.tlbIdx
    have hpageSlot : (replay (s.log ++ [.tlbMiss op.pid op.vpn op.segment,
        .pageTableHit op.pid op.vpn f])).tlb s.vm.tlbIdx = (s.vm.tlb s.vm.tlbIdx).shown := by
      rw [replay_append]
      exact h.shows.tlb s.vm.tlbIdx
    have hnew : ((s.vm.updateTlb op.pid op.vpn f op.segment).tlb s.vm.tlbIdx).shown
        = some ⟨op.pid, op.vpn, f, op.segment⟩ := by
      show (Function.update s.vm.tlb s.vm.tlbIdx _ s.vm.tlbIdx).shown = _
      rw [Function.update_self]
      rfl
    have hold : (s.vm.tlb s.vm.tlbIdx).shown = some ⟨op.pid, op.vpn, f, op.segment⟩ := by
      rw [← hpageSlot, ← hnew]
      exact hslot
    unfold TLBEntry.shown at hold
    split_ifs at hold with hvalid
    have hentry := Option.some.inj hold
    refine VirtualMemorySystem.lookupTlb_none hmiss s.vm.tlbIdx hvalid ⟨?_, ?_⟩
    · exact congrArg PageTlbEntry.pid hentry
    · exact congrArg PageTlbEntry.vpn hentry
  · exact absurd hnone hpage

/-- **When the replay reproduces the simulator.**  In every run of the demo, the page shows
the simulator after each access and each termination exactly if no access refills the
TLB. -/
theorem visualizer_replayed_iff (ops : List Op) (hlegal : demoMachine.Legal {} ops) :
    demoMachine.Throughout Demo.Replayed {} ops ↔ demoMachine.EachStep NoRefill {} ops := by
  refine GuardedMachine.throughout_iff_eachStep (I := Demo.InStep) (fun s hs => hs.replayed) ?_ ?_
    ⟨Demo.inv_start, ⟨fun _ _ => rfl, fun _ => rfl⟩, rfl⟩ hlegal
  · exact fun s op t hs hpre hrefill hexec => hs.step hpre hrefill hexec
  · intro s op hs _ hrefill
    cases op with
    | access op => exact hs.refill (not_not.mp hrefill)
    | terminate pid => exact absurd trivial hrefill
    | schedule event => exact absurd trivial hrefill

instance (v : VirtualMemorySystem) (op : Access) : Decidable (v.Refills op) :=
  inferInstanceAs (Decidable (_ ∧ _))

instance (s : Demo) (op : Op) : Decidable (NoRefill s op) :=
  match op with
  | .access op => inferInstanceAs (Decidable (¬ s.vm.Refills op))
  | .terminate _ => .isTrue trivial
  | .schedule _ => .isTrue trivial

/-- A process ends and pages are replaced, but no page is accessed twice. -/
theorem crowd_replayed :
    demoMachine.Throughout Demo.Replayed {} (sweep 1 3 ++ [.terminate 1] ++ sweep 2 10 ++ sweep 3 10
      ++ sweep 4 10 ++ sweep 5 4) :=
  (visualizer_replayed_iff _ (by decide +kernel)).mpr (by decide +kernel)

/-- A process accesses nine pages and then the first one again, which is no longer in the
TLB. -/
theorem ninePages_not_replayed :
    demoMachine.Legal {} (sweep 1 9 ++ sweep 1 1) ∧
      ¬ demoMachine.Throughout Demo.Replayed {} (sweep 1 9 ++ sweep 1 1) := by
  refine ⟨by decide +kernel, fun h => ?_⟩
  have hslot : (demoMachine.run {} (sweep 1 9 ++ sweep 1 1)).map (fun s =>
      ((replay s.log).tlb 1, (s.vm.tlb 1).shown))
      = some (some ⟨1, 1, 1, .code⟩, some ⟨1, 0, 0, .code⟩) := by decide +kernel
  obtain ⟨t, hrun, ht⟩ := Option.map_eq_some_iff.mp hslot
  obtain ⟨hpage, hsim⟩ := Prod.mk.inj ht
  have hsame := (h.final hrun).2 1
  rw [hpage, hsim] at hsame
  exact absurd hsame (by decide)

end Visualizer
