/-
# `visualizer_demo.cpp`: the demand-paging demo

The virtual memory system of the visualizer, with what the main loop does to it: a page
access of the running process (hit, refill, fault, eviction), and the end of a process.
Each of them logs its events.  The frames are the numbers below 32 and the slots of the
TLB those below 8.  The scheduling around the accesses is left open: a run of the demo is
any sequence of accesses, terminations and events of the scheduler.

The main result is that page table, frames and TLB stay coherent (`Coherent`).  During a
fault there is a gap: the frame that is about to be loaded belongs to nobody.
-/
import MemoryAllocator.GuardedMachine

namespace Visualizer

/-- The names of the segments, with the empty name. -/
inductive Segment where
  | empty
  | code
  | data
  | heap
  | stack
  deriving DecidableEq, Repr

/-- There are frames. -/
instance neZero_frames : NeZero 32 := ⟨by norm_num⟩

/-- There are entries in the TLB. -/
instance neZero_tlbSize : NeZero 8 := ⟨by norm_num⟩

structure TLBEntry where
  pid : ℤ := -1
  vpn : ℕ := 0
  pfn : Fin 32 := 0
  segment : Segment := .empty
  valid : Bool := false
  deriving DecidableEq, Repr

structure PageTableEntry where
  pfn : Fin 32 := 0
  valid : Bool := false
  segment : Segment := .empty
  deriving DecidableEq, Repr

/-- The tables of the demo, with the static variable of `update_tlb`. -/
structure VirtualMemorySystem where
  frameOwner : Fin 32 → ℤ := fun _ => -1
  frameVpn : Fin 32 → ℕ := fun _ => 0
  frameSegment : Fin 32 → Segment := fun _ => .empty
  fifoFrames : List (Fin 32) := []
  pageTable : ℤ × ℕ → Option PageTableEntry := fun _ => none
  tlb : Fin 8 → TLBEntry := fun _ => {}
  tlbIdx : Fin 8 := 0

/-- The events that the demo logs.  Those after `processTerminated` come from the
scheduling. -/
inductive Event where
  | tlbHit (pid : ℤ) (vpn : ℕ) (pfn : Fin 32) (segment : Segment) (vaddr : ℕ)
  | tlbMiss (pid : ℤ) (vpn : ℕ) (segment : Segment)
  | pageTableHit (pid : ℤ) (vpn : ℕ) (pfn : Fin 32)
  | pageFault (pid : ℤ) (vpn : ℕ) (segment : Segment) (vaddr : ℕ)
  | pageEvicted (pid evictedPid : ℤ) (evictedVpn : ℕ) (pfn : Fin 32)
  | pageAllocated (pid : ℤ) (vpn : ℕ) (pfn : Fin 32) (segment : Segment)
  | pageFreed (pid : ℤ) (pfn : Fin 32)
  | processTerminated (pid : ℤ)
  | processCreated (pid : ℤ) (name : String) (memoryRequest numPages : ℕ)
  | segmentCreated (pid : ℤ) (segment : Segment) (baseVpn numPages : ℕ)
  | processReady (pid : ℤ) (preempted : Bool)
  | processScheduled (pid : ℤ) (burstIndex : ℕ)
  | cpuRun (pid : ℤ) (ticks remaining : ℕ)
  | ioRequested (pid : ℤ) (ioTicks : ℕ)
  | ioAck (pid : ℤ)
  deriving DecidableEq, Repr

/-- A page access of the running process. -/
structure Access where
  pid : ℤ
  vpn : ℕ
  segment : Segment
  vaddr : ℕ
  deriving DecidableEq, Repr

namespace VirtualMemorySystem

variable (v : VirtualMemorySystem)

def findFreeFrame : Option (Fin 32) := (List.finRange 32).find? (fun i => v.frameOwner i = -1)

def lookupTlb (pid : ℤ) (vpn : ℕ) : Option (Fin 32) :=
  ((List.finRange 8).find? (fun i =>
    (v.tlb i).valid = true ∧ (v.tlb i).pid = pid ∧ (v.tlb i).vpn = vpn)).map (fun i => (v.tlb i).pfn)

def updateTlb (pid : ℤ) (vpn : ℕ) (pfn : Fin 32) (segment : Segment) : VirtualMemorySystem :=
  { v with
    tlb := Function.update v.tlb v.tlbIdx ⟨pid, vpn, pfn, segment, true⟩
    tlbIdx := v.tlbIdx + 1 }

/-- Make the entries of the TLB with a property invalid. -/
def invalidateTlb (p : TLBEntry → Bool) : VirtualMemorySystem :=
  { v with tlb := fun i => if p (v.tlb i) then { v.tlb i with valid := false } else v.tlb i }

def invalidateTlbForPid (pid : ℤ) : VirtualMemorySystem :=
  v.invalidateTlb (fun entry => entry.pid = pid)

def invalidateTlbForPfn (pfn : Fin 32) : VirtualMemorySystem :=
  v.invalidateTlb (fun entry => entry.pfn = pfn)

/-! ## The main loop -/

/-- The page in a frame is no longer mapped. -/
def vacate (pfn : Fin 32) (rest : List (Fin 32)) : VirtualMemorySystem :=
  let page := (v.frameOwner pfn, v.frameVpn pfn)
  let pte := (v.pageTable page).getD {}
  { v with
    fifoFrames := rest
    pageTable := Function.update v.pageTable page (some { pte with valid := false })
    }.invalidateTlbForPfn pfn

/-- The page replacement, with the first frame of the queue.  There is none in an empty
queue. -/
def evict (pid : ℤ) : Option (Event × Fin 32 × VirtualMemorySystem) :=
  match v.fifoFrames with
  | [] => none
  | pfn :: rest =>
    some (.pageEvicted pid (v.frameOwner pfn) (v.frameVpn pfn) pfn, pfn, v.vacate pfn rest)

/-- A page is put into a frame, -/
def placePage (op : Access) (pfn : Fin 32) : VirtualMemorySystem :=
  { v with
    frameOwner := Function.update v.frameOwner pfn op.pid
    frameVpn := Function.update v.frameVpn pfn op.vpn
    frameSegment := Function.update v.frameSegment pfn op.segment
    fifoFrames := v.fifoFrames ++ [pfn]
    pageTable := Function.update v.pageTable (op.pid, op.vpn) (some ⟨pfn, true, op.segment⟩) }

/-- and into the TLB. -/
def loadPage (op : Access) (pfn : Fin 32) : VirtualMemorySystem :=
  (v.placePage op pfn).updateTlb op.pid op.vpn pfn op.segment

/-- A page fault. -/
def fault (op : Access) : Option (List Event × VirtualMemorySystem) :=
  match v.findFreeFrame with
  | some pfn => some ([.pageAllocated op.pid op.vpn pfn op.segment], v.loadPage op pfn)
  | none =>
    (v.evict op.pid).map (fun (event, pfn, v) =>
      ([event, .pageAllocated op.pid op.vpn pfn op.segment], v.loadPage op pfn))

/-- The frame that the page table has for a page. -/
def lookupPage (pid : ℤ) (vpn : ℕ) : Option (Fin 32) :=
  match v.pageTable (pid, vpn) with
  | some pte => if pte.valid then some pte.pfn else none
  | none => none

/-- The memory access of a tick, with its events. -/
def access (op : Access) : Option (List Event × VirtualMemorySystem) :=
  match v.lookupTlb op.pid op.vpn with
  | some pfn => some ([.tlbHit op.pid op.vpn pfn op.segment op.vaddr], v)
  | none =>
    match v.lookupPage op.pid op.vpn with
    | some pfn =>
      some ([.tlbMiss op.pid op.vpn op.segment, .pageTableHit op.pid op.vpn pfn],
        v.updateTlb op.pid op.vpn pfn op.segment)
    | none =>
      (v.fault op).map (fun (events, v) =>
        (.tlbMiss op.pid op.vpn op.segment :: .pageFault op.pid op.vpn op.segment op.vaddr :: events,
          v))

/-- The end of a process: its frames are released, and its entries of the TLB. -/
def terminate (pid : ℤ) : List Event × VirtualMemorySystem :=
  (((List.finRange 32).filter (fun i => v.frameOwner i = pid)).map (.pageFreed pid)
      ++ [.processTerminated pid],
    { v with frameOwner := fun i => if v.frameOwner i = pid then -1 else v.frameOwner i
      }.invalidateTlbForPid pid)

end VirtualMemorySystem

/-! ## Runs -/

/-- The memory, the processes that have ended, and the events that have been logged. -/
structure Demo where
  vm : VirtualMemorySystem := {}
  dead : List ℤ := []
  log : List Event := []

inductive Op where
  | access (op : Access)
  | terminate (pid : ℤ)
  | schedule (event : Event)
  deriving DecidableEq, Repr

/-- The events of the scheduling. -/
def Event.OfScheduler : Event → Prop
  | processCreated .. | segmentCreated .. | processReady .. | processScheduled .. | cpuRun ..
  | ioRequested .. | ioAck .. => True
  | _ => False

/-- A process that has not ended.  The owner of a free frame is -1. -/
def Demo.Live (s : Demo) (pid : ℤ) : Prop := pid ≠ -1 ∧ pid ∉ s.dead

/-- The demo: accesses and terminations of processes that are live. -/
def demoMachine : GuardedMachine Demo Op where
  pre
    | s, .access op => s.Live op.pid
    | s, .terminate pid => s.Live pid
    | _, .schedule event => event.OfScheduler
  exec
    | s, .access op =>
      (s.vm.access op).map (fun (events, vm) => { s with vm := vm, log := s.log ++ events })
    | s, .terminate pid =>
      some { vm := (s.vm.terminate pid).2, dead := pid :: s.dead,
             log := s.log ++ (s.vm.terminate pid).1 }
    | s, .schedule event => some { s with log := s.log ++ [event] }

/-! ## Coherence -/

namespace VirtualMemorySystem

variable {v : VirtualMemorySystem} {dead : List ℤ} {gap : Option (Fin 32)} {pid : ℤ} {vpn : ℕ}
  {pfn : Fin 32}

/-- The page table has a valid entry for the page, with this frame. -/
def Maps (v : VirtualMemorySystem) (pid : ℤ) (vpn : ℕ) (pfn : Fin 32) : Prop :=
  ∃ pte, v.pageTable (pid, vpn) = some pte ∧ pte.valid = true ∧ pte.pfn = pfn

/-- **Page table, frames and TLB agree**, up to a frame that is about to be loaded. -/
structure Coherent (v : VirtualMemorySystem) (dead : List ℤ) (gap : Option (Fin 32)) : Prop where
  maps_iff : ∀ pid vpn pfn, pid ≠ -1 → pid ∉ dead →
    (v.Maps pid vpn pfn ↔ some pfn ≠ gap ∧ v.frameOwner pfn = pid ∧ v.frameVpn pfn = vpn)
  tlb_maps : ∀ i, (v.tlb i).valid = true → (v.tlb i).pid ≠ -1 ∧ (v.tlb i).pid ∉ dead ∧
    v.Maps (v.tlb i).pid (v.tlb i).vpn (v.tlb i).pfn
  tlb_unique : ∀ i j, (v.tlb i).valid = true → (v.tlb j).valid = true →
    (v.tlb i).pid = (v.tlb j).pid → (v.tlb i).vpn = (v.tlb j).vpn → i = j
  queued : ∀ pfn, some pfn ≠ gap → v.frameOwner pfn ≠ -1 → pfn ∈ v.fifoFrames
  owner_alive : ∀ pfn, v.frameOwner pfn ∉ dead

theorem Maps.unique {pfn' : Fin 32} (h : v.Maps pid vpn pfn) (h' : v.Maps pid vpn pfn') :
    pfn = pfn' := by
  obtain ⟨pte, hpte, -, rfl⟩ := h
  obtain ⟨pte', hpte', -, rfl⟩ := h'
  rw [hpte] at hpte'
  rw [Option.some.inj hpte']

theorem lookupPage_some (h : v.lookupPage pid vpn = some pfn) : v.Maps pid vpn pfn := by
  unfold lookupPage at h
  split at h
  · next pte hpte =>
    split_ifs at h with hvalid
    exact ⟨pte, hpte, hvalid, Option.some.inj h⟩
  · simp at h

theorem lookupPage_none (h : v.lookupPage pid vpn = none) (pfn : Fin 32) :
    ¬ v.Maps pid vpn pfn := by
  rintro ⟨pte, hpte, hvalid, -⟩
  unfold lookupPage at h
  rw [hpte] at h
  simp [hvalid] at h

theorem lookupTlb_none (h : v.lookupTlb pid vpn = none) (i : Fin 8) (hvalid : (v.tlb i).valid = true) :
    ¬ ((v.tlb i).pid = pid ∧ (v.tlb i).vpn = vpn) := by
  intro heq
  unfold lookupTlb at h
  rw [Option.map_eq_none_iff, List.find?_eq_none] at h
  exact h i (List.mem_finRange i) (by simp [hvalid, heq])

/-- A new entry of the TLB for a page that has none. -/
theorem Coherent.updateTlb (h : Coherent v dead gap) (hpid : pid ≠ -1) (hlive : pid ∉ dead)
    (hmaps : v.Maps pid vpn pfn) (segment : Segment)
    (hmiss : ∀ i, (v.tlb i).valid = true → ¬ ((v.tlb i).pid = pid ∧ (v.tlb i).vpn = vpn)) :
    Coherent (v.updateTlb pid vpn pfn segment) dead gap := by
  have hself : (v.updateTlb pid vpn pfn segment).tlb v.tlbIdx = ⟨pid, vpn, pfn, segment, true⟩ :=
    Function.update_self ..
  have hother : ∀ i ≠ v.tlbIdx, (v.updateTlb pid vpn pfn segment).tlb i = v.tlb i :=
    fun i hi => Function.update_of_ne hi _ _
  refine ⟨h.maps_iff, fun i hi => ?_, fun i j hi hj hp hv => ?_, h.queued, h.owner_alive⟩
  · by_cases heq : i = v.tlbIdx
    · subst heq
      rw [hself]
      exact ⟨hpid, hlive, hmaps⟩
    · rw [hother i heq] at hi ⊢
      exact h.tlb_maps i hi
  · by_cases heq : i = v.tlbIdx
    · by_cases heq' : j = v.tlbIdx
      · rw [heq, heq']
      · subst heq
        rw [hself, hother j heq'] at hp hv
        rw [hother j heq'] at hj
        exact absurd ⟨hp.symm, hv.symm⟩ (hmiss j hj)
    · by_cases heq' : j = v.tlbIdx
      · subst heq'
        rw [hself, hother i heq] at hp hv
        rw [hother i heq] at hi
        exact absurd ⟨hp, hv⟩ (hmiss i hi)
      · rw [hother i heq] at hi hp hv
        rw [hother j heq'] at hj hp hv
        exact h.tlb_unique i j hi hj hp hv

/-- A free frame belongs to nobody. -/
theorem Coherent.gap_of_free (h : Coherent v dead none) (hfree : v.frameOwner pfn = -1) :
    Coherent v dead (some pfn) := by
  refine ⟨fun q w f hq hlive => ?_, h.tlb_maps, h.tlb_unique, fun f _ hf => h.queued f (by simp) hf,
    h.owner_alive⟩
  rw [h.maps_iff q w f hq hlive]
  refine ⟨fun ⟨_, howner, hvpn⟩ => ⟨?_, howner, hvpn⟩, fun ⟨_, howner, hvpn⟩ => ⟨by simp, howner, hvpn⟩⟩
  rintro heq
  rw [Option.some.inj heq, hfree] at howner
  exact hq howner.symm

/-- An entry that is still valid has not been made invalid. -/
theorem tlb_invalidateTlb {p : TLBEntry → Bool} {i : Fin 8}
    (h : ((v.invalidateTlb p).tlb i).valid = true) :
    (v.invalidateTlb p).tlb i = v.tlb i ∧ p (v.tlb i) = false := by
  have heq : (v.invalidateTlb p).tlb i
      = if p (v.tlb i) then { v.tlb i with valid := false } else v.tlb i := rfl
  rw [heq] at h ⊢
  split_ifs at h ⊢ with hp
  exact ⟨rfl, by simpa using hp⟩

theorem Coherent.invalidateTlb (h : Coherent v dead gap) (p : TLBEntry → Bool) :
    Coherent (v.invalidateTlb p) dead gap := by
  refine ⟨h.maps_iff, fun i hi => ?_, fun i j hi hj hp hv => ?_, h.queued, h.owner_alive⟩
  · have heq := (tlb_invalidateTlb hi).1
    rw [heq] at hi ⊢
    exact h.tlb_maps i hi
  · have heq := (tlb_invalidateTlb hi).1
    have heq' := (tlb_invalidateTlb hj).1
    rw [heq] at hi hp hv
    rw [heq'] at hj hp hv
    exact h.tlb_unique i j hi hj hp hv

/-- The mappings after a frame has been vacated. -/
theorem maps_vacate {rest : List (Fin 32)} {g : Fin 32} :
    (v.vacate pfn rest).Maps pid vpn g ↔
      (pid, vpn) ≠ (v.frameOwner pfn, v.frameVpn pfn) ∧ v.Maps pid vpn g := by
  have htable : (v.vacate pfn rest).pageTable = Function.update v.pageTable
      (v.frameOwner pfn, v.frameVpn pfn) (some { (v.pageTable (v.frameOwner pfn,
        v.frameVpn pfn)).getD {} with valid := false }) := rfl
  unfold Maps
  rw [htable]
  by_cases hpage : (pid, vpn) = (v.frameOwner pfn, v.frameVpn pfn)
  · rw [← hpage, Function.update_self]
    refine iff_of_false ?_ (fun h => h.1 rfl)
    rintro ⟨pte, hpte, hvalid, -⟩
    rw [← Option.some.inj hpte] at hvalid
    simp at hvalid
  · rw [Function.update_of_ne hpage]
    exact ⟨fun h => ⟨hpage, h⟩, fun h => h.2⟩

theorem tlb_vacate {rest : List (Fin 32)} {i : Fin 8}
    (h : ((v.vacate pfn rest).tlb i).valid = true) :
    (v.vacate pfn rest).tlb i = v.tlb i ∧ (v.tlb i).pfn ≠ pfn := by
  have hsame : (v.vacate pfn rest).tlb i
      = (v.invalidateTlb (fun entry => entry.pfn = pfn)).tlb i := rfl
  rw [hsame] at h ⊢
  obtain ⟨heq, hp⟩ := tlb_invalidateTlb h
  exact ⟨heq, by simpa using hp⟩

/-- **The replacement vacates the first frame of the queue.** -/
theorem Coherent.vacate (h : Coherent v dead none) (howner : v.frameOwner pfn ≠ -1)
    {rest : List (Fin 32)} (hqueue : v.fifoFrames = pfn :: rest) :
    Coherent (v.vacate pfn rest) dead (some pfn) := by
  have hmaps : v.Maps (v.frameOwner pfn) (v.frameVpn pfn) pfn :=
    (h.maps_iff _ _ pfn howner (h.owner_alive pfn)).mpr ⟨by simp, rfl, rfl⟩
  refine ⟨fun q w f hq hlive => ?_, fun i hi => ?_, fun i j hi hj hp hv => ?_, fun f hf hf' => ?_,
    h.owner_alive⟩
  · rw [maps_vacate, h.maps_iff q w f hq hlive]
    show _ ↔ some f ≠ some pfn ∧ v.frameOwner f = q ∧ v.frameVpn f = w
    constructor
    · rintro ⟨hpage, -, howner', hvpn⟩
      refine ⟨?_, howner', hvpn⟩
      intro heq
      obtain rfl := Option.some.inj heq
      exact hpage (by rw [howner', hvpn])
    · rintro ⟨hne, howner', hvpn⟩
      refine ⟨?_, by simp, howner', hvpn⟩
      intro hpage
      obtain ⟨rfl, rfl⟩ := Prod.mk.inj hpage
      -- the page of the vacated frame is in no other frame
      have hmaps' := (h.maps_iff _ _ f hq hlive).mpr ⟨by simp, howner', hvpn⟩
      exact hne (congrArg some (hmaps'.unique hmaps))
  · obtain ⟨heq, hpfn⟩ := tlb_vacate hi
    rw [heq] at hi ⊢
    obtain ⟨hpid, hlive, hm⟩ := h.tlb_maps i hi
    refine ⟨hpid, hlive, maps_vacate.mpr ⟨?_, hm⟩⟩
    intro hpage
    obtain ⟨hp, hw⟩ := Prod.mk.inj hpage
    rw [hp, hw] at hm
    exact hpfn (hm.unique hmaps)
  · have heq := (tlb_vacate hi).1
    have heq' := (tlb_vacate hj).1
    rw [heq] at hi hp hv
    rw [heq'] at hj hp hv
    exact h.tlb_unique i j hi hj hp hv
  · have hmem := h.queued f (by simp) hf'
    rw [hqueue] at hmem
    exact (List.mem_cons.mp hmem).resolve_left (fun heq => hf (congrArg some heq))

/-- The mappings after a page has been put into a frame. -/
theorem maps_placePage {op : Access} {g : Fin 32} :
    (v.placePage op pfn).Maps pid vpn g ↔
      if (pid, vpn) = (op.pid, op.vpn) then g = pfn else v.Maps pid vpn g := by
  have htable : (v.placePage op pfn).pageTable = Function.update v.pageTable (op.pid, op.vpn)
      (some ⟨pfn, true, op.segment⟩) := rfl
  unfold Maps
  rw [htable]
  split_ifs with hpage
  · rw [hpage, Function.update_self]
    constructor
    · rintro ⟨pte, hpte, -, rfl⟩
      rw [← Option.some.inj hpte]
    · rintro rfl
      exact ⟨_, rfl, rfl, rfl⟩
  · rw [Function.update_of_ne hpage]

/-- **A page is loaded into the frame that belongs to nobody.** -/
theorem Coherent.loadPage {op : Access} (h : Coherent v dead (some pfn)) (hpid : op.pid ≠ -1)
    (hlive : op.pid ∉ dead) (hunmapped : ∀ f, ¬ v.Maps op.pid op.vpn f) :
    Coherent (v.loadPage op pfn) dead none := by
  have hmiss : ∀ i, (v.tlb i).valid = true →
      ¬ ((v.tlb i).pid = op.pid ∧ (v.tlb i).vpn = op.vpn) := by
    rintro i hi ⟨hp, hw⟩
    obtain ⟨-, -, hm⟩ := h.tlb_maps i hi
    rw [hp, hw] at hm
    exact hunmapped _ hm
  have hplaced : Coherent (v.placePage op pfn) dead none := by
    refine ⟨fun q w f hq hlive' => ?_, fun i hi => ?_, h.tlb_unique, fun f _ hf => ?_, fun f => ?_⟩
    · rw [maps_placePage]
      show _ ↔ some f ≠ none ∧ Function.update v.frameOwner pfn op.pid f = q ∧
        Function.update v.frameVpn pfn op.vpn f = w
      by_cases hf : f = pfn
      · subst hf
        rw [Function.update_self, Function.update_self]
        split_ifs with hpage
        · obtain ⟨rfl, rfl⟩ := Prod.mk.inj hpage
          simp
        · refine iff_of_false (fun hm => ?_) (fun heq => hpage (by rw [heq.2.1, heq.2.2]))
          exact ((h.maps_iff q w f hq hlive').mp hm).1 rfl
      · rw [Function.update_of_ne hf, Function.update_of_ne hf]
        have hold := h.maps_iff q w f hq hlive'
        split_ifs with hpage
        · obtain ⟨rfl, rfl⟩ := Prod.mk.inj hpage
          refine iff_of_false hf (fun heq => hunmapped f (hold.mpr ⟨?_, heq.2⟩))
          exact fun hsome => hf (Option.some.inj hsome)
        · rw [hold]
          exact ⟨fun ⟨_, heq⟩ => ⟨by simp, heq⟩,
            fun ⟨_, heq⟩ => ⟨fun hsome => hf (Option.some.inj hsome), heq⟩⟩
    · obtain ⟨hp, hl, hm⟩ := h.tlb_maps i hi
      refine ⟨hp, hl, maps_placePage.mpr ?_⟩
      rw [if_neg]
      · exact hm
      · intro hpage
        exact hmiss i hi (Prod.mk.inj hpage)
    · show f ∈ v.fifoFrames ++ [pfn]
      by_cases hfp : f = pfn
      · exact List.mem_append_right _ (by simp [hfp])
      · have howner : v.frameOwner f ≠ -1 := by
          have heq : (v.placePage op pfn).frameOwner f = v.frameOwner f :=
            Function.update_of_ne hfp _ _
          rwa [heq] at hf
        exact List.mem_append_left _ (h.queued f (fun hsome => hfp (Option.some.inj hsome)) howner)
    · show Function.update v.frameOwner pfn op.pid f ∉ dead
      by_cases hfp : f = pfn
      · rw [hfp, Function.update_self]
        exact hlive
      · rw [Function.update_of_ne hfp]
        exact h.owner_alive f
  refine hplaced.updateTlb hpid hlive ?_ op.segment hmiss
  rw [maps_placePage, if_pos rfl]

theorem findFreeFrame_some (h : v.findFreeFrame = some pfn) : v.frameOwner pfn = -1 := by
  simpa using List.find?_some h

theorem findFreeFrame_none (h : v.findFreeFrame = none) (f : Fin 32) : v.frameOwner f ≠ -1 := by
  simpa using List.find?_eq_none.mp h f (List.mem_finRange f)

/-- **What a fault does**: a free frame is loaded, or the first one of the queue. -/
theorem Coherent.fault_cases (h : Coherent v dead none) (op : Access) :
    (∃ f, v.findFreeFrame = some f ∧
      v.fault op = some ([.pageAllocated op.pid op.vpn f op.segment], v.loadPage op f)) ∨
    ∃ f rest, v.findFreeFrame = none ∧ v.fifoFrames = f :: rest ∧
      v.fault op = some ([.pageEvicted op.pid (v.frameOwner f) (v.frameVpn f) f,
        .pageAllocated op.pid op.vpn f op.segment], (v.vacate f rest).loadPage op f) := by
  unfold VirtualMemorySystem.fault
  cases hfree : v.findFreeFrame with
  | some f => exact .inl ⟨f, rfl, rfl⟩
  | none =>
    cases hqueue : v.fifoFrames with
    | nil =>
      -- every frame is owned, and owned frames are queued
      have hmem := h.queued 0 (by simp) (findFreeFrame_none hfree 0)
      rw [hqueue] at hmem
      simp at hmem
    | cons f rest =>
      refine .inr ⟨f, rest, rfl, rfl, ?_⟩
      rw [evict, hqueue]
      rfl

theorem Coherent.fault (h : Coherent v dead none) {op : Access} (hpid : op.pid ≠ -1)
    (hlive : op.pid ∉ dead) (hunmapped : ∀ f, ¬ v.Maps op.pid op.vpn f) :
    ∃ events v', v.fault op = some (events, v') ∧ Coherent v' dead none := by
  rcases h.fault_cases op with ⟨f, hfree, heq⟩ | ⟨f, rest, hfull, hqueue, heq⟩
  · exact ⟨_, _, heq, (h.gap_of_free (findFreeFrame_some hfree)).loadPage hpid hlive hunmapped⟩
  · refine ⟨_, _, heq, (h.vacate (findFreeFrame_none hfull f) hqueue).loadPage hpid hlive ?_⟩
    exact fun g hm => hunmapped g (maps_vacate.mp hm).2

/-- **What an access does**: a hit, a refill of the TLB, or a fault. -/
theorem access_cases (v : VirtualMemorySystem) (op : Access) :
    (∃ f, v.lookupTlb op.pid op.vpn = some f ∧
      v.access op = some ([.tlbHit op.pid op.vpn f op.segment op.vaddr], v)) ∨
    (∃ f, v.lookupTlb op.pid op.vpn = none ∧ v.lookupPage op.pid op.vpn = some f ∧
      v.access op = some ([.tlbMiss op.pid op.vpn op.segment, .pageTableHit op.pid op.vpn f],
        v.updateTlb op.pid op.vpn f op.segment)) ∨
    (v.lookupTlb op.pid op.vpn = none ∧ v.lookupPage op.pid op.vpn = none ∧
      v.access op = (v.fault op).map (fun r => (.tlbMiss op.pid op.vpn op.segment
        :: .pageFault op.pid op.vpn op.segment op.vaddr :: r.1, r.2))) := by
  unfold access
  cases htlb : v.lookupTlb op.pid op.vpn with
  | some f => exact .inl ⟨f, rfl, rfl⟩
  | none =>
    cases hpage : v.lookupPage op.pid op.vpn with
    | some f => exact .inr (.inl ⟨f, rfl, rfl, rfl⟩)
    | none => exact .inr (.inr ⟨rfl, rfl, rfl⟩)

theorem Coherent.access (h : Coherent v dead none) {op : Access} (hpid : op.pid ≠ -1)
    (hlive : op.pid ∉ dead) :
    ∃ events v', v.access op = some (events, v') ∧ Coherent v' dead none := by
  rcases access_cases v op with ⟨f, -, heq⟩ | ⟨f, hmiss, hpage, heq⟩ | ⟨-, hpage, heq⟩
  · exact ⟨_, _, heq, h⟩
  · exact ⟨_, _, heq, h.updateTlb hpid hlive (lookupPage_some hpage) op.segment
      (lookupTlb_none hmiss)⟩
  · obtain ⟨events, v', hfault, hv'⟩ := h.fault hpid hlive (lookupPage_none hpage)
    exact ⟨_, v', by rw [heq, hfault]; rfl, hv'⟩

/-- **The end of a process.** -/
theorem Coherent.terminate (h : Coherent v dead none) (hdead : -1 ∉ dead) (hpid : pid ≠ -1) :
    Coherent (v.terminate pid).2 (pid :: dead) none := by
  have howner : ∀ f, (v.terminate pid).2.frameOwner f
      = if v.frameOwner f = pid then -1 else v.frameOwner f := fun f => rfl
  have htlb : ∀ i, ((v.terminate pid).2.tlb i).valid = true →
      (v.terminate pid).2.tlb i = v.tlb i ∧ (v.tlb i).pid ≠ pid := by
    intro i hi
    have hsame : (v.terminate pid).2.tlb i
        = (v.invalidateTlb (fun entry => entry.pid = pid)).tlb i := rfl
    rw [hsame] at hi ⊢
    obtain ⟨heq, hp⟩ := tlb_invalidateTlb hi
    exact ⟨heq, by simpa using hp⟩
  refine ⟨fun q w f hq hlive => ?_, fun i hi => ?_, fun i j hi hj hp hv => ?_, fun f _ hf => ?_,
    fun f => ?_⟩
  · obtain ⟨hne, hlive⟩ := not_or.mp (fun hor => hlive (List.mem_cons.mpr hor))
    have hold := h.maps_iff q w f hq hlive
    rw [howner]
    refine hold.trans (and_congr_right (fun _ => and_congr_left (fun _ => ?_)))
    split_ifs with heq
    · exact iff_of_false (fun hqp => hne (hqp.symm.trans heq)) (fun hqp => hq hqp.symm)
    · exact Iff.rfl
  · obtain ⟨heq, hne⟩ := htlb i hi
    rw [heq] at hi ⊢
    obtain ⟨hp, hl, hm⟩ := h.tlb_maps i hi
    exact ⟨hp, fun hmem => (List.mem_cons.mp hmem).elim hne hl, hm⟩
  · have heq := (htlb i hi).1
    have heq' := (htlb j hj).1
    rw [heq] at hi hp hv
    rw [heq'] at hj hp hv
    exact h.tlb_unique i j hi hj hp hv
  · rw [howner] at hf
    split_ifs at hf with heq
    · exact absurd rfl hf
    · exact h.queued f (by simp) hf
  · rw [howner]
    split_ifs with heq
    · exact fun hmem => (List.mem_cons.mp hmem).elim (fun hp => hpid hp.symm) hdead
    · exact fun hmem => (List.mem_cons.mp hmem).elim heq (h.owner_alive f)

end VirtualMemorySystem

/-! ## The demo -/

instance : DecidablePred Event.OfScheduler := fun event =>
  match event with
  | .processCreated .. | .segmentCreated .. | .processReady .. | .processScheduled .. | .cpuRun ..
  | .ioRequested .. | .ioAck .. => .isTrue trivial
  | .tlbHit .. | .tlbMiss .. | .pageTableHit .. | .pageFault .. | .pageEvicted ..
  | .pageAllocated .. | .pageFreed .. | .processTerminated .. => .isFalse not_false

instance (s : Demo) (pid : ℤ) : Decidable (s.Live pid) := inferInstanceAs (Decidable (_ ∧ _))

instance (s : Demo) (op : Op) : Decidable (demoMachine.pre s op) :=
  match op with
  | .access op => inferInstanceAs (Decidable (s.Live op.pid))
  | .terminate pid => inferInstanceAs (Decidable (s.Live pid))
  | .schedule event => inferInstanceAs (Decidable event.OfScheduler)

/-- The invariant of a run. -/
structure Demo.Inv (s : Demo) : Prop where
  coherent : s.vm.Coherent s.dead none
  dead_ne : -1 ∉ s.dead

theorem Demo.inv_start : Demo.Inv {} := by
  refine ⟨⟨fun pid vpn pfn hpid _ => ?_, fun i hi => ?_, fun i j hi => ?_, fun pfn _ hpfn => ?_,
    fun pfn => ?_⟩, by simp⟩
  · refine iff_of_false ?_ (fun h => hpid h.2.1.symm)
    rintro ⟨pte, hpte, -⟩
    simp at hpte
  · simp at hi
  · simp at hi
  · exact absurd rfl hpfn
  · simp

theorem Demo.Inv.step {s : Demo} (h : s.Inv) {op : Op} (hpre : demoMachine.pre s op) :
    ∃ t, demoMachine.exec s op = some t ∧ t.Inv := by
  cases op with
  | access op =>
    obtain ⟨events, v', hv', hcoherent⟩ := h.coherent.access hpre.1 hpre.2
    refine ⟨{ s with vm := v', log := s.log ++ events }, ?_, hcoherent, h.dead_ne⟩
    show (s.vm.access op).map _ = _
    rw [hv']
    rfl
  | terminate pid =>
    refine ⟨_, rfl, h.coherent.terminate h.dead_ne hpre.1, ?_⟩
    exact fun hmem => (List.mem_cons.mp hmem).elim (fun heq => hpre.1 heq.symm) h.dead_ne
  | schedule event => exact ⟨_, rfl, h.coherent, h.dead_ne⟩

/-- What the three tables say about each other. -/
structure Demo.Consistent (s : Demo) : Prop where
  page_iff : ∀ pid vpn pfn, s.Live pid →
    (s.vm.Maps pid vpn pfn ↔ s.vm.frameOwner pfn = pid ∧ s.vm.frameVpn pfn = vpn)
  tlb_page : ∀ i, (s.vm.tlb i).valid = true →
    s.vm.Maps (s.vm.tlb i).pid (s.vm.tlb i).vpn (s.vm.tlb i).pfn
  tlb_unique : ∀ i j, (s.vm.tlb i).valid = true → (s.vm.tlb j).valid = true →
    (s.vm.tlb i).pid = (s.vm.tlb j).pid → (s.vm.tlb i).vpn = (s.vm.tlb j).vpn → i = j
  owned_queued : ∀ pfn, s.vm.frameOwner pfn ≠ -1 → pfn ∈ s.vm.fifoFrames
  dead_owns : ∀ pid ∈ s.dead, (∀ pfn, s.vm.frameOwner pfn ≠ pid) ∧
    ∀ i, (s.vm.tlb i).valid = true → (s.vm.tlb i).pid ≠ pid

theorem Demo.Inv.consistent {s : Demo} (h : s.Inv) : s.Consistent := by
  have hc := h.coherent
  refine ⟨fun pid vpn pfn hlive => ?_, fun i hi => (hc.tlb_maps i hi).2.2, hc.tlb_unique,
    fun pfn hpfn => hc.queued pfn (by simp) hpfn, fun pid hdead => ⟨fun pfn heq => ?_, fun i hi heq => ?_⟩⟩
  · rw [hc.maps_iff pid vpn pfn hlive.1 hlive.2]
    simp
  · exact hc.owner_alive pfn (heq ▸ hdead)
  · exact (hc.tlb_maps i hi).2.1 (heq ▸ hdead)

/-- **The visualizer keeps frames, page table and TLB coherent**: every run of the demo
goes on (the replacement always finds a frame in its queue), and ends in a state in which
the tables agree. -/
theorem visualizer_coherent (ops : List Op) (hlegal : demoMachine.Legal {} ops) :
    ∃ s, demoMachine.run {} ops = some s ∧ s.Consistent := by
  obtain ⟨s, hrun, hinv⟩ := hlegal.invariant (fun s op hs hpre => hs.step hpre) Demo.inv_start
  exact ⟨s, hrun, hinv.consistent⟩

/-- The segments of a process: two pages of code, two of data, four of heap and two of
stack. -/
def segmentOf (vpn : ℕ) : Segment :=
  if vpn < 2 then .code else if vpn < 4 then .data else if vpn < 8 then .heap else .stack

/-- A process accesses its first pages one after the other. -/
def sweep (pid : ℤ) (pages : ℕ) : List Op :=
  (List.range pages).map (fun vpn => .access ⟨pid, vpn, segmentOf vpn, vpn * 4096⟩)

/-- A process ends, and four others need more pages than there are frames. -/
theorem crowd_coherent :
    ∃ s, demoMachine.run {} (sweep 1 3 ++ [.terminate 1] ++ sweep 2 10 ++ sweep 3 10 ++ sweep 4 10
      ++ sweep 5 4) = some s ∧ s.Consistent :=
  visualizer_coherent _ (by decide +kernel)

/-! ## First in, first out -/

/-- The frames that have been loaded, in the order of the log. -/
def loads (log : List Event) : List (Fin 32) :=
  log.filterMap (fun event =>
    match event with
    | .pageAllocated _ _ pfn _ => some pfn
    | _ => none)

/-- The last load of the frame `f` came before the last load of the frame `g`. -/
def LoadedBefore (loads : List (Fin 32)) (f g : Fin 32) : Prop :=
  ∃ l l', loads = l ++ f :: l' ∧ f ∉ l' ∧ g ∈ l'

/-- The access is a fault that finds no free frame. -/
def VirtualMemorySystem.Replaces (v : VirtualMemorySystem) (op : Access) : Prop :=
  v.lookupTlb op.pid op.vpn = none ∧ v.lookupPage op.pid op.vpn = none ∧ v.findFreeFrame = none

/-- The frame that a replacement takes was loaded before all others. -/
def TakesOldest (s : Demo) : Op → Prop
  | .access op => s.vm.Replaces op → ∀ event f v, s.vm.evict op.pid = some (event, f, v) →
      ∀ g ≠ f, LoadedBefore (loads s.log) f g
  | _ => True

/-- The first frame of the queue is queued again, behind the last entry of another
frame. -/
def LeftOver (queue : List (Fin 32)) : Prop :=
  ∃ f g l l', g ≠ f ∧ queue = f :: l ++ f :: l' ∧ g ∉ l'

/-- A replacement does not find a queue with an entry that is left over. -/
def FindsNoLeftOver (s : Demo) : Op → Prop
  | .access op => s.vm.Replaces op → ¬ LeftOver s.vm.fifoFrames
  | _ => True

theorem loads_append (log log' : List Event) : loads (log ++ log') = loads log ++ loads log' :=
  List.filterMap_append ..

/-- The load of a frame that is in the rest of the list. -/
theorem loadedBefore_append {l l' : List (Fin 32)} {f g : Fin 32} (hf : f ∈ l') :
    LoadedBefore (l ++ l') f g ↔ LoadedBefore l' f g := by
  constructor
  · rintro ⟨a, b, heq, hnotin, hg⟩
    rcases List.append_eq_append_iff.mp heq with ⟨c, hc, hl'⟩ | ⟨c, hc, hl'⟩
    · exact ⟨c, b, hl', hnotin, hg⟩
    · -- the last load of `f` would be in the first part
      cases c with
      | nil => exact ⟨[], b, hl'.symm, hnotin, hg⟩
      | cons x c =>
        obtain ⟨-, rfl⟩ := List.cons.inj hl'
        exact absurd (List.mem_append_right c hf) hnotin
  · rintro ⟨a, b, rfl, hnotin, hg⟩
    exact ⟨l ++ a, b, by simp, hnotin, hg⟩

/-- A frame of a list has a last load. -/
theorem exists_last {l : List (Fin 32)} {f : Fin 32} (hf : f ∈ l) :
    ∃ a b, l = a ++ f :: b ∧ f ∉ b := by
  induction l with
  | nil => simp at hf
  | cons x l ih =>
    by_cases hl : f ∈ l
    · obtain ⟨a, b, rfl, hb⟩ := ih hl
      exact ⟨x :: a, b, rfl, hb⟩
    · obtain rfl : f = x := (List.mem_cons.mp hf).resolve_right hl
      exact ⟨[], l, rfl, hl⟩

/-- **The first frame of a queue with all frames** has been loaded before all others
exactly if nothing is left over. -/
theorem loadedBefore_iff {f : Fin 32} {rest : List (Fin 32)} (hall : ∀ g, g ∈ f :: rest) :
    (∀ g ≠ f, LoadedBefore (f :: rest) f g) ↔ ¬ LeftOver (f :: rest) := by
  constructor
  · rintro h ⟨f', g, l, l', hg, heq, hnotin⟩
    obtain rfl : f = f' := (List.cons.inj heq).1
    obtain ⟨a, b, hab, hfb, hgb⟩ := h g hg
    -- the last entry of `f` is not before the one that is left over
    rw [heq] at hab
    rcases List.append_eq_append_iff.mp hab with ⟨c, hc, hl'⟩ | ⟨c, hc, hl'⟩
    · cases c with
      | nil =>
        obtain ⟨-, rfl⟩ := List.cons.inj hl'
        exact hnotin hgb
      | cons x c =>
        obtain ⟨-, rfl⟩ := List.cons.inj hl'
        exact hnotin (List.mem_append_right c (List.mem_cons_of_mem _ hgb))
    · cases c with
      | nil =>
        obtain ⟨-, rfl⟩ := List.cons.inj hl'
        exact hnotin hgb
      | cons x c =>
        obtain ⟨-, rfl⟩ := List.cons.inj hl'
        exact hfb (List.mem_append_right c (List.mem_cons_self ..))
  · intro h g hg
    obtain ⟨a, b, hab, hfb⟩ := exists_last (hall f)
    refine ⟨a, b, hab, hfb, ?_⟩
    cases a with
    | nil =>
      obtain ⟨-, rfl⟩ := List.cons.inj hab
      exact (List.mem_cons.mp (hall g)).resolve_left hg
    | cons x a =>
      obtain ⟨rfl, rfl⟩ := List.cons.inj hab
      by_contra hgb
      exact h ⟨f, g, a, b, hg, rfl, hgb⟩

/-- The queue holds the frames that have been loaded, but for those at its front that
have been taken out. -/
def Demo.Queued (s : Demo) : Prop := ∃ taken, loads s.log = taken ++ s.vm.fifoFrames

/-- What an access adds to the log and to the queue. -/
theorem VirtualMemorySystem.Coherent.loads_access {v v' : VirtualMemorySystem} {dead : List ℤ}
    (h : v.Coherent dead none) {op : Access} {events : List Event}
    (haccess : v.access op = some (events, v')) :
    ∃ taken, v.fifoFrames ++ loads events = taken ++ v'.fifoFrames := by
  rcases v.access_cases op with ⟨f, -, heq⟩ | ⟨f, -, -, heq⟩ | ⟨-, -, heq⟩
  · rw [heq] at haccess
    obtain ⟨rfl, rfl⟩ := Prod.mk.inj (Option.some.inj haccess)
    exact ⟨[], List.append_nil _⟩
  · rw [heq] at haccess
    obtain ⟨rfl, rfl⟩ := Prod.mk.inj (Option.some.inj haccess)
    exact ⟨[], List.append_nil _⟩
  · rw [heq] at haccess
    rcases h.fault_cases op with ⟨f, -, hfault⟩ | ⟨f, rest, -, hqueue, hfault⟩
    · rw [hfault] at haccess
      obtain ⟨rfl, rfl⟩ := Prod.mk.inj (Option.some.inj haccess)
      exact ⟨[], rfl⟩
    · rw [hfault] at haccess
      obtain ⟨rfl, rfl⟩ := Prod.mk.inj (Option.some.inj haccess)
      refine ⟨[f], ?_⟩
      rw [hqueue]
      rfl

theorem Demo.Queued.step {s t : Demo} (hinv : s.Inv) (h : s.Queued) {op : Op}
    (hpre : demoMachine.pre s op) (hexec : demoMachine.exec s op = some t) : t.Queued := by
  obtain ⟨taken, htaken⟩ := h
  cases op with
  | access op =>
    obtain ⟨⟨events, v'⟩, haccess, rfl⟩ := Option.map_eq_some_iff.mp hexec
    obtain ⟨taken', htaken'⟩ := hinv.coherent.loads_access haccess
    refine ⟨taken ++ taken', ?_⟩
    show loads (s.log ++ events) = _
    rw [loads_append, htaken, List.append_assoc, htaken', List.append_assoc]
  | terminate pid =>
    obtain rfl := Option.some.inj hexec
    refine ⟨taken, ?_⟩
    show loads (s.log ++ (s.vm.terminate pid).1) = taken ++ s.vm.fifoFrames
    have hnone : loads (s.vm.terminate pid).1 = [] := by
      simp [loads, VirtualMemorySystem.terminate]
    rw [loads_append, hnone, List.append_nil, htaken]
  | schedule event =>
    obtain rfl := Option.some.inj hexec
    refine ⟨taken, ?_⟩
    show loads (s.log ++ [event]) = taken ++ s.vm.fifoFrames
    have hnone : loads [event] = [] := by
      have hevent : event.OfScheduler := hpre
      cases event <;> first | rfl | exact hevent.elim
    rw [loads_append, hnone, List.append_nil, htaken]

theorem Demo.Queued.run_step {s : Demo} (hs : s.Inv ∧ s.Queued) {op : Op}
    (hpre : demoMachine.pre s op) : ∃ t, demoMachine.exec s op = some t ∧ t.Inv ∧ t.Queued := by
  obtain ⟨t, hexec, hinv⟩ := hs.1.step hpre
  exact ⟨t, hexec, hinv, hs.2.step hs.1 hpre hexec⟩

/-- In a state of a run, a replacement takes the oldest frame exactly if nothing is left
over. -/
theorem Demo.takesOldest_iff {s : Demo} (hinv : s.Inv) (h : s.Queued) (op : Op) :
    TakesOldest s op ↔ FindsNoLeftOver s op := by
  cases op with
  | terminate pid => exact Iff.rfl
  | schedule event => exact Iff.rfl
  | access op =>
    refine forall_congr' (fun hreplaces => ?_)
    have hall : ∀ g, g ∈ s.vm.fifoFrames := fun g =>
      hinv.coherent.queued g (by simp) (VirtualMemorySystem.findFreeFrame_none hreplaces.2.2 g)
    obtain ⟨taken, htaken⟩ := h
    cases hqueue : s.vm.fifoFrames with
    | nil =>
      have hmem := hall 0
      rw [hqueue] at hmem
      simp at hmem
    | cons f rest =>
      rw [hqueue] at hall htaken
      rw [← loadedBefore_iff hall, htaken]
      have hevict : ∃ event v, s.vm.evict op.pid = some (event, f, v) := by
        rw [VirtualMemorySystem.evict, hqueue]
        exact ⟨_, _, rfl⟩
      obtain ⟨event, v, hevict⟩ := hevict
      constructor
      · intro h g hg
        exact (loadedBefore_append (hall f)).mp (h event f v hevict g hg)
      · intro h event' f' v' hevict' g hg
        rw [hevict] at hevict'
        obtain ⟨-, heq⟩ := Prod.mk.inj (Option.some.inj hevict')
        obtain rfl := (Prod.mk.inj heq).1
        exact (loadedBefore_append (hall f)).mpr (h g hg)

/-- **When the page replacement of the visualizer is FIFO.**  In every run of the demo,
each replacement takes the frame that was loaded first exactly if no replacement finds an
entry at the front of its queue that is left over. -/
theorem visualizer_fifo_iff (ops : List Op) (hlegal : demoMachine.Legal {} ops) :
    demoMachine.EachStep TakesOldest {} ops ↔ demoMachine.EachStep FindsNoLeftOver {} ops := by
  refine GuardedMachine.eachStep_congr (I := fun s => s.Inv ∧ s.Queued) ?_ ?_
    ⟨Demo.inv_start, [], rfl⟩ hlegal
  · intro s op t hs hpre _ hexec
    obtain ⟨t', hexec', ht'⟩ := Demo.Queued.run_step hs hpre
    obtain rfl : t = t' := Option.some.inj (hexec.symm.trans hexec')
    exact ht'
  · intro s op hs _
    exact Demo.takesOldest_iff hs.1 hs.2 op

/-- Nothing is left over while no frame is queued twice. -/
theorem not_leftOver_of_nodup {queue : List (Fin 32)} (h : queue.Nodup) : ¬ LeftOver queue := by
  rintro ⟨f, g, l, l', -, rfl, -⟩
  rw [List.cons_append, List.nodup_cons] at h
  exact h.1 (List.mem_append_right _ (List.mem_cons_self ..))

instance (v : VirtualMemorySystem) (op : Access) : Decidable (v.Replaces op) :=
  inferInstanceAs (Decidable (_ ∧ _ ∧ _))

/-- No frame is queued twice when a replacement takes one. -/
def QueuesOnce (s : Demo) : Op → Prop
  | .access op => s.vm.Replaces op → s.vm.fifoFrames.Nodup
  | _ => True

instance (s : Demo) (op : Op) : Decidable (QueuesOnce s op) :=
  match op with
  | .access _ => inferInstanceAs (Decidable (_ → _))
  | .terminate _ => .isTrue trivial
  | .schedule _ => .isTrue trivial

/-- Four processes that need more pages than there are frames. -/
theorem crowd_fifo :
    demoMachine.EachStep TakesOldest {} (sweep 2 10 ++ sweep 3 10 ++ sweep 4 10 ++ sweep 5 4) := by
  apply (visualizer_fifo_iff _ (by decide +kernel)).mpr
  have honce : demoMachine.EachStep QueuesOnce {}
      (sweep 2 10 ++ sweep 3 10 ++ sweep 4 10 ++ sweep 5 4) := by decide +kernel
  refine honce.mono (fun s op h => ?_)
  cases op with
  | access op => exact fun hreplaces => not_leftOver_of_nodup (h hreplaces)
  | terminate pid => exact trivial
  | schedule event => exact trivial

/-- The first process ends after the second one has been loaded, and frame 0 is loaded
again. -/
def reloadFirst : List Op :=
  sweep 1 1 ++ sweep 2 1 ++ [.terminate 1] ++ sweep 3 10 ++ sweep 4 10 ++ sweep 5 10 ++ sweep 6 1

/-- Frame 0 is then replaced although frame 1 was loaded before it. -/
theorem reloadFirst_not_fifo :
    demoMachine.Legal {} (reloadFirst ++ [.access ⟨6, 1, .code, 4096⟩]) ∧
      ¬ demoMachine.EachStep TakesOldest {} (reloadFirst ++ [.access ⟨6, 1, .code, 4096⟩]) := by
  refine ⟨by decide +kernel, fun h => ?_⟩
  have hlegal : demoMachine.Legal {} reloadFirst := by decide +kernel
  obtain ⟨t, hrun, hinv, hqueued⟩ := hlegal.invariant (I := fun s => s.Inv ∧ s.Queued)
    (fun s op hs hpre => Demo.Queued.run_step hs hpre) ⟨Demo.inv_start, [], rfl⟩
  have hlast := (Demo.takesOldest_iff hinv hqueued _).mp (h.last hrun)
  have hstate : (demoMachine.run {} reloadFirst).map (fun s =>
      (decide (s.vm.Replaces ⟨6, 1, .code, 4096⟩), s.vm.fifoFrames))
      = some (true, 0 :: [1] ++ 0 :: (List.finRange 32).drop 2) := by decide +kernel
  rw [hrun] at hstate
  obtain ⟨hreplaces, hqueue⟩ := Prod.mk.inj (Option.some.inj hstate)
  apply hlast (of_decide_eq_true hreplaces)
  rw [hqueue]
  exact ⟨0, 1, [1], (List.finRange 32).drop 2, by decide, rfl, by decide⟩

end Visualizer
