/-
# From the trace file of the visualizer to its page

The visualizer writes its events into a file, which is closed when the visualizer ends; then
`virtual.html` loads the file and goes through the events.  The page does not follow the TLB
through a refill.  But whatever is refilled, when it has come to the end of a tick its frames
are those of the simulator, and its metrics add up (`Metered`): each tick with a running
process is a hit or a miss, each miss is a fault or a refill, and each fault has put a page
into a frame, where it still is or has been evicted or freed.
-/
import MemoryAllocator.TraceFiles
import MemoryAllocator.VisualizerLoop
import MemoryAllocator.VisualizerReplay

open JsonText EventLog

namespace Visualizer

open Memlab (ArenaProcess RoundRobin Core dec32 sub32)

/-! ## The file -/

/-- The name of a segment. -/
def Segment.name : Segment → String
  | empty => ""
  | code => "Code"
  | data => "Data"
  | heap => "Heap"
  | stack => "Stack"

/-- The segment that a name in the file stands for. -/
def Segment.ofName (name : String) : Option Segment :=
  if name = "" then some empty
  else if name = "Code" then some code
  else if name = "Data" then some data
  else if name = "Heap" then some heap
  else if name = "Stack" then some stack
  else none

/-- The page reads back the segment that the program wrote. -/
theorem Segment.ofName_name (segment : Segment) : ofName segment.name = some segment := by
  cases segment <;> rfl

/-- The names of the segments need no escapes. -/
theorem Segment.plain_name (segment : Segment) : Plain (utf8 segment.name) := by
  cases segment <;> decide +kernel

/-- The call of `TraceWriter::log` for an event. -/
def Event.call (tick : ℤ) : Event → LogCall
  | .tlbHit pid vpn pfn segment vaddr =>
    logCall tick "tlb_hit" pid [("vpn", .num vpn), ("pfn", .num pfn),
      ("segment", .str (utf8 segment.name)), ("vaddr", .num vaddr)]
  | .tlbMiss pid vpn segment =>
    logCall tick "tlb_miss" pid [("vpn", .num vpn), ("segment", .str (utf8 segment.name))]
  | .pageTableHit pid vpn pfn =>
    logCall tick "page_table_hit" pid [("vpn", .num vpn), ("pfn", .num pfn)]
  | .pageFault pid vpn segment vaddr =>
    logCall tick "page_fault" pid [("vpn", .num vpn), ("segment", .str (utf8 segment.name)),
      ("vaddr", .num vaddr)]
  | .pageEvicted pid evictedPid evictedVpn pfn =>
    logCall tick "page_evicted" pid [("evicted_pid", .num evictedPid),
      ("evicted_vpn", .num evictedVpn), ("pfn", .num pfn)]
  | .pageAllocated pid vpn pfn segment =>
    logCall tick "page_allocated" pid [("vpn", .num vpn), ("pfn", .num pfn),
      ("segment", .str (utf8 segment.name))]
  | .pageFreed pid pfn => logCall tick "page_freed" pid [("pfn", .num pfn)]
  | .processTerminated pid => logCall tick "process_terminated" pid []
  | .processCreated pid name memoryRequest numPages =>
    logCall tick "process_created" pid [("name", .str (utf8 name)),
      ("memoryRequest", .num memoryRequest), ("numPages", .num numPages)]
  | .segmentCreated pid segment baseVpn numPages =>
    logCall tick "segment_created" pid [("segment", .str (utf8 segment.name)),
      ("base_vpn", .num baseVpn), ("num_pages", .num numPages)]
  | .processReady pid true =>
    logCall tick "process_ready" pid [("reason", .str (utf8 "preempted"))]
  | .processReady pid false => logCall tick "process_ready" pid []
  | .processScheduled pid burstIndex =>
    logCall tick "process_scheduled" pid [("burstIndex", .num burstIndex)]
  | .cpuRun pid ticks remaining =>
    logCall tick "cpu_run" pid [("ticks", .num ticks), ("remaining", .num remaining)]
  | .ioRequested pid ioTicks => logCall tick "io_requested" pid [("ioTicks", .num ioTicks)]
  | .ioAck pid => logCall tick "io_ack" pid []

/-- A property that is the number of a frame. -/
def frameProperty (v : Json) (name : String) : Option (Fin 32) :=
  match natProperty v name with
  | some n => if h : n < 32 then some ⟨n, h⟩ else none
  | none => none

/-- A property that is the name of a segment. -/
def segmentProperty (v : Json) (name : String) : Option Segment :=
  (stringProperty v name).bind Segment.ofName

/-- The event that the page sees in an object. -/
def Event.read (v : Json) : Option Event := do
  let type ← stringProperty v "type"
  let pid ← intProperty v "pid"
  if type = "tlb_hit" then
    return .tlbHit pid (← natProperty v "vpn") (← frameProperty v "pfn")
      (← segmentProperty v "segment") (← natProperty v "vaddr")
  else if type = "tlb_miss" then
    return .tlbMiss pid (← natProperty v "vpn") (← segmentProperty v "segment")
  else if type = "page_table_hit" then
    return .pageTableHit pid (← natProperty v "vpn") (← frameProperty v "pfn")
  else if type = "page_fault" then
    return .pageFault pid (← natProperty v "vpn") (← segmentProperty v "segment")
      (← natProperty v "vaddr")
  else if type = "page_evicted" then
    return .pageEvicted pid (← intProperty v "evicted_pid") (← natProperty v "evicted_vpn")
      (← frameProperty v "pfn")
  else if type = "page_allocated" then
    return .pageAllocated pid (← natProperty v "vpn") (← frameProperty v "pfn")
      (← segmentProperty v "segment")
  else if type = "page_freed" then return .pageFreed pid (← frameProperty v "pfn")
  else if type = "process_terminated" then return .processTerminated pid
  else if type = "process_created" then
    return .processCreated pid (← stringProperty v "name") (← natProperty v "memoryRequest")
      (← natProperty v "numPages")
  else if type = "segment_created" then
    return .segmentCreated pid (← segmentProperty v "segment") (← natProperty v "base_vpn")
      (← natProperty v "num_pages")
  else if type = "process_ready" then
    return .processReady pid (stringProperty v "reason" = some "preempted")
  else if type = "process_scheduled" then
    return .processScheduled pid (← natProperty v "burstIndex")
  else if type = "cpu_run" then
    return .cpuRun pid (← natProperty v "ticks") (← natProperty v "remaining")
  else if type = "io_requested" then return .ioRequested pid (← natProperty v "ioTicks")
  else if type = "io_ack" then return .ioAck pid
  else none

/-- The names of the fields need no escapes. -/
theorem Event.plainNames (tick : ℤ) (e : Event) : (e.call tick).PlainNames := by
  have hwords : ∀ word ∈ ["tlb_hit", "vpn", "pfn", "segment", "vaddr", "tlb_miss",
      "page_table_hit", "page_fault", "page_evicted", "evicted_pid", "evicted_vpn",
      "page_allocated", "page_freed", "process_terminated", "process_created", "name",
      "memoryRequest", "numPages", "segment_created", "base_vpn", "num_pages", "process_ready",
      "reason", "process_scheduled", "burstIndex", "cpu_run", "ticks", "remaining",
      "io_requested", "ioTicks", "io_ack"], Plain (utf8 word) := by decide +kernel
  simp only [List.forall_mem_cons] at hwords
  rcases e with _ | _ | _ | _ | _ | _ | _ | _ | _ | _ | ⟨pid, _ | _⟩ | _ | _ | _ | _ <;>
    (apply plainNames_logCall; simp [hwords])

section Read

variable {c : LogCall} {v : Json} {name : String}

/-- A frame number that has been decoded is the one that was written. -/
theorem frame_of_field {pfn : Fin 32} (h : c.Decodes v) (hfield : c.field name = some (.num pfn)) :
    frameProperty v name = some pfn := by
  unfold frameProperty
  rw [h.nat (n := pfn.val) hfield]
  simp

/-- A segment that has been decoded is the one that was written. -/
theorem segment_of_field {segment : Segment} (h : c.Decodes v)
    (hfield : c.field name = some (.str (utf8 segment.name))) :
    segmentProperty v name = some segment := by
  unfold segmentProperty
  rw [h.string hfield]
  exact segment.ofName_name

end Read

/-- The page reads back the event that the program logged. -/
theorem Event.read_call {tick : ℤ} {e : Event} {v : Json} (h : (e.call tick).Decodes v) :
    Event.read v = some e := by
  cases e with
  | tlbHit pid vpn pfn segment vaddr =>
    have htype : stringProperty v "type" = some "tlb_hit" := h.string (field_logCall ..)
    have hpid : intProperty v "pid" = some pid := h.int (field_logCall ..)
    have hvpn : natProperty v "vpn" = some vpn := h.nat (field_logCall ..)
    have hpfn : frameProperty v "pfn" = some pfn := frame_of_field h (field_logCall ..)
    have hsegment : segmentProperty v "segment" = some segment :=
      segment_of_field h (field_logCall ..)
    have hvaddr : natProperty v "vaddr" = some vaddr := h.nat (field_logCall ..)
    simp [Event.read, htype, hpid, hvpn, hpfn, hsegment, hvaddr]
  | tlbMiss pid vpn segment =>
    have htype : stringProperty v "type" = some "tlb_miss" := h.string (field_logCall ..)
    have hpid : intProperty v "pid" = some pid := h.int (field_logCall ..)
    have hvpn : natProperty v "vpn" = some vpn := h.nat (field_logCall ..)
    have hsegment : segmentProperty v "segment" = some segment :=
      segment_of_field h (field_logCall ..)
    simp [Event.read, htype, hpid, hvpn, hsegment]
  | pageTableHit pid vpn pfn =>
    have htype : stringProperty v "type" = some "page_table_hit" := h.string (field_logCall ..)
    have hpid : intProperty v "pid" = some pid := h.int (field_logCall ..)
    have hvpn : natProperty v "vpn" = some vpn := h.nat (field_logCall ..)
    have hpfn : frameProperty v "pfn" = some pfn := frame_of_field h (field_logCall ..)
    simp [Event.read, htype, hpid, hvpn, hpfn]
  | pageFault pid vpn segment vaddr =>
    have htype : stringProperty v "type" = some "page_fault" := h.string (field_logCall ..)
    have hpid : intProperty v "pid" = some pid := h.int (field_logCall ..)
    have hvpn : natProperty v "vpn" = some vpn := h.nat (field_logCall ..)
    have hsegment : segmentProperty v "segment" = some segment :=
      segment_of_field h (field_logCall ..)
    have hvaddr : natProperty v "vaddr" = some vaddr := h.nat (field_logCall ..)
    simp [Event.read, htype, hpid, hvpn, hsegment, hvaddr]
  | pageEvicted pid evictedPid evictedVpn pfn =>
    have htype : stringProperty v "type" = some "page_evicted" := h.string (field_logCall ..)
    have hpid : intProperty v "pid" = some pid := h.int (field_logCall ..)
    have hevictedPid : intProperty v "evicted_pid" = some evictedPid := h.int (field_logCall ..)
    have hevictedVpn : natProperty v "evicted_vpn" = some evictedVpn := h.nat (field_logCall ..)
    have hpfn : frameProperty v "pfn" = some pfn := frame_of_field h (field_logCall ..)
    simp [Event.read, htype, hpid, hevictedPid, hevictedVpn, hpfn]
  | pageAllocated pid vpn pfn segment =>
    have htype : stringProperty v "type" = some "page_allocated" := h.string (field_logCall ..)
    have hpid : intProperty v "pid" = some pid := h.int (field_logCall ..)
    have hvpn : natProperty v "vpn" = some vpn := h.nat (field_logCall ..)
    have hpfn : frameProperty v "pfn" = some pfn := frame_of_field h (field_logCall ..)
    have hsegment : segmentProperty v "segment" = some segment :=
      segment_of_field h (field_logCall ..)
    simp [Event.read, htype, hpid, hvpn, hpfn, hsegment]
  | pageFreed pid pfn =>
    have htype : stringProperty v "type" = some "page_freed" := h.string (field_logCall ..)
    have hpid : intProperty v "pid" = some pid := h.int (field_logCall ..)
    have hpfn : frameProperty v "pfn" = some pfn := frame_of_field h (field_logCall ..)
    simp [Event.read, htype, hpid, hpfn]
  | processTerminated pid =>
    have htype : stringProperty v "type" = some "process_terminated" := h.string (field_logCall ..)
    have hpid : intProperty v "pid" = some pid := h.int (field_logCall ..)
    simp [Event.read, htype, hpid]
  | processCreated pid name memoryRequest numPages =>
    have htype : stringProperty v "type" = some "process_created" := h.string (field_logCall ..)
    have hpid : intProperty v "pid" = some pid := h.int (field_logCall ..)
    have hname : stringProperty v "name" = some name := h.string (field_logCall ..)
    have hrequest : natProperty v "memoryRequest" = some memoryRequest := h.nat (field_logCall ..)
    have hpages : natProperty v "numPages" = some numPages := h.nat (field_logCall ..)
    simp [Event.read, htype, hpid, hname, hrequest, hpages]
  | segmentCreated pid segment baseVpn numPages =>
    have htype : stringProperty v "type" = some "segment_created" := h.string (field_logCall ..)
    have hpid : intProperty v "pid" = some pid := h.int (field_logCall ..)
    have hsegment : segmentProperty v "segment" = some segment :=
      segment_of_field h (field_logCall ..)
    have hbase : natProperty v "base_vpn" = some baseVpn := h.nat (field_logCall ..)
    have hpages : natProperty v "num_pages" = some numPages := h.nat (field_logCall ..)
    simp [Event.read, htype, hpid, hsegment, hbase, hpages]
  | processReady pid preempted =>
    cases preempted with
    | true =>
      have htype : stringProperty v "type" = some "process_ready" := h.string (field_logCall ..)
      have hpid : intProperty v "pid" = some pid := h.int (field_logCall ..)
      have hreason : stringProperty v "reason" = some "preempted" := h.string (field_logCall ..)
      simp [Event.read, htype, hpid, hreason]
    | false =>
      have htype : stringProperty v "type" = some "process_ready" := h.string (field_logCall ..)
      have hpid : intProperty v "pid" = some pid := h.int (field_logCall ..)
      have hreason : stringProperty v "reason" = none := h.absent (field_logCall ..)
      simp [Event.read, htype, hpid, hreason]
  | processScheduled pid burstIndex =>
    have htype : stringProperty v "type" = some "process_scheduled" := h.string (field_logCall ..)
    have hpid : intProperty v "pid" = some pid := h.int (field_logCall ..)
    have hburst : natProperty v "burstIndex" = some burstIndex := h.nat (field_logCall ..)
    simp [Event.read, htype, hpid, hburst]
  | cpuRun pid ticks remaining =>
    have htype : stringProperty v "type" = some "cpu_run" := h.string (field_logCall ..)
    have hpid : intProperty v "pid" = some pid := h.int (field_logCall ..)
    have hticks : natProperty v "ticks" = some ticks := h.nat (field_logCall ..)
    have hremaining : natProperty v "remaining" = some remaining := h.nat (field_logCall ..)
    simp [Event.read, htype, hpid, hticks, hremaining]
  | ioRequested pid ioTicks =>
    have htype : stringProperty v "type" = some "io_requested" := h.string (field_logCall ..)
    have hpid : intProperty v "pid" = some pid := h.int (field_logCall ..)
    have hticks : natProperty v "ioTicks" = some ioTicks := h.nat (field_logCall ..)
    simp [Event.read, htype, hpid, hticks]
  | ioAck pid =>
    have htype : stringProperty v "type" = some "io_ack" := h.string (field_logCall ..)
    have hpid : intProperty v "pid" = some pid := h.int (field_logCall ..)
    simp [Event.read, htype, hpid]

/-- The format of the file `events.json`. -/
def eventsFormat : EventFormat Event where
  call := Event.call
  read := Event.read
  names := Event.plainNames
  read_call := Event.read_call

/-- The page that has loaded a file, after as many events. -/
def Page.load (text : Bytes) (steps : ℕ) : Option Page :=
  (eventsFormat.load text).map (fun events => replay (events.take steps))

/-- Only the name of a process can have something to be escaped. -/
theorem Event.encodable {e : Event} {tick : ℤ}
    (h : ∀ pid name request pages, e = .processCreated pid name request pages →
      Plain (utf8 name)) : (e.call tick).Encodable := by
  have hsegment : ∀ segment : Segment,
      (FieldValue.str (utf8 segment.name)).Encodable := fun segment =>
    ⟨wellFormed_iff.mpr ⟨segment.name, rfl⟩, segment.plain_name⟩
  have hnum : ∀ n : ℤ, (FieldValue.num n).Encodable := fun _ => trivial
  cases e with
  | processCreated pid name memoryRequest numPages =>
    have hname : (FieldValue.str (utf8 name)).Encodable :=
      ⟨wellFormed_iff.mpr ⟨name, rfl⟩, h pid name memoryRequest numPages rfl⟩
    apply encodable_logCall
    simp [hname, hnum]
  | processReady pid preempted =>
    cases preempted with
    | true =>
      have hreason : (FieldValue.str (utf8 "preempted")).Encodable := by decide +kernel
      apply encodable_logCall
      simp [hreason]
    | false => exact encodable_logCall (fun f hf => absurd hf List.not_mem_nil)
  | _ =>
    apply encodable_logCall
    simp [hsegment, hnum]

/-! ## Frames and metrics -/

/-- The frames in use, as `updateMetrics` counts them. -/
def Page.frameUsed (p : Page) : ℕ := (Finset.univ.filter (fun f => (p.frames f).isSome)).card

/-- The events of a refill of the TLB. -/
def Event.isRefill : Event → Bool
  | pageTableHit .. => true
  | _ => false

/-- The event frees a frame. -/
def Event.isFreed : Event → Bool
  | pageFreed .. => true
  | _ => false

/-- The metrics add up, for these numbers of refills and of frames that have been freed. -/
structure Page.Balance (p : Page) (refills freed : ℕ) : Prop where
  misses : p.tlbMisses = p.pageFaults + refills
  faults : p.pageFaults = p.frameUsed + p.evictions + freed

/-- **The frames are those of the simulator, and the metrics add up.** -/
structure Demo.Metered (s : Demo) (p : Page) : Prop where
  frames : ∀ f, p.frames f = s.vm.frame f
  balance : p.Balance (s.log.countP Event.isRefill) (s.log.countP Event.isFreed)

section Frames

variable {p q : Page} {f : Fin 32}

/-- A page in an empty frame is one more frame in use. -/
theorem frameUsed_load (h : p.frames f = none) {frame : PageFrame}
    (hq : q.frames = Function.update p.frames f (some frame)) :
    q.frameUsed = p.frameUsed + 1 := by
  have hinsert : Finset.univ.filter (fun g => (q.frames g).isSome)
      = insert f (Finset.univ.filter (fun g => (p.frames g).isSome)) := by
    ext g
    rw [hq]
    by_cases hg : g = f
    · subst hg
      simp
    · simp [hg]
  unfold Page.frameUsed
  rw [hinsert, Finset.card_insert_of_notMem (by simp [h])]

/-- A frame that is emptied is one less in use. -/
theorem frameUsed_clear (h : (p.frames f).isSome) (hq : q.frames = Function.update p.frames f none) :
    q.frameUsed + 1 = p.frameUsed := by
  have herase : Finset.univ.filter (fun g => (q.frames g).isSome)
      = (Finset.univ.filter (fun g => (p.frames g).isSome)).erase f := by
    ext g
    rw [hq]
    by_cases hg : g = f
    · subst hg
      simp
    · simp [hg]
  unfold Page.frameUsed
  rw [herase]
  exact Finset.card_erase_add_one (by simp [h])

/-- The frames of the page depend only on its frames. -/
theorem frames_applyEvent (h : q.frames = p.frames) (event : Event) :
    (q.applyEvent event).frames = (p.applyEvent event).frames := by
  cases event <;> first
    | exact h
    | exact congrArg (fun frames => Function.update frames _ _) h

/-- The frames after more events come from the frames before them. -/
theorem frames_foldl (h : q.frames = p.frames) (events : List Event) :
    (events.foldl Page.applyEvent q).frames = (events.foldl Page.applyEvent p).frames := by
  induction events generalizing p q with
  | nil => exact h
  | cons event events ih => exact ih (frames_applyEvent h event)

/-- The page with the TLB of the simulator. -/
def Page.withTlb (p : Page) (v : VirtualMemorySystem) : Page :=
  { p with tlb := fun i => (v.tlb i).shown, tlbPtr := v.tlbIdx }

/-- The TLB of the page does not matter to the frames it shows. -/
theorem shows_withTlb {v : VirtualMemorySystem} (h : ∀ f, p.frames f = v.frame f) :
    Shows (p.withTlb v) v none :=
  ⟨fun f _ => h f, fun _ => rfl⟩

/-! ### The balance of the metrics -/

variable {refills freed : ℕ}

/-- A miss and the hit in the page table are a refill of the TLB. -/
theorem Page.Balance.refill (h : p.Balance refills freed) (pid : ℤ) (vpn : ℕ) (segment : Segment)
    (f : Fin 32) :
    ((p.applyEvent (.tlbMiss pid vpn segment)).applyEvent (.pageTableHit pid vpn f)).Balance
      (refills + 1) freed := by
  refine ⟨?_, h.faults⟩
  show p.tlbMisses + 1 = p.pageFaults + (refills + 1)
  rw [h.misses, Nat.add_assoc]

/-- A fault that finds a free frame. -/
theorem Page.Balance.fault (h : p.Balance refills freed) (pid : ℤ) (vpn vaddr : ℕ)
    (segment : Segment) (hf : p.frames f = none) :
    (((p.applyEvent (.tlbMiss pid vpn segment)).applyEvent
      (.pageFault pid vpn segment vaddr)).applyEvent (.pageAllocated pid vpn f segment)).Balance
        refills freed := by
  have hused : (((p.applyEvent (.tlbMiss pid vpn segment)).applyEvent
      (.pageFault pid vpn segment vaddr)).applyEvent
        (.pageAllocated pid vpn f segment)).frameUsed = p.frameUsed + 1 := frameUsed_load hf rfl
  have hmisses := h.misses
  have hfaults := h.faults
  refine ⟨?_, ?_⟩
  · show p.tlbMisses + 1 = p.pageFaults + 1 + refills
    omega
  · rw [hused]
    show p.pageFaults + 1 = p.frameUsed + 1 + p.evictions + freed
    omega

/-- A fault that replaces the page of a frame. -/
theorem Page.Balance.replace (h : p.Balance refills freed) (pid evictedPid : ℤ)
    (vpn vaddr evictedVpn : ℕ) (segment : Segment) (hf : (p.frames f).isSome) :
    ((((p.applyEvent (.tlbMiss pid vpn segment)).applyEvent
      (.pageFault pid vpn segment vaddr)).applyEvent
        (.pageEvicted pid evictedPid evictedVpn f)).applyEvent
          (.pageAllocated pid vpn f segment)).Balance refills freed := by
  have hcleared : (((p.applyEvent (.tlbMiss pid vpn segment)).applyEvent
      (.pageFault pid vpn segment vaddr)).applyEvent
        (.pageEvicted pid evictedPid evictedVpn f)).frameUsed + 1 = p.frameUsed :=
    frameUsed_clear hf rfl
  have hempty : (((p.applyEvent (.tlbMiss pid vpn segment)).applyEvent
      (.pageFault pid vpn segment vaddr)).applyEvent
        (.pageEvicted pid evictedPid evictedVpn f)).frames f = none := Function.update_self ..
  have hloaded := frameUsed_load (q := ((((p.applyEvent (.tlbMiss pid vpn segment)).applyEvent
    (.pageFault pid vpn segment vaddr)).applyEvent
      (.pageEvicted pid evictedPid evictedVpn f)).applyEvent (.pageAllocated pid vpn f segment)))
        hempty rfl
  have hmisses := h.misses
  have hfaults := h.faults
  refine ⟨?_, ?_⟩
  · show p.tlbMisses + 1 = p.pageFaults + 1 + refills
    omega
  · rw [hloaded]
    show p.pageFaults + 1 = _ + 1 + (p.evictions + 1) + freed
    omega

/-- Frames that are released one after the other. -/
theorem Page.Balance.release (h : p.Balance refills freed) (pid : ℤ) {l : List (Fin 32)}
    (hl : l.Nodup) (hused : ∀ f ∈ l, (p.frames f).isSome) :
    ((l.map (Event.pageFreed pid)).foldl Page.applyEvent p).Balance refills
      (freed + l.length) := by
  induction l generalizing p freed with
  | nil => exact h
  | cons f l ih =>
    obtain ⟨hf, hl⟩ := List.nodup_cons.mp hl
    have hclear : (p.applyEvent (.pageFreed pid f)).frameUsed + 1 = p.frameUsed :=
      frameUsed_clear (hused f (List.mem_cons_self ..)) rfl
    have hfaults := h.faults
    have hfreed : (p.applyEvent (.pageFreed pid f)).Balance refills (freed + 1) := by
      refine ⟨h.misses, ?_⟩
      show p.pageFaults = _ + p.evictions + (freed + 1)
      omega
    have hrest := ih hfreed hl (fun g hg => by
      have hne : g ≠ f := fun heq => hf (heq ▸ hg)
      show (Function.update p.frames f none g).isSome
      rw [Function.update_of_ne hne]
      exact hused g (List.mem_cons_of_mem _ hg))
    rw [Nat.add_assoc, Nat.add_comm 1] at hrest
    exact hrest

/-- **The frames follow every access**, with or without a refill. -/
theorem frames_access {v v' : VirtualMemorySystem} {dead : List ℤ} {op : Access}
    {events : List Event} (hv : v.Coherent dead none) (h : ∀ f, p.frames f = v.frame f)
    (hpid : op.pid ≠ -1) (haccess : v.access op = some (events, v')) (f : Fin 32) :
    (events.foldl Page.applyEvent p).frames f = v'.frame f := by
  by_cases hrefill : v.Refills op
  · rcases v.access_cases op with ⟨g, hhit, -⟩ | ⟨g, -, -, heq⟩ | ⟨-, hnone, -⟩
    · rw [hrefill.1] at hhit
      cases hhit
    · rw [heq] at haccess
      obtain ⟨rfl, rfl⟩ := Prod.mk.inj (Option.some.inj haccess)
      exact h f
    · exact absurd hnone hrefill.2
  · obtain ⟨hshows, -⟩ := (shows_withTlb h).access hv rfl hpid hrefill haccess
    have hframes := frames_foldl (p := p) (q := p.withTlb v) rfl events
    rw [← hframes]
    exact hshows.frames f (by simp)

end Frames

/-- A frame is in use when it has an owner. -/
theorem VirtualMemorySystem.frame_isSome {v : VirtualMemorySystem} {f : Fin 32} :
    (v.frame f).isSome ↔ v.frameOwner f ≠ -1 := by
  unfold VirtualMemorySystem.frame
  split_ifs with howner
  · simp [howner]
  · simp [howner]

/-- A frame without an owner is empty. -/
theorem VirtualMemorySystem.frame_eq_none {v : VirtualMemorySystem} {f : Fin 32}
    (h : v.frameOwner f = -1) : v.frame f = none := if_pos h

/-- An access keeps the metrics of the page in step. -/
theorem Demo.Metered.access {s : Demo} (hinv : s.Inv) (h : s.Metered (replay s.log)) {op : Access}
    (hlive : s.Live op.pid) {events : List Event} {v : VirtualMemorySystem}
    (haccess : s.vm.access op = some (events, v)) :
    Demo.Metered { s with vm := v, log := s.log ++ events } (replay (s.log ++ events)) := by
  rw [replay_append]
  refine ⟨frames_access hinv.coherent h.frames hlive.1 haccess, ?_⟩
  show Page.Balance _ ((s.log ++ events).countP _) ((s.log ++ events).countP _)
  rw [List.countP_append, List.countP_append]
  have hbalance := h.balance
  have hframes := h.frames
  generalize replay s.log = p at hbalance hframes
  rcases s.vm.access_cases op with ⟨f, -, heq⟩ | ⟨f, -, -, heq⟩ | ⟨-, -, heq⟩
  · rw [heq] at haccess
    obtain ⟨rfl, rfl⟩ := Prod.mk.inj (Option.some.inj haccess)
    exact ⟨hbalance.misses, hbalance.faults⟩
  · rw [heq] at haccess
    obtain ⟨rfl, rfl⟩ := Prod.mk.inj (Option.some.inj haccess)
    exact hbalance.refill op.pid op.vpn op.segment f
  · rw [heq] at haccess
    rcases hinv.coherent.fault_cases op with ⟨f, hfree, hfault⟩ | ⟨f, rest, hfull, -, hfault⟩
    · rw [hfault] at haccess
      obtain ⟨rfl, rfl⟩ := Prod.mk.inj (Option.some.inj haccess)
      apply hbalance.fault
      rw [hframes f]
      exact VirtualMemorySystem.frame_eq_none (VirtualMemorySystem.findFreeFrame_some hfree)
    · rw [hfault] at haccess
      obtain ⟨rfl, rfl⟩ := Prod.mk.inj (Option.some.inj haccess)
      apply hbalance.replace
      rw [hframes f]
      exact VirtualMemorySystem.frame_isSome.mpr
        (VirtualMemorySystem.findFreeFrame_none hfull f)

/-- The end of a process keeps the metrics of the page in step. -/
theorem Demo.Metered.terminate {s : Demo} (h : s.Metered (replay s.log)) {pid : ℤ}
    (hpid : pid ≠ -1) :
    Demo.Metered ⟨(s.vm.terminate pid).2, pid :: s.dead, s.log ++ (s.vm.terminate pid).1⟩
      (replay (s.log ++ (s.vm.terminate pid).1)) := by
  have hbalance := h.balance
  have hframes := h.frames
  rw [replay_append]
  obtain ⟨hshows, -⟩ := (shows_withTlb hframes).terminate pid
  refine ⟨fun f => ?_, ?_⟩
  · rw [← frames_foldl (p := replay s.log) (q := (replay s.log).withTlb s.vm) rfl]
    exact hshows.frames f (by simp)
  · show Page.Balance _ ((s.log ++ _).countP _) ((s.log ++ _).countP _)
    rw [List.countP_append, List.countP_append]
    generalize replay s.log = p at hbalance hframes
    have hreleased := hbalance.release pid (l := (List.finRange 32).filter
      (fun i => s.vm.frameOwner i = pid)) ((List.nodup_finRange 32).filter _) (fun f hf => by
        rw [hframes f, VirtualMemorySystem.frame_isSome]
        have howner := of_decide_eq_true (List.mem_filter.mp hf).2
        rw [howner]
        exact hpid)
    have hrefills : (s.vm.terminate pid).1.countP Event.isRefill = 0 := by
      simp [VirtualMemorySystem.terminate, List.countP_eq_zero, Event.isRefill]
    have hfreed : (s.vm.terminate pid).1.countP Event.isFreed = ((List.finRange 32).filter
        (fun i => s.vm.frameOwner i = pid)).length := by
      unfold VirtualMemorySystem.terminate
      rw [List.countP_append, List.countP_map]
      exact List.countP_eq_length.mpr (fun _ _ => rfl)
    rw [hrefills, hfreed]
    unfold VirtualMemorySystem.terminate
    rw [List.foldl_append]
    exact ⟨hreleased.misses, hreleased.faults⟩

/-- **The metrics add up in every run.** -/
theorem Demo.metered {s : Demo} {ops : List Op} (h : demoMachine.Reaches {} ops s) :
    s.Metered (replay s.log) := by
  have hboth : s.Inv ∧ s.Metered (replay s.log) := by
    refine h.invariant (I := fun u => u.Inv ∧ u.Metered (replay u.log))
      (fun u op t hu hpre hexec => ?_) ⟨Demo.inv_start, fun _ => rfl, rfl, rfl⟩
    obtain ⟨hinv, hmetered⟩ := hu
    obtain ⟨t', ht', hinv'⟩ := hinv.step hpre
    obtain rfl : t = t' := Option.some.inj (hexec.symm.trans ht')
    refine ⟨hinv', ?_⟩
    cases op with
    | access op =>
      obtain ⟨⟨events, v⟩, haccess, rfl⟩ := Option.map_eq_some_iff.mp hexec
      exact hmetered.access hinv hpre haccess
    | terminate pid =>
      obtain rfl := Option.some.inj hexec
      exact hmetered.terminate hpre.1
    | schedule event =>
      obtain rfl := Option.some.inj hexec
      have hevent : event.OfScheduler := hpre
      show Demo.Metered { u with log := u.log ++ [event] } (replay (u.log ++ [event]))
      rw [replay_append]
      refine ⟨fun f => ?_, ?_⟩
      · show ((replay u.log).applyEvent event).frames f = u.vm.frame f
        rw [(sameTables_of_scheduler _ hevent).frames]
        exact hmetered.frames f
      · show Page.Balance _ ((u.log ++ [event]).countP _) ((u.log ++ [event]).countP _)
        rw [List.countP_append, List.countP_append]
        have hbalance := hmetered.balance
        generalize replay u.log = p at hbalance
        cases event <;> first
          | exact ⟨hbalance.misses, hbalance.faults⟩
          | exact hevent.elim
  exact hboth.2

/-! ## The loop -/

/-- The events of a lookup in the TLB. -/
def Event.isLookup : Event → Bool
  | tlbHit .. | tlbMiss .. => true
  | _ => false

/-- The event is a tick on the CPU. -/
def Event.isCpuRun : Event → Bool
  | cpuRun .. => true
  | _ => false

/-- The page counts every lookup in the TLB. -/
theorem lookups_replay (log : List Event) :
    (replay log).tlbHits + (replay log).tlbMisses = log.countP Event.isLookup := by
  induction log using List.reverseRecOn with
  | nil => rfl
  | append_singleton log event ih =>
    rw [replay_append, List.countP_append]
    generalize replay log = p at ih
    have hevent : (p.applyEvent event).tlbHits + (p.applyEvent event).tlbMisses
        = p.tlbHits + p.tlbMisses + [event].countP Event.isLookup := by
      cases event <;> first
        | rfl
        | exact Nat.add_right_comm ..
    rw [← ih]
    exact hevent

namespace Main

variable {n : ℕ} {ps : Fin n → ArenaProcess} {past : List Event} {s : Main n} {i : Fin n}
  {ahead : ℕ}

/-- The event creates no process but those of the demo. -/
def CreatesOneOf (ps : Fin n → ArenaProcess) : Event → Prop
  | .processCreated pid name _ _ => ∃ i, (ps i).pid = pid ∧ (ps i).name = name
  | _ => True

/-- What the log says about the loop: who has been created, that each step on the CPU comes
with a lookup, and that it goes on from the events `past`. -/
structure Logged (ps : Fin n → ArenaProcess) (past : List Event) (s : Main n) (ahead : ℕ) :
    Prop where
  pid : ∀ j, (s.procs j).pid = (ps j).pid
  name : ∀ j, (s.procs j).name = (ps j).name
  created : ∀ event ∈ s.memory.log, CreatesOneOf ps event
  lookups : s.memory.log.countP Event.isLookup = s.memory.log.countP Event.isCpuRun + ahead
  trace : past <+: s.memory.log

/-- Events that are neither creations nor lookups nor steps on the CPU. -/
theorem Logged.remember (h : Logged ps past s ahead) {memory : Demo} (events : List Event)
    (hlog : memory.log = s.memory.log ++ events) {ahead' : ℕ}
    (hcreated : ∀ event ∈ events, CreatesOneOf ps event)
    (hcount : events.countP Event.isLookup + ahead = events.countP Event.isCpuRun + ahead') :
    Logged ps past { s with memory := memory } ahead' := by
  refine ⟨h.pid, h.name, fun event hevent => ?_, ?_, ?_⟩
  · have hevent : event ∈ memory.log := hevent
    rw [hlog] at hevent
    rcases List.mem_append.mp hevent with hevent | hevent
    · exact h.created event hevent
    · exact hcreated event hevent
  · have hlookups := h.lookups
    show memory.log.countP _ = memory.log.countP _ + ahead'
    rw [hlog, List.countP_append, List.countP_append]
    omega
  · show past <+: memory.log
    rw [hlog]
    exact h.trace.trans (List.prefix_append _ _)

/-- Most events are neither a lookup nor a tick on the CPU. -/
theorem Logged.log (h : Logged ps past s ahead) {event : Event} (hcreated : CreatesOneOf ps event)
    (hlookup : event.isLookup = false) (hrun : event.isCpuRun = false) :
    Logged ps past (s.log event) ahead := by
  refine h.remember [event] rfl (List.forall_mem_singleton.mpr hcreated) ?_
  rw [List.countP_singleton, List.countP_singleton, hlookup, hrun]

/-- A change of a process keeps its pid and its name. -/
theorem Logged.setProc (h : Logged ps past s ahead) {p : ArenaProcess} (hpid : p.pid = (s.procs i).pid)
    (hname : p.name = (s.procs i).name) : Logged ps past (s.setProc i p) ahead := by
  refine ⟨fun j => ?_, fun j => ?_, h.created, h.lookups, h.trace⟩
  · show (Function.update s.procs i p j).pid = _
    by_cases hj : j = i
    · subst hj
      rw [Function.update_self, hpid, h.pid]
    · rw [Function.update_of_ne hj, h.pid]
  · show (Function.update s.procs i p j).name = _
    by_cases hj : j = i
    · subst hj
      rw [Function.update_self, hname, h.name]
    · rw [Function.update_of_ne hj, h.name]

/-- The scheduling does not matter. -/
theorem Logged.of_eq {t : Main n} (h : Logged ps past s ahead) (hprocs : t.procs = s.procs)
    (hmemory : t.memory = s.memory) : Logged ps past t ahead := by
  refine ⟨?_, ?_, ?_, ?_, ?_⟩
  · rw [hprocs]
    exact h.pid
  · rw [hprocs]
    exact h.name
  · rw [hmemory]
    exact h.created
  · rw [hmemory]
    exact h.lookups
  · rw [hmemory]
    exact h.trace

/-- Putting a process into the queue logs no lookup. -/
theorem Logged.doEnqueue (h : Logged ps past s ahead) (i : Fin n) (preempted : Bool) :
    Logged ps past (s.doEnqueue i preempted) ahead := by
  have hready : Logged ps past (s.setState i .ready) ahead := h.setProc rfl rfl
  have hqueued : Logged ps past ({ s.setState i .ready with
      sched := RoundRobin.add (fun j => ((s.setState i .ready).procs j).toProcess) i s.sched } :
      Main n) ahead := hready.of_eq rfl rfl
  exact hqueued.log trivial rfl rfl

/-- The end of a process logs no lookup. -/
theorem Logged.terminate (h : Logged ps past s ahead) (i : Fin n) :
    Logged ps past (s.terminate i) ahead := by
  have hfreed : ∀ event ∈ (s.memory.vm.terminate (s.procs i).pid).1,
      CreatesOneOf ps event ∧ event.isLookup = false ∧ event.isCpuRun = false := by
    intro event hevent
    rcases List.mem_append.mp hevent with hevent | hevent
    · obtain ⟨f, -, rfl⟩ := List.mem_map.mp hevent
      exact ⟨trivial, rfl, rfl⟩
    · obtain rfl := List.mem_singleton.mp hevent
      exact ⟨trivial, rfl, rfl⟩
  have hmemory : Logged ps past { s with memory := ⟨(s.memory.vm.terminate (s.procs i).pid).2,
      (s.procs i).pid :: s.memory.dead,
      s.memory.log ++ (s.memory.vm.terminate (s.procs i).pid).1⟩ } ahead := by
    refine h.remember (s.memory.vm.terminate (s.procs i).pid).1 rfl
      (fun event hevent => (hfreed event hevent).1) ?_
    rw [List.countP_eq_zero.mpr (fun event hevent => by simp [(hfreed event hevent).2.1]),
      List.countP_eq_zero.mpr (fun event hevent => by simp [(hfreed event hevent).2.2])]
  exact hmemory.setProc rfl rfl

/-- Going to the next burst logs nothing. -/
theorem Logged.advance (h : Logged ps past s ahead) (i : Fin n) : Logged ps past (s.advance i).2 ahead := by
  refine h.setProc ?_ rfl
  show (s.procs i).toProcess.advanceBurst.2.pid = _
  rcases (s.procs i).toProcess.advanceBurst_cases with ⟨-, heq⟩ | ⟨nb, -, heq⟩
  · rw [heq]
  · rw [heq]

/-- The arrivals create processes of the list. -/
theorem Logged.arrivals (h : Logged ps past s ahead) : Logged ps past s.arrivals ahead := by
  unfold Main.arrivals
  generalize List.finRange n = l
  induction l generalizing s with
  | nil => exact h
  | cons i l ih =>
    apply ih
    unfold Main.arrive
    split_ifs
    · simp only [procSegments, List.foldl_cons, List.foldl_nil]
      have hcreated : Logged ps past (s.log (.processCreated (s.procs i).pid (s.procs i).name
          (s.procs i).memBytes 10)) ahead :=
        h.log ⟨i, (h.pid i).symm, (h.name i).symm⟩ rfl rfl
      have hsegment : ∀ {u : Main n} {segment : Segment} {baseVpn numPages : ℕ},
          Logged ps past u ahead →
            Logged ps past (u.log (.segmentCreated (s.procs i).pid segment baseVpn numPages)) ahead :=
        fun hu => hu.log trivial rfl rfl
      exact (hsegment (hsegment (hsegment (hsegment hcreated)))).doEnqueue i false
    · exact h

/-- A process that comes back from I/O logs no lookup. -/
theorem Logged.completeIo (h : Logged ps past s ahead) (i : Fin n) :
    Logged ps past (s.completeIo i) ahead := by
  have hacked : Logged ps past (s.log (.ioAck (s.procs i).pid)) ahead := h.log trivial rfl rfl
  have hadvanced := hacked.advance i
  unfold Main.completeIo
  dsimp only
  generalize (s.log (.ioAck (s.procs i).pid)).advance i = r at hadvanced
  obtain ⟨more, u⟩ := r
  cases more with
  | true => exact hadvanced.doEnqueue i false
  | false => exact hadvanced.terminate i

/-- The I/O completions of a tick log no lookup. -/
theorem Logged.ioCompletions (h : Logged ps past s ahead) : Logged ps past s.ioCompletions ahead := by
  have hloop : ∀ (rest : List (Fin n × ℕ)) (u : Main n), Logged ps past u ahead →
      Logged ps past (Main.ioLoop rest u).2 ahead := by
    intro rest
    induction rest with
    | nil => exact fun u hu => hu
    | cons x rest ih =>
      obtain ⟨i, ticks⟩ := x
      intro u hu
      rw [Main.ioLoop]
      split_ifs
      · exact ih _ (hu.completeIo i)
      · exact ih u hu
  exact (hloop s.ioWaiting s h).of_eq rfl rfl

/-- A preemption logs no lookup. -/
theorem Logged.preempt (h : Logged ps past s ahead) : Logged ps past s.preempt ahead := by
  unfold Main.preempt
  split
  · exact h
  · rename_i i _
    split_ifs
    · exact (h.doEnqueue i true).of_eq rfl rfl
    · exact h

/-- A dispatch logs no lookup. -/
theorem Logged.schedule (h : Logged ps past s ahead) : Logged ps past s.schedule ahead := by
  unfold Main.schedule
  split
  · exact h
  · rcases RoundRobin.pickNext_cases s.processes s.sched with ⟨-, hpick⟩ | ⟨i, q, -, hpick⟩
    · rw [hpick]
      exact h.of_eq rfl rfl
    · have hpicked : Logged ps past ({ s with
          sched := { s.sched with q := q }, running := some i, ranTicks := 0 } : Main n) ahead :=
        h.of_eq rfl rfl
      rw [hpick]
      exact hpicked.log trivial rfl rfl

/-- The end of a burst logs no lookup. -/
theorem Logged.endBurst (h : Logged ps past s ahead) (i : Fin n) :
    Logged ps past (s.endBurst i) ahead := by
  have hadvanced := h.advance i
  unfold Main.endBurst
  generalize s.advance i = r at hadvanced
  obtain ⟨more, u⟩ := r
  cases more with
  | false => exact (hadvanced.terminate i).of_eq rfl rfl
  | true =>
    dsimp only
    split
    · exact hadvanced
    · rename_i nb _
      split_ifs
      · have hlogged : Logged ps past (u.log (.ioRequested (u.procs i).pid nb.ticks)) ahead :=
          hadvanced.log trivial rfl rfl
        have hwaiting := hlogged.setProc (i := i) (p := { u.procs i with state := .waiting })
          rfl rfl
        exact hwaiting.of_eq rfl rfl
      · exact hadvanced

/-- The step on the CPU makes up for the lookup. -/
theorem Logged.execute (h : Logged ps past s (ahead + 1)) (i : Fin n) :
    Logged ps past (s.execute i) ahead := by
  have hlogged : Logged ps past (s.log (.cpuRun (s.procs i).pid
      (min (s.procs i).burstRemaining (sub32 s.sched.quantum s.ranTicks))
      (dec32 (s.procs i).burstRemaining))) ahead := by
    refine h.remember [.cpuRun (s.procs i).pid _ _] rfl (List.forall_mem_singleton.mpr trivial) ?_
    show 0 + (ahead + 1) = 1 + ahead
    omega
  have hticked := hlogged.setProc (i := i)
    (p := { s.procs i with burstRemaining := dec32 (s.procs i).burstRemaining }) rfl rfl
  unfold Main.execute
  dsimp only
  split_ifs
  · refine Logged.endBurst ?_ i
    exact hticked.of_eq rfl rfl
  · exact hticked.of_eq rfl rfl

/-- An access is one lookup. -/
theorem Logged.access {t : Main n} {draw : ℕ × ℕ} (h : Logged ps past s 0) (hlinked : s.Linked)
    (haccess : s.access i draw = some t) : Logged ps past t 1 := by
  obtain ⟨⟨events, vm⟩, hevents, rfl⟩ := Option.map_eq_some_iff.mp haccess
  have hall : (∀ event ∈ events, CreatesOneOf ps event) ∧
      events.countP Event.isLookup + 0 = events.countP Event.isCpuRun + 1 := by
    generalize target (s.procs i).pid s.tick draw = op at hevents
    rcases s.memory.vm.access_cases op with ⟨f, -, heq⟩ | ⟨f, -, -, heq⟩ | ⟨-, -, heq⟩
    · rw [heq] at hevents
      obtain ⟨rfl, rfl⟩ := Prod.mk.inj (Option.some.inj hevents)
      exact ⟨by simp [CreatesOneOf], rfl⟩
    · rw [heq] at hevents
      obtain ⟨rfl, rfl⟩ := Prod.mk.inj (Option.some.inj hevents)
      exact ⟨by simp [CreatesOneOf], rfl⟩
    · rw [heq] at hevents
      rcases hlinked.memory_inv.coherent.fault_cases op with ⟨f, -, hfault⟩ | ⟨f, rest, -, -, hfault⟩
      · rw [hfault] at hevents
        obtain ⟨rfl, rfl⟩ := Prod.mk.inj (Option.some.inj hevents)
        exact ⟨by simp [CreatesOneOf], rfl⟩
      · rw [hfault] at hevents
        obtain ⟨rfl, rfl⟩ := Prod.mk.inj (Option.some.inj hevents)
        exact ⟨by simp [CreatesOneOf], rfl⟩
  exact h.remember events rfl hall.1 hall.2

/-- A tick on the CPU that has been logged is followed by its lookup. -/
theorem Logged.runTick {t : Main n} {draw : ℕ × ℕ} (h : Logged ps past s 0) (hlinked : s.Linked)
    (htick : s.runTick draw = some t) : Logged ps past t 0 := by
  unfold Main.runTick at htick
  split at htick
  · exact Option.some.inj htick ▸ h
  · rename_i i _
    obtain ⟨u, hu, rfl⟩ := Option.map_eq_some_iff.mp htick
    exact (h.access hlinked hu).execute i

/-- Further ticks after a tick. -/
theorem AtTick.logged_of {t : Main n} (hpids : Function.Injective (fun j => (ps j).pid))
    (hne : ∀ j, (ps j).pid ≠ -1) (halternates : ∀ i, (ps i).toProcess.Alternates)
    (hs : AtTick (Main.start ps) s) (h : Logged ps past s 0) (ht : AtTick s t) :
    Logged ps past t 0 := by
  induction ht with
  | start => exact h
  | @next u t draw hu _ hstep ih =>
    -- the memory is linked to the loop when the running process accesses it
    have hat := hs.trans hu
    obtain ⟨hinv, -⟩ := hat.cpuInv hpids halternates
    obtain ⟨h₁, -, hio₁⟩ := hinv.arrivals
    rw [← hio₁] at h₁
    have h₂ : CpuInv ps u.tick u.arrivals.ioCompletions
        (u.arrivals.ioCompletions.ioWaiting.map Prod.fst) := by
      have hcore := Core.Inv.ioCompletions h₁
      rw [← (core_ioCompletions ps u.arrivals).1] at hcore
      exact hcore
    have hlinked := ((((hat.linked hpids hne halternates).1.arrivals).ioCompletions h₁).preempt
      h₂).schedule
    obtain ⟨v, hv, rfl⟩ := Option.map_eq_some_iff.mp hstep
    have hticked := ih.arrivals.ioCompletions.preempt.schedule.runTick hlinked hv
    exact hticked.of_eq rfl rfl

/-- At the start of every tick the lookups are as many as the ticks on the CPU. -/
theorem AtTick.logged (hpids : Function.Injective (fun j => (ps j).pid))
    (hne : ∀ j, (ps j).pid ≠ -1) (halternates : ∀ i, (ps i).toProcess.Alternates)
    (h : AtTick (Main.start ps) s) : Logged ps [] s 0 :=
  AtTick.start.logged_of hpids hne halternates
    ⟨fun _ => rfl, fun _ => rfl, fun _ hevent => absurd hevent List.not_mem_nil, rfl,
      List.nil_prefix⟩ h

/-- **The log only grows.** -/
theorem AtTick.log_prefix {t : Main n} (hpids : Function.Injective (fun j => (ps j).pid))
    (hne : ∀ j, (ps j).pid ≠ -1) (halternates : ∀ i, (ps i).toProcess.Alternates)
    (hs : AtTick (Main.start ps) s) (ht : AtTick s t) : s.memory.log <+: t.memory.log := by
  have hnow : Logged ps s.memory.log s 0 :=
    { hs.logged hpids hne halternates with trace := List.prefix_refl s.memory.log }
  exact (hs.logged_of hpids hne halternates hnow ht).trace

end Main

/-- The page has the frames of the simulator, and its metrics account for all of them. -/
structure Main.Shown {n : ℕ} (s : Main n) (page : Page) : Prop where
  frames : ∀ f, page.frames f = s.memory.vm.frame f
  lookups : page.tlbHits + page.tlbMisses = s.memory.log.countP Event.isCpuRun
  misses : page.tlbMisses = page.pageFaults + s.memory.log.countP Event.isRefill
  faults : page.pageFaults
    = page.frameUsed + page.evictions + s.memory.log.countP Event.isFreed

/-- **From the run of the visualizer to the frames of the page.**  Whatever the random numbers,
the file that is closed after the tick of `t`, the last one of the run for instance, is
loaded; and when the page has gone through the events that were logged by the end of an
earlier tick, it has the frames that the simulator had then, and metrics that add up. -/
theorem eventsFile_shown {n : ℕ} (ps : Fin n → ArenaProcess)
    (hpids : Function.Injective (fun j => (ps j).pid)) (hne : ∀ j, (ps j).pid ≠ -1)
    (halternates : ∀ i, (ps i).toProcess.Alternates) (hnames : ∀ i, Plain (utf8 (ps i).name))
    (s t : Main n) (hs : Main.AtTick (Main.start ps) s) (ht : Main.AtTick s t)
    (entries : List (ℤ × Event)) (hentries : entries.map Prod.snd = t.memory.log) :
    ∃ page, Page.load (eventsFormat.file entries) s.memory.log.length = some page ∧
      s.Shown page := by
  have hlogged := hs.logged hpids hne halternates
  have hcreated := ((hs.trans ht).logged hpids hne halternates).created
  obtain ⟨ops, hops⟩ := (hs.linked hpids hne halternates).1.reaches
  have hmetered := Demo.metered hops
  have hload : eventsFormat.load (eventsFormat.file entries) = some t.memory.log := by
    rw [← hentries]
    apply EventFormat.load_file
    intro x hx
    refine Event.encodable (fun pid name request pages heq => ?_)
    have hone := hcreated x.2 (by
      rw [← hentries]
      exact List.mem_map_of_mem hx)
    rw [heq] at hone
    obtain ⟨i, -, rfl⟩ := hone
    exact hnames i
  refine ⟨replay s.memory.log, ?_, hmetered.frames, ?_, hmetered.balance.misses,
    hmetered.balance.faults⟩
  · rw [Page.load, hload, Option.map_some,
      ← List.prefix_iff_eq_take.mp (hs.log_prefix hpids hne halternates ht)]
  · rw [lookups_replay, hlogged.lookups, Nat.add_zero]

/-- Two processes with more pages than the TLB has entries. -/
def twoProcesses : Fin 2 → ArenaProcess :=
  ![{ pid := 1, name := "init", memBytes := 0, bursts := [⟨.cpu, 16⟩] },
    { pid := 2, name := "shell", arrival := 1, memBytes := 0, bursts := [⟨.cpu, 8⟩] }]

/-- The bursts of the two processes alternate. -/
theorem twoProcesses_alternates : ∀ i, (twoProcesses i).toProcess.Alternates := by
  intro i
  fin_cases i
  · constructor <;> constructor <;> simp [twoProcesses]
  · constructor <;> constructor <;> simp [twoProcesses]

/-- After all but the last tick: four refills, and thirteen faults; eight pages are in frames,
and five have been freed at the end of the second process. -/
theorem twoProcesses_shown :
    ∃ s t page, Main.loop ((List.range 23).map (fun t => (t / 4, 0))) (Main.start twoProcesses)
        = some s ∧
      Main.loop [(0, 0)] s = some t ∧ t.continues = false ∧
      Page.load (eventsFormat.file (t.memory.log.map (fun event => (0, event))))
        s.memory.log.length = some page ∧
      s.Shown page ∧ page.tlbHits + page.tlbMisses = 23 ∧
      page.tlbMisses = page.pageFaults + 4 ∧ page.pageFaults = page.frameUsed + page.evictions + 5 := by
  have hcounts : (Main.loop ((List.range 23).map (fun t => (t / 4, 0)))
      (Main.start twoProcesses)).bind (fun s => (Main.loop [(0, 0)] s).map (fun t =>
        (t.continues, s.memory.log.countP Event.isCpuRun, s.memory.log.countP Event.isRefill,
          s.memory.log.countP Event.isFreed)))
      = some (false, 23, 4, 5) := by decide +kernel
  obtain ⟨s, hs, hrest⟩ := Option.bind_eq_some_iff.mp hcounts
  obtain ⟨t, ht, hcounts⟩ := Option.map_eq_some_iff.mp hrest
  obtain ⟨hends, hcounts⟩ := Prod.mk.inj hcounts
  obtain ⟨hruns, hcounts⟩ := Prod.mk.inj hcounts
  obtain ⟨hrefills, hfreed⟩ := Prod.mk.inj hcounts
  obtain ⟨page, hload, hshown⟩ := eventsFile_shown twoProcesses (by decide) (by decide)
    twoProcesses_alternates (by decide +kernel) s t (Main.atTick_loop .start _ hs)
    (Main.atTick_loop .start _ ht) (t.memory.log.map (fun event => (0, event)))
    (by rw [List.map_map]; exact List.map_id _)
  refine ⟨s, t, page, hs, ht, hends, hload, hshown, ?_, ?_, ?_⟩
  · rw [hshown.lookups, hruns]
  · rw [hshown.misses, hrefills]
  · rw [hshown.faults, hfreed]

end Visualizer
