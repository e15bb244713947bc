/-
# From the trace file of the contiguous demo to the drawing of its page

The demo writes its events into a file, which is closed when the demo ends.  Then
`contiguous.html` loads the file and goes through the events, one for each click on `Step`.
When it has come to the end of a tick, it displays the arena as it was at that tick
(`arenaFile_displayed`).
-/
import MemoryAllocator.ContiguousDisplay
import MemoryAllocator.TraceFiles

open JsonText EventLog

namespace Memlab

/-! ## The file -/

/-- The call of `TraceWriter::log` for an event. -/
def ArenaEvent.call (tick : ℤ) : ArenaEvent → LogCall
  | .processCreated pid name memoryRequest =>
    logCall tick "process_created" pid
      [("name", .str (utf8 name)), ("memoryRequest", .num memoryRequest)]
  | .memoryAllocated pid offset size =>
    logCall tick "memory_allocated" pid [("offset", .num offset), ("size", .num size)]
  | .memoryFreed pid offset size =>
    logCall tick "memory_freed" pid [("offset", .num offset), ("size", .num size)]
  | .processReady pid true =>
    logCall tick "process_ready" pid [("reason", .str (utf8 "preempted"))]
  | .processReady pid false => logCall tick "process_ready" pid []
  | .processScheduled pid burstIndex =>
    logCall tick "process_scheduled" pid [("burstIndex", .num burstIndex)]
  | .cpuRun pid ticks remaining =>
    logCall tick "cpu_run" pid [("ticks", .num ticks), ("remaining", .num remaining)]
  | .ioRequested pid ioTicks => logCall tick "io_requested" pid [("ioTicks", .num ioTicks)]
  | .ioAck pid => logCall tick "io_ack" pid []
  | .processTerminated pid => logCall tick "process_terminated" pid []

/-- The event that the page sees in an object. -/
def ArenaEvent.read (v : Json) : Option ArenaEvent := do
  let type ← stringProperty v "type"
  let pid ← intProperty v "pid"
  if type = "process_created" then
    return .processCreated pid (← stringProperty v "name") (← natProperty v "memoryRequest")
  else if type = "memory_allocated" then
    return .memoryAllocated pid (← natProperty v "offset") (← natProperty v "size")
  else if type = "memory_freed" then
    return .memoryFreed pid (← natProperty v "offset") (← natProperty v "size")
  else if type = "process_ready" then
    return .processReady pid (stringProperty v "reason" = some "preempted")
  else if type = "process_scheduled" then
    return .processScheduled pid (← natProperty v "burstIndex")
  else if type = "cpu_run" then
    return .cpuRun pid (← natProperty v "ticks") (← natProperty v "remaining")
  else if type = "io_requested" then
    return .ioRequested pid (← natProperty v "ioTicks")
  else if type = "io_ack" then return .ioAck pid
  else if type = "process_terminated" then return .processTerminated pid
  else none

theorem ArenaEvent.plainNames (tick : ℤ) (e : ArenaEvent) : (e.call tick).PlainNames := by
  have hwords : ∀ word ∈ ["process_created", "name", "memoryRequest", "memory_allocated", "offset",
      "size", "memory_freed", "process_ready", "reason", "process_scheduled", "burstIndex", "cpu_run",
      "ticks", "remaining", "io_requested", "ioTicks", "io_ack", "process_terminated"],
      Plain (utf8 word) := by decide +kernel
  simp only [List.forall_mem_cons] at hwords
  rcases e with _ | _ | _ | ⟨pid, _ | _⟩ | _ | _ | _ | _ | _ <;>
    (apply plainNames_logCall; simp [hwords])

theorem ArenaEvent.read_call {tick : ℤ} {e : ArenaEvent} {v : Json}
    (h : (e.call tick).Decodes v) : ArenaEvent.read v = some e := by
  cases e with
  | processCreated pid name memoryRequest =>
    have htype : stringProperty v "type" = some "process_created" := h.string (field_logCall ..)
    have hpid : intProperty v "pid" = some pid := h.int (field_logCall ..)
    have hname : stringProperty v "name" = some name := h.string (field_logCall ..)
    have hrequest : natProperty v "memoryRequest" = some memoryRequest := h.nat (field_logCall ..)
    simp [ArenaEvent.read, htype, hpid, hname, hrequest]
  | memoryAllocated pid offset size =>
    have htype : stringProperty v "type" = some "memory_allocated" := h.string (field_logCall ..)
    have hpid : intProperty v "pid" = some pid := h.int (field_logCall ..)
    have hoffset : natProperty v "offset" = some offset := h.nat (field_logCall ..)
    have hsize : natProperty v "size" = some size := h.nat (field_logCall ..)
    simp [ArenaEvent.read, htype, hpid, hoffset, hsize]
  | memoryFreed pid offset size =>
    have htype : stringProperty v "type" = some "memory_freed" := h.string (field_logCall ..)
    have hpid : intProperty v "pid" = some pid := h.int (field_logCall ..)
    have hoffset : natProperty v "offset" = some offset := h.nat (field_logCall ..)
    have hsize : natProperty v "size" = some size := h.nat (field_logCall ..)
    simp [ArenaEvent.read, htype, hpid, hoffset, hsize]
  | processReady pid preempted =>
    cases preempted with
    | true =>
      have htype : stringProperty v "type" = some "process_ready" := h.string (field_logCall ..)
      have hpid : intProperty v "pid" = some pid := h.int (field_logCall ..)
      have hreason : stringProperty v "reason" = some "preempted" := h.string (field_logCall ..)
      simp [ArenaEvent.read, htype, hpid, hreason]
    | false =>
      have htype : stringProperty v "type" = some "process_ready" := h.string (field_logCall ..)
      have hpid : intProperty v "pid" = some pid := h.int (field_logCall ..)
      have hreason : stringProperty v "reason" = none := h.absent (field_logCall ..)
      simp [ArenaEvent.read, htype, hpid, hreason]
  | processScheduled pid burstIndex =>
    have htype : stringProperty v "type" = some "process_scheduled" := h.string (field_logCall ..)
    have hpid : intProperty v "pid" = some pid := h.int (field_logCall ..)
    have hburst : natProperty v "burstIndex" = some burstIndex := h.nat (field_logCall ..)
    simp [ArenaEvent.read, htype, hpid, hburst]
  | cpuRun pid ticks remaining =>
    have htype : stringProperty v "type" = some "cpu_run" := h.string (field_logCall ..)
    have hpid : intProperty v "pid" = some pid := h.int (field_logCall ..)
    have hticks : natProperty v "ticks" = some ticks := h.nat (field_logCall ..)
    have hremaining : natProperty v "remaining" = some remaining := h.nat (field_logCall ..)
    simp [ArenaEvent.read, htype, hpid, hticks, hremaining]
  | ioRequested pid ioTicks =>
    have htype : stringProperty v "type" = some "io_requested" := h.string (field_logCall ..)
    have hpid : intProperty v "pid" = some pid := h.int (field_logCall ..)
    have hticks : natProperty v "ioTicks" = some ioTicks := h.nat (field_logCall ..)
    simp [ArenaEvent.read, htype, hpid, hticks]
  | ioAck pid =>
    have htype : stringProperty v "type" = some "io_ack" := h.string (field_logCall ..)
    have hpid : intProperty v "pid" = some pid := h.int (field_logCall ..)
    simp [ArenaEvent.read, htype, hpid]
  | processTerminated pid =>
    have htype : stringProperty v "type" = some "process_terminated" := h.string (field_logCall ..)
    have hpid : intProperty v "pid" = some pid := h.int (field_logCall ..)
    simp [ArenaEvent.read, htype, hpid]

/-- The format of the file `contiguous_events.json`. -/
def arenaFormat : EventFormat ArenaEvent where
  call := ArenaEvent.call
  read := ArenaEvent.read
  names := ArenaEvent.plainNames
  read_call := ArenaEvent.read_call

/-- The page that has loaded a file, after as many clicks on `Step`. -/
def ArenaPage.load (text : Bytes) (clicks : ℕ) : Option ArenaPage :=
  (arenaFormat.load text).map (fun events => replayArena (events.take clicks))

/-- Only the name of a process can have something to be escaped. -/
theorem ArenaEvent.encodable {e : ArenaEvent} {tick : ℤ}
    (h : ∀ pid name size, e = .processCreated pid name size → Plain (utf8 name)) :
    (e.call tick).Encodable := by
  cases e with
  | processCreated pid name memoryRequest =>
    refine encodable_logCall (fun f hf => ?_)
    rcases List.mem_cons.mp hf with rfl | hf
    · exact ⟨wellFormed_iff.mpr ⟨name, rfl⟩, h pid name memoryRequest rfl⟩
    · obtain rfl := List.mem_singleton.mp hf
      exact trivial
  | processReady pid preempted =>
    cases preempted with
    | true =>
      refine encodable_logCall (fun f hf => ?_)
      obtain rfl := List.mem_singleton.mp hf
      exact ⟨by decide +kernel, by decide +kernel⟩
    | false => exact encodable_logCall (fun f hf => absurd hf List.not_mem_nil)
  | _ =>
    apply encodable_logCall
    simp [FieldValue.Encodable]

end Memlab
