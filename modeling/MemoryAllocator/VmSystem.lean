/-
# `vm_sim_main.cpp`: the virtual memory system

One reference goes through the TLB, then the page table, and on a page fault through the
frame allocator or the replacement policy.  A policy may be undefined on a victim, so
that references are optional values.

A hash map is a function from its keys where only its values are read.  Where the source
loops over one (the page tables, when the owner of a frame is looked for, and the TLB,
when it is full) it comes with its keys in order of insertion: the loop over the page
tables finds at most one page, and the TLB is searched for its oldest entry.

The counters of faults and hits are natural numbers: a run of `2 ^ 64` references is out
of reach.  The stamps of the TLB wrap around.  The costs, which nothing else depends on,
are 64-bit words as they are in the source, and the two rates of a run are rational
numbers.
-/
import MemoryAllocator.Replacement

namespace Memlab

/-! ## Frames -/

/-- The number of frames, and the free ones in the order in which they are taken. -/
structure FrameAllocator where
  total : ℕ
  free : List ℕ

namespace FrameAllocator

/-- At the start every frame is free. -/
def create (totalFrames : ℕ) : FrameAllocator := ⟨totalFrames, List.range totalFrames⟩

/-- Some frame is free. -/
def hasFree (a : FrameAllocator) : Bool := !a.free.isEmpty

/-- `alloc`, undefined where the source throws. -/
def alloc (a : FrameAllocator) : Option (ℕ × FrameAllocator) :=
  match a.free with
  | [] => none
  | f :: free => some (f, { a with free := free })

end FrameAllocator

/-! ## Page tables -/

/-- One page table entry. -/
structure PTE where
  frame : ℕ := 0
  present : Bool := false
  dirty : Bool := false
  referenced : Bool := false
  deriving DecidableEq, Repr

/-- A page table, as what `lookup` finds. -/
abbrev PageTable := ℕ → Option PTE

/-- A page of a process: `(pid, vpn)`. -/
abbrev Page := ℤ × ℕ

/-! ## The TLB -/

/-- An entry of the TLB, with the time of its last use. -/
structure Entry where
  frame : ℕ
  stamp : ℕ
  deriving DecidableEq, Repr

/-- The capacity, the entries by pid and page, and the clock that orders their uses. -/
structure TLB where
  cap : ℕ
  clock : ℕ := 0
  hits : ℕ := 0
  misses : ℕ := 0
  map : List (Page × Entry) := []
  deriving DecidableEq, Repr

namespace TLB

/-- The clock after one more use. -/
def tick (t : TLB) : ℕ := (t.clock + 1) % 2 ^ 64

/-- Store an entry under a key that is in the map. -/
def store (t : TLB) (key : Page) (entry : Entry) : TLB :=
  { t with
    clock := entry.stamp
    map := t.map.map (fun kv => if kv.1 = key then (key, entry) else kv) }

/-- A hit writes the time of the entry; a miss only moves the clock. -/
def lookup (t : TLB) (pid : ℤ) (vpn : ℕ) : Option ℕ × TLB :=
  match t.map.find? (fun kv => kv.1 = (pid, vpn)) with
  | none => (none, t)
  | some (_, entry) =>
    (some entry.frame, { t.store (pid, vpn) ⟨entry.frame, t.tick⟩ with hits := t.hits + 1 })

/-- One round of the search for the least recently used entry. -/
def older (oldest it : Page × Entry) : Page × Entry :=
  if it.2.stamp < oldest.2.stamp then it else oldest

/-- The entry that was used least recently goes. -/
def evict (t : TLB) : TLB :=
  match t.map with
  | [] => t
  | first :: _ => { t with map := t.map.erase (t.map.foldl older first) }

/-- A full TLB evicts first, unless the page is there already. -/
def insert (t : TLB) (pid : ℤ) (vpn frame : ℕ) : TLB :=
  if t.map.any (fun kv => kv.1 = (pid, vpn)) then t.store (pid, vpn) ⟨frame, t.tick⟩
  else
    let t := if t.map.length ≥ t.cap then t.evict else t
    { t with clock := t.tick, map := t.map ++ [((pid, vpn), ⟨frame, t.tick⟩)] }

/-- The entry of the page goes. -/
def invalidate (t : TLB) (pid : ℤ) (vpn : ℕ) : TLB :=
  { t with map := t.map.filter (fun kv => kv.1 ≠ (pid, vpn)) }

/-- Flush all entries for a given pid. -/
def flushPid (t : TLB) (pid : ℤ) : TLB := { t with map := t.map.filter (fun kv => kv.1.1 ≠ pid) }

/-- A miss, counted by the caller of `lookup`. -/
def countMiss (t : TLB) : TLB := { t with misses := t.misses + 1 }

end TLB

/-! ## The system -/

/-- The costs of a walk, in nanoseconds. -/
structure CostModel where
  tlbNs : UInt64 := 1
  memNs : UInt64 := 100
  diskNs : UInt64 := 10000000
  deriving DecidableEq

/-- What an access reports. -/
structure AccessResult where
  tlbHit : Bool := false
  pageFault : Bool := false
  evicted : Bool := false
  dirtyEvict : Bool := false
  costNs : UInt64 := 0
  deriving DecidableEq

/-- The arguments of a call of `access`. -/
structure Access where
  pid : ℤ
  vpn : ℕ
  isWrite : Bool
  deriving DecidableEq, Repr

/-- The page that an access is for. -/
def Access.page (op : Access) : Page := (op.pid, op.vpn)

/-- The frames, the TLB, the page table, the policy and the counters. -/
structure VMSystem (σ : Type*) where
  policy : σ
  costs : CostModel := {}
  tlb : TLB := { cap := 64 }
  frameAlloc : FrameAllocator
  pids : List ℤ := []
  pageTables : ℤ → PageTable := fun _ _ => none
  loadedVpns : ℤ → List ℕ := fun _ => []
  faults : ℕ := 0
  hits : ℕ := 0

namespace VMSystem

variable {σ : Type*}

/-- The system before the first access. -/
def create (frames : ℕ) (policy : σ) (costs : CostModel) : VMSystem σ :=
  { policy := policy, costs := costs, frameAlloc := FrameAllocator.create frames }

variable (R : IReplacement σ) (v : VMSystem σ)

/-- `_page_tables[pid]` adds an empty table for a new process. -/
def touch (pid : ℤ) : VMSystem σ :=
  { v with pids := if pid ∈ v.pids then v.pids else v.pids ++ [pid] }

/-- Store an entry of a page table. -/
def setPte (pid : ℤ) (vpn : ℕ) (pte : PTE) : VMSystem σ :=
  { v with
    pageTables :=
      Function.update v.pageTables pid (Function.update (v.pageTables pid) vpn (some pte)) }

/-- The page `vpn` of the process is in the given frame. -/
def inFrame (pid : ℤ) (frame vpn : ℕ) : Bool :=
  match v.pageTables pid vpn with
  | some pte => pte.present ∧ pte.frame = frame
  | none => false

/-- One round of the search for the page in the victim's frame: take the page out of the
page table, the TLB and the list of loaded pages. -/
def invalidateIn (frame : ℕ) (rv : AccessResult × VMSystem σ) (pid : ℤ) :
    AccessResult × VMSystem σ :=
  let r := rv.1
  let v := rv.2
  match (v.loadedVpns pid).find? (v.inFrame pid frame) with
  | none => rv
  | some vpn =>
    let pte := (v.pageTables pid vpn).getD {}
    let r := if pte.dirty then
        { r with dirtyEvict := true, costNs := r.costNs + v.costs.diskNs } else r
    let v := v.setPte pid vpn { pte with present := false }
    (r, { v with
      tlb := v.tlb.invalidate pid vpn
      loadedVpns := Function.update v.loadedVpns pid ((v.loadedVpns pid).erase vpn) })

/-- The last part of `access`: load the page into the frame. -/
def loadPage (op : Access) (frame : ℕ) (r : AccessResult) : AccessResult × VMSystem σ :=
  let v := v.setPte op.pid op.vpn
    { frame := frame, present := true, referenced := true, dirty := op.isWrite }
  ({ r with costNs := r.costNs + v.costs.diskNs + v.costs.memNs },
    { v with
      tlb := v.tlb.insert op.pid op.vpn frame
      policy := R.onLoad frame v.policy
      loadedVpns := Function.update v.loadedVpns op.pid (v.loadedVpns op.pid ++ [op.vpn]) })

/-- The page fault of `access`. -/
def fault (op : Access) (r : AccessResult) : Option (AccessResult × VMSystem σ) :=
  let r := { r with pageFault := true }
  let v := { v with faults := v.faults + 1 }
  match v.frameAlloc.alloc with
  | some (frame, frameAlloc) =>
    some (loadPage R { v with frameAlloc := frameAlloc } op frame r)
  | none =>
    match R.victim v.policy with
    | none => none
    | some (frame, policy) =>
      let rv := v.pids.foldl (invalidateIn frame) ({ r with evicted := true }, { v with policy := policy })
      some (loadPage R { rv.2 with policy := R.onEvict frame rv.2.policy } op frame rv.1)

/-- `access` from the page table walk on. -/
def walk (op : Access) : Option (AccessResult × VMSystem σ) :=
  let r : AccessResult := { costNs := v.costs.tlbNs }
  let v := v.touch op.pid
  match v.pageTables op.pid op.vpn with
  | none => fault R v op r
  | some pte =>
    if pte.present then
      let v' := v.setPte op.pid op.vpn
        { pte with referenced := true, dirty := pte.dirty || op.isWrite }
      some ({ r with costNs := r.costNs + v.costs.memNs },
        { v' with
          tlb := v.tlb.insert op.pid op.vpn pte.frame
          policy := R.onAccess pte.frame v.policy
          hits := v.hits + 1 })
    else fault R v op r

/-- The branch of `access` for a TLB hit. -/
def tlbHit (op : Access) (frame : ℕ) : AccessResult × VMSystem σ :=
  let r : AccessResult := { tlbHit := true, costNs := v.costs.tlbNs + v.costs.memNs }
  let v :=
    if op.isWrite then
      let v := v.touch op.pid
      match v.pageTables op.pid op.vpn with
      | some pte => v.setPte op.pid op.vpn { pte with dirty := true }
      | none => v
    else v
  (r, { v with policy := R.onAccess frame v.policy, hits := v.hits + 1 })

/-- A hit of the TLB, or a walk after a miss has been counted. -/
def access (op : Access) : Option (AccessResult × VMSystem σ) :=
  match v.tlb.lookup op.pid op.vpn with
  | (some frame, tlb) => some (tlbHit R { v with tlb := tlb } op frame)
  | (none, tlb) => walk R { v with tlb := tlb.countMiss } op

end VMSystem

/-- A sequence of calls, with the results. -/
def VMSystem.runWith {σ : Type*}
    (call : VMSystem σ → Access → Option (AccessResult × VMSystem σ)) :
    VMSystem σ → List Access → Option (List AccessResult × VMSystem σ)
  | v, [] => some ([], v)
  | v, op :: ops =>
    match call v op with
    | none => none
    | some (r, v) =>
      match runWith call v ops with
      | none => none
      | some (rs, v) => some (r :: rs, v)

namespace VMSystem

variable {σ : Type*} (R : IReplacement σ) (v : VMSystem σ)

/-- A sequence of calls of `access`. -/
def run (ops : List Access) : Option (List AccessResult × VMSystem σ) := runWith (access R) v ops

/-- The accesses that have been counted. -/
def total : ℕ := v.hits + v.faults

/-- The faults among the accesses. -/
def faultRate : ℚ := if v.total > 0 then v.faults / v.total else 0

/-- The effective access time, from the counters. -/
def eatNs (cm : CostModel) : ℚ :=
  (1 - v.faultRate) * (cm.tlbNs + cm.memNs).toNat + v.faultRate * (cm.diskNs + cm.memNs).toNat

end VMSystem

/-! ## Runs of a trace -/

/-- What a run of the simulator reports. -/
structure RunResult where
  policyName : String
  frames : ℕ
  workload : String
  faults : ℕ
  total : ℕ
  faultRate : ℚ
  eatNs : ℚ

/-- The references of `run_sim`: reads by process 1. -/
def reads (trace : List ℕ) : List Access := trace.map (fun vpn => ⟨1, vpn, false⟩)

/-- Every page of the trace is accessed for reading, and the counters are read at
the end. -/
def runSim {σ : Type*} (wlName : String) (trace : List ℕ) (frames : ℕ) (R : IReplacement σ)
    (policy : σ) (cm : CostModel) : Option RunResult :=
  match VMSystem.run R (VMSystem.create frames policy cm) (reads trace) with
  | none => none
  | some (_, vm) => some
    { policyName := R.name, frames := frames, workload := wlName
      faults := vm.faults, total := vm.total, faultRate := vm.faultRate, eatNs := vm.eatNs cm }

end Memlab
