/-
# Effective access time

`access` charges the references one by one, `eat_ns` computes an average from the two
counters of the run.  For runs that only read, `run_reads` says what the references cost
altogether: so many hits at one price, so many faults at another.  The price of a fault
differs from the one in the formula by the TLB lookup, which `access` charges on every
way through it.
-/
import MemoryAllocator.VmWriteBack

namespace Memlab

namespace VMSystem

variable {σ : Type*} {R : IReplacement σ} {v w : VMSystem σ} {s t : Paging.Pager Page σ}
  {op : Access} {r : AccessResult} {rs : List AccessResult} {o : Paging.Outcome Page}

/-- What the references have cost, added up without wrap-around. -/
def totalCost (rs : List AccessResult) : ℕ := (rs.map (fun r => r.costNs.toNat)).sum

theorem totalCost_append_singleton :
    totalCost (rs ++ [r]) = totalCost rs + r.costNs.toNat := by
  simp [totalCost]

/-! ## One reference -/

/-- A reference counts as a hit or as a fault. -/
theorem Refines.access_counts (h : Refines v s) (hcoherent : v.tlb.Coherent v.frameOf)
    (hstep : Paging.Step R.toPolicy s op.page o t)
    (haccess : VMSystem.access R v op = some (r, w)) :
    w.hits = v.hits + (if o.isFault then 0 else 1) ∧
      w.faults = v.faults + (if o.isFault then 1 else 0) := by
  rcases h.access (R := R) hcoherent op with ⟨-, -, hnone⟩ |
    ⟨o', t', r', w', hsome, hstep', -, -, hreports⟩
  · rw [hnone] at haccess
    cases haccess
  · obtain ⟨rfl, rfl⟩ : r' = r ∧ w' = w := by simpa using hsome.symm.trans haccess
    have hfault : o'.isFault = o.isFault := by
      rw [Bool.eq_iff_iff, hstep'.isFault_iff, hstep.isFault_iff]
    rw [← hfault]
    exact ⟨hreports.hits_eq, hreports.faults_eq⟩

/-- The price of a reference that writes nothing back. -/
def readCost (cm : CostModel) (isFault : Bool) : UInt64 :=
  cm.tlbNs + cm.memNs + if isFault then cm.diskNs else 0

/-- **A read** where no page is dirty: nothing is written back, and no page is dirty
after it. -/
theorem Marks.of_read (h : Marks v w op r o) (hread : op.isWrite = false)
    (hclean : ∀ pg, v.dirty pg = false) :
    r.costNs = readCost v.costs o.isFault ∧ ∀ pg, w.dirty pg = false := by
  constructor
  · have hflag : r.dirtyEvict = false := by
      rw [h.dirtyEvict_eq]
      cases o.evicted with
      | none => rfl
      | some pg => exact hclean pg
    rw [h.costNs_eq, hflag]
    exact UInt64.add_zero _
  · intro pg
    rw [h.dirty_eq, hread, hclean pg]
    simp

/-! ## Runs that only read -/

/-- **What a run of reads has counted and charged**: every reference is a hit or a fault
and has the price of one; the first one is a fault. -/
theorem run_reads {n : ℕ} {init : σ} {costs : CostModel} {ops : List Access}
    (hreads : ∀ op ∈ ops, op.isWrite = false)
    (hrun : run R (create n init costs) ops = some (rs, v)) :
    (∀ pg, v.dirty pg = false) ∧
      totalCost rs
        = v.hits * (readCost costs false).toNat + v.faults * (readCost costs true).toNat ∧
      (v.faults = 0 → ops = []) := by
  induction ops using List.reverseRecOn generalizing rs v with
  | nil =>
    obtain ⟨rfl, rfl⟩ : [] = rs ∧ create n init costs = v := by simpa [run, runWith] using hrun
    exact ⟨fun pg => rfl, by simp [totalCost, create], fun _ => rfl⟩
  | append_singleton ops op ih =>
    obtain ⟨rs', u, r, hrun', haccess, rfl⟩ := run_append_singleton hrun
    obtain ⟨hclean, hcost, hfirst⟩ := ih (fun op hop => hreads op (by simp [hop])) hrun'
    obtain ⟨outs, s, hu⟩ := run_refines hrun'
    obtain ⟨o, t, hstep, -⟩ := hu.access haccess
    have hmarks := hu.refines.access_marks hu.coherent hstep haccess
    obtain ⟨hhits, hfaults⟩ := hu.refines.access_counts hu.coherent hstep haccess
    obtain ⟨hprice, hclean'⟩ := hmarks.of_read (hreads op (by simp)) hclean
    rw [run_costs hrun'] at hprice
    refine ⟨hclean', ?_, ?_⟩
    · rw [totalCost_append_singleton, hcost, hprice, hhits, hfaults]
      cases o.isFault <;> simp only [if_true, if_false, Bool.false_eq_true] <;> ring
    · intro hnone
      rw [hfaults] at hnone
      -- without a fault so far there was no reference, and no page is in a frame
      obtain rfl := hfirst (by omega)
      obtain ⟨rfl, rfl⟩ : [] = rs' ∧ create n init costs = u := by simpa [run, runWith] using hrun'
      have hnot : ¬ s.Holds op.page := by
        rw [hu.refines.holds_iff]
        simp [create, frameOf]
      rw [if_pos (hstep.isFault_iff.mpr hnot)] at hnone
      omega

/-! ## The formula -/

/-- The average of the formula, times the number of references. -/
theorem total_mul_eatNs (cm : CostModel) (h : 0 < v.total) :
    v.total * v.eatNs cm =
      v.hits * ((cm.tlbNs + cm.memNs).toNat : ℚ)
        + v.faults * ((cm.diskNs + cm.memNs).toNat : ℚ) := by
  have htotal : (v.total : ℚ) = v.hits + v.faults := by
    rw [total]
    push_cast
    rfl
  have hne : (v.total : ℚ) ≠ 0 := by exact_mod_cast h.ne'
  have hhits : (v.hits : ℚ) = v.total - v.faults := by rw [htotal]; ring
  rw [eatNs, faultRate, if_pos h, hhits]
  field_simp

/-- The prices of a fault agree exactly if the TLB costs nothing. -/
theorem readCost_eq_iff (cm : CostModel) :
    cm.diskNs + cm.memNs = readCost cm true ↔ cm.tlbNs = 0 := by
  have hcost : readCost cm true = cm.tlbNs + (cm.diskNs + cm.memNs) := by
    show cm.tlbNs + cm.memNs + cm.diskNs = _
    ac_rfl
  rw [hcost]
  constructor
  · intro heq
    have hsub := congrArg (fun c => c - (cm.diskNs + cm.memNs)) heq
    simpa [UInt64.add_sub_cancel] using hsub.symm
  · intro hzero
    rw [hzero, UInt64.zero_add]

end VMSystem

/-- **When the effective access time is the measured one.**  Whatever the replacement
policy, the frames and the costs, when a sequence of reads that is not empty returns,
`total() * eat_ns` is the sum of the costs of the references exactly if a TLB lookup costs
nothing; and with each of the four policies and any positive number of frames it returns. -/
theorem eat_matches_cost_iff (cm : CostModel) (ops : List Access) (hops : ops ≠ [])
    (hreads : ∀ op ∈ ops, op.isWrite = false) :
    (∀ {σ : Type*} (R : IReplacement σ) (frames : ℕ) (init : σ) (rs : List AccessResult)
      (v : VMSystem σ), VMSystem.run R (VMSystem.create frames init cm) ops = some (rs, v) →
        (v.total * v.eatNs cm = (VMSystem.totalCost rs : ℚ) ↔ cm.tlbNs = 0)) ∧
      ∀ (k : PolicyKind) (frames : ℕ), 1 ≤ frames →
        ∃ rs v, VMSystem.run k.replacement (VMSystem.create frames k.initial cm) ops
          = some (rs, v) := by
  refine ⟨fun R frames init rs v hrun => ?_, fun k frames hframes =>
    VMSystem.run_returns k.tracks k.tracks_initial hframes cm ops⟩
  obtain ⟨-, hcost, hfirst⟩ := VMSystem.run_reads hreads hrun
  have hfaults : v.faults ≠ 0 := fun hnone => hops (hfirst hnone)
  have htotal : 0 < v.total := by
    rw [VMSystem.total]
    omega
  rw [VMSystem.total_mul_eatNs cm htotal, hcost, ← VMSystem.readCost_eq_iff cm, ← UInt64.toNat_inj]
  have hhit : VMSystem.readCost cm false = cm.tlbNs + cm.memNs := UInt64.add_zero _
  rw [hhit]
  constructor
  · intro heq
    have hnat : v.faults * (cm.diskNs + cm.memNs).toNat
        = v.faults * (VMSystem.readCost cm true).toNat := by
      have hsum : v.hits * (cm.tlbNs + cm.memNs).toNat + v.faults * (cm.diskNs + cm.memNs).toNat
          = v.hits * (cm.tlbNs + cm.memNs).toNat
            + v.faults * (VMSystem.readCost cm true).toNat := by exact_mod_cast heq
      exact Nat.add_left_cancel hsum
    exact Nat.eq_of_mul_eq_mul_left (Nat.pos_of_ne_zero hfaults) hnat
  · intro heq
    rw [heq]
    push_cast
    rfl

/-- Reads with a TLB hit, a hit in the page table and an eviction. -/
def mixedReads : List Access :=
  [⟨1, 0, false⟩, ⟨1, 0, false⟩, ⟨1, 1, false⟩, ⟨2, 0, false⟩, ⟨1, 1, false⟩]

/-- With a TLB that costs nothing, the two agree. -/
theorem mixedReads_eat_matches_cost :
    ∃ rs v, VMSystem.run PolicyKind.lru.replacement
        (VMSystem.create 2 PolicyKind.lru.initial { tlbNs := 0 }) mixedReads = some (rs, v) ∧
      v.total * v.eatNs { tlbNs := 0 } = (VMSystem.totalCost rs : ℚ) := by
  obtain ⟨hmatches, hreturns⟩ := eat_matches_cost_iff { tlbNs := 0 } mixedReads (by decide)
    (by decide)
  obtain ⟨rs, v, hrun⟩ := hreturns .lru 2 (by decide)
  exact ⟨rs, v, hrun, (hmatches _ 2 _ rs v hrun).mpr rfl⟩

/-- With the default costs, a single read costs 10000101 ns, and the formula gives
10000100 ns. -/
theorem singleRead_eat_misses_lookup :
    ∃ rs v, VMSystem.run PolicyKind.fifo.replacement
        (VMSystem.create 1 PolicyKind.fifo.initial {}) [⟨1, 0, false⟩] = some (rs, v) ∧
      VMSystem.totalCost rs = 10000101 ∧ v.total * v.eatNs {} = 10000100 ∧
      v.total * v.eatNs {} ≠ (VMSystem.totalCost rs : ℚ) := by
  have hvalues : (VMSystem.run PolicyKind.fifo.replacement
        (VMSystem.create 1 PolicyKind.fifo.initial {}) [⟨1, 0, false⟩]).map
          (fun rv => (VMSystem.totalCost rv.1, (rv.2.total : ℚ) * rv.2.eatNs {}))
      = some (10000101, 10000100) := by decide +kernel
  obtain ⟨⟨rs, v⟩, hrun, heq⟩ := Option.map_eq_some_iff.mp hvalues
  obtain ⟨hcost, heat⟩ := Prod.mk.inj heq
  refine ⟨rs, v, hrun, hcost, heat, ?_⟩
  rw [heat, hcost]
  norm_num

end Memlab
