/-
# No write is lost

The system writes a page back to the disk when it evicts it with the dirty bit set.  The
bit is set on three ways through `access` (after a TLB hit, after a walk and by a page
fault), and a page fault resets it in an entry that the eviction has left in the page
table.  `Marks` says what one call does to the bits of all pages and what it reports and
charges; by induction over the calls, the bit of a page in a frame says whether the page
has been written since the fault that loaded it (`RunRefines.dirty_iff`).
-/
import MemoryAllocator.VmInvariant

namespace Memlab

namespace VMSystem

variable {σ : Type*} {R : IReplacement σ} {v w : VMSystem σ} {s t : Paging.Pager Page σ}
  {op : Access} {r r' : AccessResult} {o : Paging.Outcome Page} {frame : ℕ}

/-! ## Dirty bits -/

/-- The dirty bit of a page. -/
def dirty (v : VMSystem σ) (pg : Page) : Bool :=
  match v.pageTables pg.1 pg.2 with
  | some pte => pte.dirty
  | none => false

theorem dirty_setPte (pid : ℤ) (vpn : ℕ) (pte : PTE) (pg : Page) :
    (v.setPte pid vpn pte).dirty pg = if pg = (pid, vpn) then pte.dirty else v.dirty pg := by
  obtain ⟨pid', vpn'⟩ := pg
  unfold dirty setPte
  by_cases hpid : pid' = pid
  · subst hpid
    by_cases hvpn : vpn' = vpn
    · subst hvpn
      simp
    · simp [hvpn]
  · simp [hpid]

/-- What a call does to the dirty bits, for the outcome of the pager's step, and what it
reports and charges. -/
structure Marks (v w : VMSystem σ) (op : Access) (r : AccessResult)
    (o : Paging.Outcome Page) : Prop where
  dirty_eq : ∀ pg, w.dirty pg =
    if pg = op.page then (!o.isFault && v.dirty pg) || op.isWrite else v.dirty pg
  dirtyEvict_eq : r.dirtyEvict = o.evicted.any v.dirty
  costNs_eq : r.costNs = v.costs.tlbNs + v.costs.memNs +
    (if o.isFault then v.costs.diskNs else 0) + if r.dirtyEvict then v.costs.diskNs else 0
  costs_eq : w.costs = v.costs

/-! ## One call -/

/-- The search for the owner of the victim's frame leaves the dirty bits alone, and reads
that of the page it finds. -/
theorem Refines.dirty_foldl_invalidateIn (h : Refines v s) (frame : ℕ) (r : AccessResult) :
    (∀ pg, (v.pids.foldl (VMSystem.invalidateIn frame) (r, v)).2.dirty pg = v.dirty pg) ∧
      (v.pids.foldl (VMSystem.invalidateIn frame) (r, v)).2.costs = v.costs ∧
      (v.pids.foldl (VMSystem.invalidateIn frame) (r, v)).1 =
        if (s.slots frame).any v.dirty then
          { r with dirtyEvict := true, costNs := r.costNs + v.costs.diskNs } else r := by
  cases hslot : s.slots frame with
  | none =>
    rw [h.foldl_invalidateIn_other (by simp [hslot])]
    exact ⟨fun _ => rfl, rfl, rfl⟩
  | some pg =>
    obtain ⟨pid, vpn⟩ := pg
    obtain ⟨pte, hpte, heq⟩ := h.invalidateIn_eq (r := r) hslot
    have hdirty : v.dirty (pid, vpn) = pte.dirty := by rw [dirty, hpte]
    rw [h.foldl_invalidateIn_owner hslot, heq, Option.any_some, hdirty]
    refine ⟨fun pg => ?_, rfl, rfl⟩
    show (v.setPte pid vpn { pte with present := false }).dirty pg = v.dirty pg
    rw [dirty_setPte]
    split_ifs with hpg
    · rw [hpg, hdirty]
    · rfl

/-- The page that a fault loads has the dirty bit of the call. -/
theorem loadPage_marks {r₀ : AccessResult} (hload : loadPage R v op frame r₀ = (r, w)) :
    (∀ pg, w.dirty pg = if pg = op.page then op.isWrite else v.dirty pg) ∧
      r.dirtyEvict = r₀.dirtyEvict ∧
      r.costNs = r₀.costNs + v.costs.diskNs + v.costs.memNs ∧ w.costs = v.costs := by
  obtain ⟨rfl, rfl⟩ := Prod.mk.inj hload
  exact ⟨dirty_setPte op.pid op.vpn _, rfl, rfl, rfl⟩

/-- **A page fault** sets the bit of its page anew. -/
theorem Refines.fault_marks (h : Refines v s) (hstep : Paging.Step R.toPolicy s op.page o t)
    (hpage : v.frameOf op.page = none)
    (hfault : VMSystem.fault R v op { costNs := v.costs.tlbNs } = some (r, w)) : Marks v w op r o := by
  have hnot : ¬ s.Holds op.page := by
    rw [h.holds_iff, hpage]
    simp
  unfold VMSystem.fault at hfault
  dsimp only at hfault
  cases hstep with
  | hit hf => exact absurd ⟨_, hf⟩ hnot
  | @load f free hp hfree =>
    have halloc : v.frameAlloc.alloc = some (f, { v.frameAlloc with free := free }) := by
      rw [FrameAllocator.alloc, ← h.free_eq, hfree]
    rw [halloc, Option.some.injEq] at hfault
    obtain ⟨hdirty, hflag, hcost, hcosts⟩ := loadPage_marks hfault
    refine ⟨hdirty, hflag, ?_, hcosts⟩
    rw [hcost, hflag]
    show v.costs.tlbNs + v.costs.diskNs + v.costs.memNs
      = v.costs.tlbNs + v.costs.memNs + v.costs.diskNs + 0
    rw [UInt64.add_zero]
    ac_rfl
  | @replace f π hp hfree hvictim =>
    have halloc : v.frameAlloc.alloc = none := by
      rw [FrameAllocator.alloc, ← h.free_eq, hfree]
    rw [h.policy_eq] at hvictim
    have hvictim' : R.victim v.policy = some (f, π) := hvictim
    rw [halloc] at hfault
    dsimp only at hfault
    rw [hvictim'] at hfault
    dsimp only at hfault
    -- the search runs in the system in which the policy has given up the victim
    have hstart : Refines { v with faults := v.faults + 1, policy := π }
        { s with policy := π } := (h.withPolicy π).congr rfl rfl rfl rfl rfl
    obtain ⟨hdirty, hcosts, hresult⟩ := hstart.dirty_foldl_invalidateIn f
      { costNs := v.costs.tlbNs, pageFault := true, evicted := true }
    obtain ⟨rv, hrv⟩ : ∃ rv, rv = v.pids.foldl (VMSystem.invalidateIn f)
        ({ costNs := v.costs.tlbNs, pageFault := true, evicted := true },
          { v with faults := v.faults + 1, policy := π }) := ⟨_, rfl⟩
    dsimp only at hdirty hcosts hresult
    rw [← hrv] at hdirty hcosts hresult hfault
    rw [Option.some.injEq] at hfault
    obtain ⟨hload, hflag, hcost, hcosts'⟩ := loadPage_marks hfault
    have hread : rv.1.dirtyEvict = (s.slots f).any v.dirty := by
      rw [hresult]
      show (if (s.slots f).any v.dirty then _ else _ : AccessResult).dirtyEvict = _
      cases (s.slots f).any v.dirty <;> rfl
    have hwrite : rv.1.costNs = v.costs.tlbNs + if rv.1.dirtyEvict then v.costs.diskNs else 0 := by
      rw [hread, hresult]
      show (if (s.slots f).any v.dirty then _ else _ : AccessResult).costNs = _
      cases (s.slots f).any v.dirty with
      | true => rfl
      | false => exact (UInt64.add_zero _).symm
    refine ⟨fun pg => ?_, hflag.trans hread, ?_, hcosts'.trans hcosts⟩
    · rw [hload]
      split_ifs
      · rfl
      · exact hdirty pg
    · rw [hcost, hflag, hwrite, hcosts]
      show v.costs.tlbNs + (if rv.1.dirtyEvict then v.costs.diskNs else 0) + v.costs.diskNs
          + v.costs.memNs
        = v.costs.tlbNs + v.costs.memNs + v.costs.diskNs +
          if rv.1.dirtyEvict then v.costs.diskNs else 0
      ac_rfl

/-- **A walk** that finds the page adds to its bit. -/
theorem Refines.walk_marks (h : Refines v s) (hstep : Paging.Step R.toPolicy s op.page o t)
    (hwalk : VMSystem.walk R v op = some (r, w)) : Marks v w op r o := by
  cases hpage : v.frameOf op.page with
  | none =>
    rw [walk_of_none hpage] at hwalk
    have hmarks := (h.touch op.pid).fault_marks hstep hpage hwalk
    exact ⟨hmarks.dirty_eq, hmarks.dirtyEvict_eq, hmarks.costNs_eq, hmarks.costs_eq⟩
  | some f =>
    have hheld : s.Holds op.page := (h.holds_iff _).mpr ⟨f, hpage⟩
    obtain ⟨pte, hpte, -, -, hfound⟩ := walk_of_frame (R := R) hpage
    have hdirty : v.dirty op.page = pte.dirty := by
      show (match v.pageTables op.pid op.vpn with | some pte => pte.dirty | none => false) = _
      rw [hpte]
    rw [hfound, Option.some.injEq] at hwalk
    obtain ⟨rfl, rfl⟩ := Prod.mk.inj hwalk
    cases hstep with
    | hit hf =>
      refine ⟨fun pg => ?_, rfl, ?_, rfl⟩
      · show ((v.touch op.pid).setPte op.pid op.vpn _).dirty pg = _
        rw [dirty_setPte]
        show (if pg = op.page then pte.dirty || op.isWrite else v.dirty pg)
          = if pg = op.page then v.dirty pg || op.isWrite else v.dirty pg
        split_ifs with hpg
        · rw [hpg, hdirty]
        · rfl
      · show v.costs.tlbNs + v.costs.memNs = v.costs.tlbNs + v.costs.memNs + 0 + 0
        rw [UInt64.add_zero, UInt64.add_zero]
    | load hp hfree => exact absurd hheld hp
    | replace hp hfree hvictim => exact absurd hheld hp

/-- **A call** does to the dirty bits what a walk does. -/
theorem Refines.access_marks (h : Refines v s) (hcoherent : v.tlb.Coherent v.frameOf)
    (hstep : Paging.Step R.toPolicy s op.page o t)
    (haccess : VMSystem.access R v op = some (r, w)) : Marks v w op r o := by
  cases hlookup : v.tlb.lookup op.pid op.vpn with
  | mk found tlb =>
    cases found with
    | none =>
      have hmiss : Refines { v with tlb := v.tlb.countMiss } s := h.of_same rfl
      rw [access_of_miss hlookup] at haccess
      have hmarks := hmiss.walk_marks hstep haccess
      exact ⟨hmarks.dirty_eq, hmarks.dirtyEvict_eq, hmarks.costNs_eq, hmarks.costs_eq⟩
    | some f =>
      obtain ⟨hpage, -⟩ := hcoherent.lookup_some hlookup
      have hsame := h.tlbHit_same_walk (R := R) hpage tlb
      obtain ⟨pte, -, -, -, hwalk⟩ := walk_of_frame (R := R) hpage
      have hmarks := h.walk_marks hstep hwalk
      rw [access_of_hit hlookup] at haccess
      rw [haccess, hwalk] at hsame
      obtain ⟨⟨-, -, hflag⟩, hbut⟩ := hsame
      rw [Option.some.injEq] at haccess
      have hcost : r.costNs = v.costs.tlbNs + v.costs.memNs := by
        rw [← congrArg (fun rw => rw.1.costNs) haccess]
        rfl
      rw [hbut] at hmarks
      refine ⟨hmarks.dirty_eq, hflag.trans hmarks.dirtyEvict_eq, ?_, hmarks.costs_eq⟩
      rw [hcost, hflag]
      exact hmarks.costNs_eq

/-! ## The history of a page -/

/-- `load` is the call whose page fault has loaded the page last, with the calls before it
and after it. -/
structure LastLoad (calls : List (Access × AccessResult)) (pg : Page)
    (pre : List (Access × AccessResult)) (load : Access × AccessResult)
    (post : List (Access × AccessResult)) : Prop where
  calls_eq : calls = pre ++ load :: post
  page_eq : load.1.page = pg
  pageFault : load.2.pageFault = true
  last : ∀ call ∈ post, call.1.page = pg → call.2.pageFault = false

/-- One of the calls writes to the page. -/
def Written (calls : List (Access × AccessResult)) (pg : Page) : Prop :=
  ∃ call ∈ calls, call.1.page = pg ∧ call.1.isWrite = true

variable {calls pre post : List (Access × AccessResult)} {load call : Access × AccessResult}
  {pg : Page}

theorem LastLoad.of_fault (hpage : call.1.page = pg) (hfault : call.2.pageFault = true) :
    LastLoad (calls ++ [call]) pg calls call [] :=
  ⟨rfl, hpage, hfault, by simp⟩

theorem LastLoad.snoc (h : LastLoad calls pg pre load post)
    (hcall : call.1.page = pg → call.2.pageFault = false) :
    LastLoad (calls ++ [call]) pg pre load (post ++ [call]) := by
  refine ⟨by rw [h.calls_eq, List.append_assoc, List.cons_append], h.page_eq, h.pageFault, ?_⟩
  intro e he
  rcases List.mem_append.mp he with he | he
  · exact h.last e he
  · rw [List.mem_singleton.mp he]
    exact hcall

theorem written_append_singleton :
    Written (calls ++ [call]) pg ↔ Written calls pg ∨ (call.1.page = pg ∧ call.1.isWrite = true) := by
  simp [Written, List.mem_append, or_and_right, exists_or]

/-- The last call reports what the last step of the pager does. -/
theorem RunRefines.flags_eq {n : ℕ} {init : σ} {ops : List Access} {rs : List AccessResult}
    {outs : List (Paging.Outcome Page)} (h : RunRefines R n init ops rs v outs s)
    (h' : RunRefines R n init (ops ++ [op]) (rs ++ [r]) w (outs ++ [o]) t) :
    r.pageFault = o.isFault ∧ r.evicted = o.isReplace := by
  have hfault := h'.pageFault_eq
  have hevicted := h'.evicted_eq
  rw [List.map_append, List.map_append, h.pageFault_eq] at hfault
  rw [List.map_append, List.map_append, h.evicted_eq] at hevicted
  exact ⟨by simpa using hfault, by simpa using hevicted⟩

/-- The costs stay those of the system that was created. -/
theorem run_costs {n : ℕ} {init : σ} {costs : CostModel} {ops : List Access}
    {rs : List AccessResult} (hrun : run R (create n init costs) ops = some (rs, v)) :
    v.costs = costs := by
  induction ops using List.reverseRecOn generalizing rs v with
  | nil =>
    obtain ⟨rfl, rfl⟩ : [] = rs ∧ create n init costs = v := by simpa [run, runWith] using hrun
    rfl
  | append_singleton ops op ih =>
    obtain ⟨rs', u, r, hrun', haccess, rfl⟩ := run_append_singleton hrun
    obtain ⟨outs, s, hu⟩ := run_refines hrun'
    obtain ⟨o, t, hstep, hv⟩ := hu.access haccess
    rw [(hu.refines.access_marks hu.coherent hstep haccess).costs_eq]
    exact ih hrun'

/-- **The dirty bit** of a page in a frame says whether the page has been written since
the fault that loaded it. -/
theorem dirty_iff_written {n : ℕ} {init : σ} {costs : CostModel} {ops : List Access}
    {rs : List AccessResult} {f : ℕ} (hrun : run R (create n init costs) ops = some (rs, v))
    (hpg : v.frameOf pg = some f) :
    ∃ pre load post, LastLoad (ops.zip rs) pg pre load post ∧
      (v.dirty pg = true ↔ Written (load :: post) pg) := by
  induction ops using List.reverseRecOn generalizing rs v f with
  | nil =>
    obtain ⟨rfl, rfl⟩ : [] = rs ∧ create n init costs = v := by simpa [run, runWith] using hrun
    simp [create, frameOf] at hpg
  | append_singleton ops op ih =>
    obtain ⟨rs', u, r, hrun', haccess, rfl⟩ := run_append_singleton hrun
    obtain ⟨outs, s, hu⟩ := run_refines hrun'
    obtain ⟨o, t, hstep, hv⟩ := hu.access haccess
    have hmarks := hu.refines.access_marks hu.coherent hstep haccess
    obtain ⟨hfault, -⟩ := hu.flags_eq hv
    have hlength : ops.length = rs'.length := by
      have hflags := congrArg List.length hu.pageFault_eq
      have houts := hu.run.length_eq
      simp only [List.length_map] at hflags houts
      omega
    rw [List.zip_append hlength, List.zip_cons_cons, List.zip_nil_left]
    by_cases hload : pg = op.page ∧ o.isFault = true
    · obtain ⟨rfl, ho⟩ := hload
      refine ⟨_, _, _, .of_fault rfl (hfault.trans ho), ?_⟩
      rw [hmarks.dirty_eq, if_pos rfl, ho]
      simp [Written]
    · -- the page was in a frame before the call
      have hheld : t.Holds pg := (hv.refines.holds_iff pg).mpr ⟨f, hpg⟩
      have hold : s.Holds pg := by
        rcases hstep.holds hheld with rfl | hold
        · by_contra hnot
          exact hload ⟨rfl, hstep.isFault_iff.mpr hnot⟩
        · exact hold
      obtain ⟨g, hg⟩ := (hu.refines.holds_iff pg).mp hold
      obtain ⟨pre, load, post, hlast, hdirty⟩ := ih hrun' hg
      refine ⟨pre, load, post ++ [(op, r)], hlast.snoc ?_, ?_⟩
      · rintro rfl
        rw [hfault, Bool.eq_false_iff]
        exact fun ho => hload ⟨rfl, ho⟩
      · rw [← List.cons_append, written_append_singleton, ← hdirty, hmarks.dirty_eq]
        by_cases hpage : pg = op.page
        · have hhit : o.isFault = false := by
            rw [Bool.eq_false_iff]
            exact fun ho => hload ⟨hpage, ho⟩
          simp [hpage, hhit]
        · simp [hpage, Ne.symm hpage]

end VMSystem

/-- **No write is lost.**  With each of the four policies, any positive number of frames
and any sequence of references: a call that evicts a page writes it back, at the cost of
one more access to the disk, exactly if the page has been written since the fault that
loaded it last, and a call that evicts nothing writes nothing back. -/
theorem vm_no_write_lost (k : PolicyKind) (frames : ℕ) (costs : CostModel) (ops : List Access)
    (op : Access) (hframes : 1 ≤ frames) :
    ∃ rs v r w,
      VMSystem.run k.replacement (VMSystem.create frames k.initial costs) ops = some (rs, v) ∧
      VMSystem.access k.replacement v op = some (r, w) ∧
      r.costNs = costs.tlbNs + costs.memNs + (if r.pageFault then costs.diskNs else 0) +
        (if r.dirtyEvict then costs.diskNs else 0) ∧
      (r.evicted = false → VMSystem.evictedPages v w = [] ∧ r.dirtyEvict = false) ∧
      (r.evicted = true → ∃ pg, VMSystem.evictedPages v w = [pg] ∧
        ∃ pre load post, VMSystem.LastLoad (ops.zip rs) pg pre load post ∧
          (r.dirtyEvict = true ↔ VMSystem.Written (load :: post) pg)) := by
  obtain ⟨rs', w, hrun⟩ :=
    VMSystem.run_returns k.tracks k.tracks_initial hframes costs (ops ++ [op])
  obtain ⟨rs, v, r, hrun', haccess, -⟩ := VMSystem.run_append_singleton hrun
  obtain ⟨outs, s, hv⟩ := VMSystem.run_refines hrun'
  obtain ⟨F, hF⟩ := hv.run.covered k.tracks hframes k.tracks_initial
  obtain ⟨o, t, hstep, hw⟩ := hv.access haccess
  have hmarks := hv.refines.access_marks hv.coherent hstep haccess
  have hpages := hv.refines.evictedPages_eq hw.refines hstep
  obtain ⟨hfault, hevicted⟩ := hv.flags_eq hw
  refine ⟨rs, v, r, w, hrun', haccess, ?_, fun hnone => ?_, fun hsome => ?_⟩
  · rw [hmarks.costNs_eq, VMSystem.run_costs hrun', hfault]
  · have hnothing : o.evicted = none := by
      rw [hevicted] at hnone
      cases o with
      | hit f => rfl
      | load f => rfl
      | replace f old => simp [Paging.Outcome.isReplace] at hnone
    exact ⟨by rw [hpages, hnothing]; rfl, by rw [hmarks.dirtyEvict_eq, hnothing]; rfl⟩
  · obtain ⟨pg, hpg⟩ := hF.exists_evicted k.tracks hframes hstep (hevicted ▸ hsome)
    have hheld : s.Holds pg := ((hstep.evicted_iff hv.refines.valid pg).mp hpg).1
    obtain ⟨f, hf⟩ := (hv.refines.holds_iff pg).mp hheld
    obtain ⟨pre, load, post, hlast, hdirty⟩ := VMSystem.dirty_iff_written hrun' hf
    refine ⟨pg, by rw [hpages, hpg]; rfl, pre, load, post, hlast, ?_⟩
    rw [hmarks.dirtyEvict_eq, hpg, Option.any_some, hdirty]

/-- Page 0 of process 1 is written, and process 2 writes its page after a TLB hit: both are
written back; page 1 of process 1 is read only, and is not. -/
theorem twoProcesses_no_write_lost :
    (VMSystem.run PolicyKind.lru.replacement (VMSystem.create 2 PolicyKind.lru.initial {})
        (twoProcesses ++ [⟨2, 1, false⟩])).map
          (fun rv => rv.1.map (fun r => (r.evicted, r.dirtyEvict)))
      = some [(false, false), (false, false), (true, true), (false, false), (true, false),
          (true, true)] ∧
    ∃ rs v r w,
      VMSystem.run PolicyKind.lru.replacement (VMSystem.create 2 PolicyKind.lru.initial {})
        twoProcesses = some (rs, v) ∧
      VMSystem.access PolicyKind.lru.replacement v ⟨2, 1, false⟩ = some (r, w) ∧
      r.costNs = 1 + 100 + (if r.pageFault then 10000000 else 0) +
        (if r.dirtyEvict then 10000000 else 0) ∧
      (r.evicted = false → VMSystem.evictedPages v w = [] ∧ r.dirtyEvict = false) ∧
      (r.evicted = true → ∃ pg, VMSystem.evictedPages v w = [pg] ∧
        ∃ pre load post, VMSystem.LastLoad (twoProcesses.zip rs) pg pre load post ∧
          (r.dirtyEvict = true ↔ VMSystem.Written (load :: post) pg)) :=
  ⟨by decide +kernel, vm_no_write_lost .lru 2 {} twoProcesses ⟨2, 1, false⟩ (by decide)⟩

end Memlab
