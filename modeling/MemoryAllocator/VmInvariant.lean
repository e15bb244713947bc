/-
# The representation invariant of the virtual memory system

Runs of the system are runs of the pager (`run_refines`), and with one of the four
policies they always return (`run_returns`).  From the two, `RepInv` holds after every
sequence of calls: the page tables, the lists of loaded pages, the TLB, the frame pool
and the policy agree on which page is in which frame.
-/
import MemoryAllocator.VmRefinement

namespace Memlab

namespace VMSystem

variable {σ : Type*} {R : IReplacement σ} {v w : VMSystem σ} {rs : List AccessResult}

/-! ## Runs -/

theorem runWith_append_singleton
    (call : VMSystem σ → Access → Option (AccessResult × VMSystem σ)) (v : VMSystem σ)
    (ops : List Access) (op : Access) :
    runWith call v (ops ++ [op]) =
      (runWith call v ops).bind (fun rv =>
        (call rv.2 op).map (fun rw => (rv.1 ++ [rw.1], rw.2))) := by
  induction ops generalizing v with
  | nil =>
    rw [List.nil_append, runWith, runWith]
    cases hcall : call v op with
    | none => simp [hcall]
    | some rw => simp [runWith, hcall]
  | cons op' ops ih =>
    rw [List.cons_append, runWith, runWith]
    cases hcall : call v op' with
    | none => rfl
    | some rv =>
      dsimp only
      rw [ih]
      cases hrun : runWith call rv.2 ops with
      | none => rfl
      | some rv' =>
        dsimp only [Option.bind_some]
        cases call rv'.2 op with
        | none => rfl
        | some rw => rfl

/-- A run with one more call. -/
theorem run_append_singleton {ops : List Access} {op : Access}
    (h : run R v (ops ++ [op]) = some (rs, w)) :
    ∃ rs' u r, run R v ops = some (rs', u) ∧ access R u op = some (r, w) ∧ rs = rs' ++ [r] := by
  rw [run, runWith_append_singleton] at h
  obtain ⟨⟨rs', u⟩, hrun, hcall⟩ := Option.bind_eq_some_iff.mp h
  obtain ⟨⟨r, w'⟩, haccess, heq⟩ := Option.map_eq_some_iff.mp hcall
  obtain ⟨rfl, rfl⟩ := Prod.mk.inj heq
  exact ⟨rs', u, r, hrun, haccess, rfl⟩

/-- A new system is a new pager. -/
theorem refines_create (n : ℕ) (init : σ) (costs : CostModel) :
    Refines (create n init costs) (Paging.Pager.start n init) := by
  refine ⟨Paging.Pager.valid_start n init, rfl, rfl, ?_, ?_, fun _ => List.nodup_nil, ?_,
    List.nodup_nil, ?_⟩
  · simp [create, frameOf, Paging.Pager.start]
  · simp [create, frameOf]
  · simp [create, frameOf]
  · intro pid vpn pte hpte
    simp [create] at hpte

/-- What a run of the system shares with a run of the pager. -/
structure RunRefines (R : IReplacement σ) (n : ℕ) (init : σ) (ops : List Access)
    (rs : List AccessResult) (v : VMSystem σ) (outs : List (Paging.Outcome Page))
    (s : Paging.Pager Page σ) : Prop where
  refines : Refines v s
  coherent : v.tlb.Coherent v.frameOf
  run : Paging.Run R.toPolicy (Paging.Pager.start n init) (ops.map Access.page) outs s
  pageFault_eq : rs.map AccessResult.pageFault = outs.map Paging.Outcome.isFault
  evicted_eq : rs.map AccessResult.evicted = outs.map Paging.Outcome.isReplace
  faults_eq : v.faults = Paging.faults outs

/-- One more call. -/
theorem RunRefines.access {n : ℕ} {init : σ} {ops : List Access}
    {outs : List (Paging.Outcome Page)} {s : Paging.Pager Page σ}
    (h : RunRefines R n init ops rs v outs s) {op : Access} {r : AccessResult}
    (haccess : VMSystem.access R v op = some (r, w)) :
    ∃ o t, Paging.Step R.toPolicy s op.page o t ∧
      RunRefines R n init (ops ++ [op]) (rs ++ [r]) w (outs ++ [o]) t := by
  rcases h.refines.access (R := R) h.coherent op with ⟨-, -, hnone⟩ |
    ⟨o, t, r', w', hsome, hstep, href, hcoherent, hreports⟩
  · rw [hnone] at haccess
    simp at haccess
  · obtain ⟨rfl, rfl⟩ : r' = r ∧ w' = w := by simpa using hsome.symm.trans haccess
    refine ⟨o, t, hstep, href, hcoherent, ?_, ?_, ?_, ?_⟩
    · rw [List.map_append, List.map_singleton]
      exact h.run.snoc hstep
    · simp [h.pageFault_eq, hreports.pageFault_eq]
    · simp [h.evicted_eq, hreports.evicted_eq]
    · rw [hreports.faults_eq, h.faults_eq, Paging.faults_append]

/-- **Runs of the system are runs of the pager.** -/
theorem run_refines {n : ℕ} {init : σ} {costs : CostModel} {ops : List Access}
    (h : run R (create n init costs) ops = some (rs, v)) :
    ∃ outs s, RunRefines R n init ops rs v outs s := by
  induction ops using List.reverseRecOn generalizing rs v with
  | nil =>
    obtain ⟨rfl, rfl⟩ : [] = rs ∧ create n init costs = v := by simpa [run, runWith] using h
    exact ⟨[], _, refines_create n init costs, by simp [TLB.Coherent, create], .nil, rfl, rfl, rfl⟩
  | append_singleton ops op ih =>
    obtain ⟨rs', u, r, hrun, haccess, rfl⟩ := run_append_singleton h
    obtain ⟨outs, s, hu⟩ := ih hrun
    obtain ⟨o, t, -, hv⟩ := hu.access haccess
    exact ⟨outs ++ [o], t, hv⟩

/-- **Runs return**, with a policy that keeps track of the frames. -/
theorem run_returns {I : Finset ℕ → σ → Prop} (hR : R.Tracks I) {init : σ} (hinit : I ∅ init)
    {n : ℕ} (hn : 0 < n) (costs : CostModel) (ops : List Access) :
    ∃ rs v, run R (create n init costs) ops = some (rs, v) := by
  induction ops using List.reverseRecOn with
  | nil => exact ⟨[], _, rfl⟩
  | append_singleton ops op ih =>
    obtain ⟨rs, v, hrun⟩ := ih
    obtain ⟨outs, s, hv⟩ := run_refines hrun
    obtain ⟨F, hF⟩ := hv.run.covered hR hn hinit
    rcases hv.refines.access (R := R) hv.coherent op with ⟨hfree, hnone, -⟩ |
      ⟨o, t, r, w, hsome, -⟩
    · obtain ⟨f, π, hvictim, -⟩ := hF.victim hR hn hfree
      rw [hnone] at hvictim
      simp at hvictim
    · refine ⟨rs ++ [r], w, ?_⟩
      have hrun' : runWith (VMSystem.access R) (create n init costs) ops = some (rs, v) := hrun
      rw [run, runWith_append_singleton, hrun', Option.bind_some, hsome]
      rfl

/-! ## Resident pages -/

/-- The pages of the lists of loaded pages, process by process. -/
def residents (v : VMSystem σ) : List Page :=
  v.pids.flatMap (fun pid => (v.loadedVpns pid).map (fun vpn => (pid, vpn)))

variable {s : Paging.Pager Page σ}

theorem Refines.mem_residents (h : Refines v s) (pg : Page) :
    pg ∈ v.residents ↔ ∃ f, v.frameOf pg = some f := by
  obtain ⟨pid, vpn⟩ := pg
  have hmem := h.mem_loaded (pid, vpn)
  simp only [residents, List.mem_flatMap, List.mem_map, Prod.mk.injEq]
  constructor
  · rintro ⟨pid', -, vpn', hloaded, rfl, rfl⟩
    exact hmem.mp hloaded
  · rintro ⟨f, hf⟩
    exact ⟨pid, h.mem_pids _ f hf, vpn, hmem.mpr ⟨f, hf⟩, rfl, rfl⟩

theorem Refines.nodup_residents (h : Refines v s) : v.residents.Nodup := by
  rw [residents, List.nodup_flatMap]
  refine ⟨fun pid _ => (h.nodup_loaded pid).map (fun a b heq => (Prod.mk.inj heq).2), ?_⟩
  refine h.nodup_pids.imp (fun {p q} hne => ?_)
  rw [Function.onFun, List.disjoint_left]
  intro pg hp hq
  obtain ⟨vpn, -, rfl⟩ := List.mem_map.mp hp
  obtain ⟨vpn', -, heq⟩ := List.mem_map.mp hq
  exact hne (Prod.mk.inj heq).1.symm

/-- The pages that are resident before a call and not after it. -/
def evictedPages (v w : VMSystem σ) : List Page :=
  v.residents.filter (fun pg => (w.frameOf pg).isNone)

/-- A call evicts the page that the step of the pager evicts. -/
theorem Refines.evictedPages_eq (h : Refines v s) {t : Paging.Pager Page σ} (h' : Refines w t)
    {pg : Page} {o : Paging.Outcome Page} (hstep : Paging.Step R.toPolicy s pg o t) :
    evictedPages v w = o.evicted.toList := by
  have hmem : ∀ q, q ∈ evictedPages v w ↔ o.evicted = some q := by
    intro q
    rw [evictedPages, List.mem_filter, h.mem_residents, ← h.holds_iff,
      hstep.evicted_iff h.valid, h'.holds_iff, Option.isNone_iff_eq_none,
      Option.eq_none_iff_forall_ne_some, not_exists]
  have hnodup : (evictedPages v w).Nodup := h.nodup_residents.filter _
  cases ho : o.evicted with
  | none =>
    simp only [ho, reduceCtorEq, iff_false] at hmem
    exact List.eq_nil_iff_forall_not_mem.mpr hmem
  | some x =>
    have hperm : (evictedPages v w).Perm [x] := by
      rw [List.perm_ext_iff_of_nodup hnodup (List.nodup_singleton x)]
      intro q
      rw [hmem, ho, List.mem_singleton, Option.some.injEq]
      exact eq_comm
    exact List.perm_singleton.mp hperm

/-- Resident pages and free frames make up all frames. -/
theorem Refines.length_residents (h : Refines v s) {n : ℕ} {I : Finset ℕ → σ → Prop}
    {F : Finset ℕ} (hF : s.Covered n I F) : v.residents.length + v.frameAlloc.free.length = n := by
  have himage : v.residents.toFinset.image (fun pg => (v.frameOf pg).getD 0) = F := by
    ext f
    rw [Finset.mem_image, hF.mem_iff]
    constructor
    · rintro ⟨pg, hpg, rfl⟩
      obtain ⟨f, hf⟩ := (h.mem_residents pg).mp (List.mem_toFinset.mp hpg)
      refine ⟨pg, ?_⟩
      rw [hf, Option.getD_some]
      exact (h.frame_iff pg f).mp hf
    · rintro ⟨pg, hpg⟩
      have hf := (h.frame_iff pg f).mpr hpg
      exact ⟨pg, List.mem_toFinset.mpr ((h.mem_residents pg).mpr ⟨f, hf⟩), by rw [hf]; rfl⟩
  have hinj : Set.InjOn (fun pg => (v.frameOf pg).getD 0) (v.residents.toFinset : Set Page) := by
    intro pg hpg pg' hpg' heq
    obtain ⟨f, hf⟩ := (h.mem_residents pg).mp (List.mem_toFinset.mp hpg)
    obtain ⟨g, hg⟩ := (h.mem_residents pg').mp (List.mem_toFinset.mp hpg')
    simp only [hf, hg, Option.getD_some] at heq
    subst heq
    exact Option.some.inj (((h.frame_iff pg f).mp hf).symm.trans ((h.frame_iff pg' f).mp hg))
  have hcard := Finset.card_image_of_injOn hinj
  rw [himage, List.toFinset_card_of_nodup h.nodup_residents] at hcard
  rw [← hcard, ← h.free_eq]
  exact hF.card_add

/-! ## The invariant -/

/-- **The representation invariant** of the system with `n` frames: the page tables, the
lists of loaded pages, the TLB, the frame pool and the policy agree. -/
structure RepInv (k : PolicyKind) (n : ℕ) (v : VMSystem k.State) : Prop where
  frame_injective : ∀ pg pg' f, v.frameOf pg = some f → v.frameOf pg' = some f → pg = pg'
  frame_lt : ∀ pg f, v.frameOf pg = some f → f < n
  present_iff : ∀ pg, pg ∈ v.residents ↔ ∃ f, v.frameOf pg = some f
  present_once : v.residents.Nodup
  present_le : v.residents.length ≤ n
  free_of_lt : v.residents.length < n → v.frameAlloc.hasFree = true
  tracked_iff : ∀ f, f ∈ k.tracked v.policy ↔ ∃ pg, v.frameOf pg = some f
  containers : k.Tracks (k.tracked v.policy) v.policy
  loaded_once : ∀ pid vpn,
    (v.loadedVpns pid).count vpn = if v.frameOf (pid, vpn) = none then 0 else 1
  tlb_backed : ∀ pid vpn entry, ((pid, vpn), entry) ∈ v.tlb.map →
    v.frameOf (pid, vpn) = some entry.frame

theorem Refines.repInv {k : PolicyKind} {v : VMSystem k.State} {s : Paging.Pager Page k.State}
    {n : ℕ} {F : Finset ℕ} (h : Refines v s) (hcoherent : v.tlb.Coherent v.frameOf)
    (hF : s.Covered n k.Tracks F) : RepInv k n v := by
  have hlength := h.length_residents hF
  have htracks : k.Tracks F v.policy := h.policy_eq ▸ hF.tracked
  have hmem : ∀ f, f ∈ F ↔ ∃ pg, v.frameOf pg = some f := by
    intro f
    simp only [hF.mem_iff, h.frame_iff]
  refine ⟨?_, ?_, h.mem_residents, h.nodup_residents, by omega, ?_, ?_, ?_, ?_, ?_⟩
  · intro pg pg' f hpg hpg'
    exact Option.some.inj (((h.frame_iff pg f).mp hpg).symm.trans ((h.frame_iff pg' f).mp hpg'))
  · intro pg f hpg
    exact (hF.lt_iff f).mpr (.inl ((hmem f).mpr ⟨pg, hpg⟩))
  · intro hlt
    have hfree : v.frameAlloc.free ≠ [] := List.length_pos_iff.mp (by omega)
    simpa [FrameAllocator.hasFree] using hfree
  · rw [htracks.tracked_eq]
    exact hmem
  · rw [htracks.tracked_eq]
    exact htracks
  · intro pid vpn
    have hmem := h.mem_loaded (pid, vpn)
    split_ifs with hnone
    · rw [List.count_eq_zero]
      intro hin
      obtain ⟨f, hf⟩ := hmem.mp hin
      rw [hnone] at hf
      simp at hf
    · exact List.count_eq_one_of_mem (h.nodup_loaded pid)
        (hmem.mpr (Option.ne_none_iff_exists'.mp hnone))
  · intro pid vpn entry hentry
    exact hcoherent _ hentry

end VMSystem

/-- **The virtual memory system keeps its representation invariant.**  With each of the
four policies, any positive number of frames and any sequence of references by any
processes, the run returns and the five structures agree. -/
theorem vm_representation_invariant (k : PolicyKind) (frames : ℕ) (costs : CostModel)
    (ops : List Access) (hframes : 1 ≤ frames) :
    ∃ rs v, VMSystem.run k.replacement (VMSystem.create frames k.initial costs) ops = some (rs, v) ∧
      VMSystem.RepInv k frames v := by
  obtain ⟨rs, v, hrun⟩ := VMSystem.run_returns k.tracks k.tracks_initial hframes costs ops
  obtain ⟨outs, s, hv⟩ := VMSystem.run_refines hrun
  obtain ⟨F, hF⟩ := hv.run.covered k.tracks hframes k.tracks_initial
  exact ⟨rs, v, hrun, hv.refines.repInv hv.coherent hF⟩

/-- Two processes in two frames: page 0 of process 1 is written, evicted and read again. -/
def twoProcesses : List Access :=
  [⟨1, 0, true⟩, ⟨2, 0, false⟩, ⟨1, 1, false⟩, ⟨2, 0, true⟩, ⟨1, 0, false⟩]

theorem twoProcesses_representation :
    (VMSystem.run PolicyKind.lru.replacement (VMSystem.create 2 PolicyKind.lru.initial {})
        twoProcesses).map (fun rv => (rv.1.map AccessResult.evicted, rv.2.residents))
      = some ([false, false, true, false, true], [(1, 0), (2, 0)]) ∧
    ∃ rs v, VMSystem.run PolicyKind.lru.replacement
        (VMSystem.create 2 PolicyKind.lru.initial {}) twoProcesses = some (rs, v) ∧
      VMSystem.RepInv PolicyKind.lru 2 v :=
  ⟨by decide +kernel, vm_representation_invariant .lru 2 {} twoProcesses (by decide)⟩

end Memlab
