/-
# LRU replacement is textbook LRU

The list of the policy holds frames, the textbook speaks of pages.  Read through the
frames, the list is at any time the list of the most recently referenced distinct
pages, cut off at the number of frames (`Run.recency`): a hit moves a frame to the
front, as it moves its page in the reference string; a load into a free frame adds to
the list, which is not cut off yet; and a replacement drops the last frame of the list
and brings it back, with the new page, at the front.

The textbook description does not mention frames, TLB or evictions, so that systems with
different numbers of frames can be compared by it: the resident pages of the smaller are
resident in the larger.
-/
import MemoryAllocator.VmInvariant

namespace Memlab

open Paging (recents)

/-! ## Lists cut off -/

section Lists

variable {α : Type*} [DecidableEq α] {l : List α} {a : α}

/-- Dropping an element from a list that is cut off after it. -/
theorem take_erase_of_mem {m : ℕ} (h : a ∈ l.take (m + 1)) :
    (l.erase a).take m = (l.take (m + 1)).erase a := by
  induction l generalizing m with
  | nil => simp at h
  | cons b l ih =>
    by_cases hba : b = a
    · subst hba
      simp
    · rw [List.erase_cons_tail (by simpa using hba), List.take_succ_cons,
        List.erase_cons_tail (by simpa using hba)]
      rw [List.take_succ_cons, List.mem_cons] at h
      have hmem := h.resolve_left (fun heq => hba heq.symm)
      cases m with
      | zero => simp at hmem
      | succ m => rw [List.take_succ_cons, ih hmem]

/-- Dropping an element beyond the cut. -/
theorem take_erase_of_notMem {m : ℕ} (h : a ∉ l.take m) : (l.erase a).take m = l.take m := by
  induction l generalizing m with
  | nil => rfl
  | cons b l ih =>
    cases m with
    | zero => rfl
    | succ m =>
      rw [List.take_succ_cons, List.mem_cons, not_or] at h
      rw [List.erase_cons_tail (by simpa using (Ne.symm h.1)), List.take_succ_cons,
        List.take_succ_cons, ih h.2]

/-- Erasing an index and what it stands for. -/
theorem map_erase_eq {is : List ℕ} {g : ℕ → Option α} (h : is.map g = l.map some) {i : ℕ}
    (hi : g i = some a) (hinj : ∀ j ∈ is, g j = some a → j = i) :
    (is.erase i).map g = (l.erase a).map some := by
  induction is generalizing l with
  | nil =>
    have hnil : l = [] := by simpa using h
    rw [hnil]
    rfl
  | cons j is ih =>
    cases l with
    | nil => simp at h
    | cons b l =>
      rw [List.map_cons, List.map_cons, List.cons.injEq] at h
      obtain ⟨hj, htail⟩ := h
      by_cases hji : j = i
      · subst hji
        obtain rfl : b = a := Option.some.inj (hj.symm.trans hi)
        rw [List.erase_cons_head, List.erase_cons_head, htail]
      · have hba : b ≠ a := by
          rintro rfl
          exact hji (hinj j (List.mem_cons_self ..) hj)
        rw [List.erase_cons_tail (by simpa using hji), List.erase_cons_tail (by simpa using hba),
          List.map_cons, List.map_cons, hj,
          ih htail (fun k hk => hinj k (List.mem_cons_of_mem _ hk))]

end Lists

/-! ## The list of the policy -/

namespace LRUReplacement

variable {α : Type*} [DecidableEq α] {refs : List α} {outs : List (Paging.Outcome α)} {n : ℕ}
  {s : Paging.Pager α LRUReplacement}

/-- With the frames read as pages, the list holds the most recently referenced pages. -/
def Recent (n : ℕ) (refs : List α) (s : Paging.Pager α LRUReplacement) : Prop :=
  s.policy.list.map s.slots = ((recents refs).take n).map some

theorem Recent.holds_iff (h : Recent n refs s) {F : Finset ℕ} (hF : s.Covered n Tracks F)
    (p : α) : s.Holds p ↔ p ∈ (recents refs).take n := by
  have hmem : some p ∈ s.policy.list.map s.slots ↔ p ∈ (recents refs).take n := by
    rw [show s.policy.list.map s.slots = _ from h, List.mem_map]
    simp
  rw [← hmem, List.mem_map]
  constructor
  · rintro ⟨f, hf⟩
    exact ⟨f, (hF.tracked.mem_list f).mpr ((hF.mem_iff f).mpr ⟨p, hf⟩), hf⟩
  · rintro ⟨f, -, hf⟩
    exact ⟨f, hf⟩

omit [DecidableEq α] in
theorem length_list {F : Finset ℕ} (hF : s.Covered n Tracks F) :
    s.policy.list.length + s.free.length = n := by
  have hlist : s.policy.list.toFinset = F := by
    ext f
    rw [List.mem_toFinset, hF.tracked.mem_list]
  rw [← List.toFinset_card_of_nodup hF.tracked.nodup, hlist]
  exact hF.card_add

/-- **One reference** keeps the list up to date. -/
theorem Recent.step (hn : 0 < n) (h : Recent n refs s) {F : Finset ℕ} (hF : s.Covered n Tracks F)
    {p : α} {o : Paging.Outcome α} {t : Paging.Pager α LRUReplacement}
    (hstep : Paging.Step policy.toPolicy s p o t) : Recent n (refs ++ [p]) t := by
  obtain ⟨m, rfl⟩ : ∃ m, n = m + 1 := ⟨n - 1, by omega⟩
  have hlen := length_list hF
  have hlength : s.policy.list.length = min (m + 1) (recents refs).length := by
    rw [← List.length_map (f := s.slots), show s.policy.list.map s.slots = _ from h]
    simp
  have hholds := h.holds_iff hF
  unfold Recent
  rw [Paging.recents_append, List.take_succ_cons, List.map_cons]
  cases hstep with
  | @hit f hf =>
    have hmem : f ∈ F := (hF.mem_iff f).mpr ⟨p, hf⟩
    have hpage : p ∈ (recents refs).take (m + 1) := (hholds p).mp ⟨f, hf⟩
    show (s.policy.onAccess f).list.map s.slots = _
    rw [onAccess, if_pos (hF.tracked.map_eq ▸ hmem)]
    dsimp only
    rw [List.map_cons, hf, take_erase_of_mem hpage]
    congr 1
    exact map_erase_eq h hf (fun g _ hg => hF.inj g f p hg hf)
  | @load f free hp hfree =>
    have hlist : f ∉ s.policy.list := by
      rw [hF.tracked.mem_list, hF.mem_iff, hF.free_empty f (by rw [hfree]; exact List.mem_cons_self ..)]
      simp
    rw [hfree, List.length_cons] at hlen
    -- a list that is not full has not been cut off
    have hshort : (recents refs).length ≤ m := by omega
    have hpage : p ∉ recents refs := by
      rw [hholds, List.take_of_length_le (by omega)] at hp
      exact hp
    have hold : s.policy.list.map s.slots = (recents refs).map some := by
      rw [show s.policy.list.map s.slots = _ from h, List.take_of_length_le (by omega)]
    show (f :: s.policy.list).map (Function.update s.slots f (some p)) = _
    rw [List.map_cons, Function.update_self, List.erase_of_not_mem hpage,
      List.take_of_length_le hshort, ← hold]
    congr 1
    apply List.map_congr_left
    intro g hg
    have hgf : g ≠ f := fun heq => hlist (heq ▸ hg)
    exact Function.update_of_ne hgf _ _
  | @replace f π hp hfree hvictim =>
    have hlast : s.policy.list.getLast? = some f ∧ π = s.policy := by
      have hmap : s.policy.list.getLast?.map (fun f => (f, s.policy)) = some (f, π) := hvictim
      obtain ⟨g, hg, heq⟩ := Option.map_eq_some_iff.mp hmap
      obtain ⟨rfl, rfl⟩ := Prod.mk.inj heq
      exact ⟨hg, rfl⟩
    obtain ⟨hlast, rfl⟩ := hlast
    obtain ⟨front, hfront⟩ := List.getLast?_eq_some_iff.mp hlast
    have hnodup := hF.tracked.nodup
    rw [hfront, (List.perm_append_singleton f front).nodup_iff, List.nodup_cons] at hnodup
    have hmem : f ∈ F := (hF.tracked.mem_list f).mp (by rw [hfront]; simp)
    rw [hfree, List.length_nil, Nat.add_zero] at hlen
    have hpage : p ∉ (recents refs).take (m + 1) := fun hmem => hp ((hholds p).mpr hmem)
    have hpage' : p ∉ (recents refs).take m := fun hmem =>
      hpage ((List.take_subset_take_left _ (Nat.le_succ m)) hmem)
    -- all pages but the least recent one stay
    have hold : front.map s.slots = ((recents refs).take m).map some := by
      have hdrop := congrArg List.dropLast (show s.policy.list.map s.slots = _ from h)
      rw [hfront, List.map_append, List.map_singleton, List.dropLast_concat, ← List.map_dropLast,
        List.dropLast_eq_take, List.length_take, List.take_take] at hdrop
      rw [hdrop]
      congr 2
      omega
    show ((s.policy.onEvict f).onLoad f).list.map (Function.update s.slots f (some p)) = _
    rw [onEvict, if_pos (hF.tracked.map_eq ▸ hmem), hfront, onLoad, List.erase_append_right _ hnodup.1,
      List.erase_cons_head, List.append_nil, take_erase_of_notMem hpage', ← hold]
    dsimp only
    rw [List.map_cons, Function.update_self]
    congr 1
    apply List.map_congr_left
    intro g hg
    have hgf : g ≠ f := fun heq => hnodup.1 (heq ▸ hg)
    exact Function.update_of_ne hgf _ _

/-- **The list is the recency list of the textbook** along every run. -/
theorem recent_run (hn : 0 < n)
    (h : Paging.Run policy.toPolicy (Paging.Pager.start n ({} : LRUReplacement)) refs outs s) :
    Recent n refs s := by
  induction h with
  | nil => simp [Recent, Paging.Pager.start, recents]
  | snoc hrun hstep ih =>
    obtain ⟨F, hF⟩ := hrun.covered tracks hn (PolicyKind.tracks_initial .lru)
    exact ih.step hn hF hstep

end LRUReplacement

/-! ## The system -/

namespace VMSystem

variable {n : ℕ} {costs : CostModel} {ops : List Access} {rs : List AccessResult}
  {v : VMSystem LRUReplacement}

/-- The resident pages of a run with LRU. -/
theorem present_iff_recent (hn : 0 < n)
    (h : run LRUReplacement.policy (create n {} costs) ops = some (rs, v)) (pg : Page) :
    (∃ f, v.frameOf pg = some f) ↔ pg ∈ (recents (ops.map Access.page)).take n := by
  obtain ⟨outs, s, hv⟩ := run_refines h
  obtain ⟨F, hF⟩ := hv.run.covered LRUReplacement.tracks hn (PolicyKind.tracks_initial .lru)
  rw [← hv.refines.holds_iff]
  exact (LRUReplacement.recent_run hn hv.run).holds_iff hF pg

/-- The next reference of a run with LRU, and what it does to the counter. -/
theorem access_lru (hn : 0 < n)
    (h : run LRUReplacement.policy (create n {} costs) ops = some (rs, v)) (op : Access) :
    ∃ r w, access LRUReplacement.policy v op = some (r, w) ∧
      run LRUReplacement.policy (create n {} costs) (ops ++ [op]) = some (rs ++ [r], w) ∧
      (r.pageFault = true ↔ op.page ∉ (recents (ops.map Access.page)).take n) ∧
      w.faults = v.faults + if r.pageFault then 1 else 0 := by
  obtain ⟨outs, s, hv⟩ := run_refines h
  obtain ⟨F, hF⟩ := hv.run.covered LRUReplacement.tracks hn (PolicyKind.tracks_initial .lru)
  rcases hv.refines.access (R := LRUReplacement.policy) hv.coherent op with ⟨hfree, hnone, -⟩ |
    ⟨o, t, r, w, hsome, hstep, -, -, hreports⟩
  · obtain ⟨f, π, hvictim, -⟩ := hF.victim LRUReplacement.tracks hn hfree
    rw [hnone] at hvictim
    simp at hvictim
  · refine ⟨r, w, hsome, ?_, ?_, ?_⟩
    · rw [run] at h
      rw [run, runWith_append_singleton, h, Option.bind_some, hsome]
      rfl
    · rw [hreports.pageFault_eq, hstep.isFault_iff,
        (LRUReplacement.recent_run hn hv.run).holds_iff hF]
    · rw [hreports.faults_eq, hreports.pageFault_eq]

end VMSystem

/-- **The system with LRU replacement is textbook LRU.**  After every reference the present
pages are the most recently referenced distinct pages, as many as there are frames, and
the reference is a page fault exactly if its page was not one of these before. -/
theorem vm_lru_is_textbook (frames : ℕ) (costs : CostModel) (ops : List Access) (op : Access)
    (hframes : 1 ≤ frames) :
    ∃ rs v r w,
      VMSystem.run LRUReplacement.policy (VMSystem.create frames {} costs) ops = some (rs, v) ∧
      VMSystem.access LRUReplacement.policy v op = some (r, w) ∧
      (∀ pg, (∃ f, w.frameOf pg = some f) ↔
        pg ∈ (recents ((ops ++ [op]).map Access.page)).take frames) ∧
      (r.pageFault = true ↔ op.page ∉ (recents (ops.map Access.page)).take frames) := by
  obtain ⟨rs, v, hrun⟩ := VMSystem.run_returns LRUReplacement.tracks
    (PolicyKind.tracks_initial .lru) hframes costs ops
  obtain ⟨r, w, haccess, hrun', hfault, -⟩ := VMSystem.access_lru hframes hrun op
  exact ⟨rs, v, r, w, hrun, haccess, VMSystem.present_iff_recent hframes hrun', hfault⟩

/-- The written page of process 1 is the least recent one when it is evicted. -/
theorem twoProcesses_lru :
    (recents (([⟨1, 0, true⟩, ⟨2, 0, false⟩] ++ [⟨1, 1, false⟩] : List Access).map
        Access.page)).take 2 = [(1, 1), (2, 0)] ∧
    ∃ rs v r w,
      VMSystem.run LRUReplacement.policy (VMSystem.create 2 {} {}) [⟨1, 0, true⟩, ⟨2, 0, false⟩]
        = some (rs, v) ∧
      VMSystem.access LRUReplacement.policy v ⟨1, 1, false⟩ = some (r, w) ∧
      (∀ pg, (∃ f, w.frameOf pg = some f) ↔
        pg ∈ (recents (([⟨1, 0, true⟩, ⟨2, 0, false⟩] ++ [⟨1, 1, false⟩] : List Access).map
          Access.page)).take 2) ∧
      (r.pageFault = true ↔ Access.page ⟨1, 1, false⟩ ∉
        (recents (([⟨1, 0, true⟩, ⟨2, 0, false⟩] : List Access).map Access.page)).take 2) :=
  ⟨by decide, vm_lru_is_textbook 2 {} [⟨1, 0, true⟩, ⟨2, 0, false⟩] ⟨1, 1, false⟩ (by decide)⟩

/-! ## More frames -/

/-- Two systems with LRU, one with a frame more: after every prefix of a sequence of
references, the larger has the resident pages of the smaller and no more faults. -/
theorem lru_inclusion {n : ℕ} (hn : 0 < n) (costs : CostModel) (ops : List Access) :
    ∃ rs v rs' w,
      VMSystem.run LRUReplacement.policy (VMSystem.create n {} costs) ops = some (rs, v) ∧
      VMSystem.run LRUReplacement.policy (VMSystem.create (n + 1) {} costs) ops = some (rs', w) ∧
      (∀ pg, (∃ f, v.frameOf pg = some f) → ∃ f, w.frameOf pg = some f) ∧
      w.faults ≤ v.faults := by
  have hsubset : ∀ refs : List Page, ∀ pg ∈ (recents refs).take n, pg ∈ (recents refs).take (n + 1) :=
    fun refs pg hpg => (List.take_subset_take_left _ (Nat.le_succ n)) hpg
  induction ops using List.reverseRecOn with
  | nil =>
    refine ⟨[], _, [], _, rfl, rfl, ?_, le_refl 0⟩
    simp [VMSystem.create, VMSystem.frameOf]
  | append_singleton ops op ih =>
    obtain ⟨rs, v, rs', w, hv, hw, -, hle⟩ := ih
    obtain ⟨r, v₁, -, hv₁, hfault, hcount⟩ := VMSystem.access_lru hn hv op
    obtain ⟨r', w₁, -, hw₁, hfault', hcount'⟩ := VMSystem.access_lru (Nat.succ_pos n) hw op
    refine ⟨_, v₁, _, w₁, hv₁, hw₁, fun pg hpg => ?_, ?_⟩
    · rw [VMSystem.present_iff_recent (Nat.succ_pos n) hw₁]
      exact hsubset _ pg ((VMSystem.present_iff_recent hn hv₁ pg).mp hpg)
    · -- a fault of the larger system is one of the smaller
      rw [hcount, hcount']
      by_cases hlarge : r'.pageFault = true
      · have hsmall : r.pageFault = true :=
          hfault.mpr (fun hmem => hfault'.mp hlarge (hsubset _ _ hmem))
        rw [if_pos hlarge, if_pos hsmall]
        omega
      · rw [if_neg hlarge]
        omega

/-- **LRU has no Belady anomaly.**  With a frame more, a run over the same trace reports at
most as many faults, and after every prefix of the trace the resident pages of the
smaller system are resident in the larger. -/
theorem lru_no_belady_anomaly (name : String) (trace : List ℕ) (n : ℕ) (cm : CostModel)
    (hn : 1 ≤ n) :
    (∃ a b, runSim name trace n LRUReplacement.policy {} cm = some a ∧
      runSim name trace (n + 1) LRUReplacement.policy {} cm = some b ∧ b.faults ≤ a.faults) ∧
    ∀ k, ∃ rs v rs' w,
      VMSystem.run LRUReplacement.policy (VMSystem.create n {} cm) (reads (trace.take k))
        = some (rs, v) ∧
      VMSystem.run LRUReplacement.policy (VMSystem.create (n + 1) {} cm) (reads (trace.take k))
        = some (rs', w) ∧
      ∀ pg, (∃ f, v.frameOf pg = some f) → ∃ f, w.frameOf pg = some f := by
  constructor
  · obtain ⟨rs, v, rs', w, hv, hw, -, hle⟩ := lru_inclusion hn cm (reads trace)
    unfold runSim
    rw [hv, hw]
    exact ⟨_, _, rfl, rfl, hle⟩
  · intro k
    obtain ⟨rs, v, rs', w, hv, hw, hsub, -⟩ := lru_inclusion hn cm (reads (trace.take k))
    exact ⟨rs, v, rs', w, hv, hw, hsub⟩

/-- The trace of the Belady experiment. -/
def beladyTrace : List ℕ := [1, 2, 3, 4, 1, 2, 5, 1, 2, 3, 4, 5]

/-- On the trace of the Belady experiment, LRU has ten faults with three frames and eight
with four. -/
theorem belady_lru :
    ([3, 4].map fun n => (runSim "belady" beladyTrace n LRUReplacement.policy {} {}).map
      RunResult.faults) = [some 10, some 8] ∧
    (∃ a b, runSim "belady" beladyTrace 3 LRUReplacement.policy {} {} = some a ∧
      runSim "belady" beladyTrace 4 LRUReplacement.policy {} {} = some b ∧ b.faults ≤ a.faults) :=
  ⟨by decide +kernel, (lru_no_belady_anomaly "belady" beladyTrace 3 {} (by decide)).1⟩

end Memlab
