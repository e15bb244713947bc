/-
# FIFO replacement

`victim` leaves the frame it returns at the head of the queue, and relies on the set of
frames in use to skip it later.  But the system loads a page into that frame at once, so
that the frame is in use again: the head of the queue is frame 0 for ever, and frame 0
is the victim of every eviction (`victim_zero`).

With one frame this is FIFO.  With more it is FIFO up to the first eviction; the second
one takes the page that came last.  Hence the system is FIFO exactly on the reference
strings that make it evict at most once (`fifo_evicts_oldest_iff`).
-/
import MemoryAllocator.PagingAlgorithms
import MemoryAllocator.VmLru

namespace Memlab

open Paging (firsts loads LoadedBefore SingleEviction fifoQueue fifoFaults)

namespace FIFOReplacement

variable {α : Type*} {refs : List α} {outs : List (Paging.Outcome α)} {n : ℕ}
  {s : Paging.Pager α FIFOReplacement}

theorem tracks_initial : Tracks ∅ {} := ⟨rfl, by simp⟩

/-- A queue whose head is in use. -/
theorem victim_of_head {q : FIFOReplacement} (hhead : q.order.head? = some 0) (huse : 0 ∈ q.inUse) :
    q.victim = some (0, q) := by
  obtain ⟨rest, hrest⟩ := List.head?_eq_some_iff.mp hhead
  have hdrop : q.order.dropWhile (fun f => f ∉ q.inUse) = 0 :: rest := by
    rw [hrest, List.dropWhile_cons_of_neg (by simpa using huse)]
  rw [victim, hdrop]
  dsimp only
  rw [← hrest]

/-- Frame 0 is at the head of the queue once there is one. -/
theorem head_run (hn : 0 < n)
    (h : Paging.Run policy.toPolicy (Paging.Pager.start n ({} : FIFOReplacement)) refs outs s) :
    s.policy.order.head? = some 0 ∨ (s.policy.order = [] ∧ s.free = List.range n) := by
  induction h with
  | nil => exact .inr ⟨rfl, rfl⟩
  | @snoc refs outs s t p o hrun hstep ih =>
    obtain ⟨F, hF⟩ := hrun.covered tracks hn tracks_initial
    cases hstep with
    | hit hf => exact ih
    | @load f free hp hfree =>
      refine .inl ?_
      show (s.policy.order ++ [f]).head? = some 0
      rcases ih with hhead | ⟨hnil, hrange⟩
      · rw [List.head?_append, hhead]
        rfl
      · -- the first frame of a full pool
        obtain ⟨m, rfl⟩ : ∃ m, n = m + 1 := ⟨n - 1, by omega⟩
        rw [hrange, List.range_succ_eq_map, List.cons.injEq] at hfree
        rw [hnil, ← hfree.1]
        rfl
    | @replace f π hp hfree hvictim =>
      rcases ih with hhead | ⟨-, hrange⟩
      · have huse : 0 ∈ s.policy.inUse := by
          rw [hF.tracked.inUse_eq]
          exact ((hF.lt_iff 0).mp hn).resolve_right (by rw [hfree]; simp)
        have heq := (victim_of_head hhead huse).symm.trans hvictim
        obtain ⟨rfl, rfl⟩ := Prod.mk.inj (Option.some.inj heq)
        refine .inl ?_
        show (s.policy.order ++ [0]).head? = some 0
        rw [List.head?_append, hhead]
        rfl
      · rw [hrange, List.range_eq_nil] at hfree
        omega

/-- **Every victim is frame 0.** -/
theorem victim_zero (hn : 0 < n)
    (h : Paging.Run policy.toPolicy (Paging.Pager.start n ({} : FIFOReplacement)) refs outs s)
    (hfree : s.free = []) {f : ℕ} {π : FIFOReplacement} (hvictim : s.policy.victim = some (f, π)) :
    f = 0 := by
  obtain ⟨F, hF⟩ := h.covered tracks hn tracks_initial
  rcases head_run hn h with hhead | ⟨-, hrange⟩
  · have huse : 0 ∈ s.policy.inUse := by
      rw [hF.tracked.inUse_eq]
      exact ((hF.lt_iff 0).mp hn).resolve_right (by rw [hfree]; simp)
    have heq := (victim_of_head hhead huse).symm.trans hvictim
    exact (Prod.mk.inj (Option.some.inj heq)).1.symm
  · rw [hrange, List.range_eq_nil] at hfree
    omega

theorem firstOut (hn : 0 < n) [DecidableEq α] :
    Paging.FirstOut policy.toPolicy ({} : FIFOReplacement) n α := by
  intro refs outs s hrun hlen f π hvictim
  obtain ⟨-, hfree, -⟩ := hrun.fill hlen.le
  rw [hlen, List.drop_eq_nil_of_le (by simp)] at hfree
  exact victim_zero hn hrun hfree hvictim

variable [DecidableEq α]

/-- With one frame or one eviction, the resident pages are those of textbook FIFO. -/
theorem holds_iff_mem_fifoQueue (hn : 0 < n)
    (h : Paging.Run policy.toPolicy (Paging.Pager.start n ({} : FIFOReplacement)) refs outs s)
    (hcond : n = 1 ∨ SingleEviction n refs) (q : α) : s.Holds q ↔ q ∈ fifoQueue n refs := by
  rcases hcond with rfl | hsingle
  · rw [h.holds_iff_of_one tracks tracks_initial, Paging.fifoQueue_one, Option.mem_toList]
  · by_cases hle : (firsts refs).length ≤ n
    · rw [h.holds_iff_of_fill hle, Paging.fifoQueue_fill hle, Paging.mem_firsts]
    · obtain ⟨pre, a, post, heq, ha, hlen⟩ := Paging.exists_split (not_le.mp hle)
      have hs := h.single (firstOut hn) hsingle heq ha hlen
      rw [hs.holds_iff, heq, Paging.fifoQueue_single ha hlen (hsingle pre a post heq ha hlen),
        List.mem_append, List.mem_singleton]
      exact or_comm

theorem isFault_eq_fifoFaults (hn : 0 < n)
    (h : Paging.Run policy.toPolicy (Paging.Pager.start n ({} : FIFOReplacement)) refs outs s)
    (hcond : n = 1 ∨ SingleEviction n refs) :
    outs.map Paging.Outcome.isFault = fifoFaults n refs := by
  refine h.isFault_eq_fifoFaults (P := fun refs => n = 1 ∨ SingleEviction n refs) ?_ ?_ hcond
  · exact fun refs p hrefs => hrefs.imp_right (fun hsingle => hsingle.of_append)
  · exact fun refs outs s hrun hrefs => holds_iff_mem_fifoQueue hn hrun hrefs

/-- With one frame or one eviction, the page that leaves came before the others. -/
theorem loadedBefore_of_replace (hn : 0 < n)
    (h : Paging.Run policy.toPolicy (Paging.Pager.start n ({} : FIFOReplacement)) refs outs s)
    {p x : α} (hcond : n = 1 ∨ SingleEviction n (refs ++ [p])) {f : ℕ}
    {t : Paging.Pager α FIFOReplacement}
    (hstep : Paging.Step policy.toPolicy s p (.replace f (some x)) t) {q : α} (hq : s.Holds q)
    (hne : q ≠ x) : LoadedBefore (loads refs (outs.map Paging.Outcome.isFault)) x q := by
  obtain ⟨hp, hfree, hx, π, hvictim⟩ := hstep.replace_inv
  rcases hcond with rfl | hsingle
  · -- one frame holds one page
    have hlast := (h.holds_iff_of_one tracks tracks_initial x).mp ⟨f, hx⟩
    rw [(h.holds_iff_of_one tracks tracks_initial q).mp hq, Option.some.injEq] at hlast
    exact absurd hlast hne
  · by_cases hle : (firsts refs).length ≤ n
    · -- the first eviction
      obtain ⟨hslots, hdrop, -⟩ := h.fill hle
      obtain rfl := victim_zero hn h hfree hvictim
      rw [hslots, ← List.head?_eq_getElem?, List.head?_eq_some_iff] at hx
      obtain ⟨rest, hrest⟩ := hx
      have hnodup := Paging.nodup_firsts refs
      have hmem := Paging.mem_firsts.mpr (h.mem_of_holds hq)
      rw [hrest, List.nodup_cons] at hnodup
      rw [hrest, List.mem_cons] at hmem
      refine ⟨[], rest, ?_, hnodup.1, hmem.resolve_left hne⟩
      rw [(h.loads_fill hle).1, hrest]
      rfl
    · -- there is no second one
      obtain ⟨pre, a, post, rfl, ha, hlen⟩ := Paging.exists_split (not_le.mp hle)
      have hs := h.single (firstOut hn) hsingle.of_append rfl ha hlen
      refine absurd ((hs.holds_iff p).mpr ?_) hp
      exact hsingle pre a (post ++ [p]) (by simp) ha hlen p (by simp)

/-- With more frames, a second eviction takes the page that came last. -/
theorem replace_of_second (hn : 2 ≤ n) {pre post : List α} {a b : α}
    (h : Paging.Run policy.toPolicy (Paging.Pager.start n ({} : FIFOReplacement))
      (pre ++ a :: post) outs s) (ha : a ∉ pre) (hlen : (firsts pre).length = n)
    (hsingle : SingleEviction n (pre ++ a :: post)) (hba : b ≠ a) (hb : b ∉ (firsts pre).tail)
    {o : Paging.Outcome α} {t : Paging.Pager α FIFOReplacement}
    (hstep : Paging.Step policy.toPolicy s b o t) :
    o = .replace 0 (some a) ∧ ∃ q, s.Holds q ∧ q ≠ a ∧
      ¬ LoadedBefore (loads (pre ++ a :: post) (outs.map Paging.Outcome.isFault)) a q := by
  have hs := h.single (firstOut (by omega)) hsingle rfl ha hlen
  have hnot : ¬ s.Holds b := fun hheld => ((hs.holds_iff b).mp hheld).elim hba hb
  constructor
  · cases hstep with
    | hit hf => exact absurd ⟨_, hf⟩ hnot
    | load hp hcons =>
      rw [hs.free_eq] at hcons
      simp at hcons
    | @replace f π hp hfree hvictim =>
      obtain rfl := victim_zero (by omega) h hfree hvictim
      rw [hs.slots_eq, if_pos rfl]
  · have hlt : 1 < (firsts pre).length := by omega
    have hmem : (firsts pre)[1] ∈ firsts pre := List.getElem_mem hlt
    have hne : (firsts pre)[1] ≠ a := fun heq => ha (Paging.mem_firsts.mp (heq ▸ hmem))
    refine ⟨(firsts pre)[1], ⟨1, ?_⟩, hne, ?_⟩
    · rw [hs.slots_eq, if_neg Nat.one_ne_zero, List.getElem?_eq_getElem hlt]
    · rw [hs.loads_eq]
      exact Paging.not_loadedBefore_last _ a _

end FIFOReplacement

/-! ## The system -/

/-- Every eviction of the calls takes the page that was brought in before all the other
resident pages. -/
def EvictsOldest (frames : ℕ) (costs : CostModel) (ops : List Access) : Prop :=
  ∀ pre op post, ops = pre ++ op :: post → ∀ rs v r w,
    VMSystem.run FIFOReplacement.policy (VMSystem.create frames {} costs) pre = some (rs, v) →
    VMSystem.access FIFOReplacement.policy v op = some (r, w) →
    ∀ pg ∈ VMSystem.evictedPages v w, ∀ q ∈ v.residents, q ≠ pg →
      LoadedBefore (loads (pre.map Access.page) (rs.map AccessResult.pageFault)) pg q

/-- The page faults of the calls are those of textbook FIFO. -/
def FaultsLikeFifo (frames : ℕ) (costs : CostModel) (ops : List Access) : Prop :=
  ∃ rs v,
    VMSystem.run FIFOReplacement.policy (VMSystem.create frames {} costs) ops = some (rs, v) ∧
    rs.map AccessResult.pageFault = fifoFaults frames (ops.map Access.page)

section

variable {frames : ℕ} {costs : CostModel} {ops : List Access}

theorem faultsLikeFifo_of_single (hframes : 1 ≤ frames)
    (h : frames = 1 ∨ SingleEviction frames (ops.map Access.page)) :
    FaultsLikeFifo frames costs ops := by
  obtain ⟨rs, v, hrun⟩ := VMSystem.run_returns FIFOReplacement.tracks
    FIFOReplacement.tracks_initial hframes costs ops
  obtain ⟨outs, s, hv⟩ := VMSystem.run_refines hrun
  refine ⟨rs, v, hrun, ?_⟩
  rw [hv.pageFault_eq]
  exact FIFOReplacement.isFault_eq_fifoFaults hframes hv.run h

theorem evictsOldest_of_single (hframes : 1 ≤ frames)
    (h : frames = 1 ∨ SingleEviction frames (ops.map Access.page)) :
    EvictsOldest frames costs ops := by
  rintro pre op post rfl rs v r w hrun haccess pg hpg q hq hne
  obtain ⟨outs, s, hv⟩ := VMSystem.run_refines hrun
  obtain ⟨o, t, hstep, hw⟩ := hv.access haccess
  rw [hv.refines.evictedPages_eq hw.refines hstep, Option.mem_toList] at hpg
  rw [hv.refines.mem_residents, ← hv.refines.holds_iff] at hq
  rw [hv.pageFault_eq]
  -- the condition of the calls so far
  have hstart : frames = 1 ∨ SingleEviction frames (pre.map Access.page ++ [op.page]) := by
    refine h.imp_right (fun hsingle => ?_)
    rw [List.map_append, List.map_cons] at hsingle
    exact hsingle.of_prefix (by simp)
  match o, hpg with
  | .replace f (some x), hpg =>
    obtain rfl : x = pg := by simpa [Paging.Outcome.evicted] using hpg
    exact FIFOReplacement.loadedBefore_of_replace hframes hv.run hstart hstep hq hne

theorem single_of_evictsOldest (hframes : 2 ≤ frames) (h : EvictsOldest frames costs ops) :
    SingleEviction frames (ops.map Access.page) := by
  by_contra hnot
  obtain ⟨pre, a, post, b, rest, heq, ha, hlen, hsingle, hba, hb⟩ := Paging.exists_second hnot
  obtain ⟨ops₁, ops₂, rfl, hpre, hrest⟩ := List.map_eq_append_iff.mp heq
  obtain ⟨op, ops₂, rfl, rfl, -⟩ := List.map_eq_cons_iff.mp hrest
  -- run the calls up to the second eviction
  obtain ⟨rs', w, hrun'⟩ := VMSystem.run_returns FIFOReplacement.tracks
    FIFOReplacement.tracks_initial (n := frames) (by omega) costs (ops₁ ++ [op])
  obtain ⟨rs, v, r, hrun, haccess, -⟩ := VMSystem.run_append_singleton hrun'
  obtain ⟨outs, s, hv⟩ := VMSystem.run_refines hrun
  obtain ⟨o, t, hstep, hw⟩ := hv.access haccess
  have hrun₁ := hv.run
  rw [hpre] at hrun₁
  obtain ⟨rfl, q, hq, hqa, hlate⟩ :=
    FIFOReplacement.replace_of_second hframes hrun₁ ha hlen hsingle hba hb hstep
  apply hlate
  rw [← hpre, ← hv.pageFault_eq]
  refine h ops₁ op ops₂ rfl rs v r w hrun haccess a ?_ q ?_ hqa
  · rw [hv.refines.evictedPages_eq hw.refines hstep]
    exact List.mem_singleton_self a
  · rwa [hv.refines.mem_residents, ← hv.refines.holds_iff]

end

/-- **When the system with FIFO replacement is FIFO.**  The evictions take the oldest pages
and the page faults are those of textbook FIFO exactly if there is one frame, or if the
first page that finds no free frame is followed by itself and the pages that are left
only. -/
theorem fifo_evicts_oldest_iff (frames : ℕ) (costs : CostModel) (ops : List Access)
    (hframes : 1 ≤ frames) :
    EvictsOldest frames costs ops ∧ FaultsLikeFifo frames costs ops ↔
      frames = 1 ∨ SingleEviction frames (ops.map Access.page) := by
  constructor
  · rintro ⟨holdest, -⟩
    by_cases hone : frames = 1
    · exact .inl hone
    · exact .inr (single_of_evictsOldest (by omega) holdest)
  · intro h
    exact ⟨evictsOldest_of_single hframes h, faultsLikeFifo_of_single hframes h⟩

/-- The start of the Belady experiment with four frames: page 5 takes the place of page 1. -/
theorem belady_start_fifo :
    EvictsOldest 4 {} (reads [1, 2, 3, 4, 1, 2, 5, 2, 3]) ∧
      FaultsLikeFifo 4 {} (reads [1, 2, 3, 4, 1, 2, 5, 2, 3]) :=
  (fifo_evicts_oldest_iff 4 {} (reads [1, 2, 3, 4, 1, 2, 5, 2, 3]) (by decide)).mpr
    (.inr (Paging.singleEviction_of_split ((reads [1, 2, 3, 4, 1, 2]).map Access.page)
      ((reads [2, 3]).map Access.page) (1, 5) (by decide) (by decide) (by decide)))

/-- The Belady experiment with four frames: the reference to page 1 after page 5 evicts
page 5, which came last, and there are seven page faults where FIFO has ten. -/
theorem belady_not_fifo :
    (runSim "belady" beladyTrace 4 FIFOReplacement.policy {} {}).map RunResult.faults = some 7 ∧
    (fifoFaults 4 beladyTrace).count true = 10 ∧
    ¬ EvictsOldest 4 {} (reads beladyTrace) ∧ ¬ FaultsLikeFifo 4 {} (reads beladyTrace) := by
  refine ⟨by decide +kernel, by decide +kernel, fun holdest => ?_, ?_⟩
  · -- what is known when page 1 comes back
    have hstate : (VMSystem.run FIFOReplacement.policy (VMSystem.create 4 {} {})
        (reads [1, 2, 3, 4, 1, 2, 5])).bind (fun rv =>
          (VMSystem.access FIFOReplacement.policy rv.2 ⟨1, 1, false⟩).map (fun rw =>
            (VMSystem.evictedPages rv.2 rw.2, rv.2.residents, rv.1.map AccessResult.pageFault)))
        = some ([(1, 5)], [(1, 2), (1, 3), (1, 4), (1, 5)],
            [true, true, true, true, false, false, true]) := by
      decide +kernel
    obtain ⟨⟨rs, v⟩, hrun, hmap⟩ := Option.bind_eq_some_iff.mp hstate
    obtain ⟨⟨r, w⟩, haccess, heq⟩ := Option.map_eq_some_iff.mp hmap
    simp only [Prod.mk.injEq] at heq
    obtain ⟨hevicted, hresidents, hfaults⟩ := heq
    have hbefore := holdest _ _ (reads [2, 3, 4, 5]) rfl rs v r w hrun haccess (1, 5)
      (by rw [hevicted]; decide) (1, 2) (by rw [hresidents]; decide) (by decide)
    rw [hfaults] at hbefore
    exact Paging.not_loadedBefore_last [(1, 1), (1, 2), (1, 3), (1, 4)] (1, 5) (1, 2) hbefore
  · rintro ⟨rs, v, hrun, hfaults⟩
    have hcode : (VMSystem.run FIFOReplacement.policy (VMSystem.create 4 {} {})
        (reads beladyTrace)).map (fun rv => rv.1.map AccessResult.pageFault)
        ≠ some (fifoFaults 4 ((reads beladyTrace).map Access.page)) := by
      decide +kernel
    rw [hrun] at hcode
    exact hcode (congrArg some hfaults)

end Memlab
