/-
# Optimal replacement

The optimal policy is constructed from the trace of page numbers, but it is told of
frames, and it looks for frame numbers in the trace.  Nobody moves its cursor, either.
Hence the frame it gives up depends on where the numbers below the number of frames
first occur in the trace, and for a trace that has them all it is the same frame for
ever.

With one frame there is no choice, and while the frames last there is none to make; in
these cases the policy is a lower bound (`optimal_lower_bound`).  With two or more frames
it is not: on the trace `0, 1, ..., n, n - 1` it gives up the frame of page `n - 1` for
page `n`, and LRU has a page fault less.
-/
import MemoryAllocator.VmFifo

namespace Memlab

open Paging (firsts recents)

namespace OptimalReplacement

variable {α : Type*} {refs : List α} {outs : List (Paging.Outcome α)} {n : ℕ}
  {order : HashOrder} {trace : List ℕ} {s : Paging.Pager α OptimalReplacement}

theorem tracks_initial (trace : List ℕ) : Tracks ∅ { trace := trace } :=
  ⟨List.nodup_nil, by simp⟩

/-- Runs leave the trace and the cursor as they are. -/
theorem cursor_run (h : Paging.Run (policy order).toPolicy
    (Paging.Pager.start n ({ trace := trace } : OptimalReplacement)) refs outs s) :
    s.policy.trace = trace ∧ s.policy.pos = 0 := by
  have honLoad : ∀ (f : ℕ) (q : OptimalReplacement),
      (q.onLoad order f).trace = q.trace ∧ (q.onLoad order f).pos = q.pos := by
    intro f q
    unfold onLoad
    split_ifs
    · exact ⟨rfl, rfl⟩
    · exact ⟨rfl, rfl⟩
  induction h with
  | nil => exact ⟨rfl, rfl⟩
  | @snoc refs outs s t p o hrun hstep ih =>
    cases hstep with
    | hit hf => exact ih
    | @load f free hp hfree =>
      show (s.policy.onLoad order f).trace = trace ∧ (s.policy.onLoad order f).pos = 0
      rw [(honLoad f s.policy).1, (honLoad f s.policy).2]
      exact ih
    | @replace f π hp hfree hvictim =>
      obtain rfl : π = s.policy := by
        have hchoice : s.policy.victim = some (f, π) := hvictim
        unfold victim at hchoice
        split at hchoice
        · simp at hchoice
        · exact ((Prod.mk.inj (Option.some.inj hchoice)).2).symm
      show ((s.policy.onEvict f).onLoad order f).trace = trace ∧
        ((s.policy.onEvict f).onLoad order f).pos = 0
      rw [(honLoad f _).1, (honLoad f _).2]
      exact ih

/-- The loop of `victim` finds the one frame with the latest next use. -/
theorem foldl_better_eq (q : OptimalReplacement) {m : ℕ} (l : List ℕ) (best : ℕ × ℕ)
    (hmax : ∀ f ∈ l, f ≠ m → q.nextUse f < q.nextUse m)
    (hbest : best = (m, q.nextUse m) ∨ (m ∈ l ∧ best.2 < q.nextUse m)) :
    l.foldl q.better best = (m, q.nextUse m) := by
  induction l generalizing best with
  | nil =>
    rcases hbest with rfl | ⟨hmem, -⟩
    · rfl
    · simp at hmem
  | cons f l ih =>
    rw [List.foldl_cons]
    apply ih _ (fun g hg => hmax g (List.mem_cons_of_mem _ hg))
    by_cases hf : f = m
    · subst hf
      refine .inl ?_
      rcases hbest with rfl | ⟨-, hlt⟩
      · exact if_neg (lt_irrefl _)
      · exact if_pos hlt
    · have hlt := hmax f (List.mem_cons_self ..) hf
      rcases hbest with rfl | ⟨hmem, hbest⟩
      · exact .inl (if_neg (not_lt.mpr hlt.le))
      · refine .inr ⟨(List.mem_cons.mp hmem).resolve_left (Ne.symm hf), ?_⟩
        unfold better
        split_ifs
        · exact hlt
        · exact hbest

/-- Every page up to `n`, then page `n - 1` again. -/
def onceMore (n : ℕ) : List ℕ := List.range (n + 1) ++ [n - 1]

theorem map_onceMore (pg : ℕ → α) (n : ℕ) :
    (onceMore n).map pg = ((List.range n).map pg ++ [pg n]) ++ [pg (n - 1)] := by
  rw [onceMore, List.range_succ, List.map_append, List.map_append]
  rfl

/-- A frame below `n` is taken for the page of that number. -/
theorem nextUse_onceMore {q : OptimalReplacement} (htrace : q.trace = onceMore n) (hpos : q.pos = 0)
    {f : ℕ} (hf : f ≤ n) : q.nextUse f = f := by
  have hget : ∀ j ≤ n, (onceMore n)[j]? = some j := by
    intro j hj
    rw [onceMore, List.getElem?_append_left (by simpa using by omega),
      List.getElem?_range (by omega)]
  have hfind : (onceMore n).findIdx? (fun page => decide (page = f)) = some f := by
    rw [List.findIdx?_eq_some_iff_getElem]
    obtain ⟨hlt, heq⟩ := List.getElem?_eq_some_iff.mp (hget f hf)
    refine ⟨hlt, by simp [heq], fun j hj => ?_⟩
    obtain ⟨hlt', heq'⟩ := List.getElem?_eq_some_iff.mp (hget j (by omega))
    simp only [heq', decide_eq_true_eq]
    omega
  rw [nextUse, htrace, hpos, List.drop_zero, hfind]
  exact Nat.zero_add f

/-- The last frame is given up. -/
theorem victim_onceMore (hn : 2 ≤ n) {q : OptimalReplacement} (htrace : q.trace = onceMore n)
    (hpos : q.pos = 0) (hloaded : ∀ f, f ∈ q.loaded ↔ f < n) : q.victim = some (n - 1, q) := by
  have huse : ∀ f < n, q.nextUse f = f := fun f hf => nextUse_onceMore htrace hpos hf.le
  have hmem : n - 1 ∈ q.loaded := (hloaded _).mpr (by omega)
  have hlast : q.nextUse (n - 1) = n - 1 := huse _ (by omega)
  unfold victim
  split
  · next hnil =>
    rw [hnil] at hmem
    simp at hmem
  · next first rest hcons =>
    rw [foldl_better_eq q (m := n - 1) q.loaded (first, 0)]
    · intro f hf hne
      have hlt := (hloaded f).mp hf
      rw [huse f hlt, hlast]
      omega
    · refine .inr ⟨hmem, ?_⟩
      rw [hlast]
      show 0 < n - 1
      omega

/-- **The policy evicts the page that is needed next**, and has `n + 2` page faults. -/
theorem faults_onceMore [DecidableEq α] (hn : 2 ≤ n) {pg : ℕ → α} (hpg : Function.Injective pg)
    (h : Paging.Run (policy order).toPolicy
      (Paging.Pager.start n ({ trace := onceMore n } : OptimalReplacement))
      ((onceMore n).map pg) outs s) : Paging.faults outs = n + 2 := by
  rw [map_onceMore] at h
  obtain ⟨outs, o₂, s₁, rfl, h₁, hstep₂⟩ := h.snoc_inv
  obtain ⟨outs, o₁, s₀, rfl, h₀, hstep₁⟩ := h₁.snoc_inv
  -- the frames are full
  have hfirsts : firsts ((List.range n).map pg) = (List.range n).map pg :=
    Paging.firsts_of_nodup (List.nodup_range.map hpg)
  have hlen : (firsts ((List.range n).map pg)).length = n := by simp [hfirsts]
  obtain ⟨hslots, hfree, hfaults⟩ := h₀.fill hlen.le
  obtain ⟨F, hF⟩ := h₀.covered (tracks order) (by omega) (tracks_initial _)
  rw [hlen, List.drop_eq_nil_of_le (by simp)] at hfree
  have hslot : ∀ f q, s₀.slots f = some q → f < n ∧ q = pg f := by
    intro f q hf
    rw [hslots, hfirsts, List.getElem?_map, Option.map_eq_some_iff] at hf
    obtain ⟨m, hm, rfl⟩ := hf
    obtain ⟨hlt, rfl⟩ := List.getElem?_eq_some_iff.mp hm
    simpa using hlt
  have hnew : ¬ s₀.Holds (pg n) := by
    rintro ⟨f, hf⟩
    obtain ⟨hlt, heq⟩ := hslot f _ hf
    exact absurd (hpg heq) (by omega)
  -- page `n` takes the frame of page `n - 1`
  have hslots₁ : o₁.isFault = true ∧
      s₁.slots = Function.update s₀.slots (n - 1) (some (pg n)) := by
    refine ⟨hstep₁.isFault_iff.mpr hnew, ?_⟩
    cases hstep₁ with
    | hit hf => exact absurd ⟨_, hf⟩ hnew
    | load hp hcons =>
      rw [hfree] at hcons
      simp at hcons
    | @replace f π hp hnil hvictim =>
      have hloaded : ∀ f, f ∈ s₀.policy.loaded ↔ f < n := by
        intro f
        rw [hF.tracked.mem_loaded, hF.lt_iff, hfree]
        simp
      obtain ⟨htrace, hpos⟩ := cursor_run h₀
      have hchoice := (victim_onceMore hn htrace hpos hloaded).symm.trans hvictim
      obtain ⟨rfl, -⟩ := Prod.mk.inj (Option.some.inj hchoice)
      rfl
  have hback : ¬ s₁.Holds (pg (n - 1)) := by
    rintro ⟨f, hf⟩
    rw [hslots₁.2] at hf
    by_cases hlast : f = n - 1
    · subst hlast
      rw [Function.update_self, Option.some.injEq] at hf
      exact absurd (hpg hf) (by omega)
    · rw [Function.update_of_ne hlast] at hf
      exact hlast (hpg (hslot f _ hf).2).symm
  rw [Paging.faults_append, Paging.faults_append, hfaults, hlen, hslots₁.1,
    hstep₂.isFault_iff.mpr hback]
  rfl

end OptimalReplacement

/-- LRU has a page fault less. -/
theorem LRUReplacement.faults_onceMore {α : Type*} [DecidableEq α] {n : ℕ} (hn : 2 ≤ n)
    {pg : ℕ → α} (hpg : Function.Injective pg) {outs : List (Paging.Outcome α)}
    {s : Paging.Pager α LRUReplacement}
    (h : Paging.Run policy.toPolicy (Paging.Pager.start n ({} : LRUReplacement))
      ((OptimalReplacement.onceMore n).map pg) outs s) : Paging.faults outs ≤ n + 1 := by
  rw [OptimalReplacement.map_onceMore] at h
  obtain ⟨outs, o, s₁, rfl, h₁, hstep⟩ := h.snoc_inv
  obtain ⟨F, hF⟩ := h₁.covered tracks (by omega) (PolicyKind.tracks_initial .lru)
  have hrecent : pg (n - 1) ∈ (recents ((List.range n).map pg ++ [pg n])).take n := by
    have hrange : (List.range n).map pg ++ [pg n] = (List.range (n + 1)).map pg := by
      rw [List.range_succ, List.map_append, List.map_singleton]
    rw [hrange, Paging.recents_of_nodup (List.nodup_range.map hpg), List.mem_take_iff_getElem]
    refine ⟨1, by simp; omega, ?_⟩
    simp only [List.getElem_reverse, List.getElem_map, List.getElem_range, List.length_map,
      List.length_range]
    congr 1
  have hhit : o.isFault ≠ true := by
    rw [Ne, hstep.isFault_iff, not_not, (recent_run (by omega) h₁).holds_iff hF]
    exact hrecent
  rw [Paging.faults_append, if_neg hhit, Nat.add_zero]
  calc Paging.faults outs ≤ outs.length := List.countP_le_length
    _ = n + 1 := by simp [h₁.length_eq]

/-! ## The system -/

/-- With this trace and number of frames, the optimal policy has at most as many faults as
any policy that gives up loaded frames only. -/
def LowerBound (order : HashOrder) (trace : List ℕ) (frames : ℕ) : Prop :=
  ∀ (σ : Type) (R : IReplacement σ) (init : σ) (I : Finset ℕ → σ → Prop), R.Tracks I → I ∅ init →
    ∀ wlName cm, ∃ a b,
      runSim wlName trace frames (OptimalReplacement.policy order) { trace := trace } cm = some a ∧
      runSim wlName trace frames R init cm = some b ∧ a.faults ≤ b.faults

/-- The page of process 1 with the given number. -/
def pageOne (vpn : ℕ) : Page := (1, vpn)

theorem pageOne_injective : Function.Injective pageOne := fun _ _ h => (Prod.mk.inj h).2

/-- What `runSim` reports is the number of faults of a run of the pager. -/
theorem runSim_run {σ : Type*} {R : IReplacement σ} {I : Finset ℕ → σ → Prop} (hR : R.Tracks I)
    {init : σ} (hinit : I ∅ init) {frames : ℕ} (hframes : 1 ≤ frames) (wlName : String)
    (trace : List ℕ) (cm : CostModel) :
    ∃ a outs s, runSim wlName trace frames R init cm = some a ∧
      Paging.Run R.toPolicy (Paging.Pager.start frames init) (trace.map pageOne) outs s ∧
      a.faults = Paging.faults outs := by
  obtain ⟨rs, v, hrun⟩ := VMSystem.run_returns hR hinit hframes cm (reads trace)
  obtain ⟨outs, s, hv⟩ := VMSystem.run_refines hrun
  have hpages : (reads trace).map Access.page = trace.map pageOne := by
    rw [reads, List.map_map]
    rfl
  unfold runSim
  rw [hrun]
  exact ⟨_, outs, s, rfl, hpages ▸ hv.run, hv.faults_eq⟩

section

variable {order : HashOrder} {trace : List ℕ} {frames : ℕ}

/-- While the frames last, every policy has the cold misses only. -/
theorem lowerBound_of_few (hframes : 1 ≤ frames) (h : (firsts trace).length ≤ frames) :
    LowerBound order trace frames := by
  intro σ R init I hR hinit wlName cm
  obtain ⟨a, outs, s, ha, hrun, hfaults⟩ := runSim_run (OptimalReplacement.tracks order)
    (OptimalReplacement.tracks_initial trace) hframes wlName trace cm
  obtain ⟨b, outs', s', hb, hrun', hfaults'⟩ := runSim_run hR hinit hframes wlName trace cm
  refine ⟨a, b, ha, hb, ?_⟩
  have hlen : (firsts (trace.map pageOne)).length ≤ frames := by
    rwa [Paging.firsts_map pageOne_injective, List.length_map]
  rw [hfaults, hfaults', (hrun.fill hlen).2.2]
  exact hrun'.length_firsts_le

/-- With one frame, all policies have the same faults. -/
theorem lowerBound_one : LowerBound order trace 1 := by
  intro σ R init I hR hinit wlName cm
  obtain ⟨a, outs, s, ha, hrun, hfaults⟩ := runSim_run (OptimalReplacement.tracks order)
    (OptimalReplacement.tracks_initial trace) le_rfl wlName trace cm
  obtain ⟨b, outs', s', hb, hrun', hfaults'⟩ := runSim_run hR hinit le_rfl wlName trace cm
  refine ⟨a, b, ha, hb, ?_⟩
  have hsame : outs.map Paging.Outcome.isFault = outs'.map Paging.Outcome.isFault :=
    (hrun.isFault_one (OptimalReplacement.tracks order)
      (OptimalReplacement.tracks_initial trace)).trans (hrun'.isFault_one hR hinit).symm
  rw [hfaults, hfaults', Paging.faults_eq_count, Paging.faults_eq_count, hsame]

/-- With more frames, LRU has fewer faults on some trace. -/
theorem not_lowerBound_onceMore (order : HashOrder) (frames : ℕ) (hframes : 2 ≤ frames) :
    ¬ LowerBound order (OptimalReplacement.onceMore frames) frames := by
  intro h
  obtain ⟨a, b, ha, hb, hle⟩ := h _ LRUReplacement.policy {} _ LRUReplacement.tracks
    (PolicyKind.tracks_initial .lru) "" {}
  obtain ⟨a', outs, s, ha', hrun, hfaults⟩ := runSim_run (OptimalReplacement.tracks order)
    (OptimalReplacement.tracks_initial (OptimalReplacement.onceMore frames))
    (show 1 ≤ frames by omega) ""
    (OptimalReplacement.onceMore frames) {}
  obtain ⟨b', outs', s', hb', hrun', hfaults'⟩ := runSim_run LRUReplacement.tracks
    (PolicyKind.tracks_initial .lru) (show 1 ≤ frames by omega) ""
    (OptimalReplacement.onceMore frames) {}
  obtain rfl : a = a' := Option.some.inj (ha.symm.trans ha')
  obtain rfl : b = b' := Option.some.inj (hb.symm.trans hb')
  have hmore := OptimalReplacement.faults_onceMore hframes pageOne_injective hrun
  have hless := LRUReplacement.faults_onceMore hframes pageOne_injective hrun'
  omega

end

/-- **When the optimal policy is a lower bound.**  It is one for every trace exactly if
there is one frame; and it is one for every trace with no more pages than frames. -/
theorem optimal_lower_bound (order : HashOrder) (frames : ℕ) (hframes : 1 ≤ frames) :
    ((∀ trace, LowerBound order trace frames) ↔ frames = 1) ∧
      ∀ trace, (firsts trace).length ≤ frames → LowerBound order trace frames := by
  refine ⟨⟨fun h => ?_, ?_⟩, fun trace => lowerBound_of_few hframes⟩
  · by_contra hone
    exact not_lowerBound_onceMore order frames (by omega) (h (OptimalReplacement.onceMore frames))
  · rintro rfl trace
    exact lowerBound_one

/-- A hash set that is iterated from the latest insertion on. -/
def HashOrder.latestFirst : HashOrder := ⟨fun _ l a => a :: l, fun _ _ _ => List.Perm.refl _⟩

/-- Three frames are enough for three pages. -/
theorem optimal_three_pages :
    (runSim "" [4, 7, 4, 9, 7] 3 (OptimalReplacement.policy .latestFirst)
      { trace := [4, 7, 4, 9, 7] } {}).map RunResult.faults = some 3 ∧
    LowerBound .latestFirst [4, 7, 4, 9, 7] 3 :=
  ⟨by decide +kernel, (optimal_lower_bound .latestFirst 3 (by decide)).2 [4, 7, 4, 9, 7] (by decide)⟩

/-- Two frames and the pages 0, 1, 2, 1: the optimal policy evicts page 1 for page 2 and
has four faults, and LRU has three. -/
theorem optimal_worse_than_lru :
    (runSim "" [0, 1, 2, 1] 2 (OptimalReplacement.policy .latestFirst)
      { trace := [0, 1, 2, 1] } {}).map RunResult.faults = some 4 ∧
    (runSim "" [0, 1, 2, 1] 2 LRUReplacement.policy {} {}).map RunResult.faults = some 3 ∧
    ¬ LowerBound .latestFirst [0, 1, 2, 1] 2 :=
  ⟨by decide +kernel, by decide +kernel,
    not_lowerBound_onceMore .latestFirst 2 le_rfl⟩

end Memlab
