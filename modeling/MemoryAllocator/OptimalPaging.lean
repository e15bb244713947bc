/-
# `OptimalReplacement` as its header says

The comment in front of `OptimalReplacement` says how it is to be used: it is told of the
pages of its trace, `on_load` when one comes in and `on_evict` when the victim leaves, and
`advance` once for every access.  `OptimalDriver` does this with a number of places; it
advances the cursor either before or after an access is served, which makes no difference.

Each access is one of the furthest-next-use rule (`Drives.access`): a page in a place is
never the one that is being loaded, so that the scan from the cursor finds its next use
(`nextUse_eq`), and the loop of `victim` returns a page with the latest one
(`foldl_better_le`).  Hence the policy has as few faults as any demand paging
(`optimal_fewest_faults`).
-/
import MemoryAllocator.OfflinePaging
import MemoryAllocator.VmOptimal

namespace Memlab

open OfflinePaging

/-- Demand paging that is driven by the policy: the policy, the pages in the places, and the
number of faults so far. -/
structure OptimalDriver where
  policy : OptimalReplacement
  pages : List ℕ := []
  faults : ℕ := 0

namespace OptimalDriver

/-- Serve an access, with `n` places: the pages themselves are the frames of the policy. -/
def serve (order : HashOrder) (n page : ℕ) (s : OptimalDriver) : Option OptimalDriver :=
  if page ∈ s.pages then some { s with policy := s.policy.onAccess page }
  else if s.pages.length < n then
    some ⟨s.policy.onLoad order page, page :: s.pages, s.faults + 1⟩
  else
    s.policy.victim.map (fun r =>
      ⟨(r.2.onEvict r.1).onLoad order page, page :: s.pages.erase r.1, s.faults + 1⟩)

/-- An access: the cursor is advanced once, before or after. -/
def access (order : HashOrder) (n : ℕ) (before : Bool) (page : ℕ) (s : OptimalDriver) :
    Option OptimalDriver :=
  if before then serve order n page { s with policy := s.policy.advance }
  else (serve order n page s).map (fun t => { t with policy := t.policy.advance })

/-- A string of accesses. -/
def run (order : HashOrder) (n : ℕ) (before : Bool) : List ℕ → OptimalDriver → Option OptimalDriver
  | [], s => some s
  | page :: refs, s => (s.access order n before page).bind (run order n before refs)

/-- The policy has just been constructed from its trace. -/
def start (trace : List ℕ) : OptimalDriver := ⟨{ trace := trace }, [], 0⟩

end OptimalDriver

/-! ## The scan and the loop of `victim` -/

namespace OptimalReplacement

variable {s : OptimalReplacement} {done rest : List ℕ} {f g v : ℕ}

/-- The scan from the cursor finds the next reference. -/
theorem nextUse_eq (htrace : s.trace = done ++ rest) (hpos : s.pos = done.length) (f : ℕ) :
    s.nextUse f = if f ∈ rest then done.length + rest.idxOf f else 2 ^ 64 - 1 := by
  rw [nextUse, htrace, hpos, List.drop_left]
  split_ifs with hf
  · have hfind : rest.findIdx? (fun page => decide (page = f)) = some (rest.idxOf f) := by
      rw [List.findIdx?_eq_some_iff_getElem]
      have hlt := List.idxOf_lt_length_of_mem hf
      refine ⟨hlt, by simp, fun j hj => ?_⟩
      have hne := List.not_of_lt_findIdx hj
      simpa using hne
    rw [hfind]
  · have hfind : rest.findIdx? (fun page => decide (page = f)) = none := by
      rw [List.findIdx?_eq_none_iff]
      rintro page hpage
      simp only [decide_eq_false_iff_not]
      rintro rfl
      exact hf hpage
    rw [hfind]

/-- A later distance means a later reference: no reference is as far away as the distance
of a page that is never referenced again. -/
theorem idxOf_le_of_nextUse_le (htrace : s.trace = done ++ rest) (hpos : s.pos = done.length)
    (hlen : s.trace.length < 2 ^ 64) (h : s.nextUse g ≤ s.nextUse v) :
    rest.idxOf g ≤ rest.idxOf v := by
  rw [htrace, List.length_append] at hlen
  rw [nextUse_eq htrace hpos, nextUse_eq htrace hpos] at h
  by_cases hv : v ∈ rest
  · have hlt := List.idxOf_lt_length_of_mem hv
    rw [if_pos hv] at h
    split_ifs at h with hg
    · omega
    · omega
  · rw [List.idxOf_eq_length hv]
    exact List.idxOf_le_length

/-- **The loop of `victim`** ends with a frame whose distance is the largest. -/
theorem foldl_better_le (s : OptimalReplacement) (l : List ℕ) (best : ℕ × ℕ)
    (hbest : best.2 ≤ s.nextUse best.1) :
    (l.foldl s.better best).2 ≤ s.nextUse (l.foldl s.better best).1 ∧
      best.2 ≤ (l.foldl s.better best).2 ∧
      ∀ f ∈ l, s.nextUse f ≤ (l.foldl s.better best).2 := by
  induction l generalizing best with
  | nil => exact ⟨hbest, le_rfl, by simp⟩
  | cons f l ih =>
    rw [List.foldl_cons]
    have hround : (s.better best f).2 ≤ s.nextUse (s.better best f).1 ∧
        best.2 ≤ (s.better best f).2 ∧ s.nextUse f ≤ (s.better best f).2 := by
      unfold better
      split_ifs with hlt
      · exact ⟨le_rfl, by omega, le_rfl⟩
      · exact ⟨hbest, le_rfl, by omega⟩
    obtain ⟨hself, hle, hall⟩ := ih _ hround.1
    refine ⟨hself, hround.2.1.trans hle, fun g hg => ?_⟩
    rcases List.mem_cons.mp hg with rfl | hg
    · exact hround.2.2.trans hle
    · exact hall g hg

/-- **`victim`** returns a loaded frame with the latest next use. -/
theorem victim_latest (h : s.loaded ≠ []) :
    ∃ v, s.victim = some (v, s) ∧ v ∈ s.loaded ∧ ∀ g ∈ s.loaded, s.nextUse g ≤ s.nextUse v := by
  unfold victim
  split
  case h_1 hnil => exact absurd hnil h
  case h_2 first others hcons =>
    refine ⟨_, rfl, ?_, fun g hg => ?_⟩
    · rcases s.foldl_better_mem s.loaded (first, 0) with heq | hmem
      · rw [heq, hcons]
        exact List.mem_cons_self ..
      · exact hmem
    · obtain ⟨hself, -, hall⟩ := s.foldl_better_le s.loaded (first, 0) (Nat.zero_le _)
      exact (hall g hg).trans hself

end OptimalReplacement

/-! ## Every access follows the rule -/

/-- The accesses `done` have been served, `rest` are to come, and policy and places agree on
the pages. -/
structure Drives (n : ℕ) (done rest : List ℕ) (s : OptimalDriver) : Prop where
  trace_eq : s.policy.trace = done ++ rest
  pos_eq : s.policy.pos = done.length
  tracks : s.policy.Tracks s.pages.toFinset
  nodup : s.pages.Nodup
  length_le : s.pages.length ≤ n

section Driving

variable {order : HashOrder} {n : ℕ} {done rest : List ℕ} {page : ℕ} {s : OptimalDriver}

theorem drives_start (n : ℕ) (trace : List ℕ) : Drives n [] trace (OptimalDriver.start trace) :=
  ⟨rfl, rfl, ⟨List.nodup_nil, by simp [OptimalDriver.start]⟩, List.nodup_nil, Nat.zero_le n⟩

theorem OptimalReplacement.onLoad_cursor (order : HashOrder) (f : ℕ) (q : OptimalReplacement) :
    (q.onLoad order f).trace = q.trace ∧ (q.onLoad order f).pos = q.pos := by
  unfold OptimalReplacement.onLoad
  split_ifs
  · exact ⟨rfl, rfl⟩
  · exact ⟨rfl, rfl⟩

/-- Advancing the cursor moves one reference to those that are done. -/
theorem OptimalReplacement.advance_pos {q : OptimalReplacement} {page : ℕ}
    (htrace : q.trace = done ++ page :: rest) (hpos : q.pos = done.length) :
    q.advance = { q with pos := (done ++ [page]).length } := by
  have hlt : q.pos < q.trace.length := by
    rw [htrace, hpos, List.length_append, List.length_cons]
    omega
  rw [OptimalReplacement.advance, if_pos hlt, hpos, List.length_append, List.length_singleton]

/-- **Serving an access** is a step of the furthest-next-use rule and leaves the cursor where
it is.  The cursor may stand before or behind the access, as long as the scan from it finds
the next reference to every page in a place that is not being loaded. -/
theorem OptimalDriver.serve_furthest (order : HashOrder) (rest : List ℕ) (page : ℕ)
    (s : OptimalDriver) (hn : 1 ≤ n) (htracks : s.policy.Tracks s.pages.toFinset)
    (hnodup : s.pages.Nodup) (hlength : s.pages.length ≤ n)
    (hscan : ∀ g v, g ≠ page → v ≠ page → s.policy.nextUse g ≤ s.policy.nextUse v →
      rest.idxOf g ≤ rest.idxOf v) :
    ∃ t, s.serve order n page = some t ∧
      FurthestStep n rest s.pages.toFinset page t.pages.toFinset ∧
      t.faults = s.faults + fault s.pages.toFinset page ∧
      t.policy.trace = s.policy.trace ∧ t.policy.pos = s.policy.pos ∧
      t.policy.Tracks t.pages.toFinset ∧ t.pages.Nodup ∧ t.pages.length ≤ n := by
  have hcard : s.pages.toFinset.card = s.pages.length := List.toFinset_card_of_nodup hnodup
  have hpolicy := OptimalReplacement.tracks order
  rw [OptimalDriver.serve]
  by_cases hmem : page ∈ s.pages
  · have hpage := List.mem_toFinset.mpr hmem
    rw [if_pos hmem, fault, if_pos hpage]
    exact ⟨_, rfl, .hit hpage, rfl, rfl, rfl, htracks, hnodup, hlength⟩
  have hpage : page ∉ s.pages.toFinset := fun h => hmem (List.mem_toFinset.mp h)
  rw [if_neg hmem, fault, if_neg hpage]
  by_cases hroom : s.pages.length < n
  · rw [if_pos hroom]
    obtain ⟨htrace, hpos⟩ := s.policy.onLoad_cursor order page
    refine ⟨_, rfl, ?_, rfl, htrace, hpos, ?_, List.nodup_cons.mpr ⟨hmem, hnodup⟩, hroom⟩
    · rw [List.toFinset_cons]
      exact .load hpage (hcard ▸ hroom)
    · rw [List.toFinset_cons]
      exact hpolicy.load htracks hpage
  · -- all places are taken: the victim is a page with the latest next reference
    rw [if_neg hroom]
    have hne : s.policy.loaded ≠ [] := by
      have hpos : 0 < s.pages.length := by omega
      obtain ⟨g, hg⟩ := List.exists_mem_of_length_pos hpos
      exact List.ne_nil_of_mem ((htracks.mem_loaded g).mpr (List.mem_toFinset.mpr hg))
    obtain ⟨v, hvictim, hv, hlatest⟩ := OptimalReplacement.victim_latest hne
    have hvpages := (htracks.mem_loaded v).mp hv
    have hother : ∀ g ∈ s.pages.toFinset, g ≠ page := fun g hg heq => hpage (heq ▸ hg)
    have hevict : (s.pages.erase v).toFinset = s.pages.toFinset.erase v := by
      ext g
      rw [List.mem_toFinset, hnodup.mem_erase_iff, Finset.mem_erase, List.mem_toFinset]
    have hgone : page ∉ s.pages.toFinset.erase v :=
      fun h => hpage (Finset.mem_of_mem_erase h)
    obtain ⟨htrace, hpos⟩ := (s.policy.onEvict v).onLoad_cursor order page
    rw [hvictim]
    refine ⟨_, rfl, ?_, rfl, htrace, hpos, ?_, ?_, ?_⟩
    · rw [List.toFinset_cons, hevict]
      refine .replace hpage (by omega) hvpages (fun g hg => ?_)
      exact hscan g v (hother g hg) (hother v hvpages)
        (hlatest g ((htracks.mem_loaded g).mpr hg))
    · rw [List.toFinset_cons, hevict]
      exact hpolicy.load (hpolicy.evict htracks hvpages) hgone
    · exact List.nodup_cons.mpr ⟨fun h => hmem (List.mem_of_mem_erase h), hnodup.erase v⟩
    · have hlen := List.length_erase_of_mem (List.mem_toFinset.mp hvpages)
      show (s.pages.erase v).length + 1 ≤ n
      omega

/-- **An access** is a step of the furthest-next-use rule, whenever the cursor is advanced. -/
theorem Drives.access (order : HashOrder) (hn : 1 ≤ n) (before : Bool) (h : Drives n done (page :: rest) s)
    (hlen : s.policy.trace.length < 2 ^ 64) :
    ∃ t, s.access order n before page = some t ∧
      FurthestStep n rest s.pages.toFinset page t.pages.toFinset ∧
      t.faults = s.faults + fault s.pages.toFinset page ∧
      t.policy.trace = s.policy.trace ∧ Drives n (done ++ [page]) rest t := by
  have hsplit : done ++ page :: rest = (done ++ [page]) ++ rest := by simp
  have hadvance := OptimalReplacement.advance_pos h.trace_eq h.pos_eq
  rw [OptimalDriver.access]
  cases before with
  | true =>
    rw [if_pos rfl, hadvance]
    obtain ⟨t, ht, hstep, hfaults, htrace, hpos, htracks, hnodup, hlength⟩ :=
      OptimalDriver.serve_furthest order rest page
        { s with policy := { s.policy with pos := (done ++ [page]).length } } hn
        ⟨h.tracks.nodup, h.tracks.mem_loaded⟩ h.nodup h.length_le
        (fun g v _ _ hle => OptimalReplacement.idxOf_le_of_nextUse_le
          (s := { s.policy with pos := (done ++ [page]).length })
          (h.trace_eq.trans hsplit) rfl hlen hle)
    exact ⟨t, ht, hstep, hfaults, htrace,
      htrace.trans (h.trace_eq.trans hsplit), hpos, htracks, hnodup, hlength⟩
  | false =>
    rw [if_neg Bool.false_ne_true]
    obtain ⟨t, ht, hstep, hfaults, htrace, hpos, htracks, hnodup, hlength⟩ :=
      OptimalDriver.serve_furthest order rest page s hn h.tracks h.nodup h.length_le
        (fun g v hg hv hle => by
          -- the scan starts one reference earlier, at the page that is being loaded
          have hcons := OptimalReplacement.idxOf_le_of_nextUse_le h.trace_eq h.pos_eq hlen hle
          rw [List.idxOf_cons_ne _ (Ne.symm hg), List.idxOf_cons_ne _ (Ne.symm hv)] at hcons
          omega)
    have hadvance' := OptimalReplacement.advance_pos (q := t.policy)
      (htrace.trans h.trace_eq) (hpos.trans h.pos_eq)
    rw [ht, Option.map_some, hadvance']
    exact ⟨_, rfl, hstep, hfaults, htrace, htrace.trans (h.trace_eq.trans hsplit), rfl,
      ⟨htracks.nodup, htracks.mem_loaded⟩, hnodup, hlength⟩

/-- **A string of accesses** is served by the furthest-next-use rule. -/
theorem Drives.run (order : HashOrder) (hn : 1 ≤ n) (before : Bool) (h : Drives n done rest s)
    (hlen : s.policy.trace.length < 2 ^ 64) :
    ∃ t k, s.run order n before rest = some t ∧ Furthest n s.pages.toFinset rest k ∧
      t.faults = s.faults + k := by
  induction rest generalizing done s with
  | nil => exact ⟨s, 0, rfl, .nil _, rfl⟩
  | cons page rest ih =>
    obtain ⟨t, ht, hstep, hfaults, htrace, hnext⟩ := h.access order hn before hlen
    obtain ⟨u, k, hu, hrest, hfaults'⟩ := ih hnext (htrace ▸ hlen)
    refine ⟨u, _, ?_, .cons hstep hrest, ?_⟩
    · rw [OptimalDriver.run, ht]
      exact hu
    · rw [hfaults', hfaults, Nat.add_assoc]

/-- **The optimal policy, used as documented, is optimal.**  Driven with the pages of its
trace, with `n` places, it has at most as many faults as any demand paging of the trace
with `n` places, whichever pages that gives up.  (The positions of a vector are below
`2 ^ 64`.) -/
theorem optimal_fewest_faults (order : HashOrder) (n : ℕ) (hn : 1 ≤ n) (before : Bool)
    (trace : List ℕ) (hlen : trace.length < 2 ^ 64) :
    ∃ t, (OptimalDriver.start trace).run order n before trace = some t ∧
      ∀ k, Schedule n ∅ trace k → t.faults ≤ k := by
  obtain ⟨t, k, ht, hfurthest, hfaults⟩ := (drives_start n trace).run order hn before hlen
  refine ⟨t, ht, fun k' hk' => ?_⟩
  rw [hfaults, show (OptimalDriver.start trace).faults = 0 from rfl, Nat.zero_add]
  exact hfurthest.le hk'

end Driving

/-- The trace on which the simulator's optimal policy has four faults: used as documented,
it has three, and no demand paging with two places has fewer. -/
theorem optimal_three_faults :
    ((OptimalDriver.start [0, 1, 2, 1]).run .latestFirst 2 false [0, 1, 2, 1]).map
        OptimalDriver.faults = some 3 ∧
      ∀ k, Schedule 2 ∅ [0, 1, 2, 1] k → 3 ≤ k := by
  obtain ⟨t, ht, hle⟩ := optimal_fewest_faults .latestFirst 2 (by decide) false [0, 1, 2, 1]
    (by decide)
  have hfaults : ((OptimalDriver.start [0, 1, 2, 1]).run .latestFirst 2 false [0, 1, 2, 1]).map
      OptimalDriver.faults = some 3 := by decide +kernel
  refine ⟨hfaults, fun k hk => ?_⟩
  rw [ht, Option.map_some, Option.some.injEq] at hfaults
  exact hfaults ▸ hle k hk

end Memlab
