/-
# Offline paging

Demand paging with `n` places, when the references to come are known.  `Serve` is one
reference served on demand: afterwards the page is in a place, no other page has come in,
and which pages have left is left open; a `Schedule` serves a reference string and counts
its faults.  `Furthest` is the schedule that gives up a page only when all places are
taken, and then one whose next reference is the latest.

The main result is Belady's theorem: no schedule has fewer faults than the furthest-next-use
schedule (`Furthest.le`).  Instead of exchanging decisions of the two schedules, the proof
compares how many pages of the first references to come each of them has in its places:
`Leads` says that the difference is at most the difference of the faults so far, and one
reference keeps it (`Leads.step`).

The module names nothing of any program.
-/
import Mathlib

namespace OfflinePaging

variable {Page : Type*} [DecidableEq Page]

/-! ## Schedules -/

/-- A reference served on demand, with `n` places. -/
structure Serve (n : ℕ) (S : Finset Page) (p : Page) (S' : Finset Page) : Prop where
  mem : p ∈ S'
  subset : S' ⊆ insert p S
  card_le : S'.card ≤ n

/-- A reference to a page that is in no place is a fault. -/
def fault (S : Finset Page) (p : Page) : ℕ := if p ∈ S then 0 else 1

/-- A reference string is served, with the given number of faults. -/
inductive Schedule (n : ℕ) : Finset Page → List Page → ℕ → Prop where
  | nil (S : Finset Page) : Schedule n S [] 0
  | cons {S S' : Finset Page} {p : Page} {refs : List Page} {k : ℕ} (serve : Serve n S p S')
      (rest : Schedule n S' refs k) : Schedule n S (p :: refs) (fault S p + k)

/-- The furthest-next-use rule, when the references `refs` are still to come. -/
inductive FurthestStep (n : ℕ) (refs : List Page) : Finset Page → Page → Finset Page → Prop where
  | hit {S : Finset Page} {p : Page} (mem : p ∈ S) : FurthestStep n refs S p S
  | load {S : Finset Page} {p : Page} (notMem : p ∉ S) (room : S.card < n) :
      FurthestStep n refs S p (insert p S)
  | replace {S : Finset Page} {p v : Page} (notMem : p ∉ S) (full : S.card = n) (mem : v ∈ S)
      (latest : ∀ g ∈ S, refs.idxOf g ≤ refs.idxOf v) :
      FurthestStep n refs S p (insert p (S.erase v))

/-- A reference string is served by the furthest-next-use rule. -/
inductive Furthest (n : ℕ) : Finset Page → List Page → ℕ → Prop where
  | nil (S : Finset Page) : Furthest n S [] 0
  | cons {S S' : Finset Page} {p : Page} {refs : List Page} {k : ℕ}
      (step : FurthestStep n refs S p S') (rest : Furthest n S' refs k) :
      Furthest n S (p :: refs) (fault S p + k)

/-- The rule serves on demand. -/
theorem FurthestStep.serve {n : ℕ} {refs : List Page} {S S' : Finset Page} {p : Page}
    (h : FurthestStep n refs S p S') (hS : S.card ≤ n) : Serve n S p S' := by
  cases h with
  | hit hp => exact ⟨hp, Finset.subset_insert _ _, hS⟩
  | load hp hroom =>
    refine ⟨Finset.mem_insert_self _ _, Finset.Subset.refl _, ?_⟩
    rw [Finset.card_insert_of_notMem hp]
    exact hroom
  | @replace v hp hfull hv hlatest =>
    refine ⟨Finset.mem_insert_self _ _, Finset.insert_subset_insert _ (Finset.erase_subset _ _), ?_⟩
    have hpv : p ∉ S.erase v := fun hmem => hp (Finset.mem_of_mem_erase hmem)
    have hpos := Finset.card_pos.mpr ⟨v, hv⟩
    rw [Finset.card_insert_of_notMem hpv, Finset.card_erase_of_mem hv]
    omega

/-- The rule is a schedule. -/
theorem Furthest.schedule {n : ℕ} {S : Finset Page} {refs : List Page} {k : ℕ}
    (h : Furthest n S refs k) (hS : S.card ≤ n) : Schedule n S refs k := by
  induction h with
  | nil S => exact .nil S
  | cons hstep hrest ih =>
    have hserve := hstep.serve hS
    exact .cons hserve (ih hserve.card_le)

/-! ## Pages of the references to come -/

/-- How many pages of `S` are referenced in `q`. -/
def used (S : Finset Page) (q : List Page) : ℕ := (S ∩ q.toFinset).card

section Used

variable {S T : Finset Page} {q : List Page} {p v : Page}

theorem used_nil (S : Finset Page) : used S [] = 0 := by simp [used]

theorem used_mono (h : S ⊆ T) (q : List Page) : used S q ≤ used T q :=
  Finset.card_le_card (Finset.inter_subset_inter_right h)

theorem used_le_card (S : Finset Page) (q : List Page) : used S q ≤ S.card :=
  Finset.card_le_card Finset.inter_subset_left

/-- A page that is referenced in `q` anyway. -/
theorem used_cons_of_mem (hp : p ∈ q) (S : Finset Page) : used S (p :: q) = used S q := by
  have hset : (p :: q).toFinset = q.toFinset := by
    rw [List.toFinset_cons, Finset.insert_eq_of_mem (List.mem_toFinset.mpr hp)]
  rw [used, hset, used]

/-- A page that is not referenced in `q`. -/
theorem used_cons_of_notMem (hp : p ∉ q) (S : Finset Page) :
    used S (p :: q) = used S q + if p ∈ S then 1 else 0 := by
  have hnot : p ∉ S ∩ q.toFinset :=
    fun hmem => hp (List.mem_toFinset.mp (Finset.mem_inter.mp hmem).2)
  rw [used, List.toFinset_cons]
  split_ifs with hS
  · rw [Finset.inter_insert_of_mem hS, Finset.card_insert_of_notMem hnot, used]
  · rw [Finset.inter_insert_of_notMem hS, used, Nat.add_zero]

/-- One more page. -/
theorem used_insert (hp : p ∉ S) (q : List Page) :
    used (insert p S) q = used S q + if p ∈ q then 1 else 0 := by
  have hnot : p ∉ S ∩ q.toFinset := fun hmem => hp (Finset.mem_inter.mp hmem).1
  rw [used]
  split_ifs with hq
  · rw [Finset.insert_inter_of_mem (List.mem_toFinset.mpr hq), Finset.card_insert_of_notMem hnot,
      used]
  · rw [Finset.insert_inter_of_notMem (fun hmem => hq (List.mem_toFinset.mp hmem)), used,
      Nat.add_zero]

/-- One page less. -/
theorem used_erase (hv : v ∈ S) (q : List Page) :
    used (S.erase v) q + (if v ∈ q then 1 else 0) = used S q := by
  have hinsert := used_insert (Finset.notMem_erase v S) q
  rw [Finset.insert_erase hv] at hinsert
  exact hinsert.symm

/-- If all pages are referenced, all of them count. -/
theorem used_eq_card (h : ∀ g ∈ S, g ∈ q) : used S q = S.card := by
  rw [used, Finset.inter_eq_left.mpr]
  intro g hg
  exact List.mem_toFinset.mpr (h g hg)

/-- Pages referenced no later than one that is referenced in a beginning are, too. -/
theorem mem_of_idxOf_le {refs : List Page} {g : Page} (hq : q <+: refs) (hv : v ∈ q)
    (hle : refs.idxOf g ≤ refs.idxOf v) : g ∈ q := by
  obtain ⟨post, rfl⟩ := hq
  by_contra hg
  have hlt := List.idxOf_lt_length_of_mem hv
  rw [List.idxOf_append_of_mem hv, List.idxOf_append_of_notMem hg] at hle
  omega

end Used

/-! ## The comparison -/

/-- The pages `S` after `a` faults are no worse than the pages `T` after `b` faults, when
`refs` are to come: in every beginning of `refs`, at most `b - a` more pages of `T` are
referenced than of `S`. -/
def Leads (refs : List Page) (S : Finset Page) (a : ℕ) (T : Finset Page) (b : ℕ) : Prop :=
  ∀ q, q <+: refs → used T q + a ≤ used S q + b

section Belady

variable {n a b : ℕ} {refs : List Page} {S S' T T' : Finset Page} {p : Page}

theorem Leads.faults_le (h : Leads refs S a T b) : a ≤ b := by
  have hnil := h [] (List.nil_prefix)
  rw [used_nil, used_nil] at hnil
  omega

/-- A page served on demand adds at most itself. -/
theorem Serve.used_le (h : Serve n T p T') (q : List Page) :
    used T' q ≤ used T q + if p ∈ q ∧ p ∉ T then 1 else 0 := by
  have hmono := used_mono h.subset q
  by_cases hp : p ∈ T
  · rw [Finset.insert_eq_of_mem hp] at hmono
    omega
  · rw [used_insert hp] at hmono
    by_cases hq : p ∈ q
    · rw [if_pos ⟨hq, hp⟩]
      rwa [if_pos hq] at hmono
    · rw [if_neg (fun hand => hq hand.1)]
      rwa [if_neg hq] at hmono

/-- At most `n` pages are in places, one of which is the page just served. -/
theorem Serve.used_le_places (h : Serve n T p T') (q : List Page) :
    used T' q + (if p ∈ q then 0 else 1) ≤ n := by
  have hcard := h.card_le
  split_ifs with hq
  · exact (used_le_card T' q).trans hcard
  · have hcons := used_cons_of_notMem hq T'
    rw [if_pos h.mem] at hcons
    rw [← hcons]
    exact (used_le_card T' _).trans hcard

/-- A fault of the first schedule only has to be in credit. -/
theorem Leads.fault_le (h : Leads (p :: refs) S a T b) : a + fault S p ≤ b + fault T p := by
  have hle := h.faults_le
  have hfirst := h [p] ⟨refs, rfl⟩
  have hsingle : ∀ X : Finset Page, used X [p] = if p ∈ X then 1 else 0 := by
    intro X
    rw [used_cons_of_notMem List.not_mem_nil, used_nil, Nat.zero_add]
  rw [hsingle, hsingle] at hfirst
  unfold fault
  split_ifs at * <;> omega

/-- **One reference keeps the lead** of the furthest-next-use rule.  If the page given up is
referenced in the beginning `q` at hand, all other pages are, too, and no `n` pages can do
better; otherwise giving it up does not count. -/
theorem Leads.step (h : Leads (p :: refs) S a T b) (hS : FurthestStep n refs S p S')
    (hT : Serve n T p T') : Leads refs S' (a + fault S p) T' (b + fault T p) := by
  intro q hq
  have hcount := h (p :: q) (List.cons_prefix_cons.mpr ⟨rfl, hq⟩)
  have hother := hT.used_le q
  have hplaces := hT.used_le_places q
  have hfaults := h.fault_le
  -- what the reference itself contributes to the count
  have hcons : ∀ X : Finset Page,
      used X (p :: q) = used X q + if p ∉ q ∧ p ∈ X then 1 else 0 := by
    intro X
    by_cases hp : p ∈ q
    · rw [used_cons_of_mem hp, if_neg (fun hand => hand.1 hp), Nat.add_zero]
    · rw [used_cons_of_notMem hp]
      congr 1
      exact if_congr ⟨fun hX => ⟨hp, hX⟩, fun hand => hand.2⟩ rfl rfl
  rw [hcons, hcons] at hcount
  unfold fault at *
  cases hS with
  | hit hp =>
    grind
  | load hp hroom =>
    rw [used_insert hp]
    grind
  | @replace v hp hfull hv hlatest =>
    have hpv : p ∉ S.erase v := fun hmem => hp (Finset.mem_of_mem_erase hmem)
    have herase := used_erase hv q
    rw [used_insert hpv]
    by_cases hvq : v ∈ q
    · have hall : used S q = S.card :=
        used_eq_card (fun g hg => mem_of_idxOf_le hq hvq (hlatest g hg))
      have hpos := Finset.card_pos.mpr ⟨v, hv⟩
      grind
    · grind

/-- **The lead is kept over the whole string.** -/
theorem Furthest.le_of_leads {k k' : ℕ} (hS : Furthest n S refs k) (hT : Schedule n T refs k')
    (h : Leads refs S a T b) : a + k ≤ b + k' := by
  induction hS generalizing T a b k' with
  | nil S =>
    cases hT with
    | nil => exact h.faults_le
  | cons hstep hrest ih =>
    cases hT with
    | cons hserve hrest' =>
      have hle := ih hrest' (h.step hstep hserve)
      omega

/-- **Belady's theorem.**  The furthest-next-use rule has the fewest faults of all schedules
that start with the same pages. -/
theorem Furthest.le {k k' : ℕ} (hS : Furthest n S refs k) (hT : Schedule n S refs k') :
    k ≤ k' := by
  have hle := hS.le_of_leads (a := 0) (b := 0) hT (fun q _ => le_rfl)
  omega

end Belady

end OfflinePaging
