/-
# Demand paging

A pager keeps pages in numbered frames.  A reference to a page that is in a frame is a
hit; otherwise the page is loaded into a free frame, or into the frame that the
replacement policy gives up.  The policy is any deterministic state machine that is told
of loads, accesses and evictions of frames and is asked for a victim; it never sees a
page.

`Step` is one reference and `Run` a reference string, read from left to right.  Two
facts are proved of all policies: a frame holds one page, a page is in at most one
frame, and free frames are empty (`Valid`); and with a policy that keeps track of the
frames it has been told of (`Policy.Tracks`), every frame is used before one is given up
and every reference string has a run (`Covered`).
-/
import Mathlib

namespace Paging

/-! ## Reference strings -/

section References

variable {Page : Type*} [DecidableEq Page] {l : List Page} {p q : Page}

/-- The distinct pages of a reference string, in the order of their first references. -/
def firsts (l : List Page) : List Page := l.reverse.dedup.reverse

/-- The distinct pages of a reference string, the most recently referenced first. -/
def recents (l : List Page) : List Page := l.dedup.reverse

@[simp] theorem mem_firsts : q ∈ firsts l ↔ q ∈ l := by simp [firsts]

@[simp] theorem mem_recents : q ∈ recents l ↔ q ∈ l := by simp [recents]

theorem nodup_firsts (l : List Page) : (firsts l).Nodup :=
  List.nodup_reverse.mpr (List.nodup_dedup _)

theorem firsts_append_of_mem (h : p ∈ l) : firsts (l ++ [p]) = firsts l := by
  rw [firsts, List.reverse_append, List.reverse_singleton, List.singleton_append,
    List.dedup_cons_of_mem (by simpa using h)]
  rfl

theorem firsts_append_of_notMem (h : p ∉ l) : firsts (l ++ [p]) = firsts l ++ [p] := by
  rw [firsts, List.reverse_append, List.reverse_singleton, List.singleton_append,
    List.dedup_cons_of_notMem (by simpa using h), List.reverse_cons]
  rfl

theorem firsts_of_nodup (h : l.Nodup) : firsts l = l := by
  rw [firsts, (List.nodup_reverse.mpr h).dedup, List.reverse_reverse]

theorem recents_of_nodup (h : l.Nodup) : recents l = l.reverse := by
  rw [recents, h.dedup]

theorem firsts_map {Page' : Type*} [DecidableEq Page'] {g : Page → Page'}
    (hg : Function.Injective g) (l : List Page) : firsts (l.map g) = (firsts l).map g := by
  rw [firsts, ← List.map_reverse, List.dedup_map_of_injective hg, ← List.map_reverse]
  rfl

/-- A reference moves its page to the front. -/
theorem recents_append (l : List Page) (p : Page) :
    recents (l ++ [p]) = p :: (recents l).erase p := by
  have hdedup : ∀ l : List Page, (l ++ [p]).dedup = l.dedup.erase p ++ [p] := by
    intro l
    induction l with
    | nil => rfl
    | cons q l ih =>
      rw [List.cons_append]
      by_cases hq : q ∈ l
      · rw [List.dedup_cons_of_mem (List.mem_append_left _ hq), List.dedup_cons_of_mem hq, ih]
      · by_cases hqp : q = p
        · subst hqp
          rw [List.dedup_cons_of_mem (by simp), List.dedup_cons_of_notMem hq, ih,
            List.erase_cons_head, List.erase_of_not_mem (by simpa using hq)]
        · rw [List.dedup_cons_of_notMem (by simp [hq, hqp]), List.dedup_cons_of_notMem hq, ih,
            List.erase_cons_tail (by simpa using hqp), List.cons_append]
  have hnodup := List.nodup_dedup l
  rw [recents, hdedup, List.reverse_append, List.reverse_singleton, List.singleton_append, recents,
    hnodup.erase_eq_filter, (List.nodup_reverse.mpr hnodup).erase_eq_filter, List.filter_reverse]

end References

/-! ## Policies and pagers -/

/-- A replacement policy.  Where it has no frame to give up, `victim` is undefined. -/
structure Policy (σ : Type*) where
  onLoad : ℕ → σ → σ
  onAccess : ℕ → σ → σ
  victim : σ → Option (ℕ × σ)
  onEvict : ℕ → σ → σ

/-- The pages in the frames, the frames that have not been used yet, and the state of the
policy. -/
structure Pager (Page σ : Type*) where
  slots : ℕ → Option Page
  free : List ℕ
  policy : σ

/-- What a reference does to which frame; a replacement comes with the page that leaves. -/
inductive Outcome (Page : Type*) where
  | hit (f : ℕ)
  | load (f : ℕ)
  | replace (f : ℕ) (old : Option Page)

variable {Page σ : Type*}

/-- The reference is a page fault. -/
def Outcome.isFault : Outcome Page → Bool
  | .hit _ => false
  | .load _ => true
  | .replace _ _ => true

/-- The reference takes a frame that is in use. -/
def Outcome.isReplace : Outcome Page → Bool
  | .replace _ _ => true
  | _ => false

/-- The page that the reference evicts. -/
def Outcome.evicted : Outcome Page → Option Page
  | .replace _ old => old
  | _ => none

/-- The page is in a frame. -/
def Pager.Holds (s : Pager Page σ) (p : Page) : Prop := ∃ f, s.slots f = some p

/-- A pager with `n` frames that has not been used. -/
def Pager.start (n : ℕ) (init : σ) : Pager Page σ := ⟨fun _ => none, List.range n, init⟩

/-- **One reference.** -/
inductive Step (R : Policy σ) (s : Pager Page σ) (p : Page) :
    Outcome Page → Pager Page σ → Prop
  | hit {f : ℕ} (hf : s.slots f = some p) :
      Step R s p (.hit f) { s with policy := R.onAccess f s.policy }
  | load {f : ℕ} {free : List ℕ} (hp : ¬ s.Holds p) (hfree : s.free = f :: free) :
      Step R s p (.load f)
        { slots := Function.update s.slots f (some p), free := free
          policy := R.onLoad f s.policy }
  | replace {f : ℕ} {π : σ} (hp : ¬ s.Holds p) (hfree : s.free = [])
      (hvictim : R.victim s.policy = some (f, π)) :
      Step R s p (.replace f (s.slots f))
        { slots := Function.update s.slots f (some p), free := []
          policy := R.onLoad f (R.onEvict f π) }

/-- **A reference string**, with its outcomes. -/
inductive Run (R : Policy σ) (s₀ : Pager Page σ) :
    List Page → List (Outcome Page) → Pager Page σ → Prop
  | nil : Run R s₀ [] [] s₀
  | snoc {refs : List Page} {outs : List (Outcome Page)} {s t : Pager Page σ} {p : Page}
      {o : Outcome Page} :
      Run R s₀ refs outs s → Step R s p o t → Run R s₀ (refs ++ [p]) (outs ++ [o]) t

variable {R : Policy σ} {s s₀ t : Pager Page σ} {p : Page} {o : Outcome Page} {refs : List Page}
  {outs : List (Outcome Page)} {n : ℕ}

/-- A reference is a fault exactly if the page is not in a frame. -/
theorem Step.isFault_iff (h : Step R s p o t) : o.isFault = true ↔ ¬ s.Holds p := by
  cases h with
  | hit hf => simpa [Outcome.isFault] using ⟨_, hf⟩
  | load hp hfree => simpa [Outcome.isFault] using hp
  | replace hp hfree hvictim => simpa [Outcome.isFault] using hp

/-- A reference that takes a frame in use. -/
theorem Step.replace_inv {f : ℕ} {old : Option Page} (h : Step R s p (.replace f old) t) :
    ¬ s.Holds p ∧ s.free = [] ∧ s.slots f = old ∧ ∃ π, R.victim s.policy = some (f, π) := by
  generalize ho : Outcome.replace f old = o at h
  cases h with
  | hit hf => simp at ho
  | load hp hfree => simp at ho
  | @replace g π hp hfree hvictim =>
    obtain ⟨rfl, rfl⟩ : f = g ∧ old = s.slots g := by simpa using ho
    exact ⟨hp, hfree, rfl, π, hvictim⟩

theorem Run.length_eq (h : Run R s₀ refs outs s) : outs.length = refs.length := by
  induction h with
  | nil => rfl
  | snoc _ _ ih => simp [ih]

/-- The last reference of a run. -/
theorem Run.snoc_inv (h : Run R s₀ (refs ++ [p]) outs t) :
    ∃ outs' o s, outs = outs' ++ [o] ∧ Run R s₀ refs outs' s ∧ Step R s p o t := by
  generalize hrefs : refs ++ [p] = refs' at h
  cases h with
  | nil => simp at hrefs
  | snoc hrun hstep =>
    obtain ⟨rfl, hlast⟩ := List.append_inj' hrefs rfl
    obtain rfl := (List.cons.inj hlast).1
    exact ⟨_, _, _, rfl, hrun, hstep⟩

/-! ## Frames and pages -/

/-- A page is in at most one frame, and free frames are empty. -/
structure Pager.Valid (s : Pager Page σ) : Prop where
  inj : ∀ f g q, s.slots f = some q → s.slots g = some q → f = g
  free_nodup : s.free.Nodup
  free_empty : ∀ f ∈ s.free, s.slots f = none

theorem Pager.valid_start (n : ℕ) (init : σ) : (Pager.start n init : Pager Page σ).Valid :=
  ⟨fun f g q h => by simp [Pager.start] at h, List.nodup_range, fun _ _ => rfl⟩

/-- Putting a page that is in no frame into a frame. -/
theorem Pager.Valid.inj_update (h : s.Valid) (hp : ¬ s.Holds p) (f : ℕ) :
    ∀ g g' q, Function.update s.slots f (some p) g = some q →
      Function.update s.slots f (some p) g' = some q → g = g' := by
  have hne : ∀ g q, s.slots g = some q → q ≠ p := fun g q hg heq => hp ⟨g, heq ▸ hg⟩
  intro g g' q hg hg'
  by_cases hgf : g = f
  · by_cases hgf' : g' = f
    · rw [hgf, hgf']
    · subst hgf
      rw [Function.update_self, Option.some.injEq] at hg
      rw [Function.update_of_ne hgf'] at hg'
      exact absurd hg.symm (hne g' q hg')
  · rw [Function.update_of_ne hgf] at hg
    by_cases hgf' : g' = f
    · subst hgf'
      rw [Function.update_self, Option.some.injEq] at hg'
      exact absurd hg'.symm (hne g q hg)
    · rw [Function.update_of_ne hgf'] at hg'
      exact h.inj g g' q hg hg'

theorem Pager.Valid.step (h : s.Valid) (hstep : Step R s p o t) : t.Valid := by
  cases hstep with
  | hit hf => exact ⟨h.inj, h.free_nodup, h.free_empty⟩
  | @load f free hp hfree =>
    have hnodup := h.free_nodup
    rw [hfree, List.nodup_cons] at hnodup
    refine ⟨h.inj_update hp f, hnodup.2, fun g hg => ?_⟩
    have hgf : g ≠ f := fun heq => hnodup.1 (heq ▸ hg)
    show Function.update s.slots f (some p) g = none
    rw [Function.update_of_ne hgf]
    exact h.free_empty g (by rw [hfree]; exact List.mem_cons_of_mem _ hg)
  | @replace f π hp hfree hvictim =>
    exact ⟨h.inj_update hp f, List.nodup_nil, by simp⟩

theorem Run.valid (h : Run R s₀ refs outs s) (h₀ : s₀.Valid) : s.Valid := by
  induction h with
  | nil => exact h₀
  | snoc _ hstep ih => exact ih.step hstep

/-- A step puts no page but the referenced one into a frame. -/
theorem Step.holds (h : Step R s p o t) {q : Page} (hq : t.Holds q) : q = p ∨ s.Holds q := by
  obtain ⟨g, hg⟩ := hq
  have hupdate : ∀ f, Function.update s.slots f (some p) g = some q → q = p ∨ s.Holds q := by
    intro f hg
    by_cases hgf : g = f
    · subst hgf
      rw [Function.update_self, Option.some.injEq] at hg
      exact .inl hg.symm
    · rw [Function.update_of_ne hgf] at hg
      exact .inr ⟨g, hg⟩
  cases h with
  | hit hf => exact .inr ⟨g, hg⟩
  | load hp hfree => exact hupdate _ hg
  | replace hp hfree hvictim => exact hupdate _ hg

/-- Pages come into frames by references only. -/
theorem Run.mem_of_holds {init : σ} (h : Run R (Pager.start n init) refs outs s) {q : Page}
    (hq : s.Holds q) : q ∈ refs := by
  induction h with
  | nil =>
    obtain ⟨f, hf⟩ := hq
    simp [Pager.start] at hf
  | snoc _ hstep ih =>
    rcases hstep.holds hq with rfl | hq
    · simp
    · exact List.mem_append_left _ (ih hq)

/-- The referenced page is in a frame afterwards. -/
theorem Step.holds_self (h : Step R s p o t) : t.Holds p := by
  cases h with
  | hit hf => exact ⟨_, hf⟩
  | @load f free hp hfree => exact ⟨f, Function.update_self f (some p) s.slots⟩
  | @replace f π hp hfree hvictim => exact ⟨f, Function.update_self f (some p) s.slots⟩

/-- The page that a step evicts is the one that was in a frame and is in none. -/
theorem Step.evicted_iff (h : Step R s p o t) (hs : s.Valid) (q : Page) :
    o.evicted = some q ↔ s.Holds q ∧ ¬ t.Holds q := by
  cases h with
  | hit hf =>
    refine iff_of_false (by simp [Outcome.evicted]) (fun hq => hq.2 hq.1)
  | @load f free hp hfree =>
    apply iff_of_false (by simp [Outcome.evicted])
    rintro ⟨⟨g, hg⟩, hnot⟩
    have hgf : g ≠ f := by
      rintro rfl
      rw [hs.free_empty g (by rw [hfree]; exact List.mem_cons_self ..)] at hg
      simp at hg
    exact hnot ⟨g, by rw [← hg]; exact Function.update_of_ne hgf _ _⟩
  | @replace f π hp hfree hvictim =>
    show s.slots f = some q ↔ _
    constructor
    · intro hf
      refine ⟨⟨f, hf⟩, ?_⟩
      rintro ⟨g, hg⟩
      have hg' : Function.update s.slots f (some p) g = some q := hg
      by_cases hgf : g = f
      · subst hgf
        rw [Function.update_self, Option.some.injEq] at hg'
        exact hp ⟨g, hg' ▸ hf⟩
      · rw [Function.update_of_ne hgf] at hg'
        exact hgf (hs.inj g f q hg' hf)
    · rintro ⟨⟨g, hg⟩, hnot⟩
      by_cases hgf : g = f
      · exact hgf ▸ hg
      · exact absurd ⟨g, (Function.update_of_ne hgf _ _).trans hg⟩ hnot

/-! ## Counting faults -/

/-- The number of page faults. -/
def faults (outs : List (Outcome Page)) : ℕ := outs.countP Outcome.isFault

theorem faults_append (outs : List (Outcome Page)) (o : Outcome Page) :
    faults (outs ++ [o]) = faults outs + if o.isFault then 1 else 0 := by
  simp [faults, List.countP_append, List.countP_cons]

theorem faults_eq_count (outs : List (Outcome Page)) :
    faults outs = (outs.map Outcome.isFault).count true := by
  simp [faults, List.count, List.countP_map, Function.comp_def]

/-- **Cold misses.**  Every page of a reference string has to be brought in once. -/
theorem Run.length_firsts_le [DecidableEq Page] {init : σ}
    (h : Run R (Pager.start n init) refs outs s) : (firsts refs).length ≤ faults outs := by
  induction h with
  | nil => simp [firsts, faults]
  | @snoc refs outs s t p o hrun hstep ih =>
    rw [faults_append]
    by_cases hp : p ∈ refs
    · rw [firsts_append_of_mem hp]
      omega
    · have hfault : o.isFault = true :=
        hstep.isFault_iff.mpr (fun hheld => hp (hrun.mem_of_holds hheld))
      rw [firsts_append_of_notMem hp, hfault, if_pos rfl, List.length_append, List.length_singleton]
      omega

/-- **Filling the frames.**  As long as there are no more pages than frames, the pages are
in the frames in the order of their first references. -/
theorem Run.fill [DecidableEq Page] {init : σ} (h : Run R (Pager.start n init) refs outs s)
    (hle : (firsts refs).length ≤ n) :
    (∀ f, s.slots f = (firsts refs)[f]?) ∧
      s.free = (List.range n).drop (firsts refs).length ∧ faults outs = (firsts refs).length := by
  induction h with
  | nil => simp [firsts, faults, Pager.start]
  | @snoc refs outs s t p o hrun hstep ih =>
    have hlen : (firsts refs).length ≤ (firsts (refs ++ [p])).length := by
      by_cases hp : p ∈ refs
      · rw [firsts_append_of_mem hp]
      · rw [firsts_append_of_notMem hp]
        simp
    obtain ⟨hslots, hfree, hfaults⟩ := ih (hlen.trans hle)
    have hholds : s.Holds p ↔ p ∈ refs := by
      refine ⟨hrun.mem_of_holds, fun hp => ?_⟩
      obtain ⟨f, hf⟩ := List.mem_iff_getElem?.mp (mem_firsts.mpr hp)
      exact ⟨f, (hslots f).trans hf⟩
    rw [faults_append, hfaults]
    cases hstep with
    | hit hf =>
      rw [firsts_append_of_mem (hholds.mp ⟨_, hf⟩)]
      exact ⟨hslots, hfree, rfl⟩
    | @load f free hp hcons =>
      rw [firsts_append_of_notMem (fun hmem => hp (hholds.mpr hmem))]
      have hlt : (firsts refs).length < n := by
        by_contra hcon
        rw [hfree, List.drop_eq_nil_of_le (by simpa using hcon)] at hcons
        simp at hcons
      rw [hfree, List.drop_eq_getElem_cons (by simpa using hlt), List.getElem_range,
        List.cons.injEq] at hcons
      obtain ⟨rfl, rfl⟩ := hcons
      refine ⟨fun g => ?_, by simp, by simp [Outcome.isFault]⟩
      show Function.update s.slots _ (some p) g = _
      by_cases hg : g = (firsts refs).length
      · subst hg
        simp
      · rw [Function.update_of_ne hg, hslots, List.getElem?_append]
        split_ifs with hlt
        · rfl
        · rw [List.getElem?_eq_none (by omega), List.getElem?_eq_none (by simp; omega)]
    | @replace f π hp hnil hvictim =>
      rw [firsts_append_of_notMem (fun hmem => hp (hholds.mpr hmem)), List.length_append,
        List.length_singleton] at hle
      rw [hfree, List.drop_eq_nil_iff, List.length_range] at hnil
      omega

theorem Run.holds_iff_of_fill [DecidableEq Page] {init : σ}
    (h : Run R (Pager.start n init) refs outs s) (hle : (firsts refs).length ≤ n) (q : Page) :
    s.Holds q ↔ q ∈ refs := by
  refine ⟨h.mem_of_holds, fun hq => ?_⟩
  obtain ⟨f, hf⟩ := List.mem_iff_getElem?.mp (mem_firsts.mpr hq)
  exact ⟨f, ((h.fill hle).1 f).trans hf⟩

/-! ## Policies that keep track of the frames -/

/-- The policy keeps track of the frames it has been told of: `I F π` says that `π` is a
sound state for the set `F` of loaded frames, and only loaded frames are given up. -/
structure Policy.Tracks (R : Policy σ) (I : Finset ℕ → σ → Prop) : Prop where
  load : ∀ {F π f}, I F π → f ∉ F → I (insert f F) (R.onLoad f π)
  access : ∀ {F π f}, I F π → f ∈ F → I F (R.onAccess f π)
  victim : ∀ {F π}, I F π → F.Nonempty → ∃ f π', R.victim π = some (f, π') ∧ f ∈ F ∧ I F π'
  evict : ∀ {F π f}, I F π → f ∈ F → I (F.erase f) (R.onEvict f π)

/-- The loaded frames `F` and the free frames are the frames below `n`, and the policy
knows the loaded ones. -/
structure Pager.Covered (n : ℕ) (I : Finset ℕ → σ → Prop) (s : Pager Page σ) (F : Finset ℕ) :
    Prop extends s.Valid where
  mem_iff : ∀ f, f ∈ F ↔ ∃ q, s.slots f = some q
  lt_iff : ∀ f, f < n ↔ f ∈ F ∨ f ∈ s.free
  tracked : I F s.policy

variable {I : Finset ℕ → σ → Prop} {F : Finset ℕ}

theorem Pager.covered_start {init : σ} (hinit : I ∅ init) :
    (Pager.start n init : Pager Page σ).Covered n I ∅ :=
  ⟨valid_start n init, by simp [Pager.start], by simp [Pager.start], hinit⟩

/-- Loaded and free frames make up all frames. -/
theorem Pager.Covered.card_add (h : s.Covered n I F) : F.card + s.free.length = n := by
  have hdisj : Disjoint F s.free.toFinset := by
    rw [Finset.disjoint_left]
    intro f hf hfree
    obtain ⟨q, hq⟩ := (h.mem_iff f).mp hf
    rw [h.free_empty f (List.mem_toFinset.mp hfree)] at hq
    simp at hq
  have hunion : F ∪ s.free.toFinset = Finset.range n := by
    ext f
    rw [Finset.mem_union, List.mem_toFinset, Finset.mem_range, h.lt_iff]
  rw [← List.toFinset_card_of_nodup h.free_nodup, ← Finset.card_union_of_disjoint hdisj, hunion,
    Finset.card_range]

/-- With all frames in use, the policy gives one of them up. -/
theorem Pager.Covered.victim (hR : R.Tracks I) (hn : 0 < n) (h : s.Covered n I F)
    (hfree : s.free = []) :
    ∃ f π, R.victim s.policy = some (f, π) ∧ f ∈ F ∧ I F π := by
  have hcard := h.card_add
  rw [hfree, List.length_nil, Nat.add_zero] at hcard
  exact hR.victim h.tracked (Finset.card_pos.mp (by omega))

/-- A frame that is taken in use holds a page. -/
theorem Pager.Covered.exists_evicted (hR : R.Tracks I) (hn : 0 < n) (h : s.Covered n I F)
    (hstep : Step R s p o t) (ho : o.isReplace = true) : ∃ q, o.evicted = some q := by
  cases hstep with
  | hit hf => simp [Outcome.isReplace] at ho
  | load hp hfree => simp [Outcome.isReplace] at ho
  | replace hp hfree hvictim =>
    obtain ⟨f, π, hvictim', hmem, -⟩ := h.victim hR hn hfree
    obtain ⟨rfl, -⟩ := Prod.mk.inj (Option.some.inj (hvictim.symm.trans hvictim'))
    exact (h.mem_iff _).mp hmem

/-- A step keeps track. -/
theorem Pager.Covered.step (hR : R.Tracks I) (hn : 0 < n) (h : s.Covered n I F)
    (hstep : Step R s p o t) :
    ∃ F', t.Covered n I F' := by
  have hvalid := h.toValid.step hstep
  have hupdate : ∀ f g, (∃ q, Function.update s.slots f (some p) g = some q) ↔ g = f ∨ g ∈ F := by
    intro f g
    by_cases hgf : g = f
    · subst hgf
      simp
    · rw [Function.update_of_ne hgf, h.mem_iff]
      simp [hgf]
  cases hstep with
  | @hit f hf =>
    exact ⟨F, hvalid, h.mem_iff, h.lt_iff, hR.access h.tracked ((h.mem_iff f).mpr ⟨p, hf⟩)⟩
  | @load f free hp hfree =>
    have hnot : f ∉ F := by
      intro hf
      obtain ⟨q, hq⟩ := (h.mem_iff f).mp hf
      rw [h.free_empty f (by rw [hfree]; exact List.mem_cons_self ..)] at hq
      simp at hq
    refine ⟨insert f F, hvalid, fun g => ?_, fun g => ?_, hR.load h.tracked hnot⟩
    · rw [Finset.mem_insert]
      exact (hupdate f g).symm
    · rw [h.lt_iff, hfree, Finset.mem_insert, List.mem_cons]
      tauto
  | @replace f π hp hfree hvictim =>
    obtain ⟨f', π', hvictim', hmem, htracked⟩ := h.victim hR hn hfree
    obtain ⟨rfl, rfl⟩ : f' = f ∧ π' = π := by
      have heq := hvictim'.symm.trans hvictim
      simpa using heq
    have hloaded := hR.load (hR.evict htracked hmem) (Finset.notMem_erase f' F)
    rw [Finset.insert_erase hmem] at hloaded
    refine ⟨F, hvalid, fun g => ?_, fun g => ?_, hloaded⟩
    · have hg := hupdate f' g
      rw [hg]
      exact ⟨.inr, fun hor => hor.elim (fun heq => heq ▸ hmem) id⟩
    · rw [h.lt_iff, hfree]

theorem Run.covered (hR : R.Tracks I) (hn : 0 < n) {init : σ} (hinit : I ∅ init)
    (h : Run R (Pager.start n init) refs outs s) : ∃ F, s.Covered n I F := by
  induction h with
  | nil => exact ⟨∅, Pager.covered_start hinit⟩
  | snoc _ hstep ih =>
    obtain ⟨F, hF⟩ := ih
    exact hF.step hR hn hstep

/-- **Progress.**  Every reference has a step. -/
theorem Pager.Covered.exists_step (hR : R.Tracks I) (hn : 0 < n) (h : s.Covered n I F)
    (p : Page) : ∃ o t, Step R s p o t := by
  by_cases hp : s.Holds p
  · obtain ⟨f, hf⟩ := hp
    exact ⟨_, _, .hit hf⟩
  · match hfree : s.free with
    | f :: free => exact ⟨_, _, .load hp hfree⟩
    | [] =>
      obtain ⟨f, π, hvictim, -, -⟩ := h.victim hR hn hfree
      exact ⟨_, _, .replace hp hfree hvictim⟩

/-- With one frame, the page of the last reference is in it. -/
theorem Run.holds_iff_of_one (hR : R.Tracks I) {init : σ} (hinit : I ∅ init)
    (h : Run R (Pager.start 1 init) refs outs s) (q : Page) :
    s.Holds q ↔ refs.getLast? = some q := by
  obtain ⟨F, hF⟩ := h.covered hR Nat.one_pos hinit
  have hzero : ∀ f q, s.slots f = some q → f = 0 := by
    intro f q hf
    have hlt := (hF.lt_iff f).mpr (.inl ((hF.mem_iff f).mpr ⟨q, hf⟩))
    omega
  cases h with
  | nil => simp [Pager.Holds, Pager.start]
  | @snoc refs outs s' _ p o hrun hstep =>
    obtain ⟨g, hg⟩ := hstep.holds_self
    rw [List.getLast?_concat, Option.some.injEq]
    constructor
    · rintro ⟨f, hf⟩
      rw [hzero f q hf, ← hzero g p hg, hg] at hf
      exact Option.some.inj hf
    · rintro rfl
      exact ⟨g, hg⟩

end Paging
