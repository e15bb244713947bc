/-
# Textbook replacement and reference strings with one eviction

The textbook FIFO algorithm keeps the resident pages in a queue.  The second-chance
algorithm keeps them in a circle with a reference bit each; the circle is written as the
list of its places from the hand on, so that to advance the hand is to move the first
place to the end.

A pager and a textbook algorithm that first give up the frame that was filled first agree
on every reference string that makes them evict no more than once (`SingleEviction`,
`Run.single`): after the first eviction only hits follow.
-/
import MemoryAllocator.DemandPaging

namespace Paging

variable {Page σ : Type*} [DecidableEq Page]

/-! ## Textbook FIFO -/

/-- One reference of textbook FIFO, on the queue of resident pages, oldest first. -/
def fifoStep (n : ℕ) (queue : List Page) (p : Page) : List Page :=
  if p ∈ queue then queue
  else if queue.length < n then queue ++ [p]
  else queue.tail ++ [p]

/-- The queue after a reference string. -/
def fifoQueue (n : ℕ) (refs : List Page) : List Page := refs.foldl (fifoStep n) []

/-- Which references of a string are page faults, from the given queue on. -/
def fifoFaultsFrom (n : ℕ) : List Page → List Page → List Bool
  | _, [] => []
  | queue, p :: refs => decide (p ∉ queue) :: fifoFaultsFrom n (fifoStep n queue p) refs

/-- Which references of a string are page faults of textbook FIFO. -/
def fifoFaults (n : ℕ) (refs : List Page) : List Bool := fifoFaultsFrom n [] refs

theorem fifoQueue_append (n : ℕ) (refs : List Page) (p : Page) :
    fifoQueue n (refs ++ [p]) = fifoStep n (fifoQueue n refs) p := by
  rw [fifoQueue, List.foldl_append]
  rfl

theorem fifoFaults_append (n : ℕ) (refs : List Page) (p : Page) :
    fifoFaults n (refs ++ [p]) = fifoFaults n refs ++ [decide (p ∉ fifoQueue n refs)] := by
  have hfrom : ∀ (refs queue : List Page), fifoFaultsFrom n queue (refs ++ [p])
      = fifoFaultsFrom n queue refs ++ [decide (p ∉ refs.foldl (fifoStep n) queue)] := by
    intro refs
    induction refs with
    | nil => exact fun queue => rfl
    | cons q refs ih =>
      intro queue
      rw [List.cons_append, fifoFaultsFrom, fifoFaultsFrom, ih, List.cons_append, List.foldl_cons]
  exact hfrom refs []

/-- As long as the frames last, the queue holds the pages in the order of their first
references. -/
theorem fifoQueue_fill {n : ℕ} {refs : List Page} (h : (firsts refs).length ≤ n) :
    fifoQueue n refs = firsts refs := by
  induction refs using List.reverseRecOn with
  | nil => rfl
  | append_singleton refs p ih =>
    rw [fifoQueue_append]
    by_cases hp : p ∈ refs
    · rw [firsts_append_of_mem hp] at h ⊢
      rw [ih h, fifoStep, if_pos (mem_firsts.mpr hp)]
    · rw [firsts_append_of_notMem hp] at h ⊢
      rw [List.length_append, List.length_singleton] at h
      rw [ih (by omega), fifoStep, if_neg (fun hmem => hp (mem_firsts.mp hmem)), if_pos (by omega)]

/-- With one frame, the page of the last reference is resident. -/
theorem fifoQueue_one (refs : List Page) : fifoQueue 1 refs = refs.getLast?.toList := by
  induction refs using List.reverseRecOn with
  | nil => rfl
  | append_singleton refs p ih =>
    rw [fifoQueue_append, ih, List.getLast?_concat]
    cases refs.getLast? with
    | none => simp [fifoStep]
    | some q =>
      by_cases hpq : p = q
      · simp [fifoStep, hpq]
      · simp [fifoStep, hpq]

/-- A pager that holds the pages of textbook FIFO along its runs has the page faults of
textbook FIFO; `P` is a condition on the reference strings. -/
theorem Run.isFault_eq_fifoFaults {R : Policy σ} {init : σ} {n : ℕ} {P : List Page → Prop}
    (hP : ∀ refs p, P (refs ++ [p]) → P refs)
    (hholds : ∀ refs outs s, Run R (Pager.start n init) refs outs s → P refs →
      ∀ q, s.Holds q ↔ q ∈ fifoQueue n refs)
    {refs : List Page} {outs : List (Outcome Page)} {s : Pager Page σ}
    (h : Run R (Pager.start n init) refs outs s) (hrefs : P refs) :
    outs.map Outcome.isFault = fifoFaults n refs := by
  induction h with
  | nil => rfl
  | @snoc refs outs s t p o hrun hstep ih =>
    have hstart := hP refs p hrefs
    rw [List.map_append, List.map_singleton, ih hstart, fifoFaults_append]
    congr 2
    have hiff := hstep.isFault_iff
    rw [hholds refs outs s hrun hstart] at hiff
    by_cases hp : p ∈ fifoQueue n refs
    · rw [decide_eq_false (not_not.mpr hp)]
      simpa using hiff.not.mpr (not_not.mpr hp)
    · rw [decide_eq_true hp]
      exact hiff.mpr hp

/-- **With one frame there is one policy**: every policy has the page faults of FIFO. -/
theorem Run.isFault_one {R : Policy σ} {I : Finset ℕ → σ → Prop} (hR : R.Tracks I) {init : σ}
    (hinit : I ∅ init) {refs : List Page} {outs : List (Outcome Page)} {s : Pager Page σ}
    (h : Run R (Pager.start 1 init) refs outs s) :
    outs.map Outcome.isFault = fifoFaults 1 refs := by
  refine h.isFault_eq_fifoFaults (P := fun _ => True) (fun _ _ _ => trivial) ?_ trivial
  intro refs outs s hrun _ q
  rw [hrun.holds_iff_of_one hR hinit, fifoQueue_one, Option.mem_toList]

/-! ## The order of loads -/

/-- The pages that were brought in, in that order, where `faults` says which references
were page faults. -/
def loads (refs : List Page) (faults : List Bool) : List Page :=
  ((refs.zip faults).filter (fun x => x.2)).map Prod.fst

/-- After `p` was brought in for the last time, `q` was brought in. -/
def LoadedBefore (loads : List Page) (p q : Page) : Prop :=
  ∃ l₁ l₂, loads = l₁ ++ p :: l₂ ∧ p ∉ l₂ ∧ q ∈ l₂

omit [DecidableEq Page] in
theorem loads_append {refs : List Page} {faults : List Bool} (h : refs.length = faults.length)
    (p : Page) (b : Bool) :
    loads (refs ++ [p]) (faults ++ [b]) = loads refs faults ++ if b then [p] else [] := by
  rw [loads, List.zip_append h, List.filter_append, List.map_append]
  cases b <;> rfl

omit [DecidableEq Page] in
/-- The page that came last was not followed by any. -/
theorem not_loadedBefore_last (l : List Page) (p q : Page) : ¬ LoadedBefore (l ++ [p]) p q := by
  rintro ⟨l₁, l₂, heq, hp, hq⟩
  rcases List.eq_nil_or_concat l₂ with rfl | ⟨l₂, c, rfl⟩
  · simp at hq
  · rw [List.concat_eq_append, ← List.cons_append, ← List.append_assoc] at heq
    have hc : p = c := (List.cons.inj (List.append_inj' heq rfl).2).1
    exact hp (by simp [hc])

/-! ## Reference strings with one eviction -/

/-- After the first page that finds all `n` frames in use, only that page and the pages
that were second to last to come are referenced. -/
def SingleEviction (n : ℕ) (refs : List Page) : Prop :=
  ∀ pre a post, refs = pre ++ a :: post → a ∉ pre → (firsts pre).length = n →
    ∀ b ∈ post, b = a ∨ b ∈ (firsts pre).tail

variable {R : Policy σ} {s : Pager Page σ} {refs pre post : List Page} {a p : Page}
  {outs : List (Outcome Page)} {n : ℕ} {init : σ}

theorem SingleEviction.of_prefix (h : SingleEviction n refs) (hstart : pre <+: refs) :
    SingleEviction n pre := by
  obtain ⟨rest, rfl⟩ := hstart
  intro pre a post heq ha hlen b hb
  refine h pre a (post ++ rest) ?_ ha hlen b (List.mem_append_left _ hb)
  rw [heq]
  simp

theorem SingleEviction.of_append (h : SingleEviction n (refs ++ [p])) : SingleEviction n refs :=
  h.of_prefix (List.prefix_append refs [p])

theorem length_firsts_le_append (refs post : List Page) :
    (firsts refs).length ≤ (firsts (refs ++ post)).length := by
  apply List.Subperm.length_le
  exact (nodup_firsts refs).subperm (fun q hq => by simpa using .inl (by simpa using hq))

/-- Where the first eviction happens. -/
theorem split_unique {pre' post' : List Page} {a' : Page}
    (heq : pre ++ a :: post = pre' ++ a' :: post') (ha : a ∉ pre) (ha' : a' ∉ pre')
    (hlen : (firsts pre).length = (firsts pre').length) : pre = pre' ∧ a = a' ∧ post = post' := by
  have hsplit : ∀ {l l' : List Page} {b b' : Page} {m m' : List Page},
      l ++ b :: m = l' ++ b' :: m' → b ∉ l → (firsts l).length = (firsts l').length →
      l'.length ≤ l.length := by
    intro l l' b b' m m' heq hb hlen
    by_contra hlt
    -- otherwise the page is one more page of the longer list
    have hstart : ∃ rest, l' = l ++ b :: rest := by
      rcases List.append_eq_append_iff.mp heq with ⟨x, hx, htail⟩ | ⟨x, hx, -⟩
      · cases x with
        | nil =>
          rw [hx, List.append_nil] at hlt
          exact absurd (le_refl _) hlt
        | cons c rest =>
          rw [List.cons_append, List.cons.injEq] at htail
          exact ⟨rest, by rw [hx, htail.1]⟩
      · rw [hx, List.length_append] at hlt
        omega
    obtain ⟨rest, rfl⟩ := hstart
    have hle := length_firsts_le_append (l ++ [b]) rest
    rw [firsts_append_of_notMem hb, List.append_assoc, List.singleton_append] at hle
    simp only [List.length_append, List.length_singleton] at hle
    omega
  have hpre : pre.length = pre'.length :=
    le_antisymm (hsplit heq.symm ha' hlen.symm) (hsplit heq ha hlen)
  obtain ⟨rfl, htail⟩ := List.append_inj heq hpre
  obtain ⟨rfl, rfl⟩ := List.cons.inj htail
  exact ⟨rfl, rfl, rfl⟩

theorem singleEviction_of_split (pre post : List Page) (a : Page) (ha : a ∉ pre)
    (hlen : (firsts pre).length = n) (hpost : ∀ b ∈ post, b = a ∨ b ∈ (firsts pre).tail) :
    SingleEviction n (pre ++ a :: post) := by
  intro pre' a' post' heq ha' hlen'
  obtain ⟨rfl, rfl, rfl⟩ := split_unique heq ha ha' (hlen.trans hlen'.symm)
  exact hpost

/-- More pages than frames have a first eviction. -/
theorem exists_split (h : n < (firsts refs).length) :
    ∃ pre a post, refs = pre ++ a :: post ∧ a ∉ pre ∧ (firsts pre).length = n := by
  induction refs using List.reverseRecOn with
  | nil => simp [firsts] at h
  | append_singleton refs p ih =>
    by_cases hlt : n < (firsts refs).length
    · obtain ⟨pre, a, post, rfl, ha, hlen⟩ := ih hlt
      exact ⟨pre, a, post ++ [p], by simp, ha, hlen⟩
    · by_cases hp : p ∈ refs
      · rw [firsts_append_of_mem hp] at h
        omega
      · rw [firsts_append_of_notMem hp, List.length_append, List.length_singleton] at h
        exact ⟨refs, p, [], rfl, hp, by omega⟩

/-- A reference string with more than one eviction has a second one. -/
theorem exists_second (h : ¬ SingleEviction n refs) :
    ∃ pre a post b rest, refs = (pre ++ a :: post) ++ b :: rest ∧ a ∉ pre ∧
      (firsts pre).length = n ∧ SingleEviction n (pre ++ a :: post) ∧ b ≠ a ∧
      b ∉ (firsts pre).tail := by
  induction refs using List.reverseRecOn with
  | nil =>
    refine absurd (fun pre a post heq => ?_) h
    simp at heq
  | append_singleton refs p ih =>
    by_cases hsingle : SingleEviction n refs
    · unfold SingleEviction at h
      push Not at h
      obtain ⟨pre, a, post, heq, ha, hlen, b, hb, hba, htail⟩ := h
      rcases List.eq_nil_or_concat post with rfl | ⟨post, c, rfl⟩
      · simp at hb
      · rw [List.concat_eq_append, ← List.cons_append, ← List.append_assoc] at heq
        obtain ⟨rfl, hcons⟩ := List.append_inj' heq rfl
        obtain rfl : p = c := (List.cons.inj hcons).1
        -- the page of the last reference is the one that breaks the rule
        obtain rfl : b = p := by
          rw [List.concat_eq_append, List.mem_append, List.mem_singleton] at hb
          refine hb.resolve_left (fun hmem => ?_)
          rcases hsingle pre a post rfl ha hlen b hmem with heq | hmem
          · exact hba heq
          · exact htail hmem
        exact ⟨pre, a, post, b, [], rfl, ha, hlen, hsingle, hba, htail⟩
    · obtain ⟨pre, a, post, b, rest, rfl, hrest⟩ := ih hsingle
      exact ⟨pre, a, post, b, rest ++ [p], by simp, hrest⟩

/-- The policy first gives up frame 0. -/
def FirstOut (R : Policy σ) (init : σ) (n : ℕ) (Page : Type*) [DecidableEq Page] : Prop :=
  ∀ (refs : List Page) outs s, Run R (Pager.start n init) refs outs s →
    (firsts refs).length = n → ∀ f π, R.victim s.policy = some (f, π) → f = 0

/-- The evicted pages of a run. -/
def evictions (outs : List (Outcome Page)) : List Page := outs.filterMap Outcome.evicted

omit [DecidableEq Page] in
theorem evictions_append (outs : List (Outcome Page)) (o : Outcome Page) :
    evictions (outs ++ [o]) = evictions outs ++ o.evicted.toList := by
  rw [evictions, List.filterMap_append, List.filterMap_cons]
  cases o.evicted <;> rfl

/-- What is known of a run with one eviction, after that eviction. -/
structure Evicted (n : ℕ) (pre : List Page) (a : Page) (outs : List (Outcome Page))
    (s : Pager Page σ) (loads : List Page) : Prop where
  slots_eq : ∀ f, s.slots f = if f = 0 then some a else (firsts pre)[f]?
  free_eq : s.free = []
  evictions_eq : evictions outs = (firsts pre).head?.toList
  loads_eq : loads = firsts pre ++ [a]

omit [DecidableEq Page] in
theorem Run.isFault_length (h : Run R (Pager.start n init) refs outs s) :
    refs.length = (outs.map Outcome.isFault).length := by
  rw [List.length_map, h.length_eq]

/-- The pages that a run has brought in while the frames lasted. -/
theorem Run.loads_fill (h : Run R (Pager.start n init) refs outs s)
    (hle : (firsts refs).length ≤ n) :
    loads refs (outs.map Outcome.isFault) = firsts refs ∧ evictions outs = [] := by
  induction h with
  | nil => exact ⟨rfl, rfl⟩
  | @snoc refs outs s t p o hrun hstep ih =>
    have hmono := (length_firsts_le_append refs [p]).trans hle
    obtain ⟨hloads, hevictions⟩ := ih hmono
    obtain ⟨-, hfree, -⟩ := hrun.fill hmono
    have hholds := hrun.holds_iff_of_fill hmono p
    rw [List.map_append, List.map_singleton, loads_append hrun.isFault_length, hloads,
      evictions_append, hevictions]
    cases hstep with
    | hit hf =>
      rw [firsts_append_of_mem (hholds.mp ⟨_, hf⟩)]
      exact ⟨List.append_nil _, rfl⟩
    | load hp hcons =>
      rw [firsts_append_of_notMem (fun hmem => hp (hholds.mpr hmem))]
      exact ⟨rfl, rfl⟩
    | replace hp hnil hvictim =>
      rw [firsts_append_of_notMem (fun hmem => hp (hholds.mpr hmem)), List.length_append,
        List.length_singleton] at hle
      rw [hfree, List.drop_eq_nil_iff, List.length_range] at hnil
      omega

/-- **One eviction.**  On a reference string with at most one eviction, a policy that first
gives up frame 0 puts the page that finds no room there, and evicts nothing else. -/
theorem Run.single (hfirst : FirstOut R init n Page)
    (h : Run R (Pager.start n init) refs outs s) (hsingle : SingleEviction n refs)
    (heq : refs = pre ++ a :: post) (ha : a ∉ pre) (hlen : (firsts pre).length = n) :
    Evicted n pre a outs s (loads refs (outs.map Outcome.isFault)) := by
  induction h generalizing post with
  | nil => simp at heq
  | @snoc refs outs s t p o hrun hstep ih =>
    have hstart := hsingle.of_append
    rw [List.map_append, List.map_singleton, loads_append hrun.isFault_length]
    rcases List.eq_nil_or_concat post with rfl | ⟨post', b, rfl⟩
    · -- the eviction itself
      obtain ⟨rfl, rfl⟩ : refs = pre ∧ p = a := by
        obtain ⟨h₁, h₂⟩ := List.append_inj' heq rfl
        exact ⟨h₁, (List.cons.inj h₂).1⟩
      obtain ⟨hslots, hfree, -⟩ := hrun.fill hlen.le
      obtain ⟨hloads, hevictions⟩ := hrun.loads_fill hlen.le
      have hnot : ¬ s.Holds p := fun hp => ha (hrun.mem_of_holds hp)
      rw [hlen, List.drop_eq_nil_of_le (by simp)] at hfree
      cases hstep with
      | hit hf => exact absurd ⟨_, hf⟩ hnot
      | load hp hcons =>
        rw [hfree] at hcons
        simp at hcons
      | @replace f π hp hnil hvictim =>
        obtain rfl := hfirst _ _ _ hrun hlen f π hvictim
        refine ⟨fun f => ?_, rfl, ?_, by rw [hloads]; rfl⟩
        · show Function.update s.slots 0 (some p) f = _
          by_cases hf : f = 0
          · subst hf
            simp
          · rw [Function.update_of_ne hf, if_neg hf, hslots]
        · rw [evictions_append, hevictions, List.head?_eq_getElem?, ← hslots]
          rfl
    · -- a hit
      obtain ⟨rfl, rfl⟩ : refs = pre ++ a :: post' ∧ p = b := by
        rw [List.concat_eq_append, ← List.cons_append, ← List.append_assoc] at heq
        obtain ⟨h₁, h₂⟩ := List.append_inj' heq rfl
        exact ⟨h₁, (List.cons.inj h₂).1⟩
      have hs := ih hstart rfl
      have hheld : s.Holds p := by
        rcases hsingle pre a (post'.concat p) heq ha hlen p (by simp) with rfl | hp
        · exact ⟨0, by rw [hs.slots_eq]; rfl⟩
        · obtain ⟨f, hf⟩ := List.mem_iff_getElem?.mp hp
          rw [List.getElem?_tail] at hf
          exact ⟨f + 1, by rw [hs.slots_eq, if_neg (Nat.succ_ne_zero f), hf]⟩
      cases hstep with
      | hit hf =>
        refine ⟨hs.slots_eq, hs.free_eq, ?_, ?_⟩
        · rw [evictions_append, hs.evictions_eq]
          exact List.append_nil _
        · rw [hs.loads_eq]
          exact List.append_nil _
      | load hp hcons => exact absurd hheld hp
      | replace hp hnil hvictim => exact absurd hheld hp

theorem Evicted.holds_iff {loads : List Page} (h : Evicted n pre a outs s loads) (q : Page) :
    s.Holds q ↔ q = a ∨ q ∈ (firsts pre).tail := by
  constructor
  · rintro ⟨f, hf⟩
    rw [h.slots_eq] at hf
    split_ifs at hf with hzero
    · exact .inl (Option.some.inj hf).symm
    · obtain ⟨f, rfl⟩ := Nat.exists_eq_succ_of_ne_zero hzero
      rw [← List.getElem?_tail] at hf
      exact .inr (List.mem_of_getElem? hf)
  · rintro (rfl | hq)
    · exact ⟨0, by rw [h.slots_eq]; rfl⟩
    · obtain ⟨f, hf⟩ := List.mem_iff_getElem?.mp hq
      rw [List.getElem?_tail] at hf
      exact ⟨f + 1, by rw [h.slots_eq, if_neg (Nat.succ_ne_zero f), hf]⟩

/-- The queue of textbook FIFO after its one eviction. -/
theorem fifoQueue_single (ha : a ∉ pre) (hlen : (firsts pre).length = n)
    (hpost : ∀ b ∈ post, b = a ∨ b ∈ (firsts pre).tail) :
    fifoQueue n (pre ++ a :: post) = (firsts pre).tail ++ [a] := by
  induction post using List.reverseRecOn with
  | nil =>
    rw [fifoQueue_append, fifoQueue_fill hlen.le, fifoStep,
      if_neg (fun hmem => ha (mem_firsts.mp hmem)), if_neg (by omega)]
  | append_singleton post b ih =>
    have hqueue := ih (fun c hc => hpost c (List.mem_append_left _ hc))
    rw [← List.cons_append, ← List.append_assoc, fifoQueue_append, hqueue, fifoStep, if_pos]
    rw [List.mem_append, List.mem_singleton]
    exact (hpost b (by simp)).symm

/-! ## Second chance -/

/-- The circle from the hand on, after the hand has gone to the first clear bit and has
cleared the bits it met.  If all bits are set, the hand clears them and comes back to
where it was. -/
def advanceHand {α : Type*} (circle : List (α × Bool)) : List (α × Bool) :=
  circle.dropWhile (fun x => x.2) ++ (circle.takeWhile (fun x => x.2)).map (fun x => (x.1, false))

/-- One reference of the second-chance algorithm, with the page it evicts: the new page
takes the place of the victim, and the hand moves on to the next place. -/
def chanceStep (n : ℕ) (circle : List (Page × Bool)) (p : Page) :
    List (Page × Bool) × Option Page :=
  if p ∈ circle.map Prod.fst then
    (circle.map (fun x => if x.1 = p then (p, true) else x), none)
  else if circle.length < n then (circle ++ [(p, true)], none)
  else
    match advanceHand circle with
    | [] => (circle, none)
    | victim :: rest => (rest ++ [(p, true)], some victim.1)

/-- The circle after a reference string, and the pages that were evicted. -/
def chanceRun (n : ℕ) (refs : List Page) : List (Page × Bool) × List Page :=
  refs.foldl (fun x p => ((chanceStep n x.1 p).1, x.2 ++ (chanceStep n x.1 p).2.toList)) ([], [])

theorem chanceRun_append (n : ℕ) (refs : List Page) (p : Page) :
    chanceRun n (refs ++ [p]) = ((chanceStep n (chanceRun n refs).1 p).1,
      (chanceRun n refs).2 ++ (chanceStep n (chanceRun n refs).1 p).2.toList) := by
  rw [chanceRun, List.foldl_append]
  rfl

theorem advanceHand_map {α β : Type*} (g : α → β) (circle : List (α × Bool)) :
    advanceHand (circle.map (fun x => (g x.1, x.2)))
      = (advanceHand circle).map (fun x => (g x.1, x.2)) := by
  rw [advanceHand, List.dropWhile_map, List.takeWhile_map, advanceHand, List.map_append,
    List.map_map, List.map_map]
  rfl

/-- With all bits set, the hand makes a full turn. -/
theorem advanceHand_of_set {α : Type*} (l : List α) :
    advanceHand (l.map (fun x => (x, true))) = l.map (fun x => (x, false)) := by
  rw [advanceHand, List.dropWhile_eq_nil_iff.mpr (by simp), List.takeWhile_eq_self_iff.mpr (by simp),
    List.nil_append, List.map_map]
  rfl

/-- As long as the frames last, the circle holds the pages in the order of their first
references, with their bits set. -/
theorem chanceRun_fill (h : (firsts refs).length ≤ n) :
    chanceRun n refs = ((firsts refs).map (fun q => (q, true)), []) := by
  induction refs using List.reverseRecOn with
  | nil => rfl
  | append_singleton refs p ih =>
    have hmono := (length_firsts_le_append refs [p]).trans h
    rw [chanceRun_append, ih hmono, chanceStep, List.map_map]
    have hmem : p ∈ (firsts refs).map (Prod.fst ∘ fun q => (q, true)) ↔ p ∈ refs := by
      simp
    by_cases hp : p ∈ refs
    · rw [if_pos (hmem.mpr hp), firsts_append_of_mem hp, List.map_map]
      refine Prod.ext (List.map_congr_left (fun q _ => ?_)) rfl
      by_cases hq : q = p
      · simp [hq]
      · simp [hq]
    · rw [firsts_append_of_notMem hp] at h ⊢
      rw [List.length_append, List.length_singleton] at h
      rw [if_neg (fun hin => hp (hmem.mp hin)), if_pos (by simpa using by omega), List.map_append]
      rfl

/-- The second-chance algorithm on a reference string with one eviction. -/
theorem chanceRun_single (hn : 0 < n) (ha : a ∉ pre) (hlen : (firsts pre).length = n)
    (hpost : ∀ b ∈ post, b = a ∨ b ∈ (firsts pre).tail) :
    (chanceRun n (pre ++ a :: post)).1.map Prod.fst = (firsts pre).tail ++ [a] ∧
      (chanceRun n (pre ++ a :: post)).2 = (firsts pre).head?.toList := by
  induction post using List.reverseRecOn with
  | nil =>
    obtain ⟨x, rest, hfirsts⟩ := List.exists_cons_of_length_pos (hlen.symm ▸ hn)
    have hstep : chanceStep n ((firsts pre).map (fun q => (q, true))) a
        = (rest.map (fun q => (q, false)) ++ [(a, true)], some x) := by
      rw [chanceStep, if_neg (by simpa using ha), if_neg (by simp [hlen]), advanceHand_of_set,
        hfirsts]
      rfl
    rw [chanceRun_append, chanceRun_fill hlen.le, hstep, hfirsts]
    simp [Function.comp_def]
  | append_singleton post b ih =>
    obtain ⟨hcircle, hevictions⟩ := ih (fun c hc => hpost c (List.mem_append_left _ hc))
    rw [← List.cons_append, ← List.append_assoc, chanceRun_append, chanceStep, if_pos]
    · refine ⟨?_, by simpa using hevictions⟩
      rw [← hcircle, List.map_map]
      refine List.map_congr_left (fun x _ => ?_)
      by_cases hx : x.1 = b
      · simp [hx]
      · simp [hx]
    · rw [hcircle, List.mem_append, List.mem_singleton]
      exact (hpost b (by simp)).symm

/-- A pager that first gives up frame 0 evicts like second chance as long as there is at
most one eviction. -/
theorem Run.evictions_eq_chance (hn : 0 < n) (hfirst : FirstOut R init n Page)
    (h : Run R (Pager.start n init) refs outs s) (hsingle : SingleEviction n refs) :
    evictions outs = (chanceRun n refs).2 := by
  by_cases hle : (firsts refs).length ≤ n
  · rw [(h.loads_fill hle).2, chanceRun_fill hle]
  · obtain ⟨pre, a, post, heq, ha, hlen⟩ := exists_split (not_le.mp hle)
    rw [(h.single hfirst hsingle heq ha hlen).evictions_eq, heq,
      (chanceRun_single hn ha hlen (hsingle pre a post heq ha hlen)).2]

end Paging
