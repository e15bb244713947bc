/-
# The invariant of slab caches and threads

`SlabSystem.Inv` ties the slabs (`HeapInv`) and the threads (`ClientInv`) to one map
`place` from slots to places.  Because it is a map, a slot is in at most one place; each
of the lists (live slots, magazines, free lists) holds exactly the slots that the map
sends there, and each of them once.

Every step keeps the invariant (`Inv.step`), provided that a cache that allocates from a
magazine finds a slot on top that was freed to that cache (`SlabSystem.Tidy`).  With a
single cache this is no condition.  Only a thread that ends loses slots.
-/
import MemoryAllocator.SlabHeap

namespace Memory

/-! ## Lists of slots -/

section Lists

variable {ι : Type} {place place' : ℕ → Place ι} {f : ι → Place ι}
  {l : List (ℕ × ι)} {p : ℕ} {c : ι} {x : Place ι}

/-- The list holds exactly the slots that `place` puts there, each once. -/
structure Lists (place : ℕ → Place ι) (f : ι → Place ι) (l : List (ℕ × ι)) : Prop where
  nodup : l.Nodup
  mem_iff : ∀ p c, (p, c) ∈ l ↔ place p = f c

/-- The addresses of the list, without the caches. -/
theorem Lists.mem_ptrs (h : Lists place f l) : p ∈ l.map Prod.fst ↔ ∃ c, place p = f c := by
  simp [h.mem_iff]

theorem Lists.nodup_ptrs (h : Lists place f l) (hf : Function.Injective f) :
    (l.map Prod.fst).Nodup := by
  apply h.nodup.map_on
  rintro ⟨q, d⟩ hq ⟨q', d'⟩ hq' heq
  obtain rfl : q = q' := heq
  rw [h.mem_iff] at hq hq'
  rw [hf (hq.symm.trans hq')]

theorem Lists.congr (h : Lists place f l) (hplace : ∀ q c, place' q = f c ↔ place q = f c) :
    Lists place' f l :=
  ⟨h.nodup, fun q c => by rw [h.mem_iff, hplace]⟩

/-- A slot moves past the list. -/
theorem Lists.other (h : Lists place f l) (hp : ∀ c, place p ≠ f c) (hx : ∀ c, x ≠ f c) :
    Lists (Function.update place p x) f l := by
  refine h.congr (fun q c => ?_)
  by_cases hq : q = p
  · subst hq
    simp [hp c, hx c]
  · rw [Function.update_of_ne hq]

/-- A slot enters the list. -/
theorem Lists.cons (h : Lists place f l) (hf : Function.Injective f) (hp : ∀ c, place p ≠ f c) :
    Lists (Function.update place p (f c)) f ((p, c) :: l) := by
  refine ⟨List.nodup_cons.mpr ⟨fun hmem => hp c ((h.mem_iff p c).mp hmem), h.nodup⟩, fun q c' => ?_⟩
  by_cases hq : q = p
  · subst hq
    have hnot : (q, c') ∉ l := fun hmem => hp c' ((h.mem_iff q c').mp hmem)
    simp [hnot, hf.eq_iff, eq_comm]
  · simp [hq, h.mem_iff]

/-- A slot leaves the list. -/
theorem Lists.erase [DecidableEq ι] (h : Lists place f l) (hf : Function.Injective f)
    (hp : place p = f c) (hx : ∀ c', x ≠ f c') : Lists (Function.update place p x) f (l.erase (p, c)) := by
  refine ⟨h.nodup.erase _, fun q c' => ?_⟩
  rw [h.nodup.mem_erase_iff, h.mem_iff]
  by_cases hq : q = p
  · subst hq
    simp only [Function.update_self, hx c', iff_false, not_and, hp]
    intro hne heq
    exact hne (by rw [hf heq])
  · simp [hq]

end Lists

theorem Place.live_injective {ι : Type} : Function.Injective (Place.live (ι := ι)) :=
  fun _ _ h => Place.live.inj h

theorem Place.magazine_injective {ι : Type} (t : ℕ) :
    Function.Injective (Place.magazine (ι := ι) t) :=
  fun _ _ h => (Place.magazine.inj h).2

/-! ## Threads -/

section Threads

variable {ι : Type} {magazine magazine' : ℕ → List (ℕ × ι)} {call call' : ℕ → Call ι}
  {live : List (ℕ × ι)} {leaving ended ended' : List ℕ} {place place' : ℕ → Place ι} {t p : ℕ} {c : ι}

/-- A thread that has not made a call. -/
structure Untouched (magazine : ℕ → List (ℕ × ι)) (call : ℕ → Call ι) (ended : List ℕ) (t : ℕ) :
    Prop where
  running : t ∉ ended
  magazine_eq : magazine t = []
  call_eq : call t = .idle

/-- The live slots and the magazines are as the places say, and the calls under way are
consistent with them. -/
structure ClientInv (magazine : ℕ → List (ℕ × ι)) (call : ℕ → Call ι) (live : List (ℕ × ι))
    (leaving ended : List ℕ) (place : ℕ → Place ι) : Prop where
  lives : Lists place .live live
  magazines : ∀ t, Lists place (.magazine t) (magazine t)
  freeing : ∀ t c p, call t = .freeing c p → place p = .live c ∧ p ∈ leaving
  freeing_unique : ∀ t t' c c' p, call t = .freeing c p → call t' = .freeing c' p → t = t'
  allocating : ∀ t c, call t = .allocating c → magazine t = []
  ended_idle : ∀ t ∈ ended, magazine t = [] ∧ call t = .idle
  fresh : ∃ N, ∀ t, N ≤ t → Untouched magazine call ended t

/-- Fresh threads remain when one thread is touched. -/
theorem ClientInv.fresh_of_touch (h : ClientInv magazine call live leaving ended place)
    (hother : ∀ t', t' ≠ t → Untouched magazine call ended t' →
      Untouched magazine' call' ended' t') :
    ∃ N, ∀ t', N ≤ t' → Untouched magazine' call' ended' t' := by
  obtain ⟨N, hN⟩ := h.fresh
  -- the threads past the old bound and past the touched one
  refine ⟨max N (t + 1), fun t' ht' => hother t' ?_ (hN t' ?_)⟩
  · have := le_trans (le_max_right N (t + 1)) ht'
    omega
  · exact le_trans (le_max_left _ _) ht'

/-- Fresh threads remain when one thread begins or ends a call. -/
theorem ClientInv.fresh_of_call (h : ClientInv magazine call live leaving ended place)
    (x : Call ι) :
    ∃ N, ∀ t', N ≤ t' → Untouched magazine (Function.update call t x) ended t' := by
  refine h.fresh_of_touch (t := t) (fun t' ht' hu => ⟨hu.running, hu.magazine_eq, ?_⟩)
  rw [Function.update_of_ne ht']
  exact hu.call_eq

/-- Fresh threads remain when the magazine of one thread changes. -/
theorem ClientInv.fresh_of_magazine (h : ClientInv magazine call live leaving ended place)
    (l : List (ℕ × ι)) :
    ∃ N, ∀ t', N ≤ t' → Untouched (Function.update magazine t l) call ended t' := by
  refine h.fresh_of_touch (t := t) (fun t' ht' hu => ⟨hu.running, ?_, hu.call_eq⟩)
  rw [Function.update_of_ne ht']
  exact hu.magazine_eq

/-- A thread that has ended stays idle: only a running thread begins a call. -/
theorem ClientInv.ended_idle_of_call (h : ClientInv magazine call live leaving ended place)
    {x : Call ι} (hx : t ∉ ended ∨ x = .idle) :
    ∀ t' ∈ ended, magazine t' = [] ∧ Function.update call t x t' = .idle := by
  intro t' ht'
  refine ⟨(h.ended_idle t' ht').1, ?_⟩
  by_cases ht : t' = t
  · subst ht
    rw [Function.update_self]
    exact hx.resolve_left (not_not_intro ht')
  · rw [Function.update_of_ne ht]
    exact (h.ended_idle t' ht').2

/-- An idle thread is not inside `Allocate`, whatever its magazine is. -/
theorem ClientInv.allocating_of_idle (h : ClientInv magazine call live leaving ended place)
    (hidle : call t = .idle) (l : List (ℕ × ι)) :
    ∀ t' c', call t' = .allocating c' → Function.update magazine t l t' = [] := by
  intro t' c' hq
  have hne : t' ≠ t := by
    rintro rfl
    simp [hidle] at hq
  rw [Function.update_of_ne hne]
  exact h.allocating t' c' hq

/-- `Allocate` takes the top of the magazine. -/
theorem ClientInv.popMagazine (h : ClientInv magazine call live leaving ended place)
    (hidle : call t = .idle) {rest : List (ℕ × ι)} (hmag : magazine t = (p, c) :: rest) :
    ClientInv (Function.update magazine t rest) call ((p, c) :: live) leaving ended
      (Function.update place p (.live c)) := by
  classical
  have hp : place p = .magazine t c := ((h.magazines t).mem_iff p c).mp (by simp [hmag])
  refine ⟨h.lives.cons Place.live_injective (by simp [hp]), fun t' => ?_, fun t' c' q hq => ?_,
    h.freeing_unique, h.allocating_of_idle hidle rest, fun t' ht' => ?_, h.fresh_of_magazine rest⟩
  · by_cases ht : t' = t
    · subst ht
      have herase := (h.magazines t').erase (Place.magazine_injective t') hp (x := .live c) (by simp)
      rw [hmag, List.erase_cons_head] at herase
      simpa using herase
    · rw [Function.update_of_ne ht]
      refine (h.magazines t').other (fun c' => ?_) (by simp)
      rw [hp]
      exact fun heq => ht (Place.magazine.inj heq).1.symm
  · obtain ⟨hlive, hleaving⟩ := h.freeing t' c' q hq
    have hne : q ≠ p := by
      rintro rfl
      simp [hp] at hlive
    exact ⟨by rw [Function.update_of_ne hne]; exact hlive, hleaving⟩
  · have hne : t' ≠ t := by
      rintro rfl
      simpa [hmag] using (h.ended_idle t' ht').1
    rw [Function.update_of_ne hne]
    exact h.ended_idle t' ht'

/-- `Free` pushes onto the magazine. -/
theorem ClientInv.pushMagazine [DecidableEq ι]
    (h : ClientInv magazine call live leaving ended place) (hrun : t ∉ ended)
    (hidle : call t = .idle) (hlive : (p, c) ∈ live) (hleaving : p ∉ leaving) :
    ClientInv (Function.update magazine t ((p, c) :: magazine t)) call (live.erase (p, c)) leaving
      ended (Function.update place p (.magazine t c)) := by
  have hp : place p = .live c := (h.lives.mem_iff p c).mp hlive
  refine ⟨h.lives.erase Place.live_injective hp (by simp), fun t' => ?_, fun t' c' q hq => ?_,
    h.freeing_unique, h.allocating_of_idle hidle _, fun t' ht' => ?_, h.fresh_of_magazine _⟩
  · by_cases ht : t' = t
    · subst ht
      rw [Function.update_self]
      exact (h.magazines t').cons (Place.magazine_injective t') (by simp [hp])
    · rw [Function.update_of_ne ht]
      refine (h.magazines t').other (by simp [hp]) (fun c' => ?_)
      exact fun heq => ht (Place.magazine.inj heq).1.symm
  · obtain ⟨hqlive, hqleaving⟩ := h.freeing t' c' q hq
    have hne : q ≠ p := by
      rintro rfl
      exact hleaving hqleaving
    exact ⟨by rw [Function.update_of_ne hne]; exact hqlive, hqleaving⟩
  · have hne : t' ≠ t := fun heq => hrun (heq ▸ ht')
    rw [Function.update_of_ne hne]
    exact h.ended_idle t' ht'

/-- An `Allocate` that found its magazine empty. -/
theorem ClientInv.beginAllocate (h : ClientInv magazine call live leaving ended place)
    (hrun : t ∉ ended) (hmag : magazine t = []) (c : ι) :
    ClientInv magazine (Function.update call t (.allocating c)) live leaving ended place := by
  have hfreeing : ∀ t' c' q, Function.update call t (.allocating c) t' = .freeing c' q →
      call t' = .freeing c' q := by
    intro t' c' q hq
    by_cases ht : t' = t
    · subst ht
      simp at hq
    · rwa [Function.update_of_ne ht] at hq
  refine ⟨h.lives, h.magazines, fun t' c' q hq => h.freeing t' c' q (hfreeing t' c' q hq),
    fun t₁ t₂ c₁ c₂ q h₁ h₂ =>
      h.freeing_unique t₁ t₂ c₁ c₂ q (hfreeing _ _ _ h₁) (hfreeing _ _ _ h₂),
    fun t' c' hq => ?_, h.ended_idle_of_call (.inl hrun), h.fresh_of_call _⟩
  by_cases ht : t' = t
  · exact ht ▸ hmag
  · rw [Function.update_of_ne ht] at hq
    exact h.allocating t' c' hq

/-- A `Free` that found its magazine full. -/
theorem ClientInv.beginFree (h : ClientInv magazine call live leaving ended place) (hrun : t ∉ ended)
    (hlive : (p, c) ∈ live) (hleaving : p ∉ leaving) :
    ClientInv magazine (Function.update call t (.freeing c p)) live (p :: leaving) ended place := by
  have hp : place p = .live c := (h.lives.mem_iff p c).mp hlive
  -- the other calls of `Free` under way are on other slots
  have hfreeing : ∀ t' c' q, Function.update call t (.freeing c p) t' = .freeing c' q →
      t' = t ∧ c' = c ∧ q = p ∨ t' ≠ t ∧ q ≠ p ∧ call t' = .freeing c' q := by
    intro t' c' q hq
    by_cases ht : t' = t
    · subst ht
      rw [Function.update_self] at hq
      obtain ⟨rfl, rfl⟩ := Call.freeing.inj hq
      exact .inl ⟨rfl, rfl, rfl⟩
    · rw [Function.update_of_ne ht] at hq
      refine .inr ⟨ht, ?_, hq⟩
      rintro rfl
      exact hleaving (h.freeing t' c' q hq).2
  refine ⟨h.lives, h.magazines, fun t' c' q hq => ?_, fun t₁ t₂ c₁ c₂ q h₁ h₂ => ?_,
    fun t' c' hq => ?_, h.ended_idle_of_call (.inl hrun), h.fresh_of_call _⟩
  · rcases hfreeing t' c' q hq with ⟨-, rfl, rfl⟩ | ⟨-, -, hq⟩
    · exact ⟨hp, List.mem_cons_self ..⟩
    · obtain ⟨hqlive, hqleaving⟩ := h.freeing t' c' q hq
      exact ⟨hqlive, List.mem_cons_of_mem _ hqleaving⟩
  · rcases hfreeing t₁ c₁ q h₁ with ⟨rfl, -, rfl⟩ | ⟨-, hne, h₁⟩
    · rcases hfreeing t₂ c₂ q h₂ with ⟨rfl, -, -⟩ | ⟨-, hne, -⟩
      · rfl
      · exact absurd rfl hne
    · rcases hfreeing t₂ c₂ q h₂ with ⟨-, -, rfl⟩ | ⟨-, -, h₂⟩
      · exact absurd rfl hne
      · exact h.freeing_unique t₁ t₂ c₁ c₂ q h₁ h₂
  · by_cases ht : t' = t
    · subst ht
      simp at hq
    · rw [Function.update_of_ne ht] at hq
      exact h.allocating t' c' hq

/-- The end of an `Allocate` in the locked section. -/
theorem ClientInv.finishAllocate (h : ClientInv magazine call live leaving ended place)
    (hplace : ∀ q, place' q = place q ∨ place q = .outside ∧ place' q = .free)
    (hp : place' p = .free) :
    ClientInv magazine (Function.update call t .idle) ((p, c) :: live) leaving ended
      (Function.update place' p (.live c)) := by
  have hsame : ∀ q (x : Place ι), x ≠ .outside → x ≠ .free → (place' q = x ↔ place q = x) := by
    intro q x hx hx'
    rcases hplace q with heq | ⟨hout, hfree⟩
    · rw [heq]
    · rw [hout, hfree]
      exact ⟨fun heq => absurd heq.symm hx', fun heq => absurd heq.symm hx⟩
  have hcall : ∀ t' x, x ≠ .idle → Function.update call t .idle t' = x → call t' = x := by
    intro t' x hx hq
    by_cases ht : t' = t
    · subst ht
      rw [Function.update_self] at hq
      exact absurd hq.symm hx
    · rwa [Function.update_of_ne ht] at hq
  refine ⟨?_, fun t' => ?_, fun t' c' q hq => ?_, fun t₁ t₂ c₁ c₂ q h₁ h₂ => ?_, fun t' c' hq => ?_,
    h.ended_idle_of_call (.inr rfl), h.fresh_of_call _⟩
  · exact (h.lives.congr (fun q c' => hsame q _ (by simp) (by simp))).cons Place.live_injective
      (by simp [hp])
  · exact ((h.magazines t').congr (fun q c' => hsame q _ (by simp) (by simp))).other (by simp [hp])
      (by simp)
  · obtain ⟨hqlive, hqleaving⟩ := h.freeing t' c' q (hcall t' _ (by simp) hq)
    have hqlive' := (hsame q _ (by simp) (by simp)).mpr hqlive
    have hne : q ≠ p := by
      rintro rfl
      simp [hp] at hqlive'
    exact ⟨by rw [Function.update_of_ne hne]; exact hqlive', hqleaving⟩
  · exact h.freeing_unique t₁ t₂ c₁ c₂ q (hcall _ _ (by simp) h₁) (hcall _ _ (by simp) h₂)
  · exact h.allocating t' c' (hcall t' _ (by simp) hq)

/-- The end of a `Free` in the locked section. -/
theorem ClientInv.finishFree [DecidableEq ι] (h : ClientInv magazine call live leaving ended place)
    (hcall : call t = .freeing c p) :
    ClientInv magazine (Function.update call t .idle) (live.erase (p, c)) (leaving.erase p) ended
      (Function.update place p .free) := by
  obtain ⟨hp, -⟩ := h.freeing t c p hcall
  have hother : ∀ t' x, x ≠ .idle → Function.update call t .idle t' = x →
      t' ≠ t ∧ call t' = x := by
    intro t' x hx hq
    by_cases ht : t' = t
    · subst ht
      rw [Function.update_self] at hq
      exact absurd hq.symm hx
    · exact ⟨ht, by rwa [Function.update_of_ne ht] at hq⟩
  refine ⟨h.lives.erase Place.live_injective hp (by simp), fun t' => ?_, fun t' c' q hq => ?_,
    fun t₁ t₂ c₁ c₂ q h₁ h₂ => ?_, fun t' c' hq => ?_, h.ended_idle_of_call (.inr rfl),
    h.fresh_of_call _⟩
  · exact (h.magazines t').other (by simp [hp]) (by simp)
  · obtain ⟨ht, hq⟩ := hother t' _ (by simp) hq
    obtain ⟨hqlive, hqleaving⟩ := h.freeing t' c' q hq
    -- a slot is passed to one `Free` at a time
    have hne : q ≠ p := by
      rintro rfl
      exact ht (h.freeing_unique t' t c' c q hq hcall)
    exact ⟨by rw [Function.update_of_ne hne]; exact hqlive,
      (List.mem_erase_of_ne hne).mpr hqleaving⟩
  · exact h.freeing_unique t₁ t₂ c₁ c₂ q (hother _ _ (by simp) h₁).2 (hother _ _ (by simp) h₂).2
  · exact h.allocating t' c' (hother t' _ (by simp) hq).2

/-- The end of a thread loses the slots of its magazine. -/
theorem ClientInv.endThread (h : ClientInv magazine call live leaving ended place)
    (hidle : call t = .idle)
    (hplace : ∀ q, (∃ c, place q = .magazine t c) ∧ place' q = .lost ∨
      (∀ c, place q ≠ .magazine t c) ∧ place' q = place q) :
    ClientInv (Function.update magazine t []) call live leaving (t :: ended) place' := by
  have hsame : ∀ q x, (∀ c, x ≠ .magazine t c) → x ≠ .lost → (place' q = x ↔ place q = x) := by
    intro q x hx hx'
    rcases hplace q with ⟨⟨c, hq⟩, hlost⟩ | ⟨-, heq⟩
    · rw [hq, hlost]
      exact ⟨fun heq => absurd heq.symm hx', fun heq => absurd heq.symm (hx c)⟩
    · rw [heq]
  refine ⟨h.lives.congr (fun q c => hsame q _ (by simp) (by simp)), fun t' => ?_, fun t' c q hq => ?_,
    h.freeing_unique, h.allocating_of_idle hidle [], fun t' ht' => ?_,
    h.fresh_of_touch (t := t) ?_⟩
  · by_cases ht : t' = t
    · subst ht
      rw [Function.update_self]
      refine ⟨List.nodup_nil, fun q c => ?_⟩
      rcases hplace q with ⟨-, hlost⟩ | ⟨hne, heq⟩
      · simp [hlost]
      · simp [heq, hne c]
    · rw [Function.update_of_ne ht]
      exact (h.magazines t').congr (fun q c => hsame q _
        (fun c' heq => ht (Place.magazine.inj heq).1) (by simp))
  · obtain ⟨hlive, hleaving⟩ := h.freeing t' c q hq
    exact ⟨(hsame q _ (by simp) (by simp)).mpr hlive, hleaving⟩
  · by_cases ht : t' = t
    · subst ht
      exact ⟨Function.update_self .., hidle⟩
    · rw [Function.update_of_ne ht]
      exact h.ended_idle t' (List.mem_of_ne_of_mem ht ht')
  · intro t' ht' hu
    refine ⟨?_, by rw [Function.update_of_ne ht']; exact hu.magazine_eq, hu.call_eq⟩
    exact fun hmem => hu.running (List.mem_of_ne_of_mem ht' hmem)

end Threads

/-! ## The whole system -/

namespace SlabSystem

variable {ι : Type} {T : ElementType} {s s' : SlabSystem ι}
  {place place' : ℕ → Place ι} {t p : ℕ} {c : ι}

/-- The slabs of the caches. -/
def slabsOf (s : SlabSystem ι) : ι → List Slab := fun c => (s.caches c).slabs

/-- The invariant: slabs and threads agree about the place of every slot, and a slot that
a cache has handed out or taken back belongs to that cache. -/
structure Inv (T : ElementType) (s : SlabSystem ι) (place : ℕ → Place ι) : Prop where
  heap : HeapInv T s.slabsOf s.mem place
  client : ClientInv s.magazine s.call s.live s.leaving s.ended place
  owned : ∀ p c, place p = .live c ∨ (∃ t, place p = .magazine t c) → InSlabs T s.slabsOf c p
  count_pos : ∀ c, 1 ≤ (s.caches c).objectsPerSlab

theorem inv_start (T : ElementType) (caches : ι → SlabCache) (mem : Mem)
    (hempty : ∀ c, (caches c).slabs = []) (hcount : ∀ c, 1 ≤ (caches c).objectsPerSlab) :
    Inv T (start caches mem) (fun _ => .outside) := by
  have hslabs : (start caches mem).slabsOf = fun _ => [] := funext hempty
  refine ⟨?_, ?_, by simp, hcount⟩
  · rw [hslabs]
    refine ⟨?_, ?_, ?_, ?_, ?_⟩ <;> simp [InSlabs]
  · refine ⟨⟨List.nodup_nil, ?_⟩, fun t => ⟨List.nodup_nil, ?_⟩, ?_, ?_, ?_, ?_, 0,
      fun t _ => ⟨?_, rfl, rfl⟩⟩ <;> simp [start]

/-- A cache that is served by the magazine finds a slot on top that was freed to it. -/
def Tidy (s : SlabSystem ι) : SlabOp ι → Prop
  | .allocate t c => ∀ e ∈ (s.magazine t).head?, e.2 = c
  | _ => True

instance [DecidableEq ι] (s : SlabSystem ι) (op : SlabOp ι) : Decidable (s.Tidy op) :=
  match op with
  | .allocate t c => inferInstanceAs (Decidable (∀ e ∈ (s.magazine t).head?, e.2 = c))
  | .free .. | .locked .. | .write .. | .endThread .. => .isTrue trivial

/-- With a single cache every use is tidy. -/
theorem tidy_of_subsingleton [Subsingleton ι] (s : SlabSystem ι) (op : SlabOp ι) : s.Tidy op := by
  cases op <;> first | exact fun _ _ => Subsingleton.elim _ _ | trivial

/-- What a step does to the places of the slots: a slot that `Allocate` returns was not
live, a free slot stays free unless it is returned, and a slot that is lost was in the
magazine of a thread that ends. -/
structure Moves (place place' : ℕ → Place ι) (op : SlabOp ι) (r : Option (ℕ × ι)) : Prop where
  returned : ∀ p c, r = some (p, c) → (∀ c', place p ≠ .live c') ∧ place' p = .live c
  kept : ∀ p, place p = .free → place' p = .free ∨ ∃ c, r = some (p, c)
  lost : ∀ p, place' p = .lost →
    place p = .lost ∨ ∃ t c, op = .endThread t ∧ place p = .magazine t c
  ended : ∀ t p c, op = .endThread t → place p = .magazine t c → place' p = .lost

/-- A step that returns nothing and leaves every slot in its place. -/
theorem Moves.refl (place : ℕ → Place ι) {op : SlabOp ι} (hop : ∀ t, op ≠ .endThread t) :
    Moves place place op none :=
  ⟨by simp, fun _ hp => .inl hp, fun _ hp => .inl hp, fun t _ _ heq => absurd heq (hop t)⟩

/-- A slot that was in a place is there still, if the slot that moves was not there. -/
theorem update_place_of_eq {q : ℕ} {x y : Place ι} (hp : place p ≠ y) (hq : place q = y) :
    Function.update place p x q = y := by
  have hqp : q ≠ p := by
    rintro rfl
    exact hp hq
  rw [Function.update_of_ne hqp]
  exact hq

/-- A slot that is in a place was there before, if no slot moves there. -/
theorem place_of_update_eq {q : ℕ} {x y : Place ι} (hx : x ≠ y)
    (hq : Function.update place p x q = y) : place q = y := by
  by_cases hqp : q = p
  · subst hqp
    rw [Function.update_self] at hq
    exact absurd hq hx
  · rwa [Function.update_of_ne hqp] at hq

/-- A slot that moves between its clients and magazines stays in the slabs of its cache. -/
theorem Inv.owned_update (h : Inv T s place) {x : Place ι}
    (hx : ∀ d, x = .live d ∨ (∃ t, x = .magazine t d) → InSlabs T s.slabsOf d p) (q : ℕ) (d : ι)
    (hq : Function.update place p x q = .live d ∨
      ∃ t, Function.update place p x q = .magazine t d) : InSlabs T s.slabsOf d q := by
  by_cases hqp : q = p
  · subst hqp
    rw [Function.update_self] at hq
    exact hx d hq
  · rw [Function.update_of_ne hqp] at hq
    exact h.owned q d hq

variable [DecidableEq ι]

theorem slabsOf_update {slabs : List Slab}
    (hcaches : s'.caches = Function.update s.caches c { s.caches c with slabs := slabs }) :
    s'.slabsOf = Function.update s.slabsOf c slabs := by
  funext c'
  rw [slabsOf, hcaches]
  by_cases hc : c' = c
  · subst hc
    simp
  · simp [hc, slabsOf]

theorem objectsPerSlab_update (s : SlabSystem ι) (c c' : ι) (slabs : List Slab) :
    (Function.update s.caches c { s.caches c with slabs := slabs } c').objectsPerSlab
      = (s.caches c').objectsPerSlab := by
  by_cases hc : c' = c
  · subst hc
    simp
  · simp [hc]

theorem Inv.allocate (h : Inv T s place) (hrun : t ∉ s.ended) (hidle : s.call t = .idle)
    (htidy : s.Tidy (.allocate t c)) :
    ∃ r s' place', s.step T (.allocate t c) = some (r, s') ∧ Inv T s' place' ∧
      Moves place place' (.allocate t c) r := by
  cases hmag : s.magazine t with
  | nil =>
    -- on to the locked section
    refine ⟨none, { s with call := Function.update s.call t (.allocating c) }, place,
      by rw [step, hmag], ⟨h.heap, ?_, h.owned, h.count_pos⟩, .refl place (by simp)⟩
    exact h.client.beginAllocate hrun hmag c
  | cons e rest =>
    obtain ⟨p, c'⟩ := e
    -- the one place where the caches that share the magazine could be mixed up
    obtain rfl : c' = c := htidy (p, c') (by rw [hmag]; rfl)
    have hp : place p = .magazine t c' :=
      ((h.client.magazines t).mem_iff p c').mp (by simp [hmag])
    refine ⟨some (p, c'), { s with
        magazine := Function.update s.magazine t rest, live := (p, c') :: s.live },
      Function.update place p (.live c'), by rw [step, hmag],
      ⟨?_, h.client.popMagazine hidle hmag, h.owned_update (fun d hd => ?_), h.count_pos⟩,
      fun q d heq => ?_, fun q hq => .inl (update_place_of_eq (by simp [hp]) hq),
      fun q hq => .inl (place_of_update_eq (by simp) hq), by simp⟩
    · exact h.heap.relabel_slot (by simp [hp]) (by simp [hp]) (by simp) (by simp)
    · obtain rfl : c' = d := by simpa using hd
      exact h.owned p c' (.inr ⟨t, hp⟩)
    · obtain ⟨rfl, rfl⟩ := Prod.mk.inj (Option.some.inj heq)
      exact ⟨by simp [hp], Function.update_self ..⟩

theorem Inv.free (h : Inv T s place) (hrun : t ∉ s.ended) (hidle : s.call t = .idle)
    (hptr : p = 0 ∨ (p, c) ∈ s.live ∧ p ∉ s.leaving) :
    ∃ s' place', s.step T (.free t c p) = some (none, s') ∧ Inv T s' place' ∧
      Moves place place' (.free t c p) none := by
  by_cases hzero : p = 0
  · exact ⟨s, place, by rw [step, if_pos hzero], h, .refl place (by simp)⟩
  obtain ⟨hlive, hleaving⟩ := hptr.resolve_left hzero
  have hp : place p = .live c := (h.client.lives.mem_iff p c).mp hlive
  by_cases hroom : (s.magazine t).length < (s.caches c).magazineSize
  · refine ⟨{ s with
        magazine := Function.update s.magazine t ((p, c) :: s.magazine t)
        live := s.live.erase (p, c) }, Function.update place p (.magazine t c),
      by rw [step, if_neg hzero, if_pos hroom],
      ⟨?_, h.client.pushMagazine hrun hidle hlive hleaving, h.owned_update (fun d hd => ?_),
        h.count_pos⟩, by simp, fun q hq => .inl (update_place_of_eq (by simp [hp]) hq),
      fun q hq => .inl (place_of_update_eq (by simp) hq), by simp⟩
    · exact h.heap.relabel_slot (by simp [hp]) (by simp [hp]) (by simp) (by simp)
    · obtain rfl : c = d := by simpa using hd
      exact h.owned p c (.inl hp)
  · refine ⟨{ s with
        call := Function.update s.call t (.freeing c p), leaving := p :: s.leaving }, place,
      by rw [step, if_neg hzero, if_neg hroom], ⟨h.heap, ?_, h.owned, h.count_pos⟩,
      .refl place (by simp)⟩
    exact h.client.beginFree hrun hlive hleaving

theorem Inv.lockedAllocate [Fintype ι] (h : Inv T s place) (hT : T.LeavesLink)
    (hcall : s.call t = .allocating c) (base : ℕ)
    (hgrant : (s.caches c).openSlabs = [] → s.Grants T c base) :
    ∃ p s' place', s.step T (.locked t base) = some (some (p, c), s') ∧ Inv T s' place' ∧
      Moves place place' (.locked t base) (some (p, c)) := by
  have hslabs : s.slabsOf c = (s.caches c).slabs := rfl
  obtain ⟨p, slabs', m', placeN, hslow, hplace, hfree, hheap, hin, hmono⟩ :=
    h.heap.slowAllocate hT hslabs (h.count_pos c) base
      (fun hopen => ⟨(hgrant hopen).pos, (hgrant hopen).room, (hgrant hopen).apart⟩)
  -- `placeN` differs from `place` on the slots of a new slab only, which are free there
  have hsame : ∀ q (x : Place ι), x ≠ .free → placeN q = x → place q = x := by
    intro q x hx hq
    rcases hplace q with heq | ⟨-, hqfree⟩
    · rw [← heq, hq]
    · exact absurd (hq.symm.trans hqfree) hx
  refine ⟨p, { s with
      caches := Function.update s.caches c { s.caches c with slabs := slabs' }
      mem := m'
      call := Function.update s.call t .idle
      live := (p, c) :: s.live }, Function.update placeN p (.live c),
    by rw [step, hcall]; simp only [hslow, Option.map_some], ⟨?_, ?_, ?_, ?_⟩, ?_, ?_, ?_, by simp⟩
  · rw [slabsOf_update (s := s) rfl]
    exact hheap
  · exact h.client.finishAllocate hplace hfree
  · intro q d hq
    rw [slabsOf_update (s := s) rfl]
    by_cases hqp : q = p
    · subst hqp
      obtain rfl : c = d := by simpa using hq
      exact hin
    · rw [Function.update_of_ne hqp] at hq
      refine hmono d q (h.owned q d ?_)
      rcases hq with hq | ⟨t', hq⟩
      · exact .inl (hsame q _ (by simp) hq)
      · exact .inr ⟨t', hsame q _ (by simp) hq⟩
  · intro c'
    rw [objectsPerSlab_update]
    exact h.count_pos c'
  · intro q d heq
    obtain ⟨rfl, rfl⟩ := Prod.mk.inj (Option.some.inj heq)
    refine ⟨fun c' hlive => ?_, Function.update_self ..⟩
    rcases hplace p with hsameP | ⟨hout, -⟩
    · rw [← hsameP, hfree] at hlive
      simp at hlive
    · simp [hout] at hlive
  · intro q hq
    by_cases hqp : q = p
    · exact .inr ⟨c, by rw [hqp]⟩
    · rw [Function.update_of_ne hqp]
      rcases hplace q with heq | ⟨hout, -⟩
      · exact .inl (heq.trans hq)
      · simp [hout] at hq
  · intro q hq
    exact .inl (hsame q _ (by simp) (place_of_update_eq (by simp) hq))

theorem Inv.lockedFree (h : Inv T s place) (hcall : s.call t = .freeing c p) (base : ℕ) :
    ∃ s' place', s.step T (.locked t base) = some (none, s') ∧ Inv T s' place' ∧
      Moves place place' (.locked t base) none := by
  have hp : place p = .live c := (h.client.freeing t c p hcall).1
  have hslabs : s.slabsOf c = (s.caches c).slabs := rfl
  obtain ⟨slabs', m', hslow, hheap, hiff⟩ := h.heap.slowFree hslabs
    (h.owned p c (.inl hp)) (by simp [hp]) (by simp [hp])
  refine ⟨{ s with
      caches := Function.update s.caches c { s.caches c with slabs := slabs' }
      mem := m'
      call := Function.update s.call t .idle
      live := s.live.erase (p, c)
      leaving := s.leaving.erase p }, Function.update place p .free,
    by rw [step, hcall]; simp only [hslow], ⟨?_, ?_, ?_, ?_⟩, by simp, ?_, ?_, by simp⟩
  · rw [slabsOf_update (s := s) rfl]
    exact hheap
  · exact h.client.finishFree hcall
  · intro q d hq
    rw [slabsOf_update (s := s) rfl, hiff]
    exact h.owned_update (fun d hd => by simp at hd) q d hq
  · intro c'
    rw [objectsPerSlab_update]
    exact h.count_pos c'
  · intro q hq
    by_cases hqp : q = p
    · exact .inl (by rw [hqp, Function.update_self])
    · exact .inl (by rw [Function.update_of_ne hqp]; exact hq)
  · intro q hq
    exact .inl (place_of_update_eq (by simp) hq)

theorem Inv.endThread (h : Inv T s place) (hidle : s.call t = .idle) :
    ∃ s' place', s.step T (.endThread t) = some (none, s') ∧ Inv T s' place' ∧
      Moves place place' (.endThread t) none := by
  classical
  set place' : ℕ → Place ι := fun q => if ∃ c, place q = .magazine t c then .lost else place q
    with hplace'
  have hplace : ∀ q, (∃ c, place q = .magazine t c) ∧ place' q = .lost ∨
      (∀ c, place q ≠ .magazine t c) ∧ place' q = place q := by
    intro q
    by_cases hq : ∃ c, place q = .magazine t c
    · exact .inl ⟨hq, if_pos hq⟩
    · exact .inr ⟨fun c hc => hq ⟨c, hc⟩, if_neg hq⟩
  have hsame : ∀ q (x : Place ι), x ≠ .lost → (∀ c, x ≠ .magazine t c) →
      (place' q = x ↔ place q = x) := by
    intro q x hx hx'
    rcases hplace q with ⟨⟨c, hq⟩, hlost⟩ | ⟨-, heq⟩
    · rw [hq, hlost]
      exact ⟨fun heq => absurd heq.symm hx, fun heq => absurd heq.symm (hx' c)⟩
    · rw [heq]
  refine ⟨{ s with magazine := Function.update s.magazine t [], ended := t :: s.ended }, place', rfl,
    ⟨?_, h.client.endThread hidle hplace, ?_, h.count_pos⟩, by simp,
    fun q hq => .inl ((hsame q _ (by simp) (by simp)).mpr hq), ?_, ?_⟩
  · exact h.heap.relabel (fun q => hsame q _ (by simp) (by simp))
      (fun q => hsame q _ (by simp) (by simp))
  · intro q d hq
    apply h.owned q d
    rcases hplace q with ⟨-, hlost⟩ | ⟨-, heq⟩
    · simp [hlost] at hq
    · rwa [heq] at hq
  · intro q hq
    rcases hplace q with ⟨⟨c, hc⟩, -⟩ | ⟨-, heq⟩
    · exact .inr ⟨t, c, rfl, hc⟩
    · exact .inl (heq ▸ hq)
  · intro t' q c heq hq
    obtain rfl := SlabOp.endThread.inj heq
    exact if_pos ⟨c, hq⟩

/-- **Every step of disciplined and tidy use** returns and keeps the invariant. -/
theorem Inv.step [Fintype ι] (h : Inv T s place) (hT : T.LeavesLink) {op : SlabOp ι}
    (hpre : s.Disciplined T op) (htidy : s.Tidy op) :
    ∃ r s' place', s.step T op = some (r, s') ∧ Inv T s' place' ∧ Moves place place' op r := by
  cases op with
  | allocate t c => exact h.allocate hpre.1 hpre.2 htidy
  | free t c ptr =>
    obtain ⟨s', place', hstep⟩ := h.free hpre.1 hpre.2.1 hpre.2.2
    exact ⟨none, s', place', hstep⟩
  | locked t base =>
    cases hcall : s.call t with
    | idle => exact absurd hcall hpre.1
    | allocating c =>
      obtain ⟨p, s', place', hstep⟩ := h.lockedAllocate hT hcall _ (hpre.2 c hcall)
      exact ⟨_, s', place', hstep⟩
    | freeing c ptr =>
      obtain ⟨s', place', hstep⟩ := h.lockedFree hcall base
      exact ⟨none, s', place', hstep⟩
  | write a v =>
    obtain ⟨⟨p, c⟩, hlive, ha, ha'⟩ := hpre
    have hp : place p = .live c := (h.client.lives.mem_iff p c).mp hlive
    refine ⟨none, { s with mem := Function.update s.mem a v }, place, rfl,
      ⟨?_, h.client, h.owned, h.count_pos⟩, .refl place (by simp)⟩
    exact h.heap.write (by simp [hp]) (by simp [hp]) ha ha' v
  | endThread t =>
    obtain ⟨s', place', hstep⟩ := h.endThread hpre.2
    exact ⟨none, s', place', hstep⟩

/-- The machine takes the steps of the system. -/
theorem exec_of_step [Fintype ι] {op : SlabOp ι} {r : Option (ℕ × ι)}
    (hstep : s.step T op = some (r, s')) : (slabMachine T ι).exec s op = some s' := by
  show (s.step T op).map Prod.snd = _
  rw [hstep]
  rfl

theorem Inv.exec [Fintype ι] (h : Inv T s place) (hT : T.LeavesLink) {op : SlabOp ι}
    (hpre : s.Disciplined T op) (htidy : s.Tidy op) :
    ∃ r s' place', (slabMachine T ι).exec s op = some s' ∧ Inv T s' place' ∧
      Moves place place' op r := by
  obtain ⟨r, s', place', hstep, h', hmoves⟩ := h.step hT hpre htidy
  exact ⟨r, s', place', exec_of_step hstep, h', hmoves⟩

end SlabSystem

end Memory
