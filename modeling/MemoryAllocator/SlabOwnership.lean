/-
# Who owns the slots of slab caches

What the invariant of `SlabInvariant` says to a client.

* `slab_slot_has_one_owner` : a single cache hands a slot to one owner at a time.
* `slab_caches_isolated_iff` : two caches of one element type share the magazines of the
  threads.  They stay isolated exactly as long as no cache is served a slot from a
  magazine that was freed to the other one.
* `slab_slots_conserved_iff` : a slot is lost exactly when a thread ends while its
  magazine holds slots; otherwise every slot that is not live can be handed out again.
-/
import MemoryAllocator.SlabInvariant

namespace Memory

namespace SlabSystem

variable {ι : Type} {T : ElementType} {s s' : SlabSystem ι} {place : ℕ → Place ι} {t p : ℕ} {c : ι}

/-! ## One owner at a time -/

/-- The addresses of the live slots. -/
def livePtrs (s : SlabSystem ι) : List ℕ := s.live.map Prod.fst

/-- The addresses in the magazine of a thread. -/
def magazinePtrs (s : SlabSystem ι) (t : ℕ) : List ℕ := (s.magazine t).map Prod.fst

/-- Every slot is in at most one of the lists, at most once, and the counters of the
slabs are right. -/
structure OneOwner (T : ElementType) (s : SlabSystem ι) : Prop where
  live_nodup : s.livePtrs.Nodup
  magazine_nodup : ∀ t, (s.magazinePtrs t).Nodup
  magazines_disjoint : ∀ t t', t ≠ t' → (s.magazinePtrs t).Disjoint (s.magazinePtrs t')
  live_magazine : ∀ t, s.livePtrs.Disjoint (s.magazinePtrs t)
  slabs_disjoint : ∀ c, (s.caches c).slabs.Pairwise
    (fun a b => (a.slotList T).Disjoint (b.slotList T))
  freeList : ∀ c, ∀ slab ∈ (s.caches c).slabs, ∃ l, Chain s.mem.loadPtr 0 slab.freeList l ∧
    l.Nodup ∧ l ⊆ slab.slotList T ∧ slab.freeSlots = l.length ∧ l.Disjoint s.livePtrs ∧
    ∀ t, l.Disjoint (s.magazinePtrs t)
  freeList_ne : ∀ c, ∀ slab ∈ (s.caches c).slabs, 0 < slab.freeSlots → slab.freeList ≠ 0

theorem Inv.oneOwner (h : Inv T s place) : OneOwner T s := by
  have hlive : ∀ q, q ∈ s.livePtrs ↔ ∃ c, place q = .live c := fun q => h.client.lives.mem_ptrs
  have hmag : ∀ t q, q ∈ s.magazinePtrs t ↔ ∃ c, place q = .magazine t c :=
    fun t q => (h.client.magazines t).mem_ptrs
  refine ⟨h.client.lives.nodup_ptrs Place.live_injective,
    fun t => (h.client.magazines t).nodup_ptrs (Place.magazine_injective t),
    fun t t' hne q hq hq' => ?_, fun t q hq hq' => ?_, fun c => ?_, fun c slab hslab => ?_,
    fun c slab hslab hpos => ?_⟩
  · obtain ⟨c, hc⟩ := (hmag t q).mp hq
    obtain ⟨c', hc'⟩ := (hmag t' q).mp hq'
    exact hne (Place.magazine.inj (hc.symm.trans hc')).1
  · obtain ⟨c, hc⟩ := (hlive q).mp hq
    obtain ⟨c', hc'⟩ := (hmag t q).mp hq'
    simp [hc] at hc'
  · refine (h.heap.apart c).imp_of_mem (fun {a b} ha hb hapart q hq hq' => ?_)
    exact (h.heap.fits c a ha).notMem (h.heap.fits c b hb) hapart hq' hq
  · obtain ⟨l, hchain, hlen, hl⟩ := h.heap.tracks c slab hslab
    refine ⟨l, hchain, hchain.nodup, fun q hq => ((hl q).mp hq).2, hlen, fun q hq hq' => ?_,
      fun t q hq hq' => ?_⟩
    · obtain ⟨c', hc'⟩ := (hlive q).mp hq'
      simp [((hl q).mp hq).1] at hc'
    · obtain ⟨c', hc'⟩ := (hmag t q).mp hq'
      simp [((hl q).mp hq).1] at hc'
  · obtain ⟨l, hchain, hlen, -⟩ := h.heap.tracks c slab hslab
    have hne : l ≠ [] := by
      rintro rfl
      simp [hlen] at hpos
    rwa [ne_eq, hchain.eq_nil_iff] at hne

/-- A slot of a cache is found in its slabs. -/
theorem Inv.contains (h : Inv T s place) (hp : InSlabs T s.slabsOf c p) :
    ∃ slab ∈ (s.caches c).slabs, slab.contains p := by
  obtain ⟨slab, hslab, hslot⟩ := hp
  exact ⟨slab, hslab, (h.heap.fits c slab hslab).contains hslot⟩

variable [DecidableEq ι] [Fintype ι]

/-- The step ends a call of `Allocate` on the cache: one that finds a slot in the magazine of
its thread, or the locked section of one that has not. -/
def EndsAllocate (s : SlabSystem ι) (c : ι) : SlabOp ι → Prop
  | .allocate t c' => c' = c ∧ s.magazine t ≠ []
  | .locked t _ => s.call t = .allocating c
  | .free .. | .write .. | .endThread _ => False

omit [Fintype ι] in
/-- A call of `Allocate` that ends returns a pointer to its caller. -/
theorem exists_of_endsAllocate {op : SlabOp ι} {r : Option (ℕ × ι)} (hends : s.EndsAllocate c op)
    (hstep : s.step T op = some (r, s')) : ∃ p, r = some (p, c) := by
  cases op with
  | allocate t c' =>
    obtain ⟨rfl, hne⟩ := hends
    obtain ⟨e, rest, hmag⟩ := List.exists_cons_of_ne_nil hne
    rw [step, hmag] at hstep
    obtain ⟨rfl, -⟩ := Prod.mk.inj (Option.some.inj hstep)
    exact ⟨e.1, rfl⟩
  | locked t base =>
    have hcall : s.call t = .allocating c := hends
    rw [step, hcall] at hstep
    obtain ⟨slow, -, heq⟩ := Option.map_eq_some_iff.mp hstep
    obtain ⟨rfl, -⟩ := Prod.mk.inj heq
    exact ⟨slow.1, rfl⟩
  | free | write | endThread => exact hends.elim

/-- Along every legal and tidy run the invariant holds. -/
theorem inv_of_legal (hT : T.LeavesLink) (h : Inv T s place)
    (htidy : ∀ (s : SlabSystem ι) (op : SlabOp ι), s.Tidy op) {ops : List (SlabOp ι)}
    (hlegal : (slabMachine T ι).Legal s ops) :
    ∃ u, (slabMachine T ι).run s ops = some u ∧ ∃ place, Inv T u place := by
  refine hlegal.invariant (I := fun u => ∃ place, Inv T u place) ?_ ⟨place, h⟩
  rintro u op ⟨place, hu⟩ hpre
  obtain ⟨r, u', place', hexec, hu', -⟩ := hu.exec hT hpre (htidy u op)
  exact ⟨u', hexec, place', hu'⟩

end SlabSystem

/-- **A slab cache hands a slot to one owner at a time.**  For a cache whose element type
leaves the links alone and for every interleaving of calls by any number of threads: the
run returns, so that `AllocateFromSlab` never meets an empty list; no slot is in two of
the lists or twice in one; `freeSlots` is the length of the free list; and a further
`Allocate` that ends returns a slot of the cache that is not live. -/
theorem slab_slot_has_one_owner (T : ElementType) (hT : T.LeavesLink)
    (objectsPerSlab magazineSize : ℕ) (hcount : 1 ≤ objectsPerSlab) (mem : Mem)
    (ops : List (SlabOp Unit))
    (h : (slabMachine T Unit).Legal
      (.start (fun _ => .create objectsPerSlab magazineSize) mem) ops) :
    ∃ s, (slabMachine T Unit).run (.start (fun _ => .create objectsPerSlab magazineSize) mem) ops
        = some s ∧ s.OneOwner T ∧
      ∀ op, s.Disciplined T op → ∃ r s', s.step T op = some (r, s') ∧
        (∀ c, s.EndsAllocate c op → ∃ p, r = some (p, c)) ∧
        ∀ p c, r = some (p, c) → p ∉ s.livePtrs ∧
          ∃ slab ∈ (s'.caches c).slabs, p ∈ slab.slotList T := by
  have hinit := SlabSystem.inv_start T (fun _ : Unit => .create objectsPerSlab magazineSize)
    mem (fun _ => rfl) (fun _ => hcount)
  obtain ⟨s, hrun, place, hs⟩ :=
    SlabSystem.inv_of_legal hT hinit (fun s op => s.tidy_of_subsingleton op) h
  refine ⟨s, hrun, hs.oneOwner, fun op hop => ?_⟩
  obtain ⟨r, s', place', hstep, hs', hmoves⟩ := hs.step hT hop (s.tidy_of_subsingleton op)
  refine ⟨r, s', hstep, fun c hends => SlabSystem.exists_of_endsAllocate hends hstep,
    fun p c hr => ?_⟩
  obtain ⟨hnot, hlive⟩ := hmoves.returned p c hr
  refine ⟨fun hmem => ?_, hs'.owned p c (.inl hlive)⟩
  obtain ⟨c', hc'⟩ := hs.client.lives.mem_ptrs.mp hmem
  exact hnot c' hc'

/-- A word, with a constructor that leaves it uninitialised. -/
def rawWord : ElementType where
  sizeofT := 8
  alignBits := 3
  construct := fun _ m => m
  sizeof_lt := by norm_num
  align_lt := by norm_num
  frame := fun _ _ _ _ => rfl

theorem rawWord_leavesLink : rawWord.LeavesLink := fun _ _ _ _ _ => rfl

/-- Two threads and slabs of two slots: thread `1` frees a slot that thread `0` has
allocated, and gets it back. -/
def handOver : List (SlabOp Unit) :=
  [.allocate 0 (), .allocate 1 (), .locked 1 4096, .locked 0 0, .write 4104 255, .free 1 () 4104,
    .allocate 0 (), .locked 0 8192, .allocate 1 ()]

theorem handOver_one_owner :
    ∃ s, (slabMachine rawWord Unit).run (.start (fun _ => .create 2 1) (fun _ => 0)) handOver
        = some s ∧ s.livePtrs = [4104, 8192, 4096] ∧ s.OneOwner rawWord := by
  obtain ⟨s, hrun, hown, -⟩ := slab_slot_has_one_owner rawWord rawWord_leavesLink 2 1 (by norm_num)
    (fun _ => 0) handOver (by decide +kernel)
  have hlive : ((slabMachine rawWord Unit).run (.start (fun _ => .create 2 1) (fun _ => 0))
      handOver).map SlabSystem.livePtrs = some [4104, 8192, 4096] := by decide +kernel
  rw [hrun] at hlive
  exact ⟨s, hrun, Option.some.inj hlive, hown⟩

/-! ## Two caches of one element type -/

namespace SlabSystem

variable {ι : Type} [DecidableEq ι] [Fintype ι] {T : ElementType} {s : SlabSystem ι}
  {place : ℕ → Place ι}

/-- The step returns; a slot that it returns to a caller of `Allocate` lies in a slab of
that cache; and a slot that reaches the locked section of `Free` is found in one. -/
def IsolatedStep (T : ElementType) (s : SlabSystem ι) (op : SlabOp ι) : Prop :=
  ∃ r s', s.step T op = some (r, s') ∧
    (∀ p c, r = some (p, c) → ∃ slab ∈ (s'.caches c).slabs, slab.contains p) ∧
    ∀ t base c p, op = .locked t base → s.call t = .freeing c p →
      ∃ slab ∈ (s.caches c).slabs, slab.contains p

/-- **A step is isolated exactly if it is tidy**: the slabs of the caches lie apart, so a
slot on top of the magazine that was freed to another cache is in no slab of this one. -/
theorem Inv.isolatedStep_iff (h : Inv T s place) (hT : T.LeavesLink) {op : SlabOp ι}
    (hpre : s.Disciplined T op) : s.IsolatedStep T op ↔ s.Tidy op := by
  constructor
  · rintro ⟨r, s', hstep, hret, -⟩
    cases op with
    | allocate t c =>
      rintro ⟨p, c'⟩ hhead
      obtain ⟨rest, hmag⟩ := List.head?_eq_some_iff.mp hhead
      rw [SlabSystem.step, hmag] at hstep
      obtain ⟨rfl, rfl⟩ := Prod.mk.inj (Option.some.inj hstep)
      obtain ⟨slab, hslab, hcontains⟩ := hret p c rfl
      have hp : place p = .magazine t c' :=
        ((h.client.magazines t).mem_iff p c').mp (by simp [hmag])
      obtain ⟨home, hhome, hslot⟩ := h.owned p c' (.inr ⟨t, hp⟩)
      by_contra hne
      have hapart := h.heap.apart_caches c c' (fun heq => hne heq.symm) slab hslab home hhome
      exact (h.heap.fits c slab hslab).not_contains (h.heap.fits c' home hhome) hapart hslot hcontains
    | free t c ptr => trivial
    | locked t base => trivial
    | write a v => trivial
    | endThread t => trivial
  · intro htidy
    obtain ⟨r, s', place', hstep, h', hmoves⟩ := h.step hT hpre htidy
    refine ⟨r, s', hstep, fun p c hr => ?_, fun t base c p _ hcall => ?_⟩
    · exact h'.contains (h'.owned p c (.inl (hmoves.returned p c hr).2))
    · exact h.contains (h.owned p c (.inl (h.client.freeing t c p hcall).1))

end SlabSystem

/-- **Two caches of one element type** behave as if they were alone exactly as long as
no cache is served by a magazine a slot that was freed to the other one: along every
disciplined run, all steps are isolated if and only if all steps are tidy. -/
theorem slab_caches_isolated_iff (T : ElementType) (hT : T.LeavesLink)
    (objectsPerSlab magazineSize : Bool → ℕ) (hcount : ∀ c, 1 ≤ objectsPerSlab c) (mem : Mem)
    (ops : List (SlabOp Bool))
    (h : (slabMachine T Bool).Legal
      (.start (fun c => .create (objectsPerSlab c) (magazineSize c)) mem) ops) :
    (slabMachine T Bool).EachStep (fun s op => s.IsolatedStep T op)
        (.start (fun c => .create (objectsPerSlab c) (magazineSize c)) mem) ops ↔
      (slabMachine T Bool).EachStep (fun s op => s.Tidy op)
        (.start (fun c => .create (objectsPerSlab c) (magazineSize c)) mem) ops := by
  refine GuardedMachine.eachStep_congr (I := fun s => ∃ place, SlabSystem.Inv T s place) ?_ ?_
    ⟨_, SlabSystem.inv_start T _ mem (fun _ => rfl) hcount⟩ h
  · rintro s op u ⟨place, hs⟩ hpre htidy hexec
    obtain ⟨r, s', place', hexec', hs', -⟩ := hs.exec hT hpre htidy
    obtain rfl := Option.some.inj (hexec.symm.trans hexec')
    exact ⟨place', hs'⟩
  · rintro s op ⟨place, hs⟩ hpre
    exact hs.isolatedStep_iff hT hpre

/-- Both caches are used, each with its own magazine entries on top. -/
def separateUse : List (SlabOp Bool) :=
  [.allocate 0 false, .locked 0 4096, .allocate 0 true, .locked 0 8192, .free 0 true 8192,
    .allocate 0 true, .free 0 false 4096, .allocate 0 false]

theorem separateUse_isolated :
    (slabMachine rawWord Bool).EachStep (fun s op => s.IsolatedStep rawWord op)
      (.start (fun _ => .create 2 4) (fun _ => 0)) separateUse := by
  exact (slab_caches_isolated_iff rawWord rawWord_leavesLink (fun _ => 2) (fun _ => 4)
    (fun _ => by norm_num) (fun _ => 0) separateUse (by decide +kernel)).mpr (by decide +kernel)

/-- Cache `true` is asked for a slot right after a slot was freed to cache `false`. -/
def crossedUse : List (SlabOp Bool) := [.allocate 0 false, .locked 0 4096, .free 0 false 4096]

/-- The slot of the one cache is returned by the other, which has no slab at all. -/
theorem crossedUse_not_isolated :
    (slabMachine rawWord Bool).Legal (.start (fun _ => .create 2 4) (fun _ => 0))
        (crossedUse ++ [.allocate 0 true]) ∧
      ¬ (slabMachine rawWord Bool).EachStep (fun s op => s.IsolatedStep rawWord op)
        (.start (fun _ => .create 2 4) (fun _ => 0)) (crossedUse ++ [.allocate 0 true]) := by
  refine ⟨by decide +kernel, fun hall => ?_⟩
  have heval : ((slabMachine rawWord Bool).run (.start (fun _ => .create 2 4) (fun _ => 0))
      crossedUse).map (fun s => (s.magazine 0, (s.caches true).slabs))
        = some ([(4096, false)], []) := by decide +kernel
  obtain ⟨s, hrun, hs⟩ := Option.map_eq_some_iff.mp heval
  obtain ⟨hmag, hslabs⟩ := Prod.mk.inj hs
  obtain ⟨r, s', hstep, hret, -⟩ := hall.last hrun
  rw [SlabSystem.step, hmag] at hstep
  obtain ⟨rfl, rfl⟩ := Prod.mk.inj (Option.some.inj hstep)
  obtain ⟨slab, hslab, -⟩ := hret 4096 true rfl
  rw [hslabs] at hslab
  simp at hslab

/-! ## No slot is lost -/

/-- The number of free slots of a cache. -/
def SlabCache.freeCount (c : SlabCache) : ℕ := (c.slabs.map Slab.freeSlots).sum

/-- While a slab has a free slot, the locked section of `Allocate` takes one. -/
theorem SlabCache.freeCount_slowAllocate {T : ElementType} {c c' : SlabCache}
    {allocateVirtualMemory : ℕ → ℕ} {m m' : Mem} {p : ℕ} (hopen : c.openSlabs ≠ [])
    (hslow : c.slowAllocate T allocateVirtualMemory m = some (p, c', m')) :
    c'.freeCount + 1 = c.freeCount := by
  obtain ⟨slab, back, hcons⟩ := List.exists_cons_of_ne_nil hopen
  obtain ⟨hsplit, hpos⟩ := SlabCache.openSlabs_cons hcons
  rw [SlabCache.slowAllocate, hcons] at hslow
  obtain ⟨⟨q, slab'⟩, hfrom, heq⟩ := Option.map_eq_some_iff.mp hslow
  rw [Slab.allocateFromSlab] at hfrom
  split_ifs at hfrom with hnull
  obtain ⟨-, rfl⟩ := Prod.mk.inj (Option.some.inj hfrom)
  obtain ⟨-, hrest⟩ := Prod.mk.inj heq
  obtain ⟨rfl, -⟩ := Prod.mk.inj hrest
  have hsub : Word64.sub slab.freeSlots 1 = slab.freeSlots - 1 := Word64.sub_of_le (by omega)
  have hold : c.freeCount = (c.fullSlabs.map Slab.freeSlots).sum
      + (slab.freeSlots + (back.map Slab.freeSlots).sum) := by
    conv_lhs => rw [SlabCache.freeCount, hsplit]
    simp
  rw [hold, SlabCache.freeCount]
  simp only [List.map_append, List.map_cons, List.sum_append, List.sum_cons, hsub]
  omega

namespace SlabSystem

variable {ι : Type} {T : ElementType} {s s' : SlabSystem ι} {place : ℕ → Place ι} {t p : ℕ}

/-- Every slot of every slab is live, in the free list of its slab, or in the magazine of
a thread that has not ended. -/
def Conserved (T : ElementType) (s : SlabSystem ι) : Prop :=
  ∀ c, ∀ slab ∈ (s.caches c).slabs, ∀ p ∈ slab.slotList T,
    p ∈ s.livePtrs ∨ (∃ l, Chain s.mem.loadPtr 0 slab.freeList l ∧ p ∈ l) ∨
      ∃ t, t ∉ s.ended ∧ p ∈ s.magazinePtrs t

/-- A thread ends with an empty magazine only. -/
def EndsEmpty (s : SlabSystem ι) : SlabOp ι → Prop
  | .endThread t => s.magazine t = []
  | _ => True

instance [DecidableEq ι] (s : SlabSystem ι) (op : SlabOp ι) : Decidable (s.EndsEmpty op) :=
  match op with
  | .endThread t => inferInstanceAs (Decidable (s.magazine t = []))
  | .allocate .. | .free .. | .locked .. | .write .. => .isTrue trivial

theorem Inv.conserved (h : Inv T s place) (hlost : ∀ p, place p ≠ .lost) : s.Conserved T := by
  intro c slab hslab p hp
  cases hplace : place p with
  | outside => exact absurd hplace ((h.heap.inside p).mpr ⟨c, slab, hslab, hp⟩)
  | free =>
    obtain ⟨l, hchain, -, hl⟩ := h.heap.tracks c slab hslab
    exact .inr (.inl ⟨l, hchain, (hl p).mpr ⟨hplace, hp⟩⟩)
  | live c' => exact .inl (h.client.lives.mem_ptrs.mpr ⟨c', hplace⟩)
  | magazine t c' =>
    have hmem := ((h.client.magazines t).mem_iff p c').mpr hplace
    refine .inr (.inr ⟨t, fun hended => ?_, List.mem_map_of_mem hmem⟩)
    simp [(h.client.ended_idle t hended).1] at hmem
  | lost => exact absurd hplace (hlost p)

/-- A lost slot is nowhere. -/
theorem Inv.not_conserved (h : Inv T s place) (hp : place p = .lost) : ¬ s.Conserved T := by
  intro hcons
  obtain ⟨c, slab, hslab, hslot⟩ := (h.heap.inside p).mp (by simp [hp])
  rcases hcons c slab hslab p hslot with hlive | ⟨l, hchain, hl⟩ | ⟨t, -, hmag⟩
  · obtain ⟨c', hc'⟩ := h.client.lives.mem_ptrs.mp hlive
    simp [hp] at hc'
  · obtain ⟨l', hchain', -, hl'⟩ := h.heap.tracks c slab hslab
    rw [hchain.unique hchain', hl', hp] at hl
    simp at hl
  · obtain ⟨c', hc'⟩ := (h.client.magazines t).mem_ptrs.mp hmag
    simp [hp] at hc'

variable [DecidableEq ι] [Fintype ι]

/-- Some continuation of the run has an `Allocate` that returns the slot. -/
def CanReturn (T : ElementType) (s : SlabSystem ι) (p : ℕ) : Prop :=
  ∃ ops s₁ op c s₂, (slabMachine T ι).Reaches s ops s₁ ∧ s₁.Disciplined T op ∧
    s₁.step T op = some (some (p, c), s₂)

/-- Every slot that is not live can be handed out. -/
def Reusable (T : ElementType) (s : SlabSystem ι) : Prop :=
  ∀ c, ∀ slab ∈ (s.caches c).slabs, ∀ p ∈ slab.slotList T, p ∉ s.livePtrs → s.CanReturn T p

theorem CanReturn.of_step {op : SlabOp ι} {r : Option (ℕ × ι)} (h : s'.CanReturn T p)
    (hpre : s.Disciplined T op) (hstep : s.step T op = some (r, s')) : s.CanReturn T p := by
  obtain ⟨ops, s₁, op', c, s₂, hreach, hpre', hstep'⟩ := h
  have hexec := exec_of_step hstep
  exact ⟨_, s₁, op', c, s₂, (GuardedMachine.Reaches.single hpre hexec).append hreach, hpre', hstep'⟩

/-- A slot in the magazine of an idle thread comes back after that thread has taken the
slots above it. -/
theorem Inv.canReturn_of_magazine [Subsingleton ι] {c : ι} {l : List (ℕ × ι)} (h : Inv T s place)
    (hidle : s.call t = .idle) (hmag : s.magazine t = l) (hp : (p, c) ∈ l) : s.CanReturn T p := by
  induction l generalizing s place with
  | nil => simp at hp
  | cons e rest ih =>
    have hrun : t ∉ s.ended := by
      intro hended
      simpa [hmag] using (h.client.ended_idle t hended).1
    have hpre : s.Disciplined T (.allocate t c) := ⟨hrun, hidle⟩
    have hstep : s.step T (.allocate t c) = some (some (e.1, c), { s with
        magazine := Function.update s.magazine t rest, live := (e.1, c) :: s.live }) := by
      rw [SlabSystem.step, hmag]
    rcases List.mem_cons.mp hp with rfl | hp
    · exact ⟨[], s, _, c, _, (GuardedMachine.reaches_nil s s).mpr rfl, hpre, hstep⟩
    · obtain ⟨r, s', place', hstep', h', -⟩ := h.allocate hrun hidle (s.tidy_of_subsingleton _)
      obtain ⟨-, rfl⟩ := Prod.mk.inj (Option.some.inj (hstep'.symm.trans hstep))
      exact (ih h' hidle (by simp) hp).of_step hpre hstep

/-- A free slot comes back after a fresh thread has taken the free slots before it. -/
theorem Inv.canReturn_of_free [Subsingleton ι] {c : ι} (hT : T.LeavesLink) (h : Inv T s place)
    (hfresh : Untouched s.magazine s.call s.ended t) (hp : place p = .free) : s.CanReturn T p := by
  induction hn : (s.caches c).freeCount using Nat.strong_induction_on generalizing s place with
  | _ n ih =>
    have hopen : (s.caches c).openSlabs ≠ [] := by
      obtain ⟨c', slab, hslab, hslot⟩ := (h.heap.inside p).mp (by simp [hp])
      obtain rfl : c' = c := Subsingleton.elim _ _
      obtain ⟨l, -, hlen, hl⟩ := h.heap.tracks c' slab hslab
      have hmem := (hl p).mpr ⟨hp, hslot⟩
      intro hnil
      have hfull := List.dropWhile_eq_nil_iff.mp hnil slab hslab
      rw [decide_eq_true_eq, hlen, List.length_eq_zero_iff] at hfull
      simp [hfull] at hmem
    -- the magazine of the thread is empty, so its `Allocate` goes on to the locked section
    set s₁ : SlabSystem ι := { s with call := Function.update s.call t (.allocating c) } with hs₁
    have hpre₁ : s.Disciplined T (.allocate t c) := ⟨hfresh.running, hfresh.call_eq⟩
    have hstep₁ : s.step T (.allocate t c) = some (none, s₁) := by
      rw [SlabSystem.step, hfresh.magazine_eq]
    have h₁ : Inv T s₁ place :=
      ⟨h.heap, h.client.beginAllocate hfresh.running hfresh.magazine_eq c, h.owned, h.count_pos⟩
    have hcall₁ : s₁.call t = .allocating c := Function.update_self ..
    have hpre₂ : s₁.Disciplined T (.locked t 0) := by
      refine ⟨by simp [hcall₁], fun c' _ hnil => ?_⟩
      obtain rfl : c' = c := Subsingleton.elim _ _
      exact absurd hnil hopen
    obtain ⟨q, s₂, place₂, hstep₂, h₂, hmoves⟩ := h₁.lockedAllocate hT hcall₁ 0
      (fun hnil => absurd hnil hopen)
    rcases hmoves.kept p hp with hp₂ | ⟨c', hr⟩
    · have hstep := hstep₂
      rw [SlabSystem.step, hcall₁] at hstep
      obtain ⟨⟨q', cache', m'⟩, hslow, heq⟩ := Option.map_eq_some_iff.mp hstep
      obtain ⟨-, rfl⟩ := Prod.mk.inj heq
      have hcount := SlabCache.freeCount_slowAllocate hopen hslow
      refine CanReturn.of_step (CanReturn.of_step ?_ hpre₂ hstep₂) hpre₁ hstep₁
      refine ih cache'.freeCount (by omega) h₂ ⟨hfresh.running, hfresh.magazine_eq, by simp⟩ hp₂ ?_
      simp
    · rw [hr] at hstep₂
      exact CanReturn.of_step ⟨[], s₁, _, c', s₂, (GuardedMachine.reaches_nil s₁ s₁).mpr rfl, hpre₂,
        hstep₂⟩ hpre₁ hstep₁

theorem Inv.reusable [Subsingleton ι] (hT : T.LeavesLink) (h : Inv T s place)
    (hlost : ∀ p, place p ≠ .lost) : s.Reusable T := by
  intro c slab hslab p hp hlive
  cases hplace : place p with
  | outside => exact absurd hplace ((h.heap.inside p).mpr ⟨c, slab, hslab, hp⟩)
  | free =>
    obtain ⟨N, hN⟩ := h.client.fresh
    exact h.canReturn_of_free (c := c) hT (hN N le_rfl) hplace
  | live c' => exact absurd (h.client.lives.mem_ptrs.mpr ⟨c', hplace⟩) hlive
  | magazine t c' =>
    have hmem := ((h.client.magazines t).mem_iff p c').mpr hplace
    cases hcall : s.call t with
    | idle => exact h.canReturn_of_magazine hcall rfl hmem
    | allocating d => simp [h.client.allocating t d hcall] at hmem
    | freeing d q =>
      -- the thread first has to finish its `Free`
      obtain ⟨s', place', hstep, h', -⟩ := h.lockedFree hcall 0
      have hpre : s.Disciplined T (.locked t 0) := ⟨by simp [hcall], by simp [hcall]⟩
      have heq := hstep
      rw [SlabSystem.step, hcall] at heq
      obtain ⟨-, rfl⟩ := Prod.mk.inj (Option.some.inj heq)
      exact (h'.canReturn_of_magazine (by simp) rfl hmem).of_step hpre hstep
  | lost => exact absurd hplace (hlost p)

end SlabSystem

/-- **No slot is lost** as long as threads end with empty magazines: along every
disciplined run of a single cache, in all states every slot is live, in its free list or
in the magazine of a running thread, and can be handed out again if it is not live, if
and only if every thread that ends has an empty magazine. -/
theorem slab_slots_conserved_iff (T : ElementType) (hT : T.LeavesLink)
    (objectsPerSlab magazineSize : ℕ) (hcount : 1 ≤ objectsPerSlab) (mem : Mem)
    (ops : List (SlabOp Unit))
    (h : (slabMachine T Unit).Legal
      (.start (fun _ => .create objectsPerSlab magazineSize) mem) ops) :
    (slabMachine T Unit).Throughout (fun s => s.Conserved T ∧ s.Reusable T)
        (.start (fun _ => .create objectsPerSlab magazineSize) mem) ops ↔
      (slabMachine T Unit).EachStep (fun s op => s.EndsEmpty op)
        (.start (fun _ => .create objectsPerSlab magazineSize) mem) ops := by
  refine GuardedMachine.throughout_iff_eachStep
    (I := fun s => ∃ place, SlabSystem.Inv T s place ∧ ∀ p, place p ≠ .lost) ?_ ?_ ?_
    ⟨_, SlabSystem.inv_start T _ mem (fun _ => rfl) (fun _ => hcount), by simp⟩ h
  · rintro s ⟨place, hs, hlost⟩
    exact ⟨hs.conserved hlost, hs.reusable hT hlost⟩
  · rintro s op u ⟨place, hs, hlost⟩ hpre hends hexec
    obtain ⟨r, s', place', hexec', hs', hmoves⟩ := hs.exec hT hpre (s.tidy_of_subsingleton op)
    obtain rfl := Option.some.inj (hexec.symm.trans hexec')
    refine ⟨place', hs', fun p hp => ?_⟩
    rcases hmoves.lost p hp with hp' | ⟨t, c, rfl, hmag⟩
    · exact hlost p hp'
    · have hmem := ((hs.client.magazines t).mem_iff p c).mpr hmag
      have hnil : s.magazine t = [] := hends
      simp [hnil] at hmem
  · rintro s op ⟨place, hs, hlost⟩ hpre hends
    obtain ⟨r, s', place', hexec', hs', hmoves⟩ := hs.exec hT hpre (s.tidy_of_subsingleton op)
    refine ⟨s', hexec', fun hgood => ?_⟩
    cases op with
    | endThread t =>
      obtain ⟨⟨p, c⟩, rest, hmag⟩ := List.exists_cons_of_ne_nil (hends : s.magazine t ≠ [])
      have hp := ((hs.client.magazines t).mem_iff p c).mp (by simp [hmag])
      exact hs'.not_conserved (hmoves.ended t p c rfl hp) hgood.1
    | allocate t c => exact hends trivial
    | free t c ptr => exact hends trivial
    | locked t base => exact hends trivial
    | write a v => exact hends trivial

/-- A thread takes its slot back out of the magazine before it ends. -/
def emptiedMagazine : List (SlabOp Unit) :=
  [.allocate 0 (), .locked 0 4096, .free 0 () 4096, .allocate 0 (), .endThread 0]

theorem emptiedMagazine_conserved :
    (slabMachine rawWord Unit).Throughout (fun s => s.Conserved rawWord ∧ s.Reusable rawWord)
      (.start (fun _ => .create 2 4) (fun _ => 0)) emptiedMagazine :=
  (slab_slots_conserved_iff rawWord rawWord_leavesLink 2 4 (by norm_num) (fun _ => 0)
    emptiedMagazine (by decide +kernel)).mpr (by decide +kernel)

/-- A thread frees its only slot. -/
def filledMagazine : List (SlabOp Unit) := [.allocate 0 (), .locked 0 4096, .free 0 () 4096]

/-- If the thread now ends, the slot is in no list any more. -/
theorem filledMagazine_not_conserved :
    (slabMachine rawWord Unit).Legal (.start (fun _ => .create 2 4) (fun _ => 0))
        (filledMagazine ++ [.endThread 0]) ∧
      ¬ (slabMachine rawWord Unit).Throughout
        (fun s => s.Conserved rawWord ∧ s.Reusable rawWord)
        (.start (fun _ => .create 2 4) (fun _ => 0)) (filledMagazine ++ [.endThread 0]) := by
  refine ⟨by decide +kernel, fun hall => ?_⟩
  have hinit := SlabSystem.inv_start rawWord (fun _ : Unit => .create 2 4) (fun _ => 0)
    (fun _ => rfl) (fun _ => by norm_num [SlabCache.create])
  have hlegal : (slabMachine rawWord Unit).Legal (.start (fun _ => .create 2 4) (fun _ => 0))
      filledMagazine := by decide +kernel
  obtain ⟨s, hrun, place, hs⟩ := SlabSystem.inv_of_legal rawWord_leavesLink hinit
    (fun s op => s.tidy_of_subsingleton op) hlegal
  have heval : ((slabMachine rawWord Unit).run (.start (fun _ => .create 2 4) (fun _ => 0))
      filledMagazine).map (fun s => (s.magazine 0, s.ended, s.call 0))
        = some ([(4096, ())], [], .idle) := by decide +kernel
  rw [hrun] at heval
  obtain ⟨hmag, hrest⟩ := Prod.mk.inj (Option.some.inj heval)
  obtain ⟨hended, hcall⟩ := Prod.mk.inj hrest
  have hends : s.Disciplined rawWord (.endThread 0) := ⟨by simp [hended], hcall⟩
  obtain ⟨r, s', place', hexec, hs', hmoves⟩ := hs.exec rawWord_leavesLink hends trivial
  have hlost := hmoves.ended 0 4096 () rfl
    (((hs.client.magazines 0).mem_iff 4096 ()).mp (by simp [hmag]))
  have hrun' : (slabMachine rawWord Unit).run (.start (fun _ => .create 2 4) (fun _ => 0))
      (filledMagazine ++ [.endThread 0]) = some s' := by
    rw [GuardedMachine.run_append, hrun]
    simp [GuardedMachine.run, hexec]
  have hfinal := hall.final hrun'
  exact hs'.not_conserved hlost hfinal.1

end Memory
