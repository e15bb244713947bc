/-
# The background worker of a region stays inside its mapping

What holds of a region, its owner and its worker in every interleaving.  The owner may
move an adaptive region only once it is prefaulted to its end: a move clears `_base` and
`_size` before it has stopped the worker, and `move_under_worker_faults` says what the
worker does when it is caught at work.

The invariant has two sides.  `Held` is the owner's: which of the objects have the mapping,
and whether it is still there.  `Busy` is the worker's: where it is with its locals, and what
it has touched.  The step of the one leaves the other to its frame.
-/
import MemoryAllocator.VmemRegionSteps

namespace Memlab

/-! ## Where the two stand -/

/-- What the worker's locals are, beside a mapping of `S` bytes at `B`. -/
def Worker.Fits (B S offset : ℕ) : Worker → Prop
  | .compare target => target ≤ S
  | .locate target | .publish target => offset < target ∧ target ≤ S
  | .touch p target _ => offset < target ∧ target ≤ S ∧ p = B + offset
  | .test | .load | .clamp _ | .cut | .sleep | .done => True

/-- **The locals of a worker that moves on**: the target is never above the size, and a worker
that has still something to touch reads the pointer of the mapping. -/
theorem Worker.Goes.fits {b : Build} {region : VmemRegion} {B S offset : ℕ} {w w' : Worker}
    (h : w.Goes b region offset w') (hsize : region.size ≤ S)
    (hbase : offset < S → region.base = B) (hfits : w.Fits B S offset) : w'.Fits B S offset := by
  cases h with
  | stop | proceed | load | above | ahead | wake => trivial
  | within hle => exact hle.trans hsize
  | cut => exact hsize
  | behind hlt => exact ⟨hlt, hfits⟩
  | locate =>
    obtain ⟨hlt, hle⟩ := hfits
    exact ⟨hlt, hle, by rw [hbase (by omega)]⟩
  | leave => exact ⟨hfits.1, hfits.2.1⟩

namespace Owner

/-- The region has been destroyed, or moved from. -/
def released : Owner → Bool
  | .gone | .moved _ => true
  | .idle | .join | .release | .clearBase | .clearSize | .clearLocked | .stopMoved
  | .joinMoved => false

/-- The worker has been joined. -/
def joined : Owner → Bool
  | .release | .gone | .moved _ => true
  | .idle | .join | .clearBase | .clearSize | .clearLocked | .stopMoved | .joinMoved => false

/-- A move has begun: the new object has the members. -/
def handing : Owner → Bool
  | .idle | .join | .release | .gone => false
  | .clearBase | .clearSize | .clearLocked | .stopMoved | .joinMoved | .moved _ => true

/-- `_base` of the region that was constructed. -/
def base (B : ℕ) : Owner → ℕ
  | .idle | .join | .release | .gone | .clearBase => B
  | .clearSize | .clearLocked | .stopMoved | .joinMoved | .moved _ => 0

/-- `_size` of the region that was constructed. -/
def size (S : ℕ) : Owner → ℕ
  | .idle | .join | .release | .gone | .clearBase | .clearSize => S
  | .clearLocked | .stopMoved | .joinMoved | .moved _ => 0

theorem size_le (S : ℕ) (o : Owner) : o.size S ≤ S := by
  cases o <;> simp [size]

/-- Outside of a move the members are those of the mapping. -/
theorem members_of_not_handing {o : Owner} (h : ¬o.handing) (B S : ℕ) :
    o.base B = B ∧ o.size S = S := by
  cases o <;> first | exact ⟨rfl, rfl⟩ | exact absurd rfl h

/-- The worker is joined before a destructor or a move is over. -/
theorem joined_of_released {o : Owner} (h : o.released) : o.joined := by
  cases o <;> first | rfl | cases h

end Owner

/-! ## Whose the mapping is -/

/-- The ranges that objects would unmap. -/
def pointers (l : List VmemRegion) : List (ℕ × ℕ) :=
  (l.map (fun r => (r.base, r.size))).filter (fun x => x.1 ≠ 0)

theorem pointers_perm {l l' : List VmemRegion} (h : l.Perm l') :
    (pointers l).Perm (pointers l') :=
  (h.map _).filter _

theorem pointers_cons_of_null {r : VmemRegion} (h : r.base = 0) (l : List VmemRegion) :
    pointers (r :: l) = pointers l := by
  simp [pointers, h]

theorem pointers_cons_of_ne {r : VmemRegion} (h : r.base ≠ 0) (l : List VmemRegion) :
    pointers (r :: l) = (r.base, r.size) :: pointers l := by
  simp [pointers, h]

/-- Only the pointer and the size of the first object count. -/
theorem pointers_cons_congr {r r' : VmemRegion} (hbase : r'.base = r.base)
    (hsize : r'.size = r.size) (l : List VmemRegion) :
    pointers (r' :: l) = pointers (r :: l) := by
  unfold pointers
  rw [List.map_cons, List.map_cons, hbase, hsize]

/-- One of the objects taken out. -/
theorem perm_cons_eraseIdx {l : List VmemRegion} {i : ℕ} {r : VmemRegion}
    (hr : l[i]? = some r) : l.Perm (r :: l.eraseIdx i) := by
  obtain ⟨hi, rfl⟩ := List.getElem?_eq_some_iff.mp hr
  exact (List.getElem_cons_eraseIdx_perm hi).symm

/-- An object whose pointer and size stay. -/
theorem pointers_set {l : List VmemRegion} {i : ℕ} {r r' : VmemRegion} (hr : l[i]? = some r)
    (hbase : r'.base = r.base) (hsize : r'.size = r.size) :
    (pointers (l.set i r')).Perm (pointers l) := by
  obtain ⟨hi, -⟩ := List.getElem?_eq_some_iff.mp hr
  refine (pointers_perm (List.set_perm_cons_eraseIdx hi _)).trans ?_
  rw [pointers_cons_congr hbase hsize]
  exact pointers_perm (perm_cons_eraseIdx hr).symm

/-- A move construction hands the range on. -/
theorem pointers_exchange {l : List VmemRegion} {i : ℕ} {r : VmemRegion} (hr : l[i]? = some r) :
    (pointers (l.set i r.exchange.2 ++ [r.exchange.1])).Perm (pointers l) := by
  obtain ⟨hi, -⟩ := List.getElem?_eq_some_iff.mp hr
  have hset : (l.set i r.exchange.2 ++ [r.exchange.1]).Perm
      (r.exchange.2 :: r.exchange.1 :: l.eraseIdx i) := by
    refine (List.perm_append_singleton _ _).trans ?_
    refine ((List.set_perm_cons_eraseIdx hi _).cons _).trans ?_
    exact List.Perm.swap _ _ _
  refine (pointers_perm hset).trans ?_
  have hsame : pointers (r.exchange.1 :: l.eraseIdx i) = pointers (r :: l.eraseIdx i) :=
    pointers_cons_congr rfl rfl _
  rw [pointers_cons_of_null rfl, hsame]
  exact pointers_perm (perm_cons_eraseIdx hr).symm

namespace RegionSystem

/-- The objects that the mapping may belong to: from the first move on, the new ones. -/
def holders (s : RegionSystem) : List VmemRegion :=
  match s.owner with
  | .gone => []
  | .idle | .join | .release => [s.region]
  | .clearBase | .clearSize | .clearLocked | .stopMoved | .joinMoved | .moved _ => s.moved

/-- The mapping is there, or there has been one call to unmap it, which the kernel may have
refused. -/
def Mapping (b : Build) (B S : ℕ) (s : RegionSystem) : Prop :=
  s.unmaps = [] ∧ s.mapped = some (B, S) ∨
    s.unmaps = [(B, S)] ∧ (b.kernel.munmap B S = true → s.mapped = none)

/-- The owner's side of a mapping of `S` bytes at `B`: exactly one object has it until it is
unmapped. -/
structure Held (b : Build) (B S : ℕ) (s : RegionSystem) : Prop where
  base_eq : s.region.base = s.owner.base B
  size_eq : s.region.size = s.owner.size S
  joined : s.owner.joined → s.worker = none
  fresh : ¬s.owner.handing → s.moved = []
  mapping : s.Mapping b B S
  kept : ¬s.owner.released → s.unmaps = []
  held : (pointers s.holders).Perm (if s.unmaps = [] then [(B, S)] else [])

/-- The worker's side: its locals, what objects report as prefaulted, and what has been asked
for and touched. -/
structure Busy (B S : ℕ) (s : RegionSystem) : Prop where
  offset_le : s.offset ≤ S
  counts_le : ∀ r ∈ s.region :: s.moved, r.prefaulted ≤ S
  prefaulted_eq : s.worker.isSome → s.region.prefaulted = s.offset
  fits : ∀ w, s.worker = some w → w.Fits B S s.offset
  still : s.owner.handing → s.worker.isSome → s.offset = S
  requests : ∀ x ∈ s.requests, B ≤ x.1 ∧ x.1 + x.2 ≤ B + S
  inside : ∀ a ∈ s.touched, B ≤ a ∧ a < B + S
  segv : s.segv = []

/-- The region, its owner and its worker beside a mapping of `S` bytes at `B`. -/
structure Safe (b : Build) (B S : ℕ) (s : RegionSystem) : Prop where
  held : s.Held b B S
  busy : s.Busy B S

variable {b : Build} {B S : ℕ} {s t : RegionSystem} {w w' : Worker} {a : Action}

/-! ## The owner's side -/

/-- Where there is a worker, the mapping is in place. -/
theorem Held.mapped (h : s.Held b B S) (hw : s.worker = some w) : s.mapped = some (B, S) := by
  have hreleased : ¬s.owner.released := by
    intro hcon
    rw [h.joined (Owner.joined_of_released hcon)] at hw
    cases hw
  rcases h.mapping with ⟨-, hmapped⟩ | ⟨hunmaps, -⟩
  · exact hmapped
  · rw [h.kept hreleased] at hunmaps
    cases hunmaps

/-- A change to members other than the pointer and the size changes no range. -/
theorem holders_congr (howner : t.owner = s.owner) (hmoved : t.moved = s.moved)
    (hbase : t.region.base = s.region.base) (hsize : t.region.size = s.region.size) :
    pointers t.holders = pointers s.holders := by
  unfold holders
  rw [howner, hmoved]
  cases s.owner <;> first | rfl | exact pointers_cons_congr hbase hsize []

/-- The worker's steps do not concern the owner. -/
theorem Held.aside (h : s.Held b B S) (haside : Aside s t) : t.Held b B S := by
  obtain ⟨howner, hmoved, hmapped, hunmaps, hregion, hrunning, -⟩ := haside
  have hbase : t.region.base = s.region.base := by rw [hregion]
  have hsize : t.region.size = s.region.size := by rw [hregion]
  refine ⟨?_, ?_, ?_, ?_, ?_, ?_, ?_⟩
  · rw [hbase, howner, h.base_eq]
  · rw [hsize, howner, h.size_eq]
  · rw [howner]
    intro hj
    rw [h.joined hj] at hrunning
    cases hrunning
  · rw [howner, hmoved]
    exact h.fresh
  · unfold Mapping
    rw [hmapped, hunmaps]
    exact h.mapping
  · rw [howner, hunmaps]
    exact h.kept
  · rw [holders_congr howner hmoved hbase hsize, hunmaps]
    exact h.held

/-- Unmapping a null pointer. -/
theorem unmapRegion_null (s : RegionSystem) (sz : ℕ) : s.unmapRegion b 0 sz = s :=
  if_pos (Or.inl rfl)

/-- Unmapping the mapping. -/
theorem unmapRegion_mapping (hB : B ≠ 0) (hS : S ≠ 0) (hunmaps : s.unmaps = [])
    (hmapped : s.mapped = some (B, S)) :
    (s.unmapRegion b B S).unmaps = [(B, S)] ∧
      (b.kernel.munmap B S = true → (s.unmapRegion b B S).mapped = none) := by
  have hnot : ¬(B = 0 ∨ S = 0) := not_or.mpr ⟨hB, hS⟩
  unfold unmapRegion
  rw [if_neg hnot]
  refine ⟨by rw [hunmaps], fun hgranted => ?_⟩
  exact if_pos ⟨hmapped, hgranted⟩

/-- **The object that has the mapping unmaps it**; any other object unmaps nothing. -/
theorem Held.unmap (hB : B ≠ 0) (hS : S ≠ 0) (h : s.Held b B S) {r : VmemRegion}
    {rest : List VmemRegion} (hr : s.holders.Perm (r :: rest)) :
    (s.unmapRegion b r.base r.size).Mapping b B S ∧
      (pointers rest).Perm
        (if (s.unmapRegion b r.base r.size).unmaps = [] then [(B, S)] else []) := by
  have hheld := (pointers_perm hr).symm.trans h.held
  by_cases hnull : r.base = 0
  · rw [pointers_cons_of_null hnull] at hheld
    rw [hnull, unmapRegion_null]
    exact ⟨h.mapping, hheld⟩
  · rw [pointers_cons_of_ne hnull] at hheld
    rcases h.mapping with ⟨hunmaps, hmapped⟩ | ⟨hunmaps, -⟩
    · rw [if_pos hunmaps, List.perm_singleton] at hheld
      obtain ⟨hrange, hrest⟩ := List.cons.inj hheld
      obtain ⟨hbase, hsize⟩ := Prod.mk.inj hrange
      obtain ⟨hcalls, hgone⟩ := unmapRegion_mapping (b := b) hB hS hunmaps hmapped
      rw [hbase, hsize, hcalls, hrest]
      exact ⟨Or.inr ⟨hcalls, hgone⟩, by simp⟩
    · rw [hunmaps] at hheld
      exact absurd hheld.length_eq (by simp)

/-- The members go with the owner's progress. -/
theorem Does.members (h : Does b s a t)
    (hmembers : s.region.base = s.owner.base B ∧ s.region.size = s.owner.size S) :
    t.region.base = t.owner.base B ∧ t.region.size = t.owner.size S := by
  cases h with
  | advances | advancesMoved | movesMoved => exact hmembers
  | destroysMoved =>
    simp only [unmapRegion_frame]
    exact hmembers
  | exchanges ho =>
    rw [ho]
    exact ⟨rfl, rfl⟩
  | destroysOld ho =>
    simp only [unmapRegion_frame]
    rw [ho] at hmembers
    exact hmembers
  | clearsBase ho =>
    rw [ho] at hmembers
    exact ⟨rfl, hmembers.2⟩
  | clearsSize ho =>
    rw [ho] at hmembers
    exact ⟨hmembers.1, rfl⟩
  | stops ho | leaves ho | moves ho | joins ho | releases ho | clearsLocked ho | finishes ho
    | stopsMoved ho | joinsMoved ho =>
    rw [ho] at hmembers
    exact hmembers

/-- The worker is joined, or there is none, where a call goes on to release the mapping. -/
theorem Does.joined (h : Does b s a t) (hjoined : s.owner.joined → s.worker = none) :
    t.owner.joined → t.worker = none := by
  cases h with
  | advances | exchanges | advancesMoved | movesMoved => exact hjoined
  | destroysMoved =>
    simp only [unmapRegion_frame]
    exact hjoined
  | destroysOld ho | releases ho =>
    simp only [unmapRegion_frame]
    exact fun _ => hjoined (by rw [ho]; rfl)
  | leaves _ hw | finishes _ hw => exact fun _ => hw
  | joins | joinsMoved => exact fun _ => rfl
  | stops | moves | clearsBase | clearsSize | clearsLocked | stopsMoved =>
    exact fun hcon => by cases hcon

/-- Other objects come with a move. -/
theorem Does.fresh (h : Does b s a t) (hfresh : ¬s.owner.handing → s.moved = []) :
    ¬t.owner.handing → t.moved = [] := by
  cases h with
  | advances => exact hfresh
  | stops ho | leaves ho | joins ho => exact fun _ => hfresh (by rw [ho]; decide)
  | releases ho =>
    simp only [unmapRegion_frame]
    exact fun _ => hfresh (by rw [ho]; decide)
  | moves | destroysOld | clearsBase | clearsSize | clearsLocked | finishes | stopsMoved
    | joinsMoved =>
    exact fun hcon => absurd rfl hcon
  | exchanges ho | advancesMoved ho | movesMoved ho =>
    exact fun hcon => absurd (by rw [ho]; rfl) hcon
  | destroysMoved ho =>
    simp only [unmapRegion_frame]
    exact fun hcon => absurd (by rw [ho]; rfl) hcon

/-- What is released stays so. -/
theorem Does.released (h : Does b s a t) : s.owner.released → t.owner.released := by
  cases h with
  | advances | exchanges | advancesMoved | movesMoved => exact id
  | destroysMoved =>
    simp only [unmapRegion_frame]
    exact id
  | stops ho | leaves ho | moves ho | joins ho | clearsBase ho | clearsSize ho | clearsLocked ho
    | stopsMoved ho =>
    rw [ho]
    exact fun hcon => by cases hcon
  | destroysOld | releases | finishes | joinsMoved => exact fun _ => rfl

/-- **Whose the mapping is after an action**: the objects go on with it as they are, or one
of them goes and is unmapped. -/
theorem Does.holders (h : Does b s a t) (hbase : s.region.base = s.owner.base B)
    (hfresh : ¬s.owner.handing → s.moved = []) :
    (t.mapped = s.mapped ∧ t.unmaps = s.unmaps ∧ (pointers t.holders).Perm (pointers s.holders)) ∨
      ∃ r, s.holders.Perm (r :: t.holders) ∧ t.owner.released ∧
        t.mapped = (s.unmapRegion b r.base r.size).mapped ∧
        t.unmaps = (s.unmapRegion b r.base r.size).unmaps := by
  cases h with
  | advances => exact Or.inl ⟨rfl, rfl, .of_eq (holders_congr rfl rfl rfl rfl)⟩
  | stops ho | leaves ho | joins ho | clearsBase ho | clearsSize ho | clearsLocked ho
    | finishes ho | stopsMoved ho | joinsMoved ho =>
    refine Or.inl ⟨rfl, rfl, ?_⟩
    simp only [RegionSystem.holders, ho]
    exact .refl _
  | moves ho =>
    refine Or.inl ⟨rfl, rfl, ?_⟩
    simp only [RegionSystem.holders, ho, hfresh (by rw [ho]; decide)]
    exact .of_eq (pointers_cons_congr rfl rfl [])
  | exchanges ho =>
    -- the object moved from once more has a null pointer, and so has the new one
    have hnull : s.region.exchange.1.base = 0 := by
      rw [ho] at hbase
      exact hbase
    refine Or.inl ⟨rfl, rfl, ?_⟩
    simp only [RegionSystem.holders, ho]
    refine (pointers_perm (List.perm_append_singleton _ _)).trans ?_
    rw [pointers_cons_of_null hnull]
  | destroysOld ho =>
    rw [ho] at hbase
    have hsame : s.unmapRegion b s.region.base s.region.size = s := by
      rw [hbase]
      exact unmapRegion_null s _
    rw [hsame]
    refine Or.inl ⟨rfl, rfl, ?_⟩
    simp only [RegionSystem.holders, ho]
    exact .refl _
  | advancesMoved ho hr =>
    refine Or.inl ⟨rfl, rfl, ?_⟩
    simp only [RegionSystem.holders, ho]
    exact pointers_set hr rfl rfl
  | movesMoved ho hr =>
    refine Or.inl ⟨rfl, rfl, ?_⟩
    simp only [RegionSystem.holders, ho]
    exact pointers_exchange hr
  | releases ho =>
    refine Or.inr ⟨s.region, ?_, rfl, rfl, rfl⟩
    simp only [RegionSystem.holders, ho]
    exact .refl _
  | @destroysMoved old i r ho hr =>
    refine Or.inr ⟨r, ?_, ?_, rfl, rfl⟩
    · simp only [RegionSystem.holders, unmapRegion_frame, ho]
      exact perm_cons_eraseIdx hr
    · simp only [unmapRegion_frame, ho]
      rfl

/-- **Every action of the owner keeps its side.** -/
theorem Held.does (hB : B ≠ 0) (hS : S ≠ 0) (h : s.Held b B S) (hdoes : Does b s a t) :
    t.Held b B S := by
  obtain ⟨hbase, hsize⟩ := hdoes.members ⟨h.base_eq, h.size_eq⟩
  refine ⟨hbase, hsize, hdoes.joined h.joined, hdoes.fresh h.fresh, ?_, ?_, ?_⟩
  all_goals
    rcases hdoes.holders h.base_eq h.fresh with
      ⟨hmapped, hunmaps, hheld⟩ | ⟨r, hr, hreleased, hmapped, hunmaps⟩
  · unfold Mapping
    rw [hmapped, hunmaps]
    exact h.mapping
  · unfold Mapping
    rw [hmapped, hunmaps]
    exact (h.unmap hB hS hr).1
  · rw [hunmaps]
    exact fun hnot => h.kept (fun hs => hnot (hdoes.released hs))
  · exact fun hnot => absurd hreleased hnot
  · rw [hunmaps]
    exact hheld.trans h.held
  · rw [hunmaps]
    exact (h.unmap hB hS hr).2

/-! ## The worker's side -/

/-- A worker that has still something to touch reads the pointer of the mapping. -/
theorem Safe.base (hs : s.Safe b B S) (hw : s.worker = some w) (hlt : s.offset < S) :
    s.region.base = B := by
  rw [hs.held.base_eq]
  refine (Owner.members_of_not_handing (fun hcon => ?_) B S).1
  have hstill := hs.busy.still hcon (by rw [hw]; rfl)
  omega

/-- `_size` is the size of the mapping, or a move has cleared it. -/
theorem Held.size_le (h : s.Held b B S) : s.region.size ≤ S := by
  rw [h.size_eq]
  exact Owner.size_le S s.owner

/-- A write inside the mapping. -/
theorem write_eq (hmapped : s.mapped = some (B, S)) {x : ℕ} (hle : B ≤ x) (hlt : x < B + S) :
    s.write x = { s with touched := x :: s.touched } := by
  have hmem : s.isMapped x = true := by
    unfold isMapped
    rw [hmapped]
    simp [hle, hlt]
  exact if_pos hmem

/-- The pages of a range inside the mapping. -/
theorem pageTouches_inside {p len x : ℕ} (hlow : B ≤ p) (hhigh : p + len ≤ B + S)
    (hx : x ∈ pageTouches b p len) : B ≤ x ∧ x < B + S := by
  obtain ⟨i, hi, rfl⟩ := mem_pageTouches.mp hx
  omega

/-- **Every step of the worker keeps its side**: it touches nothing but the mapping, from
`prefaulted_off` up to a target that is never above the size. -/
theorem Safe.turn (hs : s.Safe b B S) (hturn : Turn b s t) : t.Busy B S := by
  have hbusy := hs.busy
  have hsome := hturn.aside.running.1
  cases hturn with
  | goes hw hgo =>
    have hfits := hgo.fits hs.held.size_le (hs.base hw) (hbusy.fits _ hw)
    exact { hbusy with
      prefaulted_eq := fun _ => hbusy.prefaulted_eq hsome
      fits := fun v hv => Option.some.inj hv ▸ hfits
      still := fun hh _ => hbusy.still hh hsome }
  | @populates target hw hbuild =>
    obtain ⟨hlt, hle⟩ := hbusy.fits _ hw
    have hbase := hs.base hw (by omega)
    have hrange : B ≤ s.region.base + s.offset ∧
        s.region.base + s.offset + (target - s.offset) ≤ B + S := by omega
    refine { hbusy with
      prefaulted_eq := fun _ => hbusy.prefaulted_eq hsome
      fits := fun v hv => Option.some.inj hv ▸ ⟨hlt, hle⟩
      still := fun hh _ => hbusy.still hh hsome
      requests := List.forall_mem_cons.mpr ⟨hrange, hbusy.requests⟩
      inside := fun x hx => ?_ }
    rcases List.mem_append.mp hx with hnew | hold
    · split_ifs at hnew
      · exact pageTouches_inside hrange.1 hrange.2 (List.mem_of_mem_take hnew)
      · cases hnew
    · exact hbusy.inside x hold
  | @writes p target off hw hoff =>
    obtain ⟨hlt, hle, rfl⟩ := hbusy.fits _ hw
    have hrange : B ≤ B + s.offset + off ∧ B + s.offset + off < B + S := by omega
    rw [write_eq (hs.held.mapped hw) hrange.1 hrange.2]
    exact { hbusy with
      prefaulted_eq := fun _ => hbusy.prefaulted_eq hsome
      fits := fun v hv => Option.some.inj hv ▸ ⟨hlt, hle, rfl⟩
      still := fun hh _ => hbusy.still hh hsome
      inside := List.forall_mem_cons.mpr ⟨hrange, hbusy.inside⟩ }
  | @publishes target hw =>
    obtain ⟨hlt, hle⟩ := hbusy.fits _ hw
    exact { hbusy with
      offset_le := hle
      counts_le := List.forall_mem_cons.mpr
        ⟨hle, fun r hr => hbusy.counts_le r (List.mem_cons_of_mem _ hr)⟩
      prefaulted_eq := fun _ => rfl
      fits := fun v hv => Option.some.inj hv ▸ trivial
      -- once a move has begun there is nothing to publish
      still := fun hh _ => by
        have hstill := hbusy.still hh hsome
        omega }

/-- A move is the one action after which a move is under way. -/
theorem Does.handing (h : Does b s a t) (ht : t.owner.handing) : s.owner.handing ∨ a = .move := by
  cases h with
  | moves | exchanges => exact Or.inr rfl
  | advances | advancesMoved | movesMoved => exact Or.inl ht
  | destroysMoved =>
    simp only [unmapRegion_frame] at ht
    exact Or.inl ht
  | stops | leaves | joins | releases => cases ht
  | destroysOld ho | clearsBase ho | clearsSize ho | clearsLocked ho | finishes ho | stopsMoved ho
    | joinsMoved ho =>
    exact Or.inl (by rw [ho]; rfl)

/-! ## Every interleaving -/

/-- The caller's contract: a region with a worker is moved only once it is prefaulted to
its end. -/
def MovesPrefaulted (s : RegionSystem) (a : Action) : Prop :=
  a = .move → s.worker.isSome → s.region.prefaulted = s.region.size

instance (s : RegionSystem) (a : Action) : Decidable (s.MovesPrefaulted a) :=
  inferInstanceAs (Decidable (_ → _ → _))

instance (b : Build) (s : RegionSystem) (a : Action) :
    Decidable ((machine b MovesPrefaulted).pre s a) :=
  inferInstanceAs (Decidable (s.MovesPrefaulted a))

/-- **Every action of the owner leaves the worker in order**, if a move finds it with nothing
left to touch. -/
theorem Safe.does (hs : s.Safe b B S) (hpre : s.MovesPrefaulted a) (hdoes : Does b s a t) :
    t.Busy B S := by
  have hbusy := hs.busy
  have hframe := hdoes.frame
  have hworker : ∀ {w}, t.worker = some w → s.worker = some w := by
    intro w hw
    rcases hframe.worker with heq | hnone
    · rw [← heq, hw]
    · rw [hnone] at hw
      cases hw
  have hsome : t.worker.isSome → s.worker.isSome := by
    intro hw
    obtain ⟨w, hw⟩ := Option.isSome_iff_exists.mp hw
    rw [hworker hw]
    rfl
  refine ⟨?_, ?_, ?_, ?_, ?_, ?_, ?_, ?_⟩
  · rw [hframe.offset]
    exact hbusy.offset_le
  · rw [List.forall_mem_cons, hframe.prefaulted]
    refine ⟨hbusy.counts_le _ List.mem_cons_self, fun r hr => ?_⟩
    obtain ⟨q, hq, heq⟩ := hframe.counts r hr
    rw [heq]
    exact hbusy.counts_le q hq
  · intro hw
    rw [hframe.prefaulted, hframe.offset, hbusy.prefaulted_eq (hsome hw)]
  · intro w hw
    rw [hframe.offset]
    exact hbusy.fits w (hworker hw)
  · intro hh hw
    rw [hframe.offset]
    by_cases hhanding : s.owner.handing = true
    · exact hbusy.still hhanding (hsome hw)
    · have hfull := hpre ((hdoes.handing hh).resolve_left hhanding) (hsome hw)
      rw [hbusy.prefaulted_eq (hsome hw), hs.held.size_eq,
        (Owner.members_of_not_handing hhanding B S).2] at hfull
      exact hfull
  · rw [hframe.requests]
    exact hbusy.requests
  · rw [hframe.touched]
    exact hbusy.inside
  · rw [hframe.segv]
    exact hbusy.segv

/-- **One action of either side is safe.** -/
theorem Safe.exec (hB : B ≠ 0) (hS : S ≠ 0) (hs : s.Safe b B S) (hpre : s.MovesPrefaulted a)
    (hexec : s.exec b a = some t) : t.Safe b B S := by
  by_cases ha : a = .worker
  · subst ha
    have hturn := turn_of_workerStep hexec
    exact ⟨hs.held.aside hturn.aside, hs.turn hturn⟩
  · have hdoes := does_of_exec ha hexec
    exact ⟨hs.held.does hB hS hdoes, hs.does hpre hdoes⟩

/-- A step of the worker is safe whatever the contract. -/
theorem Safe.workerStep (hs : s.Safe b B S) (hstep : s.workerStep b = some t) : t.Safe b B S :=
  ⟨hs.held.aside (turn_of_workerStep hstep).aside, hs.turn (turn_of_workerStep hstep)⟩

/-- What the constructor has the kernel populate or touches itself, and reports. -/
inductive Prefaults (b : Build) (s : RegionSystem) : PrefaultPolicy → Prop
  | none {policy : PrefaultPolicy} : s.region.prefaulted = 0 → s.requests = [] →
      s.touched = [] → Prefaults b s policy
  | touches : s.region.prefaulted = s.region.size → s.requests = [] →
      s.touched = pageTouches b s.region.base s.region.size → Prefaults b s .eagerTouch
  | populates : s.region.prefaulted = s.region.size →
      s.requests = [(s.region.base, s.region.size)] →
      s.touched = (pageTouches b s.region.base s.region.size).take
        (b.kernel.populated [(s.region.base, s.region.size)]) → Prefaults b s .mapPopulate

/-- What the constructor leaves when the system has granted a mapping. -/
structure Constructed (b : Build) (bytes : ℕ) (policy : PrefaultPolicy) (s : RegionSystem) :
    Prop where
  granted : b.kernel.mmap s.region.size = some s.region.base
  size : s.region.size = roundUpToPage b bytes
  owner : s.owner = .idle
  worker : s.worker = if policy = .adaptive then some .test else none
  offset : s.offset = 0
  moved : s.moved = []
  mapped : s.mapped = some (s.region.base, s.region.size)
  segv : s.segv = []
  unmaps : s.unmaps = []
  hwm : s.region.hwmBytes = 0
  running : s.region.stopBg = false
  prefaults : Prefaults b s policy

theorem construct_ok {bytes : ℕ} {policy : PrefaultPolicy} {lock : Bool}
    (h : construct b bytes policy lock = .ok s) : s.Constructed b bytes policy := by
  unfold construct at h
  cases hout : b.kernel.mmap (roundUpToPage b bytes) with
  | none => simp only [hout, reduceCtorEq] at h
  | some base =>
    simp only [hout] at h
    obtain rfl := Except.ok.inj h
    refine ⟨hout, rfl, rfl, rfl, rfl, rfl, rfl, rfl, rfl, rfl, rfl, ?_⟩
    cases policy with
    | lazy => exact .none rfl rfl rfl
    | adaptive => exact .none rfl rfl rfl
    | eagerTouch => exact .touches rfl rfl rfl
    | mapPopulate => exact .populates rfl rfl rfl

/-- The worker of a constructed region is at its first test. -/
theorem Constructed.test {bytes : ℕ} {policy : PrefaultPolicy} (h : s.Constructed b bytes policy)
    (hw : s.worker = some w) : policy = .adaptive ∧ w = .test := by
  rw [h.worker] at hw
  split_ifs at hw with hpolicy
  exact ⟨hpolicy, (Option.some.inj hw).symm⟩

/-- **A constructed region is safe**, with a mapping that is not empty. -/
theorem construct_safe {bytes : ℕ} {policy : PrefaultPolicy} {lock : Bool}
    (hanswers : Memory.Answers b.kernel.mmap) (hs : construct b bytes policy lock = .ok s) :
    s.region.base ≠ 0 ∧ s.region.size ≠ 0 ∧ s.Safe b s.region.base s.region.size := by
  have h := construct_ok hs
  have hB := hanswers.ne_null h.granted
  refine ⟨hB, ?_, ⟨?_, ?_⟩⟩
  · intro hzero
    have hgranted := h.granted
    rw [hzero, hanswers.refuses_zero] at hgranted
    cases hgranted
  · refine ⟨by rw [h.owner]; rfl, by rw [h.owner]; rfl, ?_, fun _ => h.moved,
      Or.inl ⟨h.unmaps, h.mapped⟩, fun _ => h.unmaps, ?_⟩
    · rw [h.owner]
      intro hcon
      cases hcon
    · rw [if_pos h.unmaps]
      unfold holders
      rw [h.owner]
      exact .of_eq (pointers_cons_of_ne hB [])
  · have hstill : ¬s.owner.handing := by rw [h.owner]; decide
    have hoffset := h.offset
    refine ⟨by omega, ?_, ?_, ?_, fun hh => absurd hh hstill, ?_, ?_, h.segv⟩
    · rw [h.moved, List.forall_mem_singleton]
      cases h.prefaults <;> omega
    · intro hw
      obtain ⟨w, hw⟩ := Option.isSome_iff_exists.mp hw
      obtain ⟨rfl, -⟩ := h.test hw
      cases h.prefaults with
      | none hzero => rw [hzero, hoffset]
    · intro w hw
      obtain ⟨-, rfl⟩ := h.test hw
      trivial
    · intro x hx
      cases h.prefaults with
      | none _ hrequests | touches _ hrequests =>
        rw [hrequests] at hx
        cases hx
      | populates _ hrequests =>
        rw [hrequests] at hx
        obtain rfl := List.mem_singleton.mp hx
        exact ⟨le_rfl, le_rfl⟩
    · intro x hx
      cases h.prefaults with
      | none _ _ htouched =>
        rw [htouched] at hx
        cases hx
      | touches _ _ htouched =>
        rw [htouched] at hx
        exact pageTouches_inside le_rfl le_rfl hx
      | populates _ _ htouched =>
        rw [htouched] at hx
        exact pageTouches_inside le_rfl le_rfl (List.mem_of_mem_take hx)

/-- The invariant at the end of every run within a contract that has `MovesPrefaulted`. -/
theorem reaches_safe {contract : RegionSystem → Action → Prop}
    (hcontract : ∀ s a, contract s a → s.MovesPrefaulted a) (hB : B ≠ 0) (hS : S ≠ 0)
    (hs : s.Safe b B S) {actions : List Action}
    (h : (machine b contract).Reaches s actions t) : t.Safe b B S :=
  GuardedMachine.Reaches.invariant (I := Safe b B S)
    (fun s a _ hs hpre hexec => hs.exec hB hS (hcontract s a hpre) hexec) hs h

end RegionSystem

/-- **A region and its worker are safe.**  Whatever the policy, the build, the answers of the
kernel and the order in which the owner's calls and the worker's steps come, while a region
with a worker is moved only once it is prefaulted to its end: no write ever faults, all writes
and all requests to populate are inside the mapping, no object reports more than the size as
prefaulted, the worker has ended before the mapping goes, and once the last object is gone
there has been exactly one call to unmap the mapping. -/
theorem region_worker_safe {b : Build} (hanswers : Memory.Answers b.kernel.mmap) {bytes : ℕ}
    {policy : PrefaultPolicy} {lock : Bool} {s t : RegionSystem}
    (hs : RegionSystem.construct b bytes policy lock = .ok s)
    {actions : List RegionSystem.Action}
    (h : (RegionSystem.machine b RegionSystem.MovesPrefaulted).Reaches s actions t) :
    t.segv = [] ∧
      (∀ a ∈ t.touched, s.region.base ≤ a ∧ a < s.region.base + s.region.size) ∧
      (∀ x ∈ t.requests, s.region.base ≤ x.1 ∧ x.1 + x.2 ≤ s.region.base + s.region.size) ∧
      (∀ r ∈ t.region :: t.moved, r.prefaulted ≤ s.region.size) ∧
      (t.mapped = none → t.worker = none) ∧
      (t.owner = .gone ∨ t.owner = .moved false ∧ t.moved = [] →
        t.unmaps = [(s.region.base, s.region.size)] ∧
          (b.kernel.munmap s.region.base s.region.size = true → t.mapped = none)) := by
  obtain ⟨hB, hS, hsafe⟩ := RegionSystem.construct_safe hanswers hs
  have ht := RegionSystem.reaches_safe (fun _ _ hc => hc) hB hS hsafe h
  refine ⟨ht.busy.segv, ht.busy.inside, ht.busy.requests, ht.busy.counts_le, ?_, ?_⟩
  · intro hnone
    cases hw : t.worker with
    | none => rfl
    | some w =>
      rw [ht.held.mapped hw] at hnone
      cases hnone
  · intro hlast
    have hholders : t.holders = [] := by
      unfold RegionSystem.holders
      rcases hlast with ho | ⟨ho, hmoved⟩
      · rw [ho]
      · rw [ho, hmoved]
    have hheld := ht.held.held
    rw [hholders] at hheld
    rcases ht.held.mapping with ⟨hunmaps, -⟩ | hunmapped
    · rw [if_pos hunmaps] at hheld
      exact absurd hheld.length_eq (by simp [pointers])
    · exact hunmapped

/-- A kernel that maps at a fixed address and grants every request. -/
def grantingKernel : Kernel where
  mmap := Memory.VirtualMemory.mapsAt 65536
  mlock := true
  populated := fun requests =>
    match requests with
    | [] => 0
    | (_, len) :: _ => (len + 4095) / 4096
  munmap _ _ := true

/-- A build with pages of 4096 bytes on it. -/
def grantingBuild (populateWrite : Bool) : Build where
  pageBits := 12
  populateWrite := populateWrite
  kernel := grantingKernel

/-- A region of two pages as an adaptive construction leaves it. -/
def twoPages (lock : Bool) : RegionSystem where
  region := ⟨65536, 8192, .adaptive, lock, 0, 0, false⟩
  worker := some .test
  offset := 0
  owner := .idle
  moved := []
  mapped := some (65536, 8192)
  requests := []
  touched := []
  segv := []
  unmaps := []

theorem answers_mapsAt : Memory.Answers (Memory.VirtualMemory.mapsAt 65536) := by
  refine ⟨rfl, fun {length ptr} hptr => ?_⟩
  rw [Memory.VirtualMemory.mapsAt] at hptr
  split_ifs at hptr
  obtain rfl := Option.some.inj hptr
  decide

theorem construct_twoPages (populateWrite lock : Bool) :
    RegionSystem.construct (grantingBuild populateWrite) 5000 .adaptive lock
      = .ok (twoPages lock) := by
  have hpages : roundUpToPage (grantingBuild populateWrite) 5000 = 8192 := by
    cases populateWrite <;> decide +kernel
  unfold RegionSystem.construct
  rw [hpages]
  cases lock <;> rfl

/-- A worker touches two pages; then its region is moved, the worker at its heels, the new
object is moved again, and all three objects are destroyed. -/
def handOver : List RegionSystem.Action :=
  [.worker, .worker, .worker, .worker, .worker, .worker, .worker, .worker, .worker, .worker,
    .move, .owner, .worker, .owner, .worker, .worker, .worker, .worker, .worker, .owner, .owner,
    .worker, .worker, .owner, .moveMoved 0, .destroyMoved 1, .destroyMoved 0, .destroy]

/-- The run of `handOver` is one of these. -/
theorem region_worker_safe_handOver :
    ∃ t, (RegionSystem.machine (grantingBuild false) RegionSystem.MovesPrefaulted).Reaches
        (twoPages false) handOver t ∧
      t.touched = [69632, 65536] ∧ t.segv = [] ∧ t.unmaps = [(65536, 8192)] := by
  have hlegal : (RegionSystem.machine (grantingBuild false)
      RegionSystem.MovesPrefaulted).Legal (twoPages false) handOver := by decide +kernel
  have hend : ((RegionSystem.machine (grantingBuild false)
      RegionSystem.MovesPrefaulted).run (twoPages false) handOver).map
        (fun t => (t.touched, t.owner, t.moved)) = some ([69632, 65536], .moved false, []) := by
    decide +kernel
  obtain ⟨t, hrun, ht⟩ := Option.map_eq_some_iff.mp hend
  obtain ⟨htouched, hrest⟩ := Prod.mk.inj ht
  obtain ⟨howner, hmoved⟩ := Prod.mk.inj hrest
  obtain ⟨hsegv, -, -, -, -, hlast⟩ := region_worker_safe (b := grantingBuild false)
    answers_mapsAt (construct_twoPages false false) ⟨hlegal, hrun⟩
  exact ⟨t, ⟨hlegal, hrun⟩, htouched, hsegv, (hlast (Or.inr ⟨howner, hmoved⟩)).1⟩

end Memlab
