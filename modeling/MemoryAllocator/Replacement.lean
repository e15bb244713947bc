/-
# `vm/replacement/*.hpp`

The page replacement policies.  A policy is told of loads, accesses and evictions of
frames and is asked for a victim; `victim` is undefined where the source would read an
empty container.

Hash sets and hash maps of which only membership is read are finite sets and functions.
The one loop over a hash set is that of the optimal policy; there the set is the list of
its elements in iteration order, and where an insertion puts its element is left open
(`HashOrder`), as it is by the standard.
-/
import MemoryAllocator.DemandPaging

namespace Memlab

/-- The interface of the policies. -/
structure IReplacement (σ : Type*) extends Paging.Policy σ where
  name : String

/-! ## FIFO -/

/-- The queue of the frames in the order in which they were loaded, and the frames
in use. -/
structure FIFOReplacement where
  order : List ℕ := []
  inUse : Finset ℕ := ∅
  deriving DecidableEq

namespace FIFOReplacement

/-- A frame is queued at the back. -/
def onLoad (frame : ℕ) (s : FIFOReplacement) : FIFOReplacement :=
  { order := s.order ++ [frame], inUse := insert frame s.inUse }

/-- FIFO ignores accesses. -/
def onAccess (_frame : ℕ) (s : FIFOReplacement) : FIFOReplacement := s

/-- The head of the queue, after frames that are not in use have been popped.  The head
itself stays in the queue. -/
def victim (s : FIFOReplacement) : Option (ℕ × FIFOReplacement) :=
  match s.order.dropWhile (fun f => f ∉ s.inUse) with
  | [] => none
  | f :: order => some (f, { s with order := f :: order })

/-- The frame is no longer in use; the queue stays. -/
def onEvict (frame : ℕ) (s : FIFOReplacement) : FIFOReplacement :=
  { s with inUse := s.inUse.erase frame }

/-- First in, first out. -/
def policy : IReplacement FIFOReplacement where
  onLoad := onLoad
  onAccess := onAccess
  victim := victim
  onEvict := onEvict
  name := "FIFO"

end FIFOReplacement

/-! ## LRU -/

/-- The list of frames, most recently used first, and the keys of the map into it.  The
iterator that the map stores for a frame points to the first occurrence of the frame:
both `push_front` and `splice` put the node it points to at the front. -/
structure LRUReplacement where
  list : List ℕ := []
  map : Finset ℕ := ∅
  deriving DecidableEq

namespace LRUReplacement

/-- A loaded frame is the most recent one. -/
def onLoad (frame : ℕ) (s : LRUReplacement) : LRUReplacement :=
  { list := frame :: s.list, map := insert frame s.map }

/-- An accessed frame becomes the most recent one. -/
def onAccess (frame : ℕ) (s : LRUReplacement) : LRUReplacement :=
  if frame ∈ s.map then { s with list := frame :: s.list.erase frame } else s

/-- The least recent frame. -/
def victim (s : LRUReplacement) : Option (ℕ × LRUReplacement) :=
  s.list.getLast?.map (fun f => (f, s))

/-- The frame leaves the list and the map. -/
def onEvict (frame : ℕ) (s : LRUReplacement) : LRUReplacement :=
  if frame ∈ s.map then { list := s.list.erase frame, map := s.map.erase frame } else s

/-- Least recently used. -/
def policy : IReplacement LRUReplacement where
  onLoad := onLoad
  onAccess := onAccess
  victim := victim
  onEvict := onEvict
  name := "LRU"

end LRUReplacement

/-! ## Clock -/

/-- A place of the ring: a frame and its reference bit. -/
structure Slot where
  frame : ℕ
  ref : Bool
  deriving DecidableEq, Repr

/-- The ring, the index of each frame in it, and the hand. -/
structure ClockReplacement where
  ring : List Slot := []
  frameIdx : ℕ → Option ℕ := fun _ => none
  hand : ℕ := 0

namespace ClockReplacement

/-- A loaded frame gets a new slot at the end of the ring, with its bit set. -/
def onLoad (frame : ℕ) (s : ClockReplacement) : ClockReplacement :=
  { s with
    ring := s.ring ++ [⟨frame, true⟩]
    frameIdx := Function.update s.frameIdx frame (some s.ring.length) }

/-- The bit of the slot is set. -/
def onAccess (frame : ℕ) (s : ClockReplacement) : ClockReplacement :=
  match s.frameIdx frame with
  | none => s
  | some i => { s with ring := s.ring.modify i (fun slot => { slot with ref := true }) }

/-- The loop of `victim`, for at most the given number of further tries. -/
def sweep : ℕ → ClockReplacement → Option (ℕ × ClockReplacement)
  | 0, s => s.ring[s.hand]?.map (fun slot => (slot.frame, s))
  | tries + 1, s =>
    match s.ring[s.hand]? with
    | none => none
    | some slot =>
      if slot.ref = false then some (slot.frame, s)
      else sweep tries { s with
        ring := s.ring.set s.hand { slot with ref := false }
        hand := (s.hand + 1) % s.ring.length }

/-- Two rounds are enough to find a clear bit. -/
def victim (s : ClockReplacement) : Option (ℕ × ClockReplacement) :=
  s.sweep (s.ring.length * 2)

/-- The last slot takes the place of the one that is removed. -/
def onEvict (frame : ℕ) (s : ClockReplacement) : ClockReplacement :=
  match s.frameIdx frame, s.ring.getLast? with
  | some idx, some last =>
    let ring := (s.ring.set idx last).dropLast
    { ring := ring
      frameIdx := Function.update (Function.update s.frameIdx last.frame (some idx)) frame none
      hand := if s.hand ≥ ring.length ∧ ring ≠ [] then 0 else s.hand }
  | _, _ => s

/-- The clock. -/
def policy : IReplacement ClockReplacement where
  onLoad := onLoad
  onAccess := onAccess
  victim := victim
  onEvict := onEvict
  name := "Clock"

end ClockReplacement

/-! ## Optimal -/

/-- Where an insertion puts its element in the iteration order of a hash set: anywhere,
and it may rearrange the rest.  The first argument counts the insertions so far, so that
the order may depend on the history of the set. -/
structure HashOrder where
  insert : ℕ → List ℕ → ℕ → List ℕ
  perm : ∀ n l a, (insert n l a).Perm (a :: l)

/-- The reference string, how much of it is past, and the set of loaded frames. -/
structure OptimalReplacement where
  trace : List ℕ
  pos : ℕ := 0
  loaded : List ℕ := []
  insertions : ℕ := 0
  deriving DecidableEq

namespace OptimalReplacement

/-- A frame that is not in the set is inserted. -/
def onLoad (order : HashOrder) (frame : ℕ) (s : OptimalReplacement) : OptimalReplacement :=
  if frame ∈ s.loaded then s
  else { s with
    loaded := order.insert s.insertions s.loaded frame
    insertions := s.insertions + 1 }

/-- The optimal policy ignores accesses. -/
def onAccess (_frame : ℕ) (s : OptimalReplacement) : OptimalReplacement := s

/-- Move the cursor.  `VMSystem` does not call it. -/
def advance (s : OptimalReplacement) : OptimalReplacement :=
  if s.pos < s.trace.length then { s with pos := s.pos + 1 } else s

/-- The next position of the trace that equals the frame number, or the largest
`size_t`. -/
def nextUse (s : OptimalReplacement) (f : ℕ) : ℕ :=
  match (s.trace.drop s.pos).findIdx? (fun page => page = f) with
  | some j => s.pos + j
  | none => 2 ^ 64 - 1

/-- One round of the loop of `victim`, over the best frame and its distance. -/
def better (s : OptimalReplacement) (best : ℕ × ℕ) (f : ℕ) : ℕ × ℕ :=
  if s.nextUse f > best.2 then (f, s.nextUse f) else best

/-- The first of the frames with the furthest next use. -/
def victim (s : OptimalReplacement) : Option (ℕ × OptimalReplacement) :=
  match s.loaded with
  | [] => none
  | first :: _ => some ((s.loaded.foldl s.better (first, 0)).1, s)

/-- The frame leaves the set. -/
def onEvict (frame : ℕ) (s : OptimalReplacement) : OptimalReplacement :=
  { s with loaded := s.loaded.erase frame }

/-- The optimal policy, with the order of its hash set. -/
def policy (order : HashOrder) : IReplacement OptimalReplacement where
  onLoad := onLoad order
  onAccess := onAccess
  victim := victim
  onEvict := onEvict
  name := "Optimal"

end OptimalReplacement

/-! ## What the policies keep track of -/

/-- The frames in use are `F`, and each of them is in the queue. -/
structure FIFOReplacement.Tracks (F : Finset ℕ) (s : FIFOReplacement) : Prop where
  inUse_eq : s.inUse = F
  mem_order : ∀ f ∈ F, f ∈ s.order

/-- FIFO keeps track of the frames in use, and its victim is one of them. -/
theorem FIFOReplacement.tracks : FIFOReplacement.policy.Tracks FIFOReplacement.Tracks where
  load := by
    intro F s f h _
    refine ⟨?_, fun g hg => ?_⟩
    · show insert f s.inUse = insert f F
      rw [h.inUse_eq]
    · show g ∈ s.order ++ [f]
      rcases Finset.mem_insert.mp hg with rfl | hg
      · simp
      · exact List.mem_append_left _ (h.mem_order g hg)
  access := fun h _ => h
  victim := by
    intro F s h hne
    obtain ⟨g, hg⟩ := hne
    have hkept : ∀ g ∈ F, g ∈ s.order.dropWhile (fun f => f ∉ s.inUse) := by
      intro g hg
      have hsplit := List.takeWhile_append_dropWhile
        (p := fun f => decide (f ∉ s.inUse)) (l := s.order)
      have hmem := h.mem_order g hg
      rw [← hsplit, List.mem_append] at hmem
      rcases hmem with hmem | hmem
      · have hpopped := List.mem_takeWhile_imp hmem
        simp [h.inUse_eq, hg] at hpopped
      · exact hmem
    match hdrop : s.order.dropWhile (fun f => f ∉ s.inUse) with
    | [] =>
      have hmem := hkept g hg
      rw [hdrop] at hmem
      simp at hmem
    | f :: order =>
      have hhead := List.head?_dropWhile_not (fun f => decide (f ∉ s.inUse)) s.order
      rw [hdrop] at hhead
      refine ⟨f, { s with order := f :: order }, ?_, ?_, h.inUse_eq, fun g hg => ?_⟩
      · show FIFOReplacement.victim s = _
        rw [FIFOReplacement.victim, hdrop]
      · rw [← h.inUse_eq]
        simpa using hhead
      · rw [← hdrop]
        exact hkept g hg
  evict := by
    intro F s f h _
    refine ⟨?_, fun g hg => h.mem_order g (Finset.mem_of_mem_erase hg)⟩
    show s.inUse.erase f = F.erase f
    rw [h.inUse_eq]

/-- The list holds the frames of `F`, each once, and they are the keys of the map. -/
structure LRUReplacement.Tracks (F : Finset ℕ) (s : LRUReplacement) : Prop where
  map_eq : s.map = F
  nodup : s.list.Nodup
  mem_list : ∀ f, f ∈ s.list ↔ f ∈ F

/-- LRU keeps track of the frames of its list, and its victim is one of them. -/
theorem LRUReplacement.tracks : LRUReplacement.policy.Tracks LRUReplacement.Tracks where
  load := by
    intro F s f h hf
    refine ⟨?_, ?_, fun g => ?_⟩
    · show insert f s.map = insert f F
      rw [h.map_eq]
    · exact List.nodup_cons.mpr ⟨fun hmem => hf ((h.mem_list f).mp hmem), h.nodup⟩
    · show g ∈ f :: s.list ↔ _
      rw [List.mem_cons, h.mem_list, Finset.mem_insert]
  access := by
    intro F s f h hf
    show LRUReplacement.Tracks F (s.onAccess f)
    rw [LRUReplacement.onAccess, if_pos (h.map_eq ▸ hf)]
    refine ⟨h.map_eq, ?_, fun g => ?_⟩
    · exact List.nodup_cons.mpr ⟨h.nodup.not_mem_erase, h.nodup.erase f⟩
    · show g ∈ f :: s.list.erase f ↔ _
      rw [List.mem_cons, h.nodup.mem_erase_iff, h.mem_list]
      by_cases hg : g = f <;> simp [hg, hf]
  victim := by
    intro F s h hne
    obtain ⟨g, hg⟩ := hne
    have hlist : s.list ≠ [] := List.ne_nil_of_mem ((h.mem_list g).mpr hg)
    refine ⟨s.list.getLast hlist, s, ?_, ?_, h⟩
    · show s.list.getLast?.map _ = _
      rw [List.getLast?_eq_getLast_of_ne_nil hlist]
      rfl
    · exact (h.mem_list _).mp (List.getLast_mem hlist)
  evict := by
    intro F s f h hf
    show LRUReplacement.Tracks (F.erase f) (s.onEvict f)
    rw [LRUReplacement.onEvict, if_pos (h.map_eq ▸ hf)]
    refine ⟨by rw [h.map_eq], h.nodup.erase f, fun g => ?_⟩
    show g ∈ s.list.erase f ↔ _
    rw [h.nodup.mem_erase_iff, h.mem_list, Finset.mem_erase]

/-- The ring holds the frames of `F`, and the index gives the one place of each. -/
structure ClockReplacement.Tracks (F : Finset ℕ) (s : ClockReplacement) : Prop where
  mem_ring : ∀ f, f ∈ s.ring.map Slot.frame ↔ f ∈ F
  frameIdx_eq : ∀ f i, s.frameIdx f = some i ↔ (s.ring.map Slot.frame)[i]? = some f
  hand_lt : s.hand < max s.ring.length 1

namespace ClockReplacement

variable {F : Finset ℕ} {s t : ClockReplacement} {f : ℕ}

/-- The reference bits do not matter, and the hand only has to be on the ring. -/
theorem Tracks.congr (h : Tracks F s) (hring : t.ring.map Slot.frame = s.ring.map Slot.frame)
    (hidx : t.frameIdx = s.frameIdx) (hhand : t.hand < max s.ring.length 1) : Tracks F t := by
  have hlen : t.ring.length = s.ring.length := by
    rw [← List.length_map (f := Slot.frame), hring, List.length_map]
  exact ⟨hring ▸ h.mem_ring, by rw [hring, hidx]; exact h.frameIdx_eq, hlen ▸ hhand⟩

/-- No frame is on the ring twice, since the index has one place for it. -/
theorem Tracks.nodup_frames (h : Tracks F s) : (s.ring.map Slot.frame).Nodup := by
  rw [List.nodup_iff_injective_getElem]
  intro i j hij
  have hi := (h.frameIdx_eq _ i).mpr (List.getElem?_eq_getElem i.2)
  have hj := (h.frameIdx_eq _ j).mpr (List.getElem?_eq_getElem j.2)
  dsimp only at hij
  rw [hij] at hi
  exact Fin.ext (Option.some.inj (hi.symm.trans hj))

/-- Writing the bit of a slot leaves the frames of the ring. -/
theorem map_frame_set {ring : List Slot} {i : ℕ} {slot : Slot} {ref : Bool}
    (hslot : ring[i]? = some slot) :
    (ring.set i { slot with ref := ref }).map Slot.frame = ring.map Slot.frame := by
  rw [List.map_set]
  apply List.ext_getElem?
  intro j
  by_cases hij : i = j
  · subst hij
    rw [List.getElem?_set_self' , List.getElem?_map, hslot]
    rfl
  · rw [List.getElem?_set_ne hij]

/-- Setting a bit leaves the frames of the ring. -/
theorem map_frame_modify (ring : List Slot) (i : ℕ) :
    (ring.modify i (fun slot => { slot with ref := true })).map Slot.frame
      = ring.map Slot.frame := by
  apply List.ext_getElem?
  intro j
  rw [List.getElem?_map, List.getElem?_modify, List.getElem?_map]
  cases ring[j]? with
  | none => rfl
  | some slot => by_cases hij : i = j <;> simp [hij]

/-- The sweep ends on a slot of the ring, and only clears reference bits. -/
theorem sweep_spec (tries : ℕ) (hhand : s.hand < s.ring.length) :
    ∃ slot t, s.sweep tries = some (slot.frame, t) ∧ t.ring[t.hand]? = some slot ∧
      t.ring.map Slot.frame = s.ring.map Slot.frame ∧ t.frameIdx = s.frameIdx ∧
      t.hand < s.ring.length := by
  induction tries generalizing s with
  | zero =>
    refine ⟨s.ring[s.hand], s, ?_, List.getElem?_eq_getElem hhand, rfl, rfl, hhand⟩
    rw [sweep, List.getElem?_eq_getElem hhand]
    rfl
  | succ tries ih =>
    have hslot := List.getElem?_eq_getElem hhand
    rw [sweep, hslot]
    dsimp only
    split_ifs with href
    · exact ⟨s.ring[s.hand], s, rfl, hslot, rfl, rfl, hhand⟩
    · obtain ⟨slot, t, hsweep, hend, hring, hidx, hlt⟩ := ih (s := { s with
          ring := s.ring.set s.hand { s.ring[s.hand] with ref := false }
          hand := (s.hand + 1) % s.ring.length })
        (by simpa using Nat.mod_lt _ (by omega))
      refine ⟨slot, t, hsweep, hend, ?_, hidx, by simpa using hlt⟩
      rw [hring]
      exact map_frame_set hslot

/-- **Removing an element by putting the last one in its place** keeps an index of the
places exact. -/
theorem index_swapLast {l : List ℕ} {index : ℕ → Option ℕ}
    (hindex : ∀ g i, index g = some i ↔ l[i]? = some g) {idx last : ℕ}
    (hidx : index f = some idx) (hlast : l.getLast? = some last) (g i : ℕ) :
    Function.update (Function.update index last (some idx)) f none g = some i ↔
      ((l.set idx last).dropLast)[i]? = some g := by
  have hinj : ∀ {g i j : ℕ}, l[i]? = some g → l[j]? = some g → i = j := by
    intro g i j hi hj
    exact Option.some.inj (((hindex g i).mpr hi).symm.trans ((hindex g j).mpr hj))
  have hget := (hindex f idx).mp hidx
  have hlt : idx < l.length := (List.getElem?_eq_some_iff.mp hget).1
  rw [List.getLast?_eq_getElem?] at hlast
  rw [List.getElem?_dropLast, List.length_set, List.getElem?_set]
  by_cases hgf : g = f
  · -- the removed element is gone
    subst hgf
    rw [Function.update_self]
    refine iff_of_false (by simp) (fun h => ?_)
    split_ifs at h with hi hij
    · subst hij
      have := hinj hget (hlast.trans (congrArg some (Option.some.inj h)))
      omega
    · exact hij (hinj hget h)
  · rw [Function.update_of_ne hgf]
    by_cases hgl : g = last
    · -- the last element has moved
      subst hgl
      have hne : idx ≠ l.length - 1 := by
        rintro rfl
        exact hgf (Option.some.inj (hlast.symm.trans hget))
      rw [Function.update_self, Option.some.injEq]
      constructor
      · rintro rfl
        rw [if_pos (by omega), if_pos rfl, if_pos hlt]
      · intro h
        split_ifs at h with hi hij
        · exact hij
        · have := hinj hlast h
          omega
    · -- the others are where they were
      rw [Function.update_of_ne hgl, hindex]
      constructor
      · intro h
        have hi : i ≠ l.length - 1 := by
          rintro rfl
          exact hgl (Option.some.inj (h.symm.trans hlast))
        have hij : idx ≠ i := by
          rintro rfl
          exact hgf (Option.some.inj (h.symm.trans hget))
        have := (List.getElem?_eq_some_iff.mp h).1
        rw [if_pos (by omega), if_neg hij]
        exact h
      · intro h
        split_ifs at h with hi hij
        · exact absurd (Option.some.inj h).symm hgl
        · exact h

/-- The ring without an evicted frame holds the others. -/
theorem Tracks.onEvict (h : Tracks F s) (hf : f ∈ F) : Tracks (F.erase f) (s.onEvict f) := by
  obtain ⟨idx, hidx⟩ := List.mem_iff_getElem?.mp ((h.mem_ring f).mpr hf)
  have hfound := (h.frameIdx_eq f idx).mpr hidx
  have hring : s.ring ≠ [] := by
    intro hnil
    simp [hnil] at hidx
  have hlast := List.getLast?_eq_getLast_of_ne_nil hring
  have hlast' : (s.ring.map Slot.frame).getLast? = some (s.ring.getLast hring).frame := by
    rw [List.getLast?_map, hlast]
    rfl
  have hindex := index_swapLast h.frameIdx_eq hfound hlast'
  have hframes : (s.onEvict f).ring.map Slot.frame
      = ((s.ring.map Slot.frame).set idx (s.ring.getLast hring).frame).dropLast := by
    rw [ClockReplacement.onEvict, hfound, hlast]
    show ((s.ring.set idx (s.ring.getLast hring)).dropLast).map Slot.frame = _
    rw [List.map_dropLast, List.map_set]
  have hindex' : (s.onEvict f).frameIdx = Function.update
      (Function.update s.frameIdx (s.ring.getLast hring).frame (some idx)) f none := by
    rw [ClockReplacement.onEvict, hfound, hlast]
  have hexact : ∀ g i, (s.onEvict f).frameIdx g = some i ↔
      ((s.onEvict f).ring.map Slot.frame)[i]? = some g := by
    intro g i
    rw [hframes, hindex']
    exact hindex g i
  refine ⟨fun g => ?_, hexact, ?_⟩
  · rw [List.mem_iff_getElem?, Finset.mem_erase, ← h.mem_ring, List.mem_iff_getElem?]
    simp only [← hexact, ← h.frameIdx_eq, hindex']
    by_cases hgf : g = f
    · subst hgf
      simp
    · rw [Function.update_of_ne hgf]
      by_cases hgl : g = (s.ring.getLast hring).frame
      · subst hgl
        have hmem := (List.mem_iff_getElem?.mp (List.mem_map_of_mem (f := Slot.frame)
          (List.getLast_mem hring)))
        simp only [← h.frameIdx_eq] at hmem
        simp [hgf, hmem]
      · rw [Function.update_of_ne hgl]
        simp [hgf]
  · have hhand := h.hand_lt
    rw [ClockReplacement.onEvict, hfound, hlast]
    dsimp only
    split_ifs with hwrap
    · exact lt_max_of_lt_right Nat.one_pos
    · rcases not_and_or.mp hwrap with hlt | hnil
      · exact lt_max_of_lt_left (not_le.mp hlt)
      · rw [not_not] at hnil
        have hlen := congrArg List.length hnil
        rw [List.length_dropLast, List.length_set, List.length_nil] at hlen
        rw [hnil]
        have hpos := List.length_pos_iff.mpr hring
        simp only [List.length_nil]
        omega

/-- The ring with a new slot holds the loaded frame as well. -/
theorem Tracks.onLoad (h : Tracks F s) (hf : f ∉ F) : Tracks (insert f F) (s.onLoad f) := by
  have hnot : f ∉ s.ring.map Slot.frame := fun hmem => hf ((h.mem_ring f).mp hmem)
  have hring : (s.onLoad f).ring.map Slot.frame = s.ring.map Slot.frame ++ [f] := by
    simp [ClockReplacement.onLoad]
  refine ⟨fun g => ?_, fun g i => ?_, ?_⟩
  · rw [hring, List.mem_append, h.mem_ring, List.mem_singleton, Finset.mem_insert]
    tauto
  · show Function.update s.frameIdx f (some s.ring.length) g = some i ↔
      ((s.onLoad f).ring.map Slot.frame)[i]? = some g
    rw [hring, List.getElem?_append, List.length_map]
    by_cases hgf : g = f
    · subst hgf
      rw [Function.update_self, Option.some.injEq]
      constructor
      · rintro rfl
        simp
      · intro hi
        split_ifs at hi with hlt
        · exact absurd (List.mem_of_getElem? hi) hnot
        · rw [List.getElem?_eq_some_iff] at hi
          obtain ⟨hi, -⟩ := hi
          rw [List.length_singleton] at hi
          omega
    · rw [Function.update_of_ne hgf, h.frameIdx_eq]
      split_ifs with hlt
      · rfl
      · rw [List.getElem?_eq_none (by rw [List.length_map]; omega)]
        refine iff_of_false (by simp) (fun hi => hgf ?_)
        exact List.mem_singleton.mp (List.mem_of_getElem? hi)
  · show s.hand < max (s.ring ++ [(⟨f, true⟩ : Slot)]).length 1
    have := h.hand_lt
    rw [List.length_append, List.length_singleton]
    omega

/-- An access sets a bit, if the frame is tracked at all. -/
theorem Tracks.onAccess (h : Tracks F s) (f : ℕ) : Tracks F (s.onAccess f) := by
  unfold ClockReplacement.onAccess
  split
  · exact h
  · next i hi =>
    refine h.congr ?_ rfl h.hand_lt
    exact map_frame_modify _ _

/-- The clock keeps track of the frames of its ring, and its victim is one of them. -/
theorem tracks : policy.Tracks Tracks where
  load := fun h hf => h.onLoad hf
  access := fun h _ => h.onAccess _
  victim := by
    intro F s h hne
    obtain ⟨g, hg⟩ := hne
    have hpos : 0 < s.ring.length := by
      have hmem := (h.mem_ring g).mpr hg
      rw [← List.length_map (f := Slot.frame)]
      exact List.length_pos_of_mem hmem
    have hhand := h.hand_lt
    obtain ⟨slot, t, hsweep, hslot, hring, hidx, hlt⟩ :=
      sweep_spec (s := s) (s.ring.length * 2) (by omega)
    refine ⟨slot.frame, t, hsweep, ?_, h.congr hring hidx (by omega)⟩
    rw [← h.mem_ring, ← hring]
    exact List.mem_map_of_mem (List.mem_of_getElem? hslot)
  evict := fun h hf => h.onEvict hf

end ClockReplacement

/-- The set of the optimal policy holds the frames of `F`. -/
structure OptimalReplacement.Tracks (F : Finset ℕ) (s : OptimalReplacement) : Prop where
  nodup : s.loaded.Nodup
  mem_loaded : ∀ f, f ∈ s.loaded ↔ f ∈ F

/-- The loop of `victim` picks the first frame or one that it has seen. -/
theorem OptimalReplacement.foldl_better_mem (s : OptimalReplacement) (l : List ℕ) (best : ℕ × ℕ) :
    (l.foldl s.better best).1 = best.1 ∨ (l.foldl s.better best).1 ∈ l := by
  induction l generalizing best with
  | nil => exact .inl rfl
  | cons f l ih =>
    rw [List.foldl_cons]
    have hbetter : (s.better best f).1 = best.1 ∨ (s.better best f).1 = f := by
      unfold OptimalReplacement.better
      split_ifs
      · exact .inr rfl
      · exact .inl rfl
    rcases ih (s.better best f) with h | h
    · rw [h]
      rcases hbetter with hbest | hf
      · exact .inl hbest
      · rw [hf]
        exact .inr (List.mem_cons_self ..)
    · exact .inr (List.mem_cons_of_mem _ h)

/-- The optimal policy keeps track of the loaded frames, and its victim is one of them. -/
theorem OptimalReplacement.tracks (order : HashOrder) :
    (OptimalReplacement.policy order).Tracks OptimalReplacement.Tracks where
  load := by
    intro F s f h hf
    have hnot : f ∉ s.loaded := fun hmem => hf ((h.mem_loaded f).mp hmem)
    have hperm := order.perm s.insertions s.loaded f
    show OptimalReplacement.Tracks (insert f F) (s.onLoad order f)
    rw [OptimalReplacement.onLoad, if_neg hnot]
    refine ⟨hperm.nodup_iff.mpr (List.nodup_cons.mpr ⟨hnot, h.nodup⟩), fun g => ?_⟩
    rw [hperm.mem_iff, List.mem_cons, h.mem_loaded, Finset.mem_insert]
  access := fun h _ => h
  victim := by
    intro F s h hne
    obtain ⟨g, hg⟩ := hne
    match hloaded : s.loaded with
    | [] =>
      have hmem := (h.mem_loaded g).mpr hg
      rw [hloaded] at hmem
      simp at hmem
    | first :: rest =>
      refine ⟨(s.loaded.foldl s.better (first, 0)).1, s, ?_, ?_, h⟩
      · show OptimalReplacement.victim s = _
        rw [OptimalReplacement.victim, hloaded]
      · rw [← h.mem_loaded]
        rcases s.foldl_better_mem s.loaded (first, 0) with heq | hmem
        · rw [heq, hloaded]
          exact List.mem_cons_self ..
        · exact hmem
  evict := by
    intro F s f h _
    refine ⟨h.nodup.erase f, fun g => ?_⟩
    show g ∈ s.loaded.erase f ↔ _
    rw [h.nodup.mem_erase_iff, h.mem_loaded, Finset.mem_erase]

/-! ## The four policies together -/

/-- The policies of the simulator, with what they are constructed from. -/
inductive PolicyKind where
  | fifo
  | lru
  | clock
  | optimal (order : HashOrder) (trace : List ℕ)

namespace PolicyKind

/-- The object of a policy. -/
def State : PolicyKind → Type
  | fifo => FIFOReplacement
  | lru => LRUReplacement
  | clock => ClockReplacement
  | optimal _ _ => OptimalReplacement

/-- The methods of a policy. -/
def replacement : (k : PolicyKind) → IReplacement k.State
  | fifo => FIFOReplacement.policy
  | lru => LRUReplacement.policy
  | clock => ClockReplacement.policy
  | optimal order _ => OptimalReplacement.policy order

/-- The object as it is constructed. -/
def initial : (k : PolicyKind) → k.State
  | fifo => ({} : FIFOReplacement)
  | lru => ({} : LRUReplacement)
  | clock => ({} : ClockReplacement)
  | optimal _ trace => ({ trace := trace } : OptimalReplacement)

/-- The frames that a policy takes for loaded. -/
def tracked : (k : PolicyKind) → k.State → Finset ℕ
  | fifo => fun s : FIFOReplacement => s.inUse
  | lru => fun s : LRUReplacement => s.list.toFinset
  | clock => fun s : ClockReplacement => (s.ring.map Slot.frame).toFinset
  | optimal _ _ => fun s : OptimalReplacement => s.loaded.toFinset

/-- The containers of a policy agree on the loaded frames `F`. -/
def Tracks : (k : PolicyKind) → Finset ℕ → k.State → Prop
  | fifo => FIFOReplacement.Tracks
  | lru => LRUReplacement.Tracks
  | clock => ClockReplacement.Tracks
  | optimal _ _ => OptimalReplacement.Tracks

/-- The four policies keep track of the frames in use. -/
theorem tracks : (k : PolicyKind) → k.replacement.Tracks k.Tracks
  | fifo => FIFOReplacement.tracks
  | lru => LRUReplacement.tracks
  | clock => ClockReplacement.tracks
  | optimal order _ => OptimalReplacement.tracks order

/-- A policy starts without frames. -/
theorem tracks_initial (k : PolicyKind) : k.Tracks ∅ k.initial := by
  cases k with
  | fifo => exact ⟨rfl, by simp⟩
  | lru => exact ⟨rfl, List.nodup_nil, by simp [initial]⟩
  | clock => exact ⟨by simp [initial], by simp [initial], by simp [initial]⟩
  | optimal order trace => exact ⟨List.nodup_nil, by simp [initial]⟩

/-- The frames that a policy tracks are read off its object. -/
theorem Tracks.tracked_eq {k : PolicyKind} {F : Finset ℕ} {s : k.State} (h : k.Tracks F s) :
    k.tracked s = F := by
  cases k with
  | fifo => exact FIFOReplacement.Tracks.inUse_eq h
  | lru =>
    ext f
    rw [← LRUReplacement.Tracks.mem_list h f]
    exact List.mem_toFinset
  | clock =>
    ext f
    rw [← ClockReplacement.Tracks.mem_ring h f]
    exact List.mem_toFinset
  | optimal order trace =>
    ext f
    rw [← OptimalReplacement.Tracks.mem_loaded h f]
    exact List.mem_toFinset

end PolicyKind

end Memlab
