/-
# The ring of the clock policy

The calls of `clock.hpp` in any order, and the loop of its `victim` with a record of the
slots that it examines.  The ring and the index are kept together by `Tracks`; removal by
swapping with the last slot is `Tracks.onEvict`.

That the loop returns from its body and not behind it is a matter of the bits: a round
that does not return clears the bit of its slot, so that there are at most as many such
rounds as there were set bits, and no slot is passed twice.
-/
import MemoryAllocator.GuardedMachine
import MemoryAllocator.Replacement

namespace Memlab

namespace ClockReplacement

variable {F : Finset ℕ} {s t u : ClockReplacement} {slot : Slot} {passed : List ℕ} {f tries : ℕ}

/-! ## The invariant of the ring -/

/-- The frames of the ring are distinct, the index maps exactly these frames to their
positions, and the hand is on the ring unless the ring is empty. -/
structure RingInv (s : ClockReplacement) : Prop where
  nodup : (s.ring.map Slot.frame).Nodup
  index : ∀ f i, s.frameIdx f = some i ↔ (s.ring.map Slot.frame)[i]? = some f
  hand : s.hand < s.ring.length ∨ (s.ring = [] ∧ s.hand = 0)

theorem Tracks.ringInv (h : Tracks F s) : s.RingInv := by
  refine ⟨h.nodup_frames, h.frameIdx_eq, ?_⟩
  have hhand := h.hand_lt
  rcases List.eq_nil_or_concat s.ring with hnil | ⟨l, slot, hring⟩
  · rw [hnil, List.length_nil] at hhand
    exact .inr ⟨hnil, by omega⟩
  · rw [hring, List.length_concat] at hhand ⊢
    exact .inl (by omega)

/-- The frames of the ring are the ones that are tracked. -/
theorem Tracks.toFinset_frames (h : Tracks F s) : (s.ring.map Slot.frame).toFinset = F := by
  ext f
  rw [List.mem_toFinset]
  exact h.mem_ring f

theorem tracks_start : Tracks ∅ ({} : ClockReplacement) :=
  ⟨fun f => by simp, fun f i => by simp, Nat.one_pos⟩

/-- A frame that is not tracked has no position. -/
theorem Tracks.frameIdx_eq_none (h : Tracks F s) (hf : f ∉ F) : s.frameIdx f = none := by
  rw [Option.eq_none_iff_forall_ne_some]
  intro i hi
  exact hf ((h.mem_ring f).mp (List.mem_of_getElem? ((h.frameIdx_eq f i).mp hi)))

/-- Evicting any frame: one that is not tracked changes nothing. -/
theorem Tracks.onEvict_any (h : Tracks F s) (f : ℕ) : Tracks (F.erase f) (s.onEvict f) := by
  by_cases hf : f ∈ F
  · exact h.onEvict hf
  · have hsame : s.onEvict f = s := by
      rw [ClockReplacement.onEvict, h.frameIdx_eq_none hf]
    rw [hsame, Finset.erase_eq_of_notMem hf]
    exact h

/-! ## The loop of `victim` -/

/-- A round that does not return: the bit of the slot is cleared and the hand advances. -/
def pass (s : ClockReplacement) (slot : Slot) : ClockReplacement :=
  { s with
    ring := s.ring.set s.hand { slot with ref := false }
    hand := (s.hand + 1) % s.ring.length }

/-- The loop of `victim` without the return behind it, for at most the given number of
tries, with the positions of the slots that it examines.  It does not return if the tries
run out. -/
def scan : ℕ → ClockReplacement → Option (List ℕ × ClockReplacement)
  | 0, _ => none
  | tries + 1, s =>
    match s.ring[s.hand]? with
    | none => none
    | some slot =>
      if slot.ref = false then some ([s.hand], s)
      else (scan tries (s.pass slot)).map (fun r => (s.hand :: r.1, r.2))

/-- If the loop returns from its body, then `sweep` returns the slot under the hand. -/
theorem sweep_of_scan {examined : List ℕ} (h : s.scan tries = some (examined, t)) :
    s.sweep tries = t.ring[t.hand]?.map (fun slot => (slot.frame, t)) := by
  induction tries generalizing s examined with
  | zero => exact absurd h (by simp [scan])
  | succ tries ih =>
    rw [scan] at h
    rw [sweep]
    cases hslot : s.ring[s.hand]? with
    | none =>
      rw [hslot] at h
      exact absurd h (by simp)
    | some slot =>
      rw [hslot] at h
      dsimp only at h ⊢
      split_ifs at h ⊢ with href
      · obtain ⟨-, rfl⟩ := Prod.mk.inj (Option.some.inj h)
        rw [hslot]
        rfl
      · obtain ⟨⟨rest, u⟩, hscan, heq⟩ := Option.map_eq_some_iff.mp h
        obtain ⟨-, rfl⟩ := Prod.mk.inj heq
        exact ih hscan

/-- The number of set bits. -/
def setBits (s : ClockReplacement) : ℕ := s.ring.countP Slot.ref

/-- `t` is `s` with the bits at the positions `passed` cleared, where they were set; the
hand may have moved. -/
structure Cleared (s t : ClockReplacement) (passed : List ℕ) : Prop where
  frames_eq : t.ring.map Slot.frame = s.ring.map Slot.frame
  frameIdx_eq : t.frameIdx = s.frameIdx
  was_set : ∀ i ∈ passed, s.ring[i]?.map Slot.ref = some true
  now_clear : ∀ i ∈ passed, t.ring[i]?.map Slot.ref = some false
  other : ∀ i ∉ passed, t.ring[i]? = s.ring[i]?

theorem Cleared.refl (s : ClockReplacement) : Cleared s s [] :=
  ⟨rfl, rfl, fun _ hi => absurd hi List.not_mem_nil, fun _ hi => absurd hi List.not_mem_nil,
    fun _ _ => rfl⟩

theorem ring_pass_self (hslot : s.ring[s.hand]? = some slot) :
    (s.pass slot).ring[s.hand]? = some { slot with ref := false } := by
  obtain ⟨hlt, -⟩ := List.getElem?_eq_some_iff.mp hslot
  show (s.ring.set s.hand _)[s.hand]? = _
  rw [List.getElem?_set_self hlt]

theorem ring_pass_of_ne {i : ℕ} (hi : i ≠ s.hand) : (s.pass slot).ring[i]? = s.ring[i]? :=
  List.getElem?_set_ne (Ne.symm hi)

/-- One round before those that come after it.  The slot under the hand is not passed
again, since its bit is clear. -/
theorem Cleared.cons (hslot : s.ring[s.hand]? = some slot) (href : slot.ref = true)
    (h : Cleared (s.pass slot) t passed) : s.hand ∉ passed ∧ Cleared s t (s.hand :: passed) := by
  have hself := ring_pass_self hslot
  have hnot : s.hand ∉ passed := by
    intro hmem
    have hset := h.was_set _ hmem
    rw [hself] at hset
    exact absurd hset (by simp)
  refine ⟨hnot, ⟨h.frames_eq.trans (map_frame_set hslot), h.frameIdx_eq, ?_, ?_, ?_⟩⟩
  · intro i hi
    rcases List.mem_cons.mp hi with rfl | hi
    · rw [hslot, Option.map_some, href]
    · have hset := h.was_set i hi
      rwa [ring_pass_of_ne (fun heq => hnot (heq ▸ hi))] at hset
  · intro i hi
    rcases List.mem_cons.mp hi with rfl | hi
    · rw [h.other _ hnot, hself, Option.map_some]
    · exact h.now_clear i hi
  · intro i hi
    obtain ⟨hne, hnotin⟩ := not_or.mp (fun hmem => hi (List.mem_cons.mpr hmem))
    rw [h.other i hnotin, ring_pass_of_ne hne]

/-- A round that does not return leaves one set bit less. -/
theorem setBits_pass (hslot : s.ring[s.hand]? = some slot) (href : slot.ref = true) :
    (s.pass slot).setBits + 1 = s.setBits := by
  obtain ⟨hlt, hget⟩ := List.getElem?_eq_some_iff.mp hslot
  have hpos : 0 < s.setBits :=
    List.countP_pos_iff.mpr ⟨slot, List.mem_of_getElem? hslot, href⟩
  have hcount : (s.pass slot).setBits = s.setBits - 1 + 0 := by
    show (s.ring.set s.hand { slot with ref := false }).countP Slot.ref = _
    rw [List.countP_set hlt, hget, if_pos href, if_neg Bool.false_ne_true]
    rfl
  omega

/-- **The scan** returns within as many tries as there are set bits, and one more: it
passes over slots with set bits, clearing them, and returns at a slot with a clear bit. -/
theorem exists_scan (hhand : s.hand < s.ring.length) (htries : s.setBits < tries) :
    ∃ passed t slot, s.scan tries = some (passed ++ [t.hand], t) ∧
      passed.length ≤ s.setBits ∧ t.ring[t.hand]? = some slot ∧ slot.ref = false ∧
      Cleared s t passed := by
  induction tries generalizing s with
  | zero => omega
  | succ tries ih =>
    have hslot := List.getElem?_eq_getElem hhand
    rw [scan, hslot]
    dsimp only
    split_ifs with href
    · exact ⟨[], s, s.ring[s.hand], rfl, Nat.zero_le _, hslot, href, .refl s⟩
    · rw [Bool.not_eq_false] at href
      have hbits := setBits_pass hslot href
      have hlen : (s.pass s.ring[s.hand]).ring.length = s.ring.length := List.length_set
      have hnext : (s.pass s.ring[s.hand]).hand < (s.pass s.ring[s.hand]).ring.length := by
        rw [hlen]
        exact Nat.mod_lt _ (by omega)
      obtain ⟨passed, t, slot, hscan, hle, hend, hclear, hcleared⟩ := ih hnext (by omega)
      refine ⟨s.hand :: passed, t, slot, ?_, ?_, hend, hclear, (hcleared.cons hslot href).2⟩
      · rw [hscan]
        rfl
      · rw [List.length_cons]
        omega

theorem setBits_le_length (s : ClockReplacement) : s.setBits ≤ s.ring.length :=
  List.countP_le_length

/-- What a call of `victim` does: the loop returns from its body, at the slot of a tracked
frame with a clear bit, after it has cleared the bits of the slots that it passed. -/
theorem Tracks.victim (h : Tracks F s) (hne : F.Nonempty) :
    ∃ passed t slot, s.scan (s.ring.length * 2) = some (passed ++ [t.hand], t) ∧
      passed.length ≤ s.ring.length ∧ s.victim = some (slot.frame, t) ∧ slot.frame ∈ F ∧
      t.ring[t.hand]? = some slot ∧ slot.ref = false ∧ Cleared s t passed := by
  have hring : s.ring ≠ [] := by
    obtain ⟨f, hf⟩ := hne
    rintro hnil
    have hmem := (h.mem_ring f).mpr hf
    rw [hnil] at hmem
    exact absurd hmem List.not_mem_nil
  have hhand : s.hand < s.ring.length := h.ringInv.hand.resolve_right (fun hempty => hring hempty.1)
  have hbits := s.setBits_le_length
  obtain ⟨passed, t, slot, hscan, hle, hend, hclear, hcleared⟩ :=
    exists_scan hhand (show s.setBits < s.ring.length * 2 by omega)
  refine ⟨passed, t, slot, hscan, hle.trans hbits, ?_, ?_, hend, hclear, hcleared⟩
  · rw [ClockReplacement.victim, sweep_of_scan hscan, hend]
    rfl
  · rw [← h.mem_ring, ← hcleared.frames_eq]
    exact List.mem_map_of_mem (List.mem_of_getElem? hend)

/-- After a victim has been chosen the ring holds the same frames. -/
theorem Tracks.of_cleared (h : Tracks F s) (hcleared : Cleared s t passed)
    (hend : t.ring[t.hand]? = some slot) : Tracks F t := by
  obtain ⟨hlt, -⟩ := List.getElem?_eq_some_iff.mp hend
  have hlength : t.ring.length = s.ring.length := by
    rw [← List.length_map (f := Slot.frame), hcleared.frames_eq, List.length_map]
  refine h.congr hcleared.frames_eq hcleared.frameIdx_eq ?_
  rw [← hlength]
  exact lt_max_of_lt_left hlt

/-! ## Any calls -/

/-- The calls of the policy. -/
inductive Call where
  | onLoad (frame : ℕ)
  | onAccess (frame : ℕ)
  | victim
  | onEvict (frame : ℕ)
  deriving DecidableEq, Repr

/-- The frames that are tracked after a call: those that have been loaded, and not evicted
since. -/
def Call.track (F : Finset ℕ) : Call → Finset ℕ
  | .onLoad f => insert f F
  | .onAccess _ => F
  | .victim => F
  | .onEvict f => F.erase f

/-- The frames that are tracked after a sequence of calls, from none. -/
def tracked (calls : List Call) : Finset ℕ := calls.foldl Call.track ∅

/-- The policy after a call. -/
def call (s : ClockReplacement) : Call → Option ClockReplacement
  | .onLoad f => some (s.onLoad f)
  | .onAccess f => some (s.onAccess f)
  | .victim => s.victim.map Prod.snd
  | .onEvict f => some (s.onEvict f)

/-- The policy, and beside it the frames that are tracked according to the calls.  Only
frames that are not tracked are loaded, and a victim is asked for only if something is
tracked.  Accesses and evictions are of any frames. -/
def machine : GuardedMachine (Finset ℕ × ClockReplacement) Call where
  pre := fun x call => match call with
    | .onLoad f => f ∉ x.1
    | .onAccess _ => True
    | .victim => x.1.Nonempty
    | .onEvict _ => True
  exec := fun x call => (x.2.call call).map (fun t => (call.track x.1, t))

instance (x : Finset ℕ × ClockReplacement) (call : Call) : Decidable (machine.pre x call) :=
  match call with
  | .onLoad f => inferInstanceAs (Decidable (f ∉ x.1))
  | .onAccess _ => .isTrue trivial
  | .victim => inferInstanceAs (Decidable x.1.Nonempty)
  | .onEvict _ => .isTrue trivial

/-- **A call keeps the ring to the frames that are tracked.** -/
theorem Tracks.call {call : Call} (h : Tracks F s) (hpre : machine.pre (F, s) call) :
    ∃ t, s.call call = some t ∧ Tracks (call.track F) t := by
  cases call with
  | onLoad f => exact ⟨_, rfl, h.onLoad hpre⟩
  | onAccess f => exact ⟨_, rfl, h.onAccess f⟩
  | victim =>
    obtain ⟨passed, t, slot, -, -, hvictim, -, hend, -, hcleared⟩ := h.victim hpre
    refine ⟨t, ?_, h.of_cleared hcleared hend⟩
    show s.victim.map Prod.snd = some t
    rw [hvictim]
    rfl
  | onEvict f => exact ⟨_, rfl, h.onEvict_any f⟩

theorem Tracks.step {x : Finset ℕ × ClockReplacement} {call : Call} (h : Tracks x.1 x.2)
    (hpre : machine.pre x call) : ∃ y, machine.exec x call = some y ∧ Tracks y.1 y.2 := by
  obtain ⟨t, ht, hafter⟩ := h.call hpre
  refine ⟨(call.track x.1, t), ?_, hafter⟩
  show (x.2.call call).map _ = _
  rw [ht]
  rfl

/-- A run computes the tracked frames from the calls. -/
theorem run_fst {x y : Finset ℕ × ClockReplacement} {calls : List Call}
    (h : machine.run x calls = some y) : y.1 = calls.foldl Call.track x.1 := by
  induction calls generalizing x with
  | nil =>
    obtain rfl := Option.some.inj h
    rfl
  | cons call calls ih =>
    obtain ⟨z, hz, hrest⟩ := Option.bind_eq_some_iff.mp h
    obtain ⟨t, -, rfl⟩ := Option.map_eq_some_iff.mp hz
    exact ih hrest

/-- **The ring invariant and the scan.**  After any calls, the frames of the ring are those
that have been loaded and not evicted since; they are distinct, the index maps exactly these
to their positions, and the hand is on the ring.  If some frame is tracked, then `victim`
returns from the body of its loop, after it has examined at most one slot more than there
are: it returns a frame that is tracked, whose bit is clear, and the slots before it had
their bits set and have them cleared; the other slots are as before. -/
theorem clock_ring_and_scan (calls : List Call) (hlegal : machine.Legal (∅, {}) calls) :
    ∃ s, machine.run (∅, {}) calls = some (tracked calls, s) ∧ s.RingInv ∧
      (s.ring.map Slot.frame).toFinset = tracked calls ∧
      ((tracked calls).Nonempty → ∃ passed t slot,
        s.scan (s.ring.length * 2) = some (passed ++ [t.hand], t) ∧
        (passed ++ [t.hand]).length ≤ s.ring.length + 1 ∧
        s.victim = some (slot.frame, t) ∧ slot.frame ∈ tracked calls ∧
        t.ring[t.hand]? = some slot ∧ slot.ref = false ∧ Cleared s t passed) := by
  obtain ⟨⟨F, s⟩, hrun, hinv⟩ := hlegal.invariant (fun x call => Tracks.step) tracks_start
  obtain rfl : F = tracked calls := run_fst hrun
  replace hinv : Tracks (tracked calls) s := hinv
  refine ⟨s, hrun, hinv.ringInv, hinv.toFinset_frames, fun hne => ?_⟩
  obtain ⟨passed, t, slot, hscan, hle, hrest⟩ := hinv.victim hne
  refine ⟨passed, t, slot, hscan, ?_, hrest⟩
  rw [List.length_append, List.length_singleton]
  omega

/-- Three frames; the hand makes a full turn, the last slot and one in the middle are
removed, and a frame that is not tracked is evicted and accessed. -/
def threeFrames : List Call :=
  [.onLoad 7, .onLoad 4, .onLoad 9, .victim, .onAccess 4, .onEvict 9, .onLoad 2, .onEvict 7,
    .onEvict 5, .onAccess 5, .victim]

/-- Two frames are left on the ring, and the next victim is one of them. -/
theorem threeFrames_ring_and_scan :
    ∃ s, machine.run (∅, {}) threeFrames = some ({2, 4}, s) ∧ s.RingInv ∧
      (s.ring.map Slot.frame).toFinset = {2, 4} ∧
      ∃ (passed : List ℕ) (t : ClockReplacement) (slot : Slot),
        s.scan (s.ring.length * 2) = some (passed ++ [t.hand], t) ∧
        s.victim = some (slot.frame, t) ∧ slot.frame ∈ ({2, 4} : Finset ℕ) ∧ slot.ref = false ∧
        Cleared s t passed := by
  obtain ⟨s, hrun, hinv, hframes, hscan⟩ := clock_ring_and_scan threeFrames (by decide +kernel)
  have htracked : tracked threeFrames = {2, 4} := by decide
  rw [htracked] at hrun hframes hscan
  obtain ⟨passed, t, slot, hloop, -, hvictim, hmem, -, hclear, hcleared⟩ := hscan (by decide)
  exact ⟨s, hrun, hinv, hframes, passed, t, slot, hloop, hvictim, hmem, hclear, hcleared⟩

end ClockReplacement

end Memlab
