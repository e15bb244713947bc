/-
# Clock replacement

The ring of the policy, read from the hand on, is the circle of the second-chance
algorithm, and the sweep of `victim` moves the hand as the algorithm does
(`victim_circle`).  But then `onEvict` puts the last slot in the place of the victim and
`onLoad` appends the new page, where second chance leaves the other places alone and puts
the new page into the place of the victim.

With one or two frames this comes to the same (`View.step`).  With more, the first
eviction agrees, and after it the circle is out of order: on the trace `0, 1, ..., n + 1`
the second victim is page `n - 1` instead of page 1.
-/
import MemoryAllocator.VmOptimal

namespace Memlab

open Paging (firsts SingleEviction advanceHand chanceStep chanceRun)

namespace ClockReplacement

variable {s t : ClockReplacement}

/-! ## The ring as a circle -/

/-- The frames with their bits, from the hand on. -/
def circle (s : ClockReplacement) : List (ℕ × Bool) :=
  (s.ring.drop s.hand ++ s.ring.take s.hand).map (fun slot => (slot.frame, slot.ref))

theorem circle_perm (s : ClockReplacement) :
    s.circle.Perm (s.ring.map (fun slot => (slot.frame, slot.ref))) := by
  apply List.Perm.map _
  rw [List.perm_append_comm.congr_left, List.take_append_drop]

theorem length_circle (s : ClockReplacement) : s.circle.length = s.ring.length := by
  rw [s.circle_perm.length_eq, List.length_map]

theorem circle_of_hand_zero (h : s.hand = 0) :
    s.circle = s.ring.map (fun slot => (slot.frame, slot.ref)) := by
  rw [circle, h, List.drop_zero, List.take_zero, List.append_nil]

/-- The hand is on the first slot of the circle. -/
theorem circle_eq_cons {slot : Slot} (h : s.ring[s.hand]? = some slot) :
    s.circle = (slot.frame, slot.ref) ::
      (s.ring.drop (s.hand + 1) ++ s.ring.take s.hand).map (fun slot => (slot.frame, slot.ref)) := by
  obtain ⟨hlt, rfl⟩ := List.getElem?_eq_some_iff.mp h
  rw [circle, List.drop_eq_getElem_cons hlt]
  rfl

/-- Changing the slot under the hand and advancing. -/
theorem circle_advance {slot : Slot} (h : s.ring[s.hand]? = some slot) (slot' : Slot) :
    circle { s with ring := s.ring.set s.hand slot', hand := (s.hand + 1) % s.ring.length }
      = s.circle.tail ++ [(slot'.frame, slot'.ref)] := by
  obtain ⟨hlt, -⟩ := List.getElem?_eq_some_iff.mp h
  rw [circle_eq_cons h, List.tail_cons, circle, List.set_eq_take_append_cons_drop, if_pos hlt]
  dsimp only
  have htake : (s.ring.take s.hand).length = s.hand := by
    rw [List.length_take]
    omega
  by_cases hwrap : s.hand + 1 = s.ring.length
  · rw [hwrap, Nat.mod_self, List.drop_zero, List.take_zero, List.append_nil,
      List.drop_eq_nil_of_le (le_refl s.ring.length)]
    simp
  · rw [Nat.mod_eq_of_lt (by omega)]
    have hdrop : (s.ring.take s.hand ++ slot' :: s.ring.drop (s.hand + 1)).drop (s.hand + 1)
        = s.ring.drop (s.hand + 1) := by
      rw [List.drop_append, htake, List.drop_eq_nil_of_le (by omega), Nat.add_sub_cancel_left]
      rfl
    have htake' : (s.ring.take s.hand ++ slot' :: s.ring.drop (s.hand + 1)).take (s.hand + 1)
        = s.ring.take s.hand ++ [slot'] := by
      rw [List.take_append, htake, List.take_of_length_le (by omega), Nat.add_sub_cancel_left]
      rfl
    rw [hdrop, htake']
    simp

/-- One round of the sweep, over a set bit. -/
theorem sweep_of_set {x : ℕ × Bool} {rest : List (ℕ × Bool)} (hcircle : s.circle = x :: rest)
    (hx : x.2 = true) (hhand : s.hand < s.ring.length) (tries : ℕ) :
    ∃ t : ClockReplacement, s.sweep (tries + 1) = t.sweep tries ∧
      t.circle = rest ++ [(x.1, false)] ∧ t.hand = (s.hand + 1) % s.ring.length ∧
      t.ring.length = s.ring.length ∧ t.frameIdx = s.frameIdx := by
  have hslot := List.getElem?_eq_getElem hhand
  have hcons := circle_eq_cons hslot
  rw [hcircle, List.cons.injEq] at hcons
  obtain ⟨rfl, -⟩ := hcons
  refine ⟨{ s with
    ring := s.ring.set s.hand { s.ring[s.hand] with ref := false }
    hand := (s.hand + 1) % s.ring.length }, ?_, ?_, rfl, List.length_set, rfl⟩
  · rw [sweep, hslot]
    dsimp only
    rw [if_neg (by simpa using hx)]
  · rw [circle_advance hslot, hcircle, List.tail_cons]

/-- The sweep goes to the first clear bit of the circle and clears the bits before it. -/
theorem sweep_circle {passed rest : List (ℕ × Bool)} {x : ℕ × Bool} {tries : ℕ}
    (hcircle : s.circle = passed ++ x :: rest) (hset : ∀ y ∈ passed, y.2 = true)
    (hx : x.2 = false) (hhand : s.hand < s.ring.length) (htries : passed.length ≤ tries) :
    ∃ t, s.sweep tries = some (x.1, t) ∧
      t.circle = x :: rest ++ passed.map (fun y => (y.1, false)) ∧
      t.hand = (s.hand + passed.length) % s.ring.length ∧ t.frameIdx = s.frameIdx := by
  induction passed generalizing s rest tries with
  | nil =>
    have hslot := List.getElem?_eq_getElem hhand
    have hcons := circle_eq_cons hslot
    rw [hcircle, List.nil_append, List.cons.injEq] at hcons
    obtain ⟨rfl, -⟩ := hcons
    refine ⟨s, ?_, by simpa using hcircle, by simpa using (Nat.mod_eq_of_lt hhand).symm, rfl⟩
    cases tries with
    | zero =>
      rw [sweep, hslot]
      rfl
    | succ tries =>
      rw [sweep, hslot]
      exact if_pos hx
  | cons y passed ih =>
    rw [List.length_cons] at htries
    rw [List.cons_append] at hcircle
    obtain ⟨k, rfl⟩ : ∃ k, tries = k + 1 := ⟨tries - 1, by omega⟩
    obtain ⟨u, hround, hu, huhand, hulen, huidx⟩ :=
      sweep_of_set hcircle (hset y (List.mem_cons_self ..)) hhand k
    rw [List.append_assoc, List.cons_append] at hu
    obtain ⟨t, hsweep, ht, hthand, hidx⟩ := ih hu (fun z hz => hset z (List.mem_cons_of_mem _ hz))
      (by rw [huhand, hulen]; exact Nat.mod_lt _ (by omega)) (Nat.le_of_succ_le_succ htries)
    refine ⟨t, hround.trans hsweep, ?_, ?_, hidx.trans huidx⟩
    · rw [ht]
      simp
    · rw [hthand, huhand, hulen, List.length_cons, Nat.mod_add_mod, Nat.add_right_comm,
        Nat.add_assoc]

/-- With all bits set, the sweep makes a full turn. -/
theorem sweep_turn {x : ℕ × Bool} {rest : List (ℕ × Bool)} {tries : ℕ}
    (hcircle : s.circle = x :: rest) (hset : ∀ y ∈ x :: rest, y.2 = true)
    (hhand : s.hand < s.ring.length) (htries : s.ring.length ≤ tries) :
    ∃ t, s.sweep tries = some (x.1, t) ∧
      t.circle = (x.1, false) :: rest.map (fun y => (y.1, false)) ∧ t.hand = s.hand ∧
      t.frameIdx = s.frameIdx := by
  have hlen := length_circle s
  rw [hcircle, List.length_cons] at hlen
  obtain ⟨k, rfl⟩ : ∃ k, tries = k + 1 := ⟨tries - 1, by omega⟩
  obtain ⟨u, hround, hu, huhand, hulen, huidx⟩ :=
    sweep_of_set hcircle (hset x (List.mem_cons_self ..)) hhand k
  obtain ⟨t, hsweep, ht, hthand, hidx⟩ := sweep_circle (s := u) hu
    (fun z hz => hset z (List.mem_cons_of_mem _ hz)) rfl
    (by rw [huhand, hulen]; exact Nat.mod_lt _ (by omega)) (show rest.length ≤ k by omega)
  refine ⟨t, hround.trans hsweep, ht, ?_, hidx.trans huidx⟩
  rw [hthand, huhand, hulen, Nat.mod_add_mod, Nat.add_assoc, Nat.add_comm 1, hlen,
    Nat.add_mod_right, Nat.mod_eq_of_lt hhand]

/-- **`victim` moves the hand as second chance does.** -/
theorem victim_circle (hhand : s.hand < s.ring.length) :
    ∃ x rest t, s.victim = some (x.1, t) ∧ advanceHand s.circle = x :: rest ∧
      t.circle = x :: rest ∧ t.frameIdx = s.frameIdx := by
  have hlen := length_circle s
  have hsplit : s.circle.takeWhile (fun x => x.2) ++ s.circle.dropWhile (fun x => x.2) = s.circle :=
    List.takeWhile_append_dropWhile
  have hset : ∀ y ∈ s.circle.takeWhile (fun x => x.2), y.2 = true := fun y hy =>
    List.mem_takeWhile_imp hy
  have hle : (s.circle.takeWhile (fun x => x.2)).length ≤ s.ring.length := by
    rw [← hlen, ← congrArg List.length hsplit, List.length_append]
    omega
  cases hdrop : s.circle.dropWhile (fun x => x.2) with
  | cons x rest =>
    have hx : x.2 = false := by
      have hhead := List.head?_dropWhile_not (fun x : ℕ × Bool => x.2) s.circle
      rw [hdrop] at hhead
      simpa using hhead
    rw [hdrop] at hsplit
    obtain ⟨t, hsweep, ht, -, hidx⟩ := sweep_circle hsplit.symm hset hx hhand
      (show _ ≤ s.ring.length * 2 by omega)
    refine ⟨x, rest ++ (s.circle.takeWhile (fun x => x.2)).map (fun y => (y.1, false)), t, hsweep,
      ?_, ht, hidx⟩
    rw [advanceHand, hdrop]
    rfl
  | nil =>
    rw [hdrop, List.append_nil] at hsplit
    rw [hsplit] at hset
    cases hcircle : s.circle with
    | nil =>
      rw [hcircle, List.length_nil] at hlen
      omega
    | cons x rest =>
      rw [hcircle] at hset
      obtain ⟨t, hsweep, ht, -, hidx⟩ := sweep_turn hcircle hset hhand
        (show _ ≤ s.ring.length * 2 by omega)
      refine ⟨(x.1, false), rest.map (fun y => (y.1, false)), t, hsweep, ?_, ht, hidx⟩
      rw [← hcircle, advanceHand, hdrop, hsplit, hcircle]
      rfl

/-- The frames of the circle are those of the ring. -/
theorem map_fst_circle_perm (s : ClockReplacement) :
    (s.circle.map Prod.fst).Perm (s.ring.map Slot.frame) := by
  have hperm := s.circle_perm.map Prod.fst
  rwa [List.map_map] at hperm

variable {F : Finset ℕ} {f : ℕ}

theorem Tracks.nodup_circle (h : Tracks F s) : (s.circle.map Prod.fst).Nodup := by
  rw [s.map_fst_circle_perm.nodup_iff]
  exact h.nodup_frames

theorem Tracks.mem_circle (h : Tracks F s) (f : ℕ) : f ∈ s.circle.map Prod.fst ↔ f ∈ F := by
  rw [s.map_fst_circle_perm.mem_iff, h.mem_ring]

theorem Tracks.length_ring (h : Tracks F s) : s.ring.length = F.card := by
  have hframes : (s.circle.map Prod.fst).toFinset = F := by
    ext f
    rw [List.mem_toFinset, h.mem_circle]
  rw [← length_circle, ← List.length_map (f := Prod.fst), ← hframes,
    List.toFinset_card_of_nodup h.nodup_circle]

/-- An access sets the bit of its frame. -/
theorem Tracks.circle_onAccess (h : Tracks F s) (hf : f ∈ F) :
    (s.onAccess f).circle = s.circle.map (fun x => if x.1 = f then (f, true) else x) := by
  obtain ⟨i, hi⟩ := List.mem_iff_getElem?.mp ((h.mem_ring f).mpr hf)
  have hidx := (h.frameIdx_eq f i).mpr hi
  have hring : s.ring.modify i (fun slot => { slot with ref := true })
      = s.ring.map (fun slot => if slot.frame = f then { slot with ref := true } else slot) := by
    apply List.ext_getElem?
    intro j
    rw [List.getElem?_modify, List.getElem?_map]
    cases hj : s.ring[j]? with
    | none => rfl
    | some slot =>
      have hframe := h.frameIdx_eq slot.frame j
      rw [List.getElem?_map, hj] at hframe
      -- the place of a frame is unique
      have hiff : i = j ↔ slot.frame = f := by
        constructor
        · rintro rfl
          rw [List.getElem?_map, hj] at hi
          exact Option.some.inj hi
        · intro heq
          have hsome := hframe.mpr rfl
          rw [heq, hidx] at hsome
          exact Option.some.inj hsome
      by_cases hij : i = j
      · simp [hij, hiff.mp hij]
      · have hne : slot.frame ≠ f := fun heq => hij (hiff.mpr heq)
        simp [hij, hne]
  rw [ClockReplacement.onAccess, hidx]
  show ((s.ring.modify i _).drop s.hand ++ (s.ring.modify i _).take s.hand).map _ = _
  rw [hring, ← List.map_drop, ← List.map_take, ← List.map_append, List.map_map, circle, List.map_map]
  apply List.map_congr_left
  intro slot _
  by_cases hslot : slot.frame = f
  · simp [hslot]
  · simp [hslot]

/-- **Replacement in a ring of at most two slots** puts the new page behind the other one. -/
theorem circle_replace (hlen : s.ring.length ≤ 2) (hhand : s.hand < s.ring.length)
    {rest : List (ℕ × Bool)} {x : ℕ × Bool} (hcircle : s.circle = x :: rest)
    (hidx : s.frameIdx x.1 = some s.hand) :
    ((s.onEvict x.1).onLoad x.1).circle = rest ++ [(x.1, true)] := by
  obtain ⟨ring, frameIdx, hand⟩ := s
  dsimp only at hlen hhand hidx
  unfold onEvict
  dsimp only
  rw [hidx]
  match ring with
  | [] => simp at hhand
  | [a] =>
    obtain rfl : hand = 0 := by simpa using hhand
    obtain ⟨rfl, rfl⟩ : (a.frame, a.ref) = x ∧ [] = rest := by simpa [circle] using hcircle
    simp [circle, onLoad]
  | [a, b] =>
    rw [List.length_cons, List.length_singleton] at hhand
    rcases (show hand = 0 ∨ hand = 1 by omega) with rfl | rfl
    · obtain ⟨rfl, rfl⟩ : (a.frame, a.ref) = x ∧ [(b.frame, b.ref)] = rest := by
        simpa [circle] using hcircle
      simp [circle, onLoad]
    · obtain ⟨rfl, rfl⟩ : (b.frame, b.ref) = x ∧ [(a.frame, a.ref)] = rest := by
        simpa [circle] using hcircle
      simp [circle, onLoad]
  | a :: b :: c :: ring =>
    simp at hlen

/-! ## The circle of pages -/

variable {α : Type*} [DecidableEq α] {refs : List α} {outs : List (Paging.Outcome α)} {n : ℕ}
  {s t : Paging.Pager α ClockReplacement}

/-- With the frames read as pages, the circle of the policy is that of second chance; and
the hand has not moved while there are free frames. -/
structure View (n : ℕ) (refs : List α) (s : Paging.Pager α ClockReplacement) : Prop where
  circle_eq : s.policy.circle.map (fun x => (s.slots x.1, x.2))
    = (chanceRun n refs).1.map (fun x => (some x.1, x.2))
  hand_eq : s.free ≠ [] → s.policy.hand = 0

theorem View.length_eq (h : View n refs s) (hF : s.Covered n Tracks F) :
    (chanceRun n refs).1.length + s.free.length = n := by
  have hlen := congrArg List.length h.circle_eq
  rw [List.length_map, List.length_map, length_circle, hF.tracked.length_ring] at hlen
  rw [← hlen]
  exact hF.card_add

theorem View.holds_iff (h : View n refs s) (hF : s.Covered n Tracks F) (p : α) :
    s.Holds p ↔ p ∈ (chanceRun n refs).1.map Prod.fst := by
  have hpages : s.policy.circle.map (fun x => s.slots x.1)
      = (chanceRun n refs).1.map (fun x => some x.1) := by
    have hfst := congrArg (List.map Prod.fst) h.circle_eq
    rwa [List.map_map, List.map_map] at hfst
  have hmem : some p ∈ s.policy.circle.map (fun x => s.slots x.1)
      ↔ p ∈ (chanceRun n refs).1.map Prod.fst := by
    rw [hpages]
    simp
  rw [← hmem, List.mem_map]
  constructor
  · rintro ⟨f, hf⟩
    obtain ⟨x, hx, rfl⟩ := List.mem_map.mp
      ((hF.tracked.mem_circle f).mpr ((hF.mem_iff f).mpr ⟨p, hf⟩))
    exact ⟨x, hx, hf⟩
  · rintro ⟨x, -, hx⟩
    exact ⟨x.1, hx⟩

omit [DecidableEq α] in
/-- Places whose frame is left alone. -/
theorem map_update_of_notMem {circle : List (ℕ × Bool)} (slots : ℕ → Option α) (p : α)
    (hf : f ∉ circle.map Prod.fst) :
    circle.map (fun x => (Function.update slots f (some p) x.1, x.2))
      = circle.map (fun x => (slots x.1, x.2)) := by
  apply List.map_congr_left
  intro x hx
  have hne : x.1 ≠ f := by
    rintro rfl
    exact hf (List.mem_map_of_mem hx)
  rw [Function.update_of_ne hne]

theorem View.hit (h : View n refs s) (hF : s.Covered n Tracks F) {p : α} (hf : s.slots f = some p) :
    View n (refs ++ [p]) { s with policy := s.policy.onAccess f } ∧
      (chanceStep n (chanceRun n refs).1 p).2 = none := by
  have hmem : f ∈ F := (hF.mem_iff f).mpr ⟨p, hf⟩
  have hp : p ∈ (chanceRun n refs).1.map Prod.fst := (h.holds_iff hF p).mp ⟨f, hf⟩
  refine ⟨⟨?_, fun hfree => ?_⟩, by rw [chanceStep, if_pos hp]⟩
  · show (s.policy.onAccess f).circle.map (fun x => (s.slots x.1, x.2)) = _
    rw [Paging.chanceRun_append, chanceStep, if_pos hp, hF.tracked.circle_onAccess hmem]
    dsimp only
    -- both sides set the bit of `p` in the common image
    obtain ⟨φ, hφ⟩ : ∃ φ : Option α × Bool → Option α × Bool,
        ∀ q b, φ (q, b) = if q = some p then (some p, true) else (q, b) :=
      ⟨fun z => if z.1 = some p then (some p, true) else z, fun _ _ => rfl⟩
    have hcode : ∀ x : ℕ × Bool, (s.slots (if x.1 = f then (f, true) else x).1,
        (if x.1 = f then (f, true) else x).2) = φ (s.slots x.1, x.2) := by
      intro x
      rw [hφ]
      by_cases hx : x.1 = f
      · simp [hx, hf]
      · have hne : s.slots x.1 ≠ some p := fun heq => hx (hF.inj x.1 f p heq hf)
        simp [hx, hne]
    have habs : ∀ x : α × Bool, (some (if x.1 = p then (p, true) else x).1,
        (if x.1 = p then (p, true) else x).2) = φ (some x.1, x.2) := by
      intro x
      rw [hφ]
      by_cases hx : x.1 = p
      · simp [hx]
      · simp [hx]
    rw [List.map_map, List.map_map]
    calc _ = (s.policy.circle.map (fun x => (s.slots x.1, x.2))).map φ := by
            rw [List.map_map]
            exact List.map_congr_left (fun x _ => hcode x)
      _ = ((chanceRun n refs).1.map (fun x => (some x.1, x.2))).map φ := by rw [h.circle_eq]
      _ = _ := by
            rw [List.map_map]
            exact List.map_congr_left (fun x _ => (habs x).symm)
  · show (s.policy.onAccess f).hand = 0
    unfold onAccess
    split
    · exact h.hand_eq hfree
    · exact h.hand_eq hfree

theorem View.load (h : View n refs s) (hF : s.Covered n Tracks F) {p : α} {free : List ℕ}
    (hp : ¬ s.Holds p) (hfree : s.free = f :: free) :
    View n (refs ++ [p])
      { slots := Function.update s.slots f (some p), free := free
        policy := s.policy.onLoad f } ∧
      (chanceStep n (chanceRun n refs).1 p).2 = none := by
  have hlen := h.length_eq hF
  rw [hfree, List.length_cons] at hlen
  have hhand : s.policy.hand = 0 := h.hand_eq (by rw [hfree]; simp)
  have hstep : chanceStep n (chanceRun n refs).1 p = ((chanceRun n refs).1 ++ [(p, true)], none) := by
    rw [chanceStep, if_neg (fun hin => hp ((h.holds_iff hF p).mpr hin)), if_pos (by omega)]
  have hnot : f ∉ s.policy.circle.map Prod.fst := by
    rw [hF.tracked.mem_circle, hF.mem_iff,
      hF.free_empty f (by rw [hfree]; exact List.mem_cons_self ..)]
    simp
  refine ⟨⟨?_, fun _ => hhand⟩, by rw [hstep]⟩
  have hcircle : (s.policy.onLoad f).circle = s.policy.circle ++ [(f, true)] := by
    rw [circle_of_hand_zero hhand, circle_of_hand_zero (s := s.policy.onLoad f) hhand, onLoad,
      List.map_append]
    rfl
  show (s.policy.onLoad f).circle.map
    (fun x => (Function.update s.slots f (some p) x.1, x.2)) = _
  rw [hcircle, List.map_append, map_update_of_notMem _ _ hnot, h.circle_eq,
    Paging.chanceRun_append, hstep, List.map_append]
  simp

theorem View.replace (hn : n ≤ 2) (h : View n refs s) (hF : s.Covered n Tracks F) {p : α}
    {π : ClockReplacement} (hp : ¬ s.Holds p) (hfree : s.free = [])
    (hvictim : s.policy.victim = some (f, π)) :
    View n (refs ++ [p])
      { slots := Function.update s.slots f (some p), free := []
        policy := (π.onEvict f).onLoad f } ∧
      (chanceStep n (chanceRun n refs).1 p).2 = s.slots f := by
  have hlen := h.length_eq hF
  have hcard := hF.card_add
  rw [hfree, List.length_nil, Nat.add_zero] at hlen hcard
  have hring := hF.tracked.length_ring
  have hpos : 0 < n := by
    by_contra hzero
    have hempty : s.policy.ring = [] := List.length_eq_zero_iff.mp (by omega)
    have hnone : s.policy.victim = none := by
      rw [victim, hempty]
      simp [sweep, hempty]
    rw [hnone] at hvictim
    simp at hvictim
  have hhand : s.policy.hand < s.policy.ring.length := by
    have := hF.tracked.hand_lt
    omega
  -- the hand goes to the same place
  obtain ⟨x, rest, t, hsweep, hadvance, ht, -⟩ := victim_circle hhand
  obtain ⟨rfl, rfl⟩ : x.1 = f ∧ t = π := by simpa using hsweep.symm.trans hvictim
  have hviews := Paging.advanceHand_map s.slots s.policy.circle
  rw [h.circle_eq, Paging.advanceHand_map some, hadvance, List.map_cons] at hviews
  obtain ⟨y, rest', hadvance', hy, hrest⟩ := List.map_eq_cons_iff.mp hviews
  have hstep : chanceStep n (chanceRun n refs).1 p = (rest' ++ [(p, true)], some y.1) := by
    rw [chanceStep, if_neg (fun hin => hp ((h.holds_iff hF p).mpr hin)), if_neg (by omega), hadvance']
  -- the policy has the victim under the hand
  obtain ⟨f, π, hvictim', -, htracks⟩ := hF.victim tracks hpos hfree
  obtain ⟨rfl, rfl⟩ : f = x.1 ∧ π = t := by simpa using hvictim'.symm.trans hvictim
  have hring' := htracks.length_ring
  have hhand' : π.hand < π.ring.length := by
    have := htracks.hand_lt
    omega
  have hslot := List.getElem?_eq_getElem hhand'
  have hidx : π.frameIdx x.1 = some π.hand := by
    have hcons := circle_eq_cons hslot
    rw [ht, List.cons.injEq] at hcons
    rw [hcons.1, htracks.frameIdx_eq, List.getElem?_map, hslot]
    rfl
  have hcircle := circle_replace (by omega) hhand' ht hidx
  have hnot : x.1 ∉ rest.map Prod.fst := by
    have hnodup := htracks.nodup_circle
    rw [ht, List.map_cons, List.nodup_cons] at hnodup
    exact hnodup.1
  refine ⟨⟨?_, fun hne => absurd rfl hne⟩, ?_⟩
  · show ((π.onEvict x.1).onLoad x.1).circle.map
      (fun z => (Function.update s.slots x.1 (some p) z.1, z.2)) = _
    rw [hcircle, List.map_append, map_update_of_notMem _ _ hnot, ← hrest, Paging.chanceRun_append,
      hstep, List.map_append]
    simp
  · rw [hstep]
    exact (Prod.mk.inj hy).1

/-- **One reference**, with at most two frames. -/
theorem View.step (hn : n ≤ 2) (h : View n refs s) (hF : s.Covered n Tracks F) {p : α}
    {o : Paging.Outcome α} (hstep : Paging.Step policy.toPolicy s p o t) :
    View n (refs ++ [p]) t ∧ (chanceStep n (chanceRun n refs).1 p).2 = o.evicted := by
  cases hstep with
  | hit hf => exact h.hit hF hf
  | load hp hfree => exact h.load hF hp hfree
  | replace hp hfree hvictim => exact h.replace hn hF hp hfree hvictim

theorem tracks_initial : Tracks ∅ {} := PolicyKind.tracks_initial .clock

/-- **With at most two frames, the policy is second chance.** -/
theorem evictions_of_le_two (hpos : 0 < n) (hn : n ≤ 2)
    (h : Paging.Run policy.toPolicy (Paging.Pager.start n ({} : ClockReplacement)) refs outs s) :
    View n refs s ∧ Paging.evictions outs = (chanceRun n refs).2 := by
  induction h with
  | nil => exact ⟨⟨rfl, fun _ => rfl⟩, rfl⟩
  | snoc hrun hstep ih =>
    obtain ⟨F, hF⟩ := hrun.covered tracks hpos tracks_initial
    obtain ⟨hview, hevicted⟩ := ih.1.step hn hF hstep
    refine ⟨hview, ?_⟩
    rw [Paging.evictions_append, ih.2, Paging.chanceRun_append, hevicted]

/-! ## The first eviction -/

/-- As long as the frames last, the slots are in the order of their frames, their bits are
set and the hand has not moved. -/
theorem fresh_run
    (h : Paging.Run policy.toPolicy (Paging.Pager.start n ({} : ClockReplacement)) refs outs s)
    (hle : (firsts refs).length ≤ n) :
    s.policy.ring = (List.range (firsts refs).length).map (fun f => ⟨f, true⟩) ∧
      s.policy.hand = 0 := by
  induction h with
  | nil => exact ⟨rfl, rfl⟩
  | @snoc refs outs s t p o hrun hstep ih =>
    have hmono := (Paging.length_firsts_le_append refs [p]).trans hle
    obtain ⟨hring, hhand⟩ := ih hmono
    obtain ⟨-, hfree, -⟩ := hrun.fill hmono
    have hholds := hrun.holds_iff_of_fill hmono p
    cases hstep with
    | @hit f hf =>
      rw [Paging.firsts_append_of_mem (hholds.mp ⟨_, hf⟩)]
      show (s.policy.onAccess f).ring = _ ∧ (s.policy.onAccess f).hand = 0
      unfold onAccess
      split
      · exact ⟨hring, hhand⟩
      · next i hi =>
        refine ⟨?_, hhand⟩
        -- the bit is set already
        rw [← hring]
        apply List.ext_getElem?
        intro j
        rw [List.getElem?_modify]
        cases hj : s.policy.ring[j]? with
        | none => rfl
        | some slot =>
          have hmem := List.mem_of_getElem? hj
          rw [hring] at hmem
          obtain ⟨g, -, rfl⟩ := List.mem_map.mp hmem
          by_cases hij : i = j
          · simp [hij]
          · simp [hij]
    | @load f free hp hcons =>
      rw [Paging.firsts_append_of_notMem (fun hmem => hp (hholds.mpr hmem)), List.length_append,
        List.length_singleton] at hle ⊢
      rw [hfree, List.drop_eq_getElem_cons (by rw [List.length_range]; omega), List.getElem_range,
        List.cons.injEq] at hcons
      obtain ⟨rfl, -⟩ := hcons
      refine ⟨?_, hhand⟩
      show s.policy.ring ++ [_] = _
      rw [hring, List.range_succ, List.map_append, List.map_singleton]
    | @replace f π hp hnil hvictim =>
      rw [Paging.firsts_append_of_notMem (fun hmem => hp (hholds.mpr hmem)), List.length_append,
        List.length_singleton] at hle
      rw [hfree, List.drop_eq_nil_iff, List.length_range] at hnil
      omega

/-- The first victim is frame 0, after a full turn of the hand. -/
theorem victim_fresh (hn : 0 < n) {s : ClockReplacement}
    (hring : s.ring = (List.range n).map (fun f => ⟨f, true⟩)) (hhand : s.hand = 0) :
    ∃ t, s.victim = some (0, t) ∧ t.ring = (List.range n).map (fun f => ⟨f, false⟩) ∧
      t.hand = 0 := by
  obtain ⟨m, rfl⟩ : ∃ m, n = m + 1 := ⟨n - 1, by omega⟩
  have hcircle : s.circle = (0, true) :: ((List.range m).map Nat.succ).map (fun f => (f, true)) := by
    rw [circle_of_hand_zero hhand, hring, List.map_map, List.range_succ_eq_map, List.map_cons]
    rfl
  obtain ⟨t, hsweep, ht, hthand, -⟩ := sweep_turn hcircle (by simp)
    (by simp [hhand, hring]) (show _ ≤ s.ring.length * 2 by omega)
  refine ⟨t, hsweep, ?_, hthand.trans hhand⟩
  have hinj : Function.Injective (fun slot : Slot => (slot.frame, slot.ref)) := by
    rintro ⟨f, b⟩ ⟨g, c⟩ heq
    simpa using heq
  apply List.map_injective_iff.mpr hinj
  rw [← circle_of_hand_zero (hthand.trans hhand), ht, List.range_succ_eq_map]
  simp

theorem firstOut (hn : 0 < n) : Paging.FirstOut policy.toPolicy ({} : ClockReplacement) n α := by
  intro refs outs s hrun hlen f π hvictim
  obtain ⟨hring, hhand⟩ := fresh_run hrun hlen.le
  rw [hlen] at hring
  obtain ⟨t, ht, -⟩ := victim_fresh hn hring hhand
  have heq := ht.symm.trans hvictim
  exact (Prod.mk.inj (Option.some.inj heq)).1.symm

/-! ## The second eviction -/

/-- After the first eviction, the last slot is under the hand. -/
theorem victim_second (hn : 2 ≤ n) {s : ClockReplacement}
    (hring : s.ring = (List.range n).map (fun f => ⟨f, false⟩)) (hhand : s.hand = 0)
    (hidx : s.frameIdx 0 = some 0) :
    ∃ t, ((s.onEvict 0).onLoad 0).victim = some (n - 1, t) := by
  obtain ⟨m, rfl⟩ : ∃ m, n = m + 2 := ⟨n - 2, by omega⟩
  have hlast : s.ring.getLast? = some ⟨m + 1, false⟩ := by
    rw [hring, List.range_succ, List.map_append, List.map_singleton, List.getLast?_concat]
  have hcons : s.ring.set 0 ⟨m + 1, false⟩ = ⟨m + 1, false⟩ :: s.ring.tail := by
    rw [hring, List.range_succ_eq_map]
    rfl
  have htail : s.ring.tail ≠ [] := by
    rw [hring, List.range_succ_eq_map, List.range_succ_eq_map]
    simp
  have hevict : (s.onEvict 0).ring = ⟨m + 1, false⟩ :: s.ring.tail.dropLast ∧
      (s.onEvict 0).hand = 0 := by
    rw [onEvict, hidx, hlast]
    dsimp only
    rw [hcons, List.dropLast_cons_of_ne_nil htail, hhand]
    exact ⟨rfl, ite_self 0⟩
  have hload : ((s.onEvict 0).onLoad 0).ring
      = ⟨m + 1, false⟩ :: (s.ring.tail.dropLast ++ [⟨0, true⟩]) := by
    show (s.onEvict 0).ring ++ [_] = _
    rw [hevict.1]
    rfl
  have hzero : ((s.onEvict 0).onLoad 0).hand = 0 := hevict.2
  refine ⟨(s.onEvict 0).onLoad 0, ?_⟩
  rw [victim, hload, List.length_cons, Nat.add_mul, sweep, hload, hzero]
  rfl

/-- **Pages 0 to `n + 1`**: the second victim is page `n - 1`. -/
theorem evictions_ramp (hn : 3 ≤ n) {pg : ℕ → α} (hpg : Function.Injective pg)
    (h : Paging.Run policy.toPolicy (Paging.Pager.start n ({} : ClockReplacement))
      (((List.range n).map pg ++ [pg n]) ++ [pg (n + 1)]) outs s) :
    Paging.evictions outs = [pg 0, pg (n - 1)] := by
  obtain ⟨outs, o₂, s₁, rfl, h₁, hstep₂⟩ := h.snoc_inv
  obtain ⟨outs, o₁, s₀, rfl, h₀, hstep₁⟩ := h₁.snoc_inv
  have hfirsts : firsts ((List.range n).map pg) = (List.range n).map pg :=
    Paging.firsts_of_nodup (List.nodup_range.map hpg)
  have hlen : (firsts ((List.range n).map pg)).length = n := by simp [hfirsts]
  obtain ⟨hslots, hfree, -⟩ := h₀.fill hlen.le
  obtain ⟨hring, hhand⟩ := fresh_run h₀ hlen.le
  obtain ⟨F, hF⟩ := h₀.covered tracks (by omega) tracks_initial
  rw [hlen, List.drop_eq_nil_of_le (by simp)] at hfree
  rw [hlen] at hring
  have hslot : ∀ f < n, s₀.slots f = some (pg f) := by
    intro f hf
    rw [hslots, hfirsts, List.getElem?_map, List.getElem?_range hf]
    rfl
  have hnew₁ : ¬ s₀.Holds (pg n) := by
    intro hheld
    obtain ⟨m, hm, heq⟩ := List.mem_map.mp (h₀.mem_of_holds hheld)
    obtain rfl := hpg heq
    simp at hm
  have hnew₂ : ¬ s₁.Holds (pg (n + 1)) := by
    intro hheld
    have hmem := h₁.mem_of_holds hheld
    simp only [List.mem_append, List.mem_map, List.mem_range, List.mem_singleton,
      hpg.eq_iff] at hmem
    omega
  rw [Paging.evictions_append, Paging.evictions_append, (h₀.loads_fill hlen.le).2]
  cases hstep₁ with
  | hit hf => exact absurd ⟨_, hf⟩ hnew₁
  | load hp hcons =>
    rw [hfree] at hcons
    simp at hcons
  | @replace f π hp hnil hvictim =>
    -- the first victim
    obtain ⟨t, hvictim', htring, hthand⟩ := victim_fresh (by omega) hring hhand
    obtain ⟨rfl, rfl⟩ : 0 = f ∧ t = π := by simpa using hvictim'.symm.trans hvictim
    obtain ⟨g, π, hvictim'', -, htracks⟩ := hF.victim tracks (by omega) hfree
    obtain ⟨rfl, rfl⟩ : g = 0 ∧ π = t := by simpa using hvictim''.symm.trans hvictim'
    have hidx : π.frameIdx 0 = some 0 := by
      rw [htracks.frameIdx_eq, htring, List.map_map, List.getElem?_map,
        List.getElem?_range (by omega)]
      rfl
    obtain ⟨u, hu⟩ := victim_second (by omega) htring hthand hidx
    cases hstep₂ with
    | hit hf => exact absurd ⟨_, hf⟩ hnew₂
    | load hp hcons => simp at hcons
    | @replace f₂ π₂ hp₂ hnil₂ hvictim₂ =>
      -- the second victim
      obtain ⟨rfl, rfl⟩ : n - 1 = f₂ ∧ u = π₂ := by simpa using hu.symm.trans hvictim₂
      show [] ++ (s₀.slots 0).toList
        ++ (Function.update s₀.slots 0 (some (pg n)) (n - 1)).toList = _
      rw [Function.update_of_ne (by omega), hslot 0 (by omega), hslot (n - 1) (by omega)]
      rfl

/-- Second chance evicts page 1. -/
theorem chanceRun_ramp (hn : 2 ≤ n) {pg : ℕ → α} (hpg : Function.Injective pg) :
    (chanceRun n (((List.range n).map pg ++ [pg n]) ++ [pg (n + 1)])).2 = [pg 0, pg 1] := by
  obtain ⟨m, rfl⟩ : ∃ m, n = m + 2 := ⟨n - 2, by omega⟩
  have hfirsts : firsts ((List.range (m + 2)).map pg) = (List.range (m + 2)).map pg :=
    Paging.firsts_of_nodup (List.nodup_range.map hpg)
  have hrange : (List.range (m + 2)).map pg
      = pg 0 :: pg 1 :: (List.range m).map (fun k => pg (k + 2)) := by
    rw [List.range_succ_eq_map, List.range_succ_eq_map, List.map_cons, List.map_cons, List.map_cons,
      List.map_map, List.map_map]
    rfl
  have hfill : chanceRun (m + 2) ((List.range (m + 2)).map pg)
      = ((List.range (m + 2)).map (fun k => (pg k, true)), []) := by
    rw [Paging.chanceRun_fill (by simp [hfirsts]), hfirsts, List.map_map]
    rfl
  -- a full turn, and page 0 leaves
  have hstep₁ : chanceStep (m + 2) ((List.range (m + 2)).map (fun k => (pg k, true))) (pg (m + 2))
      = ((pg 1, false) :: (List.range m).map (fun k => (pg (k + 2), false)) ++ [(pg (m + 2), true)],
          some (pg 0)) := by
    have hmap : (List.range (m + 2)).map (fun k => (pg k, true))
        = ((List.range (m + 2)).map pg).map (fun q => (q, true)) := by
      rw [List.map_map]
      rfl
    rw [chanceStep, if_neg (by simp [hpg.eq_iff]), if_neg (by simp), hmap,
      Paging.advanceHand_of_set, hrange]
    simp
  -- the bit of page 1 is clear
  have hstep₂ : chanceStep (m + 2)
      ((pg 1, false) :: (List.range m).map (fun k => (pg (k + 2), false)) ++ [(pg (m + 2), true)])
      (pg (m + 3)) = ((List.range m).map (fun k => (pg (k + 2), false)) ++ [(pg (m + 2), true)]
        ++ [(pg (m + 3), true)], some (pg 1)) := by
    rw [chanceStep, if_neg (by simp [hpg.eq_iff]), if_neg (by simp), List.cons_append,
      advanceHand, List.dropWhile_cons_of_neg (by simp), List.takeWhile_cons_of_neg (by simp)]
    simp
  rw [Paging.chanceRun_append, Paging.chanceRun_append, hfill, hstep₁, hstep₂]
  rfl

end ClockReplacement

/-! ## The system -/

namespace VMSystem

variable {σ : Type*} (R : IReplacement σ)

/-- A sequence of calls, with the pages that they evict. -/
def evictionRun (v : VMSystem σ) (ops : List Access) : Option (List Page × VMSystem σ) :=
  ops.foldlM (fun ev op =>
    (access R ev.2 op).map (fun rw => (ev.1 ++ evictedPages ev.2 rw.2, rw.2))) ([], v)

theorem evictionRun_append_singleton (v : VMSystem σ) (ops : List Access) (op : Access) :
    evictionRun R v (ops ++ [op]) = (evictionRun R v ops).bind (fun ev =>
      (access R ev.2 op).map (fun rw => (ev.1 ++ evictedPages ev.2 rw.2, rw.2))) := by
  rw [evictionRun, List.foldlM_append]
  refine congrArg (Option.bind _) (funext fun ev => ?_)
  rw [List.foldlM_cons]
  cases access R ev.2 op with
  | none => rfl
  | some rw => rfl

variable {R}

/-- The pages that the calls evict are those of a run of the pager. -/
theorem evictionRun_eq {n : ℕ} {init : σ} {costs : CostModel} {ops : List Access}
    {rs : List AccessResult} {v : VMSystem σ}
    (h : run R (create n init costs) ops = some (rs, v)) :
    ∃ outs s, RunRefines R n init ops rs v outs s ∧
      evictionRun R (create n init costs) ops = some (Paging.evictions outs, v) := by
  induction ops using List.reverseRecOn generalizing rs v with
  | nil =>
    obtain ⟨rfl, rfl⟩ : [] = rs ∧ create n init costs = v := by simpa [run, runWith] using h
    obtain ⟨outs, s, hv⟩ := run_refines h
    have hnil : outs = [] := List.length_eq_zero_iff.mp hv.run.length_eq
    subst hnil
    exact ⟨[], s, hv, rfl⟩
  | append_singleton ops op ih =>
    obtain ⟨rs', u, r, hrun, haccess, rfl⟩ := run_append_singleton h
    obtain ⟨outs, s, hu, hevictions⟩ := ih hrun
    obtain ⟨o, t, hstep, hv⟩ := hu.access haccess
    refine ⟨outs ++ [o], t, hv, ?_⟩
    rw [evictionRun_append_singleton, hevictions, Option.bind_some, haccess, Option.map_some,
      hu.refines.evictedPages_eq hv.refines hstep, Paging.evictions_append]

end VMSystem

/-- The calls evict the pages that second chance evicts, in the same order. -/
def EvictsLikeSecondChance (frames : ℕ) (costs : CostModel) (ops : List Access) : Prop :=
  ∃ v, VMSystem.evictionRun ClockReplacement.policy (VMSystem.create frames {} costs) ops
    = some ((chanceRun frames (ops.map Access.page)).2, v)

section

variable {frames : ℕ} {costs : CostModel} {ops : List Access}

theorem clock_run (hframes : 1 ≤ frames) (costs : CostModel) (ops : List Access) :
    ∃ outs s v, Paging.Run ClockReplacement.policy.toPolicy
        (Paging.Pager.start frames ({} : ClockReplacement)) (ops.map Access.page) outs s ∧
      VMSystem.evictionRun ClockReplacement.policy (VMSystem.create frames {} costs) ops
        = some (Paging.evictions outs, v) := by
  obtain ⟨rs, v, hrun⟩ := VMSystem.run_returns ClockReplacement.tracks
    ClockReplacement.tracks_initial hframes costs ops
  obtain ⟨outs, s, hv, hevictions⟩ := VMSystem.evictionRun_eq hrun
  exact ⟨outs, s, v, hv.run, hevictions⟩

theorem secondChance_of_le_two (hframes : 1 ≤ frames) (h : frames ≤ 2) :
    EvictsLikeSecondChance frames costs ops := by
  obtain ⟨outs, s, v, hrun, hevictions⟩ := clock_run hframes costs ops
  refine ⟨v, ?_⟩
  rw [hevictions, (ClockReplacement.evictions_of_le_two hframes h hrun).2]

theorem secondChance_of_single (hframes : 1 ≤ frames)
    (h : SingleEviction frames (ops.map Access.page)) :
    EvictsLikeSecondChance frames costs ops := by
  obtain ⟨outs, s, v, hrun, hevictions⟩ := clock_run hframes costs ops
  refine ⟨v, ?_⟩
  rw [hevictions, hrun.evictions_eq_chance hframes (ClockReplacement.firstOut hframes) h]

/-- With three frames or more, the second victim on the pages `0, ..., frames + 1` is not
that of second chance. -/
theorem not_secondChance_ramp (frames : ℕ) (costs : CostModel) (hframes : 3 ≤ frames) :
    ¬ EvictsLikeSecondChance frames costs (reads (List.range (frames + 2))) := by
  rintro ⟨v, hv⟩
  obtain ⟨outs, s, w, hrun, hevictions⟩ :=
    clock_run (show 1 ≤ frames by omega) costs (reads (List.range (frames + 2)))
  have hpages : (reads (List.range (frames + 2))).map Access.page
      = ((List.range frames).map pageOne ++ [pageOne frames]) ++ [pageOne (frames + 1)] := by
    rw [reads, List.map_map, List.range_succ, List.range_succ, List.map_append, List.map_append]
    rfl
  rw [hpages] at hrun hv
  rw [hevictions, ClockReplacement.evictions_ramp hframes pageOne_injective hrun,
    ClockReplacement.chanceRun_ramp (by omega) pageOne_injective] at hv
  have hone : pageOne (frames - 1) = pageOne 1 := by simpa using congrArg (Option.map Prod.fst) hv
  have := pageOne_injective hone
  omega

end

/-- **When the system with Clock replacement is second chance.**  It evicts the same pages
on every sequence of calls exactly if there are at most two frames; and with any number
of frames it does as long as the references make it evict at most once. -/
theorem clock_is_second_chance (frames : ℕ) (costs : CostModel) (hframes : 1 ≤ frames) :
    ((∀ ops, EvictsLikeSecondChance frames costs ops) ↔ frames ≤ 2) ∧
      ∀ ops : List Access, SingleEviction frames (ops.map Access.page) →
        EvictsLikeSecondChance frames costs ops := by
  refine ⟨⟨fun h => ?_, fun h ops => secondChance_of_le_two hframes h⟩,
    fun ops => secondChance_of_single hframes⟩
  by_contra hmore
  exact not_secondChance_ramp frames costs (by omega) (h (reads (List.range (frames + 2))))

/-- Two frames: page 1 is used again, so that all bits are set and the hand makes a full
turn. -/
theorem clock_two_frames :
    (VMSystem.evictionRun ClockReplacement.policy (VMSystem.create 2 {} {})
      (reads [0, 1, 2, 1, 3])).map Prod.fst = some [(1, 0), (1, 1)] ∧
    EvictsLikeSecondChance 2 {} (reads [0, 1, 2, 1, 3]) :=
  ⟨by decide +kernel, (clock_is_second_chance 2 {} (by decide)).1.mpr le_rfl _⟩

/-- Three frames and the pages 0 to 4: the policy evicts page 2 for page 4, and second
chance evicts page 1. -/
theorem clock_three_frames :
    (VMSystem.evictionRun ClockReplacement.policy (VMSystem.create 3 {} {})
      (reads [0, 1, 2, 3, 4])).map Prod.fst = some [(1, 0), (1, 2)] ∧
    (chanceRun 3 ((reads [0, 1, 2, 3, 4]).map Access.page)).2 = [(1, 0), (1, 1)] ∧
    ¬ EvictsLikeSecondChance 3 {} (reads [0, 1, 2, 3, 4]) :=
  ⟨by decide +kernel, by decide +kernel, not_secondChance_ramp 3 {} le_rfl⟩

end Memlab
