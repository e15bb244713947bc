/-
# The levels of the MLFQ policy

The policy keeps a process in two places: in one of three queues, and in the map from
pids to levels.  In the source a level is an `int`, and a queue is found by indexing with
it; `MLFQ.Unchecked` keeps both as they are, so that an index out of range is undefined,
and `MLFQ` of the simulator, whose levels are in range by their type, refines it.

`mlfq_levels_agree` says that queues and levels agree in every state that the calls of a
simulator can reach, and `mlfq_boost_reaches_iff` which processes the periodic boost takes
back to the first level.
-/
import MemoryAllocator.GuardedMachine
import MemoryAllocator.SimPolicies

namespace Memlab

variable {n : ℕ}

namespace MLFQ

/-! ## Levels as the source declares them -/

/-- The queues and the levels of the source: a level is an `int`. -/
structure Unchecked (n : ℕ) where
  qbase : ℕ
  boostInterval : ℕ
  queues : Fin 3 → List (Fin n) := fun _ => []
  level : ℤ → Option ℤ := fun _ => none

/-- Where `_queues[lvl]` is defined. -/
def queueIndex (lvl : ℤ) : Option (Fin 3) :=
  if h : 0 ≤ lvl ∧ lvl < 3 then some ⟨lvl.toNat, by omega⟩ else none

namespace Unchecked

def levelOf (procs : Fin n → Process) (s : Unchecked n) (p : Fin n) : ℤ :=
  (s.level (procs p).pid).getD 0

/-- Append a process to one of the queues. -/
def pushBack (q : Fin 3) (p : Fin n) (s : Unchecked n) : Unchecked n :=
  { s with queues := Function.update s.queues q (s.queues q ++ [p]) }

/-- `_queues[lvl].push_back(p)`. -/
def pushLevel (lvl : ℤ) (p : Fin n) (s : Unchecked n) : Option (Unchecked n) :=
  (queueIndex lvl).map (fun q => s.pushBack q p)

def add (procs : Fin n → Process) (p : Fin n) (s : Unchecked n) : Unchecked n :=
  pushBack 0 p { s with level := Function.update s.level (procs p).pid (some 0) }

def pickNext (s : Unchecked n) : Option (Fin n) × Unchecked n :=
  match (List.finRange 3).find? (fun q => s.queues q ≠ []) with
  | none => (none, s)
  | some q =>
    ((s.queues q).head?, { s with queues := Function.update s.queues q (s.queues q).tail })

def onQuantumExpired (procs : Fin n → Process) (p : Fin n) (s : Unchecked n) :
    Option (Unchecked n) :=
  let lvl := s.levelOf procs p
  let s := if lvl < 2 then
      { s with level := Function.update s.level (procs p).pid (some (s.levelOf procs p + 1)) }
    else s
  pushLevel (s.levelOf procs p) p s

def onUnblock (procs : Fin n → Process) (p : Fin n) (s : Unchecked n) : Option (Unchecked n) :=
  pushLevel (s.levelOf procs p) p s

def boostQueue (procs : Fin n → Process) (s : Unchecked n) (q : Fin 3) : Unchecked n :=
  let s := (s.queues q).foldl (fun s p => add procs p s) s
  { s with queues := Function.update s.queues q [] }

/-- `tick`; the remainder by an interval of `0` is undefined. -/
def tick (procs : Fin n → Process) (currentTick : ℕ) (s : Unchecked n) : Option (Unchecked n) :=
  if s.boostInterval = 0 then none
  else if currentTick % s.boostInterval ≠ 0 ∨ currentTick = 0 then some s
  else some ([1, 2].foldl (boostQueue procs) s)

/-- The three queues together. -/
def queued (s : Unchecked n) : List (Fin n) := s.queues 0 ++ s.queues 1 ++ s.queues 2

end Unchecked

/-- The policy of the simulator, with its levels as `int`s. -/
def toUnchecked (s : MLFQ n) : Unchecked n where
  qbase := s.qbase
  boostInterval := s.boostInterval
  queues := s.queues
  level := fun pid => (s.level pid).map (fun q => (q.val : ℤ))

variable {procs : Fin n → Process} {s : MLFQ n} {p p' : Fin n} {q : Fin 3}

/-! ## The policy of the simulator refines it -/

theorem queueIndex_val (q : Fin 3) : queueIndex q.val = some q := by
  have hlt := q.isLt
  rw [queueIndex, dif_pos (by omega)]
  simp

@[simp] theorem levelOf_toUnchecked (procs : Fin n → Process) (s : MLFQ n) (p : Fin n) :
    s.toUnchecked.levelOf procs p = (s.levelOf procs p).val := by
  show ((s.level (procs p).pid).map (fun q => (q.val : ℤ))).getD 0
    = ((s.level (procs p).pid).getD 0).val
  cases s.level (procs p).pid <;> rfl

/-- Setting a level on both sides. -/
theorem toUnchecked_setLevel (s : MLFQ n) (pid : ℤ) (q : Fin 3) :
    { s with level := Function.update s.level pid (some q) }.toUnchecked =
      { s.toUnchecked with
        level := Function.update s.toUnchecked.level pid (some (q.val : ℤ)) } := by
  unfold toUnchecked
  congr 1
  funext pid'
  by_cases hpid : pid' = pid
  · subst hpid
    simp
  · simp [hpid]

theorem toUnchecked_add (procs : Fin n → Process) (p : Fin n) (s : MLFQ n) :
    s.toUnchecked.add procs p = (add procs p s).toUnchecked := by
  rw [Unchecked.add, add]
  have hlevel := toUnchecked_setLevel s (procs p).pid 0
  rw [show ((0 : Fin 3).val : ℤ) = 0 by rfl] at hlevel
  rw [← hlevel]
  rfl

theorem toUnchecked_pushLevel (q : Fin 3) (p : Fin n) (s : MLFQ n) :
    s.toUnchecked.pushLevel q.val p = some (pushBack q p s).toUnchecked := by
  rw [Unchecked.pushLevel, queueIndex_val]
  rfl

theorem toUnchecked_pickNext (procs : Fin n → Process) (s : MLFQ n) :
    s.toUnchecked.pickNext = ((pickNext procs s).1, (pickNext procs s).2.toUnchecked) := by
  unfold Unchecked.pickNext pickNext
  show (match (List.finRange 3).find? (fun q => s.queues q ≠ []) with
    | none => _
    | some q => _) = _
  cases (List.finRange 3).find? (fun q => s.queues q ≠ []) <;> rfl

/-- Whatever the level is, it is one of the three after the demotion. -/
theorem toUnchecked_onQuantumExpired (procs : Fin n → Process) (p : Fin n) (s : MLFQ n) :
    s.toUnchecked.onQuantumExpired procs p = some (onQuantumExpired procs p s).toUnchecked := by
  unfold Unchecked.onQuantumExpired onQuantumExpired
  dsimp only
  rw [levelOf_toUnchecked]
  by_cases hlvl : s.levelOf procs p < 2
  · have hval : ((s.levelOf procs p + 1 : Fin 3).val : ℤ) = (s.levelOf procs p).val + 1 := by
      generalize s.levelOf procs p = l at hlvl
      revert l
      decide
    rw [if_pos (by exact_mod_cast hlvl), if_pos hlvl, ← hval, ← toUnchecked_setLevel,
      levelOf_toUnchecked, toUnchecked_pushLevel]
  · rw [if_neg (by exact_mod_cast hlvl), if_neg hlvl, levelOf_toUnchecked, toUnchecked_pushLevel]

theorem toUnchecked_onUnblock (procs : Fin n → Process) (p : Fin n) (s : MLFQ n) :
    s.toUnchecked.onUnblock procs p = some (scheduler.onUnblock procs p s).toUnchecked := by
  rw [Unchecked.onUnblock, levelOf_toUnchecked, toUnchecked_pushLevel]
  rfl

theorem toUnchecked_boostQueue (procs : Fin n → Process) (s : MLFQ n) (q : Fin 3) :
    s.toUnchecked.boostQueue procs q = (boostQueue procs s q).toUnchecked := by
  have hfold : ∀ (ps : List (Fin n)) (s : MLFQ n),
      ps.foldl (fun s p => Unchecked.add procs p s) s.toUnchecked
        = (ps.foldl (fun s p => add procs p s) s).toUnchecked := by
    intro ps
    induction ps with
    | nil => intro s; rfl
    | cons p ps ih =>
      intro s
      rw [List.foldl_cons, List.foldl_cons, toUnchecked_add]
      exact ih (add procs p s)
  unfold Unchecked.boostQueue boostQueue
  dsimp only
  rw [show s.toUnchecked.queues q = s.queues q by rfl, hfold]
  rfl

theorem toUnchecked_tick (procs : Fin n → Process) (currentTick : ℕ) (s : MLFQ n)
    (hboost : 1 ≤ s.boostInterval) :
    s.toUnchecked.tick procs currentTick = some (tick procs currentTick s).toUnchecked := by
  have hne : ¬ s.toUnchecked.boostInterval = 0 := Nat.one_le_iff_ne_zero.mp hboost
  rw [Unchecked.tick, if_neg hne, tick]
  show (if currentTick % s.boostInterval ≠ 0 ∨ currentTick = 0 then _ else _) = _
  split_ifs with hskip
  · rfl
  · simp only [List.foldl_cons, List.foldl_nil, toUnchecked_boostQueue]

/-! ## Queues and levels agree -/

/-- Every process is queued at most once, and in the queue of its level. -/
structure Agree (procs : Fin n → Process) (s : MLFQ n) : Prop where
  nodup : s.queued.Nodup
  level_eq : ∀ {q p}, p ∈ s.queues q → s.levelOf procs p = q

theorem mem_queued_iff : p ∈ s.queued ↔ ∃ q, p ∈ s.queues q := by
  rw [queued, List.mem_append, List.mem_append]
  constructor
  · rintro ((h | h) | h)
    · exact ⟨0, h⟩
    · exact ⟨1, h⟩
    · exact ⟨2, h⟩
  · rintro ⟨q, h⟩
    fin_cases q
    · exact Or.inl (Or.inl h)
    · exact Or.inl (Or.inr h)
    · exact Or.inr h

theorem agree_start (procs : Fin n → Process) (qbase boostInterval : ℕ) :
    Agree procs ({ qbase := qbase, boostInterval := boostInterval } : MLFQ n) where
  nodup := List.nodup_nil
  level_eq h := absurd h List.not_mem_nil

/-- Appending adds one process to all that are queued. -/
theorem queued_pushBack_perm (q : Fin 3) (p : Fin n) (s : MLFQ n) :
    (pushBack q p s).queued.Perm (p :: s.queued) := by
  fin_cases q
  · exact queued_pushBack p s
  · show (s.queues 0 ++ (s.queues 1 ++ [p]) ++ s.queues 2).Perm (p :: s.queued)
    rw [← List.append_assoc, List.append_assoc, queued]
    exact List.perm_middle
  · show (s.queues 0 ++ s.queues 1 ++ (s.queues 2 ++ [p])).Perm (p :: s.queued)
    rw [← List.append_assoc]
    exact List.perm_append_singleton p s.queued

/-- **Queueing a process** that is in no queue, after its level has been set. -/
theorem Agree.pushBack (h : Agree procs s) {t : MLFQ n} (hqueues : t.queues = s.queues)
    (hothers : ∀ p', p' ≠ p → t.levelOf procs p' = s.levelOf procs p')
    (hlevel : t.levelOf procs p = q) (hnot : p ∉ s.queued) :
    Agree procs (MLFQ.pushBack q p t) where
  nodup := by
    have hqueued : t.queued = s.queued := by rw [queued, queued, hqueues]
    rw [(queued_pushBack_perm q p t).nodup_iff, hqueued]
    exact List.nodup_cons.mpr ⟨hnot, h.nodup⟩
  level_eq := by
    intro r p' hp'
    have hmem : p' ∈ Function.update t.queues q (t.queues q ++ [p]) r := hp'
    have hcases : p' ∈ s.queues r ∨ (r = q ∧ p' = p) := by
      by_cases hrq : r = q
      · subst hrq
        rw [Function.update_self, hqueues, List.mem_append, List.mem_singleton] at hmem
        exact hmem.imp_right (fun heq => ⟨rfl, heq⟩)
      · rw [Function.update_of_ne hrq, hqueues] at hmem
        exact Or.inl hmem
    rcases hcases with hold | ⟨rfl, rfl⟩
    · have hne : p' ≠ p := by
        rintro rfl
        exact hnot (mem_queued_iff.mpr ⟨r, hold⟩)
      show t.levelOf procs p' = r
      rw [hothers p' hne]
      exact h.level_eq hold
    · exact hlevel

section Pids

variable (hpids : Function.Injective (fun p => (procs p).pid))
include hpids

/-- Setting the level of one process leaves the others. -/
theorem levelOf_setLevel (s : MLFQ n) (p p' : Fin n) (q : Fin 3) :
    { s with level := Function.update s.level (procs p).pid (some q) }.levelOf procs p' =
      if p' = p then q else s.levelOf procs p' := by
  unfold levelOf
  by_cases hp : p' = p
  · subst hp
    simp
  · have hne : (procs p').pid ≠ (procs p).pid := fun heq => hp (hpids heq)
    simp [hp, hne]

theorem levelOf_add (s : MLFQ n) (p p' : Fin n) :
    (MLFQ.add procs p s).levelOf procs p' = if p' = p then 0 else s.levelOf procs p' :=
  levelOf_setLevel hpids s p p' 0

theorem Agree.add (h : Agree procs s) (hnot : p ∉ s.queued) : Agree procs (add procs p s) := by
  have hlevel := levelOf_setLevel hpids s p
  refine h.pushBack (t := { s with level := Function.update s.level (procs p).pid (some 0) })
    rfl (fun p' hp' => ?_) ?_ hnot
  · rw [hlevel, if_neg hp']
  · rw [hlevel, if_pos rfl]

/-- The level after the quantum has been used up. -/
theorem levelOf_onQuantumExpired (s : MLFQ n) (p p' : Fin n) (hne : p' ≠ p) :
    (onQuantumExpired procs p s).levelOf procs p' = s.levelOf procs p' := by
  unfold onQuantumExpired
  dsimp only
  split_ifs
  · exact (levelOf_setLevel hpids s p p' _).trans (if_neg hne)
  · rfl

theorem Agree.onQuantumExpired (h : Agree procs s) (hnot : p ∉ s.queued) :
    Agree procs (onQuantumExpired procs p s) := by
  unfold MLFQ.onQuantumExpired
  dsimp only
  split_ifs
  · refine h.pushBack (t := { s with
        level := Function.update s.level (procs p).pid (some (s.levelOf procs p + 1)) })
      rfl (fun p' hp' => ?_) rfl hnot
    rw [levelOf_setLevel hpids, if_neg hp']
  · exact h.pushBack rfl (fun _ _ => rfl) rfl hnot

end Pids

theorem Agree.onUnblock (h : Agree procs s) (hnot : p ∉ s.queued) :
    Agree procs (scheduler.onUnblock procs p s) :=
  h.pushBack rfl (fun _ _ => rfl) rfl hnot

/-! ## Picking -/

/-- **What `pick_next` does**: it takes the first process of the first queue that is not
empty. -/
theorem pickNext_spec (procs : Fin n → Process) (s : MLFQ n) :
    ((∀ q, s.queues q = []) ∧ pickNext procs s = (none, s)) ∨
      ∃ q p rest, s.queues q = p :: rest ∧ (∀ q' < q, s.queues q' = []) ∧
        pickNext procs s = (some p, { s with queues := Function.update s.queues q rest }) := by
  have hrange : List.finRange 3 = [0, 1, 2] := by decide
  unfold pickNext
  rw [hrange]
  cases h0 : s.queues 0 with
  | cons p rest =>
    exact Or.inr ⟨0, p, rest, h0, fun q' hlt => absurd hlt (Fin.not_lt_zero q'), by simp [h0]⟩
  | nil =>
    have hfirst : ∀ q' < (1 : Fin 3), s.queues q' = [] := by
      intro q' hlt
      obtain rfl : q' = 0 := by omega
      exact h0
    cases h1 : s.queues 1 with
    | cons p rest => exact Or.inr ⟨1, p, rest, h1, hfirst, by simp [h0, h1]⟩
    | nil =>
      have hsecond : ∀ q' < (2 : Fin 3), s.queues q' = [] := by
        intro q' hlt
        obtain rfl | rfl : q' = 0 ∨ q' = 1 := by omega
        · exact h0
        · exact h1
      cases h2 : s.queues 2 with
      | cons p rest => exact Or.inr ⟨2, p, rest, h2, hsecond, by simp [h0, h1, h2]⟩
      | nil =>
        refine Or.inl ⟨fun q => ?_, by simp [h0, h1, h2]⟩
        obtain rfl | hlt : q = 2 ∨ q < 2 := by omega
        · exact h2
        · exact hsecond q hlt

/-- The queues only get shorter. -/
theorem pickNext_mem {q : Fin 3} (h : p ∈ (pickNext procs s).2.queues q) : p ∈ s.queues q := by
  rcases pickNext_spec procs s with ⟨-, heq⟩ | ⟨q', p', rest, hcons, -, heq⟩
  · rw [heq] at h
    exact h
  · rw [heq] at h
    have hmem : p ∈ Function.update s.queues q' rest q := h
    by_cases hq : q = q'
    · subst hq
      rw [Function.update_self] at hmem
      rw [hcons]
      exact List.mem_cons_of_mem p' hmem
    · rw [Function.update_of_ne hq] at hmem
      exact hmem

theorem levelOf_pickNext (procs : Fin n → Process) (s : MLFQ n) (p : Fin n) :
    (pickNext procs s).2.levelOf procs p = s.levelOf procs p := by
  rcases pickNext_spec procs s with ⟨-, heq⟩ | ⟨q', p', rest, -, -, heq⟩
  · rw [heq]
  · rw [heq]
    rfl

/-- A process that is picked was queued, and is in no queue any more. -/
theorem Agree.pickNext (h : Agree procs s) :
    Agree procs (pickNext procs s).2 ∧
      ∀ p, (MLFQ.pickNext procs s).1 = some p →
        p ∈ s.queued ∧ p ∉ (MLFQ.pickNext procs s).2.queued := by
  have hnodup := h.nodup
  rcases pickNext_cases procs s with ⟨heq, -⟩ | ⟨p', hp', hqueue⟩
  · rw [heq]
    exact ⟨h, fun p hp => absurd hp (by simp)⟩
  · rw [hqueue, List.nodup_cons] at hnodup
    refine ⟨⟨hnodup.2, fun {q p} hp => ?_⟩, fun p hp => ?_⟩
    · rw [levelOf_pickNext]
      exact h.level_eq (pickNext_mem hp)
    · obtain rfl : p' = p := Option.some.inj (hp'.symm.trans hp)
      rw [hqueue]
      exact ⟨List.mem_cons_self .., hnodup.1⟩

/-! ## The boost -/

/-- What adding a list of processes does. -/
theorem foldl_add (procs : Fin n → Process) (ps : List (Fin n)) (s : MLFQ n) :
    ps.foldl (fun s p => add procs p s) s =
      { s with
        queues := Function.update s.queues 0 (s.queues 0 ++ ps)
        level := fun pid => if ∃ p ∈ ps, (procs p).pid = pid then some 0 else s.level pid } := by
  induction ps generalizing s with
  | nil => simp
  | cons p ps ih =>
    rw [List.foldl_cons, ih]
    unfold add MLFQ.pushBack
    simp only [Function.update_self, Function.update_idem, List.append_assoc, List.singleton_append,
      List.exists_mem_cons_iff]
    congr 1
    funext pid
    by_cases hps : ∃ p ∈ ps, (procs p).pid = pid
    · simp [hps]
    · by_cases hp : (procs p).pid = pid
      · subst hp
        simp [hps]
      · have hne : pid ≠ (procs p).pid := fun heq => hp heq.symm
        simp [hps, hp, hne]

/-- **What a boost does**: one queue of all processes in the order of the queues, and the
first level for those that come from the second or the third. -/
theorem tick_of_boost (procs : Fin n → Process) {t : ℕ} (s : MLFQ n) (ht : 0 < t)
    (hdvd : s.boostInterval ∣ t) :
    (tick procs t s).queues = Function.update (fun _ => []) 0 s.queued ∧
      ∀ pid, (tick procs t s).level pid =
        if ∃ p ∈ s.queues 1 ++ s.queues 2, (procs p).pid = pid then some 0 else s.level pid := by
  have hfires : ¬ (t % s.boostInterval ≠ 0 ∨ t = 0) := by
    rw [not_or, not_not]
    exact ⟨Nat.mod_eq_zero_of_dvd hdvd, ht.ne'⟩
  rw [tick, if_neg hfires, List.foldl_cons, List.foldl_cons, List.foldl_nil, boostQueue, boostQueue]
  dsimp only
  rw [foldl_add, foldl_add]
  constructor
  · funext q
    fin_cases q <;> simp [queued]
  · intro pid
    simp only [List.mem_append, or_and_right, exists_or]
    by_cases h1 : ∃ p ∈ s.queues 1, (procs p).pid = pid
    · simp [h1]
    · simp [h1]

theorem tick_of_not_boost (procs : Fin n → Process) {t : ℕ} (s : MLFQ n)
    (h : ¬ (0 < t ∧ s.boostInterval ∣ t)) : tick procs t s = s := by
  rw [tick, if_pos]
  by_contra hcon
  rw [not_or, not_not] at hcon
  exact h ⟨Nat.pos_of_ne_zero hcon.2, Nat.dvd_of_mod_eq_zero hcon.1⟩

/-- **No process is lost by a boost**, and none is moved past another. -/
theorem queued_tick (procs : Fin n → Process) (t : ℕ) (s : MLFQ n) :
    (tick procs t s).queued = s.queued := by
  by_cases h : 0 < t ∧ s.boostInterval ∣ t
  · obtain ⟨hqueues, -⟩ := tick_of_boost procs s h.1 h.2
    rw [queued, hqueues]
    simp
  · rw [tick_of_not_boost procs s h]

section Boost

variable (hpids : Function.Injective (fun p => (procs p).pid))
include hpids

/-- The level after a boost. -/
theorem levelOf_tick_of_boost {t : ℕ} (s : MLFQ n) (ht : 0 < t) (hdvd : s.boostInterval ∣ t)
    (p : Fin n) :
    (tick procs t s).levelOf procs p =
      if p ∈ s.queues 1 ++ s.queues 2 then 0 else s.levelOf procs p := by
  obtain ⟨-, hlevel⟩ := tick_of_boost procs s ht hdvd
  have hiff : (∃ p' ∈ s.queues 1 ++ s.queues 2, (procs p').pid = (procs p).pid)
      ↔ p ∈ s.queues 1 ++ s.queues 2 := by
    constructor
    · rintro ⟨p', hp', heq⟩
      exact hpids heq ▸ hp'
    · intro hp
      exact ⟨p, hp, rfl⟩
  rw [levelOf, hlevel]
  by_cases hp : p ∈ s.queues 1 ++ s.queues 2
  · rw [if_pos (hiff.mpr hp), if_pos hp]
    rfl
  · rw [if_neg (fun hex => hp (hiff.mp hex)), if_neg hp, levelOf]

/-- A tick never takes a process off the first level. -/
theorem levelOf_tick_of_first {s : MLFQ n} (t : ℕ) (h : s.levelOf procs p = 0) :
    (tick procs t s).levelOf procs p = 0 := by
  by_cases hboost : 0 < t ∧ s.boostInterval ∣ t
  · rw [levelOf_tick_of_boost hpids s hboost.1 hboost.2, h, ite_self]
  · rw [tick_of_not_boost procs s hboost, h]

theorem Agree.tick (h : Agree procs s) (t : ℕ) : Agree procs (tick procs t s) := by
  by_cases hboost : 0 < t ∧ s.boostInterval ∣ t
  · refine ⟨by rw [queued_tick]; exact h.nodup, fun {q p} hp => ?_⟩
    rw [(tick_of_boost procs s hboost.1 hboost.2).1] at hp
    by_cases hq : q = 0
    · subst hq
      rw [Function.update_self, queued, List.append_assoc, List.mem_append] at hp
      rw [levelOf_tick_of_boost hpids s hboost.1 hboost.2]
      split_ifs with hlow
      · rfl
      · exact h.level_eq (hp.resolve_right hlow)
    · rw [Function.update_of_ne hq] at hp
      exact absurd hp List.not_mem_nil
  · rw [tick_of_not_boost procs s hboost]
    exact h

/-- **Whom the boost reaches**: after it a process is on the first level exactly if it was
queued, or was there already. -/
theorem Agree.levelOf_tick_eq_zero_iff (h : Agree procs s) {t : ℕ} (ht : 0 < t)
    (hdvd : s.boostInterval ∣ t) :
    (MLFQ.tick procs t s).levelOf procs p = 0 ↔ p ∈ s.queued ∨ s.levelOf procs p = 0 := by
  have hmem : p ∈ s.queued ↔ p ∈ s.queues 0 ∨ p ∈ s.queues 1 ++ s.queues 2 := by
    rw [queued, List.append_assoc, List.mem_append]
  rw [levelOf_tick_of_boost hpids s ht hdvd, hmem]
  constructor
  · intro hlevel
    split_ifs at hlevel with hlow
    · exact Or.inl (Or.inr hlow)
    · exact Or.inr hlevel
  · rintro ((hfirst | hlow) | hlevel)
    · split_ifs with hlow
      · rfl
      · exact h.level_eq hfirst
    · rw [if_pos hlow]
    · rw [hlevel, ite_self]

end Boost

/-! ## Sessions -/

/-- The calls that a simulator makes. -/
inductive Call (n : ℕ) where
  | add (p : Fin n)
  | pickNext
  | onQuantumExpired (p : Fin n)
  | onUnblock (p : Fin n)
  | tick (currentTick : ℕ)
  deriving DecidableEq, Repr

/-- The call puts the process into a queue. -/
def Call.Queues (p : Fin n) (op : Call n) : Prop :=
  op = .add p ∨ op = .onQuantumExpired p ∨ op = .onUnblock p

/-- The policy, with the processes that have ever been added, and those that have been
picked and not been queued again since. -/
structure Session (n : ℕ) where
  sched : Unchecked n
  added : Finset (Fin n) := ∅
  out : Finset (Fin n) := ∅

namespace Session

def start (qbase boostInterval : ℕ) : Session n :=
  { sched := { qbase := qbase, boostInterval := boostInterval } }

/-- A process is queued that was out. -/
def requeue (s : Session n) (p : Fin n) (sched : Unchecked n) : Session n :=
  { s with sched := sched, out := s.out.erase p }

/-- `pick_next`, and the process it returns is out. -/
def pick (s : Session n) : Session n :=
  match s.sched.pickNext with
  | (none, sched) => { s with sched := sched }
  | (some p, sched) => { s with sched := sched, out := insert p s.out }

end Session

/-- The policy under the calls of a simulator: `add` for a process that is in no queue,
`on_quantum_expired` and `on_unblock` for one that is out. -/
def sessionMachine (procs : Fin n → Process) : GuardedMachine (Session n) (Call n) where
  pre := fun s op => match op with
    | .add p => p ∉ s.sched.queued
    | .onQuantumExpired p => p ∈ s.out
    | .onUnblock p => p ∈ s.out
    | .pickNext => True
    | .tick _ => True
  exec := fun s op => match op with
    | .add p =>
      some { sched := s.sched.add procs p, added := insert p s.added, out := s.out.erase p }
    | .pickNext => some s.pick
    | .onQuantumExpired p => (s.sched.onQuantumExpired procs p).map (s.requeue p)
    | .onUnblock p => (s.sched.onUnblock procs p).map (s.requeue p)
    | .tick currentTick =>
      (s.sched.tick procs currentTick).map (fun sched => { s with sched := sched })

instance (procs : Fin n → Process) (s : Session n) (op : Call n) :
    Decidable ((sessionMachine procs).pre s op) :=
  match op with
  | .add p => inferInstanceAs (Decidable (p ∉ s.sched.queued))
  | .onQuantumExpired p => inferInstanceAs (Decidable (p ∈ s.out))
  | .onUnblock p => inferInstanceAs (Decidable (p ∈ s.out))
  | .pickNext => .isTrue trivial
  | .tick _ => .isTrue trivial

namespace Session

/-- The session is one of the policy `m` of the simulator: its queues and levels agree, the
processes that are out are in no queue, and whoever is queued has been added. -/
structure Of (procs : Fin n → Process) (boostInterval : ℕ) (m : MLFQ n) (s : Session n) :
    Prop where
  sched_eq : s.sched = m.toUnchecked
  boost_eq : m.boostInterval = boostInterval
  agree : Agree procs m
  not_queued : ∀ p ∈ s.out, p ∉ m.queued
  queued_added : ∀ p ∈ m.queued, p ∈ s.added
  out_added : ∀ p ∈ s.out, p ∈ s.added

variable {boostInterval : ℕ} {m : MLFQ n} {u : Session n}

theorem of_start (procs : Fin n → Process) (qbase boostInterval : ℕ) :
    Of procs boostInterval { qbase := qbase, boostInterval := boostInterval }
      (start qbase boostInterval) where
  sched_eq := rfl
  boost_eq := rfl
  agree := agree_start procs qbase boostInterval
  not_queued p hp := absurd hp (Finset.notMem_empty p)
  queued_added _ hp := absurd hp List.not_mem_nil
  out_added p hp := absurd hp (Finset.notMem_empty p)

/-- A process has been queued that was not. -/
theorem Of.queue (h : Of procs boostInterval m u) {m' : MLFQ n} {added : Finset (Fin n)}
    (hboost : m'.boostInterval = m.boostInterval) (hagree : Agree procs m')
    (hperm : m'.queued.Perm (p :: m.queued)) (hp : p ∈ added) (hadded : u.added ⊆ added) :
    Of procs boostInterval m'
      { sched := m'.toUnchecked, added := added, out := u.out.erase p } where
  sched_eq := rfl
  boost_eq := hboost.trans h.boost_eq
  agree := hagree
  not_queued p' hp' := by
    obtain ⟨hne, hout⟩ := Finset.mem_erase.mp hp'
    rw [hperm.mem_iff, List.mem_cons, not_or]
    exact ⟨hne, h.not_queued p' hout⟩
  queued_added p' hp' := by
    rcases List.mem_cons.mp (hperm.mem_iff.mp hp') with rfl | hold
    · exact hp
    · exact hadded (h.queued_added p' hold)
  out_added p' hp' := hadded (h.out_added p' (Finset.mem_of_mem_erase hp'))

theorem queued_onQuantumExpired (procs : Fin n → Process) (p : Fin n) (m : MLFQ n) :
    (MLFQ.onQuantumExpired procs p m).queued.Perm (p :: m.queued) := by
  unfold MLFQ.onQuantumExpired
  dsimp only
  split_ifs
  · exact queued_pushBack_perm _ p _
  · exact queued_pushBack_perm _ p m

theorem boostInterval_onQuantumExpired (procs : Fin n → Process) (p : Fin n) (m : MLFQ n) :
    (MLFQ.onQuantumExpired procs p m).boostInterval = m.boostInterval := by
  unfold MLFQ.onQuantumExpired
  dsimp only
  split_ifs <;> rfl

theorem boostInterval_tick (procs : Fin n → Process) (t : ℕ) (m : MLFQ n) :
    (MLFQ.tick procs t m).boostInterval = m.boostInterval := by
  unfold MLFQ.tick
  split_ifs
  · rfl
  · simp [boostQueue, foldl_add]

/-- Picking, in a session of the policy `m`. -/
theorem Of.pick (h : Of procs boostInterval m u) :
    Of procs boostInterval (pickNext procs m).2 u.pick := by
  obtain ⟨hagree, hpicked⟩ := h.agree.pickNext
  have hsub : ∀ p ∈ (pickNext procs m).2.queued, p ∈ m.queued := by
    intro p hp
    obtain ⟨q, hq⟩ := mem_queued_iff.mp hp
    exact mem_queued_iff.mpr ⟨q, pickNext_mem hq⟩
  have hboost : (pickNext procs m).2.boostInterval = m.boostInterval := by
    rcases pickNext_spec procs m with ⟨-, heq⟩ | ⟨q, p, rest, -, -, heq⟩ <;> rw [heq]
  have hsched : u.sched.pickNext
      = ((pickNext procs m).1, (pickNext procs m).2.toUnchecked) := by
    rw [h.sched_eq, toUnchecked_pickNext procs]
  unfold Session.pick
  rw [hsched]
  cases hfirst : (pickNext procs m).1 with
  | none =>
    exact ⟨rfl, hboost.trans h.boost_eq, hagree,
      fun p hp hq => h.not_queued p hp (hsub p hq), fun p hp => h.queued_added p (hsub p hp),
      h.out_added⟩
  | some p =>
    refine ⟨rfl, hboost.trans h.boost_eq, hagree, fun p' hp' hq => ?_,
      fun p' hp' => h.queued_added p' (hsub p' hp'), fun p' hp' => ?_⟩
    · rcases Finset.mem_insert.mp hp' with rfl | hout
      · exact (hpicked p' hfirst).2 hq
      · exact h.not_queued p' hout (hsub p' hq)
    · rcases Finset.mem_insert.mp hp' with rfl | hout
      · exact h.queued_added p' (hpicked p' hfirst).1
      · exact h.out_added p' hout

/-- **Every call returns**, in a session of the policy after that call; and a process on the
first level stays there unless the call queues it. -/
theorem Of.exec (hpids : Function.Injective (fun p => (procs p).pid)) (hboost : 1 ≤ boostInterval)
    (h : Of procs boostInterval m u) {op : Call n} (hpre : (sessionMachine procs).pre u op) :
    ∃ v m', (sessionMachine procs).exec u op = some v ∧ Of procs boostInterval m' v ∧
      ∀ p, ¬ op.Queues p → m.levelOf procs p = 0 → m'.levelOf procs p = 0 := by
  cases op with
  | add p =>
    have hnot : p ∉ m.queued := by
      have hnot : p ∉ u.sched.queued := hpre
      rw [h.sched_eq] at hnot
      exact hnot
    refine ⟨_, MLFQ.add procs p m, rfl, ?_, fun p' hp' hlevel => ?_⟩
    · rw [h.sched_eq, toUnchecked_add]
      exact h.queue rfl (h.agree.add hpids hnot) (queued_pushBack p _)
        (Finset.mem_insert_self p u.added) (Finset.subset_insert p u.added)
    · rw [levelOf_add hpids, hlevel, ite_self]
  | pickNext =>
    refine ⟨u.pick, (MLFQ.pickNext procs m).2, rfl, h.pick, fun p' _ hlevel => ?_⟩
    rw [levelOf_pickNext, hlevel]
  | onQuantumExpired p =>
    have hnot : p ∉ m.queued := h.not_queued p hpre
    have hadded : p ∈ u.added := h.out_added p hpre
    refine ⟨u.requeue p (MLFQ.onQuantumExpired procs p m).toUnchecked,
      MLFQ.onQuantumExpired procs p m, ?_, ?_, fun p' hp' hlevel => ?_⟩
    · show (u.sched.onQuantumExpired procs p).map (u.requeue p) = _
      rw [h.sched_eq, toUnchecked_onQuantumExpired, Option.map_some]
    · exact h.queue (boostInterval_onQuantumExpired procs p m)
        (h.agree.onQuantumExpired hpids hnot) (queued_onQuantumExpired procs p m) hadded subset_rfl
    · have hne : p' ≠ p := fun heq => hp' (Or.inr (Or.inl (by rw [heq])))
      rw [levelOf_onQuantumExpired hpids m p p' hne, hlevel]
  | onUnblock p =>
    have hnot : p ∉ m.queued := h.not_queued p hpre
    have hadded : p ∈ u.added := h.out_added p hpre
    refine ⟨u.requeue p (scheduler.onUnblock procs p m).toUnchecked,
      scheduler.onUnblock procs p m, ?_, ?_, fun p' _ hlevel => hlevel⟩
    · show (u.sched.onUnblock procs p).map (u.requeue p) = _
      rw [h.sched_eq, toUnchecked_onUnblock, Option.map_some]
    · exact h.queue rfl (h.agree.onUnblock hnot) (queued_pushBack_perm _ p m) hadded subset_rfl
  | tick t =>
    refine ⟨{ u with sched := (MLFQ.tick procs t m).toUnchecked }, MLFQ.tick procs t m, ?_, ?_,
      fun p' _ hlevel => levelOf_tick_of_first hpids t hlevel⟩
    · show (u.sched.tick procs t).map _ = _
      rw [h.sched_eq, toUnchecked_tick procs t m (by rw [h.boost_eq]; exact hboost)]
      rfl
    · refine ⟨rfl, (boostInterval_tick procs t m).trans h.boost_eq, h.agree.tick hpids t, ?_, ?_,
        h.out_added⟩
      · rw [queued_tick]
        exact h.not_queued
      · rw [queued_tick]
        exact h.queued_added

/-- Every legal run from a session of the policy returns. -/
theorem Of.run (hpids : Function.Injective (fun p => (procs p).pid)) (hboost : 1 ≤ boostInterval)
    (h : Of procs boostInterval m u) {ops : List (Call n)}
    (hlegal : (sessionMachine procs).Legal u ops) :
    ∃ v, (sessionMachine procs).run u ops = some v ∧ ∃ m', Of procs boostInterval m' v := by
  refine hlegal.invariant ?_ ⟨m, h⟩
  rintro s op ⟨m, hm⟩ hpre
  obtain ⟨v, m', hv, hm', -⟩ := hm.exec hpids hboost hpre
  exact ⟨v, hv, m', hm'⟩

/-- A process on the first level stays there over every run that does not queue it. -/
theorem Of.level_of_quiet (hpids : Function.Injective (fun p => (procs p).pid))
    (hboost : 1 ≤ boostInterval) (h : Of procs boostInterval m u) {ops : List (Call n)}
    {v : Session n} {p : Fin n} (hquiet : ∀ op ∈ ops, ¬ op.Queues p)
    (hreach : (sessionMachine procs).Reaches u ops v) (hlevel : m.levelOf procs p = 0) :
    ∃ m', Of procs boostInterval m' v ∧ m'.levelOf procs p = 0 := by
  induction ops using List.reverseRecOn generalizing v with
  | nil =>
    rw [GuardedMachine.reaches_nil] at hreach
    exact ⟨m, hreach ▸ h, hlevel⟩
  | append_singleton ops op ih =>
    obtain ⟨w, hw, hpre, hexec⟩ := GuardedMachine.reaches_concat.mp hreach
    obtain ⟨m', hm', hlevel'⟩ := ih (fun op hop => hquiet op (List.mem_append_left _ hop)) hw
    obtain ⟨v', m'', hv', hm'', hkeep⟩ := hm'.exec hpids hboost hpre
    obtain rfl := Option.some.inj (hv'.symm.trans hexec)
    exact ⟨m'', hm'', hkeep p (hquiet op (by simp)) hlevel'⟩

end Session

/-! ## Queues and levels over whole runs -/

theorem pickNext_of_first {r : Fin 3} {rest : List (Fin n)} (procs : Fin n → Process)
    (hcons : s.queues r = p :: rest) (hfirst : ∀ q < r, s.queues q = []) :
    pickNext procs s = (some p, { s with queues := Function.update s.queues r rest }) := by
  rcases pickNext_spec procs s with ⟨hnil, -⟩ | ⟨q, p', rest', hcons', hfirst', heq⟩
  · rw [hnil r] at hcons
    cases hcons
  · obtain rfl : q = r := by
      rcases lt_trichotomy q r with hlt | heq | hlt
      · rw [hfirst q hlt] at hcons'
        cases hcons'
      · exact heq
      · rw [hfirst' r hlt] at hcons
        cases hcons
    obtain ⟨rfl, rfl⟩ := List.cons.inj (hcons.symm.trans hcons')
    exact heq

/-- **Queues and levels agree** in every state that the calls of a simulator reach, for
processes with distinct pids: no queue is ever indexed out of range, a process is queued
at most once, and in the queue of its level; the levels are those of the three queues; a
tick loses no process; and `pick_next` takes the head of the first queue that is not
empty. -/
theorem mlfq_levels_agree (procs : Fin n → Process)
    (hpids : Function.Injective (fun p => (procs p).pid)) (qbase boostInterval : ℕ)
    (hboost : 1 ≤ boostInterval) (ops : List (Call n))
    (h : (sessionMachine procs).Legal (Session.start qbase boostInterval) ops) :
    ∃ s, (sessionMachine procs).run (Session.start qbase boostInterval) ops = some s ∧
      s.sched.queued.Nodup ∧
      (∀ q p, p ∈ s.sched.queues q → s.sched.levelOf procs p = q.val) ∧
      (∀ pid lvl, s.sched.level pid = some lvl → 0 ≤ lvl ∧ lvl ≤ 2) ∧
      (∀ p, 0 ≤ s.sched.levelOf procs p ∧ s.sched.levelOf procs p ≤ 2) ∧
      (∀ t, ∃ u, s.sched.tick procs t = some u ∧ u.queued.Perm s.sched.queued) ∧
      (∀ q p rest, s.sched.queues q = p :: rest → (∀ q' < q, s.sched.queues q' = []) →
        s.sched.pickNext =
          (some p, { s.sched with queues := Function.update s.sched.queues q rest })) ∧
      ((∀ q, s.sched.queues q = []) → s.sched.pickNext = (none, s.sched)) := by
  obtain ⟨s, hrun, m, hm⟩ := (Session.of_start procs qbase boostInterval).run hpids hboost h
  refine ⟨s, hrun, ?_⟩
  rw [hm.sched_eq]
  refine ⟨hm.agree.nodup, ?_, ?_, ?_, ?_, ?_, ?_⟩
  · intro q p hp
    rw [levelOf_toUnchecked, hm.agree.level_eq hp]
  · intro pid lvl hlvl
    obtain ⟨q, -, rfl⟩ := Option.map_eq_some_iff.mp hlvl
    omega
  · intro p
    rw [levelOf_toUnchecked]
    omega
  · intro t
    refine ⟨_, toUnchecked_tick procs t m (by rw [hm.boost_eq]; exact hboost), ?_⟩
    exact .of_eq (queued_tick procs t m)
  · intro q p rest hcons hfirst
    rw [toUnchecked_pickNext procs, pickNext_of_first procs hcons hfirst]
    rfl
  · intro hnil
    rw [toUnchecked_pickNext procs]
    rcases pickNext_spec procs m with ⟨-, heq⟩ | ⟨q, p, rest, hcons, -, -⟩
    · rw [heq]
    · have hempty : m.queues q = [] := hnil q
      rw [hempty] at hcons
      cases hcons

/-- Two processes, with the pids 1 and 2. -/
def twoPids (p : Fin 2) : Process := { pid := p.val + 1 }

theorem twoPids_injective : Function.Injective (fun p => (twoPids p).pid) := by decide

/-- One process is demoted and queued again, the other blocks and comes back, and the
boost takes both to the first queue. -/
def demotedAndBoosted : List (Call 2) :=
  [.add 0, .add 1, .pickNext, .onQuantumExpired 0, .pickNext, .onUnblock 1, .tick 5, .tick 10,
    .pickNext]

theorem demotedAndBoosted_levels_agree :
    ∃ s, (sessionMachine twoPids).run (Session.start 4 10) demotedAndBoosted = some s ∧
      s.sched.queues 0 = [0] ∧
      (∀ q p, p ∈ s.sched.queues q → s.sched.levelOf twoPids p = q.val) := by
  obtain ⟨s, hrun, -, hlevel, -⟩ := mlfq_levels_agree twoPids twoPids_injective 4 10 (by decide)
    demotedAndBoosted (by decide +kernel)
  have hqueue : ((sessionMachine twoPids).run (Session.start 4 10) demotedAndBoosted).map
      (fun s => s.sched.queues 0) = some [0] := by decide +kernel
  rw [hrun] at hqueue
  exact ⟨s, hrun, Option.some.inj hqueue, hlevel⟩

/-! ## Whom the boost reaches -/

/-- The process is on the first level, and when it is queued by `on_unblock` the next time
it enters the first queue. -/
def Session.Boosted (procs : Fin n → Process) (p : Fin n) (s : Session n) : Prop :=
  s.sched.levelOf procs p = 0 ∧
    ∀ ops u, (∀ op ∈ ops, ¬ op.Queues p) → (sessionMachine procs).Reaches s ops u → p ∈ u.out →
      ∃ v, (sessionMachine procs).exec u (.onUnblock p) = some v ∧ p ∈ v.sched.queues 0

/-- A process on the first level enters the first queue when it comes back. -/
theorem Session.Of.boosted (hpids : Function.Injective (fun p => (procs p).pid))
    {boostInterval : ℕ} (hboost : 1 ≤ boostInterval) {m : MLFQ n} {u : Session n}
    (h : Session.Of procs boostInterval m u) (hlevel : m.levelOf procs p = 0) :
    u.Boosted procs p := by
  refine ⟨?_, fun ops v hquiet hreach _ => ?_⟩
  · rw [h.sched_eq, levelOf_toUnchecked, hlevel]
    rfl
  · obtain ⟨m', hm', hlevel'⟩ := h.level_of_quiet hpids hboost hquiet hreach hlevel
    refine ⟨v.requeue p (scheduler.onUnblock procs p m').toUnchecked, ?_, ?_⟩
    · show (v.sched.onUnblock procs p).map (v.requeue p) = _
      rw [hm'.sched_eq, toUnchecked_onUnblock, Option.map_some]
    · show p ∈ (MLFQ.pushBack (m'.levelOf procs p) p m').queues 0
      rw [hlevel']
      simp [MLFQ.pushBack]

/-- **Whom the periodic boost reaches.**  In every state that the calls of a simulator
reach, for processes with distinct pids: after a tick at a positive multiple of the
interval every process that was ever added is on the first level, and enters the first
queue when it comes back, exactly if those that were in no queue at the tick were on the
first level already. -/
theorem mlfq_boost_reaches_iff (procs : Fin n → Process)
    (hpids : Function.Injective (fun p => (procs p).pid)) (qbase boostInterval : ℕ)
    (hboost : 1 ≤ boostInterval) (ops : List (Call n))
    (h : (sessionMachine procs).Legal (Session.start qbase boostInterval) ops) {t : ℕ}
    (ht : 0 < t) (hdvd : boostInterval ∣ t) :
    ∃ s u, (sessionMachine procs).run (Session.start qbase boostInterval) ops = some s ∧
      (sessionMachine procs).exec s (.tick t) = some u ∧
      ((∀ p ∈ s.added, u.Boosted procs p) ↔
        ∀ p ∈ s.added, p ∉ s.sched.queued → s.sched.levelOf procs p = 0) := by
  obtain ⟨s, hrun, m, hm⟩ := (Session.of_start procs qbase boostInterval).run hpids hboost h
  have hpre : (sessionMachine procs).pre s (.tick t) := trivial
  obtain ⟨u, m', hexec, hm', -⟩ := hm.exec hpids hboost hpre
  have hu : u = { s with sched := (tick procs t m).toUnchecked } := by
    have htick : (s.sched.tick procs t).map (fun sched => { s with sched := sched }) = some u :=
      hexec
    rw [hm.sched_eq, toUnchecked_tick procs t m (by rw [hm.boost_eq]; exact hboost)] at htick
    exact (Option.some.inj htick).symm
  have hiff : ∀ p, u.sched.levelOf procs p = 0 ↔
      p ∈ s.sched.queued ∨ s.sched.levelOf procs p = 0 := by
    intro p
    have hlevel := hm.agree.levelOf_tick_eq_zero_iff (p := p) hpids ht
      (by rw [hm.boost_eq]; exact hdvd)
    rw [hu, hm.sched_eq, levelOf_toUnchecked, levelOf_toUnchecked]
    simp only [Int.natCast_eq_zero, Fin.val_eq_zero_iff]
    exact hlevel
  refine ⟨s, u, hrun, hexec, ?_⟩
  constructor
  · intro hall p hp hnot
    exact ((hiff p).mp (hall p hp).1).resolve_left hnot
  · intro hout p hp
    apply hm'.boosted hpids hboost
    have hlevel : u.sched.levelOf procs p = 0 := by
      rw [hiff]
      by_cases hq : p ∈ s.sched.queued
      · exact Or.inl hq
      · exact Or.inr (hout p hp hq)
    rw [hm'.sched_eq, levelOf_toUnchecked] at hlevel
    simpa using hlevel

/-- At the boost one process is queued on the second level, and the other one is running on
the first. -/
theorem demoted_boost_reaches :
    ∃ s u, (sessionMachine twoPids).run (Session.start 4 10)
        [.add 0, .pickNext, .onQuantumExpired 0, .add 1, .pickNext] = some s ∧
      s.added = {0, 1} ∧ s.sched.queues 1 = [0] ∧ 1 ∉ s.sched.queued ∧
      (sessionMachine twoPids).exec s (.tick 20) = some u ∧
      ∀ p ∈ s.added, u.Boosted twoPids p := by
  obtain ⟨s, u, hrun, hexec, hiff⟩ := mlfq_boost_reaches_iff twoPids twoPids_injective 4 10
    (by decide) [.add 0, .pickNext, .onQuantumExpired 0, .add 1, .pickNext] (by decide +kernel)
    (t := 20) (by decide) (by decide)
  have hstate : ((sessionMachine twoPids).run (Session.start 4 10)
      [.add 0, .pickNext, .onQuantumExpired 0, .add 1, .pickNext]).map (fun s =>
        (s.added, s.sched.queues 1, decide (1 ∉ s.sched.queued),
          decide (∀ p, p ∉ s.sched.queued → s.sched.levelOf twoPids p = 0)))
      = some ({0, 1}, [0], true, true) := by decide +kernel
  rw [hrun] at hstate
  obtain ⟨hadded, hrest⟩ := Prod.mk.inj (Option.some.inj hstate)
  obtain ⟨hsecond, hrest⟩ := Prod.mk.inj hrest
  obtain ⟨hrunning, hout⟩ := Prod.mk.inj hrest
  exact ⟨s, u, hrun, hadded, hsecond, of_decide_eq_true hrunning, hexec,
    hiff.mpr (fun p _ hnot => of_decide_eq_true hout p hnot)⟩

/-- A process that has been demoted is running at the boost: it keeps the second level,
and enters the second queue when it comes back. -/
theorem running_not_boosted :
    (sessionMachine twoPids).Legal (Session.start 4 10)
        [.add 0, .pickNext, .onQuantumExpired 0, .pickNext, .tick 10, .onUnblock 0] ∧
      (∃ u, (sessionMachine twoPids).run (Session.start 4 10)
          [.add 0, .pickNext, .onQuantumExpired 0, .pickNext, .tick 10] = some u ∧
        0 ∈ u.added ∧ ¬ u.Boosted twoPids 0) ∧
      ∃ v, (sessionMachine twoPids).run (Session.start 4 10)
          [.add 0, .pickNext, .onQuantumExpired 0, .pickNext, .tick 10, .onUnblock 0] = some v ∧
        v.sched.queues 1 = [0] := by
  have hlevel : ((sessionMachine twoPids).run (Session.start 4 10)
      [.add 0, .pickNext, .onQuantumExpired 0, .pickNext, .tick 10]).map
        (fun u => (decide (0 ∈ u.added), u.sched.levelOf twoPids 0)) = some (true, 1) := by
    decide +kernel
  have hqueue : ((sessionMachine twoPids).run (Session.start 4 10)
      [.add 0, .pickNext, .onQuantumExpired 0, .pickNext, .tick 10, .onUnblock 0]).map
        (fun v => v.sched.queues 1) = some [0] := by decide +kernel
  obtain ⟨u, hu, hpair⟩ := Option.map_eq_some_iff.mp hlevel
  obtain ⟨hadded, hone⟩ := Prod.mk.inj hpair
  obtain ⟨v, hv, hfirst⟩ := Option.map_eq_some_iff.mp hqueue
  refine ⟨by decide +kernel, ⟨u, hu, of_decide_eq_true hadded, fun hboosted => ?_⟩, v, hv, hfirst⟩
  rw [hboosted.1] at hone
  exact absurd hone (by decide)

end MLFQ

end Memlab
