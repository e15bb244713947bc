/-
# The aged priority queue

The comparison of the heap reads the map of the aging bonuses, and `age_ready_queue` writes
it.  It takes all processes out first, and a process is put back right after its bonus has
been set; since the pids are distinct no key changes while its process is in the heap
(`Ready.readd`).  So the vector is a heap in every state that the calls of a simulator
reach, and `pick_next` takes a process whose priority less its bonus is least.
-/
import MemoryAllocator.GuardedMachine
import MemoryAllocator.SimPolicies

namespace Memlab

open PriorityQueue

variable {n : ℕ}

namespace PriorityScheduler

/-- The aging bonus of a process. -/
def bonus (procs : Fin n → Process) (s : PriorityScheduler n) (p : Fin n) : ℕ :=
  (s.aged (procs p).pid).getD 0

/-- Set the aging bonus of a process. -/
def setBonus (procs : Fin n → Process) (p : Fin n) (bonus : ℕ) (s : PriorityScheduler n) :
    PriorityScheduler n :=
  { s with aged := Function.update s.aged (procs p).pid (some bonus) }

variable {procs : Fin n → Process} {s : PriorityScheduler n} {p p' : Fin n} {heap : HeapFns (Fin n)}

/-- Numbers below `2 ^ 31` are converted to `int` as they are. -/
theorem bmod_eq_of_lt {x : ℕ} (hx : x < 2 ^ 31) : Int.bmod x (2 ^ 32) = x := by
  apply Int.bmod_eq_of_le
  · omega
  · omega

theorem effective_eq (procs : Fin n → Process) (s : PriorityScheduler n) (p : Fin n) :
    s.effective procs p
      = Int.bmod (procs p).priority (2 ^ 32) - Int.bmod (s.bonus procs p) (2 ^ 32) := by
  unfold effective bonus
  cases s.aged (procs p).pid <;> rfl

/-- The effective priority, where the conversions are exact. -/
theorem effective_eq_sub (hpriority : (procs p).priority < 2 ^ 31)
    (hbonus : s.bonus procs p < 2 ^ 31) :
    s.effective procs p = (procs p).priority - s.bonus procs p := by
  rw [effective_eq, bmod_eq_of_lt hpriority, bmod_eq_of_lt hbonus]

/-- A bonus is less than a tenth of the ticks that a `uint32_t` can count. -/
theorem sub32_div_lt (x y : ℕ) : sub32 x y / kAgingInterval < 2 ^ 31 := by
  have hlt : sub32 x y < 2 ^ 32 := Nat.mod_lt _ (by norm_num)
  unfold kAgingInterval
  omega

/-- Setting one bonus leaves the others. -/
theorem bonus_setBonus (hpids : Function.Injective (fun p => (procs p).pid)) (b : ℕ) :
    (setBonus procs p b s).bonus procs p' = if p' = p then b else s.bonus procs p' := by
  unfold bonus setBonus
  by_cases hp : p' = p
  · subst hp
    simp
  · have hne : (procs p').pid ≠ (procs p).pid := fun heq => hp (hpids heq)
    simp [hp, hne]

/-! ## The invariant -/

/-- The vector is a heap for the present keys, no process is in it twice, and the bonuses
fit an `int`. -/
structure Ready (procs : Fin n → Process) (s : PriorityScheduler n) : Prop where
  heap : IsHeap (s.effective procs) s.data
  nodup : s.data.Nodup
  bonus_lt : ∀ p, s.bonus procs p < 2 ^ 31

theorem ready_start (procs : Fin n → Process) : Ready procs ({} : PriorityScheduler n) where
  heap := isHeap_nil _
  nodup := List.nodup_nil
  bonus_lt _ := by
    show 0 < 2 ^ 31
    norm_num

theorem Ready.add_perm (h : Ready procs s) (p : Fin n) :
    (add heap procs p s).data.Perm (p :: s.data) :=
  heap.push_perm h.heap

theorem Ready.add (h : Ready procs s) (hp : p ∉ s.data) : Ready procs (add heap procs p s) where
  heap := heap.isHeap_push h.heap
  nodup := (h.add_perm p).nodup_iff.mpr (List.nodup_cons.mpr ⟨hp, h.nodup⟩)
  bonus_lt := h.bonus_lt

/-- **Setting the bonus of a process that is not in the heap** changes no key in it. -/
theorem Ready.setBonus (hpids : Function.Injective (fun p => (procs p).pid)) (h : Ready procs s)
    (hp : p ∉ s.data) {b : ℕ} (hb : b < 2 ^ 31) : Ready procs (setBonus procs p b s) where
  heap := by
    refine h.heap.congr (fun p' hp' => ?_)
    have hne : p' ≠ p := by
      rintro rfl
      exact hp hp'
    rw [effective_eq, effective_eq, bonus_setBonus hpids, if_neg hne]
  nodup := h.nodup
  bonus_lt p' := by
    rw [bonus_setBonus hpids]
    split_ifs
    · exact hb
    · exact h.bonus_lt p'

theorem Ready.pick (h : Ready procs s) :
    Ready procs ((scheduler heap).pickNext procs s).2 where
  heap := isHeap_popTop h.heap
  nodup := by
    show (popTop heap (s.effective procs) s.data).2.Nodup
    cases hfirst : (popTop heap (s.effective procs) s.data).1 with
    | none =>
      rw [(popTop_none hfirst).2]
      exact List.nodup_nil
    | some p =>
      have hnodup := (popTop_some h.heap hfirst).nodup_iff.mp h.nodup
      exact (List.nodup_cons.mp hnodup).2
  bonus_lt := h.bonus_lt

/-! ## Aging -/

/-- Taking all processes out loses none. -/
theorem popAll_perm (heap : HeapFns (Fin n)) {key : Fin n → ℤ} {q : List (Fin n)}
    (h : IsHeap key q) : (popAll heap key q.length q).Perm q := by
  generalize hfuel : q.length = fuel
  induction fuel generalizing q with
  | zero =>
    rw [List.length_eq_zero_iff.mp hfuel]
    exact .refl _
  | succ fuel ih =>
    obtain ⟨p, q, rfl⟩ := List.exists_cons_of_length_eq_add_one hfuel
    have hperm := heap.pop_perm h
    rw [popAll]
    have hlength : (heap.pop key (p :: q)).length = fuel := by
      rw [hperm.length_eq]
      exact Nat.succ.inj hfuel
    exact ((ih (heap.isHeap_pop h) hlength).trans hperm).cons p

/-- One round of the second loop: set the bonus, then push. -/
def readd (heap : HeapFns (Fin n)) (procs : Fin n → Process) (currentTick : ℕ)
    (s : PriorityScheduler n) (p : Fin n) : PriorityScheduler n :=
  add heap procs p
    (setBonus procs p (sub32 currentTick (procs p).arrival / kAgingInterval) s)

theorem ageReadyQueue_eq (heap : HeapFns (Fin n)) (procs : Fin n → Process) (t : ℕ)
    (s : PriorityScheduler n) :
    ageReadyQueue heap procs t s =
      (popAll heap (s.effective procs) s.data.length s.data).foldl (readd heap procs t)
        { s with data := [] } :=
  rfl

/-- **The second loop** puts the processes back, each with its new bonus, and keeps the
vector a heap all the time. -/
theorem Ready.foldl_readd (heap : HeapFns (Fin n))
    (hpids : Function.Injective (fun p => (procs p).pid)) (t : ℕ) {tmp : List (Fin n)}
    (h : Ready procs s) (htmp : tmp.Nodup) (hdisj : ∀ p ∈ tmp, p ∉ s.data) :
    Ready procs (tmp.foldl (readd heap procs t) s) ∧
      (tmp.foldl (readd heap procs t) s).data.Perm (tmp ++ s.data) ∧
      ∀ p, (tmp.foldl (readd heap procs t) s).bonus procs p =
        if p ∈ tmp then sub32 t (procs p).arrival / kAgingInterval else s.bonus procs p := by
  induction tmp generalizing s with
  | nil => exact ⟨h, .refl _, fun p => by simp⟩
  | cons p tmp ih =>
    obtain ⟨hp, htmp⟩ := List.nodup_cons.mp htmp
    have hnot : p ∉ s.data := hdisj p (List.mem_cons_self ..)
    have hset : Ready procs
        (PriorityScheduler.setBonus procs p (sub32 t (procs p).arrival / kAgingInterval) s) :=
      h.setBonus hpids hnot (sub32_div_lt _ _)
    have hadd : Ready procs (readd heap procs t s p) := hset.add hnot
    have hperm : (readd heap procs t s p).data.Perm (p :: s.data) := hset.add_perm p
    have hrest : ∀ p' ∈ tmp, p' ∉ (readd heap procs t s p).data := by
      intro p' hp' hmem
      rcases List.mem_cons.mp (hperm.mem_iff.mp hmem) with rfl | hold
      · exact hp hp'
      · exact hdisj p' (List.mem_cons_of_mem p hp') hold
    obtain ⟨hready, hperm', hbonus⟩ := ih hadd htmp hrest
    refine ⟨hready, ?_, fun p' => ?_⟩
    · have hmiddle : (tmp ++ (readd heap procs t s p).data).Perm (p :: tmp ++ s.data) :=
        (hperm.append_left tmp).trans List.perm_middle
      exact hperm'.trans hmiddle
    · rw [List.foldl_cons, hbonus p']
      have hone : (readd heap procs t s p).bonus procs p' =
          if p' = p then sub32 t (procs p).arrival / kAgingInterval else s.bonus procs p' :=
        bonus_setBonus hpids _
      rw [hone]
      by_cases hp' : p' = p
      · subst hp'
        simp
      · simp [hp']

/-- **Aging** keeps the processes, and gives each of them the bonus of the ticks since its
arrival. -/
theorem Ready.age (heap : HeapFns (Fin n)) (hpids : Function.Injective (fun p => (procs p).pid))
    (h : Ready procs s) (t : ℕ) :
    Ready procs (ageReadyQueue heap procs t s) ∧
      (ageReadyQueue heap procs t s).data.Perm s.data ∧
      ∀ p, (ageReadyQueue heap procs t s).bonus procs p =
        if p ∈ s.data then sub32 t (procs p).arrival / kAgingInterval else s.bonus procs p := by
  have hperm := popAll_perm heap h.heap
  have hempty : Ready procs { s with data := [] } := ⟨isHeap_nil _, List.nodup_nil, h.bonus_lt⟩
  obtain ⟨hready, hdata, hbonus⟩ := hempty.foldl_readd heap hpids t
    (hperm.nodup_iff.mpr h.nodup) (fun p _ => List.not_mem_nil)
  rw [← ageReadyQueue_eq] at hready hdata hbonus
  rw [List.append_nil] at hdata
  refine ⟨hready, hdata.trans hperm, fun p => ?_⟩
  rw [hbonus p]
  exact if_congr hperm.mem_iff rfl rfl

/-! ## The policy under the calls of a simulator -/

/-- The calls that a simulator makes. -/
inductive Call (n : ℕ) where
  | add (p : Fin n)
  | pickNext
  | ageReadyQueue (currentTick : ℕ)
  deriving DecidableEq, Repr

/-- `add` is called for a process that is not queued, and `age_ready_queue` not before the
arrival of a process that is. -/
def priorityMachine (heap : HeapFns (Fin n)) (procs : Fin n → Process) :
    GuardedMachine (PriorityScheduler n) (Call n) where
  pre := fun s op => match op with
    | .add p => p ∉ s.data
    | .pickNext => True
    | .ageReadyQueue currentTick =>
      currentTick < 2 ^ 32 ∧ ∀ p ∈ s.data, (procs p).arrival ≤ currentTick
  exec := fun s op => match op with
    | .add p => some (add heap procs p s)
    | .pickNext => some ((scheduler heap).pickNext procs s).2
    | .ageReadyQueue currentTick => some (ageReadyQueue heap procs currentTick s)

instance (heap : HeapFns (Fin n)) (procs : Fin n → Process) (s : PriorityScheduler n)
    (op : Call n) : Decidable ((priorityMachine heap procs).pre s op) :=
  match op with
  | .add p => inferInstanceAs (Decidable (p ∉ s.data))
  | .pickNext => .isTrue trivial
  | .ageReadyQueue currentTick => inferInstanceAs
      (Decidable (currentTick < 2 ^ 32 ∧ ∀ p ∈ s.data, (procs p).arrival ≤ currentTick))

/-- Every run of the calls returns, with the vector a heap. -/
theorem ready_of_legal (heap : HeapFns (Fin n))
    (hpids : Function.Injective (fun p => (procs p).pid)) {ops : List (Call n)}
    (h : (priorityMachine heap procs).Legal {} ops) :
    ∃ s, (priorityMachine heap procs).run {} ops = some s ∧ Ready procs s := by
  refine h.invariant ?_ (ready_start procs)
  intro s op hs hpre
  cases op with
  | add p => exact ⟨_, rfl, hs.add hpre⟩
  | pickNext => exact ⟨_, rfl, hs.pick⟩
  | ageReadyQueue t => exact ⟨_, rfl, (hs.age _ hpids t).1⟩

/-- **The aged priority queue stays a heap** over every run of the calls, for processes with
distinct pids and priorities below `2 ^ 31`.  `add` queues its process and changes nothing
else; `pick_next` returns nothing only if nothing is queued, and otherwise takes a queued
process out whose priority less its present bonus is least; and `age_ready_queue` keeps the
queued processes, giving each of them the bonus of the ticks since its arrival. -/
theorem aged_priority_stays_heap (heap : HeapFns (Fin n)) (procs : Fin n → Process)
    (hpids : Function.Injective (fun p => (procs p).pid))
    (hpriority : ∀ p, (procs p).priority < 2 ^ 31) (ops : List (Call n))
    (h : (priorityMachine heap procs).Legal {} ops) :
    ∃ s, (priorityMachine heap procs).run {} ops = some s ∧
      IsHeap (s.effective procs) s.data ∧
      (∀ p, (add heap procs p s).data.Perm (p :: s.data)) ∧
      (((scheduler heap).pickNext procs s).1 = none → s.data = []) ∧
      (∀ p, ((scheduler heap).pickNext procs s).1 = some p →
        s.data.Perm (p :: ((scheduler heap).pickNext procs s).2.data) ∧
        ∀ p' ∈ s.data, ((procs p).priority : ℤ) - s.bonus procs p
          ≤ (procs p').priority - s.bonus procs p') ∧
      ∀ t, t < 2 ^ 32 → (∀ p ∈ s.data, (procs p).arrival ≤ t) →
        (ageReadyQueue heap procs t s).data.Nodup ∧
        (ageReadyQueue heap procs t s).data.Perm s.data ∧
        ∀ p ∈ s.data, (ageReadyQueue heap procs t s).bonus procs p
          = (t - (procs p).arrival) / kAgingInterval := by
  obtain ⟨s, hrun, hs⟩ := ready_of_legal heap hpids h
  refine ⟨s, hrun, hs.heap, hs.add_perm, fun hnone => (popTop_none hnone).1, fun p hp => ?_, ?_⟩
  · have hperm := popTop_some hs.heap hp
    refine ⟨hperm, fun p' hp' => ?_⟩
    have hfirst : ∃ q, s.data = p :: q := by
      cases hdata : s.data with
      | nil =>
        rw [hdata] at hp'
        exact absurd hp' List.not_mem_nil
      | cons p₀ q =>
        have htop : (popTop heap (s.effective procs) s.data).1 = some p := hp
        rw [hdata] at htop
        obtain rfl := Option.some.inj htop
        exact ⟨q, rfl⟩
    obtain ⟨q, hq⟩ := hfirst
    rw [← effective_eq_sub (hpriority p) (hs.bonus_lt p),
      ← effective_eq_sub (hpriority p') (hs.bonus_lt p')]
    apply IsHeap.head_le (l := q)
    · rw [← hq]
      exact hs.heap
    · rw [← hq]
      exact hp'
  · intro t ht harrival
    obtain ⟨hready, hperm, hbonus⟩ := hs.age heap hpids t
    refine ⟨hready.nodup, hperm, fun p hp => ?_⟩
    rw [hbonus p, if_pos hp, sub32_eq_sub ht (harrival p hp)]

/-- Three processes: the third one has the best priority and arrives late. -/
def threePriorities (p : Fin 3) : Process :=
  { pid := p.val + 1, arrival := 50 * p.val, priority := if p = 2 then 3 else 5 }

/-- The first process waits for so long that it overtakes the third one. -/
def overtaking : List (Call 3) := [.add 2, .add 1, .add 0, .ageReadyQueue 100, .pickNext, .add 0]

theorem overtaking_stays_heap :
    ∃ s, (priorityMachine (.sorting (Fin 3)) threePriorities).run {} overtaking = some s ∧
      s.data.Nodup ∧
      IsHeap (s.effective threePriorities) s.data ∧
      ((scheduler (.sorting (Fin 3))).pickNext threePriorities s).1 = some 0 ∧
      ∀ p' ∈ s.data, ((threePriorities 0).priority : ℤ) - s.bonus threePriorities 0
        ≤ (threePriorities p').priority - s.bonus threePriorities p' := by
  obtain ⟨s, hrun, hheap, -, -, hpick, hage⟩ := aged_priority_stays_heap (.sorting (Fin 3))
    threePriorities (by decide) (by decide) overtaking (by decide +kernel)
  have hfirst : ((priorityMachine (.sorting (Fin 3)) threePriorities).run {} overtaking).map
      (fun s => (((scheduler (.sorting (Fin 3))).pickNext threePriorities s).1,
        decide s.data.Nodup)) = some (some 0, true) := by
    decide +kernel
  rw [hrun] at hfirst
  obtain ⟨hzero, hnodup⟩ := Prod.mk.inj (Option.some.inj hfirst)
  exact ⟨s, hrun, of_decide_eq_true hnodup, hheap, hzero, (hpick 0 hzero).2⟩

end PriorityScheduler

end Memlab
