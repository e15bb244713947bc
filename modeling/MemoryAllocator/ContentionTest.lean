/-
# `ContentionTest` of `TestMain.cpp`

The stress test of the lock-free free list: `numThreads` producers push `opsPerThread` nodes
each, the test waits for all of them, and as many consumers pop as many nodes as were pushed,
counting in `successPop` the calls that return one.  At the end the count is expected to be
the number of all nodes.

The threads are interleaved in any order, step by step, over `LockFreeFreelist`; here only
the loops are added.  What the test expects follows from counting: the calls that have been
completed are as many as the threads' loop variables say, the list is as long as the pushes
exceed the pops, and so a consumer whose loop is not over never meets an empty list.  That
the test ends at all rests on the lock-freedom of the list.
-/
import MemoryAllocator.LockFreeFreelistProgress

namespace Memory

open Finset

/-! ## One call of the list -/

/-- The node that the thread is pushing. -/
def FreelistCall.node : FreelistCall → Option ℕ
  | .pushStore node _ => some node
  | .pushCas node _ => some node
  | _ => none

namespace LockFreeFreelist

variable {s s' : LockFreeFreelist} {t : ℕ}

/-- What a step of a call does, as far as the caller is concerned: the call goes on, or it
returns. -/
inductive Effects (s s' : LockFreeFreelist) (t : ℕ) (node : Option ℕ) : Prop where
  | running (c : FreelistCall) (hcall : s'.call = Function.update s.call t c) (hc : c ≠ .idle)
      (hnode : c.node = node) (hhistory : s'.history = s.history) (howner : s'.owner = s.owner)
      (hcas : s'.casCount = s.casCount)
  | pushed (p : ℕ) (hnode : node = some p)
      (hcall : s'.call = Function.update s.call t .idle)
      (hhistory : s'.history = .push p :: s.history)
      (howner : s'.owner = Function.update s.owner p none) (hcas : s'.casCount = s.casCount + 1)
  | popped (p : ℕ) (hnode : node = none)
      (hcall : s'.call = Function.update s.call t .idle)
      (hhistory : s'.history = .pop p :: s.history)
      (hcas : s'.casCount = s.casCount + 1)
  | empty (hnode : node = none) (hnull : s.head.ptr = 0)

theorem popLoop_effects : Effects s (s.popLoop t) t none := by
  rw [popLoop]
  split_ifs with hnull
  · exact .empty rfl hnull
  · exact .running _ rfl (by simp) rfl rfl rfl rfl

/-- A step inside of a call. -/
theorem advance_effects (spurious : Bool) (hcall : s.call t ≠ .idle) :
    Effects s (s.advance t spurious) t (s.call t).node := by
  unfold advance
  cases hc : s.call t with
  | idle => exact absurd hc hcall
  | pushStore node oldHead => exact .running _ rfl (by simp) rfl rfl rfl rfl
  | pushCas node oldHead =>
    simp only
    split_ifs
    · exact .pushed node rfl rfl rfl rfl rfl
    · exact .running _ rfl (by simp) rfl rfl rfl rfl
  | popLoad oldHead => exact .running _ rfl (by simp) rfl rfl rfl rfl
  | popCas oldHead nextNode =>
    simp only
    split_ifs
    · exact .popped oldHead.ptr rfl rfl rfl rfl
    · exact popLoop_effects

/-- The last call that was completed returned a node. -/
def poppedNode (s : LockFreeFreelist) : Bool :=
  match s.history with
  | .pop _ :: _ => true
  | _ => false

end LockFreeFreelist

/-! ## The test -/

/-- The list, whether the producers have been joined and the consumers run, the loop
variable of every thread, and the count. -/
structure ContentionTest where
  list : LockFreeFreelist
  consuming : Bool
  i : ℕ → ℕ
  successPop : ℕ

/-- The steps of the test: a thread begins the call of its next iteration, takes the next
atomic step of its call, or the test has joined all producers and starts the consumers. -/
inductive ContentionOp where
  | call (t : ℕ)
  | step (t : ℕ) (spurious : Bool)
  | join

/-- A step at which the compare-exchange fails without reason. -/
def ContentionOp.spurious : ContentionOp → Bool
  | .step _ spurious => spurious
  | _ => false

namespace ContentionTest

variable (numThreads opsPerThread : ℕ) (nodes : ℕ → ℕ) (s : ContentionTest)

/-- Before the first producer runs. -/
def start (owner next : ℕ → ℕ) : ContentionTest := ⟨.start owner next, false, fun _ => 0, 0⟩

/-- The thread has taken a step of its call; if the call returns, so does the iteration. -/
def settle (t : ℕ) (list : LockFreeFreelist) : ContentionTest :=
  if list.call t = .idle then
    { s with
      list := list
      i := Function.update s.i t (s.i t + 1)
      successPop := s.successPop + if s.consuming ∧ list.poppedNode then 1 else 0 }
  else { s with list := list }

def exec : ContentionOp → ContentionTest
  | .call t => s.settle t (s.list.exec
      (if s.consuming then .pop t else .push t (nodes (t * opsPerThread + s.i t))))
  | .step t spurious => s.settle t (s.list.exec (.step t spurious))
  | .join => { s with consuming := true, i := fun _ => 0 }

/-- All loops of the running threads are over. -/
def Joinable : Prop := ∀ t < numThreads, s.list.call t = .idle ∧ s.i t = opsPerThread

instance : Decidable (s.Joinable numThreads opsPerThread) :=
  inferInstanceAs (Decidable (∀ t < numThreads, s.list.call t = .idle ∧ s.i t = opsPerThread))

/-- The consumers have been joined as well. -/
def Finished : Prop := s.consuming = true ∧ s.Joinable numThreads opsPerThread

instance : Decidable (s.Finished numThreads opsPerThread) :=
  inferInstanceAs (Decidable (s.consuming = true ∧ s.Joinable numThreads opsPerThread))

end ContentionTest

/-- The test, under any schedule of its threads. -/
def contentionMachine (numThreads opsPerThread : ℕ) (nodes : ℕ → ℕ) :
    GuardedMachine ContentionTest ContentionOp where
  pre := fun s op => match op with
    | .call t => t < numThreads ∧ s.list.call t = .idle ∧ s.i t < opsPerThread
    | .step t _ => t < numThreads ∧ s.list.call t ≠ .idle
    | .join => s.consuming = false ∧ s.Joinable numThreads opsPerThread
  exec := fun s op => some (s.exec opsPerThread nodes op)

instance (numThreads opsPerThread : ℕ) (nodes : ℕ → ℕ) (s : ContentionTest) (op : ContentionOp) :
    Decidable ((contentionMachine numThreads opsPerThread nodes).pre s op) :=
  match op with
  | .call t => inferInstanceAs
      (Decidable (t < numThreads ∧ s.list.call t = .idle ∧ s.i t < opsPerThread))
  | .step t _ => inferInstanceAs (Decidable (t < numThreads ∧ s.list.call t ≠ .idle))
  | .join => inferInstanceAs
      (Decidable (s.consuming = false ∧ s.Joinable numThreads opsPerThread))

namespace ContentionTest

variable {numThreads opsPerThread : ℕ} {nodes : ℕ → ℕ} {s s' : ContentionTest} {l : List ℕ}
  {t : ℕ}

/-! ## The invariant -/

/-- The iterations that the running threads have completed. -/
def iterations (numThreads : ℕ) (s : ContentionTest) : ℕ := ∑ t ∈ range numThreads, s.i t

/-- The list is in order and as long as the loop variables say, and the threads are where
their loops may be.  Every node that a producer still has to push is its own. -/
structure Inv (numThreads opsPerThread : ℕ) (nodes : ℕ → ℕ) (s : ContentionTest) (l : List ℕ) :
    Prop where
  list : s.list.Inv l
  i_le : ∀ t < numThreads, s.i t ≤ opsPerThread
  running : ∀ t < numThreads, s.list.call t ≠ .idle → s.i t < opsPerThread ∧
    (s.list.call t).node = if s.consuming then none else some (nodes (t * opsPerThread + s.i t))
  notEmpty : s.list.history.count .empty = 0
  pushes : s.list.history.countP StackEvent.isPush =
    if s.consuming then numThreads * opsPerThread else s.iterations numThreads
  pops : s.list.history.countP StackEvent.isPop =
    if s.consuming then s.iterations numThreads else 0
  cas : s.list.casCount = s.list.history.length
  success : s.successPop = s.list.history.countP StackEvent.isPop
  owned : s.consuming = false → ∀ t < numThreads, ∀ k < opsPerThread, s.i t ≤ k →
    s.list.owner (nodes (t * opsPerThread + k)) = some t
  pushed : ∀ t < numThreads, ∀ k < opsPerThread,
    s.list.history.count (.push (nodes (t * opsPerThread + k))) =
      if s.consuming ∨ k < s.i t then 1 else 0

theorem Inv.length_eq (h : Inv numThreads opsPerThread nodes s l) :
    s.list.history.length = (if s.consuming then numThreads * opsPerThread else 0) +
      s.iterations numThreads := by
  have hcounts := StackEvent.length_eq_counts s.list.history
  rw [h.notEmpty, h.pushes, h.pops] at hcounts
  rw [hcounts]
  cases s.consuming <;> simp

/-- A thread that has iterations left is why the others cannot have completed all. -/
theorem Inv.iterations_lt (h : Inv numThreads opsPerThread nodes s l) (ht : t < numThreads)
    (hi : s.i t < opsPerThread) : s.iterations numThreads < numThreads * opsPerThread := by
  calc s.iterations numThreads < ∑ _t ∈ range numThreads, opsPerThread :=
        sum_lt_sum (fun u hu => h.i_le u (mem_range.mp hu)) ⟨t, mem_range.mpr ht, hi⟩
    _ = numThreads * opsPerThread := by rw [sum_const, card_range, smul_eq_mul]

theorem Inv.cas_lt (h : Inv numThreads opsPerThread nodes s l)
    (hsize : 2 * (numThreads * opsPerThread) < 2 ^ 64) (ht : t < numThreads)
    (hi : s.i t < opsPerThread) : s.list.casCount + 1 < 2 ^ 64 := by
  have hlt := h.iterations_lt ht hi
  rw [h.cas, h.length_eq]
  split_ifs <;> omega

/-- **A consumer never meets an empty list**: as long as its loop is not over, fewer nodes
have been popped than were pushed. -/
theorem Inv.head_ne_null (h : Inv numThreads opsPerThread nodes s l) (ht : t < numThreads)
    (hi : s.i t < opsPerThread) (hconsuming : s.consuming = true) : s.list.head.ptr ≠ 0 := by
  intro hnull
  have hl : l = [] := h.list.chain.eq_nil_iff.mpr hnull
  have hlength := StackEvent.countP_isPush h.list.replay_eq
  have hlt := h.iterations_lt ht hi
  rw [h.pushes, h.pops, if_pos hconsuming, if_pos hconsuming, hl, List.length_nil] at hlength
  omega

/-! ## One step of a thread -/

theorem settle_running {list : LockFreeFreelist} (h : list.call t ≠ .idle) :
    s.settle t list = { s with list := list } := if_neg h

theorem settle_done {list : LockFreeFreelist} (h : list.call t = .idle) :
    s.settle t list = { s with
      list := list
      i := Function.update s.i t (s.i t + 1)
      successPop := s.successPop + if s.consuming ∧ list.poppedNode then 1 else 0 } := if_pos h

/-- The other threads are where they were. -/
theorem call_of_ne {list : LockFreeFreelist} {c : FreelistCall}
    (hcall : list.call = Function.update s.list.call t c) {u : ℕ} (hu : u ≠ t) :
    list.call u = s.list.call u := by rw [hcall, Function.update_of_ne hu]

theorem sum_update_succ (i : ℕ → ℕ) (ht : t < numThreads) :
    ∑ u ∈ range numThreads, Function.update i t (i t + 1) u
      = ∑ u ∈ range numThreads, i u + 1 := by
  have hmem : t ∈ range numThreads := mem_range.mpr ht
  have hrest : ∑ u ∈ (range numThreads).erase t, Function.update i t (i t + 1) u
      = ∑ u ∈ (range numThreads).erase t, i u := by
    apply sum_congr rfl
    intro u hu
    rw [Function.update_of_ne (ne_of_mem_erase hu)]
  rw [← add_sum_erase _ _ hmem, ← add_sum_erase _ i hmem, hrest, Function.update_self]
  omega

/-- The index determines the thread and its iteration. -/
theorem index_inj {t u k j : ℕ} (hk : k < opsPerThread) (hj : j < opsPerThread)
    (h : t * opsPerThread + k = u * opsPerThread + j) : t = u ∧ k = j := by
  have hpos : 0 < opsPerThread := Nat.zero_lt_of_lt hk
  have hdiv := congrArg (· / opsPerThread) h
  have hmod := congrArg (· % opsPerThread) h
  simp only [Nat.mul_comm _ opsPerThread, Nat.mul_add_div hpos, Nat.div_eq_of_lt hk,
    Nat.div_eq_of_lt hj, Nat.mul_add_mod, Nat.mod_eq_of_lt hk, Nat.mod_eq_of_lt hj] at hdiv hmod
  exact ⟨hdiv, hmod⟩

theorem index_lt {k : ℕ} (ht : t < numThreads) (hk : k < opsPerThread) :
    t * opsPerThread + k < numThreads * opsPerThread := by
  calc t * opsPerThread + k < (t + 1) * opsPerThread := by
        rw [Nat.succ_mul]
        omega
    _ ≤ numThreads * opsPerThread := Nat.mul_le_mul_right _ ht

/-- The nodes that the test has allocated: distinct, and none of them null. -/
structure Allocated (numThreads opsPerThread : ℕ) (nodes : ℕ → ℕ) : Prop where
  ne_null : ∀ k < numThreads * opsPerThread, nodes k ≠ 0
  inj : ∀ j < numThreads * opsPerThread, ∀ k < numThreads * opsPerThread,
    nodes j = nodes k → j = k

/-- The call goes on. -/
theorem Inv.running_step (h : Inv numThreads opsPerThread nodes s l) {list : LockFreeFreelist}
    {l' : List ℕ} (hlist : list.Inv l') (hi : s.i t < opsPerThread) {c : FreelistCall}
    (hcall : list.call = Function.update s.list.call t c) (hc : c ≠ .idle)
    (hnode : c.node = if s.consuming then none else some (nodes (t * opsPerThread + s.i t)))
    (hhistory : list.history = s.list.history) (howner : list.owner = s.list.owner)
    (hcas : list.casCount = s.list.casCount) :
    Inv numThreads opsPerThread nodes (s.settle t list) l' := by
  have hat : list.call t = c := by rw [hcall, Function.update_self]
  rw [settle_running (by rw [hat]; exact hc)]
  refine ⟨hlist, h.i_le, ?_, ?_, ?_, ?_, ?_, ?_, ?_, ?_⟩
  · intro u hu hne
    by_cases hut : u = t
    · subst hut
      refine ⟨hi, ?_⟩
      show (list.call u).node = _
      rw [hat]
      exact hnode
    · have hsame := call_of_ne hcall hut
      have hne' : s.list.call u ≠ .idle := fun heq => hne (hsame.trans heq)
      refine ⟨(h.running u hu hne').1, ?_⟩
      show (list.call u).node = _
      rw [hsame]
      exact (h.running u hu hne').2
  · exact (congrArg (List.count .empty) hhistory).trans h.notEmpty
  · exact (congrArg (List.countP StackEvent.isPush) hhistory).trans h.pushes
  · exact (congrArg (List.countP StackEvent.isPop) hhistory).trans h.pops
  · show list.casCount = list.history.length
    rw [hcas, hhistory]
    exact h.cas
  · show s.successPop = list.history.countP StackEvent.isPop
    rw [hhistory]
    exact h.success
  · intro hphase u hu k hk hik
    show list.owner _ = some u
    rw [howner]
    exact h.owned hphase u hu k hk hik
  · intro u hu k hk
    show list.history.count _ = _
    rw [hhistory]
    exact h.pushed u hu k hk

/-- The threads that are not done with their calls, after one of them is. -/
theorem Inv.running_done (h : Inv numThreads opsPerThread nodes s l) {list : LockFreeFreelist}
    (hcall : list.call = Function.update s.list.call t .idle) {u : ℕ} (hu : u < numThreads)
    (hne : list.call u ≠ .idle) :
    Function.update s.i t (s.i t + 1) u < opsPerThread ∧
      (list.call u).node = if s.consuming then none
        else some (nodes (u * opsPerThread + Function.update s.i t (s.i t + 1) u)) := by
  have hut : u ≠ t := by
    rintro rfl
    rw [hcall, Function.update_self] at hne
    exact hne rfl
  have hsame := call_of_ne hcall hut
  rw [Function.update_of_ne hut, hsame]
  exact h.running u hu (fun heq => hne (hsame.trans heq))

theorem Inv.i_le_done (h : Inv numThreads opsPerThread nodes s l) (hi : s.i t < opsPerThread)
    {u : ℕ} (hu : u < numThreads) :
    Function.update s.i t (s.i t + 1) u ≤ opsPerThread := by
  by_cases hut : u = t
  · subst hut
    rw [Function.update_self]
    exact hi
  · rw [Function.update_of_ne hut]
    exact h.i_le u hu

/-- A producer's call returns. -/
theorem Inv.pushed_step (h : Inv numThreads opsPerThread nodes s l)
    (hnodes : Allocated numThreads opsPerThread nodes) {list : LockFreeFreelist}
    {l' : List ℕ} (hlist : list.Inv l') (ht : t < numThreads) (hi : s.i t < opsPerThread)
    (hphase : s.consuming = false) (hcall : list.call = Function.update s.list.call t .idle)
    (hhistory : list.history = .push (nodes (t * opsPerThread + s.i t)) :: s.list.history)
    (howner : list.owner =
      Function.update s.list.owner (nodes (t * opsPerThread + s.i t)) none)
    (hcas : list.casCount = s.list.casCount + 1) :
    Inv numThreads opsPerThread nodes (s.settle t list) l' := by
  have hidle : list.call t = .idle := by rw [hcall, Function.update_self]
  -- the node of another iteration is another node
  have hother : ∀ u < numThreads, ∀ k < opsPerThread,
      nodes (t * opsPerThread + s.i t) = nodes (u * opsPerThread + k) → t = u ∧ s.i t = k :=
    fun u hu k hk heq => index_inj hi hk
      (hnodes.inj _ (index_lt ht hi) _ (index_lt hu hk) heq)
  rw [settle_done hidle]
  refine ⟨hlist, fun u hu => h.i_le_done hi hu, fun u hu hne => h.running_done hcall hu hne,
    ?_, ?_, ?_, ?_, ?_, ?_, ?_⟩
  · have hne : StackEvent.push (nodes (t * opsPerThread + s.i t)) ≠ .empty := by simp
    show list.history.count .empty = 0
    rw [hhistory, List.count_cons_of_ne hne]
    exact h.notEmpty
  · have hpushes := h.pushes
    rw [hphase] at hpushes
    show list.history.countP StackEvent.isPush = if s.consuming then _ else _
    rw [hhistory, hphase, List.countP_cons_of_pos rfl, hpushes]
    exact (sum_update_succ s.i ht).symm
  · have hpops := h.pops
    rw [hphase] at hpops
    show list.history.countP StackEvent.isPop = if s.consuming then _ else _
    rw [hhistory, hphase, List.countP_cons_of_neg Bool.false_ne_true, hpops]
    rfl
  · show list.casCount = list.history.length
    rw [hcas, hhistory, List.length_cons, h.cas]
  · show s.successPop + _ = list.history.countP StackEvent.isPop
    rw [hphase, hhistory, List.countP_cons_of_neg Bool.false_ne_true, h.success]
    simp
  · intro _ u hu k hk hik
    show list.owner _ = some u
    have hik : Function.update s.i t (s.i t + 1) u ≤ k := hik
    rw [howner, Function.update_of_ne]
    · refine h.owned hphase u hu k hk ?_
      by_cases hut : u = t
      · subst hut
        rw [Function.update_self] at hik
        omega
      · rwa [Function.update_of_ne hut] at hik
    · intro heq
      obtain ⟨rfl, rfl⟩ := hother u hu k hk heq.symm
      rw [Function.update_self] at hik
      omega
  · intro u hu k hk
    have hcount := h.pushed u hu k hk
    rw [hphase] at hcount
    show list.history.count _
      = if s.consuming = true ∨ k < Function.update s.i t (s.i t + 1) u then 1 else 0
    rw [hhistory, hphase]
    by_cases hsame : nodes (t * opsPerThread + s.i t) = nodes (u * opsPerThread + k)
    · obtain ⟨rfl, rfl⟩ := hother u hu k hk hsame
      rw [List.count_cons_self, hcount, Function.update_self]
      simp
    · rw [List.count_cons_of_ne (fun heq => hsame (StackEvent.push.inj heq)), hcount]
      by_cases hut : u = t
      · subst hut
        have hne : k ≠ s.i u := fun heq => hsame (by rw [heq])
        rw [Function.update_self]
        simp only [Bool.false_eq_true, false_or]
        split_ifs <;> first | rfl | omega
      · rw [Function.update_of_ne hut]

/-- A consumer's call returns a node. -/
theorem Inv.popped_step (h : Inv numThreads opsPerThread nodes s l) {list : LockFreeFreelist}
    {l' : List ℕ} (hlist : list.Inv l') (ht : t < numThreads) (hi : s.i t < opsPerThread)
    (hphase : s.consuming = true) (hcall : list.call = Function.update s.list.call t .idle)
    {p : ℕ} (hhistory : list.history = .pop p :: s.list.history)
    (hcas : list.casCount = s.list.casCount + 1) :
    Inv numThreads opsPerThread nodes (s.settle t list) l' := by
  have hidle : list.call t = .idle := by rw [hcall, Function.update_self]
  rw [settle_done hidle]
  refine ⟨hlist, fun u hu => h.i_le_done hi hu, fun u hu hne => h.running_done hcall hu hne,
    ?_, ?_, ?_, ?_, ?_, ?_, ?_⟩
  · have hne : StackEvent.pop p ≠ .empty := by simp
    show list.history.count .empty = 0
    rw [hhistory, List.count_cons_of_ne hne]
    exact h.notEmpty
  · have hpushes := h.pushes
    rw [hphase] at hpushes
    show list.history.countP StackEvent.isPush = if s.consuming then _ else _
    rw [hhistory, hphase, List.countP_cons_of_neg Bool.false_ne_true, hpushes]
    rfl
  · have hpops := h.pops
    rw [hphase] at hpops
    show list.history.countP StackEvent.isPop = if s.consuming then _ else _
    rw [hhistory, hphase, List.countP_cons_of_pos rfl, hpops]
    exact (sum_update_succ s.i ht).symm
  · show list.casCount = list.history.length
    rw [hcas, hhistory, List.length_cons, h.cas]
  · have hpopped : list.poppedNode = true := by rw [LockFreeFreelist.poppedNode, hhistory]
    show s.successPop + _ = list.history.countP StackEvent.isPop
    rw [hphase, hpopped, hhistory, List.countP_cons_of_pos rfl, h.success]
    rfl
  · intro hphase'
    exact absurd (hphase'.symm.trans hphase) Bool.false_ne_true
  · intro u hu k hk
    have hcount := h.pushed u hu k hk
    have hne : StackEvent.pop p ≠ .push (nodes (u * opsPerThread + k)) := by simp
    rw [hphase] at hcount
    show list.history.count _
      = if s.consuming = true ∨ k < Function.update s.i t (s.i t + 1) u then 1 else 0
    rw [hhistory, hphase, List.count_cons_of_ne hne, hcount]
    simp

/-- **A step of one thread.** -/
theorem Inv.thread_step (h : Inv numThreads opsPerThread nodes s l)
    (hnodes : Allocated numThreads opsPerThread nodes)
    (hsize : 2 * (numThreads * opsPerThread) < 2 ^ 64) (ht : t < numThreads)
    (hi : s.i t < opsPerThread) {op : FreelistOp} (hpre : freelistMachine.pre s.list op)
    (heffects : LockFreeFreelist.Effects s.list (s.list.exec op) t
      (if s.consuming then none else some (nodes (t * opsPerThread + s.i t)))) :
    ∃ l', Inv numThreads opsPerThread nodes (s.settle t (s.list.exec op)) l' := by
  have hcas := h.cas_lt hsize ht hi
  cases heffects with
  | running c hcall hc hnode hhistory howner hcas' =>
    obtain ⟨l', hlist, -⟩ := h.list.exec hpre (by omega)
    exact ⟨l', h.running_step hlist hi hcall hc hnode hhistory howner hcas'⟩
  | pushed p hnode hcall hhistory howner hcas' =>
    obtain ⟨l', hlist, -⟩ := h.list.exec hpre (by omega)
    cases hphase : s.consuming with
    | true =>
      rw [hphase] at hnode
      exact absurd hnode (by simp)
    | false =>
      rw [hphase] at hnode
      obtain rfl := Option.some.inj hnode
      exact ⟨l', h.pushed_step hnodes hlist ht hi hphase hcall hhistory howner hcas'⟩
  | popped p hnode hcall hhistory hcas' =>
    obtain ⟨l', hlist, -⟩ := h.list.exec hpre (by omega)
    cases hphase : s.consuming with
    | true => exact ⟨l', h.popped_step hlist ht hi hphase hcall hhistory hcas'⟩
    | false =>
      rw [hphase] at hnode
      exact absurd hnode (by simp)
  | empty hnode hnull =>
    cases hphase : s.consuming with
    | true => exact absurd hnull (h.head_ne_null ht hi hphase)
    | false =>
      rw [hphase] at hnode
      exact absurd hnode (by simp)

/-! ## Runs -/

theorem inv_start {owner next : ℕ → ℕ}
    (howner : ∀ t < numThreads, ∀ k < opsPerThread, owner (nodes (t * opsPerThread + k)) = t) :
    Inv numThreads opsPerThread nodes (start owner next) [] where
  list := LockFreeFreelist.inv_start owner next
  i_le := fun _ _ => Nat.zero_le _
  running := fun _ _ hne => absurd rfl hne
  notEmpty := rfl
  pushes := by simp [start, LockFreeFreelist.start, iterations]
  pops := rfl
  cas := rfl
  success := rfl
  owned := fun _ t ht k hk _ => congrArg some (howner t ht k hk)
  pushed := fun t _ k _ => by simp [start, LockFreeFreelist.start]

/-- The producers have pushed all nodes when they are joined. -/
theorem Joinable.iterations_eq (h : s.Joinable numThreads opsPerThread) :
    s.iterations numThreads = numThreads * opsPerThread := by
  calc s.iterations numThreads = ∑ _t ∈ range numThreads, opsPerThread :=
        sum_congr rfl (fun t ht => (h t (mem_range.mp ht)).2)
    _ = numThreads * opsPerThread := by rw [sum_const, card_range, smul_eq_mul]

theorem Inv.join (h : Inv numThreads opsPerThread nodes s l) (hphase : s.consuming = false)
    (hjoin : s.Joinable numThreads opsPerThread) :
    Inv numThreads opsPerThread nodes (s.exec opsPerThread nodes .join) l := by
  have hpushes := h.pushes
  have hpops := h.pops
  rw [hphase] at hpushes hpops
  refine ⟨h.list, fun _ _ => Nat.zero_le _, ?_, h.notEmpty, ?_, ?_, h.cas, h.success,
    fun hconsuming => Bool.noConfusion hconsuming, ?_⟩
  · intro t ht hne
    exact absurd (hjoin t ht).1 hne
  · exact hpushes.trans hjoin.iterations_eq
  · show s.list.history.countP StackEvent.isPop = ∑ t ∈ range numThreads, 0
    rw [sum_const_zero]
    exact hpops
  · intro t ht k hk
    have hcount := h.pushed t ht k hk
    rw [hphase, (hjoin t ht).2, if_pos (Or.inr hk)] at hcount
    exact hcount

/-- **Every step of the test** keeps the invariant. -/
theorem Inv.exec (h : Inv numThreads opsPerThread nodes s l)
    (hnodes : Allocated numThreads opsPerThread nodes)
    (hsize : 2 * (numThreads * opsPerThread) < 2 ^ 64) {op : ContentionOp}
    (hpre : (contentionMachine numThreads opsPerThread nodes).pre s op) :
    ∃ l', Inv numThreads opsPerThread nodes (s.exec opsPerThread nodes op) l' := by
  cases op with
  | join => exact ⟨l, h.join hpre.1 hpre.2⟩
  | step t spurious =>
    obtain ⟨ht, hcall⟩ := hpre
    obtain ⟨hi, hnode⟩ := h.running t ht hcall
    refine h.thread_step hnodes hsize ht hi hcall ?_
    rw [← hnode]
    exact LockFreeFreelist.advance_effects spurious hcall
  | call t =>
    obtain ⟨ht, hidle, hi⟩ := hpre
    show ∃ l', Inv numThreads opsPerThread nodes (s.settle t (s.list.exec _)) l'
    cases hphase : s.consuming with
    | true =>
      rw [if_pos rfl]
      refine h.thread_step hnodes hsize ht hi hidle ?_
      rw [hphase]
      exact LockFreeFreelist.popLoop_effects
    | false =>
      rw [if_neg Bool.false_ne_true]
      have howned := h.owned hphase t ht (s.i t) hi (le_refl _)
      have hne := hnodes.ne_null _ (index_lt ht hi)
      refine h.thread_step hnodes hsize ht hi ⟨hidle, howned, hne⟩ ?_
      rw [hphase]
      exact .running _ rfl (by simp) rfl rfl rfl rfl

theorem inv_of_reaches {owner next : ℕ → ℕ} {ops : List ContentionOp}
    (hnodes : Allocated numThreads opsPerThread nodes)
    (howner : ∀ t < numThreads, ∀ k < opsPerThread, owner (nodes (t * opsPerThread + k)) = t)
    (hsize : 2 * (numThreads * opsPerThread) < 2 ^ 64)
    (h : (contentionMachine numThreads opsPerThread nodes).Reaches (start owner next) ops s) :
    ∃ l, Inv numThreads opsPerThread nodes s l := by
  refine h.invariant (I := fun u => ∃ l, Inv numThreads opsPerThread nodes u l) ?_
    ⟨[], inv_start howner⟩
  rintro u op u' ⟨l, hu⟩ hpre hexec
  obtain rfl : u.exec opsPerThread nodes op = u' := Option.some.inj hexec
  exact hu.exec hnodes hsize hpre

/-- **No deadlock.**  Until the test is over, there is a step to take. -/
theorem Inv.exists_step (h : Inv numThreads opsPerThread nodes s l)
    (hnot : ¬ s.Finished numThreads opsPerThread) :
    ∃ op, (contentionMachine numThreads opsPerThread nodes).pre s op := by
  by_cases hjoin : s.Joinable numThreads opsPerThread
  · cases hphase : s.consuming with
    | false => exact ⟨.join, hphase, hjoin⟩
    | true => exact absurd ⟨hphase, hjoin⟩ hnot
  · obtain ⟨t, ht⟩ := not_forall.mp hjoin
    obtain ⟨hlt, hbusy⟩ := Classical.not_imp.mp ht
    by_cases hidle : s.list.call t = .idle
    · have hne : s.i t ≠ opsPerThread := fun heq => hbusy ⟨hidle, heq⟩
      exact ⟨.call t, hlt, hidle, lt_of_le_of_ne (h.i_le t hlt) hne⟩
    · exact ⟨.step t false, hlt, hidle⟩

/-! ## Termination -/

theorem settle_list (s : ContentionTest) (t : ℕ) (list : LockFreeFreelist) :
    (s.settle t list).list = list := by
  rw [settle]
  split_ifs <;> rfl

theorem settle_consuming (s : ContentionTest) (t : ℕ) (list : LockFreeFreelist) :
    (s.settle t list).consuming = s.consuming := by
  rw [settle]
  split_ifs <;> rfl

/-- What the threads have left, and the join. -/
def stepsLeft (numThreads : ℕ) (s : ContentionTest) : ℕ :=
  s.list.stepsLeft numThreads + (!s.consuming).toNat

/-- Every step is paid for as it is in the list. -/
theorem thread_paid (op : FreelistOp) (ht : op.thread < numThreads)
    (hpre : freelistMachine.pre s.list op) (hin : op.inCall = true) :
    (s.settle t (s.list.exec op)).stepsLeft numThreads + 1 +
        (2 * numThreads + 1) * s.list.history.length
      ≤ s.stepsLeft numThreads +
        (2 * numThreads + 1) * (s.settle t (s.list.exec op)).list.history.length +
          2 * op.spurious.toNat := by
  have hpaid := LockFreeFreelist.exec_paid ht hpre
  rw [hin, Bool.toNat_true] at hpaid
  rw [stepsLeft, stepsLeft, settle_list, settle_consuming]
  omega

theorem Inv.exec_paid (h : Inv numThreads opsPerThread nodes s l)
    (hnodes : Allocated numThreads opsPerThread nodes) {op : ContentionOp}
    (hpre : (contentionMachine numThreads opsPerThread nodes).pre s op) :
    (s.exec opsPerThread nodes op).stepsLeft numThreads + 1 +
        (2 * numThreads + 1) * s.list.history.length
      ≤ s.stepsLeft numThreads +
        (2 * numThreads + 1) * (s.exec opsPerThread nodes op).list.history.length +
          2 * op.spurious.toNat := by
  cases op with
  | join =>
    show s.list.stepsLeft numThreads + 0 + 1 + _ ≤ s.stepsLeft numThreads + _ + 0
    rw [stepsLeft, hpre.1]
    exact le_refl _
  | step t spurious => exact thread_paid (.step t spurious) hpre.1 hpre.2 rfl
  | call t =>
    obtain ⟨ht, hidle, hi⟩ := hpre
    show (s.settle t (s.list.exec _)).stepsLeft numThreads + 1 + _
      ≤ _ + _ * (s.settle t (s.list.exec _)).list.history.length + 0
    cases hphase : s.consuming with
    | true =>
      rw [if_pos rfl]
      exact thread_paid (.pop t) ht hidle rfl
    | false =>
      rw [if_neg Bool.false_ne_true]
      have howned := h.owned hphase t ht (s.i t) hi (le_refl _)
      have hne := hnodes.ne_null _ (index_lt ht hi)
      exact thread_paid (.push t _) ht ⟨hidle, howned, hne⟩ rfl

/-- The calls of a run are at most twice as many as the nodes. -/
theorem Inv.length_le (h : Inv numThreads opsPerThread nodes s l) :
    s.list.history.length ≤ 2 * (numThreads * opsPerThread) := by
  have hle : s.iterations numThreads ≤ numThreads * opsPerThread := by
    calc s.iterations numThreads ≤ ∑ _t ∈ range numThreads, opsPerThread :=
          sum_le_sum (fun t ht => h.i_le t (mem_range.mp ht))
      _ = numThreads * opsPerThread := by rw [sum_const, card_range, smul_eq_mul]
  rw [h.length_eq]
  split_ifs <;> omega

/-- **Every node is popped once**, when the test is over. -/
theorem Inv.finished (h : Inv numThreads opsPerThread nodes s l)
    (hfinished : s.Finished numThreads opsPerThread) :
    s.successPop = numThreads * opsPerThread ∧ s.list.head.ptr = 0 ∧
      ∀ t < numThreads, ∀ k < opsPerThread,
        s.list.history.count (.pop (nodes (t * opsPerThread + k))) = 1 := by
  obtain ⟨hphase, hjoin⟩ := hfinished
  have hpushes := h.pushes
  have hpops := h.pops
  rw [if_pos hphase] at hpushes hpops
  rw [hjoin.iterations_eq] at hpops
  have hlength := StackEvent.countP_isPush h.list.replay_eq
  have hl : l = [] := by
    apply List.eq_nil_of_length_eq_zero
    omega
  refine ⟨h.success.trans hpops, h.list.chain.eq_nil_iff.mp hl, fun t ht k hk => ?_⟩
  have hcount := StackEvent.count_push h.list.replay_eq (nodes (t * opsPerThread + k))
  rw [h.pushed t ht k hk, hl, if_pos (Or.inl hphase)] at hcount
  exact hcount.symm

end ContentionTest

/-- **The stress test passes, under every schedule.**  For any number of threads, of nodes
for each, and any distinct nodes, no call of `Pop` ever returns `nullptr`; until the test is
over some thread can take a step; there are not more steps than the calls pay for, besides
those that a compare-exchange failing without reason costs; and at the end `successPop` is
the number of nodes, the list is empty, and every node has been popped once. -/
theorem contentionTest_passes (numThreads opsPerThread : ℕ) (nodes owner next : ℕ → ℕ)
    (hnodes : ContentionTest.Allocated numThreads opsPerThread nodes)
    (howner : ∀ t < numThreads, ∀ k < opsPerThread, owner (nodes (t * opsPerThread + k)) = t)
    (hsize : 2 * (numThreads * opsPerThread) < 2 ^ 64) (ops : List ContentionOp)
    (s : ContentionTest)
    (hrun : (contentionMachine numThreads opsPerThread nodes).Reaches (.start owner next) ops s) :
    s.list.history.count .empty = 0 ∧
      (¬ s.Finished numThreads opsPerThread →
        ∃ op, (contentionMachine numThreads opsPerThread nodes).pre s op) ∧
      ops.length ≤ 4 * numThreads + 1 +
        (2 * numThreads + 1) * (2 * (numThreads * opsPerThread)) +
          2 * ops.countP ContentionOp.spurious ∧
      (s.Finished numThreads opsPerThread →
        s.successPop = numThreads * opsPerThread ∧ s.list.head.ptr = 0 ∧
          ∀ t < numThreads, ∀ k < opsPerThread,
            s.list.history.count (.pop (nodes (t * opsPerThread + k))) = 1) := by
  have hruns := hrun.amortized
    (I := fun u => ∃ l, ContentionTest.Inv numThreads opsPerThread nodes u l)
    (Q := fun _ => True) (Φ := fun u => u.stepsLeft numThreads)
    (G := fun u => (2 * numThreads + 1) * u.list.history.length) (B := fun _ => true)
    (E := ContentionOp.spurious) (k := 2) ?_ ⟨[], ContentionTest.inv_start howner⟩
    (fun _ _ => trivial)
  · obtain ⟨⟨l, hinv⟩, hpaid⟩ := hruns
    refine ⟨hinv.notEmpty, hinv.exists_step, ?_, hinv.finished⟩
    have hstart : (ContentionTest.start owner next).stepsLeft numThreads ≤ 4 * numThreads + 1 :=
      Nat.add_le_add_right (LockFreeFreelist.stepsLeft_le _ numThreads) 1
    have hgain : (2 * numThreads + 1) * s.list.history.length
        ≤ (2 * numThreads + 1) * (2 * (numThreads * opsPerThread)) :=
      Nat.mul_le_mul_left _ hinv.length_le
    have hcount : ops.countP (fun _ => true) = ops.length :=
      congrFun List.countP_true ops
    rw [hcount] at hpaid
    omega
  · rintro u op u' ⟨l, hu⟩ - hpre hexec
    obtain rfl : u.exec opsPerThread nodes op = u' := Option.some.inj hexec
    exact ⟨hu.exec hnodes hsize hpre, hu.exec_paid hnodes hpre⟩

/-- Two threads, one node each: the producers get in each other's way, and so do the
consumers. -/
def twoByOne : List ContentionOp :=
  [.call 0, .call 1, .step 0 false, .step 1 false, .step 0 false, .step 1 false, .step 1 false,
    .step 1 true, .step 1 false, .step 1 false, .join,
    .call 0, .call 1, .step 0 false, .step 1 false, .step 1 false, .step 0 false, .step 0 false,
    .step 0 false]

theorem twoByOne_passes : ∃ s,
    (contentionMachine 2 1 (fun k => 8 * (k + 1))).Reaches
      (.start (fun p => p / 8 - 1) (fun _ => 0)) twoByOne s ∧ s.successPop = 2 := by
  have hlegal : (contentionMachine 2 1 (fun k => 8 * (k + 1))).Legal
      (.start (fun p => p / 8 - 1) (fun _ => 0)) twoByOne := by decide +kernel
  have hends : ((contentionMachine 2 1 (fun k => 8 * (k + 1))).run
      (.start (fun p => p / 8 - 1) (fun _ => 0)) twoByOne).map
        (fun s => decide (s.Finished 2 1)) = some true := by decide +kernel
  obtain ⟨s, hrun, hs⟩ := Option.map_eq_some_iff.mp hends
  have hfinal := contentionTest_passes 2 1 (fun k => 8 * (k + 1)) (fun p => p / 8 - 1)
    (fun _ => 0) ⟨by decide, by decide⟩ (by decide) (by norm_num) twoByOne s ⟨hlegal, hrun⟩
  have hfinished : s.Finished 2 1 := of_decide_eq_true hs
  exact ⟨s, ⟨hlegal, hrun⟩, (hfinal.2.2.2 hfinished).1⟩

end Memory
