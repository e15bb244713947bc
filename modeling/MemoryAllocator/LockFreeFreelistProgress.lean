/-
# Progress of `LockFreeFreelist.hpp`

`Push` and `Pop` are loops around a compare-exchange that may fail, so no bound on the
steps of one call exists.  The comments of the class promise that they are lock-free: the
threads together make progress.  Here this is counted.

A thread that reads `head_` and is not disturbed needs a fixed number of steps to complete
its call, `stepsLeft`.  Every step lowers the sum of these numbers, but for two kinds: a
compare-exchange that fails without reason, and a step that completes a call, after which
what the others have read is out of date.  A run therefore has at most as many steps as
its completed calls pay for.  The bound says nothing about one thread, and cannot: a
thread may fail at its compare-exchange as often as another one completes a call.
-/
import MemoryAllocator.LockFreeFreelist

namespace GuardedMachine

variable {σ Op : Type*} {M : GuardedMachine σ Op}

/-- The number of operations of a kind, with one more at the end. -/
theorem countP_concat (p : Op → Bool) (ops : List Op) (op : Op) :
    (ops ++ [op]).countP p = ops.countP p + (p op).toNat := by
  rw [List.countP_append, List.countP_singleton]
  cases p op <;> rfl

/-- **Amortized cost.**  Let every operation of the kind `B` cost one, let those of the kind
`E` be paid for, `k` each, and let no step cost more than the potential `Φ` falls by, plus
what `G` grows by and what is paid.  Then this is so for whole runs. -/
theorem Reaches.amortized {I : σ → Prop} {Q : Op → Prop} {Φ G : σ → ℕ} {B E : Op → Bool} {k : ℕ}
    (step : ∀ s op t, I s → Q op → M.pre s op → M.exec s op = some t →
      I t ∧ Φ t + (B op).toNat + G s ≤ Φ s + G t + k * (E op).toNat)
    {s t : σ} {ops : List Op} (hs : I s) (hQ : ∀ op ∈ ops, Q op) (h : M.Reaches s ops t) :
    I t ∧ Φ t + ops.countP B + G s ≤ Φ s + G t + k * ops.countP E := by
  induction ops using List.reverseRecOn generalizing t with
  | nil =>
    rw [reaches_nil] at h
    rw [← h]
    exact ⟨hs, le_refl _⟩
  | append_singleton ops op ih =>
    obtain ⟨u, hu, hpre, hexec⟩ := reaches_concat.mp h
    obtain ⟨hI, hrun⟩ := ih (fun op' hop' => hQ op' (List.mem_append_left _ hop')) hu
    obtain ⟨ht, hlast⟩ := step u op t hI (hQ op (by simp)) hpre hexec
    refine ⟨ht, ?_⟩
    rw [countP_concat, countP_concat, Nat.mul_add]
    omega

end GuardedMachine

namespace Memory

open Finset

/-! ## What a run costs -/

/-- The thread that takes the step. -/
def FreelistOp.thread : FreelistOp → ℕ
  | .push t _ => t
  | .pop t => t
  | .step t _ => t
  | .overwrite t _ _ => t

/-- A step inside of `Push` or `Pop`; the writes of the owners are no part of them. -/
def FreelistOp.inCall : FreelistOp → Bool
  | .overwrite _ _ _ => false
  | _ => true

/-- A step at which the compare-exchange fails without reason. -/
def FreelistOp.spurious : FreelistOp → Bool
  | .step _ spurious => spurious
  | _ => false

/-- The steps to the end of a call, its first one included, for a thread that nobody
disturbs.  One whose `oldHead` is out of date fails once. -/
def FreelistCall.stepsLeft (head : TaggedPointer) : FreelistCall → ℕ
  | .idle => 3
  | .pushStore _ oldHead => if head = oldHead then 2 else 4
  | .pushCas _ oldHead => if head = oldHead then 1 else 3
  | .popLoad oldHead => if head = oldHead then 2 else 4
  | .popCas oldHead _ => if head = oldHead then 1 else 3

theorem FreelistCall.stepsLeft_le (head : TaggedPointer) (c : FreelistCall) :
    c.stepsLeft head ≤ 4 := by
  cases c <;> simp only [FreelistCall.stepsLeft] <;> (try split_ifs) <;> omega

theorem FreelistCall.stepsLeft_pos (head : TaggedPointer) (c : FreelistCall) :
    0 < c.stepsLeft head := by
  cases c <;> simp only [FreelistCall.stepsLeft] <;> (try split_ifs) <;> omega

/-- A new head costs a thread two more steps. -/
theorem FreelistCall.stepsLeft_change (head head' : TaggedPointer) (c : FreelistCall) :
    c.stepsLeft head' ≤ c.stepsLeft head + 2 := by
  cases c <;> simp only [FreelistCall.stepsLeft] <;> (try split_ifs) <;> omega

namespace LockFreeFreelist

variable {s s' : LockFreeFreelist} {t T : ℕ} {c : FreelistCall}

/-- The steps that the first `T` threads have left. -/
def stepsLeft (s : LockFreeFreelist) (T : ℕ) : ℕ :=
  ∑ t ∈ range T, (s.call t).stepsLeft s.head

theorem stepsLeft_le (s : LockFreeFreelist) (T : ℕ) : s.stepsLeft T ≤ 4 * T := by
  calc s.stepsLeft T ≤ ∑ _t ∈ range T, 4 :=
        sum_le_sum (fun t _ => FreelistCall.stepsLeft_le s.head (s.call t))
    _ = 4 * T := by rw [sum_const, card_range, smul_eq_mul, mul_comm]

/-- A step that leaves the head alone matters to its own thread only. -/
theorem stepsLeft_of_same (hcall : s'.call = Function.update s.call t c)
    (hhead : s'.head = s.head) (ht : t < T) :
    s'.stepsLeft T + (s.call t).stepsLeft s.head = s.stepsLeft T + c.stepsLeft s.head := by
  have hmem : t ∈ range T := mem_range.mpr ht
  have hrest : ∑ u ∈ (range T).erase t, (s'.call u).stepsLeft s'.head
      = ∑ u ∈ (range T).erase t, (s.call u).stepsLeft s.head := by
    apply sum_congr rfl
    intro u hu
    rw [hcall, hhead, Function.update_of_ne (ne_of_mem_erase hu)]
  rw [stepsLeft, stepsLeft, ← add_sum_erase _ _ hmem, ← add_sum_erase _ _ hmem, hrest, hcall,
    hhead, Function.update_self]
  omega

/-- A step that installs a new head costs every thread two more steps at most. -/
theorem stepsLeft_of_install (hcall : s'.call = Function.update s.call t .idle)
    (hone : (s.call t).stepsLeft s.head = 1) : s'.stepsLeft T ≤ s.stepsLeft T + 2 * T := by
  have hstep : ∀ u ∈ range T,
      (s'.call u).stepsLeft s'.head ≤ (s.call u).stepsLeft s.head + 2 := by
    intro u _
    rw [hcall]
    by_cases hu : u = t
    · rw [hu, Function.update_self, hone]
      exact le_refl 3
    · rw [Function.update_of_ne hu]
      exact FreelistCall.stepsLeft_change _ _ _
  calc s'.stepsLeft T ≤ ∑ u ∈ range T, ((s.call u).stepsLeft s.head + 2) := sum_le_sum hstep
    _ = s.stepsLeft T + 2 * T := by
      rw [sum_add_distrib, sum_const, card_range, smul_eq_mul, mul_comm T 2, stepsLeft]

/-! ## One step -/

/-- What a step of a call does: the thread goes on, to a place with fewer steps left or
because of a failure without reason, or it completes its call, and then either the head is
the same or its compare-exchange has succeeded. -/
inductive Outcome (s s' : LockFreeFreelist) (t : ℕ) (spurious : Bool) : Prop where
  | goto (c : FreelistCall) (hcall : s'.call = Function.update s.call t c) (hc : c ≠ .idle)
      (hhead : s'.head = s.head) (hhistory : s'.history = s.history)
      (hleft : c.stepsLeft s.head < (s.call t).stepsLeft s.head ∨
        spurious = true ∧ c.stepsLeft s.head = 2)
  | complete (hcall : s'.call = Function.update s.call t .idle)
      (hhistory : s'.history.length = s.history.length + 1)
      (hhead : s'.head = s.head ∨ (s.call t).stepsLeft s.head = 1)

/-- A compare-exchange that does not succeed has met another head, or has failed without
reason. -/
theorem stale_or_spurious {oldHead : TaggedPointer} {spurious : Bool}
    (h : ¬ (s.head = oldHead ∧ spurious = false)) : s.head ≠ oldHead ∨ spurious = true := by
  rcases not_and_or.mp h with hhead | hspurious
  · exact .inl hhead
  · exact .inr (Bool.eq_true_of_not_eq_false hspurious)

/-- After the failure the call has two steps left. -/
theorem left_of_failure {oldHead : TaggedPointer} {spurious : Bool}
    (h : ¬ (s.head = oldHead ∧ spurious = false)) {c : FreelistCall}
    (hc : c.stepsLeft s.head = 2)
    (hthree : s.head ≠ oldHead → (s.call t).stepsLeft s.head = 3) :
    c.stepsLeft s.head < (s.call t).stepsLeft s.head ∨
      spurious = true ∧ c.stepsLeft s.head = 2 := by
  rcases stale_or_spurious h with hstale | hspurious
  · left
    rw [hc, hthree hstale]
    exact Nat.lt_succ_self 2
  · exact .inr ⟨hspurious, hc⟩

/-- The head of the loop of `Pop`: an empty list ends the call. -/
theorem popLoop_outcome {spurious : Bool}
    (hleft : 2 < (s.call t).stepsLeft s.head ∨ spurious = true) :
    Outcome s (s.popLoop t) t spurious := by
  rw [popLoop]
  split_ifs with hnull
  · exact .complete rfl rfl (.inl rfl)
  · have htwo : (FreelistCall.popLoad s.head).stepsLeft s.head = 2 := if_pos rfl
    refine .goto (.popLoad s.head) rfl (by simp) rfl rfl ?_
    rw [htwo]
    exact hleft.imp id (fun hspurious => ⟨hspurious, rfl⟩)

theorem advance_outcome (spurious : Bool) (hcall : s.call t ≠ .idle) :
    Outcome s (s.advance t spurious) t spurious := by
  unfold advance
  cases hc : s.call t with
  | idle => exact absurd hc hcall
  | pushStore node oldHead =>
    refine .goto (.pushCas node oldHead) rfl (by simp) rfl rfl (.inl ?_)
    rw [hc, FreelistCall.stepsLeft, FreelistCall.stepsLeft]
    split_ifs <;> omega
  | pushCas node oldHead =>
    simp only
    split_ifs with hsuccess
    · refine .complete rfl rfl (.inr ?_)
      rw [hc]
      exact if_pos hsuccess.1
    · refine .goto (.pushStore node s.head) rfl (by simp) rfl rfl
        (left_of_failure hsuccess (if_pos rfl) ?_)
      intro hstale
      rw [hc]
      exact if_neg hstale
  | popLoad oldHead =>
    refine .goto (.popCas oldHead (s.next oldHead.ptr)) rfl (by simp) rfl rfl (.inl ?_)
    rw [hc, FreelistCall.stepsLeft, FreelistCall.stepsLeft]
    split_ifs <;> omega
  | popCas oldHead nextNode =>
    simp only
    split_ifs with hsuccess
    · refine .complete rfl rfl (.inr ?_)
      rw [hc]
      exact if_pos hsuccess.1
    · apply popLoop_outcome
      refine (stale_or_spurious hsuccess).imp (fun hstale => ?_) id
      rw [hc, show (FreelistCall.popCas oldHead nextNode).stepsLeft s.head = 3 from if_neg hstale]
      exact Nat.lt_succ_self 2

/-- **Every step inside of a call** has such an outcome. -/
theorem exec_outcome {op : FreelistOp} (hpre : freelistMachine.pre s op)
    (hin : op.inCall = true) : Outcome s (s.exec op) op.thread op.spurious := by
  cases op with
  | push t node =>
    have htwo : (FreelistCall.pushStore node s.head).stepsLeft s.head = 2 := if_pos rfl
    refine .goto (.pushStore node s.head) rfl (by simp) rfl rfl (.inl ?_)
    show (FreelistCall.pushStore node s.head).stepsLeft s.head < (s.call t).stepsLeft s.head
    rw [hpre.1, htwo]
    exact Nat.lt_succ_self 2
  | pop t =>
    apply popLoop_outcome
    show 2 < (s.call t).stepsLeft s.head ∨ false = true
    rw [show s.call t = .idle from hpre]
    exact .inl (Nat.lt_succ_self 2)
  | step t spurious => exact advance_outcome spurious hpre
  | overwrite t node v => exact absurd hin Bool.false_ne_true

/-- What the step costs is paid for: by the fall of what is left, by the call that it
completes, or by its failing without reason. -/
theorem Outcome.paid {spurious : Bool} (h : Outcome s s' t spurious) (ht : t < T) :
    s'.stepsLeft T + 1 + (2 * T + 1) * s.history.length
      ≤ s.stepsLeft T + (2 * T + 1) * s'.history.length + 2 * spurious.toNat := by
  have hpos := FreelistCall.stepsLeft_pos s.head (s.call t)
  cases h with
  | goto c hcall hc hhead hhistory hleft =>
    have hsum := stepsLeft_of_same hcall hhead ht
    rw [hhistory]
    rcases hleft with hlt | ⟨rfl, htwo⟩
    · omega
    · rw [Bool.toNat_true]
      omega
  | complete hcall hhistory hhead =>
    rw [hhistory, Nat.mul_succ]
    rcases hhead with hsame | hone
    · have hsum := stepsLeft_of_same hcall hsame ht
      have hidle : FreelistCall.idle.stepsLeft s.head = 3 := rfl
      omega
    · have hsum := stepsLeft_of_install (T := T) hcall hone
      omega

/-- The writes of the owners change nothing that is counted. -/
theorem exec_of_not_inCall (s : LockFreeFreelist) {op : FreelistOp} (h : op.inCall = false)
    (T : ℕ) : (s.exec op).stepsLeft T = s.stepsLeft T ∧ (s.exec op).history = s.history := by
  cases op with
  | overwrite t node v => exact ⟨rfl, rfl⟩
  | push t node => exact absurd h Bool.noConfusion
  | pop t => exact absurd h Bool.noConfusion
  | step t spurious => exact absurd h Bool.noConfusion

theorem exec_paid {op : FreelistOp} (ht : op.thread < T) (hpre : freelistMachine.pre s op) :
    (s.exec op).stepsLeft T + op.inCall.toNat + (2 * T + 1) * s.history.length
      ≤ s.stepsLeft T + (2 * T + 1) * (s.exec op).history.length + 2 * op.spurious.toNat := by
  cases hin : op.inCall with
  | false =>
    obtain ⟨hleft, hhistory⟩ := s.exec_of_not_inCall hin T
    rw [hleft, hhistory, Bool.toNat_false]
    omega
  | true => exact (exec_outcome hpre hin).paid ht

/-- No step takes a completed call back. -/
theorem history_le_exec (s : LockFreeFreelist) {op : FreelistOp}
    (hpre : freelistMachine.pre s op) : s.history.length ≤ (s.exec op).history.length := by
  cases hin : op.inCall with
  | false => rw [(s.exec_of_not_inCall hin 0).2]
  | true =>
    cases exec_outcome hpre hin with
    | goto c hcall hc hhead hhistory hleft => rw [hhistory]
    | complete hcall hhistory hhead => omega

end LockFreeFreelist

/-! ## Runs -/

/-- **The threads together make progress.**  In any state, and however `T` threads are
scheduled from there, the steps that they take inside of `Push` and `Pop` are paid for: by
the calls that are completed meanwhile, each of which can set every thread back by one
attempt, and by the compare-exchanges that fail without reason.  So as long as no call is
completed, at most `4 * T` steps are taken besides those. -/
theorem lockFreeFreelist_lockFree (T : ℕ) (s s' : LockFreeFreelist) (ops : List FreelistOp)
    (hrun : freelistMachine.Reaches s ops s') (hthreads : ∀ op ∈ ops, op.thread < T) :
    s.history.length ≤ s'.history.length ∧
      ops.countP FreelistOp.inCall ≤ 4 * T +
        (2 * T + 1) * (s'.history.length - s.history.length) +
          2 * ops.countP FreelistOp.spurious := by
  have hpaid := hrun.amortized (I := fun u => s.history.length ≤ u.history.length)
    (Q := fun op => op.thread < T) (Φ := fun u => u.stepsLeft T)
    (G := fun u => (2 * T + 1) * u.history.length) (B := FreelistOp.inCall)
    (E := FreelistOp.spurious) (k := 2) ?_ (le_refl _) hthreads
  · have hstart := s.stepsLeft_le T
    have hgain : (2 * T + 1) * (s'.history.length - s.history.length)
        = (2 * T + 1) * s'.history.length - (2 * T + 1) * s.history.length := Nat.mul_sub ..
    refine ⟨hpaid.1, ?_⟩
    omega
  · intro u op u' hu ht hpre hexec
    obtain rfl : u.exec op = u' := Option.some.inj hexec
    exact ⟨hu.trans (u.history_le_exec hpre), LockFreeFreelist.exec_paid ht hpre⟩

/-- In the run of two threads that ends with a stale compare-exchange, eighteen steps
complete five calls. -/
theorem abaRun_lockFree :
    ∃ s', freelistMachine.Reaches (.start (fun _ => 1) (fun _ => 0)) abaRun s' ∧
      abaRun.countP FreelistOp.inCall ≤ 4 * 2 +
        (2 * 2 + 1) * (s'.history.length - 0) + 2 * abaRun.countP FreelistOp.spurious := by
  have hlegal : freelistMachine.Legal (.start (fun _ => 1) (fun _ => 0)) abaRun := by
    decide +kernel
  have hreturns : (freelistMachine.run (.start (fun _ => 1) (fun _ => 0)) abaRun).isSome = true := by
    decide +kernel
  obtain ⟨s', hrun⟩ := Option.isSome_iff_exists.mp hreturns
  have hthreads : ∀ op ∈ abaRun, op.thread < 2 := by decide
  exact ⟨s', ⟨hlegal, hrun⟩, (lockFreeFreelist_lockFree 2 _ s' abaRun ⟨hlegal, hrun⟩ hthreads).2⟩

namespace LockFreeFreelist

variable {s : LockFreeFreelist} {t u node m : ℕ}

/-- **A thread that is alone completes its call**, within the steps that it has left. -/
theorem completes_alone (hcall : s.call t ≠ .idle) :
    ∃ k s', k ≤ (s.call t).stepsLeft s.head ∧
      freelistMachine.Reaches s (List.replicate k (.step t false)) s' ∧
      s'.history.length = s.history.length + 1 := by
  -- by induction on the steps left
  generalize hn : (s.call t).stepsLeft s.head = n
  induction n using Nat.strong_induction_on generalizing s with
  | _ n ih =>
    have hfirst : freelistMachine.Reaches s [.step t false] (s.advance t false) :=
      .single hcall rfl
    have hpos := FreelistCall.stepsLeft_pos s.head (s.call t)
    cases advance_outcome false hcall with
    | complete hcall' hhistory hhead =>
      refine ⟨1, s.advance t false, ?_, hfirst, hhistory⟩
      omega
    | goto c hcall' hc hhead hhistory hleft =>
      have hat : (s.advance t false).call t = c := by rw [hcall', Function.update_self]
      have hlt : ((s.advance t false).call t).stepsLeft (s.advance t false).head < n := by
        rw [hat, hhead]
        rcases hleft with hlt | ⟨hspurious, -⟩
        · exact hn ▸ hlt
        · exact absurd hspurious Bool.false_ne_true
      obtain ⟨k, s', hk, hrun, hs'⟩ := ih _ hlt (by rw [hat]; exact hc) rfl
      refine ⟨k + 1, s', ?_, hfirst.append hrun, ?_⟩
      · omega
      · rw [hs', hhistory]

/-! ## Two threads -/

/-- A step of a thread inside of a call. -/
theorem reaches_step (hcall : s.call t ≠ .idle) {s' : LockFreeFreelist}
    (hs' : s.advance t false = s') : freelistMachine.Reaches s [.step t false] s' :=
  hs' ▸ .single hcall rfl

/-- A call that ends where it began, outside of any call. -/
theorem update_idle (hidle : s.call u = .idle) (c : FreelistCall) :
    Function.update (Function.update s.call u c) u .idle = s.call := by
  rw [Function.update_idem, ← hidle, Function.update_eq_self]

/-- A call of `Push` that nobody disturbs. -/
theorem push_undisturbed (hidle : s.call u = .idle) (howner : s.owner m = some u) (hne : m ≠ 0) :
    ∃ s', freelistMachine.Reaches s [.push u m, .step u false, .step u false] s' ∧
      s'.call = s.call ∧ s'.head = ⟨m, Word64.add s.head.tag 1⟩ ∧ s'.next m = s.head.ptr ∧
      s'.owner = Function.update s.owner m none ∧ s'.history = .push m :: s.history := by
  have hload : freelistMachine.Reaches s [.push u m] (s.goto u (.pushStore m s.head)) :=
    .single ⟨hidle, howner, hne⟩ rfl
  have hstore : freelistMachine.Reaches (s.goto u (.pushStore m s.head)) [.step u false]
      { s.goto u (.pushCas m s.head) with next := Function.update s.next m s.head.ptr } := by
    apply reaches_step <;> simp [goto, advance]
  refine ⟨_, hload.append (hstore.append (reaches_step ?_ rfl)), ?_⟩
  · simp [goto]
  · simp [goto, advance, install, update_idle hidle]

/-- A call of `Pop` that nobody disturbs, when the list is not empty. -/
theorem pop_undisturbed (hidle : s.call u = .idle) (hne : s.head.ptr ≠ 0) :
    ∃ s', freelistMachine.Reaches s [.pop u, .step u false, .step u false] s' ∧
      s'.call = s.call ∧ s'.head = ⟨s.next s.head.ptr, Word64.add s.head.tag 1⟩ ∧
      s'.owner = Function.update s.owner s.head.ptr (some u) ∧
      s'.history = .pop s.head.ptr :: s.history := by
  have hload : freelistMachine.Reaches s [.pop u] (s.goto u (.popLoad s.head)) := by
    refine .single hidle ?_
    show some (s.popLoop u) = _
    rw [popLoop, if_neg hne]
  have hnext : freelistMachine.Reaches (s.goto u (.popLoad s.head)) [.step u false]
      (s.goto u (.popCas s.head (s.next s.head.ptr))) := by
    apply reaches_step <;> simp [goto, advance]
  refine ⟨_, hload.append (hnext.append (reaches_step ?_ rfl)), ?_⟩
  · simp [goto]
  · simp [goto, advance, install, update_idle hidle]

/-- Thread `t` is about to store the present head in the node that it pushes, and thread
`u`, outside of any call, owns a node. -/
structure Rivals (s : LockFreeFreelist) (t u node m : ℕ) : Prop where
  ne : t ≠ u
  pushing : s.call t = .pushStore node s.head
  idle : s.call u = .idle
  owned : s.owner m = some u
  ne_null : m ≠ 0

/-- Thread `u` pushes its node and pops it again, between the store of thread `t` and its
compare-exchange. -/
def rivalRound (t u m : ℕ) : List FreelistOp :=
  [.step t false] ++ ([.push u m, .step u false, .step u false] ++
    ([.pop u, .step u false, .step u false] ++ [.step t false]))

/-- Two successful compare-exchanges change the tag. -/
theorem add_add_tag_ne (tag : ℕ) : Word64.add (Word64.add tag 1) 1 ≠ tag := by
  rw [Word64.add, Word64.add]
  omega

/-- After the round the threads are where they were, and `u` has completed two calls. -/
theorem Rivals.round (h : s.Rivals t u node m) :
    ∃ s', freelistMachine.Reaches s (rivalRound t u m) s' ∧ s'.Rivals t u node m ∧
      s'.history.length = s.history.length + 2 := by
  have hne := h.ne
  have hpushing := h.pushing
  have hut : ∀ c, Function.update s.call t c u = .idle := by
    intro c
    rw [Function.update_of_ne hne.symm, h.idle]
  -- the store of `t`
  let s₁ : LockFreeFreelist := { s.goto t (.pushCas node s.head) with
    next := Function.update s.next node s.head.ptr }
  have hstore : freelistMachine.Reaches s [.step t false] s₁ := by
    apply reaches_step
    · rw [hpushing]
      simp
    · rw [advance, hpushing]
  -- the two calls of `u`
  obtain ⟨s₂, hpush, hcall₂, hhead₂, hnext₂, howner₂, hhistory₂⟩ :=
    push_undisturbed (s := s₁) (hut _) h.owned h.ne_null
  have hidle₂ : s₂.call u = .idle := by
    rw [hcall₂]
    exact hut _
  have hne₂ : s₂.head.ptr ≠ 0 := by
    rw [hhead₂]
    exact h.ne_null
  obtain ⟨s₃, hpop, hcall₃, hhead₃, howner₃, hhistory₃⟩ := pop_undisturbed hidle₂ hne₂
  -- the compare-exchange of `t` meets the same node with another tag
  have hcall : s₃.call = Function.update s.call t (.pushCas node s.head) :=
    hcall₃.trans hcall₂
  have htag : s₃.head ≠ s.head := by
    intro heq
    rw [hhead₃, hhead₂] at heq
    exact add_add_tag_ne s.head.tag (congrArg TaggedPointer.tag heq)
  have hat : s₃.call t = .pushCas node s.head := by rw [hcall, Function.update_self]
  have hcas : freelistMachine.Reaches s₃ [.step t false] (s₃.goto t (.pushStore node s₃.head)) := by
    apply reaches_step
    · rw [hat]
      simp
    · rw [advance, hat]
      exact if_neg (fun hand => htag hand.1)
  refine ⟨_, hstore.append (hpush.append (hpop.append hcas)), ⟨hne, ?_, ?_, ?_, h.ne_null⟩, ?_⟩
  · exact Function.update_self ..
  · show Function.update s₃.call t _ u = .idle
    rw [Function.update_of_ne hne.symm, hcall]
    exact hut _
  · show s₃.owner m = some u
    rw [howner₃, hhead₂, Function.update_self]
  · show s₃.history.length = s.history.length + 2
    rw [hhistory₃, hhistory₂]
    rfl

/-- The rounds, `n` of them. -/
def rivalRun (t u m n : ℕ) : List FreelistOp := (List.replicate n (rivalRound t u m)).flatten

theorem Rivals.run (h : s.Rivals t u node m) (n : ℕ) :
    ∃ s', freelistMachine.Reaches s (rivalRun t u m n) s' ∧ s'.Rivals t u node m ∧
      s'.history.length = s.history.length + 2 * n := by
  induction n generalizing s with
  | zero => exact ⟨s, (GuardedMachine.reaches_nil s s).mpr rfl, h, rfl⟩
  | succ n ih =>
    obtain ⟨s₁, hround, h₁, hhistory₁⟩ := h.round
    obtain ⟨s₂, hrun, h₂, hhistory₂⟩ := ih h₁
    refine ⟨s₂, ?_, h₂, ?_⟩
    · rw [rivalRun, List.replicate_succ, List.flatten_cons]
      exact hround.append hrun
    · rw [hhistory₂, hhistory₁]
      omega

/-- The thread that tries takes two steps in every round. -/
theorem filter_rivalRun (hne : t ≠ u) (n : ℕ) :
    (rivalRun t u m n).filter (fun op => op.thread = t)
      = List.replicate (2 * n) (.step t false) := by
  have hround : (rivalRound t u m).filter (fun op => op.thread = t)
      = List.replicate 2 (.step t false) := by
    simp [rivalRound, FreelistOp.thread, hne.symm, List.replicate]
  induction n with
  | zero => rfl
  | succ n ih =>
    have hsplit : rivalRun t u m (n + 1) = rivalRound t u m ++ rivalRun t u m n := by
      rw [rivalRun, List.replicate_succ, List.flatten_cons, rivalRun]
    rw [hsplit, List.filter_append, hround, ih, List.replicate_append_replicate,
      show 2 + 2 * n = 2 * (n + 1) from by omega]

theorem not_spurious_of_mem_rivalRun {n : ℕ} {op : FreelistOp} (h : op ∈ rivalRun t u m n) :
    op.spurious = false := by
  obtain ⟨round, hround, hop⟩ := List.mem_flatten.mp h
  rw [List.eq_of_mem_replicate hround] at hop
  simp only [rivalRound, List.cons_append, List.nil_append, List.mem_cons, List.not_mem_nil,
    or_false] at hop
  rcases hop with rfl | rfl | rfl | rfl | rfl | rfl | rfl | rfl <;> rfl

end LockFreeFreelist

/-- **Progress of one thread.**  A call is completed within four steps of its thread if the
others stand still.  But it is not promised more than that: from every state in which a
thread is about to store the head in the node that it pushes, another thread, with one node
of its own, can complete any number of calls while the first takes a step for each of them
and is where it was, although no compare-exchange fails without reason. -/
theorem lockFreeFreelist_one_thread (s : LockFreeFreelist) (t : ℕ) :
    (s.call t ≠ .idle → ∃ k s', k ≤ 4 ∧
      freelistMachine.Reaches s (List.replicate k (.step t false)) s' ∧
      s'.history.length = s.history.length + 1) ∧
    ∀ u node m, s.Rivals t u node m → ∀ n, ∃ ops s', freelistMachine.Reaches s ops s' ∧
      (∀ op ∈ ops, op.spurious = false) ∧
      ops.filter (fun op => op.thread = t) = List.replicate (2 * n) (.step t false) ∧
      s'.history.length = s.history.length + 2 * n ∧ s'.call t = .pushStore node s'.head := by
  constructor
  · intro hcall
    obtain ⟨k, s', hk, hrun, hs'⟩ := LockFreeFreelist.completes_alone hcall
    exact ⟨k, s', hk.trans (FreelistCall.stepsLeft_le _ _), hrun, hs'⟩
  · intro u node m h n
    obtain ⟨s', hrun, h', hhistory⟩ := h.run n
    exact ⟨_, s', hrun, fun op hop => LockFreeFreelist.not_spurious_of_mem_rivalRun hop,
      LockFreeFreelist.filter_rivalRun h.ne n, hhistory, h'.pushing⟩

/-- Thread `0` has begun to push node `8`, and thread `1` owns node `16`. -/
def rivalStart : LockFreeFreelist :=
  (LockFreeFreelist.start (fun node => if node = 8 then 0 else 1) (fun _ => 0)).exec (.push 0 8)

/-- Thread `1` completes two thousand calls meanwhile. -/
theorem rivalStart_one_thread :
    ∃ ops s', freelistMachine.Reaches rivalStart ops s' ∧
      ops.filter (fun op => op.thread = 0) = List.replicate 2000 (.step 0 false) ∧
      s'.history.length = 2000 ∧ s'.call 0 = .pushStore 8 s'.head := by
  have hrivals : rivalStart.Rivals 0 1 8 16 := ⟨by decide, rfl, rfl, rfl, by decide⟩
  obtain ⟨ops, s', hrun, -, hfilter, hhistory, hcall⟩ :=
    (lockFreeFreelist_one_thread rivalStart 0).2 1 8 16 hrivals 1000
  exact ⟨ops, s', hrun, hfilter, hhistory, hcall⟩

end Memory
