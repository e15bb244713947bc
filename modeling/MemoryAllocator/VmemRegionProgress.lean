/-
# The worker of a region makes progress

Three things that the owner relies on, or should know.  A join always returns: once
`_stop_bg` is set the worker ends within a bounded number of its own steps, so the
destructor and the move constructor do not hang.  Left alone, the worker catches up with
the watermark, `kWatermarkPages` pages ahead of the consumed bytes, and it never goes
further ahead.  And a move while the worker is about to touch makes it write through the
null pointer.
-/
import MemoryAllocator.VmemRegionPages

namespace Memlab

namespace RegionSystem

/-! ## One turn of the worker's loop -/

/-- The pages that the touching loop may have to touch. -/
def pages (b : Build) (S : ℕ) : ℕ := (S + b.pageSize - 1) / b.pageSize

/-- A bound on the worker's steps to its next load of `_stop_bg`. -/
def stepsToTest (b : Build) (S offset : ℕ) : Worker → ℕ
  | .test | .done => 0
  | .sleep => 1
  | .publish _ => 2
  | .touch _ target off => 3 + pages b (target - offset - off)
  | .locate _ => 4 + pages b S
  | .compare _ => 5 + pages b S
  | .cut => 6 + pages b S
  | .clamp _ => 7 + pages b S
  | .load => 8 + pages b S

theorem pages_mono {b : Build} {x y : ℕ} (h : x ≤ y) : pages b x ≤ pages b y := by
  unfold pages
  apply Nat.div_le_div_right
  omega

/-- A turn of the touching loop. -/
theorem pages_sub {b : Build} {x : ℕ} (h : 0 < x) : pages b (x - b.pageSize) + 1 ≤ pages b x := by
  have hpos := b.pageSize_pos
  unfold pages
  by_cases hx : b.pageSize ≤ x
  · rw [show x + b.pageSize - 1 = x - b.pageSize + b.pageSize - 1 + b.pageSize by omega,
      Nat.add_div_right _ hpos]
  · have hzero : x - b.pageSize = 0 := by omega
    rw [hzero, Nat.div_eq_of_lt (by omega), Nat.zero_add, Nat.le_div_iff_mul_le hpos]
    omega

theorem stepsToTest_le (b : Build) {B S offset : ℕ} {w : Worker} (hfits : w.Fits B S offset) :
    stepsToTest b S offset w ≤ 8 + pages b S := by
  cases w with
  | touch p target off =>
    have hmono : pages b (target - offset - off) ≤ pages b S := by
      apply pages_mono
      have hle := hfits.2.1
      omega
    show 3 + pages b (target - offset - off) ≤ _
    omega
  | _ =>
    simp only [stepsToTest]
    omega

end RegionSystem

/-- A worker that moves on comes closer to its next test. -/
theorem Worker.Goes.closer {b : Build} {region : VmemRegion} {B S offset : ℕ} {w w' : Worker}
    (h : w.Goes b region offset w') (hfits : w.Fits B S offset) (htest : w ≠ .test) :
    w' ≠ .done ∧
      RegionSystem.stepsToTest b S offset w' < RegionSystem.stepsToTest b S offset w := by
  cases h with
  | stop | proceed => exact absurd rfl htest
  | load | above | within | cut | behind | ahead | leave | wake =>
    refine ⟨Worker.noConfusion, ?_⟩
    simp only [RegionSystem.stepsToTest]
    omega
  | @locate target =>
    refine ⟨Worker.noConfusion, ?_⟩
    have hmono : RegionSystem.pages b (target - offset - 0) ≤ RegionSystem.pages b S := by
      apply RegionSystem.pages_mono
      have hle := hfits.2
      omega
    simp only [RegionSystem.stepsToTest]
    omega

/-- A worker that has not been told to stop does not end. -/
theorem Worker.Goes.ne_done {b : Build} {region : VmemRegion} {offset : ℕ} {w w' : Worker}
    (h : w.Goes b region offset w') (hstop : region.stopBg = false) : w' ≠ .done := by
  cases h with
  | stop htrue =>
    rw [hstop] at htrue
    cases htrue
  | proceed | load | above | within | cut | behind | ahead | locate | leave | wake =>
    exact Worker.noConfusion

namespace RegionSystem

variable {b : Build} {B S : ℕ} {s t u : RegionSystem} {w w' : Worker} {a : Action}

/-- **Outside of its test, a step of the worker** brings it closer to the next one. -/
theorem Turn.closer (hs : s.Safe b B S) (hturn : Turn b s t) (hw : s.worker = some w)
    (htest : w ≠ .test) :
    ∃ w', t.worker = some w' ∧ w' ≠ .done ∧
      stepsToTest b S t.offset w' < stepsToTest b S s.offset w := by
  cases hturn with
  | goes hw₁ hgo =>
    obtain rfl := Option.some.inj (hw.symm.trans hw₁)
    exact ⟨_, rfl, hgo.closer (hs.busy.fits _ hw) htest⟩
  | populates hw₁ | publishes hw₁ =>
    obtain rfl := Option.some.inj (hw.symm.trans hw₁)
    refine ⟨_, rfl, Worker.noConfusion, ?_⟩
    simp only [stepsToTest]
    omega
  | @writes p target off hw₁ hoff =>
    obtain rfl := Option.some.inj (hw.symm.trans hw₁)
    refine ⟨_, rfl, Worker.noConfusion, ?_⟩
    have hsub := pages_sub (b := b) (x := target - s.offset - off) (by omega)
    rw [Nat.sub_sub _ off] at hsub
    simp only [stepsToTest, write_frame]
    omega

theorem Aside.trans (h : Aside s t) (h' : Aside t u) : Aside s u where
  owner := h'.owner.trans h.owner
  moved := h'.moved.trans h.moved
  mapped := h'.mapped.trans h.mapped
  unmaps := h'.unmaps.trans h.unmaps
  region := h'.region.trans (by rw [h.region])
  running := ⟨h.running.1, h'.running.2⟩

/-- What a worker that is not at its test does next. -/
theorem exists_closer (b : Build) (hs : s.Safe b B S) (hw : s.worker = some w) (htest : w ≠ .test)
    (hdone : w ≠ .done) :
    ∃ t w', s.workerStep b = some t ∧ t.Safe b B S ∧ Turn b s t ∧ t.worker = some w' ∧
      w' ≠ .done ∧ stepsToTest b S t.offset w' < stepsToTest b S s.offset w := by
  obtain ⟨t, hstep⟩ := exists_workerStep b hw hdone
  have hturn := turn_of_workerStep hstep
  obtain ⟨w', hw', hdone', hlt⟩ := hturn.closer hs hw htest
  exact ⟨t, w', hstep, hs.workerStep hstep, hturn, hw', hdone', hlt⟩

/-- **The worker comes to its next test**, if it is only let run. -/
theorem worker_reaches_test (contract : RegionSystem → Action → Prop) (hs : s.Safe b B S)
    (hw : s.worker = some w) (hdone : w ≠ .done) :
    ∃ n u, n ≤ stepsToTest b S s.offset w ∧
      (machine b contract).run s (List.replicate n .worker) = some u ∧ u.Safe b B S ∧
      u.worker = some .test ∧ Aside s u := by
  induction hm : stepsToTest b S s.offset w using Nat.strong_induction_on generalizing s w with
  | _ m ih =>
    by_cases htest : w = .test
    · subst htest
      have haside : Aside s s := ⟨rfl, rfl, rfl, rfl, rfl, by rw [hw]; exact ⟨rfl, rfl⟩⟩
      exact ⟨0, s, Nat.zero_le _, rfl, hs, hw, haside⟩
    · obtain ⟨t, w', hstep, ht, hturn, hw', hdone', hlt⟩ := exists_closer b hs hw htest hdone
      obtain ⟨n, u, hn, hrun, hu, huw, haside⟩ := ih _ (hm ▸ hlt) ht hw' hdone' rfl
      exact ⟨n + 1, u, by omega, run_cons (a := .worker) hstep hrun, hu, huw,
        hturn.aside.trans haside⟩

/-! ## Joins return -/

end RegionSystem

/-- The owner relies on a worker that is there: it waits for it, or is about to. -/
def Owner.waits : Owner → Bool
  | .stopMoved | .join | .joinMoved => true
  | .idle | .release | .gone | .clearBase | .clearSize | .clearLocked | .moved _ => false

namespace RegionSystem

variable {b : Build} {B S : ℕ} {s t u : RegionSystem} {w w' : Worker} {a : Action}

/-- While the owner waits in a join there is a worker, and it has been told to stop. -/
structure Stopping (s : RegionSystem) : Prop where
  there : s.owner.waits → s.worker.isSome
  told : s.owner = .join ∨ s.owner = .joinMoved → s.region.stopBg = true

/-- The owner does not wait. -/
theorem Stopping.of_not_waits {o : Owner} (ho : t.owner = o) (hnot : o.waits = false) :
    t.Stopping := by
  subst ho
  refine ⟨fun hcon => ?_, fun hcon => ?_⟩
  · rw [hnot] at hcon
    cases hcon
  · rcases hcon with h | h
    · rw [h] at hnot
      cases hnot
    · rw [h] at hnot
      cases hnot

theorem Stopping.aside (h : s.Stopping) (haside : Aside s t) : t.Stopping := by
  refine ⟨fun _ => haside.running.2, fun ho => ?_⟩
  rw [haside.owner] at ho
  rw [haside.region]
  exact h.told ho

theorem Stopping.does (h : s.Stopping) (hdoes : Does b s a t) : t.Stopping := by
  cases hdoes with
  | stops _ hw => exact ⟨fun _ => hw, fun _ => rfl⟩
  | clearsLocked _ hw => exact ⟨fun _ => hw, fun hcon => by rcases hcon with h | h <;> cases h⟩
  | stopsMoved ho => exact ⟨fun _ => h.there (by rw [ho]; rfl), fun _ => rfl⟩
  | advances ho =>
    rcases ho with ho | ho
    · exact .of_not_waits ho rfl
    · exact .of_not_waits ho rfl
  | exchanges ho | advancesMoved ho | movesMoved ho => exact .of_not_waits ho rfl
  | destroysMoved ho => exact .of_not_waits ((unmapRegion_frame ..).2.2.2.1.trans ho) rfl
  | leaves | destroysOld | moves | joins | releases | clearsBase | clearsSize | finishes
    | joinsMoved =>
    exact .of_not_waits rfl rfl

/-- **Every action keeps it.** -/
theorem Stopping.exec (h : s.Stopping) (hexec : s.exec b a = some t) : t.Stopping := by
  by_cases ha : a = .worker
  · subst ha
    exact h.aside (turn_of_workerStep hexec).aside
  · exact h.does (does_of_exec ha hexec)

/-- The worker's step, where it is the test of `_stop_bg`. -/
theorem workerStep_test (hw : s.worker = some .test) :
    s.workerStep b = some { s with worker := some (if s.region.stopBg then .done else .load) } := by
  unfold RegionSystem.workerStep
  simp only [hw]

/-- **A worker that has been told to stop ends.** -/
theorem worker_ends (contract : RegionSystem → Action → Prop) (hs : s.Safe b B S)
    (hw : s.worker = some w) (hstop : s.region.stopBg = true) :
    ∃ n u, n ≤ 9 + pages b S ∧
      (machine b contract).run s (List.replicate n .worker) = some u ∧
      u.worker = some .done ∧ u.owner = s.owner := by
  by_cases hdone : w = .done
  · exact ⟨0, s, Nat.zero_le _, rfl, hdone ▸ hw, rfl⟩
  · obtain ⟨n, u, hn, hrun, -, huw, haside⟩ := worker_reaches_test contract hs hw hdone
    have hle := stepsToTest_le b (hs.busy.fits w hw)
    have htest := workerStep_test (b := b) huw
    have hustop : u.region.stopBg = true := by
      rw [haside.region]
      exact hstop
    rw [hustop, if_pos rfl] at htest
    refine ⟨n + 1, { u with worker := some .done }, by omega, ?_, rfl, haside.owner⟩
    rw [List.replicate_succ', GuardedMachine.run_append, hrun]
    exact run_cons (a := .worker) htest rfl

/-- A join whose worker has ended returns. -/
theorem ownerStep_join (b : Build) (ho : s.owner = .join ∨ s.owner = .joinMoved)
    (hw : s.worker = some .done) :
    ∃ t, s.ownerStep b = some t ∧ t.worker = none ∧
      t.owner = (if s.owner = .join then .release else .moved true) := by
  unfold ownerStep
  rcases ho with ho | ho
  · simp only [ho, if_pos hw]
    exact ⟨_, rfl, rfl, rfl⟩
  · simp only [ho, if_pos hw]
    exact ⟨_, rfl, rfl, rfl⟩

end RegionSystem

/-- **A join always returns.**  In every state that the owner and the worker can reach, if
the owner waits in the join of its destructor or of a move, then at most `pages + 9` steps
of the worker let it go on, and the worker is gone. -/
theorem region_join_returns {b : Build} (hanswers : Memory.Answers b.kernel.mmap) {bytes : ℕ}
    {policy : PrefaultPolicy} {lock : Bool} {s t : RegionSystem}
    (hs : RegionSystem.construct b bytes policy lock = .ok s)
    {actions : List RegionSystem.Action}
    (h : (RegionSystem.machine b RegionSystem.MovesPrefaulted).Reaches s actions t)
    (hjoin : t.owner = .join ∨ t.owner = .joinMoved) :
    ∃ n u, n ≤ 9 + RegionSystem.pages b s.region.size ∧
      (RegionSystem.machine b RegionSystem.MovesPrefaulted).run t
        (List.replicate n .worker ++ [.owner]) = some u ∧
      u.worker = none ∧ u.owner = (if t.owner = .join then .release else .moved true) := by
  obtain ⟨hB, hS, hsafe⟩ := RegionSystem.construct_safe hanswers hs
  have hstart : s.Stopping := .of_not_waits (RegionSystem.construct_ok hs).owner rfl
  have hinv : t.Safe b s.region.base s.region.size ∧ t.Stopping :=
    GuardedMachine.Reaches.invariant
      (I := fun t => t.Safe b s.region.base s.region.size ∧ t.Stopping)
      (fun _ _ _ hs hpre hexec => ⟨hs.1.exec hB hS hpre hexec, hs.2.exec hexec⟩)
      ⟨hsafe, hstart⟩ h
  obtain ⟨ht, hstopping⟩ := hinv
  have hwaits : t.owner.waits := by
    rcases hjoin with ho | ho <;> rw [ho] <;> rfl
  obtain ⟨w, hw⟩ := Option.isSome_iff_exists.mp (hstopping.there hwaits)
  obtain ⟨n, u, hn, hrun, huw, huowner⟩ :=
    RegionSystem.worker_ends RegionSystem.MovesPrefaulted ht hw (hstopping.told hjoin)
  rw [← huowner] at hjoin ⊢
  obtain ⟨v, hstep, hvw, hvowner⟩ := RegionSystem.ownerStep_join b hjoin huw
  refine ⟨n, v, hn, ?_, hvw, hvowner⟩
  rw [GuardedMachine.run_append, hrun]
  exact RegionSystem.run_cons (a := .owner) hstep rfl

/-- A destructor that finds the worker at its first step. -/
theorem region_join_returns_destroy :
    ∃ t, (RegionSystem.machine (grantingBuild false)
        RegionSystem.MovesPrefaulted).Reaches (twoPages false) [.worker, .destroy] t ∧
      t.owner = .join ∧
      ∃ n u, n ≤ 9 + RegionSystem.pages (grantingBuild false) 8192 ∧
        (RegionSystem.machine (grantingBuild false) RegionSystem.MovesPrefaulted).run t
          (List.replicate n .worker ++ [.owner]) = some u ∧
        u.worker = none ∧ u.owner = (if t.owner = .join then .release else .moved true) := by
  have hlegal : (RegionSystem.machine (grantingBuild false)
      RegionSystem.MovesPrefaulted).Legal (twoPages false) [.worker, .destroy] := by
    decide +kernel
  have hend : ((RegionSystem.machine (grantingBuild false)
      RegionSystem.MovesPrefaulted).run (twoPages false) [.worker, .destroy]).map
        (fun t => t.owner) = some .join := by decide +kernel
  obtain ⟨t, hrun, ht⟩ := Option.map_eq_some_iff.mp hend
  exact ⟨t, ⟨hlegal, hrun⟩, ht, region_join_returns (b := grantingBuild false)
    answers_mapsAt (construct_twoPages false false) ⟨hlegal, hrun⟩ (Or.inl ht)⟩

/-! ## The watermark -/

/-- The bytes that the worker should have touched: `kWatermarkPages` pages beyond what is
consumed, up to the end of the region. -/
def VmemRegion.watermark (b : Build) (region : VmemRegion) : ℕ :=
  min (Word64.add region.hwmBytes (Word64.mul kWatermarkPages b.pageSize)) region.size

/-- A round whose target is the watermark. -/
def Worker.Fresh (b : Build) (region : VmemRegion) (offset : ℕ) : Worker → Prop
  | .clamp target =>
    target = Word64.add region.hwmBytes (Word64.mul kWatermarkPages b.pageSize)
  | .cut => region.watermark b = region.size
  | .compare target | .locate target | .touch _ target _ | .publish target =>
    target = region.watermark b
  | .sleep => region.watermark b ≤ offset
  | .load => True
  | .test | .done => False

/-- **A round that has begun with the watermark goes on with it.** -/
theorem Worker.Goes.fresh {b : Build} {region : VmemRegion} {offset : ℕ} {w w' : Worker}
    (h : w.Goes b region offset w') (hfresh : w.Fresh b region offset) (hsleep : w ≠ .sleep) :
    w'.Fresh b region offset := by
  cases h with
  | stop | proceed => exact hfresh.elim
  | load => rfl
  | @above target hlt =>
    have htarget : target = _ := hfresh
    show min _ region.size = region.size
    rw [← htarget]
    exact min_eq_right hlt.le
  | @within target hle =>
    have htarget : target = _ := hfresh
    show target = min _ region.size
    rw [← htarget]
    exact (min_eq_left hle).symm
  | cut => exact hfresh.symm
  | @ahead target hle =>
    have htarget : target = region.watermark b := hfresh
    show region.watermark b ≤ offset
    omega
  | behind | locate | leave => exact hfresh
  | wake => exact absurd rfl hsleep

/-- A target within a limit. -/
def Worker.Within (S limit : ℕ) : Worker → Prop
  | .clamp target | .compare target | .locate target | .touch _ target _ | .publish target =>
    target ≤ limit
  | .cut => S ≤ limit
  | .test | .load | .sleep | .done => True

/-- **The target of a worker that moves on** stays within the limit. -/
theorem Worker.Goes.keepsWithin {b : Build} {region : VmemRegion} {S offset limit : ℕ}
    {w w' : Worker} (h : w.Goes b region offset w') (hsize : region.size ≤ S)
    (hS : region.size ≤ limit → S ≤ limit)
    (hhwm : region.hwmBytes + kWatermarkPages * b.pageSize ≤ limit) (hw : w.Within S limit) :
    w'.Within S limit := by
  cases h with
  | stop | proceed | ahead | wake => trivial
  | load =>
    show Word64.add region.hwmBytes (Word64.mul kWatermarkPages b.pageSize) ≤ limit
    have hmul : Word64.mul kWatermarkPages b.pageSize ≤ kWatermarkPages * b.pageSize := by
      rw [Word64.mul]
      exact Nat.mod_le _ _
    have hadd : Word64.add region.hwmBytes (Word64.mul kWatermarkPages b.pageSize)
        ≤ region.hwmBytes + Word64.mul kWatermarkPages b.pageSize := by
      rw [Word64.add]
      exact Nat.mod_le _ _
    omega
  | above hlt => exact hS (hlt.le.trans hw)
  | cut => exact hsize.trans hw
  | within | behind | locate | leave => exact hw

namespace RegionSystem

variable {b : Build} {B S limit : ℕ} {s t u : RegionSystem} {w w' : Worker} {a : Action}

/-- A step within a round. -/
theorem Turn.fresh (hturn : Turn b s t) (hw : s.worker = some w)
    (hfresh : w.Fresh b s.region s.offset) (hsleep : w ≠ .sleep) (hw' : t.worker = some w') :
    w'.Fresh b t.region t.offset := by
  cases hturn with
  | goes hw₁ hgo =>
    obtain rfl := Option.some.inj (hw.symm.trans hw₁)
    obtain rfl := Option.some.inj hw'
    exact hgo.fresh hfresh hsleep
  | populates hw₁ hbuild =>
    obtain rfl := Option.some.inj (hw.symm.trans hw₁)
    obtain rfl := Option.some.inj hw'
    exact hfresh
  | writes hw₁ hoff =>
    obtain rfl := Option.some.inj (hw.symm.trans hw₁)
    obtain rfl := Option.some.inj hw'
    simp only [write_frame]
    exact hfresh
  | publishes hw₁ =>
    obtain rfl := Option.some.inj (hw.symm.trans hw₁)
    obtain rfl := Option.some.inj hw'
    exact hfresh.ge

/-- A round that has begun with the watermark ends with it touched. -/
theorem fresh_reaches_sleep (contract : RegionSystem → Action → Prop) (hs : s.Safe b B S)
    (hw : s.worker = some w) (hfresh : w.Fresh b s.region s.offset) :
    ∃ n u, n ≤ stepsToTest b S s.offset w ∧
      (machine b contract).run s (List.replicate n .worker) = some u ∧ u.Safe b B S ∧
      u.worker = some .sleep ∧ s.region.watermark b ≤ u.offset := by
  induction hm : stepsToTest b S s.offset w using Nat.strong_induction_on generalizing s w with
  | _ m ih =>
    by_cases hsleep : w = .sleep
    · subst hsleep
      exact ⟨0, s, Nat.zero_le _, rfl, hs, hw, hfresh⟩
    · have htest : w ≠ .test := by
        rintro rfl
        exact hfresh
      have hdone : w ≠ .done := by
        rintro rfl
        exact hfresh
      obtain ⟨t, w', hstep, ht, hturn, hw', -, hlt⟩ := exists_closer b hs hw htest hdone
      have hfresh' := hturn.fresh hw hfresh hsleep hw'
      obtain ⟨n, u, hn, hrun, hu, huw, hle⟩ := ih _ (hm ▸ hlt) ht hw' hfresh' rfl
      have hsame : t.region.watermark b = s.region.watermark b := by
        rw [hturn.aside.region]
        rfl
      exact ⟨n + 1, u, by omega, run_cons (a := .worker) hstep hrun, hu, huw, hsame ▸ hle⟩

/-- **Left alone, the worker catches up.** -/
theorem worker_catches_up (contract : RegionSystem → Action → Prop) (hs : s.Safe b B S)
    (hw : s.worker = some w) (hdone : w ≠ .done) (hstop : s.region.stopBg = false) :
    ∃ n u, n ≤ 17 + 2 * pages b S ∧
      (machine b contract).run s (List.replicate n .worker) = some u ∧
      s.region.watermark b ≤ u.region.prefaulted := by
  obtain ⟨n, u, hn, hrun, hu, huw, haside⟩ := worker_reaches_test contract hs hw hdone
  have hle := stepsToTest_le b (hs.busy.fits w hw)
  -- the next round loads the high-water mark anew
  have htest := workerStep_test (b := b) huw
  have hustop : u.region.stopBg = false := by
    rw [haside.region]
    exact hstop
  rw [hustop] at htest
  have hload : ({ u with worker := some .load } : RegionSystem).Safe b B S := hu.workerStep htest
  obtain ⟨k, v, hk, hrunv, hv, hvw, hmark⟩ :=
    fresh_reaches_sleep contract hload rfl (w := .load) trivial
  have hsame : u.region.watermark b = s.region.watermark b := by
    rw [haside.region]
    rfl
  refine ⟨n + (k + 1), v, ?_, ?_, ?_⟩
  · have hk' : k ≤ 8 + pages b S := hk
    omega
  · rw [List.replicate_add, GuardedMachine.run_append, hrun]
    exact run_cons (a := .worker) htest hrunv
  · rw [hv.busy.prefaulted_eq (by rw [hvw]; rfl), ← hsame]
    exact hmark

/-- Nothing is touched beyond a limit, and no object reports more. -/
structure Ahead (b : Build) (S limit : ℕ) (s : RegionSystem) : Prop where
  offset_le : s.offset ≤ limit
  counts_le : ∀ r ∈ s.region :: s.moved, r.prefaulted ≤ limit
  hwm_le : s.region.hwmBytes + kWatermarkPages * b.pageSize ≤ limit
  worker_le : ∀ w, s.worker = some w → w.Within S limit

/-- Where the worker reads a size within the limit, so is that of the mapping: if a move has
cleared the size, everything has been touched. -/
theorem Ahead.size_le (hs : s.Safe b B S) (h : s.Ahead b S limit) (hw : s.worker = some w)
    (hle : s.region.size ≤ limit) : S ≤ limit := by
  by_cases hhanding : s.owner.handing = true
  · rw [← hs.busy.still hhanding (by rw [hw]; rfl)]
    exact h.offset_le
  · rw [hs.held.size_eq, (Owner.members_of_not_handing hhanding B S).2] at hle
    exact hle

/-- **A step of the worker stays within the limit.** -/
theorem Ahead.turn (hs : s.Safe b B S) (h : s.Ahead b S limit) (hturn : Turn b s t) :
    t.Ahead b S limit := by
  cases hturn with
  | goes hw hgo =>
    have hwithin := hgo.keepsWithin hs.held.size_le (h.size_le hs hw) h.hwm_le (h.worker_le _ hw)
    exact { h with worker_le := fun v hv => Option.some.inj hv ▸ hwithin }
  | @populates target hw hbuild =>
    have hle : target ≤ limit := h.worker_le _ hw
    exact { h with worker_le := fun v hv => Option.some.inj hv ▸ hle }
  | @writes p target off hw hoff =>
    have hle : target ≤ limit := h.worker_le _ hw
    refine ⟨?_, ?_, ?_, fun v hv => Option.some.inj hv ▸ hle⟩ <;> simp only [write_frame]
    · exact h.offset_le
    · exact h.counts_le
    · exact h.hwm_le
  | @publishes target hw =>
    have hle : target ≤ limit := h.worker_le _ hw
    exact { h with
      offset_le := hle
      counts_le := List.forall_mem_cons.mpr
        ⟨hle, fun r hr => h.counts_le r (List.mem_cons_of_mem _ hr)⟩
      hwm_le := h.hwm_le
      worker_le := fun v hv => Option.some.inj hv ▸ trivial }

/-- The caller's contract: a region with a worker is moved only once it is prefaulted to
its end, and at most `M` bytes are ever reported as consumed. -/
def ConsumesAtMost (M : ℕ) (s : RegionSystem) (a : Action) : Prop :=
  s.MovesPrefaulted a ∧ ∀ consumed, a = .advanceHwm consumed → consumed ≤ M

instance (b : Build) (M : ℕ) (s : RegionSystem) :
    ∀ a, Decidable ((machine b (ConsumesAtMost M)).pre s a)
  | .advanceHwm consumed =>
    decidable_of_iff (s.MovesPrefaulted (.advanceHwm consumed) ∧ consumed ≤ M)
      (and_congr Iff.rfl ⟨fun hle _ heq => Action.advanceHwm.inj heq ▸ hle, fun h => h _ rfl⟩)
  | .destroy | .move | .owner | .worker | .advanceMoved _ _ | .moveMoved _ | .destroyMoved _ =>
    decidable_of_iff (s.MovesPrefaulted _)
      ⟨fun h => ⟨h, fun _ heq => Action.noConfusion heq⟩, fun h => h.1⟩

theorem Ahead.frame {M : ℕ} (h : s.Ahead b S (M + kWatermarkPages * b.pageSize))
    (hpre : s.ConsumesAtMost M a) (hf : Frame s t a) :
    t.Ahead b S (M + kWatermarkPages * b.pageSize) := by
  refine ⟨?_, List.forall_mem_cons.mpr ⟨?_, fun r hr => ?_⟩, ?_,
    fun w hw => h.worker_le w (hf.worker_eq hw)⟩
  · rw [hf.offset]
    exact h.offset_le
  · rw [hf.prefaulted]
    exact h.counts_le s.region List.mem_cons_self
  · obtain ⟨q, hq, heq⟩ := hf.counts r hr
    rw [heq]
    exact h.counts_le q hq
  · rcases hf.hwm with heq | hcall
    · rw [heq]
      exact h.hwm_le
    · have hle := hpre.2 _ hcall
      omega

theorem Ahead.exec {M : ℕ} (hs : s.Safe b B S)
    (h : s.Ahead b S (M + kWatermarkPages * b.pageSize)) (hpre : s.ConsumesAtMost M a)
    (hexec : s.exec b a = some t) : t.Ahead b S (M + kWatermarkPages * b.pageSize) := by
  by_cases ha : a = .worker
  · subst ha
    exact h.turn hs (turn_of_workerStep hexec)
  · exact h.frame hpre (does_of_exec ha hexec).frame

/-- Between the owner's calls the worker is running. -/
def Running (s : RegionSystem) : Prop :=
  s.owner = .idle → s.region.stopBg = false ∧ ∃ w, s.worker = some w ∧ w ≠ .done

/-- A step of a worker that has not been told to stop. -/
theorem Turn.ne_done (hturn : Turn b s t) (hstop : s.region.stopBg = false) :
    ∃ w, t.worker = some w ∧ w ≠ .done := by
  cases hturn with
  | goes hw hgo => exact ⟨_, rfl, hgo.ne_done hstop⟩
  | populates | writes | publishes => exact ⟨_, rfl, Worker.noConfusion⟩

/-- Only `advance_hwm` leaves the owner between calls. -/
theorem Does.idle (h : Does b s a t) (ho : t.owner = .idle) :
    s.owner = .idle ∧ t.region.stopBg = s.region.stopBg ∧ t.worker = s.worker := by
  cases h with
  | advances => exact ⟨ho, rfl, rfl⟩
  | exchanges hs | advancesMoved hs | movesMoved hs =>
    rw [hs] at ho
    cases ho
  | destroysMoved hs =>
    rw [(unmapRegion_frame ..).2.2.2.1.trans hs] at ho
    cases ho
  | stops | leaves | destroysOld | moves | joins | releases | clearsBase | clearsSize
    | clearsLocked | finishes | stopsMoved | joinsMoved =>
    cases ho

/-- **Every action keeps the worker running between the owner's calls.** -/
theorem Running.exec (h : s.Running) (hexec : s.exec b a = some t) : t.Running := by
  intro ho
  by_cases ha : a = .worker
  · subst ha
    have hturn := turn_of_workerStep hexec
    have haside := hturn.aside
    obtain ⟨hstop, -⟩ := h (haside.owner ▸ ho)
    refine ⟨?_, hturn.ne_done hstop⟩
    rw [haside.region]
    exact hstop
  · obtain ⟨howner, hstop, hworker⟩ := (does_of_exec ha hexec).idle ho
    obtain ⟨hs, w, hw, hdone⟩ := h howner
    exact ⟨hstop.trans hs, w, hworker.trans hw, hdone⟩

/-! ## A move at the wrong time -/

theorem exec_move (b : Build) (ho : s.owner = .idle) :
    s.exec b .move
      = some { s with
          moved := s.moved ++ [{ s.region with stopBg := false }], owner := .clearBase } := by
  unfold RegionSystem.exec
  simp only [ho]

theorem exec_clearBase (b : Build) (s : RegionSystem) (ho : s.owner = .clearBase) :
    s.exec b .owner
      = some { s with region := { s.region with base := 0 }, owner := .clearSize } := by
  show s.ownerStep b = _
  unfold RegionSystem.ownerStep
  simp only [ho]

/-- The touching loop begins at the pointer that is there. -/
theorem exec_locate (hloop : b.populateWrite = false) (s : RegionSystem) {target : ℕ}
    (hw : s.worker = some (.locate target)) :
    s.exec b .worker
      = some { s with worker := some (.touch (s.region.base + s.offset) target 0) } := by
  show s.workerStep b = _
  unfold RegionSystem.workerStep
  simp only [hw, hloop, Bool.false_eq_true, if_false]

/-- A turn of the loop at an address that is not mapped. -/
theorem exec_faults (b : Build) (s : RegionSystem) {p target off : ℕ}
    (hw : s.worker = some (.touch p target off)) (hoff : off < target - s.offset)
    (hnot : s.isMapped (p + off) = false) :
    s.exec b .worker = some { s with
      segv := (p + off) :: s.segv, worker := some (.touch p target (off + b.pageSize)) } := by
  have hwrite : s.write (p + off) = { s with segv := (p + off) :: s.segv } := by
    unfold RegionSystem.write
    rw [hnot]
    rfl
  show s.workerStep b = _
  unfold RegionSystem.workerStep
  simp only [hw, if_pos hoff, hwrite]

end RegionSystem

/-- **The worker keeps its watermark.**  In every interleaving in which at most `M` bytes are
reported as consumed, no object that has an adaptive region reports more as prefaulted than
`kWatermarkPages` pages beyond `M`; and from every state between the owner's calls, the worker
left alone has within `2 * pages + 17` steps prefaulted what lies `kWatermarkPages` pages beyond
the bytes consumed, up to the end of the region. -/
theorem region_worker_keeps_watermark {b : Build} (hanswers : Memory.Answers b.kernel.mmap)
    {bytes M : ℕ} {lock : Bool} {s t : RegionSystem}
    (hs : RegionSystem.construct b bytes .adaptive lock = .ok s)
    {actions : List RegionSystem.Action}
    (h : (RegionSystem.machine b (RegionSystem.ConsumesAtMost M)).Reaches s actions t) :
    (∀ r ∈ t.region :: t.moved, r.prefaulted ≤ M + kWatermarkPages * b.pageSize) ∧
      (t.owner = .idle →
        ∃ n u, n ≤ 17 + 2 * RegionSystem.pages b s.region.size ∧
          (RegionSystem.machine b (RegionSystem.ConsumesAtMost M)).run t
            (List.replicate n .worker) = some u ∧
          min (Word64.add t.region.hwmBytes (Word64.mul kWatermarkPages b.pageSize))
            s.region.size ≤ u.region.prefaulted) := by
  obtain ⟨hB, hS, hsafe⟩ := RegionSystem.construct_safe hanswers hs
  have hc := RegionSystem.construct_ok hs
  have hworker : s.worker = some .test := hc.worker.trans (if_pos rfl)
  have hprefaulted : s.region.prefaulted = 0 := by
    cases hc.prefaults with
    | none hzero => exact hzero
  have hahead : s.Ahead b s.region.size (M + kWatermarkPages * b.pageSize) := by
    refine ⟨?_, ?_, ?_, fun w hw => ?_⟩
    · rw [hc.offset]
      exact Nat.zero_le _
    · rw [hc.moved, List.forall_mem_singleton, hprefaulted]
      exact Nat.zero_le _
    · rw [hc.hwm]
      omega
    · rw [(hc.test hw).2]
      trivial
  have hrunning : s.Running := fun _ => ⟨hc.running, .test, hworker, Worker.noConfusion⟩
  have hinv : t.Safe b s.region.base s.region.size ∧
      t.Ahead b s.region.size (M + kWatermarkPages * b.pageSize) ∧ t.Running :=
    GuardedMachine.Reaches.invariant
      (I := fun t => t.Safe b s.region.base s.region.size ∧
        t.Ahead b s.region.size (M + kWatermarkPages * b.pageSize) ∧ t.Running)
      (fun _ _ _ hs hpre hexec => ⟨hs.1.exec hB hS hpre.1 hexec, hs.2.1.exec hs.1 hpre hexec,
        hs.2.2.exec hexec⟩)
      ⟨hsafe, hahead, hrunning⟩ h
  obtain ⟨ht, htahead, htrunning⟩ := hinv
  refine ⟨htahead.counts_le, fun ho => ?_⟩
  obtain ⟨htstop, w, hw, hdone⟩ := htrunning ho
  obtain ⟨n, u, hn, hrun, hle⟩ :=
    RegionSystem.worker_catches_up (RegionSystem.ConsumesAtMost M) ht hw hdone htstop
  refine ⟨n, u, hn, hrun, ?_⟩
  have hsize := ht.held.size_eq
  rw [ho] at hsize
  unfold VmemRegion.watermark at hle
  rwa [hsize] at hle

/-- One page is consumed while the worker is on its way. -/
theorem region_worker_keeps_watermark_advance :
    ∃ t, (RegionSystem.machine (grantingBuild false) (RegionSystem.ConsumesAtMost 4096)).Reaches
        (twoPages false) [.worker, .worker, .advanceHwm 4096, .worker] t ∧
      t.owner = .idle ∧ t.region.hwmBytes = 4096 ∧
      (∀ r ∈ t.region :: t.moved,
        r.prefaulted ≤ 4096 + kWatermarkPages * (grantingBuild false).pageSize) ∧
      ∃ n u, n ≤ 17 + 2 * RegionSystem.pages (grantingBuild false) 8192 ∧
        (RegionSystem.machine (grantingBuild false) (RegionSystem.ConsumesAtMost 4096)).run t
          (List.replicate n .worker) = some u ∧
        min (Word64.add t.region.hwmBytes
          (Word64.mul kWatermarkPages (grantingBuild false).pageSize)) 8192
            ≤ u.region.prefaulted := by
  have hlegal : (RegionSystem.machine (grantingBuild false)
      (RegionSystem.ConsumesAtMost 4096)).Legal (twoPages false)
        [.worker, .worker, .advanceHwm 4096, .worker] := by decide +kernel
  have hend : ((RegionSystem.machine (grantingBuild false)
      (RegionSystem.ConsumesAtMost 4096)).run (twoPages false)
        [.worker, .worker, .advanceHwm 4096, .worker]).map
          (fun t => (t.owner, t.region.hwmBytes)) = some (.idle, 4096) := by decide +kernel
  obtain ⟨t, hrun, ht⟩ := Option.map_eq_some_iff.mp hend
  obtain ⟨howner, hhwm⟩ := Prod.mk.inj ht
  obtain ⟨hle, hcatch⟩ := region_worker_keeps_watermark (b := grantingBuild false)
    answers_mapsAt (construct_twoPages false false) ⟨hlegal, hrun⟩
  exact ⟨t, ⟨hlegal, hrun⟩, howner, hhwm, hle, hcatch howner⟩

/-- **A move catches the worker at work.**  In every reachable state between the owner's
calls in which the worker is about to read `_base` for its touching loop, a move that
clears `_base` first makes the worker write at its offset from the null pointer. -/
theorem move_under_worker_faults {b : Build} (hloop : b.populateWrite = false)
    (hanswers : Memory.Answers b.kernel.mmap) {bytes : ℕ} {policy : PrefaultPolicy} {lock : Bool}
    {s t : RegionSystem} (hs : RegionSystem.construct b bytes policy lock = .ok s)
    (hplace : s.region.size ≤ s.region.base)
    {actions : List RegionSystem.Action}
    (h : (RegionSystem.machine b RegionSystem.MovesPrefaulted).Reaches s actions t)
    (ho : t.owner = .idle) {target : ℕ} (hw : t.worker = some (.locate target)) :
    ∃ u, (RegionSystem.machine b (fun _ _ => True)).run t
        [.move, .owner, .worker, .worker] = some u ∧ u.segv = [t.offset] := by
  obtain ⟨hB, hS, hsafe⟩ := RegionSystem.construct_safe hanswers hs
  have ht := RegionSystem.reaches_safe (fun _ _ hc => hc) hB hS hsafe h
  obtain ⟨hlt, hle⟩ := ht.busy.fits _ hw
  have hmapped := ht.held.mapped hw
  have hnot : t.isMapped t.offset = false := by
    unfold RegionSystem.isMapped
    rw [hmapped]
    have hbelow : ¬s.region.base ≤ t.offset := by omega
    simp [hbelow]
  -- the worker reads a null pointer, and its first write is not in the mapping
  have hmove := RegionSystem.exec_move b ho
  have hclear := RegionSystem.exec_clearBase b { t with
    moved := t.moved ++ [{ t.region with stopBg := false }], owner := .clearBase } rfl
  have hlocate := RegionSystem.exec_locate hloop { t with
    region := { t.region with base := 0 }
    moved := t.moved ++ [{ t.region with stopBg := false }]
    owner := .clearSize } hw
  have htouch := RegionSystem.exec_faults b { t with
    region := { t.region with base := 0 }
    moved := t.moved ++ [{ t.region with stopBg := false }]
    owner := .clearSize
    worker := some (.touch (0 + t.offset) target 0) } rfl
    (show 0 < target - t.offset by omega)
    (by rw [Nat.zero_add, Nat.add_zero]; exact hnot)
  refine ⟨{ t with
    region := { t.region with base := 0 }
    moved := t.moved ++ [{ t.region with stopBg := false }]
    owner := .clearSize
    segv := (0 + t.offset + 0) :: t.segv
    worker := some (.touch (0 + t.offset) target (0 + b.pageSize)) }, ?_, ?_⟩
  · apply RegionSystem.run_cons hmove
    apply RegionSystem.run_cons hclear
    apply RegionSystem.run_cons hlocate
    apply RegionSystem.run_cons htouch
    rfl
  · show (0 + t.offset + 0) :: t.segv = [t.offset]
    rw [ht.busy.segv, Nat.zero_add, Nat.add_zero]

/-- Before its first write the worker of two pages is caught. -/
theorem move_under_worker_faults_twoPages :
    ∃ t, (RegionSystem.machine (grantingBuild false) RegionSystem.MovesPrefaulted).Reaches
        (twoPages false) [.worker, .worker, .worker, .worker, .worker] t ∧ t.offset = 0 ∧
      ∃ u, (RegionSystem.machine (grantingBuild false) (fun _ _ => True)).run t
        [.move, .owner, .worker, .worker] = some u ∧ u.segv = [t.offset] := by
  have hlegal : (RegionSystem.machine (grantingBuild false) RegionSystem.MovesPrefaulted).Legal
      (twoPages false) [.worker, .worker, .worker, .worker, .worker] := by decide +kernel
  have hend : ((RegionSystem.machine (grantingBuild false) RegionSystem.MovesPrefaulted).run
      (twoPages false) [.worker, .worker, .worker, .worker, .worker]).map
        (fun t => (t.offset, t.owner, t.worker)) = some (0, .idle, some (.locate 8192)) := by
    decide +kernel
  obtain ⟨t, hrun, ht⟩ := Option.map_eq_some_iff.mp hend
  obtain ⟨hoffset, hrest⟩ := Prod.mk.inj ht
  obtain ⟨howner, hworker⟩ := Prod.mk.inj hrest
  have hfaults := move_under_worker_faults (b := grantingBuild false) rfl answers_mapsAt
    (construct_twoPages false false) (by decide) ⟨hlegal, hrun⟩ howner hworker
  exact ⟨t, ⟨hlegal, hrun⟩, hoffset, hfaults⟩

end Memlab
