/-
# What one step of a region does

The step functions of the worker and of the owner, inverted once: `Turn` lists what a step
of the worker may be, `Does` what an action of the owner may be, and `Aside` and `Frame` say
what each of the two leaves to the other.  The invariants of the pair are short case
analyses over these.
-/
import MemoryAllocator.VmemRegion

namespace Memlab

/-! ## The worker -/

/-- The steps of the worker that only move it on, beside the members of its region and its
`prefaulted_off`. -/
inductive Worker.Goes (b : Build) (region : VmemRegion) (offset : ℕ) : Worker → Worker → Prop
  | stop : region.stopBg = true → Goes b region offset .test .done
  | proceed : region.stopBg = false → Goes b region offset .test .load
  | load : Goes b region offset .load
      (.clamp (Word64.add region.hwmBytes (Word64.mul kWatermarkPages b.pageSize)))
  | above {target : ℕ} : region.size < target → Goes b region offset (.clamp target) .cut
  | within {target : ℕ} : target ≤ region.size →
      Goes b region offset (.clamp target) (.compare target)
  | cut : Goes b region offset .cut (.compare region.size)
  | behind {target : ℕ} : offset < target →
      Goes b region offset (.compare target) (.locate target)
  | ahead {target : ℕ} : target ≤ offset → Goes b region offset (.compare target) .sleep
  | locate {target : ℕ} : b.populateWrite = false →
      Goes b region offset (.locate target) (.touch (region.base + offset) target 0)
  | leave {p target off : ℕ} : target - offset ≤ off →
      Goes b region offset (.touch p target off) (.publish target)
  | wake : Goes b region offset .sleep .test

namespace RegionSystem

variable {b : Build} {s t : RegionSystem} {w w' : Worker} {a : Action}

/-- A step of the worker: it only moves on, or it has the kernel populate pages, writes to a
page, or publishes what it has touched. -/
inductive Turn (b : Build) (s : RegionSystem) : RegionSystem → Prop
  | goes {w w' : Worker} : s.worker = some w → w.Goes b s.region s.offset w' →
      Turn b s { s with worker := some w' }
  | populates {target : ℕ} : s.worker = some (.locate target) → b.populateWrite = true →
      Turn b s { s.populate b (s.region.base + s.offset) (target - s.offset) with
        worker := some (.publish target) }
  | writes {p target off : ℕ} : s.worker = some (.touch p target off) →
      off < target - s.offset →
      Turn b s { s.write (p + off) with worker := some (.touch p target (off + b.pageSize)) }
  | publishes {target : ℕ} : s.worker = some (.publish target) →
      Turn b s { s with
        offset := target
        region := { s.region with prefaulted := target }
        worker := some .sleep }

/-- **What a step of the worker is.** -/
theorem turn_of_workerStep (h : s.workerStep b = some t) : Turn b s t := by
  unfold workerStep at h
  cases hw : s.worker with
  | none => simp only [hw, reduceCtorEq] at h
  | some w =>
    cases w with
    | done => simp only [hw, reduceCtorEq] at h
    | test =>
      simp only [hw] at h
      split_ifs at h with hstop
      · obtain rfl := Option.some.inj h
        exact .goes hw (.stop hstop)
      · obtain rfl := Option.some.inj h
        exact .goes hw (.proceed (Bool.not_eq_true _ ▸ hstop))
    | load =>
      simp only [hw] at h
      obtain rfl := Option.some.inj h
      exact .goes hw .load
    | clamp target =>
      simp only [hw] at h
      split_ifs at h with hlt
      · obtain rfl := Option.some.inj h
        exact .goes hw (.above hlt)
      · obtain rfl := Option.some.inj h
        exact .goes hw (.within (not_lt.mp hlt))
    | cut =>
      simp only [hw] at h
      obtain rfl := Option.some.inj h
      exact .goes hw .cut
    | compare target =>
      simp only [hw] at h
      split_ifs at h with hlt
      · obtain rfl := Option.some.inj h
        exact .goes hw (.behind hlt)
      · obtain rfl := Option.some.inj h
        exact .goes hw (.ahead (not_lt.mp hlt))
    | locate target =>
      simp only [hw] at h
      split_ifs at h with hbuild
      · obtain rfl := Option.some.inj h
        exact .populates hw hbuild
      · obtain rfl := Option.some.inj h
        exact .goes hw (.locate (Bool.not_eq_true _ ▸ hbuild))
    | touch p target off =>
      simp only [hw] at h
      split_ifs at h with hoff
      · obtain rfl := Option.some.inj h
        exact .writes hw hoff
      · obtain rfl := Option.some.inj h
        exact .goes hw (.leave (not_lt.mp hoff))
    | publish target =>
      simp only [hw] at h
      obtain rfl := Option.some.inj h
      exact .publishes hw
    | sleep =>
      simp only [hw] at h
      obtain rfl := Option.some.inj h
      exact .goes hw .wake

/-- A worker that has not ended has a step. -/
theorem exists_workerStep (b : Build) (hw : s.worker = some w) (hdone : w ≠ .done) :
    ∃ t, s.workerStep b = some t := by
  unfold workerStep
  cases w with
  | done => exact absurd rfl hdone
  | locate target =>
    simp only [hw]
    split_ifs <;> exact ⟨_, rfl⟩
  | touch p target off =>
    simp only [hw]
    split_ifs <;> exact ⟨_, rfl⟩
  | test | load | clamp | cut | compare | publish | sleep =>
    simp only [hw]
    exact ⟨_, rfl⟩

/-- A write leaves all but the two lists of addresses. -/
@[simp] theorem write_frame (s : RegionSystem) (x : ℕ) :
    (s.write x).region = s.region ∧ (s.write x).offset = s.offset ∧
      (s.write x).owner = s.owner ∧ (s.write x).moved = s.moved ∧
      (s.write x).mapped = s.mapped ∧ (s.write x).requests = s.requests ∧
      (s.write x).unmaps = s.unmaps := by
  unfold write
  split_ifs <;> exact ⟨rfl, rfl, rfl, rfl, rfl, rfl, rfl⟩

/-- What the worker leaves to the owner: its progress, the other objects, the mapping and all
members but `_prefaulted`. -/
structure Aside (s t : RegionSystem) : Prop where
  owner : t.owner = s.owner
  moved : t.moved = s.moved
  mapped : t.mapped = s.mapped
  unmaps : t.unmaps = s.unmaps
  region : t.region = { s.region with prefaulted := t.region.prefaulted }
  running : s.worker.isSome ∧ t.worker.isSome

theorem Turn.aside (h : Turn b s t) : Aside s t := by
  cases h with
  | goes hw _ | populates hw _ | publishes hw =>
    exact ⟨rfl, rfl, rfl, rfl, rfl, by rw [hw]; rfl, rfl⟩
  | writes hw hoff =>
    refine ⟨?_, ?_, ?_, ?_, ?_, by rw [hw]; rfl, rfl⟩ <;> simp only [write_frame]

/-! ## The owner -/

/-- What the owner does, action by action, and where it stands when it does it. -/
inductive Does (b : Build) (s : RegionSystem) : Action → RegionSystem → Prop
  | advances {consumed : ℕ} : s.owner = .idle ∨ s.owner = .moved true →
      Does b s (.advanceHwm consumed) { s with region := { s.region with hwmBytes := consumed } }
  | stops : s.owner = .idle → s.worker.isSome →
      Does b s .destroy { s with region := { s.region with stopBg := true }, owner := .join }
  | leaves : s.owner = .idle → s.worker = none → Does b s .destroy { s with owner := .release }
  | destroysOld : s.owner = .moved true →
      Does b s .destroy
        { s.unmapRegion b s.region.base s.region.size with owner := .moved false }
  | moves : s.owner = .idle →
      Does b s .move
        { s with moved := s.moved ++ [{ s.region with stopBg := false }], owner := .clearBase }
  | exchanges : s.owner = .moved true →
      Does b s .move
        { s with region := s.region.exchange.2, moved := s.moved ++ [s.region.exchange.1] }
  | joins : s.owner = .join → s.worker = some .done →
      Does b s .owner { s with worker := none, owner := .release }
  | releases : s.owner = .release →
      Does b s .owner { s.unmapRegion b s.region.base s.region.size with
        region := { s.region with locked := false }
        owner := .gone }
  | clearsBase : s.owner = .clearBase →
      Does b s .owner { s with region := { s.region with base := 0 }, owner := .clearSize }
  | clearsSize : s.owner = .clearSize →
      Does b s .owner { s with region := { s.region with size := 0 }, owner := .clearLocked }
  | clearsLocked : s.owner = .clearLocked → s.worker.isSome →
      Does b s .owner { s with region := { s.region with locked := false }, owner := .stopMoved }
  | finishes : s.owner = .clearLocked → s.worker = none →
      Does b s .owner { s with region := { s.region with locked := false }, owner := .moved true }
  | stopsMoved : s.owner = .stopMoved →
      Does b s .owner { s with region := { s.region with stopBg := true }, owner := .joinMoved }
  | joinsMoved : s.owner = .joinMoved → s.worker = some .done →
      Does b s .owner { s with worker := none, owner := .moved true }
  | advancesMoved {old : Bool} {i consumed : ℕ} {r : VmemRegion} : s.owner = .moved old →
      s.moved[i]? = some r →
      Does b s (.advanceMoved i consumed)
        { s with moved := s.moved.set i { r with hwmBytes := consumed } }
  | movesMoved {old : Bool} {i : ℕ} {r : VmemRegion} : s.owner = .moved old →
      s.moved[i]? = some r →
      Does b s (.moveMoved i) { s with moved := s.moved.set i r.exchange.2 ++ [r.exchange.1] }
  | destroysMoved {old : Bool} {i : ℕ} {r : VmemRegion} : s.owner = .moved old →
      s.moved[i]? = some r →
      Does b s (.destroyMoved i)
        { s.unmapRegion b r.base r.size with moved := s.moved.eraseIdx i }

/-- What a step of a call in progress is. -/
theorem does_of_ownerStep (h : s.ownerStep b = some t) : Does b s .owner t := by
  unfold ownerStep at h
  cases ho : s.owner with
  | idle | gone | moved => simp only [ho, reduceCtorEq] at h
  | join =>
    simp only [ho] at h
    split_ifs at h with hw
    obtain rfl := Option.some.inj h
    exact .joins ho hw
  | release =>
    simp only [ho] at h
    obtain rfl := Option.some.inj h
    exact .releases ho
  | clearBase =>
    simp only [ho] at h
    obtain rfl := Option.some.inj h
    exact .clearsBase ho
  | clearSize =>
    simp only [ho] at h
    obtain rfl := Option.some.inj h
    exact .clearsSize ho
  | clearLocked =>
    simp only [ho] at h
    split_ifs at h with hw
    · obtain rfl := Option.some.inj h
      exact .clearsLocked ho hw
    · obtain rfl := Option.some.inj h
      exact .finishes ho (Option.not_isSome_iff_eq_none.mp hw)
  | stopMoved =>
    simp only [ho] at h
    obtain rfl := Option.some.inj h
    exact .stopsMoved ho
  | joinMoved =>
    simp only [ho] at h
    split_ifs at h with hw
    obtain rfl := Option.some.inj h
    exact .joinsMoved ho hw

/-- What a call on the region that was constructed is. -/
theorem does_of_call (hcall : a = .destroy ∨ a = .move ∨ ∃ consumed, a = .advanceHwm consumed)
    (h : s.exec b a = some t) : Does b s a t := by
  rcases hcall with rfl | rfl | ⟨consumed, rfl⟩
  · simp only [exec] at h
    split at h
    · split_ifs at h with hw
      · obtain rfl := Option.some.inj h
        exact .stops ‹_› hw
      · obtain rfl := Option.some.inj h
        exact .leaves ‹_› (Option.not_isSome_iff_eq_none.mp hw)
    · obtain rfl := Option.some.inj h
      exact .destroysOld ‹_›
    · cases h
  · simp only [exec] at h
    split at h
    · obtain rfl := Option.some.inj h
      exact .moves ‹_›
    · obtain rfl := Option.some.inj h
      exact .exchanges ‹_›
    · cases h
  · simp only [exec] at h
    split at h
    · obtain rfl := Option.some.inj h
      exact .advances (Or.inl ‹_›)
    · obtain rfl := Option.some.inj h
      exact .advances (Or.inr ‹_›)
    · cases h

/-- **What an action of the owner is.** -/
theorem does_of_exec (ha : a ≠ .worker) (h : s.exec b a = some t) : Does b s a t := by
  cases a with
  | worker => exact absurd rfl ha
  | owner => exact does_of_ownerStep h
  | destroy => exact does_of_call (Or.inl rfl) h
  | move => exact does_of_call (Or.inr (Or.inl rfl)) h
  | advanceHwm consumed => exact does_of_call (Or.inr (Or.inr ⟨consumed, rfl⟩)) h
  | advanceMoved i consumed =>
    simp only [exec] at h
    split at h
    · obtain rfl := Option.some.inj h
      exact .advancesMoved ‹_› ‹_›
    · cases h
  | moveMoved i =>
    simp only [exec] at h
    split at h
    · obtain rfl := Option.some.inj h
      exact .movesMoved ‹_› ‹_›
    · cases h
  | destroyMoved i =>
    simp only [exec] at h
    split at h
    · obtain rfl := Option.some.inj h
      exact .destroysMoved ‹_› ‹_›
    · cases h

/-- Unmapping leaves all but the mapping and the calls of `munmap`. -/
@[simp] theorem unmapRegion_frame (b : Build) (s : RegionSystem) (p sz : ℕ) :
    (s.unmapRegion b p sz).region = s.region ∧ (s.unmapRegion b p sz).worker = s.worker ∧
      (s.unmapRegion b p sz).offset = s.offset ∧ (s.unmapRegion b p sz).owner = s.owner ∧
      (s.unmapRegion b p sz).moved = s.moved ∧ (s.unmapRegion b p sz).requests = s.requests ∧
      (s.unmapRegion b p sz).touched = s.touched ∧ (s.unmapRegion b p sz).segv = s.segv := by
  unfold unmapRegion
  split_ifs <;> exact ⟨rfl, rfl, rfl, rfl, rfl, rfl, rfl, rfl⟩

/-- What the owner leaves to the worker: the touches and its `prefaulted_off`; the worker goes
on or has been joined, no object reports anything new as prefaulted, and the high-water mark is
the argument of a call, if it changes. -/
structure Frame (s t : RegionSystem) (a : Action) : Prop where
  requests : t.requests = s.requests
  touched : t.touched = s.touched
  segv : t.segv = s.segv
  offset : t.offset = s.offset
  worker : t.worker = s.worker ∨ t.worker = none
  prefaulted : t.region.prefaulted = s.region.prefaulted
  counts : ∀ r ∈ t.moved, ∃ q ∈ s.region :: s.moved, r.prefaulted = q.prefaulted
  hwm : t.region.hwmBytes = s.region.hwmBytes ∨ a = .advanceHwm t.region.hwmBytes

/-- The objects of a move in place of the one moved from. -/
theorem counts_of_exchange {l : List VmemRegion} {i : ℕ} {r : VmemRegion} (hr : l[i]? = some r)
    {q : VmemRegion} (hq : q ∈ l.set i r.exchange.2 ++ [r.exchange.1]) :
    ∃ q' ∈ l, q.prefaulted = q'.prefaulted := by
  have hmem := List.mem_of_getElem? hr
  rcases List.mem_append.mp hq with hset | hnew
  · rcases List.mem_or_eq_of_mem_set hset with hold | rfl
    · exact ⟨q, hold, rfl⟩
    · exact ⟨r, hmem, rfl⟩
  · obtain rfl := List.mem_singleton.mp hnew
    exact ⟨r, hmem, rfl⟩

/-- **What every action of the owner leaves alone.** -/
theorem Does.frame (h : Does b s a t) : Frame s t a := by
  have hkeep : ∀ r ∈ s.moved, ∃ q ∈ s.region :: s.moved, r.prefaulted = q.prefaulted :=
    fun r hr => ⟨r, List.mem_cons_of_mem _ hr, rfl⟩
  cases h with
  | advances ho => exact ⟨rfl, rfl, rfl, rfl, Or.inl rfl, rfl, hkeep, Or.inr rfl⟩
  | stops | leaves | clearsBase | clearsSize | clearsLocked | finishes | stopsMoved =>
    exact ⟨rfl, rfl, rfl, rfl, Or.inl rfl, rfl, hkeep, Or.inl rfl⟩
  | joins | joinsMoved => exact ⟨rfl, rfl, rfl, rfl, Or.inr rfl, rfl, hkeep, Or.inl rfl⟩
  | moves | exchanges =>
    refine ⟨rfl, rfl, rfl, rfl, Or.inl rfl, rfl, fun r hr => ?_, Or.inl rfl⟩
    rcases List.mem_append.mp hr with hold | hnew
    · exact hkeep r hold
    · obtain rfl := List.mem_singleton.mp hnew
      exact ⟨s.region, List.mem_cons_self, rfl⟩
  | releases | destroysOld =>
    refine ⟨?_, ?_, ?_, ?_, Or.inl ?_, ?_, ?_, Or.inl ?_⟩ <;> simp only [unmapRegion_frame]
    all_goals exact hkeep
  | advancesMoved ho hr =>
    refine ⟨rfl, rfl, rfl, rfl, Or.inl rfl, rfl, fun q hq => ?_, Or.inl rfl⟩
    rcases List.mem_or_eq_of_mem_set hq with hold | rfl
    · exact hkeep q hold
    · exact ⟨_, List.mem_cons_of_mem _ (List.mem_of_getElem? hr), rfl⟩
  | movesMoved ho hr =>
    refine ⟨rfl, rfl, rfl, rfl, Or.inl rfl, rfl, fun q hq => ?_, Or.inl rfl⟩
    obtain ⟨q', hq', heq⟩ := counts_of_exchange hr hq
    exact ⟨q', List.mem_cons_of_mem _ hq', heq⟩
  | destroysMoved ho hr =>
    refine ⟨?_, ?_, ?_, ?_, Or.inl ?_, ?_, fun q hq => ?_, Or.inl ?_⟩
    case refine_7 => exact hkeep q (List.mem_of_mem_eraseIdx hq)
    all_goals simp only [unmapRegion_frame]

/-- An action and then a run. -/
theorem run_cons {contract : RegionSystem → Action → Prop} {actions : List Action}
    {u : RegionSystem} (hexec : s.exec b a = some t)
    (hrun : (machine b contract).run t actions = some u) :
    (machine b contract).run s (a :: actions) = some u := by
  show (s.exec b a).bind (fun t => (machine b contract).run t actions) = some u
  rw [hexec]
  exact hrun

end RegionSystem

end Memlab
