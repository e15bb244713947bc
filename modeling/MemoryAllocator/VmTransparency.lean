/-
# The TLB is transparent

The system is compared with the same system that always walks the page table.  For an
arbitrary policy the two runs stay the same but for their TLBs: as long as the TLB is
coherent, a call does what a walk would have done (`Refines.access_same_walk`).

To see the calls that the policy gets, it is wrapped into one that writes them down
(`IReplacement.logged`).
-/
import MemoryAllocator.VmInvariant

namespace Memlab

/-- A call of the policy, with the frame that it is given or returns. -/
inductive PolicyCall where
  | onLoad (frame : ℕ)
  | onAccess (frame : ℕ)
  | victim (frame : ℕ)
  | onEvict (frame : ℕ)
  deriving DecidableEq, Repr

/-- The policy, with a record of its calls. -/
def IReplacement.logged {σ : Type*} (R : IReplacement σ) : IReplacement (σ × List PolicyCall) where
  onLoad := fun frame s => (R.onLoad frame s.1, s.2 ++ [.onLoad frame])
  onAccess := fun frame s => (R.onAccess frame s.1, s.2 ++ [.onAccess frame])
  victim := fun s =>
    match R.victim s.1 with
    | none => none
    | some (frame, π) => some (frame, (π, s.2 ++ [.victim frame]))
  onEvict := fun frame s => (R.onEvict frame s.1, s.2 ++ [.onEvict frame])
  name := R.name

namespace VMSystem

variable {σ : Type*} {R : IReplacement σ} {v w : VMSystem σ}

/-- A sequence of calls with the TLB branch removed. -/
def runNoTlb (R : IReplacement σ) (v : VMSystem σ) (ops : List Access) :
    Option (List AccessResult × VMSystem σ) :=
  runWith (walk R) v ops

/-- The three flags of a result that are not about the TLB. -/
def faultFlags (r : AccessResult) : Bool × Bool × Bool := (r.pageFault, r.evicted, r.dirtyEvict)

theorem SameFault.flags_eq {r r' : AccessResult} (h : SameFault r r') :
    faultFlags r = faultFlags r' := by
  unfold faultFlags
  rw [h.1, h.2.1, h.2.2]

/-- The two ways in which outcomes can be the same. -/
theorem SameOutcome.cases {a b : Option (AccessResult × VMSystem σ)} (h : SameOutcome a b) :
    (a = none ∧ b = none) ∨ ∃ r v r' w, a = some (r, v) ∧ b = some (r', w) ∧
      SameFault r r' ∧ SameButTlb v w := by
  match a, b, h with
  | none, none, _ => exact .inl ⟨rfl, rfl⟩
  | some (r, v), some (r', w), h => exact .inr ⟨r, v, r', w, rfl, rfl, h.1, h.2⟩

theorem SameOutcome.trans {a b c : Option (AccessResult × VMSystem σ)} (h : SameOutcome a b)
    (h' : SameOutcome b c) : SameOutcome a c := by
  rcases h.cases with ⟨rfl, rfl⟩ | ⟨r, v, r', w, rfl, rfl, hfault, hbut⟩
  · exact h'
  · rcases h'.cases with ⟨hnone, -⟩ | ⟨r₁, v₁, r₂, w₂, heq, rfl, hfault', hbut'⟩
    · simp at hnone
    · obtain ⟨rfl, rfl⟩ := Prod.mk.inj (Option.some.inj heq)
      exact ⟨⟨hfault.1.trans hfault'.1, hfault.2.1.trans hfault'.2.1,
        hfault.2.2.trans hfault'.2.2⟩, hbut.trans hbut'⟩

/-- **Runs with and without the TLB**: both are undefined, or they give the same flags and
end in systems that are the same but for the TLB. -/
theorem run_same_runNoTlb (n : ℕ) (init : σ) (costs : CostModel) (ops : List Access) :
    (run R (create n init costs) ops = none ∧ runNoTlb R (create n init costs) ops = none) ∨
    ∃ rs v rs' w, run R (create n init costs) ops = some (rs, v) ∧
      runNoTlb R (create n init costs) ops = some (rs', w) ∧
      rs.map faultFlags = rs'.map faultFlags ∧ SameButTlb v w := by
  induction ops using List.reverseRecOn with
  | nil => exact .inr ⟨[], _, [], _, rfl, rfl, rfl, rfl⟩
  | append_singleton ops op ih =>
    rw [run, runNoTlb, runWith_append_singleton, runWith_append_singleton]
    rcases ih with ⟨hnone, hnone'⟩ | ⟨rs, v, rs', w, hrun, hrun', hflags, hsame⟩
    · rw [run] at hnone
      rw [runNoTlb] at hnone'
      rw [hnone, hnone']
      exact .inl ⟨rfl, rfl⟩
    · obtain ⟨outs, s, hv⟩ := run_refines hrun
      have hcall := (hv.refines.access_same_walk (R := R) hv.coherent op).1
      have hwalk := walk_same (R := R) op hsame
      rw [run] at hrun
      rw [runNoTlb] at hrun'
      rw [hrun, hrun', Option.bind_some, Option.bind_some]
      rcases (hcall.trans hwalk).cases with ⟨hnone, hnone'⟩ |
        ⟨r, v', r', w', hsome, hsome', hfault, hbut⟩
      · rw [hnone, hnone']
        exact .inl ⟨rfl, rfl⟩
      · rw [hsome, hsome']
        refine .inr ⟨_, _, _, _, rfl, rfl, ?_, hbut⟩
        rw [List.map_append, List.map_append, hflags, List.map_singleton, List.map_singleton,
          hfault.flags_eq]

end VMSystem

/-- What of a run is visible without the TLB: the flags of every call, the calls of the
policy, and in every page table entry the presence, the frame and the dirty bit. -/
def observed {σ : Type*} (rv : List AccessResult × VMSystem (σ × List PolicyCall)) :
    List (Bool × Bool × Bool) × List PolicyCall × (ℤ → ℕ → Option (Bool × ℕ × Bool)) :=
  (rv.1.map VMSystem.faultFlags, rv.2.policy.2,
    fun pid vpn => (rv.2.pageTables pid vpn).map (fun pte => (pte.present, pte.frame, pte.dirty)))

/-- **The TLB is transparent.**  For every policy, every number of frames and every
sequence of references, the system and the same system without its TLB branch give the
same flags call by call, make the same calls of the policy and end with the same page
tables; if the policy is undefined on a victim, it is so in both. -/
theorem tlb_transparent {σ : Type*} (R : IReplacement σ) (init : σ) (frames : ℕ)
    (costs : CostModel) (ops : List Access) :
    (VMSystem.run R.logged (VMSystem.create frames (init, []) costs) ops).map observed
      = (VMSystem.runNoTlb R.logged (VMSystem.create frames (init, []) costs) ops).map observed := by
  rcases VMSystem.run_same_runNoTlb (R := R.logged) frames (init, []) costs ops with
    ⟨hnone, hnone'⟩ | ⟨rs, v, rs', w, hrun, hrun', hflags, hsame⟩
  · rw [hnone, hnone']
  · rw [hrun, hrun', Option.map_some, Option.map_some, observed, observed, hflags, hsame]

end Memlab
