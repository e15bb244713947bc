/-
# Guarded machines and their runs

A small theory of sequential and interleaved systems, independent of any program.
A machine has states and operations; an operation may be performed in a state only
if its guard holds there, and performing it either returns a new state or does not
return at all (`none`: a loop of the modelled program that never ends).

* `Legal s ops` : each operation of `ops` is within its guard when its turn comes;
* `run s ops` : the state after `ops`, if every operation returned;
* `Reaches s ops t` : a legal run that returned, ending in `t`.

Nondeterminism of the environment (which thread moves, what the operating system
answers, what a client writes) is part of the operation, so that runs can be evaluated.
-/
import Mathlib

/-- A machine whose operations carry a guard and may fail to return. -/
structure GuardedMachine (σ Op : Type*) where
  pre : σ → Op → Prop
  exec : σ → Op → Option σ

namespace GuardedMachine

variable {σ Op : Type*} (M : GuardedMachine σ Op)

/-- A property of every step, in the state in which it is taken. -/
def EachStep (Q : σ → Op → Prop) : σ → List Op → Prop
  | _, [] => True
  | s, op :: ops => Q s op ∧ ∀ t, M.exec s op = some t → EachStep Q t ops

/-- Every operation is within its guard when its turn comes. -/
abbrev Legal : σ → List Op → Prop := M.EachStep M.pre

/-- The state after the operations, provided all of them return. -/
def run : σ → List Op → Option σ
  | s, [] => some s
  | s, op :: ops => (M.exec s op).bind (fun t => run t ops)

/-- A legal run that returned. -/
def Reaches (s : σ) (ops : List Op) (t : σ) : Prop :=
  M.Legal s ops ∧ M.run s ops = some t

/-- A property of every state that the run goes through, the first and the last included. -/
def Throughout (P : σ → Prop) : σ → List Op → Prop
  | s, [] => P s
  | s, op :: ops => P s ∧ ∀ t, M.exec s op = some t → Throughout P t ops

/-- A decidable condition can be decided along a run; in particular it is decidable
whether a run is legal. -/
instance decidableEachStep {Q : σ → Op → Prop} [∀ s op, Decidable (Q s op)] :
    ∀ (s : σ) (ops : List Op), Decidable (M.EachStep Q s ops)
  | _, [] => .isTrue trivial
  | s, op :: ops =>
    match h : M.exec s op with
    | none => decidable_of_iff (Q s op) (by simp [EachStep, h])
    | some t =>
      have := decidableEachStep (Q := Q) t ops
      decidable_of_iff (Q s op ∧ M.EachStep Q t ops) (by simp [EachStep, h])

variable {M}

@[simp] theorem legal_nil (s : σ) : M.Legal s [] := trivial

@[simp] theorem run_nil (s : σ) : M.run s [] = some s := rfl

theorem run_append (s : σ) (ops ops' : List Op) :
    M.run s (ops ++ ops') = (M.run s ops).bind (fun t => M.run t ops') := by
  induction ops generalizing s with
  | nil => simp
  | cons op ops ih =>
    simp only [List.cons_append, run, Option.bind_assoc]
    congr 1
    funext t
    exact ih t

theorem legal_append (s : σ) (ops ops' : List Op) :
    M.Legal s (ops ++ ops') ↔
      M.Legal s ops ∧ ∀ t, M.run s ops = some t → M.Legal t ops' := by
  induction ops generalizing s with
  | nil => simp
  | cons op ops ih =>
    simp only [List.cons_append, EachStep, run, Option.bind_eq_some_iff]
    constructor
    · rintro ⟨hpre, h⟩
      refine ⟨⟨hpre, fun t ht => ((ih t).mp (h t ht)).1⟩, ?_⟩
      rintro u ⟨t, ht, hu⟩
      exact ((ih t).mp (h t ht)).2 u hu
    · rintro ⟨⟨hpre, h⟩, h'⟩
      exact ⟨hpre, fun t ht => (ih t).mpr ⟨h t ht, fun u hu => h' u ⟨t, ht, hu⟩⟩⟩

@[simp] theorem reaches_nil (s t : σ) : M.Reaches s [] t ↔ s = t := by
  simp [Reaches]

/-- Runs compose. -/
theorem Reaches.append {s t u : σ} {ops ops' : List Op}
    (h : M.Reaches s ops t) (h' : M.Reaches t ops' u) : M.Reaches s (ops ++ ops') u := by
  refine ⟨(legal_append _ _ _).mpr ⟨h.1, fun v hv => ?_⟩, ?_⟩
  · rw [h.2] at hv
    cases hv
    exact h'.1
  · rw [run_append, h.2]
    exact h'.2

/-- A run of one operation. -/
theorem Reaches.single {s t : σ} {op : Op} (hpre : M.pre s op)
    (hexec : M.exec s op = some t) : M.Reaches s [op] t := by
  refine ⟨⟨hpre, fun _ _ => trivial⟩, ?_⟩
  simp [run, hexec]

/-- The last step of a run. -/
theorem reaches_concat {s u : σ} {ops : List Op} {op : Op} :
    M.Reaches s (ops ++ [op]) u ↔
      ∃ t, M.Reaches s ops t ∧ M.pre t op ∧ M.exec t op = some u := by
  constructor
  · rintro ⟨hlegal, hrun⟩
    rw [legal_append] at hlegal
    rw [run_append, Option.bind_eq_some_iff] at hrun
    obtain ⟨t, ht, hu⟩ := hrun
    refine ⟨t, ⟨hlegal.1, ht⟩, (hlegal.2 t ht).1, ?_⟩
    simpa [run] using hu
  · rintro ⟨t, ht, hpre, hexec⟩
    exact ht.append (.single hpre hexec)

/-- **Invariant rule under a condition on the steps, total form.**  If every permitted
operation that meets the condition returns and keeps `I`, then every legal run whose steps
meet it returns, in a state that satisfies `I`. -/
theorem Legal.invariant_of_eachStep {I : σ → Prop} {Q : σ → Op → Prop}
    (step : ∀ s op, I s → M.pre s op → Q s op → ∃ t, M.exec s op = some t ∧ I t)
    {s : σ} (hs : I s) {ops : List Op} (h : M.Legal s ops) (hQ : M.EachStep Q s ops) :
    ∃ t, M.run s ops = some t ∧ I t := by
  induction ops generalizing s with
  | nil => exact ⟨s, rfl, hs⟩
  | cons op ops ih =>
    obtain ⟨t, ht, hI⟩ := step s op hs h.1 hQ.1
    obtain ⟨u, hu, hIu⟩ := ih hI (h.2 t ht) (hQ.2 t ht)
    exact ⟨u, by simp [run, ht, hu], hIu⟩

/-- A condition that every step meets. -/
theorem eachStep_of_forall {Q : σ → Op → Prop} (hQ : ∀ s op, Q s op) (s : σ) (ops : List Op) :
    M.EachStep Q s ops := by
  induction ops generalizing s with
  | nil => trivial
  | cons op ops ih => exact ⟨hQ s op, fun t _ => ih t⟩

/-- **Invariant rule, total form.**  If every permitted operation returns and keeps
`I`, then every legal run returns, in a state that satisfies `I`. -/
theorem Legal.invariant {I : σ → Prop}
    (step : ∀ s op, I s → M.pre s op → ∃ t, M.exec s op = some t ∧ I t)
    {s : σ} (hs : I s) {ops : List Op} (h : M.Legal s ops) :
    ∃ t, M.run s ops = some t ∧ I t :=
  h.invariant_of_eachStep (fun s op hI hpre _ => step s op hI hpre) hs
    (eachStep_of_forall (fun _ _ => trivial) s ops)

/-- **Invariant rule, partial form.**  An invariant of every step holds at the end of
every run. -/
theorem Reaches.invariant {I : σ → Prop}
    (step : ∀ s op t, I s → M.pre s op → M.exec s op = some t → I t)
    {s : σ} (hs : I s) {ops : List Op} {t : σ} (h : M.Reaches s ops t) : I t := by
  induction ops using List.reverseRecOn generalizing t with
  | nil =>
    rw [reaches_nil] at h
    exact h ▸ hs
  | append_singleton ops op ih =>
    obtain ⟨u, hu, hpre, hexec⟩ := reaches_concat.mp h
    exact step u op t (ih hu) hpre hexec

/-- A property of all states holds at the end of the run. -/
theorem Throughout.final {P : σ → Prop} {s t : σ} {ops : List Op} (h : M.Throughout P s ops)
    (hrun : M.run s ops = some t) : P t := by
  induction ops generalizing s with
  | nil =>
    obtain rfl : s = t := Option.some.inj hrun
    exact h
  | cons op ops ih =>
    obtain ⟨u, hu, ht⟩ := Option.bind_eq_some_iff.mp hrun
    exact ih (h.2 u hu) ht

/-- A condition on all steps holds of the last one. -/
theorem EachStep.last {Q : σ → Op → Prop} {s t : σ} {ops : List Op} {op : Op}
    (h : M.EachStep Q s (ops ++ [op])) (hrun : M.run s ops = some t) : Q t op := by
  induction ops generalizing s with
  | nil =>
    obtain rfl : s = t := Option.some.inj hrun
    exact h.1
  | cons op' ops ih =>
    obtain ⟨u, hu, ht⟩ := Option.bind_eq_some_iff.mp hrun
    exact ih (h.2 u hu) ht

/-- A weaker condition on all steps. -/
theorem EachStep.mono {P Q : σ → Op → Prop} (hPQ : ∀ s op, P s op → Q s op) {s : σ}
    {ops : List Op} (h : M.EachStep P s ops) : M.EachStep Q s ops := by
  induction ops generalizing s with
  | nil => trivial
  | cons op ops ih => exact ⟨hPQ s op h.1, fun t ht => ih (h.2 t ht)⟩

/-- **Two conditions on steps** agree along legal runs if they agree in all states that
satisfy an invariant of the steps that meet the second one. -/
theorem eachStep_congr {I : σ → Prop} {P Q : σ → Op → Prop}
    (step : ∀ s op t, I s → M.pre s op → Q s op → M.exec s op = some t → I t)
    (iff : ∀ s op, I s → M.pre s op → (P s op ↔ Q s op))
    {s : σ} (hs : I s) {ops : List Op} (h : M.Legal s ops) :
    M.EachStep P s ops ↔ M.EachStep Q s ops := by
  induction ops generalizing s with
  | nil => exact Iff.rfl
  | cons op ops ih =>
    have hop := iff s op hs h.1
    constructor
    · rintro ⟨hP, hrest⟩
      have hQ := hop.mp hP
      exact ⟨hQ, fun t ht => (ih (step s op t hs h.1 hQ ht) (h.2 t ht)).mp (hrest t ht)⟩
    · rintro ⟨hQ, hrest⟩
      exact ⟨hop.mpr hQ, fun t ht => (ih (step s op t hs h.1 hQ ht) (h.2 t ht)).mpr (hrest t ht)⟩

/-- **A property of states and a condition on steps** agree along legal runs if every step
that meets the condition keeps an invariant with the property, and every other step
leads out of the property. -/
theorem throughout_iff_eachStep {I P : σ → Prop} {Q : σ → Op → Prop} (hP : ∀ s, I s → P s)
    (step : ∀ s op t, I s → M.pre s op → Q s op → M.exec s op = some t → I t)
    (fail : ∀ s op, I s → M.pre s op → ¬ Q s op → ∃ t, M.exec s op = some t ∧ ¬ P t)
    {s : σ} (hs : I s) {ops : List Op} (h : M.Legal s ops) :
    M.Throughout P s ops ↔ M.EachStep Q s ops := by
  induction ops generalizing s with
  | nil => exact ⟨fun _ => trivial, fun _ => hP s hs⟩
  | cons op ops ih =>
    constructor
    · rintro ⟨-, hrest⟩
      have hfirst : ∀ t, M.exec s op = some t → P t := by
        intro t ht
        cases ops with
        | nil => exact hrest t ht
        | cons op' ops => exact (hrest t ht).1
      have hQ : Q s op := by
        by_contra hcon
        obtain ⟨t, ht, hnot⟩ := fail s op hs h.1 hcon
        exact hnot (hfirst t ht)
      exact ⟨hQ, fun t ht => (ih (step s op t hs h.1 hQ ht) (h.2 t ht)).mp (hrest t ht)⟩
    · rintro ⟨hQ, hrest⟩
      exact ⟨hP s hs, fun t ht => (ih (step s op t hs h.1 hQ ht) (h.2 t ht)).mpr (hrest t ht)⟩

end GuardedMachine
