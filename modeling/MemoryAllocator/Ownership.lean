/-
# Move-only handles

A library about variables that own resources one at a time: a variable acquires a
resource that nobody has, hands it over to another variable, or releases it.  Nothing
is copied.  A `Holding` says which variable holds what, beside the resources in use;
`Exclusive` says that the two agree: a resource is in use exactly if some variable
holds it, and then only that one.

The three operations keep this, so a program that is made of them releases what it
acquired, once, and from the variable that has it.
-/
import Mathlib

namespace Ownership

variable {V R : Type*}

/-- Which variable holds which resource, and the resources in use. -/
structure Holding (V R : Type*) where
  held : V → Option R
  live : List R

namespace Holding

/-- A resource is in use, once, exactly if a variable holds it, and no two hold the same. -/
structure Exclusive (h : Holding V R) : Prop where
  nodup : h.live.Nodup
  mem_live : ∀ r, r ∈ h.live ↔ ∃ x, h.held x = some r
  inj : ∀ {x y : V} {r : R}, h.held x = some r → h.held y = some r → x = y

variable {h : Holding V R} {x y z : V} {r : R}

/-- **Nothing leaks**: when no variable holds anything, nothing is in use. -/
theorem Exclusive.live_eq_nil (hs : h.Exclusive) (hnone : ∀ x, h.held x = none) :
    h.live = [] := by
  apply List.eq_nil_iff_forall_not_mem.mpr
  intro r hr
  obtain ⟨x, hx⟩ := (hs.mem_live r).mp hr
  rw [hnone x] at hx
  cases hx

/-! ## Acquiring and handing over -/

variable [DecidableEq V]

/-- `x` acquires `r`. -/
def acquire (h : Holding V R) (x : V) (r : R) : Holding V R where
  held := Function.update h.held x (some r)
  live := r :: h.live

/-- `x` takes what `y` holds, if it holds anything. -/
def transfer (h : Holding V R) (x y : V) : Holding V R where
  held := Function.update (Function.update h.held y none) x (h.held y)
  live := h.live

@[simp] theorem acquire_held_self : (h.acquire x r).held x = some r :=
  Function.update_self ..

@[simp] theorem transfer_held_self : (h.transfer x y).held x = h.held y :=
  Function.update_self ..

theorem acquire_held_of_ne (hne : z ≠ x) : (h.acquire x r).held z = h.held z :=
  Function.update_of_ne hne ..

theorem transfer_held_source (hne : y ≠ x) : (h.transfer x y).held y = none := by
  show Function.update (Function.update h.held y none) x (h.held y) y = none
  rw [Function.update_of_ne hne, Function.update_self]

theorem transfer_held_of_ne (hx : z ≠ x) (hy : z ≠ y) :
    (h.transfer x y).held z = h.held z := by
  show Function.update (Function.update h.held y none) x (h.held y) z = h.held z
  rw [Function.update_of_ne hx, Function.update_of_ne hy]

/-! ## They keep every resource with one owner -/

/-- **Acquiring what nobody has.** -/
theorem Exclusive.acquire (hs : h.Exclusive) (hx : h.held x = none) (hr : r ∉ h.live) :
    (h.acquire x r).Exclusive where
  nodup := List.nodup_cons.mpr ⟨hr, hs.nodup⟩
  mem_live := by
    intro q
    constructor
    · intro hq
      rcases List.mem_cons.mp hq with rfl | hq
      · exact ⟨x, acquire_held_self⟩
      · obtain ⟨y, hy⟩ := (hs.mem_live q).mp hq
        have hne : y ≠ x := by
          rintro rfl
          rw [hx] at hy
          cases hy
        exact ⟨y, by rw [acquire_held_of_ne hne, hy]⟩
    · rintro ⟨y, hy⟩
      by_cases hne : y = x
      · subst hne
        rw [acquire_held_self] at hy
        obtain rfl := Option.some.inj hy
        exact List.mem_cons_self
      · rw [acquire_held_of_ne hne] at hy
        exact List.mem_cons_of_mem _ ((hs.mem_live q).mpr ⟨y, hy⟩)
  inj := by
    intro y z q hy hz
    have hnew : ∀ w, w ≠ x → (h.acquire x r).held w ≠ some r := by
      intro w hw heq
      rw [acquire_held_of_ne hw] at heq
      exact hr ((hs.mem_live r).mpr ⟨w, heq⟩)
    by_cases hyx : y = x
    · by_cases hzx : z = x
      · rw [hyx, hzx]
      · rw [hyx, acquire_held_self] at hy
        obtain rfl := Option.some.inj hy
        exact absurd hz (hnew z hzx)
    · by_cases hzx : z = x
      · rw [hzx, acquire_held_self] at hz
        obtain rfl := Option.some.inj hz
        exact absurd hy (hnew y hyx)
      · rw [acquire_held_of_ne hyx] at hy
        rw [acquire_held_of_ne hzx] at hz
        exact hs.inj hy hz

/-- **Handing over to a variable that holds nothing.** -/
theorem Exclusive.transfer (hs : h.Exclusive) (hne : y ≠ x) (hx : h.held x = none) :
    (h.transfer x y).Exclusive := by
  -- whoever holds `q` afterwards stands for one who held it before
  have hback : ∀ {w q}, (h.transfer x y).held w = some q →
      (w = x ∧ h.held y = some q) ∨ (w ≠ x ∧ w ≠ y ∧ h.held w = some q) := by
    intro w q hw
    by_cases hwx : w = x
    · subst hwx
      rw [transfer_held_self] at hw
      exact Or.inl ⟨rfl, hw⟩
    · by_cases hwy : w = y
      · subst hwy
        rw [transfer_held_source hne] at hw
        cases hw
      · rw [transfer_held_of_ne hwx hwy] at hw
        exact Or.inr ⟨hwx, hwy, hw⟩
  refine ⟨hs.nodup, fun q => ?_, ?_⟩
  · rw [show (h.transfer x y).live = h.live from rfl, hs.mem_live]
    constructor
    · rintro ⟨w, hw⟩
      by_cases hwy : w = y
      · subst hwy
        exact ⟨x, by rw [transfer_held_self, hw]⟩
      · have hwx : w ≠ x := by
          rintro rfl
          rw [hx] at hw
          cases hw
        exact ⟨w, by rw [transfer_held_of_ne hwx hwy, hw]⟩
    · rintro ⟨w, hw⟩
      obtain ⟨-, hq⟩ | ⟨-, -, hq⟩ := hback hw
      · exact ⟨y, hq⟩
      · exact ⟨w, hq⟩
  · intro v w q hv hw
    obtain ⟨hvx, hvq⟩ | ⟨-, hvy, hvq⟩ := hback hv
    · obtain ⟨hwx, -⟩ | ⟨-, hwy, hwq⟩ := hback hw
      · rw [hvx, hwx]
      · exact absurd (hs.inj hwq hvq) hwy
    · obtain ⟨-, hwq⟩ | ⟨-, -, hwq⟩ := hback hw
      · exact absurd (hs.inj hvq hwq) hvy
      · exact hs.inj hvq hwq

/-! ## Release -/

variable [DecidableEq R]

/-- `x` lets go of what it holds, if it holds anything. -/
def release (h : Holding V R) (x : V) : Holding V R where
  held := Function.update h.held x none
  live := h.live.filter (fun r => h.held x ≠ some r)

@[simp] theorem release_held_self : (h.release x).held x = none :=
  Function.update_self ..

theorem release_held_of_ne (hne : z ≠ x) : (h.release x).held z = h.held z :=
  Function.update_of_ne hne ..

/-- Releasing a variable that holds nothing changes nothing. -/
theorem release_of_none (hx : h.held x = none) : h.release x = h := by
  have hheld : Function.update h.held x none = h.held := by
    rw [← hx]
    exact Function.update_eq_self x h.held
  have hlive : h.live.filter (fun r => h.held x ≠ some r) = h.live := by
    apply List.filter_eq_self.mpr
    intro r _
    rw [hx]
    simp
  rw [release, hheld, hlive]

/-- **Releasing ends the use of what was held, and of nothing else.** -/
theorem Exclusive.release (hs : h.Exclusive) (x : V) : (h.release x).Exclusive where
  nodup := hs.nodup.filter _
  mem_live := by
    intro q
    rw [show (h.release x).live = h.live.filter (fun r => h.held x ≠ some r) from rfl,
      List.mem_filter, hs.mem_live, decide_eq_true_iff]
    constructor
    · rintro ⟨⟨y, hy⟩, hq⟩
      have hne : y ≠ x := by
        rintro rfl
        exact hq hy
      exact ⟨y, by rw [release_held_of_ne hne, hy]⟩
    · rintro ⟨y, hy⟩
      have hne : y ≠ x := by
        rintro rfl
        rw [release_held_self] at hy
        cases hy
      rw [release_held_of_ne hne] at hy
      exact ⟨⟨y, hy⟩, fun hq => hne (hs.inj hy hq)⟩
  inj := by
    intro y z q hy hz
    have hold : ∀ {w}, (h.release x).held w = some q → h.held w = some q := by
      intro w hw
      have hne : w ≠ x := by
        rintro rfl
        rw [release_held_self] at hw
        cases hw
      rwa [release_held_of_ne hne] at hw
    exact hs.inj (hold hy) (hold hz)

end Holding

end Ownership
