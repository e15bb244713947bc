/-
# Singly linked chains

Null-terminated linked lists as they lie in memory: `Chain next null p l` says that
following `next` from `p` visits exactly the nodes of `l`, in order, and then meets
`null`.  The node type and the successor function are arbitrary; a successor function
read off a byte memory is one instance, a field of atomic nodes another.

The rules are those of list surgery: a change of `next` off the chain does not matter
(`Chain.congr`), a node can be linked in front (`Chain.push`), the first node can be
dropped (`Chain.tail`), and the node behind another can be unlinked (`Chain.unlink`).
-/
import Mathlib

variable {α : Type*}

/-- Following `next` from `p` visits the nodes of `l` in order and ends in `null`. -/
def Chain (next : α → α) (null : α) : α → List α → Prop
  | p, [] => p = null
  | p, a :: l => p = a ∧ a ≠ null ∧ Chain next null (next a) l

namespace Chain

variable {next next' : α → α} {null p : α} {l l' : List α}

@[simp] theorem nil_iff : Chain next null p [] ↔ p = null := Iff.rfl

@[simp] theorem cons_iff {a : α} :
    Chain next null p (a :: l) ↔ p = a ∧ a ≠ null ∧ Chain next null (next a) l := Iff.rfl

/-- The chain of a pointer is unique. -/
theorem unique (h : Chain next null p l) (h' : Chain next null p l') : l = l' := by
  induction l generalizing p l' with
  | nil =>
    cases l' with
    | nil => rfl
    | cons b l' => exact absurd (h'.1.symm.trans h) h'.2.1
  | cons a l ih =>
    obtain ⟨rfl, hne, htail⟩ := h
    cases l' with
    | nil => exact absurd h' hne
    | cons b l' =>
      obtain ⟨rfl, -, htail'⟩ := h'
      rw [ih htail htail']

/-- Only the successors of the chain's own nodes matter. -/
theorem congr (h : Chain next null p l) (hnext : ∀ a ∈ l, next' a = next a) :
    Chain next' null p l := by
  induction l generalizing p with
  | nil => exact h
  | cons a l ih =>
    obtain ⟨rfl, hne, htail⟩ := h
    refine ⟨rfl, hne, ?_⟩
    rw [hnext p (List.mem_cons_self ..)]
    exact ih htail (fun b hb => hnext b (List.mem_cons_of_mem _ hb))

/-- No node of a chain is null. -/
theorem ne_null (h : Chain next null p l) {a : α} (ha : a ∈ l) : a ≠ null := by
  induction l generalizing p with
  | nil => simp at ha
  | cons b l ih =>
    rcases List.mem_cons.mp ha with rfl | ha
    · exact h.2.1
    · exact ih h.2.2 ha

/-- The chain that starts at a node of a chain is the rest of it. -/
theorem of_append {front : List α} {a : α} (h : Chain next null p (front ++ a :: l)) :
    Chain next null a (a :: l) := by
  induction front generalizing p with
  | nil =>
    obtain ⟨rfl, hne, htail⟩ := h
    exact ⟨rfl, hne, htail⟩
  | cons b front ih => exact ih h.2.2

/-- A null-terminated chain never meets a node twice: the two rests would be equal. -/
theorem nodup (h : Chain next null p l) : l.Nodup := by
  induction l generalizing p with
  | nil => exact List.nodup_nil
  | cons a l ih =>
    refine List.nodup_cons.mpr ⟨fun ha => ?_, ih h.2.2⟩
    obtain ⟨front, rest, rfl⟩ := List.append_of_mem ha
    have hfirst : Chain next null a (a :: (front ++ a :: rest)) := ⟨rfl, h.2.1, h.2.2⟩
    have hsecond : Chain next null a (a :: rest) := h.2.2.of_append
    have hlen := congrArg List.length (hfirst.unique hsecond)
    simp only [List.length_cons, List.length_append] at hlen
    omega

/-- A chain is empty exactly when its pointer is null. -/
theorem eq_nil_iff (h : Chain next null p l) : l = [] ↔ p = null := by
  cases l with
  | nil => exact ⟨fun _ => h, fun _ => rfl⟩
  | cons a l =>
    obtain ⟨rfl, hne, -⟩ := h
    simp [hne]

/-- A chain whose pointer is not null starts with that pointer. -/
theorem exists_cons (h : Chain next null p l) (hp : p ≠ null) :
    ∃ rest, l = p :: rest ∧ Chain next null (next p) rest := by
  cases l with
  | nil => exact absurd h hp
  | cons a rest =>
    obtain ⟨rfl, -, htail⟩ := h
    exact ⟨rest, rfl, htail⟩

/-- Link a node in front. -/
theorem push {a : α} (h : Chain next null p l) (ha : a ≠ null) (hlink : next' a = p)
    (hnext : ∀ b ∈ l, next' b = next b) : Chain next' null a (a :: l) := by
  refine ⟨rfl, ha, ?_⟩
  rw [hlink]
  exact h.congr hnext

/-- Drop the first node. -/
theorem tail {a : α} (h : Chain next null p (a :: l)) : Chain next null (next a) l :=
  h.2.2

/-- Unlink the node `b` that stands behind `a`: the successor of `a` becomes that of `b`
and no other successor on the chain changes. -/
theorem unlink {front : List α} {a b : α} (h : Chain next null p (front ++ a :: b :: l))
    (hlink : next' a = next b) (hnext : ∀ c ∈ front ++ l, next' c = next c) :
    Chain next' null p (front ++ a :: l) := by
  induction front generalizing p with
  | nil =>
    obtain ⟨rfl, hne, -, -, htail⟩ := h
    refine ⟨rfl, hne, ?_⟩
    rw [hlink]
    exact htail.congr (fun c hc => hnext c (by simpa using hc))
  | cons c front ih =>
    obtain ⟨rfl, hne, htail⟩ := h
    refine ⟨rfl, hne, ?_⟩
    rw [hnext p (by simp)]
    exact ih htail (fun d hd => hnext d (by simp only [List.cons_append, List.mem_cons]; exact .inr hd))

/-- A chain that is not empty has a last node. -/
theorem exists_next_eq_null (h : Chain next null p l) (hl : l ≠ []) :
    ∃ a ∈ l, next a = null := by
  induction l generalizing p with
  | nil => exact absurd rfl hl
  | cons a l ih =>
    obtain ⟨-, -, htail⟩ := h
    cases l with
    | nil => exact ⟨a, List.mem_cons_self .., htail⟩
    | cons b l =>
      obtain ⟨c, hc, hnull⟩ := ih htail (by simp)
      exact ⟨c, List.mem_cons_of_mem _ hc, hnull⟩

/-- The successors of a chain of numbers are its nodes, less the first one. -/
theorem sum_map_next {next : ℕ → ℕ} {p : ℕ} {l : List ℕ} (h : Chain next 0 p l) :
    (l.map next).sum + p = l.sum := by
  induction l generalizing p with
  | nil =>
    rw [show p = 0 from h]
    rfl
  | cons a l ih =>
    obtain ⟨rfl, -, htail⟩ := h
    have hrest := ih htail
    rw [List.map_cons, List.sum_cons, List.sum_cons]
    omega

/-- **A chain is kept by pointers that do not grow.**  If the nodes of a chain of numbers,
in any order, are also a chain from the same head for successors that are no larger, then
the successors are the same. -/
theorem next_eq_of_le {next next' : ℕ → ℕ} {p : ℕ} {l l' : List ℕ} (h : Chain next 0 p l)
    (h' : Chain next' 0 p l') (hperm : l'.Perm l) (hle : ∀ a ∈ l, next' a ≤ next a) :
    ∀ a ∈ l, next' a = next a := by
  intro a ha
  by_contra hne
  have hlt : (l.map next').sum < (l.map next).sum :=
    List.sum_lt_sum _ _ hle ⟨a, ha, lt_of_le_of_ne (hle a ha) hne⟩
  have hsum := h.sum_map_next
  have hsum' := h'.sum_map_next
  rw [(hperm.map next').sum_eq, hperm.sum_eq] at hsum'
  omega

end Chain
