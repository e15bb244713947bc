/-
# Sequential histories of a stack

A stack of distinct elements as an abstract object: its operations are events, and
`replay` runs a history (latest event first) on the empty stack.  It fails if an event
does not fit: if an element is pushed that is still in the stack, if something else than
the first element is popped, or if the stack is reported empty and is not.

A concurrent implementation is linearizable if the events of its completed operations,
in the order of their linearization points, can be replayed; the results below say what
that means for the elements.  The module names nothing of any program.
-/
import Mathlib

/-- What an operation did: push an element, pop one, or find the stack empty. -/
inductive StackEvent (α : Type*) where
  | push (a : α)
  | pop (a : α)
  | empty
  deriving DecidableEq

namespace StackEvent

variable {α : Type*} [DecidableEq α] {a : α} {h h₁ h₂ h₃ : List (StackEvent α)} {l l' : List α}

/-- The stack after a history, latest event first, provided that every event fits. -/
def replay : List (StackEvent α) → Option (List α)
  | [] => some []
  | push a :: h => (replay h).bind (fun l => if a ∈ l then none else some (a :: l))
  | pop a :: h => (replay h).bind (fun l => if l.head? = some a then some l.tail else none)
  | empty :: h => (replay h).bind (fun l => if l = [] then some [] else none)

theorem replay_push_iff : replay (push a :: h) = some l ↔
    ∃ l', replay h = some l' ∧ a ∉ l' ∧ l = a :: l' := by
  show (replay h).bind (fun l => if a ∈ l then none else some (a :: l)) = some l ↔ _
  rw [Option.bind_eq_some_iff]
  constructor
  · rintro ⟨l', hl', hpush⟩
    split_ifs at hpush with ha
    exact ⟨l', hl', ha, (Option.some.inj hpush).symm⟩
  · rintro ⟨l', hl', ha, rfl⟩
    exact ⟨l', hl', by rw [if_neg ha]⟩

theorem replay_pop_iff : replay (pop a :: h) = some l ↔ replay h = some (a :: l) := by
  show (replay h).bind (fun l => if l.head? = some a then some l.tail else none) = some l ↔ _
  rw [Option.bind_eq_some_iff]
  constructor
  · rintro ⟨l', hl', hpop⟩
    split_ifs at hpop with ha
    obtain ⟨rest, rfl⟩ := List.head?_eq_some_iff.mp ha
    obtain rfl := Option.some.inj hpop
    exact hl'
  · intro hl
    exact ⟨a :: l, hl, by simp⟩

theorem replay_empty_iff : replay (empty :: h) = some l ↔ replay h = some [] ∧ l = [] := by
  show (replay h).bind (fun l => if l = [] then some [] else none) = some l ↔ _
  rw [Option.bind_eq_some_iff]
  constructor
  · rintro ⟨l', hl', hempty⟩
    split_ifs at hempty with hnil
    exact ⟨hnil ▸ hl', (Option.some.inj hempty).symm⟩
  · rintro ⟨hl, rfl⟩
    exact ⟨[], hl, by simp⟩

/-- The older part of a history that fits, fits. -/
theorem exists_replay_of_append (hl : replay (h₁ ++ h₂) = some l) : ∃ l', replay h₂ = some l' := by
  induction h₁ generalizing l with
  | nil => exact ⟨l, hl⟩
  | cons e h₁ ih =>
    rw [List.cons_append] at hl
    cases e with
    | push b =>
      obtain ⟨l', hl', -⟩ := replay_push_iff.mp hl
      exact ih hl'
    | pop b => exact ih (replay_pop_iff.mp hl)
    | empty => exact ih (replay_empty_iff.mp hl).1

/-- The elements of the stack are distinct. -/
theorem nodup_of_replay (hl : replay h = some l) : l.Nodup := by
  induction h generalizing l with
  | nil =>
    obtain rfl := Option.some.inj hl
    exact List.nodup_nil
  | cons e h ih =>
    cases e with
    | push b =>
      obtain ⟨l', hl', hb, rfl⟩ := replay_push_iff.mp hl
      exact List.nodup_cons.mpr ⟨hb, ih hl'⟩
    | pop b => exact (List.nodup_cons.mp (ih (replay_pop_iff.mp hl))).2
    | empty =>
      rw [(replay_empty_iff.mp hl).2]
      exact List.nodup_nil

/-- The last event that concerns an element. -/
def last (a : α) (h : List (StackEvent α)) : Option (StackEvent α) :=
  h.find? (fun e => e = push a ∨ e = pop a)

/-- **The stack holds exactly the elements that were pushed and not popped since.** -/
theorem mem_iff_last (hl : replay h = some l) : a ∈ l ↔ last a h = some (push a) := by
  induction h generalizing l with
  | nil =>
    obtain rfl := Option.some.inj hl
    simp [last]
  | cons e h ih =>
    cases e with
    | push b =>
      obtain ⟨l', hl', hb, rfl⟩ := replay_push_iff.mp hl
      by_cases hab : a = b
      · subst hab
        simp [last]
      · have hba : b ≠ a := fun heq => hab heq.symm
        have hih := ih hl'
        simp only [last] at hih ⊢
        simp [hab, hba, hih]
    | pop b =>
      have hl' := replay_pop_iff.mp hl
      have hih := ih hl'
      by_cases hab : a = b
      · subst hab
        have hnot := (List.nodup_cons.mp (nodup_of_replay hl')).1
        simp [last, hnot]
      · have hba : b ≠ a := fun heq => hab heq.symm
        simp only [last, List.mem_cons, hab, false_or] at hih ⊢
        simp [hba, hih]
    | empty =>
      obtain ⟨hl', rfl⟩ := replay_empty_iff.mp hl
      have hih := ih hl'
      simp only [last] at hih ⊢
      simpa using hih

/-- An element that has entered the stack was pushed meanwhile. -/
theorem push_mem_of_enter (hl : replay (h₁ ++ h₂) = some l) (hl' : replay h₂ = some l')
    (ha : a ∈ l) (ha' : a ∉ l') : push a ∈ h₁ := by
  induction h₁ generalizing l with
  | nil =>
    obtain rfl := Option.some.inj (hl.symm.trans hl')
    exact absurd ha ha'
  | cons e h₁ ih =>
    rw [List.cons_append] at hl
    cases e with
    | push b =>
      obtain ⟨l₀, hl₀, -, rfl⟩ := replay_push_iff.mp hl
      rcases List.mem_cons.mp ha with rfl | ha
      · exact List.mem_cons_self ..
      · exact List.mem_cons_of_mem _ (ih hl₀ ha)
    | pop b => exact List.mem_cons_of_mem _ (ih (replay_pop_iff.mp hl) (List.mem_cons_of_mem _ ha))
    | empty =>
      rw [(replay_empty_iff.mp hl).2] at ha
      simp at ha

/-- **Between two pops of an element there is a push of it.** -/
theorem push_mem_between_pops (hl : replay (h₁ ++ pop a :: (h₂ ++ pop a :: h₃)) = some l) :
    push a ∈ h₂ := by
  obtain ⟨l₁, hl₁⟩ := exists_replay_of_append hl
  have hsecond := replay_pop_iff.mp hl₁
  obtain ⟨l₃, hl₃⟩ := exists_replay_of_append hsecond
  have hfirst := nodup_of_replay (replay_pop_iff.mp hl₃)
  exact push_mem_of_enter hsecond hl₃ (List.mem_cons_self ..) (List.nodup_cons.mp hfirst).1

/-! ## Counting -/

/-- A push. -/
def isPush : StackEvent α → Bool
  | push _ => true
  | _ => false

/-- A pop of an element. -/
def isPop : StackEvent α → Bool
  | pop _ => true
  | _ => false

/-- An element has been pushed as often as popped, and once more if it is in the stack. -/
theorem count_push (hl : replay h = some l) (a : α) :
    h.count (push a) = h.count (pop a) + l.count a := by
  have hne : ∀ b c : α, push b ≠ pop c := by
    intro b c heq
    cases heq
  induction h generalizing l with
  | nil =>
    obtain rfl := Option.some.inj hl
    rfl
  | cons e h ih =>
    cases e with
    | push b =>
      obtain ⟨l', hl', -, rfl⟩ := replay_push_iff.mp hl
      have hih := ih hl'
      rw [List.count_cons_of_ne (hne b a)]
      by_cases hb : b = a
      · subst hb
        rw [List.count_cons_self, List.count_cons_self, hih, Nat.add_assoc]
      · rw [List.count_cons_of_ne (fun heq => hb (push.inj heq)), List.count_cons_of_ne hb, hih]
    | pop b =>
      have hih := ih (replay_pop_iff.mp hl)
      rw [List.count_cons_of_ne (hne a b).symm, hih]
      by_cases hb : b = a
      · subst hb
        rw [List.count_cons_self, List.count_cons_self]
        omega
      · rw [List.count_cons_of_ne (fun heq => hb (pop.inj heq)), List.count_cons_of_ne hb]
    | empty =>
      obtain ⟨hl', rfl⟩ := replay_empty_iff.mp hl
      rw [List.count_cons_of_ne (by intro heq; cases heq),
        List.count_cons_of_ne (by intro heq; cases heq)]
      exact ih hl'

/-- The stack holds as many elements as were pushed and not popped. -/
theorem countP_isPush (hl : replay h = some l) : h.countP isPush = h.countP isPop + l.length := by
  induction h generalizing l with
  | nil =>
    obtain rfl := Option.some.inj hl
    rfl
  | cons e h ih =>
    cases e with
    | push b =>
      obtain ⟨l', hl', -, rfl⟩ := replay_push_iff.mp hl
      rw [List.countP_cons_of_pos rfl, List.countP_cons_of_neg Bool.false_ne_true, ih hl',
        List.length_cons, Nat.add_assoc]
    | pop b =>
      have hih := ih (replay_pop_iff.mp hl)
      rw [List.length_cons] at hih
      rw [List.countP_cons_of_neg Bool.false_ne_true, List.countP_cons_of_pos rfl, hih]
      omega
    | empty =>
      obtain ⟨hl', rfl⟩ := replay_empty_iff.mp hl
      rw [List.countP_cons_of_neg Bool.false_ne_true, List.countP_cons_of_neg Bool.false_ne_true]
      exact ih hl'

/-- Every event is a push, a pop or the observation that the stack is empty. -/
theorem length_eq_counts (h : List (StackEvent α)) :
    h.length = h.countP isPush + h.countP isPop + h.count empty := by
  induction h with
  | nil => rfl
  | cons e h ih =>
    rw [List.length_cons, ih]
    cases e with
    | push b =>
      rw [List.countP_cons_of_pos rfl, List.countP_cons_of_neg Bool.false_ne_true,
        List.count_cons_of_ne (by intro heq; cases heq)]
      omega
    | pop b =>
      rw [List.countP_cons_of_neg Bool.false_ne_true, List.countP_cons_of_pos rfl,
        List.count_cons_of_ne (by intro heq; cases heq)]
      omega
    | empty =>
      rw [List.countP_cons_of_neg Bool.false_ne_true, List.countP_cons_of_neg Bool.false_ne_true,
        List.count_cons_self, Nat.add_assoc]

end StackEvent
