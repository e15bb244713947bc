/-
# Priority queues in vectors

A vector that is kept in order by the heap functions of a standard library, for an order
that is given by a key: the element with the least key comes first.  What the functions
do to the layout of the vector is left open (`HeapFns`); they may be relied on to keep a
heap a heap, to lose no element, and to take the first element out.
-/
import Mathlib.Data.List.Sort

namespace PriorityQueue

variable {α : Type}

/-- No element of the vector has a smaller key than its parent. -/
def IsHeap (key : α → ℤ) (l : List α) : Prop :=
  ∀ i x y, l[i + 1]? = some x → l[i / 2]? = some y → key y ≤ key x

/-- `push_heap` moves the last element of the vector into the heap before it, and
`pop_heap` moves the first element of a heap to the end and makes a heap of the rest. -/
structure HeapFns (α : Type) where
  pushHeap : (α → ℤ) → List α → List α
  popHeap : (α → ℤ) → List α → List α
  pushHeap_perm : ∀ key l a, IsHeap key l → (pushHeap key (l ++ [a])).Perm (l ++ [a])
  pushHeap_isHeap : ∀ key l a, IsHeap key l → IsHeap key (pushHeap key (l ++ [a]))
  popHeap_eq : ∀ key l a, IsHeap key (a :: l) →
    ∃ rest, popHeap key (a :: l) = rest ++ [a] ∧ rest.Perm l ∧ IsHeap key rest

namespace HeapFns

variable (H : HeapFns α) {key key' : α → ℤ} {queue : List α} {a : α}

/-- `push_back`, and `push_heap` on the vector. -/
def push (key : α → ℤ) (queue : List α) (a : α) : List α := H.pushHeap key (queue ++ [a])

/-- `pop_heap`, which puts the top at the end, and `pop_back`. -/
def pop (key : α → ℤ) (queue : List α) : List α := (H.popHeap key queue).dropLast

/-- A `push` adds its element. -/
theorem push_perm (h : IsHeap key queue) : (H.push key queue a).Perm (a :: queue) :=
  (H.pushHeap_perm key queue a h).trans (List.perm_append_singleton a queue)

/-- A `push` keeps a heap. -/
theorem isHeap_push (h : IsHeap key queue) : IsHeap key (H.push key queue a) :=
  H.pushHeap_isHeap key queue a h

/-- A `pop` takes the top, and nothing else. -/
theorem pop_perm (h : IsHeap key (a :: queue)) : (H.pop key (a :: queue)).Perm queue := by
  obtain ⟨rest, hrest, hperm, -⟩ := H.popHeap_eq key queue a h
  rw [pop, hrest, List.dropLast_concat]
  exact hperm

/-- A `pop` keeps a heap. -/
theorem isHeap_pop (h : IsHeap key (a :: queue)) : IsHeap key (H.pop key (a :: queue)) := by
  obtain ⟨rest, hrest, -, hheap⟩ := H.popHeap_eq key queue a h
  rw [pop, hrest, List.dropLast_concat]
  exact hheap

end HeapFns

theorem isHeap_nil (key : α → ℤ) : IsHeap key [] := by
  intro i x y hx
  simp at hx

/-- The order of a heap depends on the keys of its elements only. -/
theorem IsHeap.congr {key key' : α → ℤ} {l : List α} (h : IsHeap key l)
    (hkey : ∀ a ∈ l, key' a = key a) : IsHeap key' l := by
  intro i x y hx hy
  rw [hkey x (List.mem_of_getElem? hx), hkey y (List.mem_of_getElem? hy)]
  exact h i x y hx hy

/-- **The first element of a heap has the least key.** -/
theorem IsHeap.head_le {key : α → ℤ} {a b : α} {l : List α} (h : IsHeap key (a :: l))
    (hb : b ∈ a :: l) : key a ≤ key b := by
  have hindex : ∀ (i : ℕ) (x : α), (a :: l)[i]? = some x → key a ≤ key x := by
    intro i
    induction i using Nat.strong_induction_on with
    | _ i ih =>
      intro x hx
      cases i with
      | zero =>
        obtain rfl : a = x := Option.some.inj hx
        exact le_rfl
      | succ i =>
        -- the parent comes before the element
        have hlen := (List.getElem?_eq_some_iff.mp hx).1
        have hparent : (a :: l)[i / 2]? = some ((a :: l)[i / 2]) := List.getElem?_eq_getElem (by omega)
        exact le_trans (ih (i / 2) (by omega) _ hparent) (h i x _ hx hparent)
  obtain ⟨i, hi⟩ := List.mem_iff_getElem?.mp hb
  exact hindex i b hi

/-! ## Sorted vectors -/

/-- A sorted vector is a heap. -/
theorem isHeap_of_pairwise {key : α → ℤ} {l : List α}
    (h : l.Pairwise (fun a b => key a ≤ key b)) : IsHeap key l := by
  intro i x y hx hy
  obtain ⟨hi, rfl⟩ := List.getElem?_eq_some_iff.mp hx
  obtain ⟨hj, rfl⟩ := List.getElem?_eq_some_iff.mp hy
  exact List.pairwise_iff_getElem.mp h (i / 2) (i + 1) hj hi (by omega)

/-- Sorting by the key makes a heap. -/
theorem isHeap_insertionSort (key : α → ℤ) (l : List α) :
    IsHeap key (l.insertionSort (fun a b => key a ≤ key b)) := by
  have htotal : Std.Total (fun a b : α => key a ≤ key b) := ⟨fun a b => le_total (key a) (key b)⟩
  have htrans : IsTrans α (fun a b => key a ≤ key b) := ⟨fun a b c => le_trans⟩
  exact isHeap_of_pairwise (List.pairwise_insertionSort _ l)

/-- Heap functions that keep the vector sorted. -/
def HeapFns.sorting (α : Type) : HeapFns α where
  pushHeap key l := l.insertionSort (fun a b => key a ≤ key b)
  popHeap key l :=
    match l with
    | [] => []
    | a :: l => l.insertionSort (fun a b => key a ≤ key b) ++ [a]
  pushHeap_perm _ _ _ _ := List.perm_insertionSort _ _
  pushHeap_isHeap key l a _ := isHeap_insertionSort key (l ++ [a])
  popHeap_eq key l _ _ :=
    ⟨_, rfl, List.perm_insertionSort _ l, isHeap_insertionSort key l⟩

end PriorityQueue
