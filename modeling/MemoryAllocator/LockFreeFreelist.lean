/-
# `LockFreeFreelist.hpp` and `TaggedPointer.hpp`

The lock-free free list, as the interleaving of the atomic steps of any number of
threads: loads of `head_`, stores and loads of `node->next`, and compare-exchanges,
which may fail spuriously.  Owners of popped nodes may overwrite them at any time.

The state carries a record of the run: the owner of every node that is not in the list,
the number of compare-exchanges that succeeded, and the history of completed operations
in the order of their linearization points.  The invariant is that the history can be
replayed on the abstract stack of `StackHistory`, and that the chain from `head_` along
`next` is that stack.

The tag counts the successful compare-exchanges.  A `Pop` may hold a `next` that was
read from a node long since popped and overwritten, but then its tag is behind, and as
long as the tag has not wrapped its compare-exchange fails (`Snapshot`).
-/
import MemoryAllocator.GuardedMachine
import MemoryAllocator.LinkedChain
import MemoryAllocator.StackHistory
import MemoryAllocator.Word64

namespace Memory

/-! ## The program -/

/-- `TaggedPointer`. -/
structure TaggedPointer where
  ptr : ℕ
  tag : ℕ
  deriving DecidableEq, Repr

/-- Where a thread is: outside of any call, or before the next atomic step of one. -/
inductive FreelistCall where
  | idle
  /-- `Push`, before the store of `node->next` -/
  | pushStore (node : ℕ) (oldHead : TaggedPointer)
  /-- `Push`, before the compare-exchange -/
  | pushCas (node : ℕ) (oldHead : TaggedPointer)
  /-- `Pop`, before the load of `oldHead.ptr->next` -/
  | popLoad (oldHead : TaggedPointer)
  /-- `Pop`, before the compare-exchange -/
  | popCas (oldHead : TaggedPointer) (nextNode : ℕ)
  deriving DecidableEq, Repr

/-- The list, the nodes and the threads, with the record of the run. -/
structure LockFreeFreelist where
  head : TaggedPointer
  next : ℕ → ℕ
  call : ℕ → FreelistCall
  owner : ℕ → Option ℕ
  casCount : ℕ
  history : List (StackEvent ℕ)

/-- The steps of the system: a thread begins a call with the load of `head_`, takes the
next atomic step of its call, or overwrites a node that it owns. -/
inductive FreelistOp where
  | push (t node : ℕ)
  | pop (t : ℕ)
  | step (t : ℕ) (spurious : Bool)
  | overwrite (t node v : ℕ)

namespace LockFreeFreelist

variable (s : LockFreeFreelist)

/-- The empty list; every node has an owner. -/
def start (owner next : ℕ → ℕ) : LockFreeFreelist :=
  ⟨⟨0, 0⟩, next, fun _ => .idle, fun node => some (owner node), 0, []⟩

/-- The thread goes on to the given step. -/
def goto (t : ℕ) (c : FreelistCall) : LockFreeFreelist :=
  { s with call := Function.update s.call t c }

/-- The head of the loop of `Pop`, with the value just read from `head_`: return `nullptr`
if the list is empty, else go on to read the next node. -/
def popLoop (t : ℕ) : LockFreeFreelist :=
  if s.head.ptr = 0 then { s.goto t .idle with history := .empty :: s.history }
  else s.goto t (.popLoad s.head)

/-- A successful compare-exchange. -/
def install (t ptr tag : ℕ) : LockFreeFreelist :=
  { s.goto t .idle with head := ⟨ptr, tag⟩, casCount := s.casCount + 1 }

/-- The next atomic step of the call that a thread is in. -/
def advance (t : ℕ) (spurious : Bool) : LockFreeFreelist :=
  match s.call t with
  | .idle => s
  | .pushStore node oldHead =>
    { s.goto t (.pushCas node oldHead) with next := Function.update s.next node oldHead.ptr }
  | .pushCas node oldHead =>
    if s.head = oldHead ∧ spurious = false then
      { s.install t node (Word64.add oldHead.tag 1) with
        owner := Function.update s.owner node none
        history := .push node :: s.history }
    else s.goto t (.pushStore node s.head)
  | .popLoad oldHead => s.goto t (.popCas oldHead (s.next oldHead.ptr))
  | .popCas oldHead nextNode =>
    if s.head = oldHead ∧ spurious = false then
      { s.install t nextNode (Word64.add oldHead.tag 1) with
        owner := Function.update s.owner oldHead.ptr (some t)
        history := .pop oldHead.ptr :: s.history }
    else s.popLoop t

def exec : FreelistOp → LockFreeFreelist
  | .push t node => s.goto t (.pushStore node s.head)
  | .pop t => s.popLoop t
  | .step t spurious => s.advance t spurious
  | .overwrite _ node v => { s with next := Function.update s.next node v }

end LockFreeFreelist

/-- The list under disciplined use: a thread makes one call at a time, pushes only nodes
that it owns, and writes only to nodes that it owns. -/
def freelistMachine : GuardedMachine LockFreeFreelist FreelistOp where
  pre := fun s op => match op with
    | .push t node => s.call t = .idle ∧ s.owner node = some t ∧ node ≠ 0
    | .pop t => s.call t = .idle
    | .step t _ => s.call t ≠ .idle
    | .overwrite t node _ => s.call t = .idle ∧ s.owner node = some t
  exec := fun s op => some (s.exec op)

instance (s : LockFreeFreelist) (op : FreelistOp) : Decidable (freelistMachine.pre s op) :=
  match op with
  | .push t node => inferInstanceAs (Decidable (s.call t = .idle ∧ s.owner node = some t ∧ node ≠ 0))
  | .pop t => inferInstanceAs (Decidable (s.call t = .idle))
  | .step t _ => inferInstanceAs (Decidable (s.call t ≠ .idle))
  | .overwrite t node _ => inferInstanceAs (Decidable (s.call t = .idle ∧ s.owner node = some t))

namespace LockFreeFreelist

/-! ## The invariant -/

variable {s s' : LockFreeFreelist} {l : List ℕ} {t : ℕ}

/-- A value that was read from `head_` at some time: if no compare-exchange has succeeded
since, it is the present value. -/
def Snapshot (s : LockFreeFreelist) (oldHead : TaggedPointer) : Prop :=
  oldHead.tag ≤ s.casCount ∧ (oldHead.tag = s.casCount → oldHead.ptr = s.head.ptr)

/-- What a thread knows in the middle of a call. -/
def CallOk (s : LockFreeFreelist) (t : ℕ) : FreelistCall → Prop
  | .idle => True
  | .pushStore node oldHead => s.owner node = some t ∧ node ≠ 0 ∧ s.Snapshot oldHead
  | .pushCas node oldHead => s.owner node = some t ∧ node ≠ 0 ∧ s.Snapshot oldHead ∧
      s.next node = oldHead.ptr
  | .popLoad oldHead => oldHead.ptr ≠ 0 ∧ s.Snapshot oldHead
  | .popCas oldHead nextNode => oldHead.ptr ≠ 0 ∧ s.Snapshot oldHead ∧
      (oldHead.tag = s.casCount → nextNode = s.next oldHead.ptr)

/-- The history replays to a stack that lies in memory, nodes with an owner are not in
it, and the tag counts the successful compare-exchanges. -/
structure Inv (s : LockFreeFreelist) (l : List ℕ) : Prop where
  cas_lt : s.casCount < 2 ^ 64
  tag_eq : s.head.tag = s.casCount
  replay_eq : StackEvent.replay s.history = some l
  chain : Chain s.next 0 s.head.ptr l
  owned : ∀ p t, s.owner p = some t → p ∉ l
  calls : ∀ t, s.CallOk t (s.call t)

theorem inv_start (owner next : ℕ → ℕ) : Inv (start owner next) [] where
  cas_lt := by norm_num [start]
  tag_eq := rfl
  replay_eq := rfl
  chain := rfl
  owned := by simp
  calls := fun _ => trivial

/-- The present head is a snapshot. -/
theorem Inv.snapshot_head (h : Inv s l) : s.Snapshot s.head := ⟨h.tag_eq.le, fun _ => rfl⟩

/-- A compare-exchange that succeeds had read the present head: the tag has not wrapped. -/
theorem Inv.current (h : Inv s l) {oldHead : TaggedPointer} (heq : s.head = oldHead) :
    oldHead.tag = s.casCount := by
  rw [← heq]
  exact h.tag_eq

theorem callOk_goto (s : LockFreeFreelist) (t t' : ℕ) (c d : FreelistCall) :
    (s.goto t c).CallOk t' d ↔ s.CallOk t' d := by
  cases d <;> exact Iff.rfl

/-- **A step of one thread.**  The invariant holds again if the shared part of the state
is in order, the thread knows what it should, and the knowledge of the others remains. -/
theorem Inv.of_calls {l' : List ℕ} (h : Inv s l) {c : FreelistCall}
    (hcall : s'.call = Function.update s.call t c) (hcas : s'.casCount < 2 ^ 64)
    (htag : s'.head.tag = s'.casCount) (hreplay : StackEvent.replay s'.history = some l')
    (hchain : Chain s'.next 0 s'.head.ptr l') (howned : ∀ p t, s'.owner p = some t → p ∉ l')
    (hself : s'.CallOk t c) (hother : ∀ t', t' ≠ t → ∀ d, s.CallOk t' d → s'.CallOk t' d) :
    Inv s' l' := by
  refine ⟨hcas, htag, hreplay, hchain, howned, fun t' => ?_⟩
  rw [hcall]
  by_cases ht : t' = t
  · subst ht
    rw [Function.update_self]
    exact hself
  · rw [Function.update_of_ne ht]
    exact hother t' ht _ (h.calls t')

/-- A thread that only reads. -/
theorem Inv.goto (h : Inv s l) {c : FreelistCall} (hc : s.CallOk t c) : Inv (s.goto t c) l :=
  h.of_calls rfl h.cas_lt h.tag_eq h.replay_eq h.chain h.owned ((callOk_goto s t t c c).mpr hc)
    (fun t' _ d hd => (callOk_goto s t t' c d).mpr hd)

/-- The loop head of `Pop`. -/
theorem Inv.popLoop (h : Inv s l) : Inv (s.popLoop t) l := by
  rw [LockFreeFreelist.popLoop]
  split_ifs with hnull
  · have hl : l = [] := h.chain.eq_nil_iff.mpr hnull
    have hidle := h.goto (t := t) (c := .idle) trivial
    refine ⟨hidle.cas_lt, hidle.tag_eq, ?_, hidle.chain, hidle.owned, fun t' => ?_⟩
    · rw [StackEvent.replay_empty_iff]
      exact ⟨hl ▸ h.replay_eq, hl⟩
    · have hok := hidle.calls t'
      cases hd : (s.goto t .idle).call t' <;> rw [hd] at hok <;> exact hok
  · exact h.goto ⟨hnull, h.snapshot_head⟩

/-- A write to a node with an owner leaves the list and the knowledge of the other threads
alone. -/
theorem Inv.callOk_write (h : Inv s l) {node : ℕ} (howner : s.owner node = some t) (v : ℕ)
    {t' : ℕ} (ht : t' ≠ t) {d : FreelistCall} (hd : s.CallOk t' d) :
    CallOk { s with next := Function.update s.next node v } t' d := by
  cases d with
  | idle => trivial
  | pushStore node' oldHead => exact hd
  | pushCas node' oldHead =>
    obtain ⟨howner', hne, hsnap, hnext⟩ := hd
    have hnode : node' ≠ node := by
      rintro rfl
      exact ht (Option.some.inj (howner'.symm.trans howner))
    exact ⟨howner', hne, hsnap, (Function.update_of_ne hnode _ _).trans hnext⟩
  | popLoad oldHead => exact hd
  | popCas oldHead nextNode =>
    obtain ⟨hne, hsnap, hnext⟩ := hd
    refine ⟨hne, hsnap, fun htag => ?_⟩
    -- the node is still the first of the list, so it has no owner
    have hnode : oldHead.ptr ≠ node := by
      rintro rfl
      have hhead := hsnap.2 htag
      obtain ⟨rest, hl, -⟩ := h.chain.exists_cons (hhead ▸ hne)
      exact h.owned _ t howner (by rw [hl, ← hhead]; exact List.mem_cons_self ..)
    exact (hnext htag).trans (Function.update_of_ne hnode _ _).symm

theorem Inv.chain_write (h : Inv s l) {node : ℕ} (howner : s.owner node = some t) (v : ℕ) :
    Chain (Function.update s.next node v) 0 s.head.ptr l := by
  refine h.chain.congr (fun p hp => ?_)
  have hne : p ≠ node := by
    rintro rfl
    exact h.owned _ t howner hp
  exact Function.update_of_ne hne _ _

/-- After a successful compare-exchange all values read before are out of date, and what
the other threads own they still own. -/
theorem CallOk.install {owner : ℕ → Option ℕ} {t' : ℕ} {d : FreelistCall} (hd : s.CallOk t' d)
    (howner : ∀ p, s.owner p = some t' → owner p = some t') (ptr tag : ℕ)
    (history : List (StackEvent ℕ)) :
    CallOk { s.install t ptr tag with owner := owner, history := history } t' d := by
  have hsnap : ∀ oldHead, s.Snapshot oldHead →
      Snapshot { s.install t ptr tag with owner := owner, history := history } oldHead := by
    intro oldHead hs
    have hle := hs.1
    exact ⟨Nat.le_succ_of_le hle, fun heq => absurd heq (Nat.lt_succ_of_le hle).ne⟩
  cases d with
  | idle => trivial
  | pushStore node oldHead => exact ⟨howner _ hd.1, hd.2.1, hsnap _ hd.2.2⟩
  | pushCas node oldHead => exact ⟨howner _ hd.1, hd.2.1, hsnap _ hd.2.2.1, hd.2.2.2⟩
  | popLoad oldHead => exact ⟨hd.1, hsnap _ hd.2⟩
  | popCas oldHead nextNode =>
    refine ⟨hd.1, hsnap _ hd.2.1, fun heq => ?_⟩
    exact absurd heq (Nat.lt_succ_of_le hd.2.1.1).ne

/-! ## The two linearization points -/

/-- **A successful compare-exchange of `Push`** prepends its node. -/
theorem Inv.pushCas (h : Inv s l) {node : ℕ} {oldHead : TaggedPointer}
    (hcall : s.call t = .pushCas node oldHead) (heq : s.head = oldHead)
    (hcas : s.casCount + 1 < 2 ^ 64) :
    Inv { s.install t node (Word64.add oldHead.tag 1) with
      owner := Function.update s.owner node none
      history := .push node :: s.history } (node :: l) := by
  have hok := h.calls t
  rw [hcall] at hok
  obtain ⟨howner, hne, -, hnext⟩ := hok
  -- nobody but the owner writes to the node, so it still links to the old head
  have hnot := h.owned node t howner
  have htag := h.current heq
  refine h.of_calls (t := t) (c := .idle) rfl hcas ?_ ?_ ?_ ?_ trivial ?_
  · show Word64.add oldHead.tag 1 = s.casCount + 1
    rw [htag, Word64.add_of_lt hcas]
  · exact StackEvent.replay_push_iff.mpr ⟨l, h.replay_eq, hnot, rfl⟩
  · refine h.chain.push hne ?_ (fun _ _ => rfl)
    show s.next node = s.head.ptr
    rw [heq, hnext]
  · intro p t' hp
    have hp : Function.update s.owner node none p = some t' := hp
    by_cases hpn : p = node
    · subst hpn
      simp at hp
    · rw [Function.update_of_ne hpn] at hp
      exact List.not_mem_cons_of_ne_of_not_mem hpn (h.owned p t' hp)
  · intro t' ht d hd
    refine hd.install (fun p hp => ?_) _ _ _
    have hpn : p ≠ node := by
      rintro rfl
      exact ht (Option.some.inj (hp.symm.trans howner))
    rw [Function.update_of_ne hpn]
    exact hp

/-- **A successful compare-exchange of `Pop`** removes the first node: the `next` that it
installs is still the one behind that node. -/
theorem Inv.popCas (h : Inv s l) {oldHead : TaggedPointer} {nextNode : ℕ}
    (hcall : s.call t = .popCas oldHead nextNode) (heq : s.head = oldHead)
    (hcas : s.casCount + 1 < 2 ^ 64) :
    ∃ l', l = oldHead.ptr :: l' ∧
      Inv { s.install t nextNode (Word64.add oldHead.tag 1) with
        owner := Function.update s.owner oldHead.ptr (some t)
        history := .pop oldHead.ptr :: s.history } l' := by
  have hok := h.calls t
  rw [hcall] at hok
  obtain ⟨hne, -, hnext⟩ := hok
  have htag := h.current heq
  have hchain := h.chain
  rw [heq] at hchain
  obtain ⟨l', rfl, htail⟩ := hchain.exists_cons hne
  have hnodup := List.nodup_cons.mp hchain.nodup
  refine ⟨l', rfl, h.of_calls (t := t) (c := .idle) rfl hcas ?_ ?_ ?_ ?_ trivial ?_⟩
  · show Word64.add oldHead.tag 1 = s.casCount + 1
    rw [htag, Word64.add_of_lt hcas]
  · exact StackEvent.replay_pop_iff.mpr h.replay_eq
  · -- the tag is the present one, so the node has not been popped since its `next` was read
    show Chain s.next 0 nextNode l'
    rw [hnext htag]
    exact htail
  · intro p t' hp
    have hp : Function.update s.owner oldHead.ptr (some t) p = some t' := hp
    by_cases hpo : p = oldHead.ptr
    · rw [hpo]
      exact hnodup.1
    · rw [Function.update_of_ne hpo] at hp
      exact fun hmem => h.owned p t' hp (List.mem_cons_of_mem _ hmem)
  · intro t' ht d hd
    refine hd.install (fun p hp => ?_) _ _ _
    have hpo : p ≠ oldHead.ptr := by
      rintro rfl
      exact h.owned _ t' hp (List.mem_cons_self ..)
    rw [Function.update_of_ne hpo]
    exact hp

/-! ## Steps and runs -/

/-- What a step does to the list, according to the operation that it completes: nothing,
a push, a pop, or the observation that the list is empty. -/
inductive Effect (s s' : LockFreeFreelist) (l l' : List ℕ) : Prop where
  | none (hhistory : s'.history = s.history) (hl : l' = l)
  | push (node : ℕ) (hhistory : s'.history = .push node :: s.history) (hl : l' = node :: l)
  | pop (node : ℕ) (hhistory : s'.history = .pop node :: s.history) (hl : l = node :: l')
  | empty (hhistory : s'.history = .empty :: s.history) (hl : l = []) (hl' : l' = [])

theorem Inv.popLoop_effect (h : Inv s l) : Effect s (s.popLoop t) l l := by
  rw [LockFreeFreelist.popLoop]
  split_ifs with hnull
  · have hl : l = [] := h.chain.eq_nil_iff.mpr hnull
    exact .empty rfl hl hl
  · exact .none rfl rfl

theorem Inv.advance (h : Inv s l) (spurious : Bool)
    (hcas : (s.advance t spurious).casCount < 2 ^ 64) :
    ∃ l', Inv (s.advance t spurious) l' ∧ Effect s (s.advance t spurious) l l' := by
  have hok := h.calls t
  unfold LockFreeFreelist.advance at hcas ⊢
  cases hcall : s.call t with
  | idle => exact ⟨l, h, .none rfl rfl⟩
  | pushStore node oldHead =>
    rw [hcall] at hok
    obtain ⟨howner, hne, hsnap⟩ := hok
    refine ⟨l, h.of_calls (t := t) (c := .pushCas node oldHead) rfl h.cas_lt h.tag_eq h.replay_eq
      (h.chain_write howner _) h.owned ⟨howner, hne, hsnap, Function.update_self ..⟩ ?_, .none rfl rfl⟩
    intro t' ht d hd
    have hwrite := h.callOk_write howner oldHead.ptr ht hd
    cases d <;> exact hwrite
  | pushCas node oldHead =>
    rw [hcall] at hok
    simp only [hcall] at hcas ⊢
    split_ifs at hcas ⊢ with hsuccess
    · exact ⟨node :: l, h.pushCas hcall hsuccess.1 hcas, .push node rfl rfl⟩
    · exact ⟨l, h.goto ⟨hok.1, hok.2.1, h.snapshot_head⟩, .none rfl rfl⟩
  | popLoad oldHead =>
    rw [hcall] at hok
    exact ⟨l, h.goto ⟨hok.1, hok.2, fun _ => rfl⟩, .none rfl rfl⟩
  | popCas oldHead nextNode =>
    simp only [hcall] at hcas ⊢
    split_ifs at hcas ⊢ with hsuccess
    · obtain ⟨l', hl, hinv⟩ := h.popCas hcall hsuccess.1 hcas
      exact ⟨l', hinv, .pop oldHead.ptr rfl hl⟩
    · exact ⟨l, h.popLoop, h.popLoop_effect⟩

/-- **Every step** keeps the invariant and changes the list as its operation should. -/
theorem Inv.exec (h : Inv s l) {op : FreelistOp} (hpre : freelistMachine.pre s op)
    (hcas : (s.exec op).casCount < 2 ^ 64) :
    ∃ l', Inv (s.exec op) l' ∧ Effect s (s.exec op) l l' := by
  cases op with
  | push t node =>
    obtain ⟨-, howner, hne⟩ := hpre
    exact ⟨l, h.goto ⟨howner, hne, h.snapshot_head⟩, .none rfl rfl⟩
  | pop t => exact ⟨l, h.popLoop, h.popLoop_effect⟩
  | step t spurious => exact h.advance spurious hcas
  | overwrite t node v =>
    obtain ⟨hidle, howner⟩ := hpre
    refine ⟨l, h.of_calls (t := t) (c := .idle) ?_ h.cas_lt h.tag_eq h.replay_eq
      (h.chain_write howner v) h.owned trivial (fun t' ht d hd => h.callOk_write howner v ht hd),
      .none rfl rfl⟩
    rw [← hidle, Function.update_eq_self]
    rfl

/-- No step takes a successful compare-exchange back. -/
theorem casCount_le_exec (s : LockFreeFreelist) (op : FreelistOp) :
    s.casCount ≤ (s.exec op).casCount := by
  have hloop : ∀ t, (s.popLoop t).casCount = s.casCount := by
    intro t
    rw [LockFreeFreelist.popLoop]
    split_ifs <;> rfl
  cases op with
  | push t node => exact le_refl _
  | pop t => exact (hloop t).ge
  | step t spurious =>
    show s.casCount ≤ (s.advance t spurious).casCount
    unfold LockFreeFreelist.advance
    split
    · exact le_refl _
    · exact le_refl _
    · split_ifs
      · exact Nat.le_succ _
      · exact le_refl _
    · exact le_refl _
    · split_ifs
      · exact Nat.le_succ _
      · exact (hloop t).ge
  | overwrite t node v => exact le_refl _

/-- Every run in which the tag does not wrap keeps the invariant. -/
theorem inv_of_reaches {owner next : ℕ → ℕ} {ops : List FreelistOp}
    (h : freelistMachine.Reaches (start owner next) ops s) (hcas : s.casCount < 2 ^ 64) :
    ∃ l, Inv s l := by
  refine h.invariant (I := fun u => u.casCount < 2 ^ 64 → ∃ l, Inv u l) ?_
    (fun _ => ⟨[], inv_start owner next⟩) hcas
  intro u op u' hu hpre hexec hcas'
  obtain rfl : u.exec op = u' := Option.some.inj hexec
  obtain ⟨l, hl⟩ := hu ((u.casCount_le_exec op).trans_lt hcas')
  obtain ⟨l', hl', -⟩ := hl.exec hpre hcas'
  exact ⟨l', hl'⟩

end LockFreeFreelist

/-- **The lock-free free list is a linearizable stack without ABA loss.**  In every state
of every interleaving in which fewer than `2 ^ 64` compare-exchanges have succeeded, the
chain from the head is a list of distinct nodes, the one to which the completed
operations replay: exactly the nodes pushed and not popped since.  Between two pops of a
node there is a push of it.  Every further step changes the list as the operation that
it completes should; in particular a `Pop` that returns `nullptr` has met an empty list,
a successful `Push` prepends its node, and a successful `Pop` takes the first one. -/
theorem lockFreeFreelist_linearizable (owner next : ℕ → ℕ) (ops : List FreelistOp)
    (s : LockFreeFreelist) (h : freelistMachine.Reaches (.start owner next) ops s)
    (hcas : s.casCount < 2 ^ 64) :
    ∃ l, Chain s.next 0 s.head.ptr l ∧ l.Nodup ∧ StackEvent.replay s.history = some l ∧
      (∀ p, p ∈ l ↔ StackEvent.last p s.history = some (.push p)) ∧
      (∀ h₁ h₂ h₃ p, s.history = h₁ ++ .pop p :: (h₂ ++ .pop p :: h₃) →
        StackEvent.push p ∈ h₂) ∧
      (∀ op, freelistMachine.pre s op → (s.exec op).casCount < 2 ^ 64 →
        ∃ l', Chain (s.exec op).next 0 (s.exec op).head.ptr l' ∧
          LockFreeFreelist.Effect s (s.exec op) l l') ∧
      (∀ t node, s.call t = .pushCas node s.head → s.casCount + 1 < 2 ^ 64 →
        Chain (s.exec (.step t false)).next 0 (s.exec (.step t false)).head.ptr (node :: l)) ∧
      ∀ t nextNode, s.call t = .popCas s.head nextNode → s.casCount + 1 < 2 ^ 64 →
        ∃ l', l = s.head.ptr :: l' ∧
          Chain (s.exec (.step t false)).next 0 (s.exec (.step t false)).head.ptr l' := by
  obtain ⟨l, hinv⟩ := LockFreeFreelist.inv_of_reaches h hcas
  refine ⟨l, hinv.chain, hinv.chain.nodup, hinv.replay_eq,
    fun p => StackEvent.mem_iff_last hinv.replay_eq, fun h₁ h₂ h₃ p hhistory => ?_,
    fun op hpre hcas' => ?_, fun t node hcall hcas' => ?_, fun t nextNode hcall hcas' => ?_⟩
  · exact StackEvent.push_mem_between_pops (hhistory ▸ hinv.replay_eq)
  · obtain ⟨l', hinv', heffect⟩ := hinv.exec hpre hcas'
    exact ⟨l', hinv'.chain, heffect⟩
  · have hstep : s.exec (.step t false) = { s.install t node (Word64.add s.head.tag 1) with
        owner := Function.update s.owner node none
        history := .push node :: s.history } := by
      simp [LockFreeFreelist.exec, LockFreeFreelist.advance, hcall]
    rw [hstep]
    exact (hinv.pushCas hcall rfl hcas').chain
  · have hstep : s.exec (.step t false) = { s.install t nextNode (Word64.add s.head.tag 1) with
        owner := Function.update s.owner s.head.ptr (some t)
        history := .pop s.head.ptr :: s.history } := by
      simp [LockFreeFreelist.exec, LockFreeFreelist.advance, hcall]
    obtain ⟨l', hl, hinv'⟩ := hinv.popCas hcall rfl hcas'
    rw [hstep]
    exact ⟨l', hl, hinv'.chain⟩

/-- Thread `0` is about to pop node `8`, in front of node `16`, when thread `1` pops both,
overwrites them, and pushes node `8` back: the same head with another tag. -/
def abaRun : List FreelistOp :=
  [.push 1 16, .step 1 false, .step 1 false, .push 1 8, .step 1 false, .step 1 false,
    .pop 0, .step 0 false,
    .pop 1, .step 1 false, .step 1 false, .pop 1, .step 1 false, .step 1 false,
    .overwrite 1 8 99, .push 1 8, .step 1 false, .step 1 false,
    .step 0 false]

/-- The compare-exchange of thread `0` fails, and the list is still right. -/
theorem abaRun_linearizable :
    ∃ s, freelistMachine.Reaches (.start (fun _ => 1) (fun _ => 0)) abaRun s ∧
      s.call 0 = .popLoad ⟨8, 5⟩ ∧
      ∃ l, Chain s.next 0 s.head.ptr l ∧ StackEvent.replay s.history = some l ∧ l = [8] := by
  have heval : (freelistMachine.run (.start (fun _ => 1) (fun _ => 0)) abaRun).map
      (fun s => (s.casCount, s.call 0, s.history)) = some (5, .popLoad ⟨8, 5⟩,
        [.push 8, .pop 16, .pop 8, .push 8, .push 16]) := by decide +kernel
  obtain ⟨s, hrun, hs⟩ := Option.map_eq_some_iff.mp heval
  obtain ⟨hcas, hrest⟩ := Prod.mk.inj hs
  obtain ⟨hcall, hhistory⟩ := Prod.mk.inj hrest
  have hreach : freelistMachine.Reaches (.start (fun _ => 1) (fun _ => 0)) abaRun s :=
    ⟨by decide +kernel, hrun⟩
  obtain ⟨l, hchain, -, hreplay, -⟩ := lockFreeFreelist_linearizable (fun _ => 1) (fun _ => 0)
    abaRun s hreach (by rw [hcas]; norm_num)
  refine ⟨s, hreach, hcall, l, hchain, hreplay, ?_⟩
  rw [hhistory] at hreplay
  have hlist : StackEvent.replay [.push 8, .pop 16, .pop 8, .push 8, .push 16] = some [8] := by
    decide
  exact Option.some.inj (hreplay.symm.trans hlist)

end Memory
