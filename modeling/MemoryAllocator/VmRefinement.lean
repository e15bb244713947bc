/-
# The virtual memory system is a pager

`Refines v s` says that the page tables of `v` put the pages into frames as the pager
`s` does, that the lists of loaded pages and the list of processes follow the page
tables, and that the frame pool and the policy are those of the pager.  The TLB is not
part of it: it has to agree with the page tables (`TLB.Coherent`), and then a TLB hit
does to the rest of the system what a walk would have done (`tlbHit_same_walk`).

A page fault looks through all processes for the owner of the victim's frame.  Since a
frame holds one page, the search finds that page or nothing (`foldl_invalidateIn`), and
a walk is one step of the pager (`Refines.walk`).
-/
import MemoryAllocator.VmSystem

namespace Memlab

/-! ## The TLB and the page tables -/

namespace TLB

variable {t : TLB} {φ φ' : Page → Option ℕ} {pid : ℤ} {vpn frame : ℕ}

/-- Every entry of the TLB is backed by the page tables. -/
def Coherent (t : TLB) (φ : Page → Option ℕ) : Prop := ∀ kv ∈ t.map, φ kv.1 = some kv.2.frame

/-- An entry may be stored for a page with its own frame. -/
theorem Coherent.store (h : t.Coherent φ) {key : Page} {entry : Entry}
    (hkey : φ key = some entry.frame) : (t.store key entry).Coherent φ := by
  intro kv hkv
  obtain ⟨kv', hmem, rfl⟩ := List.mem_map.mp hkv
  split_ifs
  · exact hkey
  · exact h kv' hmem

/-- A hit finds the frame of the page tables. -/
theorem Coherent.lookup_some (h : t.Coherent φ) {t' : TLB}
    (hlookup : t.lookup pid vpn = (some frame, t')) :
    φ (pid, vpn) = some frame ∧ t'.Coherent φ := by
  unfold TLB.lookup at hlookup
  split at hlookup
  · simp at hlookup
  · next key entry hfind =>
    obtain ⟨hframe, rfl⟩ := Prod.mk.inj hlookup
    have hkey : key = (pid, vpn) := by simpa using List.find?_some hfind
    have hφ := h _ (List.mem_of_find?_eq_some hfind)
    rw [hkey] at hφ
    rw [← Option.some.inj hframe]
    exact ⟨hφ, h.store hφ⟩

/-- A miss leaves the TLB. -/
theorem lookup_none {t' : TLB} (hlookup : t.lookup pid vpn = (none, t')) : t' = t := by
  unfold TLB.lookup at hlookup
  split at hlookup
  · exact (Prod.mk.inj hlookup).2.symm
  · simp at hlookup

/-- An eviction keeps entries that were right. -/
theorem Coherent.evict (h : t.Coherent φ) : t.evict.Coherent φ := by
  unfold TLB.evict
  split
  · exact h
  · exact fun kv hkv => h kv (List.mem_of_mem_erase hkv)

/-- A page may be inserted with its own frame. -/
theorem Coherent.insert (h : t.Coherent φ) (hφ : φ (pid, vpn) = some frame) :
    (t.insert pid vpn frame).Coherent φ := by
  unfold TLB.insert
  split_ifs with hmem hfull
  · exact h.store hφ
  · intro kv hkv
    rcases List.mem_append.mp hkv with hkv | hkv
    · exact h.evict kv hkv
    · rw [List.mem_singleton.mp hkv]
      exact hφ
  · intro kv hkv
    rcases List.mem_append.mp hkv with hkv | hkv
    · exact h kv hkv
    · rw [List.mem_singleton.mp hkv]
      exact hφ

/-- An entry that is invalidated may lose its page. -/
theorem Coherent.invalidate (h : t.Coherent φ) (hφ : ∀ pg, pg ≠ (pid, vpn) → φ' pg = φ pg) :
    (t.invalidate pid vpn).Coherent φ' := by
  intro kv hkv
  obtain ⟨hmem, hne⟩ := List.mem_filter.mp hkv
  rw [hφ kv.1 (by simpa using hne)]
  exact h kv hmem

/-- More translations keep the entries right. -/
theorem Coherent.mono (h : t.Coherent φ) (hφ : ∀ pg f, φ pg = some f → φ' pg = some f) :
    t.Coherent φ' :=
  fun kv hkv => hφ _ _ (h kv hkv)

end TLB

namespace VMSystem

variable {σ : Type*} {R : IReplacement σ} {v w : VMSystem σ} {r r' : AccessResult} {frame : ℕ}

/-! ## Pages in frames -/

/-- The frame that the page tables give for a page. -/
def frameOf (v : VMSystem σ) (pg : Page) : Option ℕ :=
  match v.pageTables pg.1 pg.2 with
  | some pte => if pte.present then some pte.frame else none
  | none => none

/-- Only the translation of the page is written. -/
theorem frameOf_setPte (pid : ℤ) (vpn : ℕ) (pte : PTE) (pg : Page) :
    (v.setPte pid vpn pte).frameOf pg
      = if pg = (pid, vpn) then (if pte.present then some pte.frame else none)
        else v.frameOf pg := by
  obtain ⟨pid', vpn'⟩ := pg
  unfold frameOf setPte
  by_cases hpid : pid' = pid
  · subst hpid
    by_cases hvpn : vpn' = vpn
    · subst hvpn
      simp
    · simp [hvpn]
  · simp [hpid]

/-- The bits of an entry other than `present` do not matter. -/
theorem frameOf_setPte_same {pid : ℤ} {vpn : ℕ} {pte : PTE} (hpte : v.pageTables pid vpn = some pte)
    (hpresent : pte.present = true) (dirty : Bool) :
    (v.setPte pid vpn { pte with referenced := true, dirty := dirty }).frameOf = v.frameOf := by
  funext pg
  rw [frameOf_setPte]
  split_ifs with hpg
  · subst hpg
    simp [frameOf, hpte, hpresent]
  · rfl

/-- The search looks for the page in the frame. -/
theorem inFrame_iff (pid : ℤ) (frame vpn : ℕ) :
    v.inFrame pid frame vpn = true ↔ v.frameOf (pid, vpn) = some frame := by
  unfold inFrame frameOf
  cases v.pageTables pid vpn with
  | none => simp
  | some pte => by_cases hpresent : pte.present <;> simp [hpresent]

/-- Every entry has been referenced, since nothing resets that bit. -/
def Referenced (v : VMSystem σ) : Prop :=
  ∀ pid vpn pte, v.pageTables pid vpn = some pte → pte.referenced = true

/-- An entry with the bit set may be stored. -/
theorem Referenced.setPte (h : v.Referenced) {pte : PTE} (hpte : pte.referenced = true) (pid : ℤ)
    (vpn : ℕ) : (v.setPte pid vpn pte).Referenced := by
  intro pid' vpn' pte' hlookup
  unfold VMSystem.setPte at hlookup
  by_cases hpid : pid' = pid
  · subst hpid
    by_cases hvpn : vpn' = vpn
    · subst hvpn
      simp only [Function.update_self, Option.some.injEq] at hlookup
      exact hlookup ▸ hpte
    · simp only [Function.update_self, Function.update_of_ne hvpn] at hlookup
      exact h pid' vpn' pte' hlookup
  · simp only [Function.update_of_ne hpid] at hlookup
    exact h pid' vpn' pte' hlookup

/-! ## The system without its TLB -/

/-- The systems differ in their TLBs only. -/
def SameButTlb (v w : VMSystem σ) : Prop := w = { v with tlb := w.tlb }

theorem SameButTlb.refl (v : VMSystem σ) : SameButTlb v v := rfl

theorem SameButTlb.trans {u : VMSystem σ} (h : SameButTlb v w) (h' : SameButTlb w u) :
    SameButTlb v u := by
  unfold SameButTlb at *
  rw [h', h]

theorem SameButTlb.withTlb (v : VMSystem σ) (t : TLB) : SameButTlb v { v with tlb := t } := rfl

theorem SameButTlb.symm (h : SameButTlb v w) : SameButTlb w v := by
  unfold SameButTlb at *
  rw [h]

theorem SameButTlb.onPolicy (h : SameButTlb v w) (g : σ → σ) :
    SameButTlb { v with policy := g v.policy } { w with policy := g w.policy } := by
  unfold SameButTlb at *
  rw [h]

/-- The results are the same but for the TLB: the same flags of the page fault. -/
def SameFault (r r' : AccessResult) : Prop :=
  r.pageFault = r'.pageFault ∧ r.evicted = r'.evicted ∧ r.dirtyEvict = r'.dirtyEvict

/-- Taking a page out of the victim's frame does not look at the TLB. -/
theorem invalidateIn_same (frame : ℕ) (pid : ℤ) (r : AccessResult) (h : SameButTlb v w) :
    (invalidateIn frame (r, v) pid).1 = (invalidateIn frame (r, w) pid).1 ∧
      SameButTlb (invalidateIn frame (r, v) pid).2 (invalidateIn frame (r, w) pid).2 := by
  rw [h]
  unfold invalidateIn
  dsimp only
  have hin : inFrame { v with tlb := w.tlb } pid frame = inFrame v pid frame := rfl
  rw [hin]
  cases (v.loadedVpns pid).find? (v.inFrame pid frame) with
  | none => exact ⟨rfl, rfl⟩
  | some vpn => exact ⟨rfl, rfl⟩

/-- The search of the victim's frame does not look at the TLB. -/
theorem foldl_invalidateIn_same (frame : ℕ) (pids : List ℤ) (r : AccessResult)
    (h : SameButTlb v w) :
    (pids.foldl (invalidateIn frame) (r, v)).1 = (pids.foldl (invalidateIn frame) (r, w)).1 ∧
      SameButTlb (pids.foldl (invalidateIn frame) (r, v)).2
        (pids.foldl (invalidateIn frame) (r, w)).2 := by
  induction pids generalizing r v w with
  | nil => exact ⟨rfl, h⟩
  | cons pid pids ih =>
    rw [List.foldl_cons, List.foldl_cons]
    obtain ⟨hr, hsame⟩ := invalidateIn_same frame pid r h
    have hnext := ih (invalidateIn frame (r, v) pid).1 hsame
    have hpair : invalidateIn frame (r, w) pid
        = ((invalidateIn frame (r, v) pid).1, (invalidateIn frame (r, w) pid).2) := by
      rw [hr]
    rw [hpair]
    exact hnext

/-- The outcomes of two calls are the same but for the TLB. -/
def SameOutcome : Option (AccessResult × VMSystem σ) → Option (AccessResult × VMSystem σ) → Prop
  | none, none => True
  | some (r, v), some (r', w) => SameFault r r' ∧ SameButTlb v w
  | _, _ => False

/-- Loading a page does not look at the TLB. -/
theorem loadPage_same (op : Access) (frame : ℕ) (r : AccessResult) (h : SameButTlb v w) :
    SameOutcome (some (loadPage R v op frame r)) (some (loadPage R w op frame r)) := by
  rw [h]
  exact ⟨⟨rfl, rfl, rfl⟩, rfl⟩

/-- A page fault does not look at the TLB. -/
theorem fault_same (op : Access) (r : AccessResult) (h : SameButTlb v w) :
    SameOutcome (fault R v op r) (fault R w op r) := by
  rw [h]
  unfold fault
  dsimp only
  cases halloc : v.frameAlloc.alloc with
  | some fa => exact loadPage_same op _ _ rfl
  | none =>
    cases hvictim : R.victim v.policy with
    | none => trivial
    | some fp =>
      obtain ⟨frame, policy⟩ := fp
      dsimp only
      obtain ⟨hr, hsame⟩ := foldl_invalidateIn_same frame v.pids
        { r with pageFault := true, evicted := true }
        (v := { v with faults := v.faults + 1, policy := policy })
        (w := { v with faults := v.faults + 1, policy := policy, tlb := w.tlb }) rfl
      rw [← hr]
      exact loadPage_same op frame _ (hsame.onPolicy (R.onEvict frame))

/-- A walk that finds the page. -/
theorem walk_of_frame {op : Access} (h : v.frameOf op.page = some frame) :
    ∃ pte, v.pageTables op.pid op.vpn = some pte ∧ pte.present = true ∧ pte.frame = frame ∧
      walk R v op = some ({ costNs := v.costs.tlbNs + v.costs.memNs },
        { (v.touch op.pid).setPte op.pid op.vpn
            { pte with referenced := true, dirty := pte.dirty || op.isWrite } with
          tlb := v.tlb.insert op.pid op.vpn frame
          policy := R.onAccess frame v.policy
          hits := v.hits + 1 }) := by
  unfold frameOf Access.page at h
  dsimp only at h
  cases hpte : v.pageTables op.pid op.vpn with
  | none => simp [hpte] at h
  | some pte =>
    have hpresent : pte.present = true := by
      by_contra hcon
      simp [hpte, hcon] at h
    have hframe : pte.frame = frame := by simpa [hpte, hpresent] using h
    refine ⟨pte, rfl, hpresent, hframe, ?_⟩
    have hlookup : (v.touch op.pid).pageTables op.pid op.vpn = some pte := hpte
    rw [walk]
    dsimp only
    rw [hlookup]
    dsimp only
    rw [if_pos hpresent, hframe]
    rfl

/-- A walk that does not find the page. -/
theorem walk_of_none {op : Access} (h : v.frameOf op.page = none) :
    walk R v op = fault R (v.touch op.pid) op { costNs := v.costs.tlbNs } := by
  unfold frameOf Access.page at h
  dsimp only at h
  rw [walk]
  dsimp only
  cases hpte : v.pageTables op.pid op.vpn with
  | none =>
    have hlookup : (v.touch op.pid).pageTables op.pid op.vpn = none := hpte
    rw [hlookup]
  | some pte =>
    have hlookup : (v.touch op.pid).pageTables op.pid op.vpn = some pte := hpte
    have habsent : ¬ pte.present = true := by
      intro hpresent
      simp [hpte, hpresent] at h
    rw [hlookup]
    dsimp only
    rw [if_neg habsent]

/-- A walk does not look at the TLB. -/
theorem walk_same (op : Access) (h : SameButTlb v w) :
    SameOutcome (walk R v op) (walk R w op) := by
  have hframe : w.frameOf = v.frameOf := by
    rw [h]
    rfl
  cases hpage : v.frameOf op.page with
  | none =>
    rw [walk_of_none hpage, walk_of_none (by rw [hframe]; exact hpage), h]
    exact fault_same op _ rfl
  | some frame =>
    obtain ⟨pte, hpte, -, -, hwalk⟩ := walk_of_frame (R := R) hpage
    obtain ⟨pte', hpte', -, -, hwalk'⟩ := walk_of_frame (R := R) (v := w) (by rw [hframe]; exact hpage)
    obtain rfl : pte = pte' := by
      rw [h] at hpte'
      exact Option.some.inj (hpte.symm.trans hpte')
    rw [hwalk, hwalk', h]
    exact ⟨⟨rfl, rfl, rfl⟩, rfl⟩

/-! ## The refinement -/

/-- The system `v` keeps its pages in frames as the pager `s` does. -/
structure Refines (v : VMSystem σ) (s : Paging.Pager Page σ) : Prop where
  valid : s.Valid
  policy_eq : s.policy = v.policy
  free_eq : s.free = v.frameAlloc.free
  frame_iff : ∀ pg f, v.frameOf pg = some f ↔ s.slots f = some pg
  mem_loaded : ∀ pg : Page, pg.2 ∈ v.loadedVpns pg.1 ↔ ∃ f, v.frameOf pg = some f
  nodup_loaded : ∀ pid, (v.loadedVpns pid).Nodup
  mem_pids : ∀ pg f, v.frameOf pg = some f → pg.1 ∈ v.pids
  nodup_pids : v.pids.Nodup
  referenced : v.Referenced

variable {s t : Paging.Pager Page σ} {op : Access}

/-- A page is in memory if it has a frame. -/
theorem Refines.holds_iff (h : Refines v s) (pg : Page) :
    s.Holds pg ↔ ∃ f, v.frameOf pg = some f := by
  simp only [Paging.Pager.Holds, h.frame_iff]

/-- The refinement does not mention the TLB and the counters. -/
theorem Refines.congr (h : Refines v s) (hpolicy : w.policy = v.policy)
    (hfree : w.frameAlloc = v.frameAlloc) (hpids : w.pids = v.pids)
    (htables : w.pageTables = v.pageTables) (hloaded : w.loadedVpns = v.loadedVpns) :
    Refines w s := by
  have hframe : w.frameOf = v.frameOf := by
    funext pg
    rw [frameOf, htables, frameOf]
  refine ⟨h.valid, hpolicy ▸ h.policy_eq, hfree ▸ h.free_eq, ?_, ?_, hloaded ▸ h.nodup_loaded, ?_,
    hpids ▸ h.nodup_pids, fun pid vpn pte => htables ▸ h.referenced pid vpn pte⟩
  · rw [hframe]
    exact h.frame_iff
  · rw [hframe, hloaded]
    exact h.mem_loaded
  · rw [hframe, hpids]
    exact h.mem_pids

/-- The policy may change on both sides. -/
theorem Refines.withPolicy (h : Refines v s) (π : σ) :
    Refines { v with policy := π } { s with policy := π } :=
  ⟨⟨h.valid.inj, h.valid.free_nodup, h.valid.free_empty⟩, rfl, h.free_eq, h.frame_iff, h.mem_loaded,
    h.nodup_loaded, h.mem_pids, h.nodup_pids, h.referenced⟩

/-- An empty page table holds nothing. -/
theorem Refines.touch (h : Refines v s) (pid : ℤ) : Refines (v.touch pid) s := by
  refine ⟨h.valid, h.policy_eq, h.free_eq, h.frame_iff, h.mem_loaded, h.nodup_loaded, ?_, ?_,
    h.referenced⟩
  · intro pg f hpg
    have hmem := h.mem_pids pg f hpg
    unfold VMSystem.touch
    dsimp only
    split_ifs
    · exact hmem
    · exact List.mem_append_left _ hmem
  · unfold VMSystem.touch
    dsimp only
    split_ifs with hpid
    · exact h.nodup_pids
    · rw [(List.perm_append_singleton pid v.pids).nodup_iff]
      exact List.nodup_cons.mpr ⟨hpid, h.nodup_pids⟩

/-- A page table hit. -/
theorem Refines.hit (h : Refines v s) {pte : PTE} (hpte : v.pageTables op.pid op.vpn = some pte)
    (hpresent : pte.present = true) {dirty : Bool} :
    Refines { v.setPte op.pid op.vpn { pte with referenced := true, dirty := dirty } with
      policy := R.onAccess pte.frame v.policy } { s with policy := R.onAccess pte.frame s.policy } := by
  have hframe := frameOf_setPte_same hpte hpresent dirty
  refine ⟨⟨h.valid.inj, h.valid.free_nodup, h.valid.free_empty⟩, by rw [h.policy_eq], h.free_eq,
    ?_, ?_, h.nodup_loaded, ?_, h.nodup_pids, ?_⟩
  · show ∀ pg f, (v.setPte _ _ _).frameOf pg = some f ↔ _
    rw [hframe]
    exact h.frame_iff
  · show ∀ pg : Page, _ ↔ ∃ f, (v.setPte _ _ _).frameOf pg = some f
    rw [hframe]
    exact h.mem_loaded
  · show ∀ pg f, (v.setPte _ _ _).frameOf pg = some f → _
    rw [hframe]
    exact h.mem_pids
  · exact h.referenced.setPte rfl op.pid op.vpn

/-- **A TLB hit** does to the rest of the system what a walk would have done: the bits that
the walk would set are set already. -/
theorem Refines.tlbHit_same_walk (h : Refines v s) (hpage : v.frameOf op.page = some frame)
    (t : TLB) : SameOutcome (some (tlbHit R { v with tlb := t } op frame)) (walk R v op) := by
  obtain ⟨pte, hpte, -, -, hwalk⟩ := walk_of_frame (R := R) hpage
  have hpid : op.pid ∈ v.pids := h.mem_pids op.page frame hpage
  have htouch : ∀ t, VMSystem.touch { v with tlb := t } op.pid = { v with tlb := t } := by
    intro t
    unfold VMSystem.touch
    rw [if_pos hpid]
  have hreferenced := h.referenced op.pid op.vpn pte hpte
  rw [hwalk]
  have htouch' : v.touch op.pid = v := htouch v.tlb
  rw [htouch']
  unfold tlbHit
  dsimp only
  by_cases hwrite : op.isWrite = true
  · rw [if_pos hwrite, htouch, hwrite, Bool.or_true]
    dsimp only
    rw [hpte]
    obtain ⟨f, present, dirty, referenced⟩ := pte
    obtain rfl : referenced = true := hreferenced
    exact ⟨⟨rfl, rfl, rfl⟩, rfl⟩
  · have hread : op.isWrite = false := by simpa using hwrite
    rw [if_neg hwrite, hread, Bool.or_false]
    have hsame : v.setPte op.pid op.vpn { pte with referenced := true, dirty := pte.dirty } = v := by
      obtain ⟨f, present, dirty, referenced⟩ := pte
      obtain rfl : referenced = true := hreferenced
      unfold VMSystem.setPte
      rw [← hpte, Function.update_eq_self, Function.update_eq_self]
    rw [hsame]
    exact ⟨⟨rfl, rfl, rfl⟩, rfl⟩

/-! ## The search for the owner of a frame -/

/-- A process without a page in the frame is passed over. -/
theorem Refines.invalidateIn_other (h : Refines v s) {pid : ℤ}
    (hother : ∀ vpn, s.slots frame ≠ some (pid, vpn)) : invalidateIn frame (r, v) pid = (r, v) := by
  have hnone : (v.loadedVpns pid).find? (v.inFrame pid frame) = none := by
    rw [List.find?_eq_none]
    intro vpn _ hin
    exact hother vpn ((h.frame_iff _ _).mp ((inFrame_iff _ _ _).mp hin))
  unfold invalidateIn
  dsimp only
  rw [hnone]

/-- The tables of the other processes have nothing in the frame. -/
theorem Refines.foldl_invalidateIn_other (h : Refines v s) {pids : List ℤ}
    (hother : ∀ pid ∈ pids, ∀ vpn, s.slots frame ≠ some (pid, vpn)) :
    pids.foldl (invalidateIn frame) (r, v) = (r, v) := by
  induction pids with
  | nil => rfl
  | cons pid pids ih =>
    rw [List.foldl_cons, h.invalidateIn_other (hother pid (List.mem_cons_self ..))]
    exact ih (fun pid' hmem => hother pid' (List.mem_cons_of_mem _ hmem))

/-- The pager without the page of a frame. -/
def without (s : Paging.Pager Page σ) (frame : ℕ) : Paging.Pager Page σ :=
  { s with slots := Function.update s.slots frame none }

/-- A slot that is emptied leaves no page twice. -/
theorem valid_without (h : s.Valid) (frame : ℕ) : (without s frame).Valid := by
  have hold : ∀ f q, (without s frame).slots f = some q → s.slots f = some q := by
    intro f q hf
    by_cases hff : f = frame
    · simp [without, hff] at hf
    · simpa [without, hff] using hf
  refine ⟨fun f g q hf hg => h.inj f g q (hold f q hf) (hold g q hg), h.free_nodup,
    fun f hf => ?_⟩
  by_cases hff : f = frame
  · simp [without, hff]
  · simpa [without, hff] using h.free_empty f hf

/-- What the search leaves of a result, and of the rest of the system. -/
structure Found (v w : VMSystem σ) (r r' : AccessResult) : Prop where
  pageFault_eq : r'.pageFault = r.pageFault
  evicted_eq : r'.evicted = r.evicted
  faults_eq : w.faults = v.faults
  hits_eq : w.hits = v.hits
  pids_eq : w.pids = v.pids
  coherent : v.tlb.Coherent v.frameOf → w.tlb.Coherent w.frameOf

/-- The page in the frame is found, and it leaves the page table, the TLB and the list of
loaded pages. -/
theorem Refines.invalidateIn_eq (h : Refines v s) {pid : ℤ} {vpn : ℕ}
    (hslot : s.slots frame = some (pid, vpn)) :
    ∃ pte, v.pageTables pid vpn = some pte ∧
      VMSystem.invalidateIn frame (r, v) pid =
        (if pte.dirty then
            { r with dirtyEvict := true, costNs := r.costNs + v.costs.diskNs } else r,
          { v.setPte pid vpn { pte with present := false } with
            tlb := v.tlb.invalidate pid vpn
            loadedVpns :=
              Function.update v.loadedVpns pid ((v.loadedVpns pid).erase vpn) }) := by
  have hpage : v.frameOf (pid, vpn) = some frame := (h.frame_iff _ _).mpr hslot
  have hloaded : vpn ∈ v.loadedVpns pid := (h.mem_loaded (pid, vpn)).mpr ⟨frame, hpage⟩
  have hfind : (v.loadedVpns pid).find? (v.inFrame pid frame) = some vpn := by
    cases hcase : (v.loadedVpns pid).find? (v.inFrame pid frame) with
    | none =>
      have hnot := List.find?_eq_none.mp hcase vpn hloaded
      exact absurd ((inFrame_iff _ _ _).mpr hpage) hnot
    | some vpn' =>
      have hin := (inFrame_iff _ _ _).mp (List.find?_some hcase)
      rw [h.frame_iff, hslot, Option.some.injEq] at hin
      rw [(Prod.mk.inj hin).2]
  cases hpte : v.pageTables pid vpn with
  | none => simp [frameOf, hpte] at hpage
  | some pte =>
    refine ⟨pte, rfl, ?_⟩
    unfold VMSystem.invalidateIn
    dsimp only
    rw [hfind]
    dsimp only
    rw [hpte, Option.getD_some]
    rfl

/-- The owner of the frame loses its page. -/
theorem Refines.invalidateIn (h : Refines v s) {pid : ℤ} {vpn : ℕ}
    (hslot : s.slots frame = some (pid, vpn)) :
    Refines (invalidateIn frame (r, v) pid).2 (without s frame) ∧
      Found v (invalidateIn frame (r, v) pid).2 r (invalidateIn frame (r, v) pid).1 := by
  have hpage : v.frameOf (pid, vpn) = some frame := (h.frame_iff _ _).mpr hslot
  have hunique : ∀ pg, v.frameOf pg = some frame ↔ pg = (pid, vpn) := by
    intro pg
    rw [h.frame_iff, hslot]
    exact ⟨fun heq => (Option.some.inj heq).symm, fun heq => by rw [heq]⟩
  obtain ⟨pte, hpte, hrv⟩ := h.invalidateIn_eq (r := r) hslot
  obtain ⟨rv, hdef⟩ : ∃ rv, rv = VMSystem.invalidateIn frame (r, v) pid := ⟨_, rfl⟩
  rw [← hdef] at hrv ⊢
  have hframe : rv.2.frameOf = fun pg => if pg = (pid, vpn) then none else v.frameOf pg := by
    funext pg
    rw [hrv]
    show (v.setPte pid vpn _).frameOf pg = _
    rw [frameOf_setPte]
    rfl
  have hloaded' : rv.2.loadedVpns
      = Function.update v.loadedVpns pid ((v.loadedVpns pid).erase vpn) := by
    rw [hrv]
  have hgone : ∀ pg f, rv.2.frameOf pg = some f ↔ v.frameOf pg = some f ∧ f ≠ frame := by
    intro pg f
    rw [hframe]
    dsimp only
    split_ifs with hpg
    · rw [hpg, hpage, Option.some.injEq]
      refine iff_of_false (by simp) (fun hcon => hcon.2 hcon.1.symm)
    · have hne : v.frameOf pg ≠ some frame := fun heq => hpg ((hunique pg).mp heq)
      exact ⟨fun heq => ⟨heq, fun hf => hne (hf ▸ heq)⟩, fun heq => heq.1⟩
  refine ⟨⟨valid_without h.valid frame, ?_, ?_, ?_, ?_, ?_, ?_, ?_, ?_⟩, ⟨?_, ?_, ?_, ?_, ?_, ?_⟩⟩
  · rw [hrv]
    exact h.policy_eq
  · rw [hrv]
    exact h.free_eq
  · intro pg f
    rw [hgone, h.frame_iff]
    by_cases hff : f = frame
    · simp [without, hff]
    · simp [without, hff]
  · intro pg
    rw [hloaded', hframe]
    obtain ⟨pid', vpn'⟩ := pg
    by_cases hpid : pid' = pid
    · subst hpid
      rw [Function.update_self, (h.nodup_loaded pid').mem_erase_iff]
      by_cases hvpn : vpn' = vpn
      · simp [hvpn]
      · simpa [hvpn] using h.mem_loaded (pid', vpn')
    · simpa [hpid] using h.mem_loaded (pid', vpn')
  · intro pid'
    rw [hloaded']
    by_cases hpid : pid' = pid
    · subst hpid
      rw [Function.update_self]
      exact (h.nodup_loaded pid').erase vpn
    · rw [Function.update_of_ne hpid]
      exact h.nodup_loaded pid'
  · intro pg f hpg
    rw [hrv]
    exact h.mem_pids pg f ((hgone pg f).mp hpg).1
  · rw [hrv]
    exact h.nodup_pids
  · have hpte' : ({ pte with present := false } : PTE).referenced = true :=
      h.referenced pid vpn pte hpte
    have hset := h.referenced.setPte hpte' pid vpn
    rw [hrv]
    exact hset
  · rw [hrv]
    split_ifs <;> rfl
  · rw [hrv]
    split_ifs <;> rfl
  · rw [hrv]
    rfl
  · rw [hrv]
    rfl
  · rw [hrv]
    rfl
  · intro hcoherent
    have htlb : rv.2.tlb = v.tlb.invalidate pid vpn := by
      rw [hrv]
    rw [htlb]
    refine hcoherent.invalidate (fun pg hpg => ?_)
    rw [hframe]
    exact if_neg hpg

/-- The processes before and after the owner of the frame are passed over. -/
theorem Refines.foldl_invalidateIn_owner (h : Refines v s) {pid : ℤ} {vpn : ℕ}
    (hslot : s.slots frame = some (pid, vpn)) :
    v.pids.foldl (VMSystem.invalidateIn frame) (r, v) = VMSystem.invalidateIn frame (r, v) pid := by
  have hmem := h.mem_pids (pid, vpn) frame ((h.frame_iff _ _).mpr hslot)
  obtain ⟨before, after, hpids⟩ := List.append_of_mem hmem
  have hnodup := h.nodup_pids
  rw [hpids, List.perm_middle.nodup_iff, List.nodup_cons] at hnodup
  have hbefore : ∀ p ∈ before, ∀ vpn', s.slots frame ≠ some (p, vpn') := by
    intro p hp vpn' heq
    rw [hslot, Option.some.injEq, Prod.mk.injEq] at heq
    exact hnodup.1 (List.mem_append_left _ (heq.1 ▸ hp))
  obtain ⟨href, -⟩ := h.invalidateIn (r := r) hslot
  rw [hpids, List.foldl_append, h.foldl_invalidateIn_other hbefore, List.foldl_cons]
  exact href.foldl_invalidateIn_other (fun p _ vpn' => by simp [without])

/-- **The search** takes the page in the frame out of the system, if there is one. -/
theorem Refines.foldl_invalidateIn (h : Refines v s) (frame : ℕ) (r : AccessResult) :
    Refines (v.pids.foldl (VMSystem.invalidateIn frame) (r, v)).2 (without s frame) ∧
      Found v (v.pids.foldl (VMSystem.invalidateIn frame) (r, v)).2 r
        (v.pids.foldl (VMSystem.invalidateIn frame) (r, v)).1 := by
  cases hslot : s.slots frame with
  | none =>
    have hsame : without s frame = s := by
      unfold without
      rw [← hslot, Function.update_eq_self]
    rw [h.foldl_invalidateIn_other (by simp [hslot]), hsame]
    exact ⟨h, rfl, rfl, rfl, rfl, rfl, id⟩
  | some pg =>
    rw [h.foldl_invalidateIn_owner hslot]
    exact h.invalidateIn hslot

/-! ## Loading a page -/

/-- The pager after the page has been put into an empty frame. -/
def loaded (R : IReplacement σ) (s : Paging.Pager Page σ) (frame : ℕ) (pg : Page) :
    Paging.Pager Page σ :=
  { s with
    slots := Function.update s.slots frame (some pg)
    policy := R.onLoad frame s.policy }

/-- **Loading** a page that is in no frame into an empty frame that is not in the pool. -/
theorem Refines.loadPage (h : Refines v s) (op : Access) (frame : ℕ)
    (hpage : v.frameOf op.page = none)
    (hslot : s.slots frame = none) (hfree : frame ∉ s.free) (hpid : op.pid ∈ v.pids) :
    Refines (loadPage R v op frame r).2 (loaded R s frame op.page) ∧
      (v.tlb.Coherent v.frameOf →
        (loadPage R v op frame r).2.tlb.Coherent (loadPage R v op frame r).2.frameOf) := by
  have hframe : (VMSystem.loadPage R v op frame r).2.frameOf
      = fun pg => if pg = op.page then some frame else v.frameOf pg := by
    funext pg
    show (v.setPte op.pid op.vpn _).frameOf pg = _
    rw [frameOf_setPte]
    rfl
  have hloaded : (VMSystem.loadPage R v op frame r).2.loadedVpns
      = Function.update v.loadedVpns op.pid (v.loadedVpns op.pid ++ [op.vpn]) := rfl
  have hnot : ¬ s.Holds op.page := by
    rw [h.holds_iff, hpage]
    simp
  have hvpn : op.vpn ∉ v.loadedVpns op.pid := by
    intro hmem
    obtain ⟨f, hf⟩ := (h.mem_loaded op.page).mp hmem
    rw [hpage] at hf
    simp at hf
  refine ⟨⟨?_, ?_, h.free_eq, ?_, ?_, ?_, ?_, h.nodup_pids, ?_⟩, ?_⟩
  · refine ⟨h.valid.inj_update hnot frame, h.valid.free_nodup, fun f hf => ?_⟩
    have hff : f ≠ frame := fun heq => hfree (heq ▸ hf)
    show Function.update s.slots frame (some op.page) f = none
    rw [Function.update_of_ne hff]
    exact h.valid.free_empty f hf
  · show R.onLoad frame s.policy = R.onLoad frame v.policy
    rw [h.policy_eq]
  · intro pg f
    rw [hframe]
    show (if pg = op.page then some frame else v.frameOf pg) = some f ↔
      Function.update s.slots frame (some op.page) f = some pg
    by_cases hff : f = frame
    · subst hff
      rw [Function.update_self, Option.some.injEq]
      split_ifs with hpg
      · exact ⟨fun _ => hpg.symm, fun _ => rfl⟩
      · rw [h.frame_iff, hslot]
        exact iff_of_false (by simp) (fun heq => hpg heq.symm)
    · rw [Function.update_of_ne hff]
      split_ifs with hpg
      · subst hpg
        refine iff_of_false (fun heq => hff (Option.some.inj heq).symm) (fun heq => ?_)
        exact hnot ⟨f, heq⟩
      · exact h.frame_iff pg f
  · intro pg
    rw [hframe, hloaded]
    obtain ⟨pid, vpn⟩ := pg
    have hold := h.mem_loaded (pid, vpn)
    by_cases hp : pid = op.pid
    · subst hp
      rw [Function.update_self, List.mem_append, List.mem_singleton]
      by_cases hv : vpn = op.vpn
      · subst hv
        simp [Access.page]
      · have hne : ((op.pid, vpn) : Page) ≠ op.page := fun heq => hv (Prod.mk.inj heq).2
        simpa [hne, hv] using hold
    · have hne : ((pid, vpn) : Page) ≠ op.page := fun heq => hp (Prod.mk.inj heq).1
      simpa [hne, hp] using hold
  · intro pid
    rw [hloaded]
    by_cases hp : pid = op.pid
    · subst hp
      rw [Function.update_self, (List.perm_append_singleton _ _).nodup_iff]
      exact List.nodup_cons.mpr ⟨hvpn, h.nodup_loaded op.pid⟩
    · rw [Function.update_of_ne hp]
      exact h.nodup_loaded pid
  · intro pg f hpg
    rw [hframe] at hpg
    dsimp only at hpg
    split_ifs at hpg with heq
    · rw [heq]
      exact hpid
    · exact h.mem_pids pg f hpg
  · exact h.referenced.setPte rfl op.pid op.vpn
  · intro hcoherent
    have htlb : (VMSystem.loadPage R v op frame r).2.tlb
        = v.tlb.insert op.pid op.vpn frame := rfl
    rw [htlb, hframe]
    refine TLB.Coherent.insert (hcoherent.mono ?_) (if_pos rfl)
    intro pg f hpg
    rw [if_neg, hpg]
    rintro rfl
    rw [hpage] at hpg
    simp at hpg

/-! ## One call -/

/-- What a call reports and counts, for the outcome of the pager's step. -/
structure Reports (v w : VMSystem σ) (r : AccessResult) (o : Paging.Outcome Page) : Prop where
  pageFault_eq : r.pageFault = o.isFault
  evicted_eq : r.evicted = o.isReplace
  faults_eq : w.faults = v.faults + if o.isFault then 1 else 0
  hits_eq : w.hits = v.hits + if o.isFault then 0 else 1

/-- **A page fault** is a step of the pager, and it returns if the policy has a victim. -/
theorem Refines.fault (h : Refines v s) (hpage : v.frameOf op.page = none) (hpid : op.pid ∈ v.pids)
    {r : AccessResult} (hr : r.evicted = false) :
    (s.free = [] ∧ R.victim s.policy = none ∧ fault R v op r = none) ∨
    ∃ o t r' w, fault R v op r = some (r', w) ∧ Paging.Step R.toPolicy s op.page o t ∧
      Refines w t ∧ Reports v w r' o ∧ (v.tlb.Coherent v.frameOf → w.tlb.Coherent w.frameOf) := by
  have hnot : ¬ s.Holds op.page := by
    rw [h.holds_iff, hpage]
    simp
  unfold VMSystem.fault
  dsimp only
  match hfree : s.free with
  | f :: free =>
    have halloc : v.frameAlloc.alloc = some (f, { v.frameAlloc with free := free }) := by
      rw [FrameAllocator.alloc, ← h.free_eq, hfree]
    have hnodup := h.valid.free_nodup
    rw [hfree, List.nodup_cons] at hnodup
    have hslot := h.valid.free_empty f (by rw [hfree]; exact List.mem_cons_self ..)
    have hpopped : Refines { v with
        faults := v.faults + 1, frameAlloc := { v.frameAlloc with free := free } }
        { s with free := free } := by
      refine ⟨⟨h.valid.inj, hnodup.2, fun g hg => h.valid.free_empty g ?_⟩, h.policy_eq, rfl,
        h.frame_iff, h.mem_loaded, h.nodup_loaded, h.mem_pids, h.nodup_pids, h.referenced⟩
      rw [hfree]
      exact List.mem_cons_of_mem _ hg
    obtain ⟨href, hcoherent⟩ := hpopped.loadPage (R := R) op f
      (r := { r with pageFault := true }) hpage hslot hnodup.1 hpid
    refine .inr ⟨.load f, _, _, _, by rw [halloc], .load hnot hfree, href, ?_, hcoherent⟩
    exact ⟨rfl, hr, rfl, rfl⟩
  | [] =>
    have halloc : v.frameAlloc.alloc = none := by
      rw [FrameAllocator.alloc, ← h.free_eq, hfree]
    rw [halloc, h.policy_eq]
    cases hvictim : R.victim v.policy with
    | none => exact .inl ⟨rfl, rfl, rfl⟩
    | some fp =>
      obtain ⟨f, π⟩ := fp
      -- the victim's page leaves, the policy hears of it, and the page is loaded
      have hstart : Refines { v with faults := v.faults + 1, policy := π } { s with policy := π } :=
        (h.withPolicy π).congr rfl rfl rfl rfl rfl
      obtain ⟨href, hfound⟩ := hstart.foldl_invalidateIn f { r with pageFault := true, evicted := true }
      obtain ⟨rv, hrv⟩ : ∃ rv, rv = v.pids.foldl (VMSystem.invalidateIn f)
          ({ r with pageFault := true, evicted := true },
            { v with faults := v.faults + 1, policy := π }) := ⟨_, rfl⟩
      dsimp only at href hfound ⊢
      rw [← hrv] at href hfound ⊢
      have hpolicy : rv.2.policy = π := href.policy_eq.symm
      have hevicted := href.withPolicy (R.onEvict f rv.2.policy)
      have hgone : rv.2.frameOf op.page = none := by
        cases hcase : rv.2.frameOf op.page with
        | none => rfl
        | some g =>
          have hslot := (href.frame_iff _ _).mp hcase
          by_cases hgf : g = f
          · simp [without, hgf] at hslot
          · have hheld : s.slots g = some op.page := by simpa [without, hgf] using hslot
            exact absurd ⟨g, hheld⟩ hnot
      obtain ⟨hloaded, hcoherent⟩ := hevicted.loadPage (R := R) op f (r := rv.1)
        hgone (by simp [without]) (by simp [without, hfree]) (by rw [hfound.pids_eq]; exact hpid)
      have hslots : Function.update (Function.update s.slots f none) f (some op.page)
          = Function.update s.slots f (some op.page) := Function.update_idem _ _ _
      refine .inr ⟨.replace f (s.slots f), _, _, _, rfl, .replace hnot hfree (by rw [h.policy_eq, hvictim]),
        ?_, ⟨hfound.pageFault_eq, hfound.evicted_eq, hfound.faults_eq, hfound.hits_eq⟩, ?_⟩
      · rw [hpolicy] at hloaded ⊢
        unfold loaded without at hloaded
        dsimp only at hloaded
        rw [hslots, hfree] at hloaded
        exact hloaded
      · intro hold
        exact hcoherent (hfound.coherent hold)

/-- **A walk** is a step of the pager, and it returns if the policy has a victim. -/
theorem Refines.walk (h : Refines v s) (op : Access) :
    (s.free = [] ∧ R.victim s.policy = none ∧ walk R v op = none) ∨
    ∃ o t r w, walk R v op = some (r, w) ∧ Paging.Step R.toPolicy s op.page o t ∧ Refines w t ∧
      Reports v w r o ∧ (v.tlb.Coherent v.frameOf → w.tlb.Coherent w.frameOf) := by
  cases hpage : v.frameOf op.page with
  | some f =>
    obtain ⟨pte, hpte, hpresent, rfl, hwalk⟩ := walk_of_frame (R := R) hpage
    refine .inr ⟨.hit pte.frame, _, _, _, hwalk, .hit ((h.frame_iff _ _).mp hpage), ?_,
      ⟨rfl, rfl, rfl, rfl⟩, ?_⟩
    · exact ((h.touch op.pid).hit (R := R) hpte hpresent).congr rfl rfl rfl rfl rfl
    · intro hcoherent
      have hframe := frameOf_setPte_same (v := v.touch op.pid) hpte hpresent
        (pte.dirty || op.isWrite)
      show (v.tlb.insert op.pid op.vpn pte.frame).Coherent ((v.touch op.pid).setPte _ _ _).frameOf
      rw [hframe]
      exact hcoherent.insert hpage
  | none =>
    have hpid : op.pid ∈ (v.touch op.pid).pids := by
      unfold VMSystem.touch
      dsimp only
      split_ifs with hmem
      · exact hmem
      · simp
    rw [walk_of_none hpage]
    rcases (h.touch op.pid).fault (R := R) (r := { costNs := v.costs.tlbNs }) hpage hpid rfl with
      hnone | ⟨o, t, r, w, hfault, hstep, href, hreports, hcoherent⟩
    · exact .inl hnone
    · exact .inr ⟨o, t, r, w, hfault, hstep, href, ⟨hreports.pageFault_eq, hreports.evicted_eq,
        hreports.faults_eq, hreports.hits_eq⟩, hcoherent⟩

/-- Systems that are the same but for the TLB refine the same pagers. -/
theorem Refines.of_same (h : Refines v s) (hsame : SameButTlb v w) : Refines w s := by
  rw [hsame]
  exact h.congr rfl rfl rfl rfl rfl

/-- The hit itself leaves the TLB. -/
theorem tlb_tlbHit (op : Access) (frame : ℕ) : (tlbHit R v op frame).2.tlb = v.tlb := by
  unfold tlbHit VMSystem.touch
  dsimp only
  by_cases hwrite : op.isWrite = true
  · rw [if_pos hwrite]
    cases v.pageTables op.pid op.vpn <;> rfl
  · rw [if_neg hwrite]

theorem SameButTlb.frameOf_eq (h : SameButTlb v w) : w.frameOf = v.frameOf := by
  rw [h]
  rfl

/-- An access after a hit. -/
theorem access_of_hit {t : TLB} (h : v.tlb.lookup op.pid op.vpn = (some frame, t)) :
    access R v op = some (tlbHit R { v with tlb := t } op frame) := by
  rw [access, h]

/-- An access after a miss. -/
theorem access_of_miss {t : TLB} (h : v.tlb.lookup op.pid op.vpn = (none, t)) :
    access R v op = VMSystem.walk R { v with tlb := v.tlb.countMiss } op := by
  rw [access, h, TLB.lookup_none h]

/-- **A call** does what a walk does, but for the TLB, and keeps the TLB coherent. -/
theorem Refines.access_same_walk (h : Refines v s) (hcoherent : v.tlb.Coherent v.frameOf)
    (op : Access) :
    SameOutcome (access R v op) (VMSystem.walk R v op) ∧
      ∀ r w, access R v op = some (r, w) → w.tlb.Coherent w.frameOf := by
  cases hlookup : v.tlb.lookup op.pid op.vpn with
  | mk found t =>
    cases found with
    | some f =>
      obtain ⟨hpage, ht⟩ := hcoherent.lookup_some hlookup
      have hsame := h.tlbHit_same_walk (R := R) hpage t
      rw [access_of_hit hlookup]
      refine ⟨hsame, fun r w hrw => ?_⟩
      obtain ⟨pte, hpte, hpresent, -, hwalk⟩ := walk_of_frame (R := R) hpage
      have htlb := tlb_tlbHit (R := R) (v := { v with tlb := t }) op f
      cases hhit : tlbHit R { v with tlb := t } op f with
      | mk r' w' =>
        rw [hhit] at hrw htlb
        rw [hhit, hwalk] at hsame
        -- the frames are those of the walk, which are those of before
        have hframe : w'.frameOf = v.frameOf := by
          rw [← hsame.2.frameOf_eq]
          exact frameOf_setPte_same (v := v.touch op.pid) hpte hpresent _
        rw [Option.some.injEq, Prod.mk.injEq] at hrw
        rw [← hrw.2, hframe, htlb]
        exact ht
    | none =>
      have hmiss : Refines { v with tlb := v.tlb.countMiss } s := h.of_same rfl
      rw [access_of_miss hlookup]
      refine ⟨walk_same op (SameButTlb.withTlb v v.tlb.countMiss).symm, fun r w hrw => ?_⟩
      rcases hmiss.walk (R := R) op with ⟨-, -, hnone⟩ | ⟨o, t, r', w', hwalk, -, -, -, hkeep⟩
      · rw [hnone] at hrw
        simp at hrw
      · rw [hwalk, Option.some.injEq, Prod.mk.injEq] at hrw
        rw [← hrw.2]
        exact hkeep hcoherent

/-- **A call is a step of the pager**, and it returns if the policy has a victim. -/
theorem Refines.access (h : Refines v s) (hcoherent : v.tlb.Coherent v.frameOf) (op : Access) :
    (s.free = [] ∧ R.victim s.policy = none ∧ access R v op = none) ∨
    ∃ o t r w, access R v op = some (r, w) ∧ Paging.Step R.toPolicy s op.page o t ∧
      Refines w t ∧ w.tlb.Coherent w.frameOf ∧ Reports v w r o := by
  obtain ⟨hsame, hkeep⟩ := h.access_same_walk (R := R) hcoherent op
  rcases h.walk (R := R) op with ⟨hfree, hvictim, hnone⟩ |
    ⟨o, t, r', w', hwalk, hstep, href, hreports, -⟩
  · refine .inl ⟨hfree, hvictim, ?_⟩
    cases hcase : VMSystem.access R v op with
    | none => rfl
    | some rw' =>
      rw [hcase, hnone] at hsame
      exact hsame.elim
  · cases hcase : VMSystem.access R v op with
    | none =>
      rw [hcase, hwalk] at hsame
      exact hsame.elim
    | some rw' =>
      obtain ⟨r, w⟩ := rw'
      rw [hcase, hwalk] at hsame
      obtain ⟨⟨hfault, hevicted, -⟩, hbut⟩ := hsame
      refine .inr ⟨o, t, r, w, rfl, hstep, href.of_same hbut.symm, hkeep r w hcase, ?_⟩
      refine ⟨hfault.trans hreports.pageFault_eq, hevicted.trans hreports.evicted_eq, ?_, ?_⟩
      · rw [← hreports.faults_eq, hbut]
      · rw [← hreports.hits_eq, hbut]

end VMSystem

end Memlab
