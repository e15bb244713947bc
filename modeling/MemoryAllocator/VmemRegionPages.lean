/-
# What `prefaulted_bytes()` is worth

The worker publishes byte counts that need not be whole pages: `_hwm_bytes` is any number,
and each round of the touching loop starts where the last target was, inside a page.
`prefaulted_covers` says that a whole page below the published count has been touched
nevertheless.  A build with `MADV_POPULATE_WRITE` owes this to high-water marks that are
whole pages, since `madvise` refuses an address inside a page and the worker does not look
at its answer; and the kernel, which may stop before the end of a range that it is asked to
populate, has to populate all of it.
-/
import MemoryAllocator.VmemRegionWorker

namespace Memlab

/-- Every whole page of the first `x` bytes from `B` on has been touched. -/
def Covers (b : Build) (B x : ℕ) (touched : List ℕ) : Prop :=
  ∀ i, (i + 1) * b.pageSize ≤ x →
    ∃ a ∈ touched, B + i * b.pageSize ≤ a ∧ a < B + (i + 1) * b.pageSize

theorem Covers.mono {b : Build} {B x : ℕ} {l l' : List ℕ} (h : Covers b B x l) (hsub : l ⊆ l') :
    Covers b B x l' := by
  intro i hi
  obtain ⟨a, ha, hrange⟩ := h i hi
  exact ⟨a, hsub ha, hrange⟩

/-- **One round of touches.**  A round starts at `x`, wherever that is inside a page, and
touches one address per page size up to the target. -/
theorem Covers.round {b : Build} {B x target : ℕ} {l : List ℕ} (h : Covers b B x l)
    (hround : ∀ j, j * b.pageSize < target - x → B + x + j * b.pageSize ∈ l) :
    Covers b B target l := by
  intro i hi
  have hpos := b.pageSize_pos
  by_cases hold : (i + 1) * b.pageSize ≤ x
  · exact h i hold
  · -- the round reaches page `i` at the same place as it started in page `x / ps`
    have hdiv := Nat.div_add_mod x b.pageSize
    have hmod := Nat.mod_lt x hpos
    have hle : x / b.pageSize ≤ i := by
      apply Nat.lt_succ_iff.mp
      rw [Nat.div_lt_iff_lt_mul hpos, Nat.succ_eq_add_one]
      omega
    obtain ⟨j, rfl⟩ := Nat.exists_eq_add_of_le hle
    have hpage : (x / b.pageSize + j) * b.pageSize
        = b.pageSize * (x / b.pageSize) + j * b.pageSize := by
      rw [Nat.add_mul, mul_comm (x / b.pageSize)]
    rw [Nat.add_mul, one_mul] at hi
    refine ⟨B + x + j * b.pageSize, hround j (by omega), ?_, ?_⟩
    · omega
    · rw [Nat.add_mul (x / b.pageSize + j), one_mul]
      omega

/-- The kernel populates all pages of a range inside a mapping of `S` bytes at `B`, when it
is asked to. -/
def Build.Populates (b : Build) (B S : ℕ) : Prop :=
  ∀ p len requests, B ≤ p → p + len ≤ B + S →
    (pageTouches b p len).length ≤ b.kernel.populated ((p, len) :: requests)

/-- The worker's target is a multiple of the page size. -/
def Worker.Aligned (ps : ℕ) : Worker → Prop
  | .clamp target | .compare target | .locate target | .touch _ target _ | .publish target =>
    ps ∣ target
  | .test | .load | .cut | .sleep | .done => True

/-- The watermark is whole pages, also where the sum wraps. -/
theorem dvd_watermark {b : Build} (hbits : b.pageBits ≤ 64) {hwm : ℕ} (h : b.pageSize ∣ hwm) :
    b.pageSize ∣ Word64.add hwm (Word64.mul kWatermarkPages b.pageSize) := by
  have hword : b.pageSize ∣ 2 ^ 64 := pow_dvd_pow 2 hbits
  rw [Word64.add, Word64.mul]
  apply (Nat.dvd_mod_iff hword).mpr
  apply dvd_add h
  apply (Nat.dvd_mod_iff hword).mpr
  exact dvd_mul_left _ _

/-- **The target of a worker that moves on** stays aligned. -/
theorem Worker.Goes.aligned {b : Build} {region : VmemRegion} {offset : ℕ} {w w' : Worker}
    (h : w.Goes b region offset w') (hbits : b.pageBits ≤ 64)
    (hhwm : b.pageSize ∣ region.hwmBytes) (hsize : b.pageSize ∣ region.size)
    (hw : w.Aligned b.pageSize) : w'.Aligned b.pageSize := by
  cases h with
  | stop | proceed | above | ahead | wake => trivial
  | load => exact dvd_watermark hbits hhwm
  | cut => exact hsize
  | within | behind | locate | leave => exact hw

namespace RegionSystem

/-! ## The invariant -/

/-- The touches so far: of all that any object reports, and of the round in progress. -/
structure Covering (b : Build) (B : ℕ) (s : RegionSystem) : Prop where
  covers : ∀ r ∈ s.region :: s.moved, Covers b B r.prefaulted s.touched
  loop : ∀ p target off, s.worker = some (.touch p target off) →
    ∃ k, off = k * b.pageSize ∧ ∀ j < k, p + j * b.pageSize ∈ s.touched
  publish : ∀ target, s.worker = some (.publish target) →
    ∀ j, j * b.pageSize < target - s.offset → B + s.offset + j * b.pageSize ∈ s.touched

/-- All byte counts of the worker are whole pages. -/
structure Whole (b : Build) (B S : ℕ) (s : RegionSystem) : Prop where
  base_dvd : b.pageSize ∣ B
  size_dvd : b.pageSize ∣ S
  hwm_dvd : b.pageSize ∣ s.region.hwmBytes
  offset_dvd : b.pageSize ∣ s.offset
  worker_dvd : ∀ w, s.worker = some w → w.Aligned b.pageSize

variable {b : Build} {B S : ℕ} {s t : RegionSystem} {w w' : Worker} {a : Action}

/-! ## The worker's steps -/

/-- `madvise` at the start of a page reaches all pages of a range of the mapping. -/
theorem populate_touches (hwhole : s.Whole b B S) (hpopulates : b.Populates B S) {target : ℕ}
    (hle : target ≤ S) {j : ℕ} (hj : j * b.pageSize < target - s.offset) :
    B + s.offset + j * b.pageSize
      ∈ (s.populate b (B + s.offset) (target - s.offset)).touched := by
  have haligned : (B + s.offset) % b.pageSize = 0 :=
    Nat.mod_eq_zero_of_dvd (dvd_add hwhole.base_dvd hwhole.offset_dvd)
  have hall := hpopulates (B + s.offset) (target - s.offset) s.requests (by omega) (by omega)
  apply List.mem_append_left
  rw [if_pos haligned, List.take_of_length_le hall]
  exact mem_pageTouches.mpr ⟨j, hj, rfl⟩

/-- The touching loop has touched one address per page size when it ends. -/
theorem Covering.leave (hc : s.Covering b B) {p target off : ℕ}
    (hw : s.worker = some (.touch p target off)) (hoff : target - s.offset ≤ off) {j : ℕ}
    (hj : j * b.pageSize < target - s.offset) : p + j * b.pageSize ∈ s.touched := by
  obtain ⟨k, hk, htouched⟩ := hc.loop p target off hw
  apply htouched j
  apply lt_of_mul_lt_mul_right (a := b.pageSize) _ (Nat.zero_le _)
  omega

/-- **A step of the worker keeps account of its touches.** -/
theorem Covering.turn (hs : s.Safe b B S) (hc : s.Covering b B)
    (hwhole : b.populateWrite = true → s.Whole b B S ∧ b.Populates B S) (hturn : Turn b s t) :
    t.Covering b B := by
  cases hturn with
  | goes hw hgo =>
    refine ⟨hc.covers, fun p target off hw' => ?_, fun target hw' j hj => ?_⟩
    · obtain rfl := Option.some.inj hw'
      cases hgo with
      | locate => exact ⟨0, (Nat.zero_mul _).symm, fun j hj => absurd hj (Nat.not_lt_zero j)⟩
    · obtain rfl := Option.some.inj hw'
      cases hgo with
      | leave hoff =>
        obtain ⟨-, -, rfl⟩ := hs.busy.fits _ hw
        exact hc.leave hw hoff hj
  | @populates target hw hbuild =>
    obtain ⟨hlt, hle⟩ := hs.busy.fits _ hw
    obtain ⟨hwhole, hpopulates⟩ := hwhole hbuild
    rw [hs.base hw (by omega)]
    refine ⟨fun r hr => ?_, fun p target' off hw' => ?_, fun target' hw' j hj => ?_⟩
    · exact (hc.covers r hr).mono (List.subset_append_right _ _)
    · cases hw'
    · obtain rfl : target = target' := by
        injection hw' with hw'
        injection hw'
      exact populate_touches hwhole hpopulates hle hj
  | @writes p target off hw hoff =>
    obtain ⟨hlt, hle, hp⟩ := hs.busy.fits _ hw
    obtain ⟨k, hk, htouched⟩ := hc.loop p target off hw
    rw [write_eq (hs.held.mapped hw) (x := p + off) (by omega) (by omega)]
    refine ⟨fun r hr => ?_, fun p' target' off' hw' => ?_, fun target' hw' => ?_⟩
    · exact (hc.covers r hr).mono (List.subset_cons_self _ _)
    · injection hw' with hw'
      injection hw' with hp' htarget' hoff'
      refine ⟨k + 1, by rw [← hoff', hk, Nat.add_mul, one_mul], fun j hj => ?_⟩
      rw [← hp']
      rcases Nat.lt_succ_iff_lt_or_eq.mp hj with hj | rfl
      · exact List.mem_cons_of_mem _ (htouched j hj)
      · rw [hk]
        exact List.mem_cons_self
    · cases hw'
  | @publishes target hw =>
    have hcovers := hc.covers s.region List.mem_cons_self
    rw [hs.busy.prefaulted_eq (by rw [hw]; rfl)] at hcovers
    refine ⟨List.forall_mem_cons.mpr ⟨?_, ?_⟩, fun p target' off hw' => ?_, fun target' hw' => ?_⟩
    · exact hcovers.round (hc.publish target hw)
    · exact fun r hr => hc.covers r (List.mem_cons_of_mem _ hr)
    · cases hw'
    · cases hw'

/-- The size of the mapping, or `0` once a move has cleared it. -/
theorem Whole.region_size_dvd (hs : s.Safe b B S) (hwhole : s.Whole b B S) :
    b.pageSize ∣ s.region.size := by
  rw [hs.held.size_eq]
  cases s.owner <;> first | exact hwhole.size_dvd | exact dvd_zero _

/-- **A step of the worker keeps whole pages.** -/
theorem Whole.turn (hbits : b.pageBits ≤ 64) (hs : s.Safe b B S) (hwhole : s.Whole b B S)
    (hturn : Turn b s t) : t.Whole b B S := by
  cases hturn with
  | goes hw hgo =>
    have hdvd := hgo.aligned hbits hwhole.hwm_dvd (hwhole.region_size_dvd hs)
      (hwhole.worker_dvd _ hw)
    exact { hwhole with worker_dvd := fun v hv => Option.some.inj hv ▸ hdvd }
  | @populates target hw hbuild =>
    have hdvd : b.pageSize ∣ target := hwhole.worker_dvd _ hw
    exact { hwhole with worker_dvd := fun v hv => Option.some.inj hv ▸ hdvd }
  | @writes p target off hw hoff =>
    have hdvd : b.pageSize ∣ target := hwhole.worker_dvd _ hw
    rw [write_eq (hs.held.mapped hw) (x := p + off)]
    · exact { hwhole with worker_dvd := fun v hv => Option.some.inj hv ▸ hdvd }
    all_goals
      obtain ⟨hlt, hle, hp⟩ := hs.busy.fits _ hw
      omega
  | @publishes target hw =>
    have hdvd : b.pageSize ∣ target := hwhole.worker_dvd _ hw
    exact { hwhole with
      hwm_dvd := hwhole.hwm_dvd
      offset_dvd := hdvd
      worker_dvd := fun v hv => Option.some.inj hv ▸ trivial }

/-! ## The owner's actions -/

/-- The worker is where it was, or has been joined. -/
theorem Frame.worker_eq (hf : Frame s t a) (hw : t.worker = some w) : s.worker = some w := by
  rcases hf.worker with heq | hnone
  · rw [← heq, hw]
  · rw [hnone] at hw
    cases hw

theorem Covering.frame (hc : s.Covering b B) (hf : Frame s t a) : t.Covering b B := by
  refine ⟨List.forall_mem_cons.mpr ⟨?_, fun r hr => ?_⟩, fun p target off hw => ?_,
    fun target hw => ?_⟩
  · rw [hf.touched, hf.prefaulted]
    exact hc.covers s.region List.mem_cons_self
  · obtain ⟨q, hq, heq⟩ := hf.counts r hr
    rw [hf.touched, heq]
    exact hc.covers q hq
  · rw [hf.touched]
    exact hc.loop p target off (hf.worker_eq hw)
  · rw [hf.touched, hf.offset]
    exact hc.publish target (hf.worker_eq hw)

/-- An action that reports whole pages, if it reports consumed bytes at all. -/
def Action.Whole (b : Build) : Action → Prop
  | .advanceHwm consumed => b.pageSize ∣ consumed
  | .destroy | .move | .owner | .worker | .advanceMoved _ _ | .moveMoved _ | .destroyMoved _ => True

instance (b : Build) : ∀ a : Action, Decidable (a.Whole b)
  | .advanceHwm consumed => inferInstanceAs (Decidable (b.pageSize ∣ consumed))
  | .destroy | .move | .owner | .worker | .advanceMoved _ _ | .moveMoved _ | .destroyMoved _ =>
    .isTrue trivial

theorem Whole.frame (hwhole : s.Whole b B S) (hf : Frame s t a) (hcall : a.Whole b) :
    t.Whole b B S := by
  refine { hwhole with hwm_dvd := ?_, offset_dvd := ?_, worker_dvd := ?_ }
  · rcases hf.hwm with heq | hcalled
    · rw [heq]
      exact hwhole.hwm_dvd
    · rw [hcalled] at hcall
      exact hcall
  · rw [hf.offset]
    exact hwhole.offset_dvd
  · exact fun w hw => hwhole.worker_dvd w (hf.worker_eq hw)

/-! ## Every interleaving -/

/-- The caller's contract: a region with a worker is moved only once it is prefaulted to
its end, and with `MADV_POPULATE_WRITE` the consumed bytes are reported to a worker in whole
pages. -/
def AdvancesPages (b : Build) (s : RegionSystem) (a : Action) : Prop :=
  s.MovesPrefaulted a ∧ (b.populateWrite = true → s.worker.isSome → a.Whole b)

instance (b : Build) (s : RegionSystem) (a : Action) :
    Decidable ((machine b (AdvancesPages b)).pre s a) :=
  inferInstanceAs (Decidable (_ ∧ (_ → _ → _)))

/-- The safe states whose touches are accounted for. -/
structure Accounted (b : Build) (B S : ℕ) (s : RegionSystem) : Prop where
  safe : s.Safe b B S
  covering : s.Covering b B
  whole : b.populateWrite = true → s.worker.isSome → s.Whole b B S ∧ b.Populates B S

/-- **One action of either side keeps the account.** -/
theorem Accounted.exec (hbits : b.pageBits ≤ 64) (hB : B ≠ 0) (hS : S ≠ 0)
    (hs : s.Accounted b B S) (hpre : s.AdvancesPages b a) (hexec : s.exec b a = some t) :
    t.Accounted b B S := by
  have hsafe := hs.safe.exec hB hS hpre.1 hexec
  by_cases ha : a = .worker
  · subst ha
    have hturn := turn_of_workerStep hexec
    have hsome := hturn.aside.running.1
    refine ⟨hsafe, hs.covering.turn hs.safe (fun hbuild => hs.whole hbuild hsome) hturn, ?_⟩
    intro hbuild _
    obtain ⟨hwhole, hpopulates⟩ := hs.whole hbuild hsome
    exact ⟨hwhole.turn hbits hs.safe hturn, hpopulates⟩
  · have hframe := (does_of_exec ha hexec).frame
    refine ⟨hsafe, hs.covering.frame hframe, fun hbuild hw => ?_⟩
    obtain ⟨w, hw⟩ := Option.isSome_iff_exists.mp hw
    have hsome : s.worker.isSome := by rw [hframe.worker_eq hw]; rfl
    obtain ⟨hwhole, hpopulates⟩ := hs.whole hbuild hsome
    exact ⟨hwhole.frame hframe (hpre.2 hbuild hsome), hpopulates⟩

/-- `round_up_to_page` gives whole pages, or `0` where the sum wraps. -/
theorem dvd_roundUpToPage (hbits : b.pageBits < 64) {bytes : ℕ} (hbytes : bytes < 2 ^ 64) :
    b.pageSize ∣ roundUpToPage b bytes := by
  unfold roundUpToPage Build.pageSize
  by_cases hwrap : bytes + 2 ^ b.pageBits ≤ 2 ^ 64
  · exact (Memory.alignUp_isLeast hbits hwrap).1.1
  · rw [Memory.alignUp_of_wrap hbits hbytes (not_le.mp hwrap)]
    exact dvd_zero _

/-- One touch in each page. -/
theorem covers_pageTouches (b : Build) (B S : ℕ) : Covers b B S (pageTouches b B S) := by
  intro i hi
  have hpos := b.pageSize_pos
  rw [Nat.add_mul, one_mul] at hi ⊢
  exact ⟨B + i * b.pageSize, mem_pageTouches.mpr ⟨i, by omega, rfl⟩, le_rfl, by omega⟩

/-- What the constructor reports as prefaulted has been touched. -/
theorem Constructed.covers {bytes : ℕ} {policy : PrefaultPolicy}
    (h : s.Constructed b bytes policy)
    (hpopulates : policy = .mapPopulate → b.Populates s.region.base s.region.size) :
    Covers b s.region.base s.region.prefaulted s.touched := by
  cases h.prefaults with
  | none hzero =>
    intro i hi
    have hpos := b.pageSize_pos
    rw [hzero, Nat.add_mul] at hi
    omega
  | touches hfull _ htouched =>
    rw [hfull, htouched]
    exact covers_pageTouches b _ _
  | populates hfull _ htouched =>
    have hall := hpopulates rfl s.region.base s.region.size [] le_rfl le_rfl
    rw [hfull, htouched, List.take_of_length_le hall]
    exact covers_pageTouches b _ _

/-- What the constructor has touched is accounted for. -/
theorem construct_accounted (hbits : b.pageBits < 64) (hanswers : Memory.Answers b.kernel.mmap)
    (haligned : ∀ length ptr, b.kernel.mmap length = some ptr → b.pageSize ∣ ptr)
    {bytes : ℕ} (hbytes : bytes < 2 ^ 64) {policy : PrefaultPolicy} {lock : Bool}
    (hs : construct b bytes policy lock = .ok s)
    (hpopulates : policy = .mapPopulate ∨ policy = .adaptive ∧ b.populateWrite = true →
      b.Populates s.region.base s.region.size) :
    s.Accounted b s.region.base s.region.size := by
  have h := construct_ok hs
  refine ⟨(construct_safe hanswers hs).2.2, ⟨?_, ?_, ?_⟩,
    fun hbuild hw => ⟨⟨?_, ?_, ?_, ?_, ?_⟩, ?_⟩⟩
  · rw [h.moved, List.forall_mem_singleton]
    exact h.covers (fun hpolicy => hpopulates (Or.inl hpolicy))
  · intro p target off hw
    cases (h.test hw).2
  · intro target hw
    cases (h.test hw).2
  · exact haligned _ _ h.granted
  · rw [h.size]
    exact dvd_roundUpToPage hbits hbytes
  · rw [h.hwm]
    exact dvd_zero _
  · rw [h.offset]
    exact dvd_zero _
  · intro w hw
    rw [(h.test hw).2]
    trivial
  · obtain ⟨w, hw⟩ := Option.isSome_iff_exists.mp hw
    exact hpopulates (Or.inr ⟨(h.test hw).1, hbuild⟩)

end RegionSystem

/-- **`prefaulted_bytes()` never reports a whole page that has not been touched**, under
all policies, in every interleaving and for every object that has the region in turn, although
high-water marks may lie inside pages.  Where pages are populated by the kernel, it must not
stop before the end of a range. -/
theorem prefaulted_covers {b : Build} (hbits : b.pageBits < 64)
    (hanswers : Memory.Answers b.kernel.mmap)
    (haligned : ∀ length ptr, b.kernel.mmap length = some ptr → b.pageSize ∣ ptr)
    {bytes : ℕ} (hbytes : bytes < 2 ^ 64) {policy : PrefaultPolicy} {lock : Bool}
    {s t : RegionSystem} (hs : RegionSystem.construct b bytes policy lock = .ok s)
    (hpopulates : policy = .mapPopulate ∨ policy = .adaptive ∧ b.populateWrite = true →
      b.Populates s.region.base s.region.size)
    {actions : List RegionSystem.Action}
    (h : (RegionSystem.machine b (RegionSystem.AdvancesPages b)).Reaches s actions t)
    {r : VmemRegion} (hr : r ∈ t.region :: t.moved) {i : ℕ}
    (hi : (i + 1) * b.pageSize ≤ r.prefaulted) :
    ∃ a ∈ t.touched, s.region.base + i * b.pageSize ≤ a ∧
      a < s.region.base + (i + 1) * b.pageSize := by
  obtain ⟨hB, hS, -⟩ := RegionSystem.construct_safe hanswers hs
  have haccounted :=
    RegionSystem.construct_accounted hbits hanswers haligned hbytes hs hpopulates
  have ht : t.Accounted b s.region.base s.region.size :=
    GuardedMachine.Reaches.invariant (I := RegionSystem.Accounted b s.region.base s.region.size)
      (fun _ _ _ hs hpre hexec => hs.exec hbits.le hB hS hpre hexec) haccounted h
  exact ht.covering.covers r hr i hi

/-- A worker that populates by `madvise` once one page has been consumed. -/
def consumeOne : List RegionSystem.Action :=
  [.advanceHwm 4096, .worker, .worker, .worker, .worker, .worker, .worker, .worker, .destroy,
    .worker, .worker, .owner, .owner]

theorem grantingKernel_populates (populateWrite : Bool) (B S : ℕ) :
    (grantingBuild populateWrite).Populates B S := by
  intro p len requests _ _
  simp [pageTouches, Build.pageSize, grantingBuild, grantingKernel]

/-- The second page is touched once two are reported. -/
theorem prefaulted_covers_consumeOne :
    ∃ t, (RegionSystem.machine (grantingBuild true)
        (RegionSystem.AdvancesPages (grantingBuild true))).Reaches (twoPages true) consumeOne t ∧
      t.region.prefaulted = 8192 ∧ ∃ a ∈ t.touched, 69632 ≤ a ∧ a < 73728 := by
  have hlegal : (RegionSystem.machine (grantingBuild true)
      (RegionSystem.AdvancesPages (grantingBuild true))).Legal
      (twoPages true) consumeOne := by decide +kernel
  have hend : ((RegionSystem.machine (grantingBuild true)
      (RegionSystem.AdvancesPages (grantingBuild true))).run
      (twoPages true) consumeOne).map (fun t => t.region.prefaulted) = some 8192 := by
    decide +kernel
  obtain ⟨t, hrun, ht⟩ := Option.map_eq_some_iff.mp hend
  have haligned : ∀ length ptr, Memory.VirtualMemory.mapsAt 65536 length = some ptr →
      Build.pageSize (grantingBuild true) ∣ ptr := by
    intro length ptr hptr
    rw [Memory.VirtualMemory.mapsAt] at hptr
    split_ifs at hptr
    obtain rfl := Option.some.inj hptr
    decide
  have hpage := prefaulted_covers (b := grantingBuild true) (by decide) answers_mapsAt
    haligned (by norm_num) (construct_twoPages true true)
    (fun _ => grantingKernel_populates true _ _) ⟨hlegal, hrun⟩ List.mem_cons_self (i := 1)
    (by rw [ht]; decide)
  exact ⟨t, ⟨hlegal, hrun⟩, ht, hpage⟩

end Memlab
