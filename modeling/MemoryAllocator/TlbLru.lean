/-
# The TLB is an LRU cache

The TLB keeps its entries in a hash map and remembers by a stamp when each of them was
used last.  Sorted by their stamps the entries are a cache with least-recently-used
replacement (`TLB.Refines`), and each call is the operation of that cache.  The entry with
the least stamp, which `evict` looks for, is the last one of the cache; since the stamps
are distinct it does not matter in which order the map is walked (`foldl_older_perm`).
-/
import MemoryAllocator.LruCache
import MemoryAllocator.VmSystem

namespace Memlab

namespace TLB

/-! ## Calls -/

/-- The calls that a client makes. -/
inductive Call where
  | lookup (pid : ℤ) (vpn : ℕ)
  | insert (pid : ℤ) (vpn frame : ℕ)
  | invalidate (pid : ℤ) (vpn : ℕ)
  | flushPid (pid : ℤ)
  deriving DecidableEq, Repr

/-- The TLB after a call. -/
def call (t : TLB) : Call → TLB
  | .lookup pid vpn => (t.lookup pid vpn).2
  | .insert pid vpn frame => t.insert pid vpn frame
  | .invalidate pid vpn => t.invalidate pid vpn
  | .flushPid pid => t.flushPid pid

/-- The TLB after a sequence of calls. -/
def calls (t : TLB) (cs : List Call) : TLB := cs.foldl call t

/-- The TLB has an entry for the page. -/
def Holds (t : TLB) (key : Page) : Prop := key ∈ t.map.map Prod.fst

instance (t : TLB) (key : Page) : Decidable (t.Holds key) :=
  inferInstanceAs (Decidable (_ ∈ _))

/-- The call stores a frame for the page. -/
def Call.Inserts (key : Page) : Call → Prop
  | .insert pid vpn _ => (pid, vpn) = key
  | _ => False

/-- The call removes the page on behalf of the client. -/
def Call.Removes (key : Page) : Call → Prop
  | .invalidate pid vpn => (pid, vpn) = key
  | .flushPid pid => key.1 = pid
  | _ => False

/-- The page that a call inserts or hits. -/
def usedBy (t : TLB) : Call → Finset Page
  | .lookup pid vpn => if (t.lookup pid vpn).1.isSome then {(pid, vpn)} else ∅
  | .insert pid vpn _ => {(pid, vpn)}
  | _ => ∅

/-- The pages that a sequence of calls inserts or hits. -/
def usedIn : TLB → List Call → Finset Page
  | _, [] => ∅
  | t, c :: cs => t.usedBy c ∪ usedIn (t.call c) cs

/-- The operation of the cache that a call is. -/
def Call.op : Call → LruCache.Op Page ℕ
  | .lookup pid vpn => .get (pid, vpn)
  | .insert pid vpn frame => .put (pid, vpn) frame
  | .invalidate pid vpn => .drop (fun key => key = (pid, vpn))
  | .flushPid pid => .drop (fun key => key.1 = pid)

/-! ## The oldest entry -/

variable {t : TLB} {x y : Page × Entry} {l l' : List (Page × Entry)} {key : Page} {entry : Entry}

/-- The search of `evict` ends at an entry with the least stamp. -/
theorem foldl_older_spec (x : Page × Entry) (l : List (Page × Entry)) :
    l.foldl older x ∈ x :: l ∧ ∀ y ∈ x :: l, (l.foldl older x).2.stamp ≤ y.2.stamp := by
  induction l generalizing x with
  | nil => simp
  | cons y l ih =>
    obtain ⟨hmem, hle⟩ := ih (older x y)
    have hcases : (older x y = y ∧ y.2.stamp < x.2.stamp) ∨
        (older x y = x ∧ x.2.stamp ≤ y.2.stamp) := by
      unfold older
      split_ifs with hlt
      · exact Or.inl ⟨rfl, hlt⟩
      · exact Or.inr ⟨rfl, not_lt.mp hlt⟩
    rw [List.foldl_cons]
    have hfirst := hle (older x y) (List.mem_cons_self ..)
    have hboth : (older x y).2.stamp ≤ x.2.stamp ∧ (older x y).2.stamp ≤ y.2.stamp := by
      rcases hcases with ⟨heq, hlt⟩ | ⟨heq, hle'⟩
      · rw [heq]
        exact ⟨hlt.le, le_rfl⟩
      · rw [heq]
        exact ⟨le_rfl, hle'⟩
    constructor
    · rcases List.mem_cons.mp hmem with heq | hold
      · rw [heq]
        rcases hcases with ⟨heq', -⟩ | ⟨heq', -⟩
        · rw [heq']
          exact List.mem_cons_of_mem _ (List.mem_cons_self ..)
        · rw [heq']
          exact List.mem_cons_self ..
      · exact List.mem_cons_of_mem _ (List.mem_cons_of_mem _ hold)
    · intro z hz
      rcases List.mem_cons.mp hz with rfl | hz
      · exact hfirst.trans hboth.1
      · rcases List.mem_cons.mp hz with rfl | hz
        · exact hfirst.trans hboth.2
        · exact hle z (List.mem_cons_of_mem _ hz)

/-- The entry that the search of `evict` finds. -/
theorem foldl_older_self (x : Page × Entry) (l : List (Page × Entry)) :
    (x :: l).foldl older x ∈ x :: l ∧
      ∀ y ∈ x :: l, ((x :: l).foldl older x).2.stamp ≤ y.2.stamp := by
  have hself : older x x = x := by
    unfold older
    exact ite_self x
  rw [List.foldl_cons, hself]
  exact foldl_older_spec x l

/-- Newest first. -/
abbrev NewestFirst (m : List (Page × Entry)) : Prop :=
  m.Pairwise (fun a b => b.2.stamp < a.2.stamp)

/-- In the order of the stamps, the oldest entry is the last one. -/
theorem oldest_eq_last {m : List (Page × Entry)} (hm : NewestFirst (m ++ [y]))
    (hx : x ∈ m ++ [y]) (hle : x.2.stamp ≤ y.2.stamp) : x = y := by
  rcases List.mem_append.mp hx with hold | hlast
  · have hlt := (List.pairwise_append.mp hm).2.2 x hold y (List.mem_singleton_self y)
    omega
  · exact List.mem_singleton.mp hlast

/-- **The order in which the map is walked does not matter** where the stamps are
distinct. -/
theorem foldl_older_perm (hperm : (x :: l).Perm (y :: l'))
    (hstamps : ((x :: l).map (fun kv => kv.2.stamp)).Nodup) :
    (x :: l).foldl older x = (y :: l').foldl older y := by
  obtain ⟨hmem, hle⟩ := foldl_older_self x l
  obtain ⟨hmem', hle'⟩ := foldl_older_self y l'
  have hmem'' := hperm.symm.subset hmem'
  have heq : ((x :: l).foldl older x).2.stamp = ((y :: l').foldl older y).2.stamp :=
    le_antisymm (hle _ hmem'') (hle' _ (hperm.subset hmem))
  exact List.inj_on_of_nodup_map hstamps hmem hmem'' heq

/-! ## The cache behind the stamps -/

/-- A page with its frame. -/
def view (kv : Page × Entry) : Page × ℕ := (kv.1, kv.2.frame)

/-- The TLB is the cache `c`: in the order of the stamps its entries are those of `c`, and
no stamp is ahead of the clock. -/
structure Refines (t : TLB) (c : List (Page × ℕ)) : Prop where
  recency : ∃ m : List (Page × Entry), m.Perm t.map ∧ NewestFirst m ∧ m.map view = c
  stamp_le : ∀ kv ∈ t.map, kv.2.stamp ≤ t.clock
  valid : LruCache.Valid t.cap c

variable {c : List (Page × ℕ)} {m : List (Page × Entry)} {f : ℕ}

theorem keys_map_view (m : List (Page × Entry)) :
    LruCache.keys (m.map view) = m.map Prod.fst := by
  rw [LruCache.keys, List.map_map]
  rfl

theorem Refines.keys_perm (h : Refines t c) : (LruCache.keys c).Perm (t.map.map Prod.fst) := by
  obtain ⟨m, hperm, -, rfl⟩ := h.recency
  rw [keys_map_view]
  exact hperm.map Prod.fst

theorem Refines.holds_iff (h : Refines t c) (key : Page) :
    t.Holds key ↔ key ∈ LruCache.keys c :=
  h.keys_perm.symm.mem_iff

theorem Refines.length_eq (h : Refines t c) : t.map.length = c.length := by
  obtain ⟨m, hperm, -, rfl⟩ := h.recency
  rw [← hperm.length_eq, List.length_map]

theorem Refines.nodup_stamps (h : Refines t c) : (t.map.map (fun kv => kv.2.stamp)).Nodup := by
  obtain ⟨m, hperm, hnewest, -⟩ := h.recency
  rw [← (hperm.map (fun kv => kv.2.stamp)).nodup_iff, List.Nodup, List.pairwise_map]
  exact hnewest.imp (fun hlt => ne_of_gt hlt)

theorem Refines.nodup_keys (h : Refines t c) : (t.map.map Prod.fst).Nodup :=
  h.keys_perm.nodup_iff.mp h.valid.nodup

/-- An entry of the TLB is an entry of the cache. -/
theorem Refines.mem_view (h : Refines t c) (hmem : (key, entry) ∈ t.map) :
    (key, entry.frame) ∈ c := by
  obtain ⟨m, hperm, -, rfl⟩ := h.recency
  exact List.mem_map.mpr ⟨(key, entry), hperm.symm.subset hmem, rfl⟩

theorem refines_start (cap : ℕ) : Refines { cap := cap } [] where
  recency := ⟨[], .refl _, .nil, rfl⟩
  stamp_le _ hkv := absurd hkv List.not_mem_nil
  valid := LruCache.valid_nil cap

theorem tick_eq (h : t.clock + 1 < 2 ^ 64) : t.tick = t.clock + 1 := Nat.mod_eq_of_lt h

/-- Putting an entry in the place of one with the same key, and moving it to the front. -/
theorem replace_perm (hnodup : (m.map Prod.fst).Nodup) (hkey : key ∈ m.map Prod.fst)
    (entry : Entry) :
    ((key, entry) :: m.filter (fun kv => kv.1 ≠ key)).Perm
      (m.map (fun kv => if kv.1 = key then (key, entry) else kv)) := by
  induction m with
  | nil => exact absurd hkey List.not_mem_nil
  | cons kv m ih =>
    rw [List.map_cons, List.nodup_cons] at hnodup
    by_cases hkv : kv.1 = key
    · -- the other entries have other keys
      have hother : ∀ kv' ∈ m, kv'.1 ≠ key := by
        intro kv' hkv' heq
        exact hnodup.1 (hkv.trans heq.symm ▸ List.mem_map_of_mem hkv')
      have hfilter : m.filter (fun kv => kv.1 ≠ key) = m := by
        rw [List.filter_eq_self]
        intro kv' hkv'
        simpa using hother kv' hkv'
      have hmap : m.map (fun kv => if kv.1 = key then (key, entry) else kv) = m := by
        rw [List.map_congr_left (fun kv' hkv' => if_neg (hother kv' hkv'))]
        exact List.map_id' m
      rw [List.filter_cons_of_neg (by simpa using hkv), hfilter, List.map_cons, if_pos hkv, hmap]
    · have hrest : key ∈ m.map Prod.fst := by
        rcases List.mem_cons.mp hkey with heq | hrest
        · exact absurd heq.symm hkv
        · exact hrest
      rw [List.filter_cons_of_pos (by simpa using hkv), List.map_cons, if_neg hkv]
      exact (List.Perm.swap kv (key, entry) _).trans ((ih hnodup.2 hrest).cons kv)

/-- The entries without a key are the cache without the key. -/
theorem map_view_filter (m : List (Page × Entry)) (key : Page) :
    (m.filter (fun kv => kv.1 ≠ key)).map view = LruCache.remove key (m.map view) := by
  rw [LruCache.remove, List.filter_map]
  rfl

/-- **Storing under a key of the map** makes it the newest one. -/
theorem Refines.store (h : Refines t c) (hkey : key ∈ LruCache.keys c) (f : ℕ) :
    Refines (t.store key ⟨f, t.clock + 1⟩) ((key, f) :: LruCache.remove key c) where
  recency := by
    obtain ⟨m, hperm, hnewest, rfl⟩ := h.recency
    refine ⟨(key, ⟨f, t.clock + 1⟩) :: m.filter (fun kv => kv.1 ≠ key), ?_, ?_, ?_⟩
    · have hnodup : (m.map Prod.fst).Nodup := (hperm.map Prod.fst).nodup_iff.mpr h.nodup_keys
      rw [keys_map_view] at hkey
      exact (replace_perm hnodup hkey _).trans (hperm.map _)
    · refine List.pairwise_cons.mpr ⟨fun kv hkv => ?_, hnewest.sublist List.filter_sublist⟩
      have hle := h.stamp_le kv (hperm.subset (List.mem_of_mem_filter hkv))
      show kv.2.stamp < t.clock + 1
      omega
    · rw [List.map_cons, map_view_filter]
      rfl
  stamp_le := by
    intro kv hkv
    obtain ⟨kv', hkv', rfl⟩ := List.mem_map.mp hkv
    have hle := h.stamp_le kv' hkv'
    show _ ≤ t.clock + 1
    split_ifs
    · exact le_rfl
    · omega
  valid := by
    have hlt := LruCache.length_remove_lt hkey
    have hle := h.valid.length_le
    refine ⟨LruCache.nodup_keys_cons_remove h.valid.nodup key f, ?_⟩
    show (LruCache.remove key c).length + 1 ≤ t.cap
    omega

/-- Dropping the entries whose keys have a property. -/
theorem Refines.drop (h : Refines t c) (p : Page → Bool) :
    Refines { t with map := t.map.filter (fun kv => p kv.1) } (c.filter (fun kv => p kv.1)) where
  recency := by
    obtain ⟨m, hperm, hnewest, rfl⟩ := h.recency
    refine ⟨m.filter (fun kv => p kv.1), hperm.filter _, hnewest.sublist List.filter_sublist, ?_⟩
    rw [List.filter_map]
    rfl
  stamp_le kv hkv := h.stamp_le kv (List.mem_of_mem_filter hkv)
  valid := h.valid.sublist List.filter_sublist

/-- **Evicting** drops the last entry of the cache. -/
theorem Refines.evict (h : Refines t c) : Refines t.evict c.dropLast := by
  obtain ⟨m, hperm, hnewest, hview⟩ := h.recency
  unfold TLB.evict
  match hmap : t.map with
  | [] =>
    rw [hmap] at hperm
    obtain rfl := List.perm_nil.mp hperm
    subst hview
    exact h
  | x :: l =>
    rw [hmap] at hperm
    obtain ⟨hmem, hle⟩ := foldl_older_self x l
    obtain ⟨m₀, y, rfl⟩ : ∃ m₀ y, m = m₀ ++ [y] := by
      rcases List.eq_nil_or_concat m with rfl | ⟨m₀, y, rfl⟩
      · exact absurd hperm.symm (List.not_perm_nil_cons x l ∘ List.Perm.symm)
      · exact ⟨m₀, y, List.concat_eq_append⟩
    have hlast : (x :: l).foldl older x = y :=
      oldest_eq_last hnewest (hperm.symm.subset hmem) (hle y (hperm.subset (by simp)))
    have hnotin : y ∉ m₀ := by
      intro hy
      have hlt := (List.pairwise_append.mp hnewest).2.2 y hy y (List.mem_singleton_self y)
      omega
    dsimp only
    rw [hlast]
    refine ⟨⟨m₀, ?_, (List.pairwise_append.mp hnewest).1, ?_⟩, ?_, ?_⟩
    · have herase := hperm.erase y
      rw [List.erase_append_right [y] hnotin] at herase
      simpa using herase
    · rw [← hview]
      simp
    · intro kv hkv
      apply h.stamp_le kv
      rw [hmap]
      exact List.mem_of_mem_erase hkv
    · exact h.valid.sublist (List.dropLast_sublist c)

/-- A new entry at the front. -/
theorem Refines.cons (h : Refines t c) (hkey : key ∉ LruCache.keys c) (hroom : c.length < t.cap)
    (f : ℕ) :
    Refines { t with clock := t.clock + 1, map := t.map ++ [(key, ⟨f, t.clock + 1⟩)] }
      ((key, f) :: c) where
  recency := by
    obtain ⟨m, hperm, hnewest, rfl⟩ := h.recency
    refine ⟨(key, ⟨f, t.clock + 1⟩) :: m, ?_, ?_, rfl⟩
    · exact (hperm.cons _).trans (List.perm_append_singleton _ _).symm
    · refine List.pairwise_cons.mpr ⟨fun kv hkv => ?_, hnewest⟩
      have hle := h.stamp_le kv (hperm.subset hkv)
      show kv.2.stamp < t.clock + 1
      omega
  stamp_le := by
    intro kv hkv
    show kv.2.stamp ≤ t.clock + 1
    rcases List.mem_append.mp hkv with hold | hnew
    · have hle := h.stamp_le kv hold
      omega
    · rw [List.mem_singleton.mp hnew]
  valid := ⟨List.nodup_cons.mpr ⟨hkey, h.valid.nodup⟩, hroom⟩

/-! ## One call -/

theorem evict_clock (t : TLB) : t.evict.clock = t.clock := by
  unfold TLB.evict
  split <;> rfl

theorem evict_cap (t : TLB) : t.evict.cap = t.cap := by
  unfold TLB.evict
  split <;> rfl

/-- **A lookup** finds what the cache finds. -/
theorem Refines.lookup_eq (h : Refines t c) (pid : ℤ) (vpn : ℕ) :
    (t.lookup pid vpn).1 = LruCache.find c (pid, vpn) := by
  unfold TLB.lookup
  cases hfind : t.map.find? (fun kv => kv.1 = (pid, vpn)) with
  | none =>
    symm
    rw [LruCache.find_eq_none_iff, ← h.holds_iff]
    rintro hmem
    obtain ⟨kv, hkv, heq⟩ := List.mem_map.mp hmem
    have hne := List.find?_eq_none.mp hfind kv hkv
    simp [heq] at hne
  | some kv =>
    obtain ⟨key, entry⟩ := kv
    obtain rfl : key = (pid, vpn) := by simpa using List.find?_some hfind
    symm
    rw [LruCache.find_eq_some_iff h.valid.nodup]
    exact h.mem_view (List.mem_of_find?_eq_some hfind)

theorem Refines.lookup (h : Refines t c) (hclock : t.clock + 1 < 2 ^ 64) (pid : ℤ) (vpn : ℕ) :
    Refines (t.lookup pid vpn).2 (LruCache.step t.cap c (.get (pid, vpn))) := by
  have heq := h.lookup_eq pid vpn
  unfold TLB.lookup at heq ⊢
  cases hfind : t.map.find? (fun kv => kv.1 = (pid, vpn)) with
  | none =>
    rw [hfind] at heq
    rw [LruCache.step_get_of_none heq.symm]
    exact h
  | some kv =>
    rw [hfind] at heq
    have hkey : (pid, vpn) ∈ LruCache.keys c := by
      rw [← LruCache.find_isSome_iff, ← heq]
      rfl
    rw [LruCache.step_get_of_some heq.symm]
    dsimp only
    rw [tick_eq hclock]
    have hstore := h.store hkey kv.2.frame
    exact ⟨hstore.recency, hstore.stamp_le, hstore.valid⟩

/-- **An insertion** puts the key into the cache. -/
theorem Refines.insert (h : Refines t c) (hcap : 1 ≤ t.cap) (hclock : t.clock + 1 < 2 ^ 64)
    (pid : ℤ) (vpn frame : ℕ) :
    Refines (t.insert pid vpn frame) (LruCache.step t.cap c (.put (pid, vpn) frame)) := by
  have hany : t.map.any (fun kv => kv.1 = (pid, vpn)) = true ↔ (pid, vpn) ∈ LruCache.keys c := by
    rw [← h.holds_iff, List.any_eq_true, Holds, List.mem_map]
    simp
  have hle := h.valid.length_le
  have hlength := h.length_eq
  rw [LruCache.step, TLB.insert]
  by_cases hkey : (pid, vpn) ∈ LruCache.keys c
  · have hlt := LruCache.length_remove_lt hkey
    rw [if_pos (hany.mpr hkey), tick_eq hclock, List.take_of_length_le]
    · exact h.store hkey frame
    · rw [List.length_cons]
      omega
  · rw [if_neg (fun hin => hkey (hany.mp hin)), LruCache.remove_of_notMem hkey]
    obtain ⟨n, hn⟩ := Nat.exists_eq_add_of_le' hcap
    by_cases hfull : t.cap ≤ t.map.length
    · have hdrop : ((pid, vpn), frame) :: c.dropLast = (((pid, vpn), frame) :: c).take t.cap := by
        rw [hn, List.take_succ_cons, List.dropLast_eq_take, show c.length - 1 = n by omega]
      have hnotin : (pid, vpn) ∉ LruCache.keys c.dropLast := fun hin =>
        hkey ((LruCache.keys_sublist (List.dropLast_sublist c)).subset hin)
      have hroom : c.dropLast.length < t.evict.cap := by
        rw [List.length_dropLast, evict_cap]
        omega
      have hcons := h.evict.cons hnotin hroom frame
      have htick : t.evict.tick = t.evict.clock + 1 := tick_eq (by rw [evict_clock]; exact hclock)
      rw [if_pos hfull, ← hdrop]
      dsimp only
      rw [htick]
      exact hcons
    · rw [if_neg hfull, List.take_of_length_le]
      · dsimp only
        rw [tick_eq hclock]
        exact h.cons hkey (by omega) frame
      · rw [List.length_cons]
        omega

theorem insert_cap (t : TLB) (pid : ℤ) (vpn frame : ℕ) : (t.insert pid vpn frame).cap = t.cap := by
  unfold TLB.insert
  split_ifs
  · rfl
  · exact evict_cap t
  · rfl

theorem lookup_cap (t : TLB) (pid : ℤ) (vpn : ℕ) : (t.lookup pid vpn).2.cap = t.cap := by
  unfold TLB.lookup
  split <;> rfl

theorem call_cap (t : TLB) (k : Call) : (t.call k).cap = t.cap := by
  cases k with
  | lookup pid vpn => exact lookup_cap t pid vpn
  | insert pid vpn frame => exact insert_cap t pid vpn frame
  | invalidate pid vpn => rfl
  | flushPid pid => rfl

/-- A call moves the clock by at most one. -/
theorem call_clock_le (t : TLB) (hclock : t.clock + 1 < 2 ^ 64) (k : Call) :
    (t.call k).clock ≤ t.clock + 1 := by
  have htick := tick_eq hclock
  cases k with
  | lookup pid vpn =>
    show (t.lookup pid vpn).2.clock ≤ t.clock + 1
    unfold TLB.lookup
    split
    · exact Nat.le_succ t.clock
    · exact htick.le
  | insert pid vpn frame =>
    show (t.insert pid vpn frame).clock ≤ t.clock + 1
    unfold TLB.insert
    split_ifs
    · exact htick.le
    · show (t.evict.clock + 1) % 2 ^ 64 ≤ t.clock + 1
      rw [evict_clock]
      exact htick.le
    · exact htick.le
  | invalidate pid vpn => exact Nat.le_succ t.clock
  | flushPid pid => exact Nat.le_succ t.clock

/-- **Each call is the operation of the cache.** -/
theorem Refines.call (h : Refines t c) (hcap : 1 ≤ t.cap) (hclock : t.clock + 1 < 2 ^ 64)
    (k : Call) : Refines (t.call k) (LruCache.step t.cap c k.op) := by
  cases k with
  | lookup pid vpn => exact h.lookup hclock pid vpn
  | insert pid vpn frame => exact h.insert hcap hclock pid vpn frame
  | invalidate pid vpn =>
    have hdrop := h.drop (fun key => !decide (key = (pid, vpn)))
    simp only [← decide_not] at hdrop
    show Refines (t.invalidate pid vpn) (c.filter (fun kv => !decide (kv.1 = (pid, vpn))))
    simp only [← decide_not]
    exact hdrop
  | flushPid pid =>
    have hdrop := h.drop (fun key => !decide (key.1 = pid))
    simp only [← decide_not] at hdrop
    show Refines (t.flushPid pid) (c.filter (fun kv => !decide (kv.1.1 = pid)))
    simp only [← decide_not]
    exact hdrop

theorem Refines.usedBy_eq (h : Refines t c) (k : Call) :
    t.usedBy k = LruCache.used c k.op := by
  cases k with
  | lookup pid vpn =>
    rw [usedBy, Call.op, LruCache.used, h.lookup_eq]
    by_cases hkey : (pid, vpn) ∈ LruCache.keys c
    · rw [if_pos hkey, if_pos (LruCache.find_isSome_iff.mpr hkey)]
    · rw [if_neg hkey, if_neg (fun hfound => hkey (LruCache.find_isSome_iff.mp hfound))]
  | insert pid vpn frame => rfl
  | invalidate pid vpn => rfl
  | flushPid pid => rfl

/-! ## Runs -/

/-- **A sequence of calls is a sequence of operations of the cache**, while the clock does
not wrap, and uses the same pages. -/
theorem Refines.calls (h : Refines t c) (hcap : 1 ≤ t.cap) (cs : List Call)
    (hclock : t.clock + cs.length < 2 ^ 64) :
    Refines (t.calls cs) (LruCache.run t.cap c (cs.map Call.op)) ∧
      t.usedIn cs = LruCache.touched t.cap c (cs.map Call.op) ∧
      (t.calls cs).cap = t.cap ∧ (t.calls cs).clock ≤ t.clock + cs.length := by
  induction cs generalizing t c with
  | nil => exact ⟨h, rfl, rfl, le_rfl⟩
  | cons k cs ih =>
    rw [List.length_cons] at hclock ⊢
    have hle := call_clock_le t (by omega) k
    have hstep := h.call hcap (by omega) k
    have hcap' := call_cap t k
    rw [← hcap'] at hcap
    obtain ⟨hrest, hused, hcap'', hclock'⟩ := ih hstep hcap (by omega)
    rw [hcap'] at hrest hused hcap''
    refine ⟨hrest, ?_, hcap'', by rw [TLB.calls, List.foldl_cons]; exact hclock'.trans (by omega)⟩
    rw [usedIn, List.map_cons, LruCache.touched, h.usedBy_eq, hused]

/-! ## Lookups and retention -/

/-- The pages of a cache with least-recently-used replacement after the calls, newest first.
They depend on the calls alone, and not on stamps or on the map. -/
def lruPages (cap : ℕ) (cs : List Call) : List Page :=
  LruCache.keys (LruCache.run cap [] (cs.map Call.op))

/-- The call takes the place of the page: a new page is inserted, and the page is the least
recently used one of `cap` pages. -/
def Call.Displaces (cap : ℕ) (cs : List Call) (key : Page) : Call → Prop
  | .insert pid vpn _ => (pid, vpn) ∉ lruPages cap cs ∧ (lruPages cap cs).length = cap ∧
      (lruPages cap cs).getLast? = some key
  | _ => False

/-- The last insertion of the page stored the frame, and no call has removed the page since:
neither a call of the client nor the insertion of another page. -/
def StoredLast (cap : ℕ) (cs : List Call) (key : Page) (f : ℕ) : Prop :=
  ∃ pre post, cs = pre ++ .insert key.1 key.2 f :: post ∧
    ∀ post₁ k post₂, post = post₁ ++ k :: post₂ →
      ¬ k.Inserts key ∧ ¬ k.Removes key ∧
        ¬ k.Displaces cap (pre ++ .insert key.1 key.2 f :: post₁) key

theorem Call.puts_op_iff (k : Call) (key : Page) : k.op.Puts key ↔ k.Inserts key := by
  cases k <;> exact Iff.rfl

theorem Call.drops_op_iff (k : Call) (key : Page) : k.op.Drops key ↔ k.Removes key := by
  cases k with
  | lookup pid vpn => exact Iff.rfl
  | insert pid vpn frame => exact Iff.rfl
  | invalidate pid vpn =>
    show decide (key = (pid, vpn)) = true ↔ (pid, vpn) = key
    rw [decide_eq_true_iff]
    exact eq_comm
  | flushPid pid => exact decide_eq_true_iff

/-- The only call that puts a frame in is its insertion. -/
theorem Call.op_eq_put {k : Call} (h : k.op = .put key f) : k = .insert key.1 key.2 f := by
  cases k with
  | lookup pid vpn => cases h
  | insert pid vpn frame =>
    obtain ⟨rfl, rfl⟩ := LruCache.Op.put.inj h
    rfl
  | invalidate pid vpn => cases h
  | flushPid pid => cases h

/-- Runs from the empty TLB. -/
theorem refines_calls {cap : ℕ} (hcap : 1 ≤ cap) {cs : List Call} (h : cs.length < 2 ^ 64) :
    Refines (TLB.calls { cap := cap } cs) (LruCache.run cap [] (cs.map Call.op)) ∧
      (TLB.calls { cap := cap } cs).cap = cap := by
  have hclock : ({ cap := cap } : TLB).clock + cs.length < 2 ^ 64 := by
    show 0 + cs.length < 2 ^ 64
    omega
  obtain ⟨hrefines, -, hcap', -⟩ := (refines_start cap).calls hcap _ hclock
  exact ⟨hrefines, hcap'⟩

/-- The call takes the place of the page exactly if its operation replaces it. -/
theorem Call.replaces_op_iff (k : Call) (cap : ℕ) (cs : List Call) (key : Page) :
    k.op.Replaces cap (LruCache.run cap [] (cs.map Call.op)) key ↔ k.Displaces cap cs key := by
  have hlength : (lruPages cap cs).length = (LruCache.run cap [] (cs.map Call.op)).length :=
    List.length_map _
  cases k with
  | insert pid vpn frame =>
    show _ ∧ _ ∧ _ ↔ _ ∧ (lruPages cap cs).length = cap ∧ _
    rw [hlength]
    exact Iff.rfl
  | _ => exact Iff.rfl

/-- What the TLB has stored last is what the cache has put in last. -/
theorem storedLast_iff {cap : ℕ} {cs : List Call} :
    StoredLast cap cs key f ↔ LruCache.PutLast cap (cs.map Call.op) key f := by
  have hquiet : ∀ (k : Call) (pre post₁ : List Call),
      (¬ k.op.Puts key ∧ ¬ k.op.Drops key ∧ ¬ k.op.Replaces cap
        (LruCache.run cap [] (pre.map Call.op ++ .put key f :: post₁.map Call.op)) key) ↔
      (¬ k.Inserts key ∧ ¬ k.Removes key ∧
        ¬ k.Displaces cap (pre ++ .insert key.1 key.2 f :: post₁) key) := by
    intro k pre post₁
    rw [k.puts_op_iff, k.drops_op_iff, ← k.replaces_op_iff, List.map_append, List.map_cons]
    rfl
  constructor
  · rintro ⟨pre, post, heq, hsince⟩
    refine ⟨pre.map Call.op, post.map Call.op, ?_, fun ops op ops' hops => ?_⟩
    · rw [heq, List.map_append, List.map_cons]
      rfl
    · obtain ⟨post₁, rest, rfl, rfl, hrest⟩ := List.map_eq_append_iff.mp hops
      obtain ⟨k, post₂, rfl, rfl, rfl⟩ := List.map_eq_cons_iff.mp hrest
      exact (hquiet k pre post₁).mpr (hsince post₁ k post₂ rfl)
  · rintro ⟨pre, post, heq, hsince⟩
    obtain ⟨pre', rest, rfl, rfl, hrest⟩ := List.map_eq_append_iff.mp heq
    obtain ⟨k, post', rfl, hk, rfl⟩ := List.map_eq_cons_iff.mp hrest
    obtain rfl := Call.op_eq_put hk
    refine ⟨pre', post', rfl, ?_⟩
    rintro post₁ k post₂ rfl
    refine (hquiet k pre' post₁).mp (hsince _ k.op (post₂.map Call.op) ?_)
    rw [List.map_append, List.map_cons]

/-- **A page that has been used stays** while fewer than `cap` others are used. -/
theorem holds_of_used {cap : ℕ} (hcap : 1 ≤ cap) {pre post : List Call} {use : Call}
    (h : (pre ++ use :: post).length < 2 ^ 64)
    (hused : key ∈ (TLB.calls { cap := cap } pre).usedBy use)
    (hremoves : ∀ k ∈ post, ¬ k.Removes key)
    (hcard : (((TLB.calls { cap := cap } (pre ++ [use])).usedIn post).erase key).card < cap) :
    (TLB.calls { cap := cap } (pre ++ use :: post)).Holds key := by
  simp only [List.length_append, List.length_cons] at h
  have hclock : ({ cap := cap } : TLB).clock + pre.length < 2 ^ 64 := by
    show 0 + pre.length < 2 ^ 64
    omega
  have hclock' : ({ cap := cap } : TLB).clock + (pre ++ [use]).length < 2 ^ 64 := by
    show 0 + (pre ++ [use]).length < 2 ^ 64
    simp only [List.length_append, List.length_singleton]
    omega
  obtain ⟨hpre, -, hcappre, -⟩ := (refines_start cap).calls hcap _ hclock
  obtain ⟨huse, -, hcapuse, hle⟩ := (refines_start cap).calls hcap _ hclock'
  have hle' : (TLB.calls { cap := cap } (pre ++ [use])).clock ≤ 0 + (pre ++ [use]).length := hle
  simp only [List.length_append, List.length_singleton] at hle'
  have hcapuse' : (TLB.calls { cap := cap } (pre ++ [use])).cap = cap := hcapuse
  obtain ⟨hpost, htouched, -, -⟩ := huse.calls
    (by rw [hcapuse']; exact hcap) post (by omega)
  rw [hcapuse'] at hpost htouched
  have hstep : LruCache.run cap [] ((pre ++ [use]).map Call.op)
      = LruCache.step cap (LruCache.run cap [] (pre.map Call.op)) use.op := by
    rw [List.map_append]
    exact LruCache.run_append_singleton _ _ _
  have hvalid := (LruCache.valid_nil cap).run (pre.map Call.op)
  have hkey := LruCache.mem_keys_run_of_touched (post.map Call.op) hvalid hcap
    (by rw [← hpre.usedBy_eq use]; exact hused)
    (by
      intro op hop hdrops
      obtain ⟨k, hk, rfl⟩ := List.mem_map.mp hop
      exact hremoves k hk ((k.drops_op_iff key).mp hdrops))
    (by
      rw [← hstep]
      rw [htouched] at hcard
      exact hcard)
  rw [← hstep] at hkey
  have hcalls : TLB.calls { cap := cap } (pre ++ use :: post)
      = TLB.calls (TLB.calls { cap := cap } (pre ++ [use])) post := by
    unfold TLB.calls
    rw [← List.foldl_append, List.append_assoc, List.singleton_append]
  rw [hcalls, hpost.holds_iff]
  exact hkey

/-- **The TLB is an LRU cache.**  After every sequence of fewer than `2 ^ 64` calls on a TLB
of positive capacity: it holds at most `cap` entries, one for a page; the stamps are
distinct and not ahead of the clock, so that in whatever order `evict` walks the map it
finds the same entry; a lookup returns the frame that the last insertion of the page stored,
if no call has removed the page since; it returns none once the page has been invalidated
or flushed, until it is inserted again; the pages held are those of a cache with
least-recently-used replacement; and a page that was inserted or hit is still there unless
it was invalidated or flushed, or `cap` other pages have been inserted or hit since. -/
theorem tlb_is_lru (cap : ℕ) (hcap : 1 ≤ cap) (cs : List Call) (h : cs.length < 2 ^ 64) :
    ∃ t, t = TLB.calls { cap := cap } cs ∧
      t.map.length ≤ cap ∧
      (t.map.map Prod.fst).Nodup ∧
      (t.map.map (fun kv => kv.2.stamp)).Nodup ∧
      (∀ kv ∈ t.map, kv.2.stamp ≤ t.clock) ∧
      (∀ x l, (x :: l).Perm t.map →
        t.evict = { t with map := t.map.erase ((x :: l).foldl older x) }) ∧
      (∀ pid vpn f, (t.lookup pid vpn).1 = some f ↔ StoredLast cap cs (pid, vpn) f) ∧
      (∀ key pre k post, cs = pre ++ k :: post → k.Removes key →
        (∀ k' ∈ post, ¬ k'.Inserts key) → (t.lookup key.1 key.2).1 = none) ∧
      (t.map.map Prod.fst).Perm (lruPages cap cs) ∧
      ∀ key pre use post, cs = pre ++ use :: post →
        key ∈ (TLB.calls { cap := cap } pre).usedBy use →
        (∀ k ∈ post, ¬ k.Removes key) →
        (((TLB.calls { cap := cap } (pre ++ [use])).usedIn post).erase key).card < cap →
        t.Holds key := by
  obtain ⟨hrefines, hcap'⟩ := refines_calls hcap h
  refine ⟨_, rfl, ?_, hrefines.nodup_keys, hrefines.nodup_stamps, hrefines.stamp_le, ?_, ?_, ?_,
    hrefines.keys_perm.symm, ?_⟩
  · rw [hrefines.length_eq]
    exact hrefines.valid.length_le.trans hcap'.le
  · intro x l hperm
    have hstamps := hrefines.nodup_stamps
    unfold TLB.evict
    generalize TLB.calls { cap := cap } cs = t at hperm hstamps ⊢
    match hmap : t.map with
    | [] =>
      rw [hmap] at hperm
      exact absurd hperm.symm.nil_eq (by simp)
    | y :: l' =>
      rw [hmap] at hperm hstamps
      dsimp only
      rw [foldl_older_perm hperm.symm hstamps]
  · intro pid vpn f
    rw [hrefines.lookup_eq, LruCache.find_run_iff hcap, storedLast_iff]
  · rintro key pre k post rfl hremoves hinserts
    rw [hrefines.lookup_eq, List.map_append, List.map_cons]
    refine LruCache.find_run_of_drops ((k.drops_op_iff key).mpr hremoves) ?_
    rw [List.forall_mem_map]
    exact fun k' hk' hputs => hinserts k' hk' ((k'.puts_op_iff key).mp hputs)
  · rintro key pre use post rfl hused hremoves hcard
    exact holds_of_used hcap h hused hremoves hcard

/-- Two entries: the first page is hit, so that the third page takes the place of the second
one; the process of the third page is flushed, and a fourth page is invalidated. -/
def hitAndReplace : List Call :=
  [.insert 1 0 5, .insert 1 1 6, .lookup 1 0, .insert 2 0 7, .lookup 1 1, .flushPid 2,
    .lookup 1 0, .insert 3 4 8, .invalidate 3 4]

/-- The first page is found, and none of the three that were removed. -/
theorem hitAndReplace_is_lru :
    ∃ t, t = TLB.calls { cap := 2 } hitAndReplace ∧ t.map = [((1, 0), ⟨5, 5⟩)] ∧
      StoredLast 2 hitAndReplace (1, 0) 5 ∧ t.Holds (1, 0) ∧
      (∀ f, ¬ StoredLast 2 hitAndReplace (1, 1) f) ∧
      (t.lookup 2 0).1 = none ∧ (t.lookup 3 4).1 = none := by
  obtain ⟨t, rfl, -, -, -, -, -, hlookup, hremoved, -, hkeep⟩ :=
    tlb_is_lru 2 (by decide) hitAndReplace (by decide)
  refine ⟨_, rfl, by decide, (hlookup 1 0 5).mp (by decide), ?_, fun f hf => ?_, ?_, ?_⟩
  · refine hkeep (1, 0) (hitAndReplace.take 6) (.lookup 1 0) [.insert 3 4 8, .invalidate 3 4] rfl
      (by decide) ?_ (by decide)
    intro k hk
    fin_cases hk <;> simp [Call.Removes]
  · have hfound := (hlookup 1 1 f).mpr hf
    have hnone : ((TLB.calls { cap := 2 } hitAndReplace).lookup 1 1).1 = none := by decide
    rw [hnone] at hfound
    cases hfound
  · refine hremoved (2, 0) (hitAndReplace.take 5) (.flushPid 2) _ rfl rfl ?_
    intro k hk
    fin_cases hk <;> simp [Call.Inserts]
  · refine hremoved (3, 4) (hitAndReplace.take 8) (.invalidate 3 4) [] rfl rfl ?_
    exact fun k hk => absurd hk List.not_mem_nil

end TLB

end Memlab
