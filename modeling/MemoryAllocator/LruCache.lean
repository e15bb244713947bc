/-
# Caches with least-recently-used replacement

A cache of at most `cap` keys with their values, as a list with the most recently used key
first.  A key is used when it is looked up and found, and when it is put in; putting a new
key into a full cache drops the last key of the list.  A client may also drop all keys
with a property.

* `find_run_iff` : a lookup finds what was put in last, unless the key was dropped or replaced
  since;
* `mem_keys_run_of_touched` : a key that has been used is not replaced before `cap` other
  keys have been used.

The module names nothing of any program.
-/
import Mathlib

namespace LruCache

variable {κ ν : Type*}

/-- The operations of a client. -/
inductive Op (κ ν : Type*) where
  | get (k : κ)
  | put (k : κ) (v : ν)
  | drop (p : κ → Bool)

/-- The keys of a cache. -/
def keys (c : List (κ × ν)) : List κ := c.map Prod.fst

/-- What every cache is: no key is in it twice, and it has at most `cap` keys. -/
structure Valid (cap : ℕ) (c : List (κ × ν)) : Prop where
  nodup : (keys c).Nodup
  length_le : c.length ≤ cap

section Keys

variable {cap : ℕ} {c c' : List (κ × ν)} {k : κ} {v : ν}

theorem mem_keys_of_mem (h : (k, v) ∈ c) : k ∈ keys c := List.mem_map_of_mem h

theorem mem_keys_iff : k ∈ keys c ↔ ∃ v, (k, v) ∈ c := by
  rw [keys, List.mem_map]
  constructor
  · rintro ⟨⟨k', v⟩, hmem, rfl⟩
    exact ⟨v, hmem⟩
  · rintro ⟨v, hmem⟩
    exact ⟨(k, v), hmem, rfl⟩

theorem keys_sublist (h : c'.Sublist c) : (keys c').Sublist (keys c) := h.map Prod.fst

theorem Valid.sublist (h : Valid cap c) (hsub : c'.Sublist c) : Valid cap c' where
  nodup := h.nodup.sublist (keys_sublist hsub)
  length_le := hsub.length_le.trans h.length_le

theorem valid_nil (cap : ℕ) : Valid cap ([] : List (κ × ν)) :=
  ⟨List.nodup_nil, Nat.zero_le cap⟩

end Keys

variable [DecidableEq κ]

/-- The cache without a key. -/
def remove (k : κ) (c : List (κ × ν)) : List (κ × ν) := c.filter (fun kv => kv.1 ≠ k)

/-- What is stored under a key. -/
def find (c : List (κ × ν)) (k : κ) : Option ν := (c.find? (fun kv => kv.1 = k)).map Prod.snd

/-- One operation. -/
def step (cap : ℕ) (c : List (κ × ν)) : Op κ ν → List (κ × ν)
  | .get k =>
    match find c k with
    | none => c
    | some v => (k, v) :: remove k c
  | .put k v => ((k, v) :: remove k c).take cap
  | .drop p => c.filter (fun kv => !p kv.1)

/-- A sequence of operations. -/
def run (cap : ℕ) (c : List (κ × ν)) (ops : List (Op κ ν)) : List (κ × ν) :=
  ops.foldl (step cap) c

/-- The key that an operation uses. -/
def used (c : List (κ × ν)) : Op κ ν → Finset κ
  | .get k => if k ∈ keys c then {k} else ∅
  | .put k _ => {k}
  | .drop _ => ∅

/-- The keys that a sequence of operations uses. -/
def touched (cap : ℕ) : List (κ × ν) → List (Op κ ν) → Finset κ
  | _, [] => ∅
  | c, op :: ops => used c op ∪ touched cap (step cap c op) ops

/-- The operation drops the key. -/
def Op.Drops (k : κ) : Op κ ν → Prop
  | .drop p => p k = true
  | _ => False

/-- The operation puts the key in. -/
def Op.Puts (k : κ) : Op κ ν → Prop
  | .put k' _ => k' = k
  | _ => False

/-- The operation puts a new key into a full cache, in which this key is the least recently
used one. -/
def Op.Replaces (cap : ℕ) (c : List (κ × ν)) (k : κ) : Op κ ν → Prop
  | .put k' _ => k' ∉ keys c ∧ c.length = cap ∧ (keys c).getLast? = some k
  | _ => False

variable {cap : ℕ} {c c' l₁ l₂ : List (κ × ν)} {k k' : κ} {v : ν} {op : Op κ ν}
  {ops : List (Op κ ν)}

/-! ## Keys and values -/

theorem mem_remove : (k', v) ∈ remove k c ↔ (k', v) ∈ c ∧ k' ≠ k := by
  rw [remove, List.mem_filter]
  simp

theorem mem_keys_remove : k' ∈ keys (remove k c) ↔ k' ∈ keys c ∧ k' ≠ k := by
  rw [mem_keys_iff, mem_keys_iff]
  constructor
  · rintro ⟨v, hv⟩
    obtain ⟨hmem, hne⟩ := mem_remove.mp hv
    exact ⟨⟨v, hmem⟩, hne⟩
  · rintro ⟨⟨v, hmem⟩, hne⟩
    exact ⟨v, mem_remove.mpr ⟨hmem, hne⟩⟩

theorem find_eq_none_iff : find c k = none ↔ k ∉ keys c := by
  rw [find, Option.map_eq_none_iff, List.find?_eq_none, mem_keys_iff, not_exists]
  constructor
  · intro hnone v hv
    exact hnone (k, v) hv (by simp)
  · rintro hnone ⟨k', v⟩ hmem
    by_contra hk
    obtain rfl : k' = k := by simpa using hk
    exact hnone v hmem

theorem find_isSome_iff : (find c k).isSome ↔ k ∈ keys c := by
  rw [← not_iff_not, ← find_eq_none_iff]
  simp

/-- A lookup finds an entry, and there is only one. -/
theorem find_eq_some_iff (hnodup : (keys c).Nodup) : find c k = some v ↔ (k, v) ∈ c := by
  constructor
  · intro hfind
    obtain ⟨⟨k', v'⟩, hentry, rfl⟩ := Option.map_eq_some_iff.mp hfind
    obtain rfl : k' = k := by simpa using List.find?_some hentry
    exact List.mem_of_find?_eq_some hentry
  · intro hmem
    cases hfind : find c k with
    | none => exact absurd (mem_keys_of_mem hmem) (find_eq_none_iff.mp hfind)
    | some v' =>
      obtain ⟨⟨k', v'⟩, hentry, rfl⟩ := Option.map_eq_some_iff.mp hfind
      obtain rfl : k' = k := by simpa using List.find?_some hentry
      have hpair := List.inj_on_of_nodup_map hnodup (List.mem_of_find?_eq_some hentry) hmem rfl
      rw [(Prod.mk.inj hpair).2]

theorem remove_append : remove k (l₁ ++ l₂) = remove k l₁ ++ remove k l₂ :=
  List.filter_append l₁ l₂

theorem remove_cons_of_ne (hne : k' ≠ k) (v : ν) :
    remove k ((k', v) :: c) = (k', v) :: remove k c := by
  rw [remove, List.filter_cons_of_pos (by simpa using hne), remove]

/-- A cache without the key loses nothing. -/
theorem remove_of_notMem (h : k ∉ keys c) : remove k c = c := by
  rw [remove, List.filter_eq_self]
  rintro ⟨k', v⟩ hmem
  have hne : k' ≠ k := by
    rintro rfl
    exact h (mem_keys_of_mem hmem)
  simpa using hne

/-- Another key that is put in front takes none away. -/
theorem mem_keys_cons_remove (hk : k ∈ keys c) (k' : κ) (v' : ν) :
    k ∈ keys ((k', v') :: remove k' c) := by
  by_cases heq : k = k'
  · rw [heq]
    exact List.mem_cons_self
  · exact List.mem_cons_of_mem _ (mem_keys_remove.mpr ⟨hk, heq⟩)

theorem length_remove_lt (h : k ∈ keys c) : (remove k c).length < c.length := by
  obtain ⟨v, hmem⟩ := mem_keys_iff.mp h
  rw [remove, List.length_filter_lt_length_iff_exists]
  exact ⟨(k, v), hmem, by simp⟩

/-! ## One operation -/

theorem step_get_of_none (h : find c k = none) : step cap c (.get k) = c := by
  rw [step, h]

theorem step_get_of_some (h : find c k = some v) :
    step cap c (.get k) = (k, v) :: remove k c := by
  rw [step, h]

theorem nodup_keys_cons_remove (hnodup : (keys c).Nodup) (k : κ) (v : ν) :
    (keys ((k, v) :: remove k c)).Nodup := by
  refine List.nodup_cons.mpr ⟨fun hk => (mem_keys_remove.mp hk).2 rfl, ?_⟩
  exact hnodup.sublist (keys_sublist List.filter_sublist)

/-- **An operation keeps a cache a cache.** -/
theorem Valid.step (h : Valid cap c) (op : Op κ ν) : Valid cap (step cap c op) := by
  cases op with
  | get k =>
    cases hfind : find c k with
    | none =>
      rw [step_get_of_none hfind]
      exact h
    | some v =>
      rw [step_get_of_some hfind]
      have hk : k ∈ keys c := by
        rw [← find_isSome_iff, hfind]
        rfl
      have hlt := length_remove_lt hk
      have hle := h.length_le
      exact ⟨nodup_keys_cons_remove h.nodup k v, by simp only [List.length_cons]; omega⟩
  | put k v =>
    refine ⟨(nodup_keys_cons_remove h.nodup k v).sublist (keys_sublist (List.take_sublist ..)), ?_⟩
    exact List.length_take_le cap _
  | drop p => exact h.sublist List.filter_sublist

theorem Valid.run (h : Valid cap c) (ops : List (Op κ ν)) : Valid cap (run cap c ops) := by
  induction ops generalizing c with
  | nil => exact h
  | cons op ops ih => exact ih (h.step op)

theorem run_append (c : List (κ × ν)) (ops ops' : List (Op κ ν)) :
    run cap c (ops ++ ops') = run cap (run cap c ops) ops' :=
  List.foldl_append

theorem run_append_singleton (c : List (κ × ν)) (ops : List (Op κ ν)) (op : Op κ ν) :
    run cap c (ops ++ [op]) = step cap (run cap c ops) op :=
  run_append c ops [op]

/-- A key that is put in is there. -/
theorem find_step_put (hcap : 1 ≤ cap) (c : List (κ × ν)) (k : κ) (v : ν) :
    find (step cap c (.put k v)) k = some v := by
  obtain ⟨n, rfl⟩ := Nat.exists_eq_add_of_le' hcap
  simp [step, find, List.take_succ_cons]

/-- **An operation that does not put the key in** leaves its value, or removes it. -/
theorem find_of_find_step (h : Valid cap c) (hputs : ¬ op.Puts k)
    (hfind : find (step cap c op) k = some v) : find c k = some v := by
  rw [find_eq_some_iff h.nodup]
  have hmem := (find_eq_some_iff (h.step op).nodup).mp hfind
  cases op with
  | get k' =>
    cases hget : find c k' with
    | none =>
      rw [step_get_of_none hget] at hmem
      exact hmem
    | some v' =>
      rw [step_get_of_some hget] at hmem
      rcases List.mem_cons.mp hmem with heq | hold
      · obtain ⟨rfl, rfl⟩ := Prod.mk.inj heq
        exact (find_eq_some_iff h.nodup).mp hget
      · exact (mem_remove.mp hold).1
  | put k' v' =>
    rcases List.mem_cons.mp (List.mem_of_mem_take hmem) with heq | hold
    · exact absurd (Prod.mk.inj heq).1.symm hputs
    · exact (mem_remove.mp hold).1
  | drop p => exact List.mem_of_mem_filter hmem

/-! ## What a lookup finds -/

omit [DecidableEq κ] in
/-- A new key in front of a full cache takes the place of the last one. -/
theorem mem_keys_take_cons (hnodup : (keys c).Nodup) (hk : k ∈ keys c) (hne : k ≠ k') (v' : ν) :
    k ∈ keys (((k', v') :: c).take c.length) ↔ (keys c).getLast? ≠ some k := by
  obtain ⟨c₀, last, rfl⟩ : ∃ c₀ last, c = c₀ ++ [last] := by
    rcases List.eq_nil_or_concat c with rfl | ⟨c₀, last, rfl⟩
    · exact absurd hk List.not_mem_nil
    · exact ⟨c₀, last, List.concat_eq_append⟩
  have hkeys : keys (c₀ ++ [last]) = keys c₀ ++ [last.1] := List.map_append
  have hcons : k ∈ keys ((k', v') :: c₀) ↔ k ∈ keys c₀ := by
    show k ∈ k' :: keys c₀ ↔ _
    rw [List.mem_cons, or_iff_right hne]
  rw [hkeys] at hnodup hk ⊢
  rw [List.length_append, List.length_singleton, List.take_succ_cons, List.take_left, hcons,
    List.getLast?_concat, ne_eq, Option.some_inj]
  constructor
  · rintro hin rfl
    exact (List.nodup_append.mp hnodup).2.2 _ hin _ (List.mem_singleton_self _) rfl
  · intro hother
    rw [List.mem_append, List.mem_singleton] at hk
    exact hk.resolve_right (fun heq => hother heq.symm)

/-- **A key goes** when it is dropped or replaced, and not otherwise. -/
theorem mem_keys_step_iff (h : Valid cap c) (hk : k ∈ keys c) (hputs : ¬ op.Puts k) :
    k ∈ keys (step cap c op) ↔ ¬ op.Drops k ∧ ¬ op.Replaces cap c k := by
  cases op with
  | get k' =>
    have hkeep : k ∈ keys (step cap c (.get k')) := by
      cases hfind : find c k' with
      | none =>
        rw [step_get_of_none hfind]
        exact hk
      | some v' =>
        rw [step_get_of_some hfind]
        exact mem_keys_cons_remove hk k' v'
    exact iff_of_true hkeep ⟨id, id⟩
  | put k' v' =>
    have hle := h.length_le
    have hne : k ≠ k' := fun heq => hputs heq.symm
    have hdrops : ¬ (Op.put k' v' : Op κ ν).Drops k := id
    rw [and_iff_right hdrops, step]
    by_cases hk' : k' ∈ keys c
    · -- the key that is put in leaves its own place
      have hlt := length_remove_lt hk'
      rw [List.take_of_length_le (by rw [List.length_cons]; omega)]
      exact iff_of_true (mem_keys_cons_remove hk k' v') (fun hreplaces => hreplaces.1 hk')
    · rw [remove_of_notMem hk']
      by_cases hfull : c.length = cap
      · rw [← hfull, mem_keys_take_cons h.nodup hk hne]
        exact not_congr ⟨fun hlast => ⟨hk', rfl, hlast⟩, fun hreplaces => hreplaces.2.2⟩
      · rw [List.take_of_length_le (by rw [List.length_cons]; omega)]
        exact iff_of_true (List.mem_cons_of_mem _ hk) (fun hreplaces => hfull hreplaces.2.1)
  | drop p =>
    have hreplaces : ¬ (Op.drop p : Op κ ν).Replaces cap c k := id
    have hdrops : (Op.drop p : Op κ ν).Drops k ↔ p k = true := Iff.rfl
    rw [and_iff_left hreplaces, hdrops, step, mem_keys_iff]
    constructor
    · rintro ⟨v, hv⟩
      simpa using (List.mem_filter.mp hv).2
    · intro hp
      obtain ⟨v, hv⟩ := mem_keys_iff.mp hk
      exact ⟨v, List.mem_filter.mpr ⟨hv, by simpa using hp⟩⟩

/-- The value was put in last under the key, which was neither dropped nor replaced since. -/
def PutLast (cap : ℕ) (ops : List (Op κ ν)) (k : κ) (v : ν) : Prop :=
  ∃ pre post, ops = pre ++ .put k v :: post ∧
    ∀ post₁ op post₂, post = post₁ ++ op :: post₂ →
      ¬ op.Puts k ∧ ¬ op.Drops k ∧ ¬ op.Replaces cap (run cap [] (pre ++ .put k v :: post₁)) k

/-- **A lookup finds what was put in last**, unless the key was dropped or replaced since. -/
theorem find_run_iff (hcap : 1 ≤ cap) :
    find (run cap [] ops) k = some v ↔ PutLast cap ops k v := by
  constructor
  · intro hfind
    induction ops using List.reverseRecOn with
    | nil => cases hfind
    | append_singleton ops op ih =>
      have hmem : k ∈ keys (run cap [] (ops ++ [op])) := by
        rw [← find_isSome_iff, hfind]
        rfl
      rw [run_append_singleton] at hfind hmem
      by_cases hputs : op.Puts k
      · obtain ⟨v', rfl⟩ : ∃ v', op = .put k v' := by
          cases op with
          | get k' => exact hputs.elim
          | put k' v' =>
            have hk : k' = k := hputs
            exact ⟨v', by rw [hk]⟩
          | drop p => exact hputs.elim
        rw [find_step_put hcap] at hfind
        obtain rfl := Option.some.inj hfind
        exact ⟨ops, [], rfl, fun post₁ op' post₂ heq => absurd heq (by simp)⟩
      · have hvalid := (valid_nil cap).run ops
        have hfound := find_of_find_step hvalid hputs hfind
        obtain ⟨pre, post, rfl, hquiet⟩ := ih hfound
        have hk : k ∈ keys (run cap [] (pre ++ .put k v :: post)) := by
          rw [← find_isSome_iff, hfound]
          rfl
        obtain ⟨hdrops, hreplaces⟩ := (mem_keys_step_iff hvalid hk hputs).mp hmem
        refine ⟨pre, post ++ [op], by simp, fun post₁ op' post₂ heq => ?_⟩
        rcases List.eq_nil_or_concat post₂ with rfl | ⟨post₃, op'', rfl⟩
        · obtain ⟨rfl, hop⟩ := List.append_inj' heq rfl
          obtain rfl := List.singleton_inj.mp hop
          exact ⟨hputs, hdrops, hreplaces⟩
        · rw [List.concat_eq_append, ← List.cons_append, ← List.append_assoc] at heq
          obtain ⟨rfl, -⟩ := List.append_inj' heq rfl
          exact hquiet post₁ op' post₃ rfl
  · rintro ⟨pre, post, rfl, hquiet⟩
    induction post using List.reverseRecOn with
    | nil =>
      rw [run_append_singleton]
      exact find_step_put hcap _ k v
    | append_singleton post op ih =>
      have hold : find (run cap [] (pre ++ .put k v :: post)) k = some v := by
        apply ih
        intro post₁ op' post₂ heq
        exact hquiet post₁ op' (post₂ ++ [op]) (by rw [heq]; simp)
      obtain ⟨hputs, hdrops, hreplaces⟩ := hquiet post op [] rfl
      have hvalid := (valid_nil cap).run (pre ++ .put k v :: post)
      have hk : k ∈ keys (run cap [] (pre ++ .put k v :: post)) := by
        rw [← find_isSome_iff, hold]
        rfl
      have hmem := (mem_keys_step_iff hvalid hk hputs).mpr ⟨hdrops, hreplaces⟩
      have hlist : pre ++ .put k v :: (post ++ [op]) = pre ++ .put k v :: post ++ [op] := by simp
      rw [hlist, run_append_singleton]
      obtain ⟨v', hv'⟩ := Option.isSome_iff_exists.mp (find_isSome_iff.mpr hmem)
      have hsame := find_of_find_step hvalid hputs hv'
      rw [hv', ← hsame, hold]

/-- **A key that was dropped is not found** until it is put in again. -/
theorem find_run_of_drops {pre : List (Op κ ν)} (hdrops : op.Drops k)
    (hputs : ∀ op' ∈ ops, ¬ op'.Puts k) :
    find (run cap [] (pre ++ op :: ops)) k = none := by
  induction ops using List.reverseRecOn with
  | nil =>
    rw [run_append_singleton, find_eq_none_iff, mem_keys_iff]
    rintro ⟨v, hv⟩
    cases op with
    | get k' => exact hdrops
    | put k' v' => exact hdrops
    | drop p =>
      have hkept := (List.mem_filter.mp hv).2
      have hp : p k = true := hdrops
      simp [hp] at hkept
  | append_singleton ops op' ih =>
    have hnone := ih (fun op'' hop'' => hputs op'' (List.mem_append_left _ hop''))
    have hlist : pre ++ op :: (ops ++ [op']) = pre ++ op :: ops ++ [op'] := by simp
    rw [hlist, run_append_singleton]
    by_contra hsome
    obtain ⟨v, hv⟩ := Option.ne_none_iff_exists'.mp hsome
    have hfound := find_of_find_step ((valid_nil cap).run _) (hputs op' (by simp)) hv
    rw [hnone] at hfound
    cases hfound

/-! ## How long a key stays -/

/-- The key is in the cache, and the keys before it are among those that have been used. -/
def Recent (k : κ) (S : Finset κ) (c : List (κ × ν)) : Prop :=
  ∃ l₁ v l₂, c = l₁ ++ (k, v) :: l₂ ∧ ∀ kv ∈ l₁, kv.1 ∈ S.erase k

theorem recent_cons (k : κ) (v : ν) (S : Finset κ) (l : List (κ × ν)) :
    Recent k S ((k, v) :: l) :=
  ⟨[], v, l, rfl, by simp⟩

theorem Recent.mem {S : Finset κ} (h : Recent k S c) : k ∈ keys c := by
  obtain ⟨l₁, v, l₂, rfl, -⟩ := h
  exact mem_keys_of_mem (v := v) (by simp)

/-- A key that is used is the first one after that. -/
theorem recent_of_used (hcap : 1 ≤ cap) (h : k ∈ used c op) (S : Finset κ) :
    Recent k S (step cap c op) := by
  cases op with
  | get k' =>
    rw [used] at h
    split_ifs at h with hk'
    · obtain rfl := Finset.mem_singleton.mp h
      obtain ⟨v, hv⟩ := Option.isSome_iff_exists.mp (find_isSome_iff.mpr hk')
      rw [step_get_of_some hv]
      exact recent_cons k v S _
    · exact absurd h (Finset.notMem_empty k)
  | put k' v' =>
    obtain rfl := Finset.mem_singleton.mp h
    obtain ⟨n, rfl⟩ := Nat.exists_eq_add_of_le' hcap
    rw [step, List.take_succ_cons]
    exact recent_cons k v' S _
  | drop p => exact absurd h (Finset.notMem_empty k)

/-- Using another key puts it before this one. -/
theorem Recent.cons_remove {S : Finset κ} (h : Recent k S c) (hne : k' ≠ k) (v' : ν) :
    Recent k (S ∪ {k'}) ((k', v') :: remove k' c) := by
  obtain ⟨l₁, v, l₂, rfl, hfront⟩ := h
  refine ⟨(k', v') :: remove k' l₁, v, remove k' l₂, ?_, ?_⟩
  · rw [remove_append, remove_cons_of_ne (Ne.symm hne), List.cons_append]
  · intro kv hkv
    rcases List.mem_cons.mp hkv with rfl | hold
    · simp [hne]
    · have hmem := hfront kv (List.mem_of_mem_filter hold)
      rw [Finset.mem_erase] at hmem ⊢
      exact ⟨hmem.1, Finset.mem_union_left _ hmem.2⟩

/-- **A key stays among the first `cap`** while fewer than `cap` others are before it. -/
theorem Recent.take {S : Finset κ} (h : Recent k S c) (hnodup : (keys c).Nodup)
    (hcard : (S.erase k).card < cap) : Recent k S (c.take cap) := by
  obtain ⟨l₁, v, l₂, rfl, hfront⟩ := h
  have hlength : l₁.length ≤ (S.erase k).card := by
    have hnodup₁ : (keys l₁).Nodup := hnodup.sublist (keys_sublist (List.sublist_append_left ..))
    have hkeys : (keys l₁).length = l₁.length := List.length_map Prod.fst
    rw [← hkeys, ← List.toFinset_card_of_nodup hnodup₁]
    apply Finset.card_le_card
    intro k' hk'
    obtain ⟨kv, hkv, rfl⟩ := List.mem_map.mp (List.mem_toFinset.mp hk')
    exact hfront kv hkv
  obtain ⟨n, hn⟩ : ∃ n, cap - l₁.length = n + 1 := ⟨cap - l₁.length - 1, by omega⟩
  refine ⟨l₁, v, l₂.take n, ?_, hfront⟩
  rw [List.take_append, List.take_of_length_le (by omega), hn, List.take_succ_cons]

/-- One more operation, which does not drop the key. -/
theorem Recent.step {S : Finset κ} (h : Recent k S c) (hvalid : Valid cap c) (hcap : 1 ≤ cap)
    (hdrops : ¬ op.Drops k) (hcard : ((S ∪ used c op).erase k).card < cap) :
    Recent k (S ∪ used c op) (step cap c op) := by
  by_cases hused : k ∈ used c op
  · exact recent_of_used hcap hused _
  · cases op with
    | get k' =>
      cases hfind : find c k' with
      | none =>
        have hk' : k' ∉ keys c := find_eq_none_iff.mp hfind
        rw [step_get_of_none hfind, used, if_neg hk', Finset.union_empty]
        exact h
      | some v' =>
        have hk' : k' ∈ keys c := by
          rw [← find_isSome_iff, hfind]
          rfl
        rw [used, if_pos hk'] at hused ⊢
        rw [step_get_of_some hfind]
        exact h.cons_remove (fun heq => hused (by rw [heq]; exact Finset.mem_singleton_self k)) v'
    | put k' v' =>
      have hne : k' ≠ k := fun heq => hused (by rw [heq]; exact Finset.mem_singleton_self k)
      exact (h.cons_remove hne v').take (nodup_keys_cons_remove hvalid.nodup k' v') hcard
    | drop p =>
      have hp : p k = false := by
        rw [← Bool.not_eq_true]
        exact hdrops
      obtain ⟨l₁, v, l₂, rfl, hfront⟩ := h
      refine ⟨l₁.filter (fun kv => !p kv.1), v, l₂.filter (fun kv => !p kv.1), ?_, ?_⟩
      · show ((l₁ ++ (k, v) :: l₂).filter _) = _
        rw [List.filter_append, List.filter_cons_of_pos (by simp [hp])]
      · intro kv hkv
        rw [used, Finset.union_empty]
        exact hfront kv (List.mem_of_mem_filter hkv)

/-- A key stays over a sequence of operations that use fewer than `cap` others. -/
theorem Recent.run {S : Finset κ} (h : Recent k S c) (hvalid : Valid cap c) (hcap : 1 ≤ cap)
    (hdrops : ∀ op ∈ ops, ¬ op.Drops k)
    (hcard : ((S ∪ touched cap c ops).erase k).card < cap) :
    Recent k (S ∪ touched cap c ops) (run cap c ops) := by
  induction ops generalizing c S with
  | nil =>
    rw [touched, Finset.union_empty]
    exact h
  | cons op ops ih =>
    rw [touched, ← Finset.union_assoc] at hcard ⊢
    have hfirst : ((S ∪ used c op).erase k).card < cap := by
      refine lt_of_le_of_lt (Finset.card_le_card ?_) hcard
      exact Finset.erase_subset_erase k Finset.subset_union_left
    have hstep := h.step hvalid hcap (hdrops op (List.mem_cons_self ..)) hfirst
    exact ih hstep (hvalid.step op) (fun op' hop' => hdrops op' (List.mem_cons_of_mem _ hop')) hcard

/-- **A key that has been used stays** until it is dropped or `cap` other keys have been
used. -/
theorem mem_keys_run_of_touched (ops : List (Op κ ν)) (hvalid : Valid cap c) (hcap : 1 ≤ cap)
    (hused : k ∈ used c op)
    (hdrops : ∀ op' ∈ ops, ¬ op'.Drops k)
    (hcard : ((touched cap (step cap c op) ops).erase k).card < cap) :
    k ∈ keys (run cap (step cap c op) ops) := by
  have hrecent := recent_of_used hcap hused ∅
  have hrun := hrecent.run (hvalid.step op) hcap hdrops (by rw [Finset.empty_union]; exact hcard)
  exact hrun.mem

end LruCache
