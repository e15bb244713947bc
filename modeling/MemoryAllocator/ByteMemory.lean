/-
# Byte-addressed memory

Memory as a function from addresses to bytes, with little-endian words of any width.
The three facts everything else rests on are

* `loadBytes_storeBytes` : a word that was stored is read back;
* `loadBytes_storeBytes_of_disjoint` : a store does not change a word that it does
  not overlap;
* `loadBytes_congr` : a load depends on the bytes of its own word only.

The module names nothing of any program.
-/
import Mathlib

/-- Memory: a byte at every address. -/
abbrev Mem := ℕ → UInt8

namespace Mem

/-- The little-endian number held by the `n` bytes from address `a` on. -/
def loadBytes (m : Mem) : ℕ → ℕ → ℕ
  | _, 0 => 0
  | a, n + 1 => (m a).toNat + 256 * loadBytes m (a + 1) n

/-- Write the `n` low bytes of `v` from address `a` on. -/
def storeBytes (m : Mem) (a n v : ℕ) : Mem := fun b =>
  if a ≤ b ∧ b < a + n then UInt8.ofNat (v / 256 ^ (b - a)) else m b

/-- A store changes the bytes of its own word only. -/
theorem storeBytes_of_not_mem (m : Mem) {a n v b : ℕ} (h : b < a ∨ a + n ≤ b) :
    m.storeBytes a n v b = m b := by
  rw [storeBytes, if_neg (by omega)]

/-- A load depends on the bytes of its own word only. -/
theorem loadBytes_congr {m m' : Mem} {a n : ℕ}
    (h : ∀ b, a ≤ b → b < a + n → m b = m' b) : m.loadBytes a n = m'.loadBytes a n := by
  induction n generalizing a with
  | zero => rfl
  | succ n ih =>
    rw [loadBytes, loadBytes, h a le_rfl (by omega),
      ih (fun b hb hb' => h b (by omega) (by omega))]

/-- A load returns a number of its own width. -/
theorem loadBytes_lt (m : Mem) (a n : ℕ) : m.loadBytes a n < 256 ^ n := by
  induction n generalizing a with
  | zero => simp [loadBytes]
  | succ n ih =>
    have hbyte : (m a).toNat < 256 := (m a).toNat_lt
    have hrest := ih (a + 1)
    rw [loadBytes, pow_succ]
    omega

/-- Reading back a stored word. -/
theorem loadBytes_storeBytes (m : Mem) (a n v : ℕ) :
    (m.storeBytes a n v).loadBytes a n = v % 256 ^ n := by
  induction n generalizing m a v with
  | zero => simp [loadBytes, Nat.mod_one]
  | succ n ih =>
    have hhead : (m.storeBytes a (n + 1) v a).toNat = v % 256 := by
      simp [storeBytes]
    have htail : (m.storeBytes a (n + 1) v).loadBytes (a + 1) n
        = (m.storeBytes (a + 1) n (v / 256)).loadBytes (a + 1) n := by
      apply loadBytes_congr
      intro b hb hb'
      have hexp : b - a = (b - (a + 1)) + 1 := by omega
      rw [storeBytes, storeBytes, if_pos (by omega), if_pos (by omega), hexp, pow_succ',
        Nat.div_div_eq_div_mul]
    rw [loadBytes, hhead, htail, ih, pow_succ', Nat.mod_mul]

/-- A store leaves a word alone that it does not overlap. -/
theorem loadBytes_storeBytes_of_disjoint (m : Mem) {a n v b k : ℕ}
    (h : b + k ≤ a ∨ a + n ≤ b) : (m.storeBytes a n v).loadBytes b k = m.loadBytes b k := by
  apply loadBytes_congr
  intro c hc hc'
  exact storeBytes_of_not_mem m (by omega)

/-- Larger bytes make a larger word. -/
theorem loadBytes_mono {m m' : Mem} {a n : ℕ}
    (h : ∀ b, a ≤ b → b < a + n → (m b).toNat ≤ (m' b).toNat) :
    m.loadBytes a n ≤ m'.loadBytes a n := by
  induction n generalizing a with
  | zero => exact le_rfl
  | succ n ih =>
    have hhead := h a le_rfl (by omega)
    have htail := ih (a := a + 1) (fun b hb hb' => h b (by omega) (by omega))
    rw [loadBytes, loadBytes]
    omega

/-- A word determines its bytes. -/
theorem eq_of_loadBytes_eq {m m' : Mem} {a n : ℕ} (h : m.loadBytes a n = m'.loadBytes a n) {b : ℕ}
    (hb : a ≤ b) (hb' : b < a + n) : m b = m' b := by
  induction n generalizing a with
  | zero => omega
  | succ n ih =>
    have hbyte : (m a).toNat < 256 := (m a).toNat_lt
    have hbyte' : (m' a).toNat < 256 := (m' a).toNat_lt
    rw [loadBytes, loadBytes] at h
    rcases hb.eq_or_lt with rfl | hlt
    · exact UInt8.toNat_inj.mp (by omega)
    · exact ih (a := a + 1) (by omega) hlt (by omega)

/-! ## Pointer-sized words -/

/-- The pointer stored at address `a`. -/
def loadPtr (m : Mem) (a : ℕ) : ℕ := m.loadBytes a 8

/-- Store a pointer at address `a`. -/
def storePtr (m : Mem) (a v : ℕ) : Mem := m.storeBytes a 8 v

theorem loadPtr_lt (m : Mem) (a : ℕ) : m.loadPtr a < 2 ^ 64 := by
  have h := m.loadBytes_lt a 8
  norm_num at h ⊢
  exact h

theorem loadPtr_storePtr (m : Mem) (a : ℕ) {v : ℕ} (hv : v < 2 ^ 64) :
    (m.storePtr a v).loadPtr a = v := by
  rw [loadPtr, storePtr, loadBytes_storeBytes]
  exact Nat.mod_eq_of_lt (by norm_num at hv ⊢; exact hv)

theorem loadPtr_storePtr_of_disjoint (m : Mem) {a v b : ℕ} (h : b + 8 ≤ a ∨ a + 8 ≤ b) :
    (m.storePtr a v).loadPtr b = m.loadPtr b :=
  loadBytes_storeBytes_of_disjoint m h

/-- Distinct multiples of eight hold separate pointers. -/
theorem loadPtr_storePtr_of_dvd (m : Mem) {a v b : ℕ} (ha : 8 ∣ a) (hb : 8 ∣ b)
    (h : b ≠ a) : (m.storePtr a v).loadPtr b = m.loadPtr b := by
  apply loadPtr_storePtr_of_disjoint
  omega

theorem loadPtr_congr {m m' : Mem} {a : ℕ} (h : ∀ b, a ≤ b → b < a + 8 → m b = m' b) :
    m.loadPtr a = m'.loadPtr a :=
  loadBytes_congr h

theorem loadPtr_mono {m m' : Mem} {a : ℕ}
    (h : ∀ b, a ≤ b → b < a + 8 → (m b).toNat ≤ (m' b).toNat) : m.loadPtr a ≤ m'.loadPtr a :=
  loadBytes_mono h

theorem eq_of_loadPtr_eq {m m' : Mem} {a : ℕ} (h : m.loadPtr a = m'.loadPtr a) {b : ℕ}
    (hb : a ≤ b) (hb' : b < a + 8) : m b = m' b :=
  eq_of_loadBytes_eq h hb hb'

/-- The null pointer consists of zero bytes. -/
theorem eq_zero_of_loadPtr_eq_zero {m : Mem} {a : ℕ} (h : m.loadPtr a = 0) {b : ℕ} (hb : a ≤ b)
    (hb' : b < a + 8) : m b = 0 := by
  have hzero : loadPtr (fun _ => 0) a = 0 := by simp [loadPtr, loadBytes]
  exact eq_of_loadPtr_eq (h.trans hzero.symm) hb hb'

end Mem
