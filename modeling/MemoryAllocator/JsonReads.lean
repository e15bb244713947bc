/-
# Writing and reading JSON

What is written by hand is read back as it was meant (`Reads`): decimal numerals always,
and bytes between two quotes if and only if none of them is a quote, a backslash or a
control character (`parseString_iff`).  Objects and arrays are read back if and only if
their items are.
-/
import MemoryAllocator.JsonText

namespace JsonText

/-! ## Strings are read back -/

/-- Decoding gives the string whose encoding the bytes are. -/
theorem decodeUtf8_eq_some_iff {bs : Bytes} {s : String} :
    decodeUtf8 bs = some s ↔ utf8 s = bs := by
  unfold decodeUtf8 String.fromUTF8? utf8
  constructor
  · intro h
    split_ifs at h with hvalid
    obtain rfl := Option.some.inj h
    rfl
  · rintro rfl
    have hself : (⟨s.toByteArray.data.toList.toArray⟩ : ByteArray) = s.toByteArray := by simp
    rw [hself, dif_pos s.isValidUTF8]
    rfl

/-- No byte is a quote, a backslash or a control character. -/
def Plain (bs : Bytes) : Prop := ∀ b ∈ bs, b ≠ byte '"' ∧ b ≠ byte '\\' ∧ ¬ b < 0x20

instance (bs : Bytes) : Decidable (Plain bs) :=
  inferInstanceAs (Decidable (∀ b ∈ bs, _))

variable {a b v r rest : Bytes}

/-- Bytes that need no escape are read as they are, up to the quote. -/
theorem chars_of_plain {s : Bytes} (h : Plain s) {fuel : ℕ} (hfuel : s.length < fuel) :
    chars fuel (s ++ byte '"' :: rest) = some (s, rest) := by
  induction s generalizing fuel with
  | nil =>
    obtain ⟨fuel, rfl⟩ := Nat.exists_eq_succ_of_ne_zero (Nat.ne_of_gt hfuel)
    rfl
  | cons b s ih =>
    obtain ⟨fuel, rfl⟩ := Nat.exists_eq_succ_of_ne_zero (Nat.ne_of_gt (Nat.zero_lt_of_lt hfuel))
    obtain ⟨hquote, hslash, hcontrol⟩ := h b (List.mem_cons_self ..)
    have hrest := ih (fun x hx => h x (List.mem_cons_of_mem _ hx)) (Nat.lt_of_succ_lt_succ hfuel)
    rw [List.cons_append, chars, if_neg hquote, if_neg hslash, if_neg hcontrol, hrest]
    rfl

/-- Four hexadecimal digits are read from the front. -/
theorem hex4_eq_some {n : ℕ} {bs : Bytes} (h : hex4 bs = some (n, r)) :
    ∃ w x y z, bs = w :: x :: y :: z :: r ∧ (hexValue w).isSome ∧ (hexValue x).isSome ∧
      (hexValue y).isSome ∧ (hexValue z).isSome := by
  unfold hex4 at h
  split at h
  · rename_i w x y z rest
    simp only [Option.bind_eq_bind, Option.bind_eq_some_iff, Option.pure_def] at h
    obtain ⟨w', hw, x', hx, y', hy, z', hz, heq⟩ := h
    obtain ⟨-, rfl⟩ := Prod.mk.inj (Option.some.inj heq)
    exact ⟨w, x, y, z, rfl, by simp [hw], by simp [hx], by simp [hy], by simp [hz]⟩
  · cases h

/-- The digits of an escape come before the next quote. -/
theorem hex4_before_quote {n : ℕ} (h : hex4 (a ++ byte '"' :: b) = some (n, r)) :
    ∃ pre post, a = pre ++ post ∧ pre.length = 4 ∧ r = post ++ byte '"' :: b := by
  obtain ⟨w, x, y, z, heq, hw, hx, hy, hz⟩ := hex4_eq_some h
  have hnone : ∀ d, (hexValue d).isSome → byte '"' ≠ d := by
    rintro d hd rfl
    revert hd
    decide
  rcases a with _ | ⟨c₁, _ | ⟨c₂, _ | ⟨c₃, _ | ⟨c₄, a⟩⟩⟩⟩
  · exact absurd (List.cons.inj heq).1 (hnone w hw)
  · simp only [List.cons_append, List.nil_append, List.cons.injEq] at heq
    exact absurd heq.2.1 (hnone x hx)
  · simp only [List.cons_append, List.nil_append, List.cons.injEq] at heq
    exact absurd heq.2.2.1 (hnone y hy)
  · simp only [List.cons_append, List.nil_append, List.cons.injEq] at heq
    exact absurd heq.2.2.2.1 (hnone z hz)
  · simp only [List.cons_append, List.cons.injEq] at heq
    exact ⟨[c₁, c₂, c₃, c₄], a, rfl, rfl, heq.2.2.2.2.symm⟩

/-- A low surrogate ends before the next quote. -/
theorem lowSurrogate_before_quote {n : ℕ} (h : lowSurrogate (a ++ byte '"' :: b) = some (n, r)) :
    ∃ pre post, a = pre ++ post ∧ r = post ++ byte '"' :: b := by
  rcases a with _ | ⟨c₁, _ | ⟨c₂, a⟩⟩
  · -- the quote is not a backslash
    rcases b with _ | ⟨c, b⟩
    · cases h
    · have hguard : ¬ (byte '"' = byte '\\' ∧ c = byte 'u') := fun hboth => absurd hboth.1 (by decide)
      simp [lowSurrogate, hguard] at h
  · have hguard : ¬ (c₁ = byte '\\' ∧ byte '"' = byte 'u') := fun hboth => absurd hboth.2 (by decide)
    simp [lowSurrogate, hguard] at h
  · simp only [List.cons_append, lowSurrogate, Option.bind_eq_bind, Option.bind_eq_some_iff,
      Option.pure_def] at h
    obtain ⟨-, -, ⟨low, rest⟩, hhex, -, -, heq⟩ := h
    obtain ⟨rfl, rfl⟩ := Prod.mk.inj (Option.some.inj heq)
    obtain ⟨pre, post, rfl, -, hr⟩ := hex4_before_quote hhex
    exact ⟨c₁ :: c₂ :: pre, post, rfl, hr⟩

/-- An escape is longer than what it stands for. -/
theorem unicodeEscape_before_quote {o : Bytes}
    (h : unicodeEscape (a ++ byte '"' :: b) = some (o, r)) :
    ∃ pre post, a = pre ++ post ∧ o.length ≤ pre.length ∧ r = post ++ byte '"' :: b := by
  unfold unicodeEscape at h
  simp only [Option.bind_eq_bind, Option.bind_eq_some_iff, Option.pure_def] at h
  obtain ⟨⟨u, rest⟩, hhex, h⟩ := h
  obtain ⟨pre, post, rfl, hpre, rfl⟩ := hex4_before_quote hhex
  have hsize : ∀ c, (String.utf8EncodeChar c).length ≤ 4 := by
    intro c
    rw [String.length_utf8EncodeChar]
    exact c.utf8Size_le_four
  dsimp only at h
  split_ifs at h
  · obtain ⟨⟨low, rest⟩, hlow, heq⟩ := Option.bind_eq_some_iff.mp h
    obtain ⟨pre', post', rfl, rfl⟩ := lowSurrogate_before_quote hlow
    obtain ⟨rfl, rfl⟩ := Prod.mk.inj (Option.some.inj heq)
    refine ⟨pre ++ pre', post', (List.append_assoc ..).symm, ?_, rfl⟩
    rw [List.length_append, hpre]
    exact (hsize _).trans (Nat.le_add_right 4 _)
  · obtain ⟨-, -, heq⟩ := Option.bind_eq_some_iff.mp h
    obtain ⟨rfl, rfl⟩ := Prod.mk.inj (Option.some.inj heq)
    exact ⟨pre, post, rfl, hpre ▸ hsize _, rfl⟩

/-- An escape that begins before a quote ends before it, or is the escape of that
quote. -/
theorem escape_before_quote {o : Bytes} (h : escape (a ++ byte '"' :: b) = some (o, r)) :
    (a = [] ∧ o = [byte '"'] ∧ r = b) ∨
      ∃ pre post, a = pre ++ post ∧ o.length ≤ pre.length ∧ r = post ++ byte '"' :: b := by
  rcases a with _ | ⟨c, a⟩
  · left
    have hescape : escape (byte '"' :: b) = some ([byte '"'], b) := rfl
    rw [List.nil_append, hescape] at h
    obtain ⟨rfl, rfl⟩ := Prod.mk.inj (Option.some.inj h)
    exact ⟨rfl, rfl, rfl⟩
  · right
    rw [List.cons_append, escape] at h
    split_ifs at h
    · obtain ⟨pre, post, rfl, ho, hr⟩ := unicodeEscape_before_quote h
      exact ⟨c :: pre, post, rfl, ho.trans (Nat.le_succ _), hr⟩
    · obtain ⟨d, -, heq⟩ := Option.map_eq_some_iff.mp h
      obtain ⟨rfl, rfl⟩ := Prod.mk.inj heq
      exact ⟨[c], a, rfl, Nat.le_refl 1, rfl⟩

/-- **What is read up to a quote.**  Either the string ends at the first quote, and then
it is shorter than its text or has no escapes; or the first quote has been escaped, and
the string has a quote at an earlier place. -/
theorem chars_before_quote {fuel : ℕ} (h : chars fuel (a ++ byte '"' :: b) = some (v, r))
    (ha : byte '"' ∉ a) :
    (r = b ∧ v.length ≤ a.length ∧ (v.length = a.length → Plain a)) ∨
      ∃ j < a.length, v[j]? = some (byte '"') := by
  induction fuel generalizing a v with
  | zero => cases h
  | succ fuel ih =>
    rcases a with _ | ⟨c, a⟩
    · have hchars : chars (fuel + 1) (byte '"' :: b) = some ([], b) := rfl
      rw [List.nil_append, hchars] at h
      obtain ⟨rfl, rfl⟩ := Prod.mk.inj (Option.some.inj h)
      exact .inl ⟨rfl, Nat.le_refl 0, fun _ _ hx => absurd hx List.not_mem_nil⟩
    · have hc : c ≠ byte '"' := fun heq => ha (heq ▸ List.mem_cons_self ..)
      have ha' : byte '"' ∉ a := fun hin => ha (List.mem_cons_of_mem _ hin)
      rw [List.cons_append, chars, if_neg hc] at h
      split_ifs at h with hslash hcontrol
      · -- an escape
        simp only [Option.bind_eq_bind, Option.bind_eq_some_iff, Option.pure_def] at h
        obtain ⟨⟨o, rest⟩, hescape, ⟨cs, rest'⟩, hcs, heq⟩ := h
        obtain ⟨rfl, rfl⟩ := Prod.mk.inj (Option.some.inj heq)
        dsimp only at hcs
        rcases escape_before_quote hescape with ⟨rfl, rfl, rfl⟩ | ⟨pre, post, rfl, ho, rfl⟩
        · exact .inr ⟨0, Nat.one_pos, rfl⟩
        · have hpost : byte '"' ∉ post := fun hin => ha' (List.mem_append_right _ hin)
          rcases ih hcs hpost with ⟨hr, hle, -⟩ | ⟨j, hj, hjv⟩
          · refine .inl ⟨hr, ?_, fun heq => ?_⟩
            · simp only [List.length_append, List.length_cons]
              omega
            · simp only [List.length_append, List.length_cons] at heq
              omega
          · refine .inr ⟨o.length + j, ?_, ?_⟩
            · simp only [List.length_append, List.length_cons]
              omega
            · rw [List.getElem?_append_right (Nat.le_add_right _ _), Nat.add_sub_cancel_left]
              exact hjv
      · -- the byte stands for itself
        simp only [Option.bind_eq_bind, Option.bind_eq_some_iff, Option.pure_def] at h
        obtain ⟨⟨cs, rest⟩, hcs, heq⟩ := h
        obtain ⟨rfl, rfl⟩ := Prod.mk.inj (Option.some.inj heq)
        rcases ih hcs ha' with ⟨hr, hle, hplain⟩ | ⟨j, hj, hjv⟩
        · refine .inl ⟨hr, Nat.succ_le_succ hle, fun heq x hx => ?_⟩
          rcases List.mem_cons.mp hx with rfl | hx
          · exact ⟨hc, hslash, hcontrol⟩
          · exact hplain (Nat.succ.inj heq) x hx
        · exact .inr ⟨j + 1, Nat.succ_lt_succ hj, hjv⟩

/-- A string that is read back as it is has no escapes. -/
theorem plain_of_chars {s : Bytes} {fuel : ℕ}
    (h : chars fuel (s ++ byte '"' :: rest) = some (s, r)) : Plain s ∧ r = rest := by
  have hquote : byte '"' ∉ s := by
    intro hin
    obtain ⟨a, b, rfl, ha⟩ := List.eq_append_cons_of_mem hin
    have h' := h
    rw [List.append_assoc, List.cons_append] at h'
    rcases chars_before_quote h' ha with ⟨-, hle, -⟩ | ⟨j, hj, hjs⟩
    · simp only [List.length_append, List.length_cons] at hle
      omega
    · rw [List.getElem?_append_left hj] at hjs
      exact ha (List.mem_of_getElem? hjs)
  rcases chars_before_quote h hquote with ⟨hr, -, hplain⟩ | ⟨j, hj, hjs⟩
  · exact ⟨hplain rfl, hr⟩
  · exact absurd (List.mem_of_getElem? hjs) hquote

/-- **Bytes between quotes are read back as they are**, if and only if there is nothing to
be escaped. -/
theorem parseString_iff {s : Bytes} {t : String} :
    (parseString (s ++ byte '"' :: rest) = some (t, r) ∧ utf8 t = s) ↔
      (Plain s ∧ utf8 t = s ∧ r = rest) := by
  unfold parseString
  simp only [Option.bind_eq_bind, Option.bind_eq_some_iff, Option.pure_def]
  constructor
  · rintro ⟨⟨⟨cs, rest'⟩, hcs, t', ht', heq⟩, hs⟩
    obtain ⟨rfl, rfl⟩ := Prod.mk.inj (Option.some.inj heq)
    have hcs' : cs = s := (decodeUtf8_eq_some_iff.mp ht').symm.trans hs
    rw [hcs'] at hcs
    obtain ⟨hplain, hrest⟩ := plain_of_chars hcs
    exact ⟨hplain, hs, hrest⟩
  · rintro ⟨hplain, hs, rfl⟩
    refine ⟨⟨(s, r), chars_of_plain hplain ?_, t, decodeUtf8_eq_some_iff.mpr hs, rfl⟩, hs⟩
    rw [List.length_append, List.length_cons]
    omega

/-! ## Numerals are read back -/

/-- The decimal numeral of a natural number. -/
def natDecimal (n : ℕ) : Bytes :=
  if n = 0 then [byte '0'] else (Nat.digits 10 n).reverse.map (fun d => UInt8.ofNat (48 + d))

/-- The decimal numeral of an integer. -/
def decimal (n : ℤ) : Bytes :=
  if n < 0 then byte '-' :: natDecimal n.natAbs else natDecimal n.natAbs

/-- A number that comes before this text is over. -/
def EndsNumber (bs : Bytes) : Prop :=
  ∀ b ∈ bs.head?, isDigit b = false ∧ b ≠ byte '.' ∧ b ≠ byte 'e' ∧ b ≠ byte 'E'

/-- What the bytes of the ten digits are to the parser. -/
theorem digit_byte : ∀ d < 10, isDigit (UInt8.ofNat (48 + d)) = true ∧
    (UInt8.ofNat (48 + d)).toNat - 48 = d ∧ UInt8.ofNat (48 + d) ≠ byte '-' ∧
      (UInt8.ofNat (48 + d) = byte '0' → d = 0) := by
  decide

/-- A decimal numeral is made of digits. -/
theorem natDecimal_isDigit (n : ℕ) : ∀ b ∈ natDecimal n, isDigit b = true ∧ b ≠ byte '-' := by
  unfold natDecimal
  intro b hb
  split_ifs at hb with hn
  · obtain rfl := List.mem_singleton.mp hb
    decide
  · obtain ⟨d, hd, rfl⟩ := List.mem_map.mp hb
    have hlt := Nat.digits_lt_base (by decide) (List.mem_reverse.mp hd)
    obtain ⟨hdigit, -, hminus, -⟩ := digit_byte d hlt
    exact ⟨hdigit, hminus⟩

/-- The digits of a number have its value. -/
theorem ofDigits_natDecimal (n : ℕ) : ofDigits (natDecimal n) = n := by
  unfold natDecimal
  split_ifs with hn
  · rw [hn]
    rfl
  · -- induct on the digits, from the highest
    have hdigits : ∀ l : List ℕ, (∀ d ∈ l, d < 10) →
        ofDigits (l.reverse.map (fun d => UInt8.ofNat (48 + d))) = Nat.ofDigits 10 l := by
      intro l hl
      induction l with
      | nil => rfl
      | cons d l ih =>
        have hrest := ih (fun x hx => hl x (List.mem_cons_of_mem _ hx))
        obtain ⟨-, hvalue, -⟩ := digit_byte d (hl d (List.mem_cons_self ..))
        rw [List.reverse_cons, List.map_append, ofDigits, List.foldl_append, ← ofDigits, hrest]
        simp only [List.map_cons, List.map_nil, List.foldl_cons, List.foldl_nil, hvalue,
          Nat.ofDigits_cons]
        omega
    rw [hdigits _ (fun d hd => Nat.digits_lt_base (by decide) hd), Nat.ofDigits_digits]

/-- A decimal numeral has a digit. -/
theorem natDecimal_ne_nil (n : ℕ) : natDecimal n ≠ [] := by
  unfold natDecimal
  split_ifs with hn
  · simp
  · simp [Nat.digits_ne_nil_iff_ne_zero.mpr hn]

/-- There are no leading zeros. -/
theorem natDecimal_head (n : ℕ) :
    (natDecimal n).head? ≠ some (byte '0') ∨ (natDecimal n).length = 1 := by
  unfold natDecimal
  split_ifs with hn
  · exact .inr rfl
  · left
    have hne : Nat.digits 10 n ≠ [] := Nat.digits_ne_nil_iff_ne_zero.mpr hn
    rw [List.head?_map, List.head?_reverse, List.getLast?_eq_some_getLast hne, Option.map_some]
    intro heq
    have hlt := Nat.digits_lt_base (b := 10) (m := n) (by decide) (List.getLast_mem hne)
    obtain ⟨-, -, -, hzero⟩ := digit_byte _ hlt
    exact Nat.getLast_digit_ne_zero 10 hn (hzero (Option.some.inj heq))

/-- The parser takes the whole numeral. -/
theorem digits_natDecimal (n : ℕ) (hrest : EndsNumber rest) :
    digits (natDecimal n ++ rest) = some (natDecimal n, rest) := by
  have hall : ∀ b ∈ natDecimal n, isDigit b = true := fun b hb => (natDecimal_isDigit n b hb).1
  have hspan : (natDecimal n ++ rest).span isDigit = (natDecimal n, rest) := by
    rw [List.span_eq_takeWhile_dropWhile, List.takeWhile_append_of_pos hall,
      List.dropWhile_append_of_pos hall]
    rcases rest with _ | ⟨b, rest⟩
    · simp
    · have hb := (hrest b rfl).1
      simp [hb]
  unfold digits
  rw [hspan]
  simp [natDecimal_ne_nil]

/-- A numeral has no leading zero that would stop the parser. -/
theorem intPart_natDecimal (n : ℕ) (hrest : EndsNumber rest) :
    intPart (natDecimal n ++ rest) = some (n, rest) := by
  unfold intPart
  rw [digits_natDecimal n hrest]
  simp only [Option.bind_eq_bind, Option.bind_some, Option.pure_def]
  rw [guard, if_pos (natDecimal_head n), ofDigits_natDecimal]
  rfl

/-- A numeral is read as an integer if nothing of a number follows. -/
theorem parseNumber_of_sign {s : ℚ} {bs : Bytes} {n : ℕ}
    (hsign : sign bs = (s, natDecimal n ++ rest)) (hrest : EndsNumber rest) :
    parseNumber bs = some (s * n, rest) := by
  have hfraction : fraction rest = some (0, rest) := by
    rcases rest with _ | ⟨b, rest⟩
    · rfl
    · rw [fraction, if_neg (hrest b rfl).2.1]
  have hexponent : exponent rest = some (1, rest) := by
    rcases rest with _ | ⟨b, rest⟩
    · rfl
    · obtain ⟨-, -, he, hE⟩ := hrest b rfl
      rw [exponent, if_neg (by simp [he, hE])]
  unfold parseNumber
  rw [hsign]
  simp only [intPart_natDecimal n hrest, Option.bind_eq_bind, Option.bind_some, hfraction,
    hexponent, Option.pure_def, add_zero, mul_one]

/-- **A decimal numeral is read back.** -/
theorem parseNumber_decimal (n : ℤ) (hrest : EndsNumber rest) :
    parseNumber (decimal n ++ rest) = some ((n : ℚ), rest) := by
  unfold decimal
  split_ifs with hn
  · have hsign : sign (byte '-' :: natDecimal n.natAbs ++ rest)
        = (-1, natDecimal n.natAbs ++ rest) := rfl
    rw [parseNumber_of_sign hsign hrest]
    have hcast : (n.natAbs : ℚ) = -n := by
      rw [← Int.cast_natCast, Int.ofNat_natAbs_of_nonpos hn.le, Int.cast_neg]
    rw [hcast]
    simp
  · have hsign : sign (natDecimal n.natAbs ++ rest) = (1, natDecimal n.natAbs ++ rest) := by
      cases hdecimal : natDecimal n.natAbs with
      | nil => exact absurd hdecimal (natDecimal_ne_nil _)
      | cons b bs =>
        have hb := (natDecimal_isDigit n.natAbs b (by simp [hdecimal])).2
        rw [List.cons_append, sign, if_neg hb]
    rw [parseNumber_of_sign hsign hrest]
    have hcast : (n.natAbs : ℚ) = n := by
      rw [← Int.cast_natCast, Int.natAbs_of_nonneg (not_lt.mp hn)]
    rw [hcast, one_mul]

/-! ## Values are read back -/

/-- **The text is read as a value that `means` accepts, if and only if `good`.**  It is
read to its end before any text that ends a number. -/
structure Reads (text : Bytes) (good : Prop) (means : Json → Prop) : Prop where
  head : ∃ b tail, text = b :: tail ∧ isSpace b = false ∧ b ≠ byte ']'
  iff : ∀ fuel rest v r, text.length ≤ fuel → EndsNumber rest →
    ((parseValue fuel (text ++ rest) = some (v, r) ∧ means v) ↔ (good ∧ means v ∧ r = rest))

/-- Bytes between quotes. -/
def quoted (s : Bytes) : Bytes := byte '"' :: s ++ [byte '"']

/-- A quoted text in front of more bytes. -/
theorem quoted_append (s rest : Bytes) :
    quoted s ++ rest = byte '"' :: (s ++ byte '"' :: rest) := by
  simp [quoted]

/-- What is read is put into a value. -/
theorem map_iff {α : Type} {parsed : Option (α × Bytes)} {mk : α → Json}
    (hmk : Function.Injective mk) {good : Prop} {P : α → Prop} {v : Json}
    (h : ∀ x r, (parsed = some (x, r) ∧ P x) ↔ (good ∧ P x ∧ r = rest)) :
    (parsed.map (fun x => (mk x.1, x.2)) = some (v, r) ∧ ∃ x, v = mk x ∧ P x) ↔
      (good ∧ (∃ x, v = mk x ∧ P x) ∧ r = rest) := by
  constructor
  · rintro ⟨hv, x, rfl, hx⟩
    obtain ⟨⟨x', r'⟩, hparsed, heq⟩ := Option.map_eq_some_iff.mp hv
    obtain ⟨hx', rfl⟩ := Prod.mk.inj heq
    obtain rfl := hmk hx'
    obtain ⟨hgood, -, hr⟩ := (h x' r').mp ⟨hparsed, hx⟩
    exact ⟨hgood, ⟨x', rfl, hx⟩, hr⟩
  · rintro ⟨hgood, ⟨x, rfl, hx⟩, rfl⟩
    rw [((h x r).mpr ⟨hgood, hx, rfl⟩).1]
    exact ⟨rfl, x, rfl, hx⟩

/-- A quoted text is read as the string it encodes. -/
theorem reads_quoted (s : Bytes) :
    Reads (quoted s) (Plain s) (fun v => ∃ t, v = .str t ∧ utf8 t = s) := by
  refine ⟨⟨byte '"', s ++ [byte '"'], rfl, by decide, by decide⟩, fun fuel rest v r hfuel _ => ?_⟩
  obtain ⟨fuel, rfl⟩ := Nat.exists_eq_succ_of_ne_zero (Nat.ne_of_gt (Nat.zero_lt_of_lt hfuel))
  rw [quoted_append, parseValue, if_pos rfl]
  exact map_iff (fun _ _ => Json.str.inj) (fun t r => parseString_iff)

/-- A numeral begins with a digit or with the minus sign. -/
theorem decimal_head (n : ℤ) :
    ∃ b tail, decimal n = b :: tail ∧ (isDigit b = true ∨ b = byte '-') := by
  unfold decimal
  split_ifs
  · exact ⟨byte '-', _, rfl, .inr rfl⟩
  · cases hdecimal : natDecimal n.natAbs with
    | nil => exact absurd hdecimal (natDecimal_ne_nil _)
    | cons b tail =>
      exact ⟨b, tail, rfl, .inl (natDecimal_isDigit n.natAbs b (by simp [hdecimal])).1⟩

/-- The first byte of a number starts no other value and is no space. -/
theorem number_byte : ∀ b : UInt8, isDigit b = true ∨ b = byte '-' →
    isSpace b = false ∧ b ≠ byte ']' ∧ b ≠ byte '"' ∧ b ≠ byte '[' ∧ b ≠ byte '\x7b' ∧
      b ≠ byte 'n' ∧ b ≠ byte 't' ∧ b ≠ byte 'f' := by
  rintro b (hb | rfl)
  · refine ⟨?_, ?_, ?_, ?_, ?_, ?_, ?_, ?_⟩
    · rw [Bool.eq_false_iff]
      intro hspace
      rcases of_decide_eq_true hspace with rfl | rfl | rfl | rfl <;> exact absurd hb (by decide)
    all_goals
      rintro rfl
      exact absurd hb (by decide)
  · decide

/-- A numeral is read as its number. -/
theorem reads_decimal (n : ℤ) : Reads (decimal n) True (fun v => v = .num n) := by
  obtain ⟨b, tail, hdecimal, hb⟩ := decimal_head n
  obtain ⟨hspace, hclose, hquote, hbracket, hbrace, hn, ht, hf⟩ := number_byte b hb
  refine ⟨⟨b, tail, hdecimal, hspace, hclose⟩, fun fuel rest v r hfuel hrest => ?_⟩
  rw [hdecimal] at hfuel
  obtain ⟨fuel, rfl⟩ := Nat.exists_eq_succ_of_ne_zero (Nat.ne_of_gt (Nat.zero_lt_of_lt hfuel))
  have hvalue : parseValue (fuel + 1) (decimal n ++ rest) = some (.num n, rest) := by
    have hnumber := parseNumber_decimal n hrest
    rw [hdecimal, List.cons_append] at hnumber ⊢
    rw [parseValue, if_neg hquote, if_neg hbracket, if_neg hbrace, if_neg hn, if_neg ht, if_neg hf,
      hnumber]
    rfl
  rw [hvalue]
  constructor
  · rintro ⟨heq, hv⟩
    obtain ⟨-, rfl⟩ := Prod.mk.inj (Option.some.inj heq)
    exact ⟨trivial, hv, rfl⟩
  · rintro ⟨-, rfl, rfl⟩
    exact ⟨rfl, rfl⟩

/-! ## Objects and arrays are read back -/

section Items

variable {ι : Type} {text : ι → Bytes} {good : ι → Prop} {means : ι → Json → Prop} {ws : Bytes}

/-- White space is skipped up to the first other byte. -/
theorem skipSpace_append (hws : ∀ b ∈ ws, isSpace b = true) {c : UInt8} (hc : isSpace c = false) :
    skipSpace (ws ++ c :: rest) = c :: rest := by
  unfold skipSpace
  rw [List.dropWhile_append_of_pos hws]
  simp [hc]

/-- White space in front of a value is skipped. -/
theorem Reads.skipSpace_append {t : Bytes} {g : Prop} {m : Json → Prop} (h : Reads t g m)
    (hws : ∀ b ∈ ws, isSpace b = true) : skipSpace (ws ++ (t ++ rest)) = t ++ rest := by
  obtain ⟨c, tail, rfl, hc, -⟩ := h.head
  exact JsonText.skipSpace_append hws hc

/-- A comma says that a further item follows. -/
theorem separator_comma (close : UInt8) (bs : Bytes) :
    separator close (byte ',' :: bs) = some (true, skipSpace bs) := by
  have hskip : skipSpace (byte ',' :: bs) = byte ',' :: bs := rfl
  rw [separator, hskip]
  exact if_pos rfl

/-- The closing bracket ends the items. -/
theorem separator_close (hws : ∀ b ∈ ws, isSpace b = true) {close : UInt8}
    (hclose : close = byte ']' ∨ close = byte '\x7d') (rest : Bytes) :
    separator close (ws ++ close :: rest) = some (false, rest) := by
  have hspace : isSpace close = false := by rcases hclose with rfl | rfl <;> decide
  have hcomma : close ≠ byte ',' := by rcases hclose with rfl | rfl <;> decide
  rw [separator, skipSpace_append hws hspace]
  show (if close = byte ',' then _ else if close = close then _ else _) = _
  rw [if_neg hcomma, if_pos rfl]

/-- A byte that cannot continue a number ends it. -/
theorem endsNumber_cons {c : UInt8} (h : isDigit c = false ∧ c ≠ byte '.' ∧ c ≠ byte 'e' ∧
    c ≠ byte 'E') (bs : Bytes) : EndsNumber (c :: bs) := by
  intro b hb
  obtain rfl : c = b := Option.some.inj hb
  exact h

/-- The items of a list after the first, each with a comma and spaces before it. -/
def followers (ws : Bytes) (text : ι → Bytes) (l : List ι) : Bytes :=
  l.flatMap (fun x => byte ',' :: ws ++ text x)

/-- The items after the first, each behind a comma. -/
theorem followers_cons (ws : Bytes) (text : ι → Bytes) (x : ι) (l : List ι) (bs : Bytes) :
    followers ws text (x :: l) ++ bs = byte ',' :: (ws ++ (text x ++ (followers ws text l ++ bs))) := by
  simp [followers]

/-- What follows an item ends a number. -/
theorem endsNumber_followers (hws : ∀ b ∈ ws, isSpace b = true) {close : UInt8}
    (hclose : close = byte ']' ∨ close = byte '\x7d') (ws' : Bytes) (text : ι → Bytes) (l : List ι) (rest : Bytes) :
    EndsNumber (followers ws' text l ++ (ws ++ close :: rest)) := by
  cases l with
  | nil =>
    rcases ws with _ | ⟨c, ws⟩
    · refine endsNumber_cons ?_ rest
      rcases hclose with rfl | rfl <;> decide
    · refine endsNumber_cons ?_ _
      have hc := hws c (List.mem_cons_self ..)
      rcases of_decide_eq_true hc with rfl | rfl | rfl | rfl <;> decide
  | cons x l =>
    rw [followers_cons]
    exact endsNumber_cons (by decide) _

/-- The first item of a list is read back, and the rest depends on the separator. -/
theorem listOf_head_iff {α : Type} {item : Bytes → Option (α × Bytes)} {means : ι → α → Prop}
    {good : Prop} {close : UInt8} {fuel : ℕ} {bs tail : Bytes} {x : ι} {l : List ι} {vs : List α}
    (hitem : ∀ v r, (item bs = some (v, r) ∧ means x v) ↔ (good ∧ means x v ∧ r = tail)) :
    (listOf item close (fuel + 1) bs = some (vs, r) ∧ List.Forall₂ means (x :: l) vs) ↔
      good ∧ ∃ v vs', vs = v :: vs' ∧ means x v ∧ List.Forall₂ means l vs' ∧
        ((separator close tail = some (false, r) ∧ vs' = []) ∨
          ∃ rest, separator close tail = some (true, rest) ∧
            listOf item close fuel rest = some (vs', r)) := by
  rw [listOf]
  simp only [Option.bind_eq_bind, Option.bind_eq_some_iff, Option.pure_def, Prod.exists]
  constructor
  · rintro ⟨⟨v, rest, hv, more, rest', hsep, h⟩, hmeans⟩
    cases more with
    | false =>
      obtain ⟨rfl, rfl⟩ := Prod.mk.inj (Option.some.inj h)
      obtain ⟨hxv, hl⟩ := List.forall₂_cons.mp hmeans
      obtain ⟨hgood, -, rfl⟩ := (hitem v rest).mp ⟨hv, hxv⟩
      exact ⟨hgood, v, [], rfl, hxv, hl, .inl ⟨hsep, rfl⟩⟩
    | true =>
      obtain ⟨⟨vs', r'⟩, hlist, heq⟩ := Option.bind_eq_some_iff.mp h
      obtain ⟨rfl, rfl⟩ := Prod.mk.inj (Option.some.inj heq)
      obtain ⟨hxv, hl⟩ := List.forall₂_cons.mp hmeans
      obtain ⟨hgood, -, rfl⟩ := (hitem v rest).mp ⟨hv, hxv⟩
      exact ⟨hgood, v, vs', rfl, hxv, hl, .inr ⟨rest', hsep, hlist⟩⟩
  · rintro ⟨hgood, v, vs', rfl, hxv, hl, hcases⟩
    have hv := ((hitem v tail).mpr ⟨hgood, hxv, rfl⟩).1
    refine ⟨⟨v, tail, hv, ?_⟩, .cons hxv hl⟩
    rcases hcases with ⟨hsep, rfl⟩ | ⟨rest, hsep, hlist⟩
    · exact ⟨false, r, hsep, rfl⟩
    · refine ⟨true, rest, hsep, ?_⟩
      rw [if_pos rfl, hlist]
      rfl

/-- **Items with commas between them are read back, if and only if all of them are.** -/
theorem listOf_iff {α : Type} {item : Bytes → Option (α × Bytes)} {means : ι → α → Prop}
    {close : UInt8} {ws ws' : Bytes} (hws : ∀ b ∈ ws, isSpace b = true)
    (hws' : ∀ b ∈ ws', isSpace b = true) (hclose : close = byte ']' ∨ close = byte '\x7d')
    (x : ι) (l : List ι)
    (hspace : ∀ y ∈ x :: l, ∃ b tail, text y = b :: tail ∧ isSpace b = false)
    (hitem : ∀ y ∈ x :: l, ∀ rest v r, EndsNumber rest →
      ((item (text y ++ rest) = some (v, r) ∧ means y v) ↔ (good y ∧ means y v ∧ r = rest)))
    {fuel : ℕ} (hfuel : l.length < fuel) (vs : List α) :
    (listOf item close fuel (text x ++ (followers ws text l ++ (ws' ++ close :: rest)))
          = some (vs, r) ∧ List.Forall₂ means (x :: l) vs) ↔
      ((∀ y ∈ x :: l, good y) ∧ List.Forall₂ means (x :: l) vs ∧ r = rest) := by
  induction l generalizing x fuel vs with
  | nil =>
    obtain ⟨fuel, rfl⟩ := Nat.exists_eq_succ_of_ne_zero (Nat.ne_of_gt (Nat.zero_lt_of_lt hfuel))
    have hends' := endsNumber_followers hws' hclose ws text [] rest
    rw [listOf_head_iff (fun v r => hitem x (List.mem_cons_self ..) _ v r hends')]
    have hsep : separator close (followers ws text [] ++ (ws' ++ close :: rest))
        = some (false, rest) := separator_close hws' hclose rest
    rw [hsep]
    constructor
    · rintro ⟨hgood, v, vs', rfl, hxv, hl, ⟨heq, rfl⟩ | ⟨rest', heq, -⟩⟩
      · obtain ⟨-, rfl⟩ := Prod.mk.inj (Option.some.inj heq)
        exact ⟨fun y hy => List.mem_singleton.mp hy ▸ hgood, .cons hxv hl, rfl⟩
      · cases heq
    · rintro ⟨hgood, hmeans, rfl⟩
      obtain ⟨v, vs', hxv, hl, rfl⟩ := List.forall₂_cons_left_iff.mp hmeans
      exact ⟨hgood x (List.mem_cons_self ..), v, vs', rfl, hxv, hl,
        .inl ⟨rfl, List.forall₂_nil_left_iff.mp hl⟩⟩
  | cons y l ih =>
    obtain ⟨fuel, rfl⟩ := Nat.exists_eq_succ_of_ne_zero (Nat.ne_of_gt (Nat.zero_lt_of_lt hfuel))
    have hends' := endsNumber_followers hws' hclose ws text (y :: l) rest
    rw [listOf_head_iff (fun v r => hitem x (List.mem_cons_self ..) _ v r hends')]
    have hsep : separator close (followers ws text (y :: l) ++ (ws' ++ close :: rest))
        = some (true, text y ++ (followers ws text l ++ (ws' ++ close :: rest))) := by
      obtain ⟨c, tail, htext, hc⟩ := hspace y (by simp)
      rw [followers_cons, separator_comma, htext, List.cons_append, skipSpace_append hws hc]
    rw [hsep]
    have hrest := ih y (fun z hz => hspace z (List.mem_cons_of_mem _ hz))
      (fun z hz => hitem z (List.mem_cons_of_mem _ hz)) (Nat.lt_of_succ_lt_succ hfuel)
    constructor
    · rintro ⟨hgood, v, vs', rfl, hxv, hl, ⟨heq, -⟩ | ⟨rest', heq, hlist⟩⟩
      · cases heq
      · obtain ⟨-, rfl⟩ := Prod.mk.inj (Option.some.inj heq)
        obtain ⟨hgoods, -, hr⟩ := (hrest vs').mp ⟨hlist, hl⟩
        exact ⟨List.forall_mem_cons.mpr ⟨hgood, hgoods⟩, .cons hxv hl, hr⟩
    · rintro ⟨hgood, hmeans, rfl⟩
      obtain ⟨v, vs', hxv, hl, rfl⟩ := List.forall₂_cons_left_iff.mp hmeans
      obtain ⟨hgood, hgoods⟩ := List.forall_mem_cons.mp hgood
      exact ⟨hgood, v, vs', rfl, hxv, hl,
        .inr ⟨_, rfl, ((hrest vs').mpr ⟨hgoods, hl, rfl⟩).1⟩⟩

/-- How long the text of the items is. -/
theorem length_followers_cons (ws : Bytes) (text : ι → Bytes) (x : ι) (l : List ι) :
    (followers ws text (x :: l)).length
      = 1 + ws.length + (text x).length + (followers ws text l).length := by
  simp only [followers, List.flatMap_cons, List.length_append, List.length_cons]
  omega

/-- An item is no longer than the items together. -/
theorem length_le_followers (ws : Bytes) (text : ι → Bytes) {l : List ι} {x : ι} (hx : x ∈ l) :
    (text x).length ≤ (followers ws text l).length := by
  induction l with
  | nil => exact absurd hx List.not_mem_nil
  | cons y l ih =>
    rw [length_followers_cons]
    rcases List.mem_cons.mp hx with rfl | hx
    · omega
    · have hle := ih hx
      omega

/-- There are at least as many bytes as items. -/
theorem items_le_followers (ws : Bytes) (text : ι → Bytes) (l : List ι) :
    l.length ≤ (followers ws text l).length := by
  induction l with
  | nil => exact Nat.le_refl 0
  | cons y l ih =>
    rw [length_followers_cons, List.length_cons]
    omega

/-- The text of a member. -/
def memberText (text : ι → Bytes) (m : Bytes × ι) : Bytes := quoted m.1 ++ byte ':' :: text m.2

/-- The name of a member is read exactly if it needs no escapes. -/
theorem memberName_iff {key bs : Bytes} {name : String} :
    (memberName (quoted key ++ byte ':' :: bs) = some (name, r) ∧ utf8 name = key) ↔
      (Plain key ∧ utf8 name = key ∧ r = skipSpace bs) := by
  have hcolon : colon (byte ':' :: bs) = some (skipSpace bs) := rfl
  rw [quoted_append, memberName]
  simp only [Option.bind_eq_bind, Option.bind_eq_some_iff, Option.pure_def, Prod.exists]
  constructor
  · rintro ⟨⟨-, -, name', rest', hstring, rest, hrest, heq⟩, hname⟩
    obtain ⟨rfl, rfl⟩ := Prod.mk.inj (Option.some.inj heq)
    obtain ⟨hplain, -, rfl⟩ := parseString_iff.mp ⟨hstring, hname⟩
    rw [hcolon] at hrest
    exact ⟨hplain, hname, (Option.some.inj hrest).symm⟩
  · rintro ⟨hplain, hname, rfl⟩
    have hstring : parseString (key ++ byte '"' :: byte ':' :: bs) = some (name, byte ':' :: bs) :=
      (parseString_iff.mpr ⟨hplain, hname, rfl⟩).1
    exact ⟨⟨(), rfl, name, _, hstring, _, hcolon, rfl⟩, hname⟩

/-- A member is read back if and only if its name and its value are. -/
theorem member_iff {key t : Bytes} {g : Prop} {m : Json → Prop} (hread : Reads t g m) {fuel : ℕ}
    (hfuel : t.length ≤ fuel) (hrest : EndsNumber rest) (nv : String × Json) (r : Bytes) :
    (member (parseValue fuel) (quoted key ++ byte ':' :: t ++ rest) = some (nv, r) ∧
        (utf8 nv.1 = key ∧ m nv.2)) ↔
      ((Plain key ∧ g) ∧ (utf8 nv.1 = key ∧ m nv.2) ∧ r = rest) := by
  obtain ⟨name, v⟩ := nv
  have hskip : skipSpace (t ++ rest) = t ++ rest :=
    hread.skipSpace_append (fun _ hb => absurd hb List.not_mem_nil)
  rw [List.append_assoc, List.cons_append, member]
  simp only [Option.bind_eq_bind, Option.bind_eq_some_iff, Option.pure_def, Prod.exists]
  constructor
  · rintro ⟨⟨name', rest₁, hname', v', rest₂, hv', heq⟩, hname, hv⟩
    obtain ⟨hnv, rfl⟩ := Prod.mk.inj (Option.some.inj heq)
    obtain ⟨rfl, rfl⟩ := Prod.mk.inj hnv
    obtain ⟨hplain, -, rfl⟩ := memberName_iff.mp ⟨hname', hname⟩
    rw [hskip] at hv'
    obtain ⟨hgood, -, hr⟩ := (hread.iff fuel rest v' rest₂ hfuel hrest).mp ⟨hv', hv⟩
    exact ⟨⟨hplain, hgood⟩, ⟨hname, hv⟩, hr⟩
  · rintro ⟨⟨hplain, hgood⟩, ⟨hname, hv⟩, rfl⟩
    have hname' := (memberName_iff.mpr ⟨hplain, hname, hskip.symm⟩).1
    have hv' := ((hread.iff fuel r v r hfuel hrest).mpr ⟨hgood, hv, rfl⟩).1
    exact ⟨⟨name, _, hname', v, r, hv', rfl⟩, hname, hv⟩

/-- The member has the name, and a value with the meaning. -/
def MemberMeans (means : ι → Json → Prop) (m : Bytes × ι) (nv : String × Json) : Prop :=
  utf8 nv.1 = m.1 ∧ means m.2 nv.2

/-- **Objects are read back, if and only if their members are.** -/
theorem reads_object (hread : ∀ x, Reads (text x) (good x) (means x)) (x : Bytes × ι)
    (l : List (Bytes × ι)) :
    Reads (byte '\x7b' :: (memberText text x ++ (followers [] (memberText text) l
        ++ [byte '\x7d'])))
      (∀ m ∈ x :: l, Plain m.1 ∧ good m.2)
      (fun v => ∃ ms, v = .obj ms ∧ List.Forall₂ (MemberMeans means) (x :: l) ms) := by
  refine ⟨⟨byte '\x7b', _, rfl, by decide, by decide⟩, fun fuel rest v r hfuel _ => ?_⟩
  obtain ⟨fuel, rfl⟩ := Nat.exists_eq_succ_of_ne_zero (Nat.ne_of_gt (Nat.zero_lt_of_lt hfuel))
  simp only [List.length_cons, List.length_append, List.length_nil] at hfuel
  have hvalue : parseValue (fuel + 1) (byte '\x7b' :: (memberText text x
        ++ (followers [] (memberText text) l ++ [byte '\x7d'])) ++ rest)
      = (listOf (member (parseValue fuel)) (byte '\x7d') fuel (memberText text x
        ++ (followers [] (memberText text) l ++ ([] ++ byte '\x7d' :: rest)))).map
          (fun r => (.obj r.1, r.2)) := by
    simp only [List.cons_append, List.append_assoc, List.nil_append]
    rfl
  have hlength : ∀ m ∈ x :: l, (text m.2).length ≤ fuel := by
    intro m hm
    have hle : (text m.2).length ≤ (memberText text m).length := by
      simp only [memberText, List.length_append, List.length_cons]
      omega
    rcases List.mem_cons.mp hm with rfl | hm
    · omega
    · have hle' := length_le_followers [] (memberText text) hm
      omega
  have hitems : l.length < fuel := by
    have hle := items_le_followers [] (memberText text) l
    omega
  have hspaces : ∀ b ∈ ([] : Bytes), isSpace b = true := fun _ hb => absurd hb List.not_mem_nil
  have hhead : ∀ m ∈ x :: l, ∃ b tail, memberText text m = b :: tail ∧ isSpace b = false :=
    fun m _ => ⟨byte '"', _, rfl, by decide⟩
  rw [hvalue]
  refine map_iff (fun _ _ => Json.obj.inj) (fun ms r => ?_)
  refine listOf_iff hspaces hspaces (.inr rfl) x l hhead (fun m hm rest v r hrest => ?_) hitems ms
  exact member_iff (hread m.2) (hlength m hm) hrest v r

/-- **Arrays are read back, if and only if their elements are.** -/
theorem reads_array (hread : ∀ x, Reads (text x) (good x) (means x)) {ws ws' : Bytes}
    (hws : ∀ b ∈ ws, isSpace b = true) (hws' : ∀ b ∈ ws', isSpace b = true) (x : ι) (l : List ι) :
    Reads (byte '[' :: (ws ++ (text x ++ (followers ws text l ++ (ws' ++ [byte ']'])))))
      (∀ y ∈ x :: l, good y) (fun v => ∃ vs, v = .arr vs ∧ List.Forall₂ means (x :: l) vs) := by
  refine ⟨⟨byte '[', _, rfl, by decide, by decide⟩, fun fuel rest v r hfuel _ => ?_⟩
  obtain ⟨fuel, rfl⟩ := Nat.exists_eq_succ_of_ne_zero (Nat.ne_of_gt (Nat.zero_lt_of_lt hfuel))
  simp only [List.length_cons, List.length_append, List.length_nil] at hfuel
  have hvalue : parseValue (fuel + 1)
      (byte '[' :: (ws ++ (text x ++ (followers ws text l ++ (ws' ++ [byte ']'])))) ++ rest)
      = (listOf (parseValue fuel) (byte ']') fuel
        (text x ++ (followers ws text l ++ (ws' ++ byte ']' :: rest)))).map
          (fun r => (.arr r.1, r.2)) := by
    obtain ⟨b, tail, htext, hb, hclose⟩ := (hread x).head
    simp only [List.cons_append, List.append_assoc, List.nil_append, htext]
    rw [parseValue, if_neg (by decide), if_pos rfl, skipSpace_append hws hb]
    exact if_neg (fun heq => hclose (Option.some.inj heq))
  have hlength : ∀ y ∈ x :: l, (text y).length ≤ fuel := by
    intro y hy
    rcases List.mem_cons.mp hy with rfl | hy
    · omega
    · have hle := length_le_followers ws text hy
      omega
  have hitems : l.length < fuel := by
    have hle := items_le_followers ws text l
    obtain ⟨b, tail, htext, -⟩ := (hread x).head
    rw [htext, List.length_cons] at hfuel
    omega
  have hhead : ∀ y ∈ x :: l, ∃ b tail, text y = b :: tail ∧ isSpace b = false := by
    intro y _
    obtain ⟨b, tail, htext, hb, -⟩ := (hread y).head
    exact ⟨b, tail, htext, hb⟩
  rw [hvalue]
  refine map_iff (fun _ _ => Json.arr.inj) (fun vs r => ?_)
  refine listOf_iff hws hws' (.inl rfl) x l hhead (fun y hy rest v r hrest => ?_) hitems vs
  exact (hread y).iff fuel rest v r (hlength y hy) hrest

end Items

/-- Two brackets with white space between them are the empty array. -/
theorem reads_emptyArray {ws : Bytes} (hws : ∀ b ∈ ws, isSpace b = true) :
    Reads (byte '[' :: (ws ++ [byte ']'])) True (fun v => v = .arr []) := by
  refine ⟨⟨byte '[', _, rfl, by decide, by decide⟩, fun fuel rest v r hfuel _ => ?_⟩
  obtain ⟨fuel, rfl⟩ := Nat.exists_eq_succ_of_ne_zero (Nat.ne_of_gt (Nat.zero_lt_of_lt hfuel))
  have hvalue : parseValue (fuel + 1) (byte '[' :: (ws ++ [byte ']']) ++ rest)
      = some (.arr [], rest) := by
    simp only [List.cons_append, List.append_assoc, List.nil_append]
    rw [parseValue, if_neg (by decide), if_pos rfl, skipSpace_append hws (by decide)]
    rfl
  rw [hvalue]
  constructor
  · rintro ⟨heq, hv⟩
    obtain ⟨-, rfl⟩ := Prod.mk.inj (Option.some.inj heq)
    exact ⟨trivial, hv, rfl⟩
  · rintro ⟨-, rfl, rfl⟩
    exact ⟨rfl, rfl⟩

/-- **A whole text is read back.** -/
theorem parse_iff {text ws : Bytes} {good : Prop} {means : Json → Prop}
    (hread : Reads text good means) (hws : ∀ b ∈ ws, isSpace b = true) :
    (∃ v, parse (text ++ ws) = some v ∧ means v) ↔ (good ∧ ∃ v, means v) := by
  have hskip : skipSpace (text ++ ws) = text ++ ws :=
    hread.skipSpace_append (fun _ hb => absurd hb List.not_mem_nil)
  have hend : EndsNumber ws := by
    intro b hb
    have hspace := hws b (List.mem_of_mem_head? hb)
    rcases of_decide_eq_true hspace with rfl | rfl | rfl | rfl <;> decide
  have hnil : skipSpace ws = [] := List.dropWhile_eq_nil_iff.mpr hws
  have hvalue := fun v r => hread.iff ((text ++ ws).length + 1) ws v r
    (by rw [List.length_append]; omega) hend
  unfold parse
  rw [hskip]
  simp only [Option.bind_eq_bind, Option.bind_eq_some_iff, Option.pure_def, Prod.exists]
  constructor
  · rintro ⟨v, ⟨v', r, hv', -, -, heq⟩, hv⟩
    obtain rfl := Option.some.inj heq
    exact ⟨((hvalue v' r).mp ⟨hv', hv⟩).1, v', hv⟩
  · rintro ⟨hgood, v, hv⟩
    refine ⟨v, ⟨v, ws, ((hvalue v ws).mpr ⟨hgood, hv, rfl⟩).1, (), ?_, rfl⟩, hv⟩
    rw [guard, if_pos hnil]
    rfl

end JsonText
