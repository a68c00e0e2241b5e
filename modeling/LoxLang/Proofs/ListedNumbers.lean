import LoxLang.Proofs.ShortestDecimal

/-!
# From a listed number to a printed one

A program prints a number by what a token list shows of it: it writes out what has an exponent
(`Decimal.expanded_scientific`) and takes off the fraction of a whole number
(`PlainNumeral.withoutZeroFraction_eq`). What comes of it is the shortest decimal written without an
exponent in the first place (`Number.text_eq_write`). Where the exponent is low, that takes zeros in
front of the digits (`Decimal.pointed_of_low`). Where it is high, it takes zeros behind them
(`Decimal.pointed_of_whole`), for the shortest decimal of so great a number has no digit behind the
point (`Decimal.whole_of_high`).
-/

namespace LoxLang

/-! ## A fraction of zero -/

namespace Number

theorem withoutZeroFraction_append (text : List Char) :
    withoutZeroFraction (text ++ ['.', '0']) = text := by
  have hsuffix : ['.', '0'].isSuffixOf (text ++ ['.', '0']) = true :=
    List.isSuffixOf_iff_suffix.2 (List.suffix_append ..)
  rw [withoutZeroFraction, if_pos hsuffix]
  simp

theorem withoutZeroFraction_of_not_suffix {text : List Char} (h : ¬['.', '0'] <:+ text) :
    withoutZeroFraction text = text := by
  rw [withoutZeroFraction, if_neg (by rwa [List.isSuffixOf_iff_suffix])]

/-- A sign in front does not matter. -/
theorem withoutZeroFraction_minus (text : List Char) :
    withoutZeroFraction ('-' :: text) = '-' :: withoutZeroFraction text := by
  by_cases h : ['.', '0'] <:+ text
  · obtain ⟨front, rfl⟩ := h
    rw [withoutZeroFraction_append, ← List.cons_append, withoutZeroFraction_append]
  · have hminus : ¬['.', '0'] <:+ '-' :: text := by
      rw [List.suffix_cons_iff]
      exact not_or.2 ⟨by simp, h⟩
    rw [withoutZeroFraction_of_not_suffix h, withoutZeroFraction_of_not_suffix hminus]

end Number

theorem Digits.not_mem {ds : List Char} (hd : Digits ds) (hc : Number.isDigit c = false) :
    c ∉ ds := fun h => by simp [hd.2 c h] at hc

/-- A numeral without a needless fraction stays as it is. -/
theorem PlainNumeral.withoutZeroFraction_eq {numeral : List Char} (h : PlainNumeral numeral) :
    Number.withoutZeroFraction numeral = numeral := by
  refine Number.withoutZeroFraction_of_not_suffix fun hsuffix => ?_
  have hpoint : '.' ∈ ['.', '0'] := List.mem_cons_self
  cases h with
  | whole hd => exact hd.not_mem rfl (hsuffix.mem hpoint)
  | @fraction ds es hd he hne =>
    rcases Nat.lt_or_ge es.length 2 with hlt | hge
    · -- a single digit, which is not zero
      obtain ⟨c, rfl⟩ : ∃ c, es = [c] := List.length_eq_one_iff.1 (by
        have := List.length_pos_iff.2 he.1
        omega)
      have hlast : ['.', '0'] <:+ ['.', c] :=
        List.suffix_of_suffix_length_le hsuffix (List.suffix_append ..) le_rfl
      obtain ⟨d, hd, hne⟩ := hne
      cases List.mem_singleton.1 hd
      cases hlast.eq_of_length rfl
      exact hne rfl
    · have hes : es <:+ ds ++ '.' :: es := ⟨ds ++ ['.'], by simp⟩
      exact he.not_mem rfl ((List.suffix_of_suffix_length_le hsuffix hes hge).mem hpoint)

theorem PlainNumeral.no_exponent {numeral : List Char} (h : PlainNumeral numeral) :
    'e' ∉ numeral := by
  cases h with
  | whole hd => exact hd.not_mem rfl
  | fraction hd he =>
    rw [List.mem_append, List.mem_cons, not_or, not_or]
    exact ⟨hd.not_mem rfl, by decide, he.not_mem rfl⟩

theorem PlainNumeral.isDigit_head {numeral : List Char} (h : PlainNumeral numeral) :
    ∃ c rest, numeral = c :: rest ∧ Number.isDigit c = true := by
  cases h with
  | whole hd =>
    obtain ⟨c, rest, rfl⟩ := List.exists_cons_of_ne_nil hd.1
    exact ⟨c, rest, rfl, hd.2 c List.mem_cons_self⟩
  | fraction hd =>
    obtain ⟨c, rest, rfl⟩ := List.exists_cons_of_ne_nil hd.1
    exact ⟨c, _, rfl, hd.2 c List.mem_cons_self⟩

/-! ## Written out -/

namespace Decimal

/-- An exponent is read as it was written. -/
theorem exponent_eq (e : Int) :
    Number.exponent ((if e < 0 then '-' else '+') :: padded 2 e.natAbs) = e := by
  split
  · simp only [Number.exponent, value_padded]
    omega
  · have hplus : Number.exponent ('+' :: padded 2 e.natAbs) =
        Number.value (padded 2 e.natAbs) := by
      simp [Number.exponent]
    rw [hplus, value_padded]
    omega

theorem expanded_append {mantissa : List Char} (h : 'e' ∉ mantissa) (e : List Char) :
    Number.expanded (mantissa ++ 'e' :: e) =
      Number.pointed
        (mantissa.takeWhile Number.isDigit ++ (mantissa.dropWhile Number.isDigit).drop 1)
        ((mantissa.takeWhile Number.isDigit).length + Number.exponent e) := by
  have hrun : ∀ c ∈ mantissa, decide (c ≠ 'e') = true :=
    fun c hc => decide_eq_true fun he => h (he ▸ hc)
  have htake : (mantissa ++ 'e' :: e).takeWhile (· ≠ 'e') = mantissa :=
    Segment.takeWhile_run hrun (by simp)
  have hdrop : (mantissa ++ 'e' :: e).dropWhile (· ≠ 'e') = 'e' :: e := by
    rw [List.dropWhile_append_of_pos hrun]
    rfl
  simp only [Number.expanded, htake, hdrop]
  rfl

/-- What is written with an exponent has one digit in front of the point, and the exponent says how
far the point is to be moved. -/
theorem expanded_scientific (g : Grid) : Number.expanded (scientific g) =
    Number.pointed (digits g.coefficient) (leadingExponent g + 1) := by
  have hdigits := digits_digits g.coefficient
  simp only [scientific]
  cases h : digits g.coefficient with
  | nil => exact absurd h hdigits.1
  | cons d rest =>
    rw [h] at hdigits
    have hd : Number.isDigit d = true := hdigits.2 d List.mem_cons_self
    have hpoint : Number.isDigit '.' = false := rfl
    have he : 'e' ∉ d :: rest := hdigits.not_mem rfl
    cases rest with
    | nil =>
      rw [expanded_append he, exponent_eq]
      simp [hd, Int.add_comm]
    | cons r rest =>
      have he : 'e' ∉ d :: '.' :: r :: rest := by
        simp only [List.mem_cons, not_or] at he ⊢
        exact ⟨he.1, by decide, he.2⟩
      rw [expanded_append he, exponent_eq]
      simp [hd, hpoint, Int.add_comm]

theorem lt_pow_length_digits (n : Nat) : n < 10 ^ (digits n).length :=
  (Nat.length_toDigits_le_iff (by decide) (List.length_pos_iff.2 (digits_digits n).1)).1 le_rfl

theorem pow_le_of_length_digits (hpos : 0 < n) (h : (digits n).length = l + 1) :
    10 ^ l ≤ n := by
  cases l with
  | zero => exact hpos
  | succ l =>
    by_contra hlt
    have hle := (Nat.length_toDigits_le_iff (b := 10) (by decide) l.succ_pos).2
      (Nat.lt_of_not_le hlt)
    rw [digits] at h
    omega

/-- Zeros are filled in between the point and the digits. -/
theorem pointed_of_low {g : Grid} (hpos : 0 < g.coefficient) (hlow : leadingExponent g + 1 ≤ 0) :
    Number.pointed (digits g.coefficient) (leadingExponent g + 1) = positional false g := by
  obtain ⟨d, p⟩ := g
  have hd := lt_pow_length_digits d
  have hlength := List.length_pos_iff.2 (digits_digits d).1
  simp only [leadingExponent] at hpos hlow ⊢
  obtain ⟨w, hw⟩ : ∃ w, p + w = 1074 := ⟨1074 - p, by omega⟩
  have hwidth : 1074 - p = w := by omega
  have hlt : d * 10 ^ p < one := by
    rw [one_eq_mul hw]
    refine Nat.mul_lt_mul_of_pos_right (Nat.lt_of_lt_of_le hd ?_) (Nat.pow_pos (by decide))
    exact Nat.pow_le_pow_right (by decide) (by omega)
  have hne : d * 10 ^ p ≠ 0 := Nat.ne_of_gt (Nat.mul_pos hpos (Nat.pow_pos (by decide)))
  have hzeros : ((p + (digits d).length : Int) - 1075 + 1).natAbs = w - (digits d).length := by
    omega
  simp only [Number.pointed, if_pos hlow, hzeros, positional, Nat.pow_eq, Nat.mod_eq_of_lt hlt,
    if_neg hne, Nat.div_eq_of_lt hlt, Nat.mul_div_cancel _ (Nat.pow_pos (n := p) Nat.succ_pos'),
    hwidth, padded]
  rfl

theorem digits_mul_pow (hpos : 0 < n) (j : Nat) :
    digits (n * 10 ^ j) = digits n ++ List.replicate j '0' := by
  induction j with
  | zero => simp
  | succ j ih =>
    have hmore := Nat.toDigits_append_toDigits (b := 10) (n := n * 10 ^ j) (d := 0) (by decide)
      (Nat.mul_pos hpos (Nat.pow_pos (by decide))) (by decide)
    rw [List.replicate_succ', ← List.append_assoc, ← ih, Nat.pow_succ, ← Nat.mul_assoc,
      Nat.mul_comm _ 10]
    exact hmore.symm

/-- Zeros are filled in behind the digits. -/
theorem pointed_of_whole {g : Grid} (hpos : 0 < g.coefficient) (hwhole : 1074 ≤ g.place) :
    Number.pointed (digits g.coefficient) (leadingExponent g + 1) = positional false g := by
  obtain ⟨d, p⟩ := g
  obtain ⟨j, rfl⟩ := Nat.exists_eq_add_of_le hwhole
  have hlength := List.length_pos_iff.2 (digits_digits d).1
  simp only [leadingExponent] at hpos ⊢
  have hunits : d * 10 ^ (1074 + j) = d * 10 ^ j * one := by
    rw [one_eq_pow rfl, Nat.mul_assoc, ← Nat.pow_add, Nat.add_comm]
  have hzeros : (((1074 + j : Nat) + (digits d).length : Int) - 1075 + 1 -
      (digits d).length).natAbs = j := by
    omega
  rw [Number.pointed, if_neg (by omega), if_pos (by omega), hzeros]
  simp only [positional, Nat.pow_eq, hunits, Nat.mul_mod_left, if_true,
    Nat.mul_div_cancel _ one_pos, digits_mul_pow hpos]
  simp

/-! ## Great numbers -/

theorem le_place_of_point {point? : Nat → Option Nat} (hq : point? q = some d) (hpos : 0 < q)
    (hle : q ≤ p) : q ≤ (descend point? last p).place := by
  induction p with
  | zero => omega
  | succ p ih =>
    rw [descend]
    cases hp : point? (p + 1) with
    | some d' => exact hle
    | none =>
      have hne : q ≠ p + 1 := by
        rintro rfl
        cases hq.symm.trans hp
      exact ih (by omega)

theorem exists_multiple? {passes : Nat → Bool} (h : passes (value / step * step) = true) :
    ∃ d, multiple? passes value step = some d := by
  unfold multiple?
  dsimp only
  rw [h]
  cases passes ((value / step + 1) * step) <;> exact ⟨_, rfl⟩

/-- A double that is on a grid is found there. -/
theorem exists_onGrid? (hpos : 0 < k) (hdvd : 10 ^ p ∣ units k) : ∃ d, onGrid? k p = some d := by
  refine exists_multiple? ?_
  rw [Nat.pow_eq, Nat.div_mul_cancel hdvd]
  exact roundsTo_units hpos

/-- The index from which on all doubles are whole numbers. -/
def wholeIndex : Nat := 1075 * Binary64.perBinade

theorem two_pow_dvd (hn : n = 1074) (h : n ≤ s) : Binary64.one ∣ 2 ^ s := by
  have hone : Binary64.one = 2 ^ n := by
    subst hn
    decide +kernel
  rw [hone]
  exact Nat.pow_dvd_pow 2 h

theorem one_dvd_units (hk : wholeIndex ≤ k) : one ∣ units k := by
  obtain ⟨s, m, rfl, hm, hs⟩ := Binary64.exists_significand k
  have hplace : 1074 ≤ s := by
    rw [wholeIndex] at hk
    by_contra hlt
    have hle := Nat.mul_le_mul_right Binary64.perBinade (Nat.le_of_lt_succ (Nat.lt_of_not_le hlt))
    omega
  have hunits := Binary64.units_eq hm.le hs
  rw [units_eq, hunits, one_eq, Nat.mul_comm scale]
  exact Nat.mul_dvd_mul_right ((two_pow_dvd rfl hplace).mul_left m) scale

theorem units_wholeIndex : units wholeIndex = 2 ^ 52 * one := by decide +kernel

theorem units_strictMono : StrictMono units := strictMono_nat_of_lt_succ units_lt_succ

/-- The shortest decimal is not beyond the next double, nor is it zero. -/
theorem shortest_bounds (hpos : 0 < k) : 0 < (shortest k).coefficient ∧
    (shortest k).coefficient * 10 ^ (shortest k).place ≤ units (k + 1) := by
  obtain ⟨hlow, hhigh, -⟩ := within_of_roundsTo hpos (roundsTo_shortest hpos)
  have hsucc := units_lt_succ k
  have hpred := units_lt_succ (k - 1)
  rw [Nat.add_mul, ← units_eq, ← units_eq] at hlow hhigh
  rw [Nat.sub_add_cancel hpos] at hpred
  refine ⟨Nat.pos_of_ne_zero fun hzero => ?_, by omega⟩
  rw [hzero, Nat.zero_mul] at hlow
  omega

/-- A decimal is no less than its leading digit. -/
theorem le_of_high {g : Grid} (hpos : 0 < g.coefficient) (hhigh : 16 ≤ leadingExponent g) :
    10 ^ 16 * one ≤ g.coefficient * 10 ^ g.place := by
  obtain ⟨d, p⟩ := g
  have hlength := List.length_pos_iff.2 (digits_digits d).1
  obtain ⟨l, hl⟩ : ∃ l, (digits d).length = l + 1 := ⟨_, (Nat.sub_add_cancel hlength).symm⟩
  simp only [leadingExponent, hl] at hpos hhigh ⊢
  obtain ⟨n, hn⟩ : ∃ n, n = 1074 := ⟨_, rfl⟩
  calc 10 ^ 16 * one
    _ = 10 ^ (16 + n) := by rw [one_eq_pow hn, Nat.pow_add]
    _ ≤ 10 ^ (l + p) := Nat.pow_le_pow_right (by decide) (by omega)
    _ = 10 ^ l * 10 ^ p := Nat.pow_add ..
    _ ≤ d * 10 ^ p := Nat.mul_le_mul_right _ (pow_le_of_length_digits hpos hl)

/-- The search for the shortest decimal of a number that is not less than one begins with a grid of
whole numbers. -/
theorem le_beyond (h : one ≤ units k) : 1074 ≤ beyond k := by
  obtain ⟨n, hn⟩ : ∃ n, n = 3565 := ⟨_, rfl⟩
  have hpow : 2 ^ n ≤ one := by
    subst hn
    decide +kernel
  have hlog : n ≤ (units k).log2 :=
    (Nat.le_log2 (Nat.ne_of_gt (Nat.lt_of_lt_of_le one_pos h))).2 (hpow.trans h)
  rw [beyond]
  omega

/-- The shortest decimal of a great number has no digit behind the point. -/
theorem whole_of_high (hpos : 0 < k) (hhigh : 16 ≤ leadingExponent (shortest k)) :
    1074 ≤ (shortest k).place := by
  obtain ⟨hcoefficient, hnext⟩ := shortest_bounds hpos
  have hle := (le_of_high hcoefficient hhigh).trans hnext
  have hk : wholeIndex ≤ k := by
    by_contra hlt
    have hmono := units_strictMono.monotone (Nat.lt_of_not_le hlt)
    rw [units_wholeIndex] at hmono
    exact absurd (Nat.le_of_mul_le_mul_right (hle.trans hmono) one_pos) (by decide)
  have hdvd := one_dvd_units hk
  have hunits : 0 < units k := Nat.zero_lt_of_lt (units_strictMono hpos)
  obtain ⟨d, hd⟩ := exists_onGrid? (p := 1074) hpos (one_eq_pow rfl ▸ hdvd)
  exact le_place_of_point hd (by decide) (le_beyond (Nat.le_of_dvd hunits hdvd))

/-! ## Listed and printed -/

/-- A number listed without an exponent is printed the same, or has a fraction of zero. -/
theorem positional_true (g : Grid) :
    positional true g = positional false g ∨
      positional true g = positional false g ++ ['.', '0'] := by
  unfold positional
  dsimp only
  split
  · exact .inr (by simp)
  · exact .inl rfl

theorem scientific_eq_cons (g : Grid) :
    ∃ d rest, scientific g = d :: rest ∧ Number.isDigit d = true ∧ 'e' ∈ d :: rest := by
  obtain ⟨d, rest, h⟩ := List.exists_cons_of_ne_nil (digits_digits g.coefficient).1
  have hd : Number.isDigit d = true :=
    (digits_digits g.coefficient).2 d (h ▸ List.mem_cons_self)
  cases rest with
  | nil => exact ⟨d, _, by rw [scientific, h]; rfl, hd, by simp⟩
  | cons r rest => exact ⟨d, _, by rw [scientific, h]; rfl, hd, by simp⟩

/-- Without an exponent, only a fraction of zero is in the way. -/
theorem plain_positional (g : Grid) : Number.plain (positional true g) = positional false g := by
  have hplain := (positional_reads g).1
  have hno : (positional true g).contains 'e' = false := by
    rcases positional_true g with h | h <;> simp [h, hplain.no_exponent]
  rw [Number.plain, hno, if_neg Bool.false_ne_true]
  rcases positional_true g with h | h
  · rw [h, hplain.withoutZeroFraction_eq]
  · rw [h, Number.withoutZeroFraction_append]

/-- With an exponent, nothing is in the way once the number is written out. -/
theorem plain_scientific {g : Grid} (hpos : 0 < g.coefficient)
    (h : leadingExponent g + 1 ≤ 0 ∨ 1074 ≤ g.place) :
    Number.plain (scientific g) = positional false g := by
  have hexpanded : Number.expanded (scientific g) = positional false g := by
    rw [expanded_scientific]
    exact h.elim (pointed_of_low hpos) (pointed_of_whole hpos)
  obtain ⟨d, rest, heq, hd, he⟩ := scientific_eq_cons g
  have hwritten : Number.writtenOut (scientific g) = Number.expanded (scientific g) := by
    rw [heq, Number.writtenOut]
    rintro _ ⟨⟩
    cases hd
  have hcontains : (scientific g).contains 'e' = true := by
    rw [heq, List.contains_iff_mem]
    exact he
  rw [Number.plain, hcontains, if_pos rfl, hwritten, hexpanded,
    (positional_reads g).1.withoutZeroFraction_eq]

theorem plain_magnitude (k : Nat) :
    Number.plain (magnitude Number.listed k) = magnitude Number.printed k := by
  rcases Nat.eq_zero_or_pos k with rfl | hpos
  · rfl
  · have hprinted : magnitude Number.printed k = positional false (shortest k) := by
      rw [magnitude, if_neg (Nat.ne_of_gt hpos)]
      rfl
    rw [hprinted, magnitude, if_neg (Nat.ne_of_gt hpos)]
    simp only [Number.listed]
    split
    · exact plain_positional _
    · next hexponent =>
      refine plain_scientific (shortest_bounds hpos).1 ?_
      rcases lt_or_ge (leadingExponent (shortest k)) 16 with hlt | hge
      · left
        omega
      · exact .inr (whole_of_high hpos hge)

theorem head_magnitude (k : Nat) :
    ∃ d rest, magnitude Number.listed k = d :: rest ∧ Number.isDigit d = true := by
  rcases Nat.eq_zero_or_pos k with rfl | hpos
  · exact ⟨_, _, rfl, rfl⟩
  · rw [magnitude, if_neg (Nat.ne_of_gt hpos)]
    simp only [Number.listed]
    split
    · obtain ⟨d, rest, h, hd⟩ := (positional_reads (shortest k)).1.isDigit_head
      rcases positional_true (shortest k) with heq | heq
      · exact ⟨d, rest, heq.trans h, hd⟩
      · exact ⟨d, rest ++ ['.', '0'], by rw [heq, h, List.cons_append], hd⟩
    · obtain ⟨d, rest, h, hd, -⟩ := scientific_eq_cons (shortest k)
      exact ⟨d, rest, h, hd⟩

end Decimal

/-- A sign in front stays there. -/
theorem Number.plain_minus (hd : isDigit d = true) :
    plain ('-' :: d :: rest) = '-' :: plain (d :: rest) := by
  have hwritten : writtenOut (d :: rest) = expanded (d :: rest) := by
    rw [writtenOut]
    rintro _ ⟨⟩
    cases hd
  have hcontains : ('-' :: d :: rest).contains 'e' = (d :: rest).contains 'e' := rfl
  rw [plain, plain, hcontains, ← withoutZeroFraction_minus, hwritten]
  split <;> rfl

/-- What a program prints of a number is the shortest decimal, written without an exponent and
without a needless fraction. -/
theorem Number.text_eq_write (x : Float) : text x = Decimal.write printed x := by
  simp only [text, Decimal.write]
  split
  · rfl
  · next hnan =>
    split
    · next hinf =>
      split <;> rfl
    · next hinf =>
      obtain ⟨d, rest, hd, hdigit⟩ := Decimal.head_magnitude (Binary64.index x)
      have hmagnitude := Decimal.plain_magnitude (Binary64.index x)
      simp only [listing, Decimal.write, if_neg hnan, if_neg hinf, String.toList_ofList]
      split
      · rw [hd, plain_minus hdigit, ← hd, hmagnitude]
      · rw [hmagnitude]

end LoxLang
