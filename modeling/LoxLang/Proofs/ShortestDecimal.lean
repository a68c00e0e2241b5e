import LoxLang.Number
import LoxLang.Proofs.MaximalMunch
import LoxLang.Proofs.Rounding

/-!
# The shortest decimal

Every decimal that the search for the shortest one ends with lies between the boundaries of its
double (`Decimal.roundsTo_shortest`), and written without an exponent it is a numeral of just that
value (`Decimal.positional_reads`). So the numeral is read to the double
(`Decimal.magnitude_reads`).
-/

namespace LoxLang

namespace Decimal

/-! ## The search -/

/-- How many units of `10 ^ (-1074)` one unit of `2 ^ (-1074)` is. -/
def scale : Nat := Nat.pow 5 1074

theorem scale_pos : 0 < scale := by decide +kernel

theorem units_eq (k : Nat) : units k = Binary64.units k * scale := by
  unfold units scale
  rfl

theorem one_eq : one = scale * Binary64.one := by decide +kernel

theorem units_lt_succ (k : Nat) : units k < units (k + 1) := by
  rw [units_eq, units_eq]
  exact Nat.mul_lt_mul_of_pos_right (Binary64.units_lt_succ k) scale_pos

/-- A double lies between its boundaries. -/
theorem boundary_lt (hpos : 0 < k) :
    boundary (k - 1) < 2 * units k ∧ 2 * units k < boundary k := by
  have hlow := units_lt_succ (k - 1)
  have hhigh := units_lt_succ k
  simp only [boundary, Nat.sub_add_cancel hpos] at hlow ⊢
  omega

/-- The double itself rounds to itself. -/
theorem roundsTo_units (hpos : 0 < k) : roundsTo k (units k) = true := by
  simp [roundsTo, boundary_lt hpos]

theorem within_of_roundsTo (hpos : 0 < k) (h : roundsTo k n = true) :
    Binary64.Within k n scale := by
  have hlow : boundary (k - 1) =
      (Binary64.units (k - 1) + Binary64.units k) * scale := by
    rw [boundary, Nat.sub_add_cancel hpos, units_eq, units_eq, Nat.add_mul]
  have hhigh : boundary k = (Binary64.units k + Binary64.units (k + 1)) * scale := by
    rw [boundary, units_eq, units_eq, Nat.add_mul]
  have hlt := boundary_lt hpos
  simp only [roundsTo, Bool.or_eq_true, Bool.and_eq_true, decide_eq_true_eq, beq_iff_eq] at h
  constructor
  · rw [← hlow]
    omega
  · rw [← hhigh]
    omega
  · rw [← hlow, ← hhigh]
    omega

/-- What rounds to a finite double is read to it. -/
theorem nearest_of_roundsTo (hpos : 0 < k) (hk : k < Binary64.infinity)
    (h : roundsTo k n = true) : Binary64.nearest n one = k := by
  rw [Binary64.nearest_eq, one_eq, Binary64.ofUnits_mul _ _ Binary64.one_pos]
  exact (within_of_roundsTo hpos h).ofUnits_eq scale_pos hpos hk

theorem passes_of_multiple? {passes : Nat → Bool} (h : multiple? passes value step = some d) :
    passes (d * step) = true := by
  unfold multiple? at h
  dsimp only at h
  split at h
  · next hbelow habove =>
    cases h
    rcases Binary64.roundHalfEven_cases value step with heq | heq
    · rwa [heq]
    · rwa [heq]
  · next hbelow _ =>
    cases h
    exact hbelow
  · next _ habove =>
    cases h
    exact habove
  · cases h

theorem passes_of_descend {passes : Nat → Bool} {point? : Nat → Option Nat}
    (hlast : passes last = true)
    (hpoint : ∀ p d, point? p = some d → passes (d * 10 ^ p) = true) (p : Nat) :
    passes ((descend point? last p).coefficient * 10 ^ (descend point? last p).place) = true := by
  induction p with
  | zero => simpa [descend] using hlast
  | succ p ih =>
    rw [descend]
    cases h : point? (p + 1) with
    | none => exact ih
    | some d => exact hpoint _ _ h

/-- The shortest decimal rounds to the double. -/
theorem roundsTo_shortest (hpos : 0 < k) :
    roundsTo k ((shortest k).coefficient * 10 ^ (shortest k).place) = true := by
  unfold shortest
  exact passes_of_descend (roundsTo_units hpos) (fun p d h => passes_of_multiple? h) _

end Decimal

/-! ## Digits -/

/-- A numeral without an exponent and without a needless fraction. -/
inductive PlainNumeral : List Char → Prop
  | whole (hd : Digits ds) : PlainNumeral ds
  | fraction (hd : Digits ds) (he : Digits es) (hne : ∃ c ∈ es, c ≠ '0') :
    PlainNumeral (ds ++ '.' :: es)

namespace Number

/-- The way to write a number at once as a program prints it: no exponent, no fraction on a whole
number. -/
def printed : Decimal.Layout := ⟨none, false, "NaN", "Infinity"⟩

theorem value_eq (cs : List Char) : value cs = Nat.ofDigitChars 10 cs 0 :=
  Nat.ofDigitChars_eq_foldl.symm

theorem value_append (cs ds : List Char) :
    value (cs ++ ds) = value cs * 10 ^ ds.length + value ds := by
  rw [value_eq, value_eq, value_eq, Nat.ofDigitChars_append, Nat.ofDigitChars_eq_ofDigitChars_zero,
    Nat.mul_comm]

theorem value_zeros (n : Nat) : value (List.replicate n '0') = 0 := by
  rw [value_eq, Nat.ofDigitChars_replicate_zero, Nat.mul_zero]

theorem value_digits (n : Nat) : value (Decimal.digits n) = n := by
  rw [value_eq, Decimal.digits, Nat.ofDigitChars_ten_toDigits]

/-- Zeros alone have the value zero. -/
theorem exists_ne_zero {cs : List Char} (h : value cs ≠ 0) : ∃ c ∈ cs, c ≠ '0' := by
  by_contra hno
  have hzeros : cs = List.replicate cs.length '0' :=
    List.eq_replicate_of_mem fun c hc => by_contra fun hne => hno ⟨c, hc, hne⟩
  rw [hzeros, value_zeros] at h
  exact h rfl

theorem takeWhile_digits {ds : List Char} (hd : Digits ds) : ds.takeWhile isDigit = ds :=
  List.takeWhile_eq_self_iff.2 hd.2

theorem ofNumeral_whole {ds : List Char} (hd : Digits ds) :
    ofNumeral ds = Binary64.ofIndex false (Binary64.nearest (value ds) 1) := by
  have hdrop : ds.dropWhile isDigit = [] := List.dropWhile_eq_nil_iff.2 hd.2
  simp [ofNumeral, takeWhile_digits hd, hdrop]

theorem ofNumeral_fraction {ds es : List Char} (hd : Digits ds) :
    ofNumeral (ds ++ '.' :: es) =
      Binary64.ofIndex false (Binary64.nearest (value (ds ++ es)) (10 ^ es.length)) := by
  have htake : (ds ++ '.' :: es).takeWhile isDigit = ds :=
    Segment.takeWhile_run hd.2 (by simp [isDigit])
  have hdrop : (ds ++ '.' :: es).dropWhile isDigit = '.' :: es := by
    rw [List.dropWhile_append_of_pos hd.2]
    rfl
  simp only [ofNumeral, htake, hdrop, List.drop_succ_cons, List.drop_zero]
  rfl

end Number

namespace Decimal

theorem digits_digits (n : Nat) : Digits (digits n) := by
  refine ⟨Nat.toDigits_ne_nil, fun c hc => ?_⟩
  have hdigit := Nat.isDigit_of_mem_toDigits (by decide) (Nat.le_refl 10) hc
  simpa [Number.isDigit, Char.isDigit, Char.le_def] using hdigit

theorem digits_padded (w n : Nat) : Digits (padded w n) := by
  refine ⟨fun h => (digits_digits n).1 (List.append_eq_nil_iff.1 h).2, fun c hc => ?_⟩
  rcases List.mem_append.1 hc with hc | hc
  · rw [List.eq_of_mem_replicate hc]
    rfl
  · exact (digits_digits n).2 c hc

theorem value_padded (w n : Nat) : Number.value (padded w n) = n := by
  rw [padded, Number.value_append, Number.value_zeros, Number.value_digits, Nat.zero_mul,
    Nat.zero_add]

theorem length_padded (hw : 0 < w) (hn : n < 10 ^ w) : (padded w n).length = w := by
  have hle : (digits n).length ≤ w := (Nat.length_toDigits_le_iff (by decide) hw).2 hn
  rw [padded, List.length_append, List.length_replicate]
  omega

/-! ## Written without an exponent -/

theorem one_pos : 0 < one := by decide +kernel

theorem one_eq_pow (h : n = 1074) : one = 10 ^ n := by
  subst h
  decide +kernel

theorem one_eq_mul (h : p + w = 1074) : one = 10 ^ w * 10 ^ p := by
  rw [one_eq_pow h, Nat.pow_add, Nat.mul_comm]

theorem one_dvd (h : 1074 ≤ p) : one ∣ 10 ^ p := by
  generalize hn : 1074 = n at h
  rw [one_eq_pow hn.symm]
  exact Nat.pow_dvd_pow 10 h

/-- The fraction is a whole number of the grid's steps, less than one has. -/
theorem exists_steps (h : n % one ≠ 0) (hn : 10 ^ p ∣ n) :
    ∃ w f, p + w = 1074 ∧ 0 < w ∧ 0 < f ∧ f < 10 ^ w ∧ n % one = f * 10 ^ p := by
  have hp : p < 1074 := by
    by_contra hle
    exact h (Nat.mod_eq_zero_of_dvd ((one_dvd (Nat.le_of_not_lt hle)).trans hn))
  obtain ⟨w, hw⟩ := Nat.exists_eq_add_of_lt hp
  have hone : one = 10 ^ (w + 1) * 10 ^ p := one_eq_mul (by omega)
  have hfrac : 10 ^ p ∣ n % one := (Nat.dvd_mod_iff ⟨_, by rw [hone, Nat.mul_comm]⟩).2 hn
  obtain ⟨f, hf⟩ := hfrac
  rw [Nat.mul_comm] at hf
  refine ⟨w + 1, f, by omega, by omega, ?_, ?_, hf⟩
  · refine Nat.pos_of_ne_zero fun hzero => h ?_
    rw [hf, hzero, Nat.zero_mul]
  · refine Nat.lt_of_mul_lt_mul_right (a := 10 ^ p) ?_
    rw [← hf, ← hone]
    exact Nat.mod_lt _ one_pos

/-- The numeral of a decimal is read to the double that is nearest to the decimal. -/
theorem positional_reads (g : Grid) :
    PlainNumeral (positional false g) ∧
      Number.ofNumeral (positional false g) =
        Binary64.ofIndex false (Binary64.nearest (g.coefficient * 10 ^ g.place) one) := by
  obtain ⟨d, p⟩ := g
  have hdvd : 10 ^ p ∣ d * 10 ^ p := Nat.dvd_mul_left ..
  have hsplit := Nat.div_add_mod' (d * 10 ^ p) one
  simp only [positional, Nat.pow_eq]
  generalize hn : d * 10 ^ p = n at hdvd hsplit
  by_cases hzero : n % one = 0
  · rw [hzero, Nat.add_zero] at hsplit
    rw [if_pos hzero, if_neg Bool.false_ne_true, List.append_nil]
    refine ⟨.whole (digits_digits _), ?_⟩
    rw [Number.ofNumeral_whole (digits_digits _), Number.value_digits,
      ← Binary64.nearest_mul _ 1 one_pos, hsplit, Nat.one_mul]
  · rw [if_neg hzero]
    obtain ⟨w, f, hw, hpos, hf, hlt, hsteps⟩ := exists_steps hzero hdvd
    have hwidth : 1074 - p = w := by omega
    have hcoefficient : n % one / 10 ^ p = f := by
      rw [hsteps, Nat.mul_div_cancel _ (Nat.pow_pos (by decide))]
    rw [hwidth, hcoefficient]
    have hlength := length_padded hpos hlt
    refine ⟨.fraction (digits_digits _) (digits_padded _ _) (Number.exists_ne_zero ?_), ?_⟩
    · rw [value_padded]
      omega
    · have hstep : 0 < 10 ^ p := Nat.pow_pos (by decide)
      rw [Number.ofNumeral_fraction (digits_digits _), Number.value_append, Number.value_digits,
        value_padded, hlength, ← Binary64.nearest_mul _ _ hstep, Nat.add_mul, ← hsteps,
        Nat.mul_assoc, ← one_eq_mul hw, hsplit]

/-- The text of a finite double without its sign is a numeral that is read to it. -/
theorem magnitude_reads (hk : k < Binary64.infinity) :
    PlainNumeral (magnitude Number.printed k) ∧
      Number.ofNumeral (magnitude Number.printed k) = Binary64.ofIndex false k := by
  by_cases hzero : k = 0
  · have htext : magnitude Number.printed 0 = ['0'] := rfl
    have hdigits : Digits ['0'] := ⟨by simp, by simp [Number.isDigit]⟩
    have hnearest : Binary64.nearest (Number.value ['0']) 1 = 0 := by decide +kernel
    rw [hzero, htext]
    exact ⟨.whole hdigits, by rw [Number.ofNumeral_whole hdigits, hnearest]⟩
  · have hpos : 0 < k := Nat.pos_of_ne_zero hzero
    have htext : magnitude Number.printed k = positional false (shortest k) := by
      rw [magnitude, if_neg hzero]
      rfl
    have hreads := positional_reads (shortest k)
    rw [nearest_of_roundsTo hpos hk (roundsTo_shortest hpos)] at hreads
    rw [htext]
    exact hreads

end Decimal

end LoxLang
