import LoxLang.Decimal.Shortest
import Mathlib.Tactic.Linarith
import Mathlib.Tactic.Ring

/-!
# Rounding

Around every finite double there is an interval, up to the boundaries with its two neighbours
(`Within`), and everything inside it rounds to the double (`Within.ofUnits_eq`). A double at the
start of a binade has its lower neighbour twice as near as its upper one: what is below it rounds
with the finer spacing, and comes out as one past the last double of the binade before, which is the
double itself.
-/

namespace LoxLang

namespace Binary64

/-! ## Indices and units -/

theorem perBinade_eq : perBinade = 2 ^ 52 := rfl

theorem perBinade_pos : 0 < perBinade := Nat.pow_pos (by decide)

/-- A significand and the spacing that it counts, of which `2 ^ 53` is the start of the next
binade. -/
theorem units_eq (hm : m ≤ 2 * perBinade) (h : s = 0 ∨ perBinade ≤ m) :
    units (s * perBinade + m) = m * 2 ^ s := by
  have hB := perBinade_pos
  rcases Nat.lt_or_ge m perBinade with hlt | hge
  · obtain rfl : s = 0 := h.resolve_right (Nat.not_le.2 hlt)
    simp [units, hlt]
  · obtain ⟨r, rfl⟩ := Nat.exists_eq_add_of_le hge
    have hk : s * perBinade + (perBinade + r) = r + (s + 1) * perBinade := by ring
    rw [hk, units, if_neg (by nlinarith), Nat.add_mul_mod_self_right, Nat.add_mul_div_right _ _ hB]
    rcases Nat.lt_or_ge r perBinade with hr | hr
    · rw [Nat.mod_eq_of_lt hr, Nat.div_eq_of_lt hr, Nat.zero_add, Nat.add_sub_cancel]
      rfl
    · obtain rfl : r = perBinade := by omega
      rw [Nat.mod_self, Nat.div_self hB, Nat.add_comm 1, Nat.add_sub_cancel]
      show (perBinade + 0) * 2 ^ (s + 1) = _
      ring

/-- Every index has a binade and a significand. -/
theorem exists_significand (k : Nat) :
    ∃ s m, k = s * perBinade + m ∧ m < 2 * perBinade ∧ (s = 0 ∨ perBinade ≤ m) := by
  have hB := perBinade_pos
  rcases Nat.lt_or_ge k perBinade with hlt | hge
  · exact ⟨0, k, by omega, by omega, .inl rfl⟩
  · obtain ⟨j, rfl⟩ := Nat.exists_eq_add_of_le hge
    refine ⟨j / perBinade, perBinade + j % perBinade, ?_, ?_, .inr (Nat.le_add_right _ _)⟩
    · have := Nat.div_add_mod' j perBinade
      omega
    · have := Nat.mod_lt j hB
      omega

theorem units_succ (hm : m < 2 * perBinade) (h : s = 0 ∨ perBinade ≤ m) :
    units (s * perBinade + m + 1) = (m + 1) * 2 ^ s := by
  rw [Nat.add_assoc]
  exact units_eq hm (h.imp_right Nat.le_succ_of_le)

theorem units_lt_succ (k : Nat) : units k < units (k + 1) := by
  obtain ⟨s, m, rfl, hm, h⟩ := exists_significand k
  rw [units_eq hm.le h, units_succ hm h]
  exact Nat.mul_lt_mul_of_pos_right (Nat.lt_succ_self m) (Nat.two_pow_pos s)

/-- The lower neighbour, twice as near at the start of a binade. -/
theorem units_pred (hpos : 0 < m) (hm : m < 2 * perBinade) (h : s = 0 ∨ perBinade < m) :
    units (s * perBinade + m - 1) = (m - 1) * 2 ^ s := by
  rw [Nat.add_sub_assoc hpos]
  exact units_eq (by omega) (h.imp_right fun h => by omega)

theorem units_pred_binade (s : Nat) :
    units ((s + 1) * perBinade + perBinade - 1) = (2 * perBinade - 1) * 2 ^ s := by
  have hB := perBinade_pos
  have hk : (s + 1) * perBinade + perBinade - 1 = s * perBinade + (2 * perBinade - 1) := by
    rw [Nat.succ_mul]
    omega
  rw [hk]
  exact units_eq (by omega) (.inr (by omega))

/-! ## Rounding to whole numbers -/

theorem roundHalfEven_mul (num den : Nat) (hc : 0 < c) :
    roundHalfEven (num * c) (den * c) = roundHalfEven num den := by
  simp only [roundHalfEven, Nat.mul_div_mul_right _ _ hc, Nat.mul_mod_mul_right, ← Nat.mul_assoc,
    Nat.mul_lt_mul_right hc]

theorem roundHalfEven_cases (num den : Nat) :
    roundHalfEven num den = num / den ∨ roundHalfEven num den = num / den + 1 := by
  simp only [roundHalfEven]
  split
  · exact .inl rfl
  · split
    · exact .inr rfl
    · omega

/-- A number within half a step of a multiple of the step, and from an odd multiple by less. -/
theorem roundHalfEven_eq (hstep : 0 < step) (hlow : 2 * (q * step) ≤ 2 * n + step)
    (hhigh : 2 * n ≤ 2 * (q * step) + step)
    (htie : 2 * (q * step) = 2 * n + step ∨ 2 * n = 2 * (q * step) + step → q % 2 = 0) :
    roundHalfEven n step = q := by
  have hdiv := Nat.div_add_mod' n step
  have hrem := Nat.mod_lt n hstep
  have hside : q = n / step ∨ q = n / step + 1 := by
    rcases Nat.lt_or_ge q (n / step) with hq | hq
    · have := Nat.mul_le_mul_right step hq
      rw [Nat.succ_mul] at this
      omega
    · rcases Nat.lt_or_ge (n / step + 1) q with hq' | hq'
      · have := Nat.mul_le_mul_right step hq'
        rw [Nat.succ_mul, Nat.succ_mul] at this
        omega
      · omega
  simp only [roundHalfEven]
  rcases hside with rfl | rfl
  · rw [if_neg (show ¬step < 2 * (n % step) by omega)]
    split
    · rfl
    · rw [htie (.inr (by omega)), Nat.add_zero]
  · have hnext : (n / step + 1) * step = n / step * step + step := Nat.succ_mul _ _
    rw [if_neg (by omega)]
    split
    · rfl
    · have heven : (n / step + 1) % 2 = 0 := htie (.inl (by omega))
      omega

/-! ## Rounding to doubles -/

/-- The index of the double nearest to a number of units, given as a quotient. -/
def ofUnits (num den : Nat) : Nat :=
  let spacing := (num / den).log2 - 52
  min infinity (spacing * perBinade + roundHalfEven num (den * Nat.pow 2 spacing))

/-- The number 1 in units of `2 ^ (-1074)`. -/
def one : Nat := Nat.pow 2 1074

theorem one_pos : 0 < one := by decide +kernel

theorem nearest_eq (num den : Nat) : nearest num den = ofUnits (num * one) den := by
  unfold nearest ofUnits one
  rfl

theorem ofUnits_mul (num den : Nat) (hc : 0 < c) :
    ofUnits (num * c) (den * c) = ofUnits num den := by
  simp only [ofUnits, Nat.mul_div_mul_right _ _ hc, Nat.mul_right_comm den c,
    roundHalfEven_mul _ _ hc]

theorem nearest_mul (num den : Nat) (hc : 0 < c) :
    nearest (num * c) (den * c) = nearest num den := by
  rw [nearest_eq, Nat.mul_right_comm, ofUnits_mul _ _ hc, nearest_eq]

/-- The spacing of the doubles around a number of units. -/
theorem spacing_eq (hden : 0 < den) (hlow : s = 0 ∨ perBinade * (den * 2 ^ s) ≤ num)
    (hhigh : num < 2 * (perBinade * (den * 2 ^ s))) : (num / den).log2 - 52 = s := by
  have hquot : num / den < 2 ^ (s + 53) := by
    rw [Nat.div_lt_iff_lt_mul hden]
    calc num < 2 * (perBinade * (den * 2 ^ s)) := hhigh
      _ = 2 ^ (s + 53) * den := by rw [perBinade_eq]; ring
  have hlog : (num / den).log2 < s + 53 := by
    rcases Nat.eq_zero_or_pos (num / den) with hzero | hpos
    · rw [hzero, Nat.log2_zero]
      omega
    · exact (Nat.log2_lt hpos.ne').2 hquot
  rcases hlow with rfl | hlow
  · omega
  · have hle : 2 ^ (s + 52) ≤ num / den := by
      rw [Nat.le_div_iff_mul_le hden]
      calc 2 ^ (s + 52) * den = perBinade * (den * 2 ^ s) := by rw [perBinade_eq]; ring
        _ ≤ num := hlow
    have hne : num / den ≠ 0 := (Nat.lt_of_lt_of_le (Nat.two_pow_pos _) hle).ne'
    have := (Nat.le_log2 hne).2 hle
    omega

theorem ofUnits_eq (hden : 0 < den) (hlow : s = 0 ∨ perBinade * (den * 2 ^ s) ≤ num)
    (hhigh : num < 2 * (perBinade * (den * 2 ^ s))) (hk : s * perBinade + q ≤ infinity)
    (hround : roundHalfEven num (den * 2 ^ s) = q) : ofUnits num den = s * perBinade + q := by
  simp only [ofUnits, spacing_eq hden hlow hhigh]
  rw [Nat.pow_eq, hround, Nat.min_eq_right hk]

theorem two_dvd_perBinade : 2 ∣ perBinade := by
  rw [perBinade_eq]
  exact ⟨2 ^ 51, rfl⟩

/-- Within half a step on both sides of a significand that is not the first of its binade. -/
theorem ofUnits_regular (hden : 0 < den) (hm : m < 2 * perBinade) (hs : s = 0 ∨ perBinade < m)
    (hk : s * perBinade + m ≤ infinity) (hlow : 2 * (m * (den * 2 ^ s)) ≤ 2 * num + den * 2 ^ s)
    (hhigh : 2 * num ≤ 2 * (m * (den * 2 ^ s)) + den * 2 ^ s)
    (htie : 2 * (m * (den * 2 ^ s)) = 2 * num + den * 2 ^ s ∨
      2 * num = 2 * (m * (den * 2 ^ s)) + den * 2 ^ s → m % 2 = 0) :
    ofUnits num den = s * perBinade + m := by
  have hstep : 0 < den * 2 ^ s := Nat.mul_pos hden (Nat.two_pow_pos s)
  refine ofUnits_eq hden (hs.imp_right fun hlt => ?_) ?_ hk
    (roundHalfEven_eq hstep hlow hhigh htie)
  · have := Nat.mul_le_mul_right (den * 2 ^ s) hlt
    rw [Nat.succ_mul] at this
    omega
  · have := Nat.mul_le_mul_right (den * 2 ^ s) hm
    rw [Nat.succ_mul, Nat.mul_assoc] at this
    omega

/-- Around the first double of a binade. What is not below it is within half of its own step, and
what is below it is within half of the step of the binade before. -/
theorem ofUnits_binade (hden : 0 < den) (hk : (s + 1) * perBinade + perBinade ≤ infinity)
    (hlow : 4 * (perBinade * (den * 2 ^ s)) ≤ 2 * num + den * 2 ^ s)
    (hhigh : num ≤ 2 * (perBinade * (den * 2 ^ s)) + den * 2 ^ s) :
    ofUnits num den = (s + 1) * perBinade + perBinade := by
  have heven := Nat.mod_eq_zero_of_dvd two_dvd_perBinade
  have hstep : 0 < den * 2 ^ s := Nat.mul_pos hden (Nat.two_pow_pos s)
  have hmany := Nat.mul_le_mul_right (den * 2 ^ s) perBinade_pos
  rcases Nat.lt_or_ge num (2 * (perBinade * (den * 2 ^ s))) with hbelow | habove
  · have hindex : (s + 1) * perBinade + perBinade = s * perBinade + 2 * perBinade := by ring
    rw [hindex] at hk ⊢
    refine ofUnits_eq hden (.inr (by omega)) hbelow hk (roundHalfEven_eq hstep ?_ ?_ ?_)
    · rw [Nat.mul_assoc]
      omega
    · rw [Nat.mul_assoc]
      omega
    · exact fun _ => Nat.mul_mod_right 2 perBinade
  · have hcoarse : den * 2 ^ (s + 1) = 2 * (den * 2 ^ s) := by ring
    have hproduct : perBinade * (2 * (den * 2 ^ s)) = 2 * (perBinade * (den * 2 ^ s)) := by ring
    refine ofUnits_eq hden (.inr ?_) ?_ hk (roundHalfEven_eq ?_ ?_ ?_ fun _ => heven) <;>
      rw [hcoarse] <;> omega

/-- A number of units between the boundaries of a double, where an end belongs to the double if its
index is even. -/
structure Within (k num den : Nat) : Prop where
  low : (units (k - 1) + units k) * den ≤ 2 * num
  high : 2 * num ≤ (units k + units (k + 1)) * den
  even : (units (k - 1) + units k) * den = 2 * num ∨ 2 * num = (units k + units (k + 1)) * den →
    k % 2 = 0

/-- Twice the upper boundary: half a step above. -/
theorem twice_upper (den : Nat) (hm : m < 2 * perBinade) (hs : s = 0 ∨ perBinade ≤ m) :
    (units (s * perBinade + m) + units (s * perBinade + m + 1)) * den =
      2 * (m * (den * 2 ^ s)) + den * 2 ^ s := by
  rw [units_eq hm.le hs, units_succ hm hs]
  ring

/-- Twice the lower boundary: half a step below, unless a binade begins. -/
theorem twice_lower (den : Nat) (hpos : 0 < m) (hm : m < 2 * perBinade)
    (hs : s = 0 ∨ perBinade < m) :
    (units (s * perBinade + m - 1) + units (s * perBinade + m)) * den + den * 2 ^ s =
      2 * (m * (den * 2 ^ s)) := by
  rw [units_eq hm.le (hs.imp_right Nat.le_of_lt), units_pred hpos hm hs]
  obtain ⟨j, rfl⟩ := Nat.exists_eq_add_of_lt hpos
  rw [Nat.add_sub_cancel]
  ring

/-- Twice the lower boundary where a binade begins: half a step of the binade before below. -/
theorem twice_lower_binade (s den : Nat) :
    (units ((s + 1) * perBinade + perBinade - 1) + units ((s + 1) * perBinade + perBinade)) * den +
      den * 2 ^ s = 4 * (perBinade * (den * 2 ^ s)) := by
  have hB := perBinade_pos
  have hunits : units ((s + 1) * perBinade + perBinade) = perBinade * 2 ^ (s + 1) :=
    units_eq (by omega) (.inr le_rfl)
  rw [units_pred_binade, hunits]
  calc ((2 * perBinade - 1) * 2 ^ s + perBinade * 2 ^ (s + 1)) * den + den * 2 ^ s
      = (2 * perBinade - 1 + 1) * 2 ^ s * den + 2 * perBinade * 2 ^ s * den := by ring
    _ = 4 * (perBinade * (den * 2 ^ s)) := by rw [Nat.sub_add_cancel (by omega)]; ring

/-- What is between the boundaries of a double is nearest to it. -/
theorem Within.ofUnits_eq (h : Within k num den) (hden : 0 < den) (hpos : 0 < k)
    (hk : k < infinity) : ofUnits num den = k := by
  obtain ⟨s, m, rfl, hm, hs⟩ := exists_significand k
  obtain ⟨hlow, hhigh, heven⟩ := h
  rw [twice_upper den hm hs] at hhigh heven
  by_cases hregular : s = 0 ∨ perBinade < m
  · have hmpos : 0 < m := by
      rcases hregular with rfl | hlt
      · omega
      · omega
    have hlower := twice_lower den hmpos hm hregular
    refine ofUnits_regular hden hm hregular hk.le (by omega) (by omega) fun htie => ?_
    have hparity := heven (by omega)
    have hB := Nat.mod_eq_zero_of_dvd two_dvd_perBinade
    rwa [Nat.add_mod, Nat.mul_mod, hB, Nat.mul_zero, Nat.zero_mod, Nat.zero_add,
      Nat.mod_mod] at hparity
  · obtain ⟨hspos, hle⟩ := not_or.1 hregular
    obtain rfl : m = perBinade := by
      have := hs.resolve_left hspos
      omega
    obtain ⟨r, rfl⟩ : ∃ r, s = r + 1 := Nat.exists_eq_succ_of_ne_zero hspos
    have hlower := twice_lower_binade r den
    have hcoarse : perBinade * (den * 2 ^ (r + 1)) = 2 * (perBinade * (den * 2 ^ r)) := by ring
    have hstep : den * 2 ^ (r + 1) = 2 * (den * 2 ^ r) := by ring
    exact ofUnits_binade hden hk.le (by omega) (by omega)

end Binary64

end LoxLang
