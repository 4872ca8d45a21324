import Mathlib.Data.List.Induction
import Mathlib.Data.List.TakeWhile
import Mathlib.Order.Monotone.Basic
import Mathlib.Tactic.Ring
import Sema.Number.Double
import Sema.Text.DecimalDigit

/-!
# Nearest doubles

What it is for a double to be the one nearest to a fraction (`Nearest`), apart from how it is found:
no double is closer, and of two that are equally close it is the one whose last bit is zero. There
is one such double (`Nearest.unique`), and it is the one that is computed (`nearest_ofFraction`).

Values are compared in units of two to the power `-1074`, of which every double is a multiple.
Infinity takes part with the value two to the power `1024`, as the rule for overflow has it.
-/

namespace Sema.Double

/-! ## Values -/

/-- The value of the double with the given bits, in units of two to the power `-1074`. -/
def units (bits : Nat) : Nat :=
  if bits < 2 ^ 52 then bits else (2 ^ 52 + bits % 2 ^ 52) * 2 ^ (bits / 2 ^ 52 - 1)

/-- The number of units in one. -/
def one : Nat := 2 ^ 1074

/-- How far the double with the given bits is from `num / den`, in units over `den`. -/
def error (num den bits : Nat) : Nat :=
  ((units bits * den : Nat) - (num * one : Nat) : Int).natAbs

/-- The bits are those of the double nearest to `num / den`, the even one of two nearest. -/
structure Nearest (num den bits : Nat) : Prop where
  le_infinity : bits ≤ infinity
  nearest : ∀ b ≤ infinity, error num den bits ≤ error num den b
  even : ∀ b ≤ infinity, b ≠ bits → error num den b = error num den bits → bits % 2 = 0

theorem units_add {e s : Nat} (h : e = 0 ∨ 2 ^ 52 ≤ s) (hs : s ≤ 2 ^ 53) :
    units (e * 2 ^ 52 + s) = s * 2 ^ e := by
  by_cases hsmall : e * 2 ^ 52 + s < 2 ^ 52
  · obtain rfl : e = 0 := by omega
    rw [units, if_pos hsmall]
    omega
  rw [units, if_neg hsmall]
  rcases Nat.lt_or_ge s (2 ^ 53) with hlt | hge
  · have hmod : 2 ^ 52 + (e * 2 ^ 52 + s) % 2 ^ 52 = s := by omega
    have hdiv : (e * 2 ^ 52 + s) / 2 ^ 52 - 1 = e := by omega
    rw [hmod, hdiv]
  · have hmod : 2 ^ 52 + (e * 2 ^ 52 + s) % 2 ^ 52 = 2 ^ 52 := by omega
    have hdiv : (e * 2 ^ 52 + s) / 2 ^ 52 - 1 = e + 1 := by omega
    have hs : s = 2 ^ 52 * 2 := by omega
    rw [hmod, hdiv, hs, Nat.mul_assoc (2 ^ 52), Nat.mul_comm 2 (2 ^ e), ← Nat.pow_succ]

theorem exists_significand (bits : Nat) :
    ∃ e s, bits = e * 2 ^ 52 + s ∧ (e = 0 ∨ 2 ^ 52 ≤ s) ∧ s < 2 ^ 53 := by
  by_cases h : bits < 2 ^ 52
  · exact ⟨0, bits, by omega, .inl rfl, by omega⟩
  · exact ⟨bits / 2 ^ 52 - 1, 2 ^ 52 + bits % 2 ^ 52, by omega, .inr (by omega), by omega⟩

theorem units_strictMono : StrictMono units := by
  refine strictMono_nat_of_lt_succ fun bits => ?_
  obtain ⟨e, s, rfl, h, hs⟩ := exists_significand bits
  have hnext : units (e * 2 ^ 52 + s + 1) = (s + 1) * 2 ^ e := by
    rw [Nat.add_assoc, units_add (by omega) (by omega)]
  rw [units_add h (by omega), hnext]
  exact Nat.mul_lt_mul_of_pos_right (Nat.lt_succ_self s) (Nat.two_pow_pos e)

/-! ## One nearest double -/

section Between

variable {num den : Nat}

theorem units_mul_lt (hden : 0 < den) {a b : Nat} (h : a < b) : units a * den < units b * den :=
  Nat.mul_lt_mul_of_pos_right (units_strictMono h) hden

theorem units_mul_le (den : Nat) {a b : Nat} (h : a ≤ b) : units a * den ≤ units b * den :=
  Nat.mul_le_mul_right den (units_strictMono.monotone h)

/-- Two nearest doubles are both even, so that there would be one between them, which is closer. -/
theorem Nearest.unique (hden : 0 < den) {a b : Nat} (ha : Nearest num den a)
    (hb : Nearest num den b) : a = b := by
  have not_lt : ∀ {a b : Nat}, Nearest num den a → Nearest num den b → ¬a < b := by
    intro a b ha hb hlt
    have herror : error num den a = error num den b :=
      Nat.le_antisymm (ha.nearest b hb.le_infinity) (hb.nearest a ha.le_infinity)
    have hevenA := ha.even b hb.le_infinity (by omega) herror.symm
    have hevenB := hb.even a ha.le_infinity (by omega) herror
    have hbound := hb.le_infinity
    have hcloser := ha.nearest (a + 1) (by omega)
    have hleft := units_mul_lt (a := a) (b := a + 1) hden (by omega)
    have hright := units_mul_lt (a := a + 1) (b := b) hden (by omega)
    simp only [error] at herror hcloser
    omega
  exact Nat.le_antisymm (Nat.le_of_not_lt (not_lt hb ha)) (Nat.le_of_not_lt (not_lt ha hb))

theorem nearest_infinity (hden : 0 < den) (h : units infinity * den ≤ num * one) :
    Nearest num den infinity where
  le_infinity := Nat.le_refl _
  nearest b hb := by
    have := units_mul_le den hb
    simp only [error]
    omega
  even b hb hne heq := by
    have := units_mul_lt (a := b) (b := infinity) hden (by omega)
    simp only [error] at heq
    omega

theorem nearest_lower (hden : 0 < den) {b : Nat} (hb : b < infinity)
    (hlow : units b * den ≤ num * one) (hhigh : num * one ≤ units (b + 1) * den)
    (hcloser : num * one - units b * den < units (b + 1) * den - num * one ∨
      num * one - units b * den = units (b + 1) * den - num * one ∧ b % 2 = 0) :
    Nearest num den b where
  le_infinity := Nat.le_of_lt hb
  nearest c _ := by
    simp only [error]
    rcases Nat.lt_or_ge b c with h | h
    · have := units_mul_le den (show b + 1 ≤ c from h)
      omega
    · have := units_mul_le den h
      omega
  even c _ hne heq := by
    simp only [error] at heq
    rcases Nat.lt_or_ge b c with h | h
    · have := units_mul_le den (show b + 1 ≤ c from h)
      omega
    · have := units_mul_lt (a := c) (b := b) hden (by omega)
      omega

theorem nearest_upper (hden : 0 < den) {b : Nat} (hb : b < infinity)
    (hlow : units b * den ≤ num * one) (hhigh : num * one ≤ units (b + 1) * den)
    (hcloser : units (b + 1) * den - num * one < num * one - units b * den ∨
      num * one - units b * den = units (b + 1) * den - num * one ∧ b % 2 = 1) :
    Nearest num den (b + 1) where
  le_infinity := hb
  nearest c _ := by
    simp only [error]
    rcases Nat.lt_or_ge b c with h | h
    · have := units_mul_le den (show b + 1 ≤ c from h)
      omega
    · have := units_mul_le den h
      omega
  even c _ hne heq := by
    simp only [error] at heq
    rcases Nat.lt_or_ge b c with h | h
    · have := units_mul_lt (a := b + 1) (b := c) hden (by omega)
      omega
    · have := units_mul_le den h
      omega

end Between

/-! ## The significand -/

section Scaled

variable {num den : Nat}

theorem scaled_eq (num den e : Nat) :
    scaled num den e = (num * 2 ^ (1074 - e), den * 2 ^ (e - 1074)) := by
  simp only [scaled, Nat.shiftLeft_eq]

theorem scaled_mul (num den e : Nat) :
    (scaled num den e).1 * (den * 2 ^ e) = num * one * (scaled num den e).2 := by
  rw [scaled_eq]
  rcases Nat.le_total e 1074 with h | h
  · have hone : one = 2 ^ (1074 - e) * 2 ^ e := by rw [one, ← Nat.pow_add, Nat.sub_add_cancel h]
    rw [Nat.sub_eq_zero_of_le h, hone]
    ring
  · have hpow : 2 ^ e = 2 ^ (e - 1074) * one := by rw [one, ← Nat.pow_add, Nat.sub_add_cancel h]
    rw [Nat.sub_eq_zero_of_le h, hpow]
    ring

theorem scaled_succ (num den e : Nat) :
    ((scaled num den e).1 = 2 * (scaled num den (e + 1)).1 ∧
      (scaled num den (e + 1)).2 = (scaled num den e).2) ∨
    ((scaled num den (e + 1)).1 = (scaled num den e).1 ∧
      (scaled num den (e + 1)).2 = 2 * (scaled num den e).2) := by
  simp only [scaled_eq]
  rcases Nat.lt_or_ge e 1074 with h | h
  · left
    have hleft : 1074 - e = 1074 - (e + 1) + 1 := by omega
    have hright : e + 1 - 1074 = e - 1074 := by omega
    rw [hright, hleft, Nat.pow_succ]
    exact ⟨by ring, rfl⟩
  · right
    have hleft : 1074 - (e + 1) = 1074 - e := by omega
    have hright : e + 1 - 1074 = e - 1074 + 1 := by omega
    rw [hleft, hright, Nat.pow_succ]
    exact ⟨rfl, by ring⟩

theorem exponent_zero (den : Nat) : exponent 0 den = 0 := by
  rw [exponent]
  split
  rfl

theorem exponent_of_pos (hnum : 0 < num) {guess : Nat}
    (hguess : guess = 1074 + num.log2 - den.log2 - 53) :
    exponent num den =
      if (scaled num den guess).1 < (scaled num den guess).2 * 2 ^ 53 then guess else guess + 1 := by
  subst hguess
  rw [exponent]
  simp only [hnum.ne', if_false, Nat.shiftLeft_eq]

section Guess

variable {guess : Nat}

theorem scaled_guess_lt (hden : 0 < den) (hguess : guess = 1074 + num.log2 - den.log2 - 53) :
    (scaled num den guess).1 < (scaled num den guess).2 * 2 ^ 54 := by
  have hn : num < 2 ^ (num.log2 + 1) := Nat.lt_log2_self
  have hd : 2 ^ den.log2 ≤ den := Nat.log2_self_le hden.ne'
  rw [scaled_eq]
  calc num * 2 ^ (1074 - guess)
      < 2 ^ (num.log2 + 1) * 2 ^ (1074 - guess) :=
        Nat.mul_lt_mul_of_pos_right hn (Nat.two_pow_pos _)
    _ = 2 ^ (num.log2 + 1 + (1074 - guess)) := (Nat.pow_add ..).symm
    _ ≤ 2 ^ (den.log2 + (guess - 1074) + 54) := Nat.pow_le_pow_right (by decide) (by omega)
    _ = 2 ^ den.log2 * 2 ^ (guess - 1074) * 2 ^ 54 := by rw [← Nat.pow_add, ← Nat.pow_add]
    _ ≤ den * 2 ^ (guess - 1074) * 2 ^ 54 :=
        Nat.mul_le_mul_right _ (Nat.mul_le_mul_right _ hd)

theorem le_scaled_guess (hnum : 0 < num) (hguess : guess = 1074 + num.log2 - den.log2 - 53)
    (hpos : guess ≠ 0) : (scaled num den guess).2 * 2 ^ 52 ≤ (scaled num den guess).1 := by
  have hn : 2 ^ num.log2 ≤ num := Nat.log2_self_le hnum.ne'
  have hd : den < 2 ^ (den.log2 + 1) := Nat.lt_log2_self
  rw [scaled_eq]
  calc den * 2 ^ (guess - 1074) * 2 ^ 52
      ≤ 2 ^ (den.log2 + 1) * 2 ^ (guess - 1074) * 2 ^ 52 :=
        Nat.mul_le_mul_right _ (Nat.mul_le_mul_right _ (Nat.le_of_lt hd))
    _ = 2 ^ (den.log2 + 1 + (guess - 1074) + 52) := by rw [← Nat.pow_add, ← Nat.pow_add]
    _ ≤ 2 ^ (num.log2 + (1074 - guess)) := Nat.pow_le_pow_right (by decide) (by omega)
    _ = 2 ^ num.log2 * 2 ^ (1074 - guess) := Nat.pow_add ..
    _ ≤ num * 2 ^ (1074 - guess) := Nat.mul_le_mul_right _ hn

end Guess

/-- The significand that the exponent leaves is below two to the power 53, and has all its bits
unless the exponent is the least. The lengths of the two numbers leave the quotient within a factor
of four, and the exponent makes up for the rest. -/
theorem significand_bounds (num : Nat) (hden : 0 < den) :
    (scaled num den (exponent num den)).1 < (scaled num den (exponent num den)).2 * 2 ^ 53 ∧
    (exponent num den = 0 ∨
      (scaled num den (exponent num den)).2 * 2 ^ 52 ≤ (scaled num den (exponent num den)).1) := by
  rcases Nat.eq_zero_or_pos num with rfl | hnum
  · rw [exponent_zero, scaled_eq]
    refine ⟨?_, .inl rfl⟩
    rw [Nat.zero_mul]
    exact Nat.mul_pos (Nat.mul_pos hden (Nat.two_pow_pos _)) (Nat.two_pow_pos _)
  obtain ⟨guess, hguess⟩ : ∃ g, g = 1074 + num.log2 - den.log2 - 53 := ⟨_, rfl⟩
  have hupper := scaled_guess_lt hden hguess
  have hlower := le_scaled_guess hnum hguess
  rw [exponent_of_pos hnum hguess]
  split
  next hlt => exact ⟨hlt, (Decidable.em (guess = 0)).imp_right hlower⟩
  next hge =>
    rcases scaled_succ num den guess with ⟨hn, hd⟩ | ⟨hn, hd⟩
    · rw [hd]
      omega
    · rw [hn, hd]
      omega

end Scaled

/-! ## The double that is computed -/

section Rounding

variable {num den n d e : Nat}

theorem floor_le (hd : 0 < d) (hcross : n * (den * 2 ^ e) = num * one * d) :
    n / d * 2 ^ e * den ≤ num * one := by
  refine Nat.le_of_mul_le_mul_right ?_ hd
  calc n / d * 2 ^ e * den * d = n / d * d * (den * 2 ^ e) := by ring
    _ ≤ n * (den * 2 ^ e) := Nat.mul_le_mul_right _ (Nat.div_mul_le_self n d)
    _ = num * one * d := hcross

theorem sub_floor (hcross : n * (den * 2 ^ e) = num * one * d) :
    (num * one - n / d * 2 ^ e * den) * d = n % d * (den * 2 ^ e) := by
  have hdiv : n / d * d + n % d = n := by rw [Nat.mul_comm, Nat.div_add_mod]
  have hsum : num * one * d = n / d * 2 ^ e * den * d + n % d * (den * 2 ^ e) := by
    calc num * one * d = n * (den * 2 ^ e) := hcross.symm
      _ = (n / d * d + n % d) * (den * 2 ^ e) := by rw [hdiv]
      _ = n / d * 2 ^ e * den * d + n % d * (den * 2 ^ e) := by ring
  rw [Nat.sub_mul, hsum, Nat.add_sub_cancel_left]

theorem halves {r rest unit : Nat} (hd : 0 < d) (hunit : 0 < unit) (h : rest * d = r * unit)
    (k : Nat) : (k * rest < unit ↔ k * r < d) ∧ (k * rest = unit ↔ k * r = d) := by
  have hdouble : k * rest * d = k * r * unit := by rw [Nat.mul_assoc, h, Nat.mul_assoc]
  constructor
  · rw [← Nat.mul_lt_mul_right hd, hdouble, Nat.mul_comm unit, Nat.mul_lt_mul_right hunit]
  · rw [← Nat.mul_left_inj hd.ne', hdouble, Nat.mul_comm unit, Nat.mul_left_inj hunit.ne']

end Rounding

theorem nearest_roundDiv {num den bits n d unit : Nat} (hden : 0 < den)
    (hlow : units bits * den ≤ num * one)
    (hhigh : units (bits + 1) * den = units bits * den + unit)
    (hrest : num * one - units bits * den < unit)
    (hless : 2 * (num * one - units bits * den) < unit ↔ 2 * (n % d) < d)
    (hsame : 2 * (num * one - units bits * den) = unit ↔ 2 * (n % d) = d)
    (hparity : bits % 2 = n / d % 2) :
    Nearest num den (min infinity (bits + (roundDiv n d - n / d))) := by
  rcases Nat.lt_or_ge bits infinity with hfinite | hover
  · by_cases hround : 2 * (n % d) < d ∨ 2 * (n % d) = d ∧ n / d % 2 = 0
    · have hdown : roundDiv n d = n / d := by simp [roundDiv, hround]
      rw [hdown, Nat.sub_self, Nat.add_zero, Nat.min_eq_right (Nat.le_of_lt hfinite)]
      exact nearest_lower hden hfinite hlow (by omega) (by omega)
    · have hup : roundDiv n d = n / d + 1 := by simp [roundDiv, hround]
      rw [hup, Nat.add_sub_cancel_left, Nat.min_eq_right hfinite]
      exact nearest_upper hden hfinite hlow (by omega) (by omega)
  · rw [Nat.min_eq_left (Nat.le_add_right_of_le hover)]
    exact nearest_infinity hden (Nat.le_trans (units_mul_le den hover) hlow)

theorem div_le_roundDiv (n d : Nat) : n / d ≤ roundDiv n d := by
  simp only [roundDiv]
  split <;> omega

/-- The double that is computed for a fraction is the one nearest to it. -/
theorem nearest_ofFraction {num den : Nat} (hden : 0 < den) :
    Nearest num den (ofFraction num den) := by
  obtain ⟨hlt, hfull⟩ := significand_bounds num hden
  have hcross := scaled_mul num den (exponent num den)
  have hd : 0 < (scaled num den (exponent num den)).2 := by
    rw [scaled_eq]
    exact Nat.mul_pos hden (Nat.two_pow_pos _)
  rw [ofFraction]
  generalize exponent num den = e at *
  generalize (scaled num den e) = q at *
  obtain ⟨n, d⟩ := q
  dsimp only at *
  have hfloor : n / d < 2 ^ 53 := Nat.div_lt_of_lt_mul hlt
  have hfull' : e = 0 ∨ 2 ^ 52 ≤ n / d :=
    hfull.imp_right fun h => (Nat.le_div_iff_mul_le hd).mpr (by rwa [Nat.mul_comm])
  have hunit : 0 < den * 2 ^ e := Nat.mul_pos hden (Nat.two_pow_pos e)
  have hlow : units (e * 2 ^ 52 + n / d) * den = n / d * 2 ^ e * den := by
    rw [units_add hfull' (by omega)]
  have hhigh : units (e * 2 ^ 52 + n / d + 1) * den = n / d * 2 ^ e * den + den * 2 ^ e := by
    rw [Nat.add_assoc, units_add (by omega) (by omega)]
    ring
  have hrest := halves hd hunit (sub_floor hcross)
  have hnext : num * one - n / d * 2 ^ e * den < den * 2 ^ e := by
    have hmod := (hrest 1).1.mpr (by rw [Nat.one_mul]; exact Nat.mod_lt n hd)
    rwa [Nat.one_mul] at hmod
  have hbits : e <<< 52 + roundDiv n d = e * 2 ^ 52 + n / d + (roundDiv n d - n / d) := by
    rw [Nat.shiftLeft_eq, Nat.add_assoc, Nat.add_sub_cancel' (div_le_roundDiv n d)]
  have hle := floor_le hd hcross
  rw [← hlow] at hhigh hnext hle hrest
  rw [hbits]
  exact nearest_roundDiv hden hle hhigh hnext (hrest 2).1 (hrest 2).2 (by omega)

theorem nearest_ofDecimal (digits places : Nat) :
    Nearest digits (10 ^ places) (ofDecimal digits places).toNat := by
  have hnearest : Nearest digits (10 ^ places) (ofFraction digits (10 ^ places)) :=
    nearest_ofFraction (Nat.pow_pos (by decide))
  have hfits : ofFraction digits (10 ^ places) < 2 ^ 64 :=
    Nat.lt_of_le_of_lt hnearest.le_infinity (by decide)
  rw [ofDecimal, Nat.pow_eq]
  rwa [UInt64.toNat_ofNat_of_lt' hfits]

/-! ## Literals -/

/-- The decimal fraction that a text writes: its digits as a number, and how many of them stand
after the point. -/
inductive Writes : List Char → Nat → Nat → Prop
  | whole {cs : List Char} (noPoint : '.' ∉ cs) : Writes cs (DecimalDigit.number cs) 0
  | point {cs ds : List Char} (noPoint : '.' ∉ cs) :
      Writes (cs ++ '.' :: ds)
        (DecimalDigit.number cs * 10 ^ ds.length + DecimalDigit.number ds) ds.length

/-- The bits are those of the double nearest to the decimal fraction that a text writes. -/
def Spells (cs : List Char) (bits : UInt64) : Prop :=
  ∃ digits places, Writes cs digits places ∧ Nearest digits (10 ^ places) bits.toNat

theorem number_append (cs ds : List Char) :
    DecimalDigit.number (cs ++ ds) =
      DecimalDigit.number cs * 10 ^ ds.length + DecimalDigit.number ds := by
  induction ds using List.reverseRecOn with
  | nil => simp [DecimalDigit.number]
  | append_singleton ds d ih =>
    rw [← List.append_assoc]
    simp only [DecimalDigit.number, List.foldl_append, List.foldl_cons, List.foldl_nil,
      List.length_append, List.length_singleton] at ih ⊢
    rw [ih]
    ring

theorem writes_iff {cs : List Char} {digits places : Nat} :
    Writes cs digits places ↔
      digits = DecimalDigit.number
        (cs.takeWhile (· != '.') ++ (cs.dropWhile (· != '.')).drop 1) ∧
      places = ((cs.dropWhile (· != '.')).drop 1).length := by
  have before : ∀ {cs : List Char}, '.' ∉ cs → ∀ c ∈ cs, (c != '.') = true := by
    intro cs h c hc
    exact bne_iff_ne.mpr (ne_of_mem_of_not_mem hc h)
  constructor
  · intro h
    cases h with
    | whole noPoint =>
      rw [List.takeWhile_eq_self_iff.mpr (before noPoint),
        List.dropWhile_eq_nil_iff.mpr (before noPoint)]
      simp
    | @point cs ds noPoint =>
      rw [List.takeWhile_append_of_pos (before noPoint),
        List.dropWhile_append_of_pos (before noPoint)]
      simp [number_append]
  · rintro ⟨rfl, rfl⟩
    have hsplit := List.takeWhile_append_dropWhile (p := (· != '.')) (l := cs)
    have hbefore : '.' ∉ cs.takeWhile (· != '.') := fun h => by
      simpa using List.mem_takeWhile_imp h
    cases hrest : cs.dropWhile (· != '.') with
    | nil =>
      rw [hrest, List.append_nil] at hsplit
      rw [hsplit] at hbefore ⊢
      simpa using Writes.whole hbefore
    | cons point ds =>
      have hpoint : point = '.' := by
        have := List.head_dropWhile_not (· != '.') (l := cs) (by simp [hrest])
        simpa [hrest] using this
      subst hpoint
      rw [hrest] at hsplit
      have hwrites : Writes (cs.takeWhile (· != '.') ++ '.' :: ds) _ _ := .point hbefore
      rw [hsplit] at hwrites
      simpa [number_append] using hwrites

theorem spells_iff {cs : List Char} {bits : UInt64} :
    Spells cs bits ↔
      bits = ofDecimal
        (DecimalDigit.number (cs.takeWhile (· != '.') ++ (cs.dropWhile (· != '.')).drop 1))
        ((cs.dropWhile (· != '.')).drop 1).length := by
  constructor
  · rintro ⟨digits, places, hwrites, hnearest⟩
    obtain ⟨rfl, rfl⟩ := writes_iff.mp hwrites
    exact UInt64.toNat_inj.mp
      (hnearest.unique (Nat.pow_pos (by decide)) (nearest_ofDecimal _ _))
  · rintro rfl
    exact ⟨_, _, writes_iff.mpr ⟨rfl, rfl⟩, nearest_ofDecimal _ _⟩

end Sema.Double
