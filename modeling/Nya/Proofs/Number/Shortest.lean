import Nya.Proofs.Number.Bits

/-!
# The shortest decimal of a number

The decimals that read back as a number are those of its interval. Seventeen digits always suffice:
the grid of the decimals with so many digits is finer than the interval is wide. Hence the decimal
that is found lies in the interval (`in_shortest`), and as no two numbers have a decimal in
common (`eq_of_contains`), it tells which number it was found for.
-/

namespace Nya.Number

variable {m m' n n' d d' : Nat} {q q' e : Int} {i : Interval} {tie : Tie} {x : Decimal}

/-! ## Intervals -/

namespace Interval

/-- What lies between the ends belongs to the interval, whether or not these do. -/
theorem contains_of_lt (hlow : i.low * d < n * i.scale) (hhigh : n * i.scale < i.high * d) :
    i.contains n d = true := by
  unfold contains
  split <;> simp [hlow, hhigh, Nat.le_of_lt]

theorem bounds_of_contains (h : i.contains n d = true) :
    i.low * d ≤ n * i.scale ∧ n * i.scale ≤ i.high * d ∧
      (i.closed = false → i.low * d < n * i.scale ∧ n * i.scale < i.high * d) := by
  unfold contains at h
  split at h
  · next hclosed => simp_all
  · simp only [Bool.and_eq_true, decide_eq_true_eq] at h
    exact ⟨Nat.le_of_lt h.1, Nat.le_of_lt h.2, fun _ => h⟩

/-- It does not matter how a fraction is written. -/
theorem contains_congr (hd : 0 < d) (hd' : 0 < d') (h : n * d' = n' * d) :
    i.contains n d = i.contains n' d' := by
  have hn : ∀ s, n * s * d' = n' * s * d := by
    intro s
    calc n * s * d' = n * d' * s := by ac_rfl
      _ = n' * s * d := by rw [h]; ac_rfl
  have hlow : ∀ a, a * d ≤ n * i.scale ↔ a * d' ≤ n' * i.scale := by
    intro a
    rw [← Nat.mul_le_mul_right_iff hd', hn, Nat.mul_right_comm, Nat.mul_le_mul_right_iff hd]
  have hhigh : ∀ a, n * i.scale ≤ a * d ↔ n' * i.scale ≤ a * d' := by
    intro a
    rw [← Nat.mul_le_mul_right_iff hd', hn, Nat.mul_right_comm a, Nat.mul_le_mul_right_iff hd]
  simp only [contains, ← Nat.not_le, hlow, hhigh]

end Interval

/-! ## Grids -/

/-- The numerator of a decimal, without an exponent. -/
def Decimal.numerator (x : Decimal) : Nat := x.digits * Nat.pow 10 x.exponent.toNat

/-- The denominator of a decimal: as many zeros as there are places behind the point. -/
def Decimal.denominator (x : Decimal) : Nat := Nat.pow 10 (-x.exponent).toNat

/-- The decimal lies in the interval. -/
def Decimal.In (x : Decimal) (i : Interval) : Prop :=
  i.contains x.numerator x.denominator = true

theorem in_of_onGrid (h : onGrid tie i e = some x) : x.In i := by
  unfold onGrid at h
  dsimp only at h
  split at h
  · next hboth =>
    rw [Bool.and_eq_true] at hboth
    cases h
    unfold Decimal.In Decimal.numerator Decimal.denominator
    dsimp only
    split
    · exact hboth.2
    · exact hboth.1
  · split at h
    · next hupper =>
      cases h
      exact hupper
    · split at h
      · next hlower =>
        cases h
        exact hlower
      · cases h

theorem isSome_onGrid (tie : Tie) (h : ∃ k, (k = 0 ∨ k = 1) ∧
    i.contains ((i.value * 10 ^ (-e).toNat / (i.scale * 10 ^ e.toNat) + k) * 10 ^ e.toNat)
      (10 ^ (-e).toNat) = true) : (onGrid tie i e).isSome = true := by
  unfold onGrid
  simp only [Nat.pow_eq]
  obtain ⟨k, rfl | rfl, hk⟩ := h
  · rw [Nat.add_zero] at hk
    rw [hk, Bool.true_and]
    split
    · rfl
    · simp_all
  · rw [hk, Bool.and_true]
    split
    · rfl
    · rfl

/-- The grids are tried one after the other, so one of them has to do. -/
theorem in_firstGrid {k : Nat} (h : ∃ j < k, (onGrid tie i (e - (j : Nat))).isSome = true) :
    (firstGrid tie i e k).In i := by
  induction k generalizing e with
  | zero =>
    obtain ⟨j, hj, -⟩ := h
    exact absurd hj (Nat.not_lt_zero j)
  | succ k ih =>
    rw [firstGrid]
    cases hgrid : onGrid tie i e with
    | some x => exact in_of_onGrid hgrid
    | none =>
      obtain ⟨j, hj, hsome⟩ := h
      cases j with
      | zero => simp [hgrid] at hsome
      | succ j =>
        refine ih ⟨j, Nat.lt_of_succ_lt_succ hj, ?_⟩
        rwa [show e - 1 - (j : Int) = e - (j + 1 : Nat) by omega]

/-! ## Seventeen digits -/

theorem pow_le_of_length {n : Nat} (h : 0 < n) : 10 ^ ((Nat.toDigits 10 n).length - 1) ≤ n := by
  by_cases hone : (Nat.toDigits 10 n).length - 1 = 0
  · rw [hone]
    exact h
  · refine Nat.le_of_not_lt fun hlt => ?_
    have hle := (Nat.length_toDigits_le_iff (by decide) (Nat.pos_of_ne_zero hone)).mpr hlt
    omega

theorem lt_pow_length (n : Nat) : n < 10 ^ (Nat.toDigits 10 n).length :=
  (Nat.length_toDigits_le_iff (by decide) Nat.length_toDigits_pos).mp (Nat.le_refl _)

/-- The power of ten of the leading digit is not more than the fraction. -/
theorem leadingExponent_le (hn : 0 < n) :
    d * 10 ^ (leadingExponent n d).toNat ≤ n * 10 ^ (-leadingExponent n d).toNat := by
  have hlow := pow_le_of_length hn
  have hhigh := lt_pow_length d
  have hpos := @Nat.length_toDigits_pos 10 n
  unfold leadingExponent
  simp only [Nat.pow_eq]
  generalize (Nat.toDigits 10 n).length = a at *
  generalize (Nat.toDigits 10 d).length = b at *
  split
  · next h => exact h
  · calc d * 10 ^ ((a : Int) - b - 1).toNat
      _ ≤ 10 ^ b * 10 ^ ((a : Int) - b - 1).toNat := Nat.mul_le_mul_right _ (Nat.le_of_lt hhigh)
      _ = 10 ^ (a - 1) * 10 ^ (-((a : Int) - b - 1)).toNat := by
        rw [← Nat.pow_add, ← Nat.pow_add]
        congr 1
        omega
      _ ≤ n * 10 ^ (-((a : Int) - b - 1)).toNat := Nat.mul_le_mul_right _ hlow

/-- So the step of the grid with the seventeenth digit is much less. -/
theorem step_le (hn : 0 < n) {e : Int} (he : e = leadingExponent n d - (16 : Nat)) :
    d * 10 ^ e.toNat * 10 ^ 16 ≤ n * 10 ^ (-e).toNat := by
  have hleading := @leadingExponent_le n d hn
  generalize leadingExponent n d = l at *
  refine Nat.le_of_mul_le_mul_right ?_ (Nat.pow_pos (n := (-l).toNat) (by decide : 0 < 10))
  calc d * 10 ^ e.toNat * 10 ^ 16 * 10 ^ (-l).toNat
    _ = d * (10 ^ e.toNat * 10 ^ 16 * 10 ^ (-l).toNat) := by ac_rfl
    _ = d * (10 ^ l.toNat * 10 ^ (-e).toNat) := by
      rw [← Nat.pow_add, ← Nat.pow_add, ← Nat.pow_add]
      congr 2
      omega
    _ = d * 10 ^ l.toNat * 10 ^ (-e).toNat := by ac_rfl
    _ ≤ n * 10 ^ (-l).toNat * 10 ^ (-e).toNat := Nat.mul_le_mul_right _ hleading
    _ = n * 10 ^ (-e).toNat * 10 ^ (-l).toNat := by ac_rfl

/-- The pairs that are the shape of a number other than zero. -/
structure Canonical (m : Nat) (q : Int) : Prop where
  pos : 0 < m
  lt : m < 2 ^ 53
  least : minExponent ≤ q
  full : minExponent < q → 2 ^ 52 ≤ m

theorem canonical_of_shape {x : Float} (h : shape x = .finite m q) (hm : m ≠ 0) :
    Canonical m q := by
  have hfraction := fraction_lt x
  rw [shape_eq] at h
  split at h
  · split at h <;> cases h
  · split at h
    · cases h
      exact ⟨Nat.pos_of_ne_zero hm, by omega, Int.le_refl _, fun hlt => absurd hlt (by omega)⟩
    · cases h
      exact ⟨by omega, by omega, by omega, fun _ => by omega⟩

/--
A step of `a` from `k` on leads over `4 * m * u`. If `a` is small enough, then one of the two points
is near: less than half a gap away, or a quarter below a power of two.
-/
theorem near_of_step {m u a k below : Nat} (hu : 0 < u) (hm : m < 2 ^ 53)
    (hbelow : below = 2 ∨ below = 1 ∧ m = 2 ^ 52) (hstep : a * 10 ^ 16 ≤ 4 * m * u)
    (hle : k ≤ 4 * m * u) (hlt : 4 * m * u < k + a) :
    ∃ j, (j = 0 ∨ j = 1) ∧ (4 * m - below) * u < k + j * a ∧ k + j * a < (4 * m + 2) * u := by
  have hpos : m * u < 2 ^ 53 * u := Nat.mul_lt_mul_of_pos_right hm hu
  rw [Nat.mul_assoc] at hstep hle hlt
  rw [Nat.sub_mul, Nat.add_mul, Nat.mul_assoc]
  by_cases hlow : 4 * (m * u) - below * u < k
  · exact ⟨0, Or.inl rfl, by omega, by omega⟩
  · -- The point below is too far away, so the one above is near.
    refine ⟨1, Or.inr rfl, by omega, ?_⟩
    rcases hbelow with rfl | ⟨rfl, rfl⟩ <;> omega

/-- The numerator of a quarter of the gap above a number. -/
def unit (q : Int) : Nat := Nat.pow 2 (q - 2).toNat

/-- The denominator of a quarter of the gap above a number. -/
def parts (q : Int) : Nat := Nat.pow 2 (2 - q).toNat

/-- How many quarters the interval goes down. -/
def below (m : Nat) (q : Int) : Nat := if m = Nat.pow 2 52 ∧ minExponent < q then 1 else 2

theorem around_eq (m : Nat) (q : Int) : Interval.around m q =
    ⟨parts q, (4 * m - below m q) * unit q, 4 * m * unit q, (4 * m + 2) * unit q, m % 2 == 0⟩ := rfl

theorem unit_pos (q : Int) : 0 < unit q := Nat.pow_pos (by decide)

theorem parts_pos (q : Int) : 0 < parts q := Nat.pow_pos (by decide)

theorem below_cases (m : Nat) (q : Int) :
    below m q = 2 ∧ (m = 2 ^ 52 → q ≤ minExponent) ∨
      below m q = 1 ∧ m = 2 ^ 52 ∧ minExponent < q := by
  unfold below
  split
  · next hpower => exact Or.inr ⟨rfl, hpower⟩
  · next hpower => exact Or.inl ⟨rfl, fun hm => Int.not_lt.mp fun hq => hpower ⟨hm, hq⟩⟩

/-- The grid with the seventeenth digit has a decimal in the interval. -/
theorem isSome_lastGrid (tie : Tie) (h : Canonical m q) {e : Int}
    (he : e = leadingExponent (4 * m * unit q) (parts q) - (16 : Nat)) :
    (onGrid tie (Interval.around m q) e).isSome = true := by
  have hten : ∀ k, 0 < 10 ^ k := fun k => Nat.pow_pos (by decide)
  have hvalue : 0 < 4 * m * unit q :=
    Nat.mul_pos (Nat.mul_pos (by decide) h.pos) (unit_pos q)
  have hgrid : 0 < parts q * 10 ^ e.toNat := Nat.mul_pos (parts_pos q) (hten _)
  have hstep := step_le hvalue he
  have hle := Nat.div_mul_le_self (4 * m * unit q * 10 ^ (-e).toNat) (parts q * 10 ^ e.toNat)
  have hlt := @Nat.lt_div_mul_add (4 * m * unit q * 10 ^ (-e).toNat) _ hgrid
  generalize hd : 4 * m * unit q * 10 ^ (-e).toNat / (parts q * 10 ^ e.toNat) = d at hle hlt
  rw [Nat.mul_assoc (4 * m)] at hstep hle hlt
  -- Both points and the ends of the interval, with the same denominator.
  obtain ⟨j, hj, hlow, hhigh⟩ := near_of_step (Nat.mul_pos (unit_pos q) (hten _)) h.lt
    ((below_cases m q).imp And.left fun h => ⟨h.1, h.2.1⟩) hstep hle hlt
  have hpoint : ∀ k, (d + k) * 10 ^ e.toNat * parts q =
      d * (parts q * 10 ^ e.toNat) + k * (parts q * 10 ^ e.toNat) := by
    intro k
    rw [← Nat.add_mul]
    ac_rfl
  rw [around_eq]
  refine isSome_onGrid tie ⟨j, hj, Interval.contains_of_lt ?_ ?_⟩
  · simp only [hd, hpoint]
    rwa [Nat.mul_assoc]
  · simp only [hd, hpoint]
    rwa [Nat.mul_assoc (4 * m + 2)]

/-- A number ends with as many zeros as it has factors of ten. -/
theorem dvd_of_zeros (n : Nat) :
    10 ^ ((Nat.toDigits 10 n).reverse.takeWhile (· == '0')).length ∣ n := by
  generalize hzeros : (Nat.toDigits 10 n).reverse.takeWhile (· == '0') = zeros
  generalize hothers : (Nat.toDigits 10 n).reverse.dropWhile (· == '0') = others
  have hsplit : Nat.toDigits 10 n = others.reverse ++ List.replicate zeros.length '0' := by
    have hall : ∀ c ∈ zeros, c = '0' := by
      intro c hc
      rw [← hzeros] at hc
      simpa using List.all_eq_true.mp List.all_takeWhile c hc
    rw [← List.reverse_inj, List.reverse_append, List.reverse_replicate, List.reverse_reverse,
      ← List.eq_replicate_of_mem hall, ← hzeros, ← hothers, List.takeWhile_append_dropWhile]
  have hvalue := @Nat.ofDigitChars_ten_toDigits n
  rw [hsplit, Nat.ofDigitChars_append, Nat.ofDigitChars_replicate_zero] at hvalue
  exact ⟨_, hvalue.symm⟩

theorem Decimal.denominator_pos (x : Decimal) : 0 < x.denominator := Nat.pow_pos (by decide)

/-- The value does not change if zeros are dropped. -/
theorem in_trimmed (h : x.In i) : x.trimmed.In i := by
  unfold Decimal.In at h ⊢
  rw [← h]
  refine Interval.contains_congr x.trimmed.denominator_pos x.denominator_pos ?_
  unfold Decimal.trimmed Decimal.numerator Decimal.denominator
  simp only [Nat.pow_eq]
  generalize hk : ((Nat.toDigits 10 x.digits).reverse.takeWhile (· == '0')).length = k
  obtain ⟨c, hc⟩ : 10 ^ k ∣ x.digits := hk ▸ dvd_of_zeros x.digits
  rw [hc, Nat.mul_div_cancel_left _ (Nat.pow_pos (by decide))]
  calc c * 10 ^ (x.exponent + k).toNat * 10 ^ (-x.exponent).toNat
    _ = c * (10 ^ (x.exponent + k).toNat * 10 ^ (-x.exponent).toNat) := Nat.mul_assoc _ _ _
    _ = c * (10 ^ k * 10 ^ x.exponent.toNat * 10 ^ (-(x.exponent + k)).toNat) := by
      rw [← Nat.pow_add, ← Nat.pow_add, ← Nat.pow_add]
      congr 2
      omega
    _ = 10 ^ k * c * 10 ^ x.exponent.toNat * 10 ^ (-(x.exponent + k)).toNat := by ac_rfl

/-- **The shortest decimal reads back.** -/
theorem in_shortest (tie : Tie) (h : Canonical m q) :
    (shortest tie m q).In (Interval.around m q) :=
  in_trimmed (in_firstGrid ⟨16, by decide, isSome_lastGrid tie h rfl⟩)

/-! ## No decimal for two numbers -/

/-- The quarters of the gaps of two numbers, with the same denominator. -/
theorem unit_mul_parts {k : Nat} (hq : q' = q + k) :
    unit q' * parts q = unit q * parts q' * 2 ^ k := by
  unfold unit parts
  simp only [Nat.pow_eq]
  rw [← Nat.pow_add, ← Nat.pow_add, ← Nat.pow_add]
  congr 1
  omega

/-- If a decimal lies in two intervals, then the upper one starts before the lower one ends. -/
theorem quarters_le (hd : 0 < d) {k : Nat} (hq : q' = q + k)
    (hin : (Interval.around m q).contains n d = true)
    (hin' : (Interval.around m' q').contains n d = true) :
    (4 * m' - below m' q') * 2 ^ k ≤ 4 * m + 2 ∧ (m % 2 = 1 ∨ m' % 2 = 1 →
      (4 * m' - below m' q') * 2 ^ k < 4 * m + 2) := by
  rw [around_eq] at hin hin'
  obtain ⟨-, hhigh, hopen⟩ := Interval.bounds_of_contains hin
  obtain ⟨hlow, -, hopen'⟩ := Interval.bounds_of_contains hin'
  dsimp only at hhigh hopen hlow hopen'
  have hwidth : 0 < unit q * parts q' * d :=
    Nat.mul_pos (Nat.mul_pos (unit_pos q) (parts_pos q')) hd
  have hfrom : (4 * m' - below m' q') * 2 ^ k * (unit q * parts q' * d) =
      (4 * m' - below m' q') * unit q' * d * parts q := by
    calc (4 * m' - below m' q') * 2 ^ k * (unit q * parts q' * d)
      _ = (4 * m' - below m' q') * (unit q * parts q' * 2 ^ k) * d := by ac_rfl
      _ = (4 * m' - below m' q') * unit q' * d * parts q := by
        rw [← unit_mul_parts hq]
        ac_rfl
  have hto : (4 * m + 2) * (unit q * parts q' * d) = (4 * m + 2) * unit q * d * parts q' := by
    ac_rfl
  have hlow' := Nat.mul_le_mul_right (parts q) hlow
  have hhigh' := Nat.mul_le_mul_right (parts q') hhigh
  rw [Nat.mul_right_comm n] at hlow'
  refine ⟨Nat.le_of_mul_le_mul_right ?_ hwidth,
    fun hodd => @Nat.lt_of_mul_lt_mul_right (unit q * parts q' * d) _ _ ?_⟩
  · rw [hfrom, hto]
    exact Nat.le_trans hlow' hhigh'
  · rw [hfrom, hto]
    rcases hodd with hodd | hodd
    · have hstrict := (hopen (by simp [hodd])).2
      exact Nat.lt_of_le_of_lt hlow' (Nat.mul_lt_mul_of_pos_right hstrict (parts_pos q'))
    · have hstrict := Nat.mul_lt_mul_of_pos_right (hopen' (by simp [hodd])).1 (parts_pos q)
      rw [Nat.mul_right_comm n] at hstrict
      exact Nat.lt_of_lt_of_le hstrict hhigh'

/-- The interval of a number ends before that of a greater one, and they share no end. -/
theorem not_contains_of_lt (h : Canonical m q) (h' : Canonical m' q') (hd : 0 < d)
    (hlt : q < q' ∨ q = q' ∧ m < m') (hin : (Interval.around m q).contains n d = true)
    (hin' : (Interval.around m' q').contains n d = true) : False := by
  have hm := h.lt
  have hbelow := below_cases m' q'
  rcases hlt with hlt | ⟨rfl, hlt⟩
  · have hq' : minExponent < q' := Int.lt_of_le_of_lt h.least hlt
    have hfull := h'.full hq'
    obtain ⟨k, hk⟩ : ∃ k : Nat, q' = q + (k + 1 : Nat) := ⟨(q' - q - 1).toNat, by omega⟩
    obtain ⟨hle, hodd⟩ := quarters_le hd hk hin hin'
    have htwo : (4 * m' - below m' q') * 2 ≤ (4 * m' - below m' q') * 2 ^ (k + 1) := by
      refine Nat.mul_le_mul_left _ ?_
      rw [Nat.pow_succ]
      exact Nat.le_mul_of_pos_left 2 (Nat.pow_pos (by decide))
    -- Only the last number with the one exponent comes near to the first with the next.
    omega
  · obtain ⟨hle, hodd⟩ := quarters_le hd (k := 0) (by simp) hin hin'
    rw [Nat.pow_zero, Nat.mul_one] at hle hodd
    have hfull := h.full
    omega

/-- **A decimal reads back as one number only.** -/
theorem eq_of_contains (h : Canonical m q) (h' : Canonical m' q') (hd : 0 < d)
    (hin : (Interval.around m q).contains n d = true)
    (hin' : (Interval.around m' q').contains n d = true) : m = m' ∧ q = q' := by
  have hlt : ¬(q < q' ∨ q = q' ∧ m < m') := fun hlt => not_contains_of_lt h h' hd hlt hin hin'
  have hgt : ¬(q' < q ∨ q' = q ∧ m' < m) := fun hgt => not_contains_of_lt h' h hd hgt hin' hin
  omega

end Nya.Number
