import Nya.Proofs.Number.Shortest

/-!
# Numbers and their texts

The digits of a text without an exponent and the places behind its point give back the decimal that
it was written for. As the shortest decimal belongs to one number only, no two numbers have the same
text: `plain_injective`.
-/

namespace Nya.Number

variable {x y : Float} {m : Nat} {q : Int}

/-! ## Reading digits -/

/-- The digits of a text as one number, and how many of them stand behind the point. -/
def reading (text : List Char) : Nat × Nat :=
  (Nat.ofDigitChars 10 (text.filter (· != '.')) 0, (text.dropWhile (· != '.')).length - 1)

theorem ne_point_of_isDigit {c : Char} (h : c.isDigit = true) : (c != '.') = true := by
  rw [bne_iff_ne]
  rintro rfl
  cases h

theorem filter_digits {ds : List Char} (h : ∀ c ∈ ds, c.isDigit = true) :
    ds.filter (· != '.') = ds :=
  List.filter_eq_self.mpr fun c hc => ne_point_of_isDigit (h c hc)

/-- Digits with a point among them. -/
theorem reading_point {ds es : List Char} (hds : ∀ c ∈ ds, c.isDigit = true)
    (hes : ∀ c ∈ es, c.isDigit = true) :
    reading (ds ++ '.' :: es) = (Nat.ofDigitChars 10 (ds ++ es) 0, es.length) := by
  unfold reading
  rw [List.filter_append, List.filter_cons, filter_digits hds, filter_digits hes,
    List.dropWhile_append_of_pos fun c hc => ne_point_of_isDigit (hds c hc)]
  rfl

theorem reading_digits {ds : List Char} (hds : ∀ c ∈ ds, c.isDigit = true) :
    reading ds = (Nat.ofDigitChars 10 ds 0, 0) := by
  have hnone : (ds ++ []).dropWhile (· != '.') = [].dropWhile (· != '.') :=
    List.dropWhile_append_of_pos fun c hc => ne_point_of_isDigit (hds c hc)
  rw [List.append_nil] at hnone
  rw [reading, filter_digits hds, hnone]
  rfl

theorem isDigit_toDigits (n : Nat) : ∀ c ∈ Nat.toDigits 10 n, c.isDigit = true :=
  fun _ hc => Nat.isDigit_of_mem_toDigits (by decide) (by decide) hc

theorem isDigit_replicate (n : Nat) : ∀ c ∈ List.replicate n '0', c.isDigit = true := by
  intro c hc
  rw [List.eq_of_mem_replicate hc]
  rfl

/-- The digits of a text and its point, if it has one. -/
theorem positional_cases (d : Decimal) :
    (∃ ds, d.positional.toList = ds ∧ (∀ c ∈ ds, c.isDigit = true) ∧ ds ≠ [] ∧
      Nat.ofDigitChars 10 ds 0 = d.numerator ∧ (-d.exponent).toNat = 0) ∨
    ∃ ds es, d.positional.toList = ds ++ '.' :: es ∧ (∀ c ∈ ds, c.isDigit = true) ∧ ds ≠ [] ∧
      (∀ c ∈ es, c.isDigit = true) ∧ Nat.ofDigitChars 10 (ds ++ es) 0 = d.numerator ∧
      (-d.exponent).toNat = es.length := by
  have hdigits := isDigit_toDigits d.digits
  have hvalue := @Nat.ofDigitChars_ten_toDigits d.digits
  have hne : Nat.toDigits 10 d.digits ≠ [] := Nat.toDigits_ne_nil
  unfold Decimal.positional Decimal.numerator
  simp only [Nat.pow_eq, zeros]
  generalize Nat.toDigits 10 d.digits = ds at *
  split
  · next hplaces =>
    refine Or.inl ⟨ds ++ List.replicate d.exponent.toNat '0', ?_, ?_, ?_, ?_, hplaces⟩
    · rw [String.toList_append, String.toList_ofList, String.toList_ofList]
    · exact List.forall_mem_append.mpr ⟨hdigits, isDigit_replicate _⟩
    · exact List.append_ne_nil_of_left_ne_nil hne _
    · rw [Nat.ofDigitChars_append, Nat.ofDigitChars_replicate_zero, hvalue, Nat.mul_comm]
  · next hplaces =>
    have hexponent : d.exponent.toNat = 0 := by omega
    rw [hexponent, Nat.pow_zero, Nat.mul_one]
    split
    · next hlt =>
      generalize hk : ds.length - (-d.exponent).toNat = k
      refine Or.inr ⟨ds.take k, ds.drop k, ?_, fun c hc => hdigits c (List.mem_of_mem_take hc), ?_,
        fun c hc => hdigits c (List.mem_of_mem_drop hc), ?_, ?_⟩
      · simp only [String.toList_append, String.toList_ofList, List.append_assoc]
        rfl
      · rw [Ne, List.take_eq_nil_iff, not_or]
        exact ⟨by omega, hne⟩
      · rw [List.take_append_drop, hvalue]
      · rw [List.length_drop]
        omega
    · next hlt =>
      generalize hk : (-d.exponent).toNat - ds.length = k
      refine Or.inr ⟨['0'], List.replicate k '0' ++ ds, ?_, by simp, by simp,
        List.forall_mem_append.mpr ⟨isDigit_replicate k, hdigits⟩, ?_, ?_⟩
      · simp only [String.toList_append, String.toList_ofList, List.append_assoc]
        rfl
      · rw [List.cons_append, List.nil_append, Nat.ofDigitChars_cons, Nat.ofDigitChars_append,
          Nat.ofDigitChars_replicate_zero]
        exact hvalue
      · rw [List.length_append, List.length_replicate]
        omega

/-- **A text without an exponent has its decimal in it.** -/
theorem reading_positional (d : Decimal) :
    reading d.positional.toList = (d.numerator, (-d.exponent).toNat) := by
  rcases positional_cases d with ⟨ds, htext, hds, -, hvalue, hplaces⟩ |
    ⟨ds, es, htext, hds, -, hes, hvalue, hplaces⟩
  · rw [htext, reading_digits hds, hvalue, hplaces]
  · rw [htext, reading_point hds hes, hvalue, hplaces]

/-! ## Shapes and their texts -/

/-- The plain layout of a shape, without a sign. -/
def Shape.text : Shape → String
  | .nan => "NaN"
  | .infinite => "inf"
  | .finite m q => if m = 0 then "0" else (shortest .up m q).positional

/-- The shapes that numbers have. Zero has one exponent only. -/
def Shape.Regular : Shape → Prop
  | .finite m q => (m = 0 → q = minExponent) ∧ (m ≠ 0 → Canonical m q)
  | _ => True

theorem regular_shape (x : Float) : (shape x).Regular := by
  cases h : shape x with
  | nan | infinite => trivial
  | finite m q =>
    refine ⟨fun hm => ?_, canonical_of_shape h⟩
    rw [shape_eq] at h
    split at h
    · split at h <;> cases h
    · split at h
      · cases h
        rfl
      · cases h
        omega

theorem plain_eq (x : Float) : plain x =
    if shape x ≠ .nan ∧ isNegative x = true then "-" ++ (shape x).text else (shape x).text := by
  unfold plain
  cases shape x with
  | nan => simp [Shape.text]
  | infinite => simp [Shape.text, signed]
  | finite m q =>
    cases m with
    | zero => simp [Shape.text, signed]
    | succ m => simp [Shape.text, signed]

/-- A finite number is written with digits, of which the first comes before any point. -/
theorem text_finite (m : Nat) (q : Int) : ∃ c cs, (Shape.finite m q).text.toList = c :: cs ∧
    c.isDigit = true ∧ ∀ d ∈ cs, d.isDigit = true ∨ d = '.' := by
  unfold Shape.text
  dsimp only
  split
  · exact ⟨'0', [], rfl, rfl, by simp⟩
  · rcases positional_cases (shortest .up m q) with ⟨ds, htext, hds, hne, -⟩ |
      ⟨ds, es, htext, hds, hne, hes, -⟩
    · obtain ⟨c, cs, rfl⟩ := List.exists_cons_of_ne_nil hne
      rw [List.forall_mem_cons] at hds
      exact ⟨c, cs, htext, hds.1, fun d hd => Or.inl (hds.2 d hd)⟩
    · obtain ⟨c, cs, rfl⟩ := List.exists_cons_of_ne_nil hne
      rw [List.forall_mem_cons] at hds
      refine ⟨c, cs ++ '.' :: es, htext, hds.1, fun d hd => ?_⟩
      rcases List.mem_append.mp hd with hd | hd
      · exact Or.inl (hds.2 d hd)
      · rcases List.mem_cons.mp hd with rfl | hd
        · exact Or.inr rfl
        · exact Or.inl (hes d hd)

theorem reading_text (hm : m ≠ 0) : reading (Shape.finite m q).text.toList =
    ((shortest .up m q).numerator, (-(shortest .up m q).exponent).toNat) := by
  rw [Shape.text, if_neg hm, reading_positional]

theorem numerator_pos (h : Canonical m q) : 0 < (shortest .up m q).numerator := by
  have hle := (Interval.bounds_of_contains (in_shortest .up h)).1
  refine Nat.pos_of_ne_zero fun hzero => ?_
  rw [hzero, Nat.zero_mul, around_eq] at hle
  have hlow : 0 < (4 * m - below m q) * unit q * (shortest .up m q).denominator := by
    refine Nat.mul_pos (Nat.mul_pos ?_ (unit_pos q)) (Decimal.denominator_pos _)
    have hpos := h.pos
    have hbelow := below_cases m q
    omega
  exact Nat.not_lt.mpr hle hlow

/-- Two finite numbers with one text are the same. -/
theorem finite_of_text {m' : Nat} {q' : Int} (h : (Shape.finite m q).Regular)
    (h' : (Shape.finite m' q').Regular)
    (htext : (Shape.finite m q).text = (Shape.finite m' q').text) : m = m' ∧ q = q' := by
  have hreading :
      reading (Shape.finite m q).text.toList = reading (Shape.finite m' q').text.toList :=
    congrArg (fun text => reading text.toList) htext
  by_cases hm : m = 0
  · by_cases hm' : m' = 0
    · exact ⟨hm.trans hm'.symm, (h.1 hm).trans (h'.1 hm').symm⟩
    · rw [reading_text hm', Shape.text, if_pos hm] at hreading
      exact absurd (congrArg Prod.fst hreading) (Nat.ne_of_lt (numerator_pos (h'.2 hm')))
  · rw [reading_text hm] at hreading
    by_cases hm' : m' = 0
    · rw [Shape.text, if_pos hm'] at hreading
      exact absurd (congrArg Prod.fst hreading) (Nat.ne_of_gt (numerator_pos (h.2 hm)))
    · rw [reading_text hm'] at hreading
      obtain ⟨hnumerator, hplaces⟩ := Prod.mk.inj hreading
      have hin := in_shortest .up (h.2 hm)
      have hin' := in_shortest .up (h'.2 hm')
      unfold Decimal.In at hin hin'
      rw [hnumerator, Decimal.denominator, hplaces] at hin
      exact eq_of_contains (h.2 hm) (h'.2 hm') (Decimal.denominator_pos _) hin hin'

/-- It does not start like the text of a number that is not finite, or like a negative one. -/
theorem text_finite_ne (m : Nat) (q : Int) {c : Char} (hc : c.isDigit = false) :
    (Shape.finite m q).text.toList.head? ≠ some c := by
  obtain ⟨d, ds, htext, hd, -⟩ := text_finite m q
  rw [htext]
  rintro ⟨⟩
  rw [hc] at hd
  cases hd

theorem shape_of_text {s s' : Shape} (h : s.Regular) (h' : s'.Regular)
    (htext : s.text = s'.text) : s = s' := by
  have hhead := congrArg (fun text => text.toList.head?) htext
  cases s with
  | nan =>
    cases s' with
    | nan => rfl
    | infinite => cases hhead
    | finite m q => exact absurd hhead.symm (text_finite_ne m q rfl)
  | infinite =>
    cases s' with
    | nan => cases hhead
    | infinite => rfl
    | finite m q => exact absurd hhead.symm (text_finite_ne m q rfl)
  | finite m q =>
    cases s' with
    | nan | infinite => exact absurd hhead (text_finite_ne m q rfl)
    | finite m' q' =>
      obtain ⟨rfl, rfl⟩ := finite_of_text h h' htext
      rfl

theorem text_ne_sign (s : Shape) : s.text.toList.head? ≠ some '-' := by
  cases s with
  | nan | infinite => simp [Shape.text]
  | finite m q => exact text_finite_ne m q rfl

/-- **No two numbers have the same text.** -/
theorem plain_injective (h : plain x = plain y) : x = y := by
  have hsigned : ∀ {s s' : Shape}, "-" ++ s.text ≠ s'.text := by
    intro s s' heq
    refine text_ne_sign s' ?_
    rw [← heq, String.toList_append]
    rfl
  rw [plain_eq, plain_eq] at h
  by_cases hx : shape x ≠ .nan ∧ isNegative x = true <;>
    by_cases hy : shape y ≠ .nan ∧ isNegative y = true
  · rw [if_pos hx, if_pos hy] at h
    have hshape :=
      shape_of_text (regular_shape x) (regular_shape y) ((String.append_right_inj _).mp h)
    exact eq_of_shape hshape fun _ => hx.2.trans hy.2.symm
  · rw [if_pos hx, if_neg hy] at h
    exact absurd h hsigned
  · rw [if_neg hx, if_pos hy] at h
    exact absurd h.symm hsigned
  · rw [if_neg hx, if_neg hy] at h
    have hshape := shape_of_text (regular_shape x) (regular_shape y) h
    refine eq_of_shape hshape fun hnan => ?_
    rw [Bool.eq_false_iff.mpr fun hsign => hx ⟨hnan, hsign⟩,
      Bool.eq_false_iff.mpr fun hsign => hy ⟨hshape ▸ hnan, hsign⟩]

end Nya.Number
