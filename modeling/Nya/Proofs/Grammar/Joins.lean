import Nya.Proofs.Grammar.Levels

/-!
# Expressions that go on

More tokens may be put behind an expression so that there is one again: an operator with an operand,
or a list of arguments. They go to the last operand that holds on to them as tightly, and all rules
around it stay as they are (`Fits.looser`).

So two expressions in a row are one, if the second starts with a parenthesis or a `-.-`: what was a
group is read as arguments, and what was a sign is read as a difference (`word_append`).
-/

namespace Nya.Grammar

variable {us vs x : List Token}

/-- Behind every word of the rule the tokens make one again. -/
def Fits (n : Nonterminal) (x : List Token) : Prop := ∀ ⦃us⦄, Word n us → Word n (us ++ x)

/-- What fits behind an operand fits behind a list of operands. -/
theorem Fits.joined {k : Nat} (hk : 1 ≤ k ∧ k ≤ 7) (h : Fits (ruleAt (k + 1)) x) :
    Fits (ruleAt k) x := by
  intro us hus
  obtain ⟨operator, hproduction, -⟩ := production_ruleAt hk.1 hk.2
  have hmatches := matches_of_word hus
  rw [hproduction] at hmatches
  obtain ⟨u, _, rfl, hu, rounds, rfl, hrounds⟩ := hmatches
  refine word_of_matches ?_
  rw [hproduction]
  rcases List.eq_nil_or_concat rounds with rfl | ⟨rounds, last, rfl⟩
  · exact ⟨u ++ x, [], by simp, h hu, [], rfl, by simp⟩
  · rw [List.concat_eq_append] at hrounds ⊢
    obtain ⟨o, v, rfl, ho, hv⟩ := hrounds last (by simp)
    refine ⟨u, (rounds ++ [o ++ (v ++ x)]).flatten, by simp, hu, _, rfl, ?_⟩
    intro w hw
    rcases List.mem_append.mp hw with hw | hw
    · exact hrounds w (List.mem_append_left _ hw)
    · rw [List.mem_singleton.mp hw]
      exact ⟨o, v ++ x, rfl, ho, h hv⟩

theorem Fits.unary (h : Fits .call x) : Fits .unary x := by
  intro us hus
  refine Word.induct (N := fun n w => n = .unary → Word .unary (w ++ x)) ?_ hus rfl
  rintro _ w hw rfl
  refine word_of_matches ?_
  rcases hw with ⟨o, v, rfl, ho, hv⟩ | hw
  · refine Or.inl ⟨o, v ++ x, List.append_assoc _ _ _, ?_, hv.2 rfl⟩
    exact Matches.mono (fun _ _ h => h.1) ho
  · exact Or.inr (h hw.1)

theorem Fits.assignment (h : Fits .logicOr x) : Fits .assignment x := by
  intro us hus
  refine Word.induct (N := fun n w => n = .assignment → Word .assignment (w ++ x)) ?_ hus rfl
  rintro _ w hw rfl
  refine word_of_matches ?_
  rcases hw with ⟨target, v, rfl, htarget, hv⟩ | hw
  · refine Or.inl ⟨target, v ++ x, List.append_assoc _ _ _, ?_, hv.2 rfl⟩
    exact Matches.mono (fun _ _ h => h.1) htarget
  · exact Or.inr (h hw.1)

/-- What fits behind a tight rule fits behind a looser one. -/
theorem Fits.looser {k : Nat} (hk : 1 ≤ k ∧ k ≤ 9) (h : Fits (ruleAt k) x) :
    Fits .expression x := by
  have hor : Fits .logicOr x := by
    obtain ⟨hpos, hle⟩ := hk
    induction k with
    | zero => omega
    | succ k ih =>
      rcases Nat.eq_zero_or_pos k with rfl | hk
      · exact h
      · refine ih ?_ hk (by omega)
        rcases Nat.lt_or_eq_of_le (Nat.le_of_succ_le_succ hle) with hlt | rfl
        · exact Fits.joined ⟨hk, by omega⟩ h
        · exact Fits.unary h
  intro us hus
  exact word_of_matches (n := .expression) (hor.assignment (matches_of_word hus))

/-- An operator and an operand fit behind an expression. -/
theorem fits_operator {k : Nat} {t : Token} (hk : 1 ≤ k ∧ k ≤ 7) (ht : t.rank? = some k)
    (h : Word (ruleAt (k + 1)) vs) : Fits .expression (t :: vs) :=
  Fits.looser ⟨hk.1, by omega⟩ fun _ hus => word_joined hk hus ht h

/-- A list of arguments fits behind an expression. -/
theorem fits_arguments {start stop : Token} (hstart : start.isSymbol .leftParen = true)
    (h : vs = [] ∨ Word .arguments vs) (hstop : stop.isSymbol .rightParen = true) :
    Fits .expression (start :: (vs ++ [stop])) :=
  Fits.looser (k := 9) (by decide) fun _ hus => word_call hus hstart h hstop

/-- What an expression starts with if it may go on with one before it. -/
def Resuming (ts : List Token) : Prop :=
  ∃ t us, ts = t :: us ∧ (t.isSymbol .leftParen = true ∨ t.isSymbol .minus = true)

theorem Resuming.of_append {us vs : List Token} (h : Resuming (us ++ vs)) (hus : us ≠ []) :
    Resuming us := by
  obtain ⟨t, us, rfl⟩ := List.exists_cons_of_ne_nil hus
  obtain ⟨t', ws, hts, ht⟩ := h
  cases hts
  exact ⟨t, us, rfl, ht⟩

theorem Resuming.kind {t : Token} (h : Resuming (t :: us)) :
    t.kind = .symbol .leftParen ∨ t.kind = .symbol .minus := by
  obtain ⟨t', ws, hts, ht⟩ := h
  cases hts
  exact ht.imp Token.isSymbol_iff.mp Token.isSymbol_iff.mp

theorem Resuming.kind_ne {t : Token} (h : Resuming (t :: us)) : t.kind ≠ .identifier := by
  rcases h.kind with h | h <;> simp [h]

/-- No expression is spelled by nothing. -/
theorem spelled_ne_nil : ∀ {e : Expr} {ts : List Token}, e.Spelled ts → ts ≠ []
  | .literal _ _, _, ⟨_, hts, _⟩ | .read _, _, ⟨_, hts, _⟩ | .assign _ _, _, ⟨_, _, _, hts, _⟩
  | .unary _ _ _, _, ⟨_, _, hts, _⟩ | .binary _ _ _ _, _, ⟨_, _, _, hts, _⟩
  | .logical _ _ _ _, _, ⟨_, _, _, hts, _⟩ | .group _ _, _, ⟨_, _, _, hts, _⟩
  | .call _ _ _ _, _, ⟨_, _, _, _, hts, _⟩ => by simp [hts]

/-- What fits goes on with an operator and its second operand. -/
theorem Fits.node {k : Nat} {operator t : Token} {right : Expr} (h : Fits .expression us)
    (hk : 1 ≤ k ∧ k ≤ 7) (hoperator : operator.rank? = some k) (ht : t.unlined = operator.unlined)
    (hright : right.Leveled) (hvs : right.Spelled vs) (hrank : k < right.rank) :
    Fits .expression (us ++ t :: vs) := by
  intro ws hws
  rw [← List.append_assoc]
  exact fits_operator hk ((Token.rank?_of_unlined ht).trans hoperator)
    (word_of_rank (word_rank hright hvs) hrank) (h hws)

/-- The tokens of the expression fit behind another one, one operand after the other. -/
theorem fits_spelled : ∀ {e : Expr} {ts : List Token}, e.Leveled → e.Spelled ts → Resuming ts →
    Fits .expression ts
  | .literal _ _, _, _, ⟨t, hts, ht⟩, hresuming => by
    subst hts
    rcases hresuming.kind with h | h <;> simp [Parse.literal?, h] at ht
  | .read _, _, hname, ⟨t, hts, ht⟩, hresuming => by
    subst hts
    exact absurd ((Token.kind_of_unlined ht).trans hname) hresuming.kind_ne
  | .assign _ _, _, ⟨hname, _⟩, ⟨t, _, _, hts, ht, _⟩, hresuming => by
    subst hts
    exact absurd ((Token.kind_of_unlined ht).trans hname) hresuming.kind_ne
  | .unary _ operator right, _, ⟨hoperator, hright, hrank⟩, ⟨t, us, hts, ht, hus⟩, hresuming => by
    subst hts
    -- The sign becomes an operator.
    have hminus : t.kind = .symbol .minus := by
      rcases hresuming.kind with h | h
      · simp [Token.isSymbol, ← Token.kind_of_unlined ht, h] at hoperator
      · exact h
    have hsix : t.rank? = some 6 := by simp [Token.rank?, Token.symbol?, hminus, Symbol.rank?]
    exact fits_operator (by decide) hsix
      (word_of_rank (word_rank hright hus) (Nat.le_trans (by decide) hrank))
  | .logical _ left operator right, _, ⟨k, hoperator, hk, hleft, _, hright, hrrank⟩,
      ⟨us, t, vs, hts, hus, ht, hvs⟩, hresuming => by
    subst hts
    have hfits := fits_spelled hleft hus (hresuming.of_append (spelled_ne_nil hus))
    exact hfits.node (by omega) hoperator ht hright hvs hrrank
  | .binary _ left operator right, _, ⟨k, hoperator, hk, hleft, _, hright, hrrank⟩,
      ⟨us, t, vs, hts, hus, ht, hvs⟩, hresuming => by
    subst hts
    have hfits := fits_spelled hleft hus (hresuming.of_append (spelled_ne_nil hus))
    exact hfits.node (by omega) hoperator ht hright hvs hrrank
  | .group _ inner, _, hleveled, ⟨start, us, stop, hts, hstart, hus, hstop⟩, _ => by
    subst hts
    have hinner : inner.Leveled := hleveled
    have hword : Word .expression us := word_of_rank (word_rank hinner hus) (Nat.zero_le _)
    have harguments : Word .arguments (us ++ [].flatten) :=
      word_arguments hword (by decide) (by simp)
    rw [List.flatten_nil, List.append_nil] at harguments
    exact fits_arguments hstart (Or.inr harguments) hstop
  | .call _ callee arguments paren, _, ⟨hcallee, hrank, harguments, hlength, hparen⟩,
      ⟨us, start, vs, stop, hts, hus, hstart, hvs, hstop⟩, hresuming => by
    subst hts
    rw [← Token.isSymbol_of_unlined hstop] at hparen
    intro ws hws
    rw [← List.append_assoc]
    refine fits_arguments hstart (word_of_argumentList harguments hvs hlength) hparen ?_
    exact fits_spelled hcallee hus (hresuming.of_append (spelled_ne_nil hus)) hws

/-- **Two expressions are one if the second may go on with the first.** -/
theorem word_append (hus : Word .expression us) (hvs : Word .expression vs) (h : Resuming vs) :
    Word .expression (us ++ vs) := by
  obtain ⟨e, he⟩ := word_expression_iff.mp hvs
  exact fits_spelled he.leveled he.spelled h hus

end Nya.Grammar
