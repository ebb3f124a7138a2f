import Nya.Proofs.Grammar.Rules
import Nya.Proofs.Grammar.Spelling

/-!
# The words of expressions

The rules for expressions have words, the trees have spellings, and these are the same: a word of
the rule of a rank spells a levelled expression of at least that rank (`spells_of_word`), and what
spells such an expression is a word of the rule (`word_rank`).

The rules go from left to right through a list of operands where the tree leans to the left. So one
direction folds the list into a tree, and the other puts one more round at its end.
-/

namespace Nya.Grammar

variable {w : List Token} {k : Nat}

/-! ## Ranks of rules -/

/-- The rule of the expressions that hold together at least as tightly as the rank. -/
def ruleAt : Nat → Nonterminal
  | 0 => .expression
  | 1 => .logicOr
  | 2 => .logicAnd
  | 3 => .equality
  | 4 => .comparison
  | 5 => .modulo
  | 6 => .term
  | 7 => .factor
  | 8 => .unary
  | 9 => .call
  | _ => .primary

open Ebnf in
theorem matches_literal {N : Nonterminal → List Token → Prop} :
    Matches N (terminal .number ||| terminal .string ||| symbol .yes ||| symbol .no |||
      symbol .nil ||| symbol .typeNumber ||| symbol .typeString ||| symbol .typeBoolean) w ↔
    ∃ (t : Token) (value : Literal), w = [t] ∧ Parse.literal? t = some value := by
  simp only [matches_or, matches_symbol, Matches, Terminal.admits, ← exists_or, ← and_or_left,
    exists_and_left]
  refine exists_congr fun t => and_congr_right fun _ => ?_
  obtain ⟨kind, lexeme, line⟩ := t
  cases kind with
  | symbol s => cases s <;> simp [Parse.literal?, Token.isSymbol]
  | _ => simp [Parse.literal?, Token.isSymbol]

/-- The rules of the ranks one to seven join operands by the operators of the rank. -/
theorem production_ruleAt : ∀ {k : Nat}, 1 ≤ k → k ≤ 7 → ∃ operator,
    production (ruleAt k) = .joined (ruleAt (k + 1)) operator ∧
    ∀ N w, Matches N operator w ↔ ∃ t : Token, w = [t] ∧ t.rank? = some k
  | 1, _, _ | 2, _, _ | 3, _, _ | 4, _, _ | 5, _, _ | 6, _, _ | 7, _, _ => by
    refine ⟨_, rfl, fun N w => ?_⟩
    simp only [matches_or, matches_symbol, ← exists_or, ← and_or_left]
    refine exists_congr fun t => and_congr_right fun _ => ?_
    obtain ⟨kind, lexeme, line⟩ := t
    cases kind with
    | symbol s => cases s <;> simp [Token.rank?, Token.symbol?, Token.isSymbol, Symbol.rank?]
    | _ => simp [Token.rank?, Token.symbol?, Token.isSymbol]
  | 0, h, _ => absurd h (by omega)
  | _ + 8, _, h => absurd h (by omega)

/-! ## From words to trees -/

/-- Operands and operators are folded into a tree that leans to the left. -/
theorem exists_of_joined {N : Nonterminal → List Token → Prop} {operand : Nonterminal}
    {operator : Ebnf} (hk : 1 ≤ k ∧ k ≤ 7)
    (hoperator : ∀ w, Matches N operator w ↔ ∃ t : Token, w = [t] ∧ t.rank? = some k)
    (hoperand : ∀ w, N operand w → ∃ e : Expr, e.SpelledAt (k + 1) w)
    (h : Matches N (.joined operand operator) w) : ∃ e : Expr, e.SpelledAt k w := by
  obtain ⟨u, _, rfl, hu, us, rfl, hus⟩ := h
  obtain ⟨e, he⟩ := hoperand u hu
  replace he := he.mono (Nat.le_succ k)
  clear hu
  induction us generalizing u e with
  | nil =>
    rw [List.flatten_nil, List.append_nil]
    exact ⟨e, he⟩
  | cons v us ih =>
    obtain ⟨o, x, rfl, ho, hx⟩ := hus v List.mem_cons_self
    obtain ⟨t, rfl, ht⟩ := (hoperator o).mp ho
    obtain ⟨right, hright⟩ := hoperand x hx
    have hnode := Expr.SpelledAt.node (l := ⟨[], decide (k ≤ 2)⟩) 0 hk (by simp) he ht hright
    have hfold := ih _ (fun v hv => hus v (List.mem_cons_of_mem _ hv)) _ hnode
    simpa using hfold

/-- Calls in a row are folded into a tree that leans to the left. -/
theorem exists_of_calls {u : List Token} {us : List (List Token)} {e : Expr} (he : e.SpelledAt 9 u)
    (hus : ∀ v ∈ us, ∃ (start : Token) (vs : List Token) (paren : Token) (es : List Expr),
      v = start :: (vs ++ [paren]) ∧ start.isSymbol .leftParen = true ∧ Expr.LeveledAll es ∧
        Expr.SpelledAll es vs ∧ es.length ≤ Parse.maxArguments ∧
        paren.isSymbol .rightParen = true) :
    ∃ e' : Expr, e'.SpelledAt 9 (u ++ us.flatten) := by
  induction us generalizing u e with
  | nil =>
    rw [List.flatten_nil, List.append_nil]
    exact ⟨e, he⟩
  | cons v us ih =>
    obtain ⟨start, vs, paren, es, rfl, hstart, hleveled, hspelled, hlength, hparen⟩ :=
      hus v List.mem_cons_self
    have hcall := he.call 0 hstart hleveled hspelled hlength hparen
    have hfold := ih hcall fun v hv => hus v (List.mem_cons_of_mem _ hv)
    simpa using hfold

/-- Expressions after commas are the arguments after the first one. -/
theorem exists_of_items {us : List (List Token)}
    (hus : ∀ v ∈ us, ∃ (comma : Token) (vs : List Token) (e : Expr), v = comma :: vs ∧
      comma.isSymbol .comma = true ∧ e.SpelledAt 0 vs) :
    ∃ es : List Expr, es.length = us.length ∧ Expr.LeveledAll es ∧
      Expr.SpelledAfter es us.flatten := by
  induction us with
  | nil => exact ⟨[], rfl, trivial, rfl⟩
  | cons v us ih =>
    obtain ⟨comma, vs, e, rfl, hcomma, he⟩ := hus v List.mem_cons_self
    obtain ⟨es, hlength, hleveled, hspelled⟩ := ih fun v hv => hus v (List.mem_cons_of_mem _ hv)
    exact ⟨e :: es, by rw [List.length_cons, List.length_cons, hlength],
      ⟨he.leveled, hleveled⟩, comma, vs, us.flatten, rfl, hcomma, he.spelled, hspelled⟩

/-- The rank of the expressions that are words of the rule. -/
def Nonterminal.rank? : Nonterminal → Option Nat
  | .expression | .assignment => some 0
  | .logicOr => some 1
  | .logicAnd => some 2
  | .equality => some 3
  | .comparison => some 4
  | .modulo => some 5
  | .term => some 6
  | .factor => some 7
  | .unary => some 8
  | .call => some 9
  | .primary => some 10
  | _ => none

theorem rank?_ruleAt : ∀ {k : Nat}, k ≤ 10 → (ruleAt k).rank? = some k
  | 0, _ | 1, _ | 2, _ | 3, _ | 4, _ | 5, _ | 6, _ | 7, _ | 8, _ | 9, _ | 10, _ => rfl
  | _ + 11, h => absurd h (by omega)

/-- What the words of a rule for expressions spell. -/
def Spells (n : Nonterminal) (w : List Token) : Prop :=
  (∀ k ∈ n.rank?, ∃ e : Expr, e.SpelledAt k w) ∧
    (n = .arguments → ∃ es : List Expr, Expr.LeveledAll es ∧ Expr.SpelledAll es w ∧
      es.length ≤ Parse.maxArguments)

theorem Spells.expr {n : Nonterminal} (h : Word n w ∧ Spells n w) (hk : n.rank? = some k) :
    ∃ e : Expr, e.SpelledAt k w :=
  h.2.1 k hk

theorem spells_of_expr {n : Nonterminal} (hk : n.rank? = some k) (h : ∃ e : Expr, e.SpelledAt k w) :
    Spells n w := by
  refine ⟨?_, ?_⟩
  · intro j hj
    rw [hk] at hj
    cases hj
    exact h
  · rintro rfl
    cases hk

theorem exists_of_ruleAt (hk : 1 ≤ k) (hk' : k ≤ 7)
    (h : Matches (fun n w => Word n w ∧ Spells n w) (production (ruleAt k)) w) :
    ∃ e : Expr, e.SpelledAt k w := by
  obtain ⟨operator, hproduction, hoperator⟩ := production_ruleAt hk hk'
  rw [hproduction] at h
  refine exists_of_joined ⟨hk, hk'⟩ (hoperator _) (fun w hw => Spells.expr hw ?_) h
  exact rank?_ruleAt (by omega)

/-- The argument list of a call, with its parentheses. -/
theorem exists_of_argumentList (h : Matches (fun n w => Word n w ∧ Spells n w)
      (.symbol .leftParen ++ .option (.nonterminal .arguments) ++ .symbol .rightParen) w) :
    ∃ (start : Token) (vs : List Token) (paren : Token) (es : List Expr),
      w = start :: (vs ++ [paren]) ∧ start.isSymbol .leftParen = true ∧ Expr.LeveledAll es ∧
        Expr.SpelledAll es vs ∧ es.length ≤ Parse.maxArguments ∧
        paren.isSymbol .rightParen = true := by
  obtain ⟨_, _, rfl, ⟨_, vs, rfl, ⟨start, rfl, hstart⟩, hvs⟩, paren, rfl, hparen⟩ := h
  rcases hvs with rfl | hvs
  · exact ⟨start, [], paren, [], rfl, hstart, trivial, rfl, Nat.zero_le _, hparen⟩
  · obtain ⟨es, hleveled, hspelled, hlength⟩ := hvs.2.2 rfl
    exact ⟨start, vs, paren, es, by simp, hstart, hleveled, hspelled, hlength, hparen⟩

/-- Every word of a rule for expressions spells one. -/
theorem spells_of_word {n : Nonterminal} (h : Word n w) : Spells n w := by
  refine Word.induct ?_ h
  intro n w h
  cases n with
  | expression => exact spells_of_expr rfl (Spells.expr h rfl)
  | assignment =>
    refine spells_of_expr rfl ?_
    rcases h with ⟨_, v, rfl, ⟨_, _, rfl, ⟨name, rfl, hname⟩, equals, rfl, hequals⟩, hv⟩ | h
    · obtain ⟨value, hvalue⟩ := Spells.expr hv rfl
      have htarget : (Expr.read ⟨0, name, none⟩).SpelledAt 10 [name] := .read (eq_of_beq hname)
      exact ⟨_, htarget.assign 0 hequals hvalue⟩
    · obtain ⟨e, he⟩ := Spells.expr h rfl
      exact ⟨e, he.mono (Nat.zero_le _)⟩
  | logicOr | logicAnd | equality | comparison | modulo | term | factor =>
    exact spells_of_expr rfl (exists_of_ruleAt (by decide) (by decide) h)
  | unary =>
    refine spells_of_expr rfl ?_
    rcases h with ⟨_, v, rfl, hoperator, hv⟩ | h
    · obtain ⟨right, hright⟩ := Spells.expr hv rfl
      rcases hoperator with ⟨t, rfl, ht⟩ | ⟨t, rfl, ht⟩
      · exact ⟨_, .unary 0 (Or.inl ht) hright⟩
      · exact ⟨_, .unary 0 (Or.inr ht) hright⟩
    · obtain ⟨e, he⟩ := Spells.expr h rfl
      exact ⟨e, he.mono (by decide)⟩
  | call =>
    refine spells_of_expr rfl ?_
    obtain ⟨u, _, rfl, hu, us, rfl, hus⟩ := h
    obtain ⟨e, he⟩ := Spells.expr hu rfl
    exact exists_of_calls (he.mono (by decide)) fun v hv => exists_of_argumentList (hus v hv)
  | arguments =>
    refine ⟨fun k hk => (by cases hk), fun _ => ?_⟩
    obtain ⟨u, _, rfl, hu, us, hlength, rfl, hus⟩ := h
    obtain ⟨e, he⟩ := Spells.expr hu rfl
    obtain ⟨es, hes, hleveled, hspelled⟩ := exists_of_items fun v hv => by
      obtain ⟨_, x, rfl, ⟨comma, rfl, hcomma⟩, hx⟩ := hus v hv
      obtain ⟨e', he'⟩ := Spells.expr hx rfl
      exact ⟨comma, x, e', rfl, hcomma, he'⟩
    refine ⟨e :: es, ⟨he.leveled, hleveled⟩, ⟨u, us.flatten, rfl, he.spelled, hspelled⟩, ?_⟩
    rw [List.length_cons, hes]
    simp only [Parse.maxArguments] at hlength ⊢
    omega
  | primary =>
    refine spells_of_expr rfl ?_
    rcases h with (h | ⟨name, rfl, hname⟩) |
      ⟨_, _, rfl, ⟨_, v, rfl, ⟨start, rfl, hstart⟩, hv⟩, stop, rfl, hstop⟩
    · obtain ⟨t, value, rfl, ht⟩ := matches_literal.mp h
      exact ⟨_, .literal 0 ht⟩
    · exact ⟨.read ⟨0, name, none⟩, .read (eq_of_beq hname)⟩
    · obtain ⟨inner, hinner⟩ := Spells.expr hv rfl
      exact ⟨_, .group 0 hstart hinner hstop⟩
  | _ => exact ⟨fun k hk => (by cases hk), fun h => (by cases h)⟩

/-! ## From trees to words -/

/-- An operand alone is a word of the looser rule. -/
theorem word_loosenOne (hk : k ≤ 9) (h : Word (ruleAt (k + 1)) w) :
    Word (ruleAt k) w := by
  rcases Nat.lt_trichotomy k 8 with hlt | rfl | hgt
  · rcases Nat.eq_zero_or_pos k with rfl | hpos
    · have hassignment : Word .assignment w := word_of_matches (Or.inr h)
      exact word_of_matches hassignment
    · obtain ⟨operator, hproduction, -⟩ := production_ruleAt hpos (Nat.le_of_lt_succ hlt)
      refine word_of_matches ?_
      rw [hproduction]
      exact ⟨w, [], by simp, h, [], rfl, by simp⟩
  · exact word_of_matches (n := .unary) (Or.inr h)
  · obtain rfl : k = 9 := by omega
    exact word_of_matches (n := .call) ⟨w, [], by simp, h, [], rfl, by simp⟩

theorem word_loosen {j k : Nat} (hjk : j ≤ k) (hk : k ≤ 10) (h : Word (ruleAt k) w) :
    Word (ruleAt j) w := by
  induction hjk with
  | refl => exact h
  | step hle ih => exact ih (by omega) (word_loosenOne (by omega) h)

/-- One more round fits behind a list of operands. -/
theorem word_joined {us vs : List Token} {t : Token} (hk : 1 ≤ k ∧ k ≤ 7)
    (hleft : Word (ruleAt k) us) (ht : t.rank? = some k) (hright : Word (ruleAt (k + 1)) vs) :
    Word (ruleAt k) (us ++ t :: vs) := by
  obtain ⟨operator, hproduction, hoperator⟩ := production_ruleAt hk.1 hk.2
  have hmatches := matches_of_word hleft
  rw [hproduction] at hmatches
  obtain ⟨u, _, rfl, hu, rounds, rfl, hrounds⟩ := hmatches
  refine word_of_matches ?_
  rw [hproduction]
  refine ⟨u, (rounds ++ [t :: vs]).flatten, by simp, hu, rounds ++ [t :: vs], rfl, ?_⟩
  intro v hv
  rcases List.mem_append.mp hv with hv | hv
  · exact hrounds v hv
  · obtain rfl := List.mem_singleton.mp hv
    exact ⟨[t], vs, rfl, (hoperator _ _).mpr ⟨t, rfl, ht⟩, hright⟩

/-- One more argument list fits behind a callee. -/
theorem word_call {us vs : List Token} {start stop : Token} (hcallee : Word .call us)
    (hstart : start.isSymbol .leftParen = true) (harguments : vs = [] ∨ Word .arguments vs)
    (hstop : stop.isSymbol .rightParen = true) : Word .call (us ++ start :: (vs ++ [stop])) := by
  obtain ⟨u, _, rfl, hu, rounds, rfl, hrounds⟩ := matches_of_word hcallee
  refine word_of_matches ?_
  refine ⟨u, (rounds ++ [start :: (vs ++ [stop])]).flatten, by simp, hu, _, rfl, ?_⟩
  intro v hv
  rcases List.mem_append.mp hv with hv | hv
  · exact hrounds v hv
  · obtain rfl := List.mem_singleton.mp hv
    exact ⟨start :: vs, [stop], rfl, ⟨[start], vs, rfl, ⟨start, rfl, hstart⟩, harguments⟩,
      stop, rfl, hstop⟩

/-- A first argument and those after it are a list of arguments. -/
theorem word_arguments {us : List Token} {rounds : List (List Token)} (h : Word .expression us)
    (hlength : rounds.length + 1 ≤ Parse.maxArguments)
    (hrounds : ∀ v ∈ rounds, ∃ comma vs, v = comma :: vs ∧ comma.isSymbol .comma = true ∧
      Word .expression vs) : Word .arguments (us ++ rounds.flatten) := by
  refine word_of_matches ⟨us, _, rfl, h, rounds, Nat.le_sub_of_add_le hlength, rfl, ?_⟩
  intro v hv
  obtain ⟨comma, vs, rfl, hcomma, hvs⟩ := hrounds v hv
  exact ⟨[comma], vs, rfl, ⟨comma, rfl, hcomma⟩, hvs⟩

theorem word_of_rank {e : Expr} {j : Nat} (h : e.rank ≤ 10 ∧ Word (ruleAt e.rank) w)
    (hj : j ≤ e.rank) : Word (ruleAt j) w :=
  word_loosen hj h.1 h.2

/-- Operands of a rank and the operator between them are a word of the rule of the rank. -/
theorem word_of_node {left right : Expr} {operator t : Token} {us vs : List Token}
    (hk : 1 ≤ k ∧ k ≤ 7) (hoperator : operator.rank? = some k) (ht : t.unlined = operator.unlined)
    (hleft : left.rank ≤ 10 ∧ Word (ruleAt left.rank) us) (hlrank : k ≤ left.rank)
    (hright : right.rank ≤ 10 ∧ Word (ruleAt right.rank) vs) (hrrank : k < right.rank) :
    operator.rank?.getD 0 ≤ 10 ∧ Word (ruleAt (operator.rank?.getD 0)) (us ++ t :: vs) := by
  have hword := word_joined hk (word_of_rank hleft hlrank)
    ((Token.rank?_of_unlined ht).trans hoperator) (word_of_rank hright hrrank)
  rw [hoperator]
  exact ⟨Nat.le_trans hk.2 (by decide), hword⟩

mutual

/-- What spells a levelled expression is a word of the rule of its rank. -/
theorem word_rank : ∀ {e : Expr} {w : List Token}, e.Leveled → e.Spelled w →
    e.rank ≤ 10 ∧ Word (ruleAt e.rank) w
  | .literal _ value, _, _, ⟨t, rfl, ht⟩ => by
    refine ⟨Nat.le_refl 10, word_of_matches (n := .primary) ?_⟩
    exact Or.inl (Or.inl (matches_literal.mpr ⟨t, value, rfl, ht⟩))
  | .read target, _, hname, ⟨t, rfl, ht⟩ => by
    refine ⟨Nat.le_refl 10, word_of_matches (n := .primary) ?_⟩
    refine Or.inl (Or.inr ⟨t, rfl, ?_⟩)
    rw [Terminal.admits, Token.kind_of_unlined ht, hname]
    rfl
  | .assign target value, _, ⟨hname, hvalue⟩, ⟨t, equals, us, rfl, ht, hequals, hus⟩ => by
    have hword : Word .expression us := word_of_rank (word_rank hvalue hus) (Nat.zero_le _)
    have hassignment : Word .assignment us := matches_of_word hword
    have hkind : Terminal.identifier.admits t = true := by
      rw [Terminal.admits, Token.kind_of_unlined ht, hname]
      rfl
    have hwhole : Word .assignment (t :: equals :: us) :=
      word_of_matches (Or.inl ⟨[t, equals], us, rfl,
        ⟨[t], [equals], rfl, ⟨t, rfl, hkind⟩, equals, rfl, hequals⟩, hassignment⟩)
    exact ⟨Nat.zero_le _, word_of_matches (n := .expression) hwhole⟩
  | .unary _ operator right, _, ⟨hoperator, hright, hrank⟩, ⟨t, us, rfl, ht, hus⟩ => by
    have hword : Word .unary us := word_of_rank (word_rank hright hus) hrank
    rw [← Token.isSymbol_of_unlined ht, ← Token.isSymbol_of_unlined ht] at hoperator
    refine ⟨by simp [Expr.rank], word_of_matches (n := .unary) (Or.inl ?_)⟩
    refine ⟨[t], us, rfl, ?_, hword⟩
    rcases hoperator with h | h
    · exact Or.inl ⟨t, rfl, h⟩
    · exact Or.inr ⟨t, rfl, h⟩
  | .logical _ left operator right, _, ⟨k, hoperator, hk, hleft, hlrank, hright, hrrank⟩,
      ⟨us, t, vs, rfl, hus, ht, hvs⟩ =>
    word_of_node (by omega) hoperator ht (word_rank hleft hus) hlrank (word_rank hright hvs) hrrank
  | .binary _ left operator right, _, ⟨k, hoperator, hk, hleft, hlrank, hright, hrrank⟩,
      ⟨us, t, vs, rfl, hus, ht, hvs⟩ =>
    word_of_node (by omega) hoperator ht (word_rank hleft hus) hlrank (word_rank hright hvs) hrrank
  | .group _ inner, _, hleveled, ⟨start, us, stop, rfl, hstart, hus, hstop⟩ => by
    have hinner : inner.Leveled := hleveled
    have hword : Word .expression us := word_of_rank (word_rank hinner hus) (Nat.zero_le _)
    refine ⟨Nat.le_refl 10, word_of_matches (n := .primary) (Or.inr ?_)⟩
    exact ⟨start :: us, [stop], rfl, ⟨[start], us, rfl, ⟨start, rfl, hstart⟩, hword⟩, stop, rfl,
      hstop⟩
  | .call _ callee arguments paren, _, ⟨hcallee, hrank, harguments, hlength, hparen⟩,
      ⟨us, start, vs, stop, rfl, hus, hstart, hvs, hstop⟩ => by
    rw [← Token.isSymbol_of_unlined hstop] at hparen
    have hword : Word .call us := word_of_rank (word_rank hcallee hus) hrank
    exact ⟨by simp [Expr.rank],
      word_call hword hstart (word_of_argumentList harguments hvs hlength) hparen⟩

theorem word_of_argumentList : ∀ {es : List Expr} {w : List Token}, Expr.LeveledAll es →
    Expr.SpelledAll es w → es.length ≤ Parse.maxArguments → w = [] ∨ Word .arguments w
  | [], _, _, h, _ => Or.inl h
  | _ :: es, _, ⟨he, hes⟩, ⟨us, vs, rfl, hus, hvs⟩, hlength => by
    obtain ⟨rounds, hrounds, rfl, hitems⟩ := rounds_of_items hes hvs
    have hword : Word .expression us := word_of_rank (word_rank he hus) (Nat.zero_le _)
    rw [List.length_cons, ← hrounds] at hlength
    exact Or.inr (word_arguments hword hlength hitems)

theorem rounds_of_items : ∀ {es : List Expr} {w : List Token}, Expr.LeveledAll es →
    Expr.SpelledAfter es w → ∃ rounds : List (List Token), rounds.length = es.length ∧
      w = rounds.flatten ∧ ∀ v ∈ rounds, ∃ comma vs, v = comma :: vs ∧
        comma.isSymbol .comma = true ∧ Word .expression vs
  | [], _, _, h => ⟨[], rfl, h, by simp⟩
  | _ :: es, _, ⟨he, hes⟩, ⟨comma, us, vs, rfl, hcomma, hus, hvs⟩ => by
    obtain ⟨rounds, hrounds, rfl, hitems⟩ := rounds_of_items hes hvs
    have hword : Word .expression us := word_of_rank (word_rank he hus) (Nat.zero_le _)
    refine ⟨(comma :: us) :: rounds, by rw [List.length_cons, List.length_cons, hrounds], rfl, ?_⟩
    intro v hv
    cases hv with
    | head => exact ⟨comma, us, rfl, hcomma, hword⟩
    | tail _ hv => exact hitems v hv

end

/-- The words for expressions are what spells a levelled one. -/
theorem word_expression_iff :
    Word .expression w ↔ ∃ e : Expr, e.SpelledAt 0 w := by
  constructor
  · intro h
    exact (spells_of_word h).1 0 rfl
  · rintro ⟨e, he⟩
    exact word_of_rank (word_rank he.leveled he.spelled) (Nat.zero_le _)

end Nya.Grammar
