import Nya.Parse.Parser

/-!
# The spelling of expressions

`Expr.tokens` flattens an expression to its tokens, from left to right. A tree keeps the tokens of
its names, of its operators and of the parenthesis that closes a call; the others are made up.

Not every tree is what its tokens are read as: `Expr.Leveled` says that each operand holds together
at least as tightly as its place in the tree demands. How tightly it does is its rank, from zero for
an assignment up to ten for what stands alone.

Which tokens a given list may have in place of `Expr.tokens` is said by `Expr.Spelled`: the lines do
not matter, and the name of a type is as good as its text.
-/

namespace Nya

variable {t t' : Token}

/-! ## Tokens -/

namespace Token

/-- The token without its line. -/
def unlined (t : Token) : Token := { t with line := 0 }

/--
What a token means: its kind, and the name if it is an identifier. The name of a type means the text
that it stands for.
-/
def meaning (t : Token) : Kind × String :=
  match t.kind with
  | .identifier => (.identifier, t.lexeme)
  | .symbol .typeNumber | .symbol .typeString | .symbol .typeBoolean => (.string t.lexeme, "")
  | kind => (kind, "")

theorem kind_of_unlined (h : t.unlined = t'.unlined) : t.kind = t'.kind :=
  congrArg (fun t => t.kind) h

theorem lexeme_of_unlined (h : t.unlined = t'.unlined) : t.lexeme = t'.lexeme :=
  congrArg (fun t => t.lexeme) h

theorem isSymbol_of_unlined (h : t.unlined = t'.unlined) (s : Symbol) :
    t.isSymbol s = t'.isSymbol s := by
  rw [isSymbol, isSymbol, kind_of_unlined h]

theorem isSymbol_iff {t : Token} {s : Symbol} : t.isSymbol s = true ↔ t.kind = .symbol s := by
  simp [isSymbol]

/-- Tokens that are the same but for their lines mean the same. -/
theorem meaning_of_unlined (h : t.unlined = t'.unlined) :
    t.meaning = t'.meaning := by
  rw [meaning, meaning, kind_of_unlined h, lexeme_of_unlined h]

/-- Two tokens that are the same symbol mean the same, unless it is the name of a type. -/
theorem meaning_of_isSymbol {s : Symbol} (h : t.isSymbol s = true) (h' : t'.isSymbol s = true)
    (hs : s ∉ [.typeNumber, .typeString, .typeBoolean]) :
    t.meaning = t'.meaning := by
  rw [isSymbol_iff] at h h'
  rw [meaning, meaning, h, h']
  cases s with
  | typeNumber | typeString | typeBoolean => simp at hs
  | _ => rfl

end Token

/-- A token of a symbol. -/
def Symbol.token (s : Symbol) : Token := ⟨.symbol s, s.spelling, 0⟩

theorem Symbol.isSymbol_token (s : Symbol) : s.token.isSymbol s = true := by
  simp [token, Token.isSymbol]

/-- A token of a literal. -/
def Literal.token : Literal → Token
  | .number value => ⟨.number value, Number.text value, 0⟩
  | .string text => ⟨.string text, "\"" ++ text ++ "\"", 0⟩
  | .boolean true => Symbol.yes.token
  | .boolean false => Symbol.no.token
  | .nil => Symbol.nil.token

theorem Literal.literal?_token (value : Literal) : Parse.literal? value.token = some value := by
  cases value with
  | boolean value => cases value <;> rfl
  | _ => rfl

/-- A literal means what the literal token that it was read from means. -/
theorem Literal.meaning_token {t : Token} {value : Literal} (h : Parse.literal? t = some value) :
    t.meaning = value.token.meaning := by
  obtain ⟨kind, lexeme, line⟩ := t
  unfold Parse.literal? at h
  split at h <;> cases h <;> simp_all [Token.meaning, token, Symbol.token]

/-! ## Flattening -/

mutual

/-- The tokens of an expression, from left to right. -/
def Expr.tokens : Expr → List Token
  | .literal _ value => [value.token]
  | .read target => [target.name]
  | .assign target value => target.name :: Symbol.equal.token :: value.tokens
  | .unary _ operator right => operator :: right.tokens
  | .binary _ left operator right | .logical _ left operator right =>
    left.tokens ++ operator :: right.tokens
  | .group _ inner => Symbol.leftParen.token :: (inner.tokens ++ [Symbol.rightParen.token])
  | .call _ callee arguments paren =>
    callee.tokens ++ Symbol.leftParen.token :: (Expr.tokensAll arguments ++ [paren])

/-- The tokens of the arguments of a call, with a comma between any two of them. -/
def Expr.tokensAll : List Expr → List Token
  | [] => []
  | e :: es => e.tokens ++ Expr.tokensAfter es

/-- The same of the arguments that follow another one. -/
def Expr.tokensAfter : List Expr → List Token
  | [] => []
  | e :: es => Symbol.comma.token :: (e.tokens ++ Expr.tokensAfter es)

end

/-! ## Ranks -/

/-- How tightly a symbol holds on to an expression before it, if it does. -/
def Symbol.rank? : Symbol → Option Nat
  | .equal => some 0
  | .or => some 1
  | .and => some 2
  | .bangEqual | .equalEqual => some 3
  | .greater | .greaterEqual | .less | .lessEqual => some 4
  | .percent => some 5
  | .minus | .plus => some 6
  | .slash | .star => some 7
  | .leftParen => some 9
  | _ => none

/-- The rank of the symbol that a token is. -/
def Token.rank? (t : Token) : Option Nat := t.symbol?.bind Symbol.rank?

theorem Token.rank?_of_unlined (h : t.unlined = t'.unlined) :
    t.rank? = t'.rank? := by
  rw [rank?, rank?, symbol?, symbol?, kind_of_unlined h]

theorem Token.rank?_of_isSymbol {t : Token} {s : Symbol} {r : Option Nat}
    (h : t.isSymbol s = true) (hr : s.rank? = r) : t.rank? = r := by
  rw [isSymbol_iff] at h
  rw [rank?, symbol?, h]
  exact hr

/-- How tightly an expression holds together. -/
def Expr.rank : Expr → Nat
  | .assign _ _ => 0
  | .logical _ _ operator _ | .binary _ _ operator _ => operator.rank?.getD 0
  | .unary _ _ _ => 8
  | .call _ _ _ _ => 9
  | .literal _ _ | .read _ | .group _ _ => 10

mutual

/--
Every operand holds together as tightly as it has to: on the left of a binary operator as tightly as
the operator, on its right more tightly. Operators stand where they may, names are identifiers, and
no call has too many arguments.
-/
def Expr.Leveled : Expr → Prop
  | .literal _ _ => True
  | .read target => target.name.kind = .identifier
  | .assign target value => target.name.kind = .identifier ∧ value.Leveled
  | .unary _ operator right =>
    (operator.isSymbol .bang = true ∨ operator.isSymbol .minus = true) ∧ right.Leveled ∧
      8 ≤ right.rank
  | .logical _ left operator right =>
    ∃ k, operator.rank? = some k ∧ (1 ≤ k ∧ k ≤ 2) ∧ left.Leveled ∧ k ≤ left.rank ∧
      right.Leveled ∧ k < right.rank
  | .binary _ left operator right =>
    ∃ k, operator.rank? = some k ∧ (3 ≤ k ∧ k ≤ 7) ∧ left.Leveled ∧ k ≤ left.rank ∧
      right.Leveled ∧ k < right.rank
  | .group _ inner => inner.Leveled
  | .call _ callee arguments paren =>
    callee.Leveled ∧ 9 ≤ callee.rank ∧ Expr.LeveledAll arguments ∧
      arguments.length ≤ Parse.maxArguments ∧ paren.isSymbol .rightParen = true

/-- The same of all arguments of a call. -/
def Expr.LeveledAll : List Expr → Prop
  | [] => True
  | e :: es => e.Leveled ∧ Expr.LeveledAll es

end

/-! ## Spelling -/

mutual

/-- The tokens spell the expression. -/
def Expr.Spelled : Expr → List Token → Prop
  | .literal _ value, ts => ∃ t, ts = [t] ∧ Parse.literal? t = some value
  | .read target, ts => ∃ t, ts = [t] ∧ t.unlined = target.name.unlined
  | .assign target value, ts => ∃ t equals us, ts = t :: equals :: us ∧
    t.unlined = target.name.unlined ∧ equals.isSymbol .equal = true ∧ value.Spelled us
  | .unary _ operator right, ts => ∃ t us, ts = t :: us ∧ t.unlined = operator.unlined ∧
    right.Spelled us
  | .binary _ left operator right, ts | .logical _ left operator right, ts =>
    ∃ us t vs, ts = us ++ t :: vs ∧ left.Spelled us ∧ t.unlined = operator.unlined ∧
      right.Spelled vs
  | .group _ inner, ts => ∃ start us stop, ts = start :: (us ++ [stop]) ∧
    start.isSymbol .leftParen = true ∧ inner.Spelled us ∧ stop.isSymbol .rightParen = true
  | .call _ callee arguments paren, ts => ∃ us start vs stop,
    ts = us ++ start :: (vs ++ [stop]) ∧ callee.Spelled us ∧ start.isSymbol .leftParen = true ∧
      Expr.SpelledAll arguments vs ∧ stop.unlined = paren.unlined

/-- The tokens spell the arguments of a call, with a comma between any two of them. -/
def Expr.SpelledAll : List Expr → List Token → Prop
  | [], ts => ts = []
  | e :: es, ts => ∃ us vs, ts = us ++ vs ∧ e.Spelled us ∧ Expr.SpelledAfter es vs

/-- The same of the arguments that follow another one. -/
def Expr.SpelledAfter : List Expr → List Token → Prop
  | [], ts => ts = []
  | e :: es, ts => ∃ comma us vs, ts = comma :: (us ++ vs) ∧ comma.isSymbol .comma = true ∧
    e.Spelled us ∧ Expr.SpelledAfter es vs

end

/-- The tokens spell a levelled expression that holds together at least as tightly as the rank. -/
structure Expr.SpelledAt (k : Nat) (e : Expr) (ts : List Token) : Prop where
  leveled : e.Leveled
  rank : k ≤ e.rank
  spelled : e.Spelled ts

namespace Expr.SpelledAt

variable {k : Nat} {ts us vs : List Token}

theorem mono {k' : Nat} {e : Expr} (h : e.SpelledAt k ts) (hk : k' ≤ k) : e.SpelledAt k' ts :=
  ⟨h.leveled, Nat.le_trans hk h.rank, h.spelled⟩

theorem literal (id : Nat) {t : Token} {value : Literal} (h : Parse.literal? t = some value) :
    (Expr.literal id value).SpelledAt 10 [t] :=
  ⟨trivial, Nat.le_refl 10, t, rfl, h⟩

theorem read {target : Reference} (h : target.name.kind = .identifier) :
    (Expr.read target).SpelledAt 10 [target.name] :=
  ⟨h, Nat.le_refl 10, target.name, rfl, rfl⟩

/-- A variable is assigned to under a number of its own. -/
theorem assign (id : Nat) {target : Reference} {value : Expr} {equals : Token}
    (htarget : (Expr.read target).SpelledAt k us) (hequals : equals.isSymbol .equal = true)
    (hvalue : value.SpelledAt 0 vs) :
    (Expr.assign { target with id } value).SpelledAt 0 (us ++ equals :: vs) := by
  obtain ⟨t, rfl, ht⟩ := htarget.spelled
  exact ⟨⟨htarget.leveled, hvalue.leveled⟩, Nat.zero_le _, t, equals, vs, rfl, ht, hequals,
    hvalue.spelled⟩

theorem unary (id : Nat) {operator : Token} {right : Expr}
    (h : operator.isSymbol .bang = true ∨ operator.isSymbol .minus = true)
    (hright : right.SpelledAt 8 vs) :
    (Expr.unary id operator right).SpelledAt 8 (operator :: vs) :=
  ⟨⟨h, hright.leveled, hright.rank⟩, Nat.le_refl 8, operator, vs, rfl, rfl, hright.spelled⟩

/-- Two operands are joined on the level of the operator between them. -/
theorem node {l : Parse.Level} (id : Nat) {left right : Expr} {operator : Token}
    (hk : 1 ≤ k ∧ k ≤ 7) (hl : l.isLogical = true ↔ k ≤ 2) (hleft : left.SpelledAt k us)
    (hoperator : operator.rank? = some k) (hright : right.SpelledAt (k + 1) vs) :
    (l.node id left operator right).SpelledAt k (us ++ operator :: vs) := by
  have hspelled : ∃ us' t vs', us ++ operator :: vs = us' ++ t :: vs' ∧ left.Spelled us' ∧
      t.unlined = operator.unlined ∧ right.Spelled vs' :=
    ⟨us, operator, vs, rfl, hleft.spelled, rfl, hright.spelled⟩
  unfold Parse.Level.node
  split
  · next hlogical =>
    refine ⟨⟨k, hoperator, ⟨hk.1, hl.mp hlogical⟩, hleft.leveled, hleft.rank, hright.leveled,
      hright.rank⟩, ?_, hspelled⟩
    simp [Expr.rank, hoperator]
  · next hlogical =>
    have h3 : 3 ≤ k := Nat.lt_of_not_le fun h => hlogical (hl.mpr h)
    refine ⟨⟨k, hoperator, ⟨h3, hk.2⟩, hleft.leveled, hleft.rank, hright.leveled,
      hright.rank⟩, ?_, hspelled⟩
    simp [Expr.rank, hoperator]

theorem group (id : Nat) {start stop : Token} {inner : Expr}
    (hstart : start.isSymbol .leftParen = true) (hinner : inner.SpelledAt 0 us)
    (hstop : stop.isSymbol .rightParen = true) :
    (Expr.group id inner).SpelledAt 10 (start :: (us ++ [stop])) :=
  ⟨hinner.leveled, Nat.le_refl 10, start, us, stop, rfl, hstart, hinner.spelled, hstop⟩

theorem call (id : Nat) {callee : Expr} {arguments : List Expr} {start paren : Token}
    (hcallee : callee.SpelledAt 9 us) (hstart : start.isSymbol .leftParen = true)
    (hleveled : Expr.LeveledAll arguments) (hspelled : Expr.SpelledAll arguments vs)
    (hlength : arguments.length ≤ Parse.maxArguments) (hparen : paren.isSymbol .rightParen = true) :
    (Expr.call id callee arguments paren).SpelledAt 9 (us ++ start :: (vs ++ [paren])) :=
  ⟨⟨hcallee.leveled, hcallee.rank, hleveled, hlength, hparen⟩, Nat.le_refl 9, us, start, vs, paren,
    rfl, hcallee.spelled, hstart, hspelled, rfl⟩

end Expr.SpelledAt

theorem isSymbol_of_unlined_token {t : Token} {s : Symbol} (h : t.unlined = s.token.unlined) :
    t.isSymbol s = true := by
  rw [Token.isSymbol_of_unlined h, Symbol.isSymbol_token]

mutual

/-- An expression is spelled by its tokens, whatever their lines. -/
theorem Expr.spelled_of_unlined : ∀ (e : Expr) {ts : List Token},
    ts.map Token.unlined = e.tokens.map Token.unlined → e.Spelled ts
  | .literal _ value, ts, h => by
    simp only [Expr.tokens, List.map_cons, List.map_nil, List.map_eq_singleton_iff] at h
    obtain ⟨t, rfl, ht⟩ := h
    refine ⟨t, rfl, ?_⟩
    rw [← value.literal?_token, Parse.literal?, Parse.literal?, Token.kind_of_unlined ht,
      Token.lexeme_of_unlined ht]
  | .read target, ts, h => by
    simp only [Expr.tokens, List.map_cons, List.map_nil, List.map_eq_singleton_iff] at h
    obtain ⟨t, rfl, ht⟩ := h
    exact ⟨t, rfl, ht⟩
  | .assign target value, ts, h => by
    simp only [Expr.tokens, List.map_cons, List.map_eq_cons_iff] at h
    obtain ⟨t, us, rfl, ht, equals, vs, rfl, hequals, hvs⟩ := h
    exact ⟨t, equals, vs, rfl, ht, isSymbol_of_unlined_token hequals,
      Expr.spelled_of_unlined value hvs⟩
  | .unary _ operator right, ts, h => by
    simp only [Expr.tokens, List.map_cons, List.map_eq_cons_iff] at h
    obtain ⟨t, us, rfl, ht, hus⟩ := h
    exact ⟨t, us, rfl, ht, Expr.spelled_of_unlined right hus⟩
  | .binary _ left operator right, ts, h | .logical _ left operator right, ts, h => by
    simp only [Expr.tokens, List.map_append, List.map_cons, List.map_eq_append_iff,
      List.map_eq_cons_iff] at h
    obtain ⟨us, vs', rfl, hus, t, vs, rfl, ht, hvs⟩ := h
    exact ⟨us, t, vs, rfl, Expr.spelled_of_unlined left hus, ht, Expr.spelled_of_unlined right hvs⟩
  | .group _ inner, ts, h => by
    simp only [Expr.tokens, List.map_append, List.map_cons, List.map_nil, List.map_eq_append_iff,
      List.map_eq_cons_iff, List.map_eq_nil_iff] at h
    obtain ⟨start, ts', rfl, hstart, us, vs, rfl, hus, stop, _, rfl, hstop, rfl⟩ := h
    exact ⟨start, us, stop, rfl, isSymbol_of_unlined_token hstart,
      Expr.spelled_of_unlined inner hus, isSymbol_of_unlined_token hstop⟩
  | .call _ callee arguments paren, ts, h => by
    simp only [Expr.tokens, List.map_append, List.map_cons, List.map_nil, List.map_eq_append_iff,
      List.map_eq_cons_iff, List.map_eq_nil_iff] at h
    obtain ⟨us, ts', rfl, hus, start, ts'', rfl, hstart, vs, ts₃, rfl, hvs, stop, _, rfl, hstop,
      rfl⟩ := h
    exact ⟨us, start, vs, stop, rfl, Expr.spelled_of_unlined callee hus,
      isSymbol_of_unlined_token hstart, Expr.spelledAll_of_unlined arguments hvs, hstop⟩

theorem Expr.spelledAll_of_unlined : ∀ (es : List Expr) {ts : List Token},
    ts.map Token.unlined = (Expr.tokensAll es).map Token.unlined → Expr.SpelledAll es ts
  | [], ts, h => List.map_eq_nil_iff.mp h
  | e :: es, ts, h => by
    simp only [Expr.tokensAll, List.map_append, List.map_eq_append_iff] at h
    obtain ⟨us, vs, rfl, hus, hvs⟩ := h
    exact ⟨us, vs, rfl, Expr.spelled_of_unlined e hus, Expr.spelledAfter_of_unlined es hvs⟩

theorem Expr.spelledAfter_of_unlined : ∀ (es : List Expr) {ts : List Token},
    ts.map Token.unlined = (Expr.tokensAfter es).map Token.unlined → Expr.SpelledAfter es ts
  | [], ts, h => List.map_eq_nil_iff.mp h
  | e :: es, ts, h => by
    simp only [Expr.tokensAfter, List.map_cons, List.map_append, List.map_eq_cons_iff,
      List.map_eq_append_iff] at h
    obtain ⟨comma, ts', rfl, hcomma, us, vs, rfl, hus, hvs⟩ := h
    exact ⟨comma, us, vs, rfl, isSymbol_of_unlined_token hcomma, Expr.spelled_of_unlined e hus,
      Expr.spelledAfter_of_unlined es hvs⟩

end

/-! ## What the tokens mean -/

theorem meaning_of_symbol {t : Token} {s : Symbol} (h : t.isSymbol s = true)
    (hs : s ∉ [.typeNumber, .typeString, .typeBoolean]) : t.meaning = s.token.meaning :=
  Token.meaning_of_isSymbol h s.isSymbol_token hs

mutual

/-- Tokens that spell an expression mean the same as its tokens. -/
theorem Expr.Spelled.meaning : ∀ {e : Expr} {ts : List Token}, e.Spelled ts →
    ts.map Token.meaning = e.tokens.map Token.meaning
  | .literal _ value, _, ⟨t, rfl, ht⟩ => by
    simp only [Expr.tokens, List.map_cons, List.map_nil, Literal.meaning_token ht]
  | .read target, _, ⟨t, rfl, ht⟩ => by
    simp only [Expr.tokens, List.map_cons, List.map_nil, Token.meaning_of_unlined ht]
  | .assign target value, _, ⟨t, equals, us, rfl, ht, hequals, hus⟩ => by
    simp only [Expr.tokens, List.map_cons, Token.meaning_of_unlined ht,
      meaning_of_symbol hequals (by decide), Expr.Spelled.meaning hus]
  | .unary _ operator right, _, ⟨t, us, rfl, ht, hus⟩ => by
    simp only [Expr.tokens, List.map_cons, Token.meaning_of_unlined ht, Expr.Spelled.meaning hus]
  | .binary _ left operator right, _, ⟨us, t, vs, rfl, hus, ht, hvs⟩
  | .logical _ left operator right, _, ⟨us, t, vs, rfl, hus, ht, hvs⟩ => by
    simp only [Expr.tokens, List.map_append, List.map_cons, Token.meaning_of_unlined ht,
      Expr.Spelled.meaning hus, Expr.Spelled.meaning hvs]
  | .group _ inner, _, ⟨start, us, stop, rfl, hstart, hus, hstop⟩ => by
    simp only [Expr.tokens, List.map_append, List.map_cons, List.map_nil, Expr.Spelled.meaning hus,
      meaning_of_symbol hstart (by decide), meaning_of_symbol hstop (by decide)]
  | .call _ callee arguments paren, _, ⟨us, start, vs, stop, rfl, hus, hstart, hvs, hstop⟩ => by
    simp only [Expr.tokens, List.map_append, List.map_cons, List.map_nil, Expr.Spelled.meaning hus,
      meaning_of_symbol hstart (by decide), Expr.SpelledAll.meaning hvs,
      Token.meaning_of_unlined hstop]

theorem Expr.SpelledAll.meaning : ∀ {es : List Expr} {ts : List Token}, Expr.SpelledAll es ts →
    ts.map Token.meaning = (Expr.tokensAll es).map Token.meaning
  | [], _, rfl => rfl
  | e :: es, _, ⟨us, vs, rfl, hus, hvs⟩ => by
    simp only [Expr.tokensAll, List.map_append, Expr.Spelled.meaning hus,
      Expr.SpelledAfter.meaning hvs]

theorem Expr.SpelledAfter.meaning : ∀ {es : List Expr} {ts : List Token},
    Expr.SpelledAfter es ts → ts.map Token.meaning = (Expr.tokensAfter es).map Token.meaning
  | [], _, rfl => rfl
  | e :: es, _, ⟨comma, us, vs, rfl, hcomma, hus, hvs⟩ => by
    simp only [Expr.tokensAfter, List.map_append, List.map_cons,
      meaning_of_symbol hcomma (by decide), Expr.Spelled.meaning hus,
      Expr.SpelledAfter.meaning hvs]

end

/-! ## Trees without numbers and lines -/

/-- The reference without its number, its depth and the line of its name. -/
def Reference.plain (r : Reference) : Reference := ⟨0, r.name.unlined, none⟩

mutual

/-- The expression without numbers, depths and lines. -/
def Expr.plain : Expr → Expr
  | .literal _ value => .literal 0 value
  | .read target => .read target.plain
  | .assign target value => .assign target.plain value.plain
  | .unary _ operator right => .unary 0 operator.unlined right.plain
  | .binary _ left operator right => .binary 0 left.plain operator.unlined right.plain
  | .logical _ left operator right => .logical 0 left.plain operator.unlined right.plain
  | .group _ inner => .group 0 inner.plain
  | .call _ callee arguments paren =>
    .call 0 callee.plain (Expr.plainAll arguments) paren.unlined

/-- The same of a list of expressions. -/
def Expr.plainAll : List Expr → List Expr
  | [] => []
  | e :: es => e.plain :: Expr.plainAll es

end

end Nya
