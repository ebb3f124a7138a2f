import Nya.Proofs.Parse.Acceptance
import Nya.Proofs.Tree.Rebuild

/-!
# Printed programs

The tokens of a text have lexemes of their kinds, and the tree of a text without an error has no
other tokens than these. So its tokens and literals are such as stand in texts
(`Stmt.Spelled.textual`), and what is printed of two programs is the same only if their outlines
are: `printed_programs_eq_iff`.
-/

namespace Nya

/-! ## Tokens of texts -/

theorem Token.Legible.lexical {t : Token} (h : t.Legible) : t.Lexical := by
  obtain ⟨c, cs, htext, -⟩ := h.exists_cons
  have hsegments := h 0
  rw [htext, segments] at hsegments
  obtain ⟨hhead, -⟩ := List.cons.inj hsegments
  obtain ⟨hpiece, hcut, -⟩ := Segment.mk.inj hhead
  have hfound := Scan.found_recognise c cs
  rw [hpiece] at hfound
  rw [Token.Lexical, htext, ← hcut]
  exact hfound.lexeme

theorem lexical_of_mem_sourceTokens {source : String} {t : Token} (h : t ∈ sourceTokens source) :
    t.Lexical :=
  (legible_of_mem_sourceTokens h).lexical

namespace Token

variable {t t' : Token}

theorem Lexical.of_unlined (h : t.Lexical) (hsame : t.unlined = t'.unlined) : t'.Lexical := by
  rw [Lexical, ← kind_of_unlined hsame, ← lexeme_of_unlined hsame]
  exact h

theorem Lexical.names (h : t.Lexical) (hsame : t.unlined = t'.unlined)
    (hkind : t'.kind = .identifier) : t'.Names :=
  ⟨h.of_unlined hsame, hkind⟩

theorem Lexical.spells {s : Symbol} {symbols : List Symbol} (h : t.Lexical)
    (hsame : t.unlined = t'.unlined) (hsymbol : t'.isSymbol s = true) (hs : s ∈ symbols) :
    t'.Spells symbols :=
  ⟨h.of_unlined hsame, s, hs, isSymbol_iff.mp hsymbol⟩

/-- A token with a rank is a symbol with it. -/
theorem exists_symbol_of_rank {k : Nat} (h : t.rank? = some k) :
    ∃ s : Symbol, t.isSymbol s = true ∧ s.rank? = some k := by
  obtain ⟨s, hs, hrank⟩ := Option.bind_eq_some_iff.mp h
  refine ⟨s, ?_, hrank⟩
  unfold symbol? at hs
  split at hs
  · next hkind =>
    cases hs
    exact isSymbol_iff.mpr hkind
  · cases hs

end Token

/-- Which symbols have which rank. -/
theorem Symbol.rank_cases {s : Symbol} {k : Nat} (h : s.rank? = some k) :
    k = 0 ∨ (k ≤ 2 ∧ s ∈ [.and, .or]) ∨ (3 ≤ k ∧ s ∈ Symbol.binary) ∨ k = 9 := by
  cases s <;> cases h <;> decide

namespace Token

variable {t t' : Token} {k : Nat}

theorem Lexical.spells_logical (h : t.Lexical) (hsame : t.unlined = t'.unlined)
    (hrank : t'.rank? = some k) (hk : 1 ≤ k ∧ k ≤ 2) : t'.Spells [.and, .or] := by
  obtain ⟨s, hsymbol, hs⟩ := exists_symbol_of_rank hrank
  rcases Symbol.rank_cases hs with hzero | ⟨-, hmem⟩ | ⟨hle, -⟩ | hcall
  · omega
  · exact h.spells hsame hsymbol hmem
  · omega
  · omega

theorem Lexical.spells_binary (h : t.Lexical) (hsame : t.unlined = t'.unlined)
    (hrank : t'.rank? = some k) (hk : 3 ≤ k ∧ k ≤ 7) : t'.Spells Symbol.binary := by
  obtain ⟨s, hsymbol, hs⟩ := exists_symbol_of_rank hrank
  rcases Symbol.rank_cases hs with hzero | ⟨hle, -⟩ | ⟨-, hmem⟩ | hcall
  · omega
  · omega
  · exact h.spells hsame hsymbol hmem
  · omega

end Token

/-! ## Trees of texts -/

/-- A literal that was read from a token of a text may stand in one. -/
theorem Token.Lexical.textual_literal {t : Token} {value : Literal} (h : t.Lexical)
    (hvalue : Parse.literal? t = some value) : value.Textual := by
  unfold Token.Lexical at h
  unfold Parse.literal? at hvalue
  split at hvalue <;> cases hvalue
  case h_1 hkind =>
    rw [hkind] at h
    obtain ⟨whole, part, -, -, -, rfl⟩ := h
    exact Number.shape_ofScientific _ _
  case h_2 hkind =>
    rw [hkind] at h
    exact h.2
  case h_3 | h_4 | h_5 => trivial
  -- The name of a type stands for the text that it is.
  case h_6 hkind | h_7 hkind | h_8 hkind =>
    rw [hkind] at h
    rw [Literal.Textual, h]
    decide

mutual

/-- The tokens and literals of an expression are those of the tokens that spell it. -/
theorem Expr.Spelled.textual : ∀ {e : Expr} {ts : List Token}, e.Leveled → e.Spelled ts →
    (∀ t ∈ ts, t.Lexical) → e.Textual
  | .literal _ _, _, _, ⟨t, rfl, hvalue⟩, h =>
    (h t List.mem_cons_self).textual_literal hvalue
  | .read _, _, hname, ⟨t, rfl, ht⟩, h => (h t List.mem_cons_self).names ht hname
  | .assign _ _, _, ⟨hname, hleveled⟩, ⟨t, _, us, rfl, ht, _, hvalue⟩, h => by
    simp only [List.forall_mem_cons] at h
    exact ⟨h.1.names ht hname, Expr.Spelled.textual hleveled hvalue h.2.2⟩
  | .unary _ operator _, _, ⟨hoperator, hleveled, _⟩, ⟨t, us, rfl, ht, hright⟩, h => by
    obtain ⟨hlexical, hus⟩ := List.forall_mem_cons.mp h
    refine ⟨?_, Expr.Spelled.textual hleveled hright hus⟩
    rcases hoperator with hsymbol | hsymbol
    · exact hlexical.spells ht hsymbol (by decide)
    · exact hlexical.spells ht hsymbol (by decide)
  | .logical _ _ _ _, _, ⟨k, hrank, hk, hleft, _, hright, _⟩, ⟨us, t, vs, rfl, husl, ht, hvsr⟩,
      h => by
    simp only [List.forall_mem_append, List.forall_mem_cons] at h
    exact ⟨Expr.Spelled.textual hleft husl h.1, h.2.1.spells_logical ht hrank hk,
      Expr.Spelled.textual hright hvsr h.2.2⟩
  | .binary _ _ _ _, _, ⟨k, hrank, hk, hleft, _, hright, _⟩, ⟨us, t, vs, rfl, husl, ht, hvsr⟩,
      h => by
    simp only [List.forall_mem_append, List.forall_mem_cons] at h
    exact ⟨Expr.Spelled.textual hleft husl h.1, h.2.1.spells_binary ht hrank hk,
      Expr.Spelled.textual hright hvsr h.2.2⟩
  | .group _ inner, _, hleveled, ⟨_, us, _, rfl, _, hinner, _⟩, h => by
    simp only [List.forall_mem_append, List.forall_mem_cons] at h
    show inner.Textual
    exact Expr.Spelled.textual hleveled hinner h.2.1
  | .call _ _ _ _, _, ⟨hcallee, _, harguments, _, hparen⟩,
      ⟨us, _, vs, stop, rfl, hus, _, hvs, hstop⟩, h => by
    simp only [List.forall_mem_append, List.forall_mem_cons] at h
    exact ⟨Expr.Spelled.textual hcallee hus h.1,
      Expr.SpelledAll.textual harguments hvs h.2.2.1,
      h.2.2.2.1.spells hstop hparen List.mem_cons_self⟩

theorem Expr.SpelledAll.textual : ∀ {es : List Expr} {ts : List Token}, Expr.LeveledAll es →
    Expr.SpelledAll es ts → (∀ t ∈ ts, t.Lexical) → Expr.TextualAll es
  | [], _, _, _, _ => trivial
  | _ :: _, _, ⟨hfirst, hothers⟩, ⟨us, vs, rfl, hus, hvs⟩, h => by
    obtain ⟨hleft, hright⟩ := List.forall_mem_append.mp h
    exact ⟨Expr.Spelled.textual hfirst hus hleft, Expr.SpelledAfter.textual hothers hvs hright⟩

theorem Expr.SpelledAfter.textual : ∀ {es : List Expr} {ts : List Token}, Expr.LeveledAll es →
    Expr.SpelledAfter es ts → (∀ t ∈ ts, t.Lexical) → Expr.TextualAll es
  | [], _, _, _, _ => trivial
  | _ :: _, _, ⟨hfirst, hothers⟩, ⟨_, us, vs, rfl, _, hus, hvs⟩, h => by
    simp only [List.forall_mem_append, List.forall_mem_cons] at h
    exact ⟨Expr.Spelled.textual hfirst hus h.2.1, Expr.SpelledAfter.textual hothers hvs h.2.2⟩

end

namespace Expr

variable {ts : List Token}

theorem SpelledAt.textual {k : Nat} {e : Expr} (h : e.SpelledAt k ts)
    (hts : ∀ t ∈ ts, t.Lexical) : e.Textual :=
  Spelled.textual h.leveled h.spelled hts

theorem SpelledOption.textual : ∀ {e : Option Expr}, SpelledOption e ts →
    (∀ t ∈ ts, t.Lexical) → TextualOption e
  | none, _, _ => trivial
  | some _, h, hts => SpelledAt.textual h hts

theorem SpelledLine.textual {e : Expr} (h : e.SpelledLine ts) (hts : ∀ t ∈ ts, t.Lexical) :
    e.Textual := by
  obtain ⟨us, stop, rfl, he, -⟩ := h
  exact he.textual (List.forall_mem_append.mp hts).1

theorem SpelledValue.textual : ∀ {e : Option Expr}, SpelledValue e ts →
    (∀ t ∈ ts, t.Lexical) → TextualOption e
  | none, _, _ => trivial
  | some _, ⟨_, _, hcons, _, he⟩, hts => by
    subst hcons
    exact SpelledAt.textual he (List.forall_mem_cons.mp hts).2

/-- A condition that is missing is one that holds. -/
theorem textual_getD (id : Nat) : ∀ {condition : Option Expr}, TextualOption condition →
    (condition.getD (.literal id (.boolean true))).Textual
  | none, _ => trivial
  | some _, h => h

end Expr

theorem NamesAfter.names : ∀ {names ts : List Token}, NamesAfter names ts →
    (∀ t ∈ ts, t.Lexical) → ∀ name ∈ names, name.Names
  | [], _, _, _ => by simp
  | _ :: _, _, ⟨_, us, rfl, _, hkind, hus⟩, h => by
    simp only [List.forall_mem_cons] at h ⊢
    exact ⟨⟨h.2.1, hkind⟩, hus.names h.2.2⟩

theorem Names.names : ∀ {names ts : List Token}, Names names ts →
    (∀ t ∈ ts, t.Lexical) → ∀ name ∈ names, name.Names
  | [], _, _, _ => by simp
  | _ :: _, _, ⟨us, rfl, hkind, hus⟩, h => by
    simp only [List.forall_mem_cons] at h ⊢
    exact ⟨⟨h.1, hkind⟩, hus.names h.2⟩

namespace Stmt

variable {ts : List Token}

theorem SpelledVar.textual {name : Token} {init : Option Expr} (h : SpelledVar name init ts)
    (hts : ∀ t ∈ ts, t.Lexical) : (Stmt.var name init).Textual := by
  obtain ⟨start, us, stop, rfl, -, hkind, hvalue, -⟩ := h
  simp only [List.forall_mem_append, List.forall_mem_cons] at hts
  exact ⟨⟨hts.2.1, hkind⟩, hvalue.textual hts.2.2.1⟩

theorem SpelledClause.textual : ∀ {init : Option Stmt}, SpelledClause init ts →
    (∀ t ∈ ts, t.Lexical) → ∀ s ∈ init, s.Textual
  | none, _, _ => by simp
  | some (.var _ _), h, hts => by
    rintro _ ⟨⟩
    exact SpelledVar.textual h hts
  | some (.expression _), h, hts => by
    rintro _ ⟨⟩
    exact Expr.SpelledLine.textual h hts

theorem textual_withIncrement {body : Stmt} (hbody : body.Textual) :
    ∀ {increment : Option Expr}, Expr.TextualOption increment →
      (Parse.withIncrement body increment).Textual
  | none, _ => hbody
  | some _, h => ⟨hbody, h, trivial⟩

theorem textual_withInitializer {loop : Stmt} (hloop : loop.Textual) :
    ∀ {init : Option Stmt}, (∀ s ∈ init, s.Textual) → (Parse.withInitializer loop init).Textual
  | none, _ => hloop
  | some s, h => ⟨h s rfl, hloop, trivial⟩

mutual

/-- The tokens and literals of a statement are those of the tokens that spell it. -/
theorem Spelled.textual : ∀ {s : Stmt} {ts : List Token}, s.Spelled ts →
    (∀ t ∈ ts, t.Lexical) → s.Textual
  | _, _, .expression line, h => line.textual h
  | _, _, .print _ line, h => line.textual (List.forall_mem_cons.mp h).2
  | _, _, .var hvar, h => hvar.textual h
  | _, _, .block _ hbody _, h => by
    simp only [List.forall_mem_append, List.forall_mem_cons] at h
    exact SpelledAll.textual hbody h.2.1
  | _, _, .branch _ _ hcondition _ hthen _, h => by
    simp only [List.forall_mem_append, List.forall_mem_cons] at h
    exact ⟨hcondition.textual h.2.2.1, Spelled.textual hthen h.2.2.2.2⟩
  | _, _, .branchElse _ _ hcondition _ hthen _ _ helse _, h => by
    simp only [List.forall_mem_append, List.forall_mem_cons] at h
    obtain ⟨-, -, hus, -, hvs, -, hws⟩ := h
    exact ⟨hcondition.textual hus, Spelled.textual hthen hvs, Spelled.textual helse hws⟩
  | _, _, .loop _ _ hcondition _ hbody _, h => by
    simp only [List.forall_mem_append, List.forall_mem_cons] at h
    exact ⟨hcondition.textual h.2.2.1, Spelled.textual hbody h.2.2.2.2⟩
  | _, _, .forLoop _ _ hinit hcondition _ hincrement _ hbody _, h => by
    simp only [List.forall_mem_append, List.forall_mem_cons] at h
    obtain ⟨-, -, hus, hvs, -, hws, -, hxs⟩ := h
    have hbody := textual_withIncrement (Spelled.textual hbody hxs) (hincrement.textual hws)
    exact @textual_withInitializer (.loop _ _)
      ⟨Expr.textual_getD _ (hcondition.textual hvs), hbody⟩ _ (hinit.textual hus)
  | _, _, .function _ hname _ hparams _ _ _ hbody _, h => by
    simp only [List.forall_mem_append, List.forall_mem_cons] at h
    obtain ⟨-, hlexical, -, hus, -, -, hvs, -⟩ := h
    exact ⟨⟨hlexical, hname⟩, hparams.names hus, SpelledAll.textual hbody hvs⟩
  | _, _, .ret hstart hvalue _, h => by
    simp only [List.forall_mem_append, List.forall_mem_cons] at h
    exact ⟨h.1.spells rfl hstart List.mem_cons_self, hvalue.textual h.2.1⟩

theorem SpelledAll.textual : ∀ {ss : List Stmt} {ts : List Token}, SpelledAll ss ts →
    (∀ t ∈ ts, t.Lexical) → TextualAll ss
  | _, _, .nil, _ => trivial
  | _, _, .cons first others, h => by
    obtain ⟨hus, hvs⟩ := List.forall_mem_append.mp h
    exact ⟨Spelled.textual first hus, SpelledAll.textual others hvs⟩

end

end Stmt

/-! ## Programs -/

theorem Stmt.map_printed_eq_iff : ∀ {ss ss' : List Stmt}, Stmt.TextualAll ss →
    Stmt.TextualAll ss' →
    (ss.map Stmt.printed = ss'.map Stmt.printed ↔ ss.map Stmt.outline = ss'.map Stmt.outline)
  | [], [], _, _ | [], _ :: _, _, _ | _ :: _, [], _, _ => by simp
  | s :: ss, s' :: ss', h, h' => by
    simp only [List.map_cons, List.cons.injEq]
    rw [Stmt.printed_eq_iff h.1 h'.1, Stmt.map_printed_eq_iff h.2 h'.2]

namespace Parse

/-- The tree of a text without an error has tokens and literals of texts. -/
theorem exists_textual_of_errors_nil {source : String} {nodes functions : Nat}
    (h : (parse (scannedTokens (scan source)) nodes functions).errors = []) :
    ∃ program : List Stmt,
      (parse (scannedTokens (scan source)) nodes functions).statements = program.map some ∧
        Stmt.TextualAll program := by
  obtain ⟨slots, s, hread, hrest⟩ := declarations_fuelFor (sourceTokens source) nodes functions []
  have hreads := declarations_reads (fuelFor (sourceTokens source))
    ⟨sourceTokens source, nodes, functions, []⟩
  rw [hread] at hreads
  rw [parse, splitAtEnd_scan] at h ⊢
  simp only [hread, List.map_eq_nil_iff] at h ⊢
  obtain ⟨ts, hts, program, hslots, hprogram⟩ := hreads.2 (by rw [h])
  obtain rfl : sourceTokens source = ts := by rwa [hrest, List.append_nil] at hts
  exact ⟨program, hslots, hprogram.textual fun t => lexical_of_mem_sourceTokens⟩

/--
**Printed programs are unambiguous.** Two texts that are parsed without an error have all their
declarations, and what is printed of these is the same if and only if their outlines are. Numbers
of nodes and lines of tokens are not in an outline, and a number that is too large is the variable
`inf` there. All else is: brackets, spaces and the like in a string do not make it look like
anything else.
-/
theorem printed_programs_eq_iff {source source' : String} {nodes functions nodes' functions' : Nat}
    (h : (parse (scannedTokens (scan source)) nodes functions).errors = [])
    (h' : (parse (scannedTokens (scan source')) nodes' functions').errors = []) :
    ∃ program program' : List Stmt,
      (parse (scannedTokens (scan source)) nodes functions).statements = program.map some ∧
      (parse (scannedTokens (scan source')) nodes' functions').statements = program'.map some ∧
      (program.map Stmt.printed = program'.map Stmt.printed ↔
        program.map Stmt.outline = program'.map Stmt.outline) := by
  obtain ⟨program, hprogram, htextual⟩ := exists_textual_of_errors_nil h
  obtain ⟨program', hprogram', htextual'⟩ := exists_textual_of_errors_nil h'
  exact ⟨program, program', hprogram, hprogram', Stmt.map_printed_eq_iff htextual htextual'⟩

/-- A string with a bracket and a space in it, and two strings. -/
theorem printed_programs_of_brackets :
    ∃ program program' : List Stmt,
      (parse (scannedTokens (scan "f(\"a) (b\");")) 0 0).statements = program.map some ∧
      (parse (scannedTokens (scan "f(\"a)\", \"(b\");")) 0 0).statements = program'.map some ∧
      (program.map Stmt.printed = program'.map Stmt.printed ↔
        program.map Stmt.outline = program'.map Stmt.outline) :=
  printed_programs_eq_iff (by decide +kernel) (by decide +kernel)

end Parse

end Nya
