import Nya.Proofs.Parse.Gaps

/-!
# One missing semicolon

If one semicolon is left out of a program without a fault, a fault is found at the token behind it
and the declaration is dropped, with all tokens up to where a statement ends or starts. What follows
may have more faults for this. `missing_semicolon` says when it has none: if what is left after the
tokens that were dropped is a program again.

So a mistake is not always reported once. It is where a simple declaration follows, or nothing; but
at the end of a block the symbol that ends it is dropped, too, and the block is without an end.
-/

namespace Nya.Parse

open Grammar

variable {α : Type} {ts us w before b d q rest x : List Token} {e : End} {loop : Nat → Parser α}

/-! ## Programs without a fault -/

/-- What is read without a fault is a declaration. -/
theorem word_of_reaches (h : Reaches declaration ts rest) :
    ∃ w, ts = w ++ rest ∧ Word .declaration w := by
  obtain ⟨v, nodes, functions, least, hread⟩ := h.yields 0 0 []
  have hreads := declaration_reads least ⟨ts, 0, 0, []⟩
  rw [hread least (Nat.le_refl least)] at hreads
  obtain ⟨w, hw, hspelled⟩ := hreads.2 rfl
  exact ⟨w, hw, (word_of_spelled hspelled).1⟩

/-- The programs without a fault are the words of the grammar. -/
theorem reaches_iff_derives :
    Reaches declarations w [] ↔ Derives (.many (.nonterminal .declaration)) w := by
  constructor
  · intro h
    obtain ⟨v, nodes, functions, least, hread⟩ := h.yields 0 0 []
    have hreads := declarations_reads least ⟨w, 0, 0, []⟩
    rw [hread least (Nat.le_refl least)] at hreads
    obtain ⟨ts, hts, program, -, hprogram⟩ := hreads.2 rfl
    rw [List.append_nil] at hts
    obtain ⟨words, hwords, hall⟩ := words_of_spelledAll hprogram
    have hderives : Derives (.many (.nonterminal .declaration)) words.flatten := .many hall
    rwa [← hwords, ← hts] at hderives
  · intro h
    obtain ⟨words, rfl, hall⟩ : ∃ words : List (List Token), w = words.flatten ∧
        ∀ u ∈ words, Word .declaration u := by
      cases h with
      | many h => exact ⟨_, rfl, h⟩
    exact reaches_of_yields (reaches_declarations fun u hu => accepted_of_word (hall u hu))

/-! ## At a place -/

/-- Where a conditional would have to go on, a loop finds a fault. -/
theorem Loops.attached (hloop : Loops loop) (htotal : ∀ ts, ∃ e, Ends loop ts e)
    (h : ¬Unattached ts) : ∃ (e : End) (f : Fault) (earlier : List Fault),
      Ends loop ts (e.after (f :: earlier)) := by
  cases ts with
  | nil => exact absurd unattached_nil h
  | cons t us =>
    have ht : t.isSymbol .ifElse = true := by simpa [Unattached] using h
    obtain ⟨first, hfirst⟩ := declaration_total (t :: us)
    obtain ⟨e, he⟩ := htotal first.resume
    have hall := hloop (starts_of_isSymbol ht (by decide)) hfirst he
    cases first with
    | fault f rest added =>
      cases added with
      | nil => exact ⟨e, f, [], hall⟩
      | cons g added => exact ⟨e, g, added ++ [f], hall⟩
    | ok rest added =>
      -- No declaration starts with the symbol.
      obtain ⟨o, hend, least, ho⟩ := hfirst 0 0 []
      have hrefused := declaration_refused (s := ⟨t :: us, 0, 0, []⟩)
        ⟨t, us, rfl, Token.isSymbol_iff.mp ht⟩ least
      rw [ho least (Nat.le_refl least)] at hrefused
      cases o with
      | ok v s => exact hrefused.elim
      | fault f s => exact hend.elim
      | exhausted => exact hend.elim

namespace Surrounds

/-- Faults at a place are faults of the program, and the other faults are those without them. -/
theorem faults (h : Surrounds before loop) {earlier : List Fault} (hts : Unattached ts)
    (hend : Ends loop ts (e.after earlier)) :
    ∃ added, Ends declarations (before ++ ts) (.ok [] (earlier ++ added)) ∧
      ∀ us, Unattached us → Ends loop us e → Ends declarations (before ++ us) (.ok [] added) := by
  obtain ⟨e', he⟩ := h.carries e
  have hall := he earlier ts hts hend
  obtain ⟨added, -, -, hadded, -⟩ := exists_of_ends_declarations hall 0 0
  cases e' with
  | fault => cases hadded
  | ok rest added' =>
    cases hadded
    refine ⟨added', hall, fun us hus hend' => ?_⟩
    have hother := he [] us hus (by rwa [End.after_nil])
    rwa [End.after_nil] at hother

/-- In a program without a fault there is none at the place. -/
theorem eq_nil_of_reaches (h : Surrounds before loop) {earlier : List Fault}
    (hclean : Reaches declarations (before ++ ts) []) (hts : Unattached ts)
    (hend : Ends loop ts (e.after earlier)) : earlier = [] := by
  obtain ⟨added, hall, -⟩ := h.faults hts hend
  have heq := hall.unique hclean
  cases heq' : earlier with
  | nil => rfl
  | cons f earlier' => simp [heq'] at heq

theorem following (h : Surrounds before loop) (hclean : Reaches declarations (before ++ q) []) :
    Following q := by
  cases q with
  | nil => exact Or.inl rfl
  | cons t us =>
    by_cases helse : t.isSymbol .ifElse = true
    · exact Or.inr (Or.inl ⟨t, us, rfl, Or.inl helse⟩)
    by_cases hend : t.isSymbol .blockEnd = true
    · exact Or.inr (Or.inl ⟨t, us, rfl, Or.inr hend⟩)
    have hstarts : Starts [.ifElse, .blockEnd] (t :: us) := ⟨t, us, rfl, by simp [helse, hend]⟩
    obtain ⟨first, hfirst⟩ := declaration_total (t :: us)
    obtain ⟨e, he⟩ := h.total first.resume
    have hall := h.loops (hstarts.mono (by simp)) hfirst he
    have hnil := h.eq_nil_of_reaches hclean (hstarts.unattached (by simp)) hall
    cases first with
    | fault f rest added => simp [End.recorded] at hnil
    | ok rest added =>
      obtain rfl : added = [] := hnil
      obtain ⟨w, hw, hword⟩ := word_of_reaches hfirst
      exact Or.inr (Or.inr ⟨w, rest, hw, hword⟩)

/-- A declaration that is dropped leaves one fault, and those of what is read after it. -/
theorem dropped (h : Surrounds before loop) {f : Fault} (hb : Starts [.ifElse, .blockEnd] b)
    (hfault : Ends declaration (b ++ q) (.fault f q [])) :
    ∃ added, Ends declarations (before ++ (b ++ q)) (.ok [] (f :: added)) ∧
      (added = [] ↔ Unattached (recover q) ∧ Reaches declarations (before ++ recover q) []) := by
  have hstarts := hb.append q
  have hunattached : Unattached (b ++ q) := hstarts.unattached (by simp)
  by_cases hq : Unattached (recover q)
  · obtain ⟨e, he⟩ := h.total (recover q)
    obtain ⟨added, hall, hother⟩ :=
      h.faults hunattached (h.loops (hstarts.mono (by simp)) hfault he)
    have hrecover := hother _ hq he
    refine ⟨added, hall, fun hnil => ⟨hq, by rwa [hnil] at hrecover⟩, fun hclean => ?_⟩
    cases hrecover.unique hclean.2
    rfl
  · obtain ⟨e, g, earlier, he⟩ := Loops.attached h.loops h.total hq
    have hloop := h.loops (hstarts.mono (by simp)) hfault he
    rw [End.after_after] at hloop
    obtain ⟨added, hall, -⟩ := h.faults hunattached hloop
    exact ⟨g :: earlier ++ added, hall, fun hnil => absurd hnil (List.cons_ne_nil _ _),
      fun hclean => absurd hclean.1 hq⟩

/-- A whole declaration is passed over. -/
theorem skip (h : Surrounds before loop) (hw : Word .declaration w) (hts : Unattached ts)
    (hend : Ends loop ts e) : Ends loop (w ++ ts) e := by
  obtain ⟨hstarts, m, hled⟩ := accepted_of_word hw
  have hread : Reaches declaration (w ++ ts) ts := hled ts _ (tails_self (unattached_iff.mp hts) m)
  have hall := h.loops ((hstarts.append ts).mono (by simp)) hread hend
  rwa [End.recorded, End.after_nil] at hall

/-- What ends in the same way at the place of a program without a fault makes another one. -/
theorem replace (h : Surrounds before loop) (hclean : Reaches declarations (before ++ ts) [])
    (hts : Unattached ts) (hend : Ends loop ts e) (hus : Unattached us)
    (hend' : Ends loop us e) : Reaches declarations (before ++ us) [] := by
  rw [← End.after_nil e] at hend
  obtain ⟨added, hall, hother⟩ := h.faults hts hend
  cases hall.unique hclean
  exact hother us hus hend'

/-- No conditional goes on behind two declarations, the second of which is simple. -/
theorem unattached_behind (h : Surrounds before loop) (hw : Word .declaration w) (hd : Simple d)
    (hclean : Reaches declarations (before ++ (w ++ (d ++ rest))) []) : Unattached rest := by
  refine Classical.byContradiction fun hrest => ?_
  obtain ⟨hw', -⟩ := accepted_of_word hw
  obtain ⟨hd', -⟩ := accepted_of_word hd.word
  obtain ⟨e, f, earlier, he⟩ := Loops.attached h.loops h.total hrest
  have hloop := h.loops ((hd'.append rest).mono (by simp)) (hd.reaches rest) he
  rw [End.recorded, End.after_nil] at hloop
  have hall := h.skip hw ((hd'.append rest).unattached (by simp)) hloop
  cases h.eq_nil_of_reaches hclean ((hw'.append _).unattached (by simp)) hall

/-- Behind them the same may be read as in another program without a fault. -/
theorem exists_behind (h : Surrounds before loop) (hw : Word .declaration w) (hd : Simple d)
    (hclean : Reaches declarations (before ++ (w ++ (d ++ rest))) []) :
    Unattached rest ∧ ∃ e, Ends loop rest e ∧
      ∀ us, Unattached us → Ends loop us e → Reaches declarations (before ++ us) [] := by
  have hrest := h.unattached_behind hw hd hclean
  obtain ⟨hw', -⟩ := accepted_of_word hw
  obtain ⟨hd', -⟩ := accepted_of_word hd.word
  obtain ⟨e, he⟩ := h.total rest
  have hnext := h.skip hw ((hd'.append rest).unattached (by simp)) (h.skip hd.word hrest he)
  exact ⟨hrest, e, he, fun us => h.replace hclean ((hw'.append _).unattached (by simp)) hnext⟩

/-! ## A semicolon left out -/

variable {semi : Token} (hsemi : semi.isSymbol .semicolon = true)

include hsemi

/-- Where a simple declaration follows, the two are dropped and the others are as they were. -/
theorem dropped_simple (h : Surrounds before loop) (hb : Begun b)
    (hclean : Reaches declarations (before ++ (b ++ semi :: q)) [])
    (hq : q = [] ∨ ∃ d rest, q = d ++ rest ∧ Simple d) :
    Unattached (recover q) ∧ Reaches declarations (before ++ recover q) [] := by
  have hword := hb.word hsemi
  rw [List.append_cons b] at hclean
  rcases hq with rfl | ⟨d, rest, rfl, hd⟩
  · obtain ⟨e, he⟩ := h.total []
    obtain ⟨hword', -⟩ := accepted_of_word hword
    exact ⟨unattached_nil, h.replace hclean ((hword'.append []).unattached (by simp))
      (h.skip hword unattached_nil he) unattached_nil he⟩
  · obtain ⟨hrest, e, he, hother⟩ := h.exists_behind hword hd hclean
    rw [hd.skipped rest]
    exact ⟨hrest, hother rest hrest he⟩

/-- Without the semicolon there is no fault, or one at the next token and those behind it. -/
theorem missing (h : Surrounds before loop) (hbefore : Around before) (hb : Begun b)
    (hclean : Reaches declarations (before ++ (b ++ semi :: q)) []) :
    Reaches declarations (before ++ (b ++ q)) [] ∨
      ∃ cause added, Ends declarations (before ++ (b ++ q)) (.ok [] (⟨q.head?, cause⟩ :: added)) ∧
        (added = [] ↔ Unattached (recover q) ∧ Reaches declarations (before ++ recover q) []) := by
  have hword := hb.word hsemi
  rw [List.append_cons b] at hclean
  obtain ⟨_, _, hbehind⟩ := exists_surrounds (hbefore.append hword)
  have hfollowing := hbehind.following (by rwa [List.append_assoc])
  rcases gap_begun hb hfollowing with ⟨cause, hfault⟩ | ⟨d, rest, rfl, hd, hjoined⟩
  · obtain ⟨added, hall⟩ := h.dropped (starts_begun hb) hfault
    exact Or.inr ⟨cause, added, hall⟩
  · obtain ⟨hrest, e, he, hother⟩ := h.exists_behind hword (Or.inl hd) hclean
    have hone := h.skip hjoined hrest he
    rw [List.append_assoc] at hone
    exact Or.inl (hother _ (((starts_begun hb).append _).unattached (by simp)) hone)

end Surrounds

/-- A list of tokens without a fault ends without one. -/
theorem reaches_of_errors_nil {more : List Token} {stop : Token} (hw : ∀ t ∈ w, t.isEof = false)
    (hstop : stop.isEof = true) {nodes functions : Nat}
    (h : (parse (w ++ stop :: more) nodes functions).errors = []) : Reaches declarations w [] := by
  obtain ⟨e, he⟩ := declarations_total w
  obtain ⟨added, rfl, herrors⟩ := errors_of_ends hw hstop he nodes functions
  rw [h] at herrors
  rwa [List.map_eq_nil_iff.mp herrors.symm] at he

/--
**A missing semicolon.** Leave out one semicolon of a program without a fault that ends an
expression, a `print`, a variable or a return, at any depth. Then no fault or one is found if and
only if the tokens are a program again, or they are one without the declaration and what is dropped
behind it; the first fault is at the token behind the semicolon. So it is at the end of the tokens,
and where a simple declaration follows.
-/
theorem missing_semicolon {before b q more : List Token} {semi stop : Token}
    (hbefore : Around before) (hb : Begun b) (hsemi : semi.isSymbol .semicolon = true)
    (hstop : stop.isEof = true) (hends : ∀ t ∈ before ++ (b ++ semi :: q), t.isEof = false)
    (nodes functions : Nat)
    (hclean : (parse (before ++ (b ++ semi :: q) ++ stop :: more) nodes functions).errors = []) :
    ((parse (before ++ (b ++ q) ++ stop :: more) nodes functions).errors.length ≤ 1 ↔
      Derives (.many (.nonterminal .declaration)) (before ++ (b ++ q)) ∨
        Unattached (recover q) ∧
          Derives (.many (.nonterminal .declaration)) (before ++ recover q)) ∧
    (∀ e ∈ (parse (before ++ (b ++ q) ++ stop :: more) nodes functions).errors.head?,
      e.token = q.head?.getD stop) ∧
    ((q = [] ∨ ∃ d rest, q = d ++ rest ∧ Simple d) →
      (parse (before ++ (b ++ q) ++ stop :: more) nodes functions).errors.length ≤ 1) := by
  have hreaches := reaches_of_errors_nil hends hstop hclean
  have hends' : ∀ t ∈ before ++ (b ++ q), t.isEof = false := by
    intro t ht
    refine hends t ?_
    rw [List.mem_append, List.mem_append] at ht
    rcases ht with ht | ht | ht <;> simp [ht]
  obtain ⟨_, _, h⟩ := exists_surrounds hbefore
  rcases h.missing hsemi hbefore hb hreaches with hnone | ⟨cause, added, hfault, hadded⟩
  · obtain ⟨added, hnil, herrors⟩ := errors_of_ends hends' hstop hnone nodes functions
    cases hnil
    rw [herrors]
    exact ⟨⟨fun _ => Or.inl (reaches_iff_derives.mp hnone), fun _ => Nat.zero_le 1⟩,
      by rintro _ ⟨⟩, fun _ => Nat.zero_le 1⟩
  · obtain ⟨added', hcons, herrors⟩ := errors_of_ends hends' hstop hfault nodes functions
    cases hcons
    have hlength : (parse (before ++ (b ++ q) ++ stop :: more) nodes functions).errors.length ≤ 1 ↔
        added = [] := by
      rw [herrors]
      simp
    refine ⟨?_, ?_, fun hq => hlength.mpr (hadded.mpr (h.dropped_simple hsemi hb hreaches hq))⟩
    · rw [hlength, hadded, ← reaches_iff_derives, ← reaches_iff_derives]
      refine ⟨Or.inr, fun hor => hor.resolve_left fun hnone => ?_⟩
      cases hfault.unique hnone
    · rw [herrors]
      rintro _ ⟨⟩
      rfl

/-- In a block, before a simple declaration. -/
theorem missing_semicolon_in_block :
    (parse ([Symbol.blockStart.token] ++ ([Symbol.print.token, Symbol.yes.token] ++
      [Symbol.no.token, Symbol.semicolon.token, Symbol.blockEnd.token]) ++
        [⟨.eof, "", 1⟩]) 0 0).errors.length ≤ 1 := by
  have hliteral : ∀ {t : Token} {value : Literal}, literal? t = some value → Word .expression [t] :=
    fun h => word_of_spelledAt ((Expr.SpelledAt.literal 0 h).mono (Nat.zero_le 10))
  have hyes : Word .expression [Symbol.yes.token] := hliteral rfl
  have hno : Word .expression [Symbol.no.token] := hliteral rfl
  have hstart : Opened [Symbol.blockStart.token] :=
    .statement (.here ⟨_, rfl, Symbol.isSymbol_token .blockStart⟩)
  have hnone : ∀ u ∈ ([] : List (List Token)), Word .declaration u := by simp
  have hbefore : Around [Symbol.blockStart.token] := .block (.program hnone) hstart hnone
  have hb : Begun [Symbol.print.token, Symbol.yes.token] :=
    .statement (.here (.print (Symbol.isSymbol_token _) hyes))
  have hd : Simple [Symbol.no.token, Symbol.semicolon.token] :=
    Or.inl (word_of_matches (matches_exprStmt.mpr
      ⟨[Symbol.no.token], _, rfl, hno, Symbol.isSymbol_token _⟩))
  exact (missing_semicolon hbefore hb (Symbol.isSymbol_token .semicolon) rfl (by decide) 0 0
    (by decide +kernel)).2.2 (Or.inr ⟨_, _, rfl, hd⟩)

/-- At the end of a block the symbol that ends it is dropped, too, and is missed as well. -/
theorem missing_semicolon_at_blockEnd :
    (parse (scannedTokens (scan ":> twue; <:")) 0 0).errors = [] ∧
      (parse (scannedTokens (scan ":> twue <:")) 0 0).errors.map
        (fun e => (e.token.kind, e.cause)) =
        [(.symbol .blockEnd, .expressionEnd), (.eof, .blockEnd)] := by
  decide +kernel

end Nya.Parse
