import Nya.Proofs.Parse.Closure
import Nya.Proofs.Parse.Cursor
import Nya.Proofs.Parse.Isolation

/-!
# A parse stays within its tokens

A list of tokens with a mark of the end is cut at the first one. A walker *follows* a parser if it
reads the same, and the cursor then stands before the tokens that the parser has left: it has gone
to each position once, from the first one on. This is shown of the operations, and so it holds of
the grammar; only taking a token and recovery move the cursor.

* `Follows` for walkers and parsers, with one rule for each way to put them together
* `parse_by_positions`
-/

namespace Nya.Parse

/-! ## Lists with a mark of the end -/

/-- A list of tokens, cut at the first one that marks the end. -/
structure Marked where
  before : List Token
  stop : Token
  after : List Token
  isEof_stop : stop.isEof = true
  isEof_before : ∀ t ∈ before, t.isEof = false

namespace Marked

/-- The whole list. -/
def tokens (m : Marked) : List Token := m.before ++ m.stop :: m.after

/-- The tokens are split at the first mark of the end. -/
theorem splitAtEnd_tokens (m : Marked) : splitAtEnd m.tokens = (m.before, m.stop) := by
  rw [tokens, splitAtEnd_append m.isEof_before, splitAtEnd, if_pos m.isEof_stop, List.append_nil]

/-- The first mark stands behind all that comes before it. -/
theorem findIdx_tokens (m : Marked) : m.tokens.findIdx Token.isEof = m.before.length := by
  have hbefore : m.before.findIdx Token.isEof = m.before.length :=
    List.findIdx_eq_length.mpr m.isEof_before
  rw [tokens, List.findIdx_append, hbefore, if_neg (Nat.lt_irrefl _),
    List.findIdx_cons, m.isEof_stop, cond_true, Nat.zero_add]

/-- Each list with a mark of the end can be cut in this way. -/
theorem exists_tokens_eq {tokens : List Token} (h : ∃ t ∈ tokens, t.isEof = true) :
    ∃ m : Marked, m.tokens = tokens := by
  induction tokens with
  | nil => simp at h
  | cons t ts ih =>
    cases ht : t.isEof with
    | true => exact ⟨⟨[], t, ts, ht, fun _ h => absurd h List.not_mem_nil⟩, rfl⟩
    | false =>
      obtain ⟨m, hm⟩ := ih (by simpa [ht] using h)
      refine ⟨⟨t :: m.before, m.stop, m.after, m.isEof_stop, ?_⟩, congrArg (t :: ·) hm⟩
      exact List.forall_mem_cons.mpr ⟨ht, m.isEof_before⟩

end Marked

/-! ## Where the cursor stands -/

variable {m : Marked} {s : State} {c : Cursor}

/--
The cursor stands before the tokens that are left. It has gone through all positions up to this one
in order, and each call for a declaration that was not made at the end has moved it.
-/
structure Stands (m : Marked) (s : State) (c : Cursor) : Prop where
  rest : s.rest = m.before.drop c.current
  le : c.current ≤ m.before.length
  nodes : c.nodes = s.nodes
  functions : c.functions = s.functions
  errors : c.errors = s.faults.map (Fault.locate m.stop)
  trail : c.trail = List.range (c.current + 1)
  calls : ∀ call ∈ c.calls, call.1 < m.before.length → call.1 < call.2

namespace Stands

/-- A parse starts at the first position. -/
theorem start (m : Marked) (nodes functions : Nat) :
    Stands m ⟨m.before, nodes, functions, []⟩ (.start nodes functions) where
  rest := rfl
  le := Nat.zero_le _
  nodes := rfl
  functions := rfl
  errors := rfl
  trail := rfl
  calls _ h := absurd h List.not_mem_nil

/-- What is left and what was passed make up the tokens before the mark. -/
theorem length_rest (h : Stands m s c) : s.rest.length + c.current = m.before.length := by
  have hle := h.le
  rw [h.rest, List.length_drop]
  omega

/-- At the cursor stands the next token, or the mark of the end. -/
theorem getElem?_current (h : Stands m s c) :
    m.tokens[c.current]? = some (s.rest.head?.getD m.stop) := by
  rw [Marked.tokens, h.rest, List.head?_drop]
  rcases Nat.lt_or_eq_of_le h.le with hlt | heq
  · rw [List.getElem?_append_left hlt, List.getElem?_eq_getElem hlt]
    rfl
  · rw [heq, List.getElem?_append_right (Nat.le_refl _), Nat.sub_self,
      List.getElem?_eq_none (Nat.le_refl _)]
    rfl

/-- There is a token before the cursor, too. -/
theorem exists_previous (h : Stands m s c) : ∃ t, m.tokens[c.current - 1]? = some t := by
  have hle := h.le
  have hlt : c.current - 1 < m.tokens.length := by
    rw [Marked.tokens, List.length_append, List.length_cons]
    omega
  exact ⟨_, List.getElem?_eq_getElem hlt⟩

/-- What is left holds no mark of the end. -/
theorem isEof_of_cons (h : Stands m s c) {t : Token} {rest : List Token}
    (hrest : s.rest = t :: rest) : t.isEof = false := by
  refine m.isEof_before t (List.mem_of_mem_drop (i := c.current) ?_)
  rw [← h.rest, hrest]
  exact List.mem_cons_self

/-- The cursor goes on by one token. -/
theorem step (h : Stands m s c) {t : Token} {rest : List Token} (hrest : s.rest = t :: rest) :
    Stands m { s with rest } c.step where
  rest := by
    have hdrop := h.rest
    rw [hrest] at hdrop
    show rest = m.before.drop (c.current + 1)
    rw [← List.tail_drop, ← hdrop, List.tail_cons]
  le := by
    have hlength := h.length_rest
    rw [hrest, List.length_cons] at hlength
    show c.current + 1 ≤ m.before.length
    omega
  nodes := h.nodes
  functions := h.functions
  errors := h.errors
  trail := by
    show c.trail ++ [c.current + 1] = List.range (c.current + 1 + 1)
    rw [h.trail, List.range_succ (n := c.current + 1)]
  calls := h.calls

end Stands

/-! ## Following a parser -/

variable {α β : Type}

/-- The walk ends as the parse does. -/
inductive Walk.Matches (m : Marked) : Walk α → Outcome α → Prop
  | ok {s : State} {c : Cursor} (v : α) (stands : Stands m s c) : Matches m (.ok v c) (.ok v s)
  | fault {s : State} {c : Cursor} (f : Fault) (stands : Stands m s c) :
    Matches m (.fault (f.locate m.stop) c) (.fault f s)
  | exhausted : Matches m .exhausted .exhausted

/-- From wherever the cursor stands before what is left, the walker reads what the parser reads. -/
def Follows (m : Marked) ⦃α : Type⦄ (w : Walker α) (p : Parser α) : Prop :=
  ∀ s c, Stands m s c → (w m.tokens c).Matches m (p s)

theorem Walker.bind_apply (w : Walker α) (k : α → Walker β) (tokens : List Token) (c : Cursor) :
    (w >>= k) tokens c =
      match w tokens c with
      | .ok value next => k value tokens next
      | .fault e next => .fault e next
      | .outside => .outside
      | .exhausted => .exhausted := rfl

theorem Walker.bind_of_ok {w : Walker α} {tokens : List Token} {c next : Cursor} {v : α}
    (h : w tokens c = .ok v next) (k : α → Walker β) : (w >>= k) tokens c = k v tokens next := by
  rw [bind_apply, h]

theorem Walker.cursor_bind (k : Cursor → Walker α) (tokens : List Token) (c : Cursor) :
    (cursor >>= k) tokens c = k c tokens c := rfl

theorem Walker.moveOn_bind (k : Unit → Walker α) (tokens : List Token) (c : Cursor) :
    (moveOn >>= k) tokens c = k () tokens c.step := rfl

theorem follows_pure (v : α) : Follows m (pure v) (pure v) := fun _ _ h => .ok v h

theorem follows_outOfFuel : Follows m (Walker.outOfFuel : Walker α) outOfFuel :=
  fun _ _ _ => .exhausted

/-- A walker that follows goes on with one that does. -/
theorem Follows.bind {w : Walker α} {p : Parser α} {k : α → Walker β} {k' : α → Parser β}
    (h : Follows m w p) (hk : ∀ v, Follows m (k v) (k' v)) :
    Follows m (w >>= k) (p >>= k') := by
  intro s c hs
  have hfirst := h s c hs
  rw [Walker.bind_apply, Parse.bind_apply]
  generalize w m.tokens c = walk at hfirst ⊢
  generalize p s = outcome at hfirst ⊢
  cases hfirst with
  | ok v hs' => exact hk v _ _ hs'
  | fault f hs' => exact .fault f hs'
  | exhausted => exact .exhausted

/-! ### Positions -/

namespace Stands

/-- There is no mishap where there is a token. -/
theorem tokenAt {position : Nat} {t : Token} {tokens : List Token}
    (h : tokens[position]? = some t) (c : Cursor) :
    Walker.tokenAt position tokens c = .ok t c := by
  rw [Walker.tokenAt, h]

/-- The token at the cursor is the next one, or the mark of the end. -/
theorem peek (h : Stands m s c) :
    Walker.peek m.tokens c = .ok (s.rest.head?.getD m.stop) c :=
  tokenAt h.getElem?_current c

/-- The cursor is at the end just if nothing is left. -/
theorem isAtEnd (h : Stands m s c) : Walker.isAtEnd m.tokens c = .ok s.rest.isEmpty c := by
  rw [Walker.isAtEnd, Walker.bind_of_ok h.peek]
  cases hrest : s.rest with
  | nil => exact congrArg (Walk.ok · c) m.isEof_stop
  | cons t rest => exact congrArg (Walk.ok · c) (h.isEof_of_cons hrest)

/-- A test of the token at the cursor fails at the end. -/
theorem check (h : Stands m s c) (test : Token → Bool) :
    Walker.check test m.tokens c = .ok (s.rest.head?.any test) c := by
  rw [Walker.check, Walker.bind_of_ok h.isAtEnd]
  cases hrest : s.rest with
  | nil => rfl
  | cons t rest =>
    rw [List.isEmpty_cons, if_neg Bool.false_ne_true, Walker.bind_of_ok h.peek, hrest]
    rfl

/-- Before the cursor stands the token that was passed. -/
theorem advance (h : Stands m s c) {t : Token} {rest : List Token} (hrest : s.rest = t :: rest) :
    Walker.advance m.tokens c = .ok t c.step := by
  have hcurrent := h.getElem?_current
  rw [hrest] at hcurrent
  rw [Walker.advance, Walker.bind_of_ok h.isAtEnd, hrest, List.isEmpty_cons,
    if_neg Bool.false_ne_true, Walker.moveOn_bind]
  exact tokenAt hcurrent c.step

/-- At the end the cursor does not move. -/
theorem advance_nil (h : Stands m s c) {last : Token} (hrest : s.rest = [])
    (hlast : m.tokens[c.current - 1]? = some last) : Walker.advance m.tokens c = .ok last c := by
  rw [Walker.advance, Walker.bind_of_ok h.isAtEnd, hrest, List.isEmpty_nil, if_pos rfl]
  exact tokenAt hlast c

end Stands

/-- Taking a token moves the cursor by one, or not at all. -/
theorem follows_takeIf (test : Token → Bool) : Follows m (Walker.takeIf test) (takeIf test) := by
  intro s c h
  rw [Walker.takeIf, Walker.bind_of_ok (h.check test), takeIf]
  cases hrest : s.rest with
  | nil => exact .ok none h
  | cons t rest =>
    rw [List.head?_cons, Option.any_some]
    by_cases ht : test t = true
    · rw [if_pos ht, Walker.bind_of_ok (h.advance hrest)]
      simpa [ht] using .ok (some t) (h.step hrest)
    · rw [if_neg ht]
      simpa [ht] using .ok none h

/-- A fault names the token at the cursor, which is the mark of the end if nothing is left. -/
theorem follows_fail (cause : SyntaxCause) :
    Follows m (Walker.fail cause : Walker α) (fail cause) := by
  intro s c h
  rw [Walker.fail, Walker.bind_of_ok h.peek]
  exact .fault ⟨s.rest.head?, cause⟩ h

/-- A fault is recorded with its token. -/
theorem follows_report (f : Fault) :
    Follows m (Walker.report (f.locate m.stop)) (report f) := by
  intro s c h
  refine .ok () { h with errors := ?_ }
  show c.errors ++ [f.locate m.stop] = (s.faults ++ [f]).map (Fault.locate m.stop)
  rw [h.errors, List.map_append]
  rfl

theorem follows_reportHere (cause : SyntaxCause) :
    Follows m (Walker.reportHere cause) (reportHere cause) := by
  intro s c h
  rw [Walker.reportHere, Walker.bind_of_ok h.peek]
  exact follows_report ⟨s.rest.head?, cause⟩ s c h

theorem follows_newNode : Follows m Walker.newNode newNode := by
  intro s c h
  rw [Walker.newNode, newNode, h.nodes]
  exact .ok s.nodes { h with nodes := rfl }

theorem follows_newFunction : Follows m Walker.newFunction newFunction := by
  intro s c h
  rw [Walker.newFunction, newFunction, h.functions]
  exact .ok s.functions { h with functions := rfl }

theorem follows_peek? : Follows m Walker.peek? peek? := by
  intro s c h
  rw [Walker.peek?, Walker.bind_of_ok h.isAtEnd, peek?]
  cases hrest : s.rest with
  | nil => exact .ok none h
  | cons t rest =>
    rw [List.isEmpty_cons, if_neg Bool.false_ne_true, Walker.bind_of_ok h.peek, hrest]
    exact .ok (some t) h

/-! ### Recovery -/

/-- One turn of skipping, which looks at the token at the cursor and the one before. -/
theorem Walker.skipFrom_eq {tokens : List Token} {t last : Token}
    (ht : tokens[c.current]? = some t) (hlast : tokens[c.current - 1]? = some last) :
    skipFrom tokens c =
      if t.isEof then .ok () c
      else if last.isSymbol .semicolon || starters.any t.isSymbol then .ok () c
      else skipFrom tokens c.step := by
  rw [skipFrom, hlast]
  split
  · next hnone => rw [ht] at hnone; cases hnone
  · next t' hsome => rw [ht] at hsome; cases hsome; rfl

/-- Skipping stops at the token at which the parser goes on. -/
theorem skipFrom_follows {last : Token} {rest : List Token} (hrest : s.rest = rest)
    (hs : Stands m s c) (hlast : m.tokens[c.current - 1]? = some last) :
    ∃ next, Walker.skipFrom m.tokens c = .ok () next ∧
      Stands m { s with rest := skip last rest } next := by
  induction rest generalizing s c last with
  | nil =>
    have hcurrent := hs.getElem?_current
    rw [hrest] at hcurrent
    refine ⟨c, ?_, ?_⟩
    · rw [Walker.skipFrom_eq hcurrent hlast]
      exact if_pos m.isEof_stop
    · rw [skip, ← hrest]
      exact hs
  | cons t rest ih =>
    have hcurrent := hs.getElem?_current
    rw [hrest] at hcurrent
    rw [Walker.skipFrom_eq hcurrent hlast, skip]
    have ht : ¬ t.isEof = true := by simp [hs.isEof_of_cons hrest]
    rw [if_neg (show ¬ ((t :: rest).head?.getD m.stop).isEof = true from ht)]
    by_cases hstop : (last.isSymbol .semicolon || starters.any t.isSymbol) = true
    · refine ⟨c, if_pos hstop, ?_⟩
      rw [if_pos hstop, ← hrest]
      exact hs
    · obtain ⟨next, hskip, hnext⟩ := ih rfl (hs.step hrest) hcurrent
      refine ⟨next, (if_neg hstop).trans hskip, ?_⟩
      rw [if_neg hstop]
      exact hnext

/-- Recovery moves the cursor over what the parser drops, position by position. -/
theorem follows_synchronize :
    Follows m Walker.synchronize fun s => .ok () { s with rest := recover s.rest } := by
  intro s c hs
  show (Walker.synchronize m.tokens c).Matches m (.ok () { s with rest := recover s.rest })
  rw [Walker.synchronize]
  cases hrest : s.rest with
  | nil =>
    -- At the end the cursor stays, and so skipping stops at once.
    obtain ⟨last, hlast⟩ := hs.exists_previous
    obtain ⟨next, hskip, hnext⟩ := skipFrom_follows hrest hs hlast
    rw [Walker.bind_of_ok (hs.advance_nil hrest hlast), Walker.skip, hskip]
    exact .ok () hnext
  | cons t rest =>
    have hcurrent := hs.getElem?_current
    rw [hrest] at hcurrent
    obtain ⟨next, hskip, hnext⟩ := skipFrom_follows rfl (hs.step hrest) hcurrent
    rw [Walker.bind_of_ok (hs.advance hrest), Walker.skip, hskip]
    exact .ok () hnext

/-- A fault is recorded, and both go on behind what they skip. -/
theorem Follows.recovering {w : Walker α} {p : Parser α} (h : Follows m w p) :
    Follows m (Walker.recovering w) (recovering p) := by
  intro s c hs
  have hfirst := h s c hs
  rw [Walker.recovering, Parse.recovering]
  generalize w m.tokens c = walk at hfirst ⊢
  generalize p s = outcome at hfirst ⊢
  cases hfirst with
  | ok v hs' => exact .ok (some v) hs'
  | fault f hs' =>
    exact ((follows_report f).bind fun _ => follows_synchronize.bind fun _ =>
      follows_pure none) _ _ hs'
  | exhausted => exact .exhausted

/-- **A call for a declaration moves the cursor on**, whether one is read or the call recovers. -/
theorem Follows.declared {w : Walker α} {p : Parser α} (h : Follows m w p)
    (hp : ∀ s, (p s).Takes 1 s.rest.length True) :
    Follows m (Walker.declared w) (Parse.recovering p) := by
  intro s c hs
  have hfirst := h.recovering s c hs
  have htaken := fun hne => recovering_takes (hp s) hne
  rw [Walker.declared, Walker.cursor_bind, Walker.bind_apply]
  generalize Walker.recovering w m.tokens c = walk at hfirst ⊢
  generalize Parse.recovering p s = outcome at hfirst htaken ⊢
  cases hfirst with
  | @ok s' c' v hs' =>
    refine .ok v { hs' with calls := ?_ }
    intro call hcall hlt
    rcases List.mem_append.mp hcall with hcall | hcall
    · exact hs'.calls call hcall hlt
    · obtain rfl := List.mem_singleton.mp hcall
      have hlt : c.current < m.before.length := hlt
      have hlength := hs.length_rest
      have hlength' := hs'.length_rest
      have hne : s.rest ≠ [] := List.length_pos_iff.mp (by omega)
      have htaken : s'.rest.length + 1 ≤ s.rest.length := htaken hne
      show c.current < c'.current
      omega
  | fault f hs' => exact .fault f hs'
  | exhausted => exact .exhausted

/-! ## Programs -/

/-- A declaration that is read has taken a token. -/
theorem takes_of_declaration (n : Nat) (s : State) :
    (declaration n s).Takes 1 s.rest.length True :=
  (declaration_takes n s).widen (Nat.le_refl _) (Nat.le_refl _) fun _ => trivial

theorem follows_closed : Parsing.Closed (Follows m) where
  pure := follows_pure
  bind := Follows.bind
  outOfFuel := follows_outOfFuel
  fail := follows_fail
  build _ := follows_newNode.bind fun _ => follows_pure _
  nextIs _ := follows_peek?.bind fun _ => follows_pure _
  takeIf _ := follows_takeIf _

/-- The walker reads an expression as the parser does. -/
theorem follows_expression (n : Nat) :
    Follows m (Parsing.expression n : Walker Expr) (expression n) :=
  Parsing.ClosedExpr.expression
    { follows_closed, follows_closed.sameFuel with
      tooManyArguments := follows_reportHere _
      assignment := follows_closed.assignment fun t => follows_report ⟨some t, _⟩ } rfl

/-- **The walker for a program follows the parser.** -/
theorem follows_declarations (n : Nat) :
    Follows m (Walker.declarations n) (declarations n) :=
  Parsing.ClosedStmt.declarations
    { follows_closed, follows_closed.sameFuel with
      takeAny := follows_takeIf
      expression := fun {n _} hk => hk ▸ follows_expression n
      newFunction := follows_newFunction
      peek? := follows_peek?
      tooManyParameters := follows_reportHere _
      declared := fun {_ n} h => h.declared (takes_of_declaration n) } rfl

/-- A walk with enough fuel ends at the mark. -/
theorem Marked.walker_parse (m : Marked) {n : Nat} (nodes functions : Nat)
    (hn : fuelFor m.before ≤ n) :
    ∃ s c, Walker.parse n m.tokens nodes functions = .ok (parse m.tokens nodes functions) c ∧
      s.rest = [] ∧ Stands m s c := by
  obtain ⟨slots, s, hread, hrest⟩ := declarations_fuelFor m.before nodes functions []
  have hwalk := follows_declarations n _ _ (Stands.start m nodes functions)
  rw [declarations_of_le hn hread] at hwalk
  rw [parse_eq m.splitAtEnd_tokens hread, Walker.parse, Walker.parsed, Walker.bind_apply]
  generalize Walker.declarations n m.tokens (.start nodes functions) = walk at hwalk ⊢
  cases hwalk with
  | @ok _ c v hs =>
    refine ⟨s, c, ?_, hrest, hs⟩
    rw [← hs.errors, ← hs.nodes, ← hs.functions]
    rfl

/--
**A parse by positions.** If there is a mark of the end among the tokens, then a parse that has
enough fuel ends, and yields what parsing the list yields; so it never reads outside the list. Its
cursor goes from the first position to the first mark, to one position after the other, and stays
there. Each call for a declaration before the mark moves it.
-/
theorem parse_by_positions (tokens : List Token) (nodes functions n : Nat)
    (hmark : ∃ t ∈ tokens, t.isEof = true) (hn : fuelFor tokens ≤ n) :
    let stop := tokens.findIdx Token.isEof
    ∃ c, Walker.parse n tokens nodes functions = .ok (parse tokens nodes functions) c ∧
      c.current = stop ∧ c.trail = List.range (stop + 1) ∧
      ∀ call ∈ c.calls, call.1 < stop → call.1 < call.2 := by
  obtain ⟨m, rfl⟩ := Marked.exists_tokens_eq hmark
  have hfuel : fuelFor m.before ≤ n := by
    have hlength : m.before.length ≤ m.tokens.length := by
      rw [Marked.tokens, List.length_append]
      exact Nat.le_add_right _ _
    unfold fuelFor at hn ⊢
    omega
  obtain ⟨s, c, hparse, hrest, hs⟩ := m.walker_parse nodes functions hfuel
  have hcurrent : c.current = m.before.length := by
    have hlength := hs.length_rest
    rwa [hrest, List.length_nil, Nat.zero_add] at hlength
  intro stop
  have hstop : stop = m.before.length := m.findIdx_tokens
  refine ⟨c, hparse, hcurrent.trans hstop.symm, ?_, hstop ▸ hs.calls⟩
  rw [hs.trail, hcurrent, hstop]

/-- A block with a faulty declaration in it that is never closed, and more tokens behind the
mark. -/
theorem parse_by_positions_unclosed :
    let tokens : List Token := [⟨.symbol .blockStart, ":>", 1⟩, ⟨.symbol .rightParen, ")", 1⟩,
      ⟨.symbol .semicolon, ";", 1⟩, ⟨.eof, "", 1⟩, ⟨.symbol .print, "pwint", 2⟩, ⟨.eof, "", 2⟩]
    ∃ c, Walker.parse (fuelFor tokens) tokens 0 0 = .ok (parse tokens 0 0) c ∧
      c.current = 3 ∧ c.trail = [0, 1, 2, 3] ∧ ∀ call ∈ c.calls, call.1 < 3 → call.1 < call.2 := by
  intro tokens
  have hmark : ∃ t ∈ tokens, t.isEof = true := ⟨⟨.eof, "", 1⟩, by decide, rfl⟩
  exact parse_by_positions tokens 0 0 (fuelFor tokens) hmark (Nat.le_refl _)

end Nya.Parse
