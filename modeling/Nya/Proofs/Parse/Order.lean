import Nya.Proofs.Parse.Closure
import Nya.Proofs.Parse.Assembled
import Nya.Proofs.Parse.Progress
import Nya.Proofs.Token.Position

/-!
# The order of syntax errors

A parser reports at the token that it is at, and it never goes back. So reports come in the order of
the source, with one exception: that an assignment has no proper target is reported at its `o/` once
its value has been read, and so behind all that was reported inside the value.

* `Mark` for a report with its place
* `Mark.Precedes` for the order that remains
* `errors_in_order`
-/

namespace Nya

/-- Whether an expression goes on after the report. -/
def SyntaxCause.isPassing : SyntaxCause → Bool
  | .tooManyArguments | .assignmentTarget => true
  | _ => false

namespace Parse

/-- What is reported, and how many tokens come before the one that it is reported at. -/
structure Mark where
  place : Nat
  cause : SyntaxCause
  deriving DecidableEq, Repr

namespace Mark

/-- The fault as it is recorded. -/
def fault (tokens : List Token) (m : Mark) : Fault := ⟨tokens[m.place]?, m.cause⟩

/-- The error at the token of the mark. -/
def error (tokens : List Token) (m : Mark) : SyntaxError := ⟨tokens[m.place]?.getD default, m.cause⟩

/--
The first mark may come before the second one: its place is not behind that of the second one, or
the second one is about an assignment, in whose value the first one may be.
-/
def Precedes (m m' : Mark) : Prop :=
  m.place ≤ m'.place ∨ m'.cause = .assignmentTarget ∧ m.cause.isPassing = true

end Mark

/-! ## Places -/

variable {α : Type} {tokens : List Token} {allowed : SyntaxCause → Prop} {s s' s'' : State}

/-- How many of the tokens have been read. -/
def State.place (tokens : List Token) (s : State) : Nat := tokens.length - s.rest.length

theorem getElem?_place (h : s.rest <:+ tokens) : tokens[s.place tokens]? = s.rest.head? := by
  obtain ⟨read, rfl⟩ := h
  rw [State.place, List.length_append, Nat.add_sub_cancel,
    List.getElem?_append_right (Nat.le_refl _), Nat.sub_self, List.head?_eq_getElem?]

/--
On the way from the first state to the second one reports were added in order, none at a token
before the one or behind the other, and all for such causes.
-/
structure State.Passes (tokens : List Token) (allowed : SyntaxCause → Prop) (s s' : State) :
    Prop where
  rest : s'.rest <:+ s.rest
  faults : ∃ marks : List Mark, s'.faults = s.faults ++ marks.map (Mark.fault tokens) ∧
    marks.Pairwise Mark.Precedes ∧
    ∀ m ∈ marks, s.place tokens ≤ m.place ∧ m.place ≤ s'.place tokens ∧ allowed m.cause

namespace State.Passes

theorem place_le (h : s'.rest <:+ s.rest) : s.place tokens ≤ s'.place tokens :=
  Nat.sub_le_sub_left h.length_le _

/-- Tokens were taken, and nothing was reported. -/
theorem of_rest (h : s'.rest <:+ s.rest) (hfaults : s'.faults = s.faults) :
    s.Passes tokens allowed s' :=
  ⟨h, [], by rw [hfaults, List.map_nil, List.append_nil], .nil, by simp⟩

theorem trans (h : s.Passes tokens allowed s') (h' : s'.Passes tokens allowed s'') :
    s.Passes tokens allowed s'' := by
  obtain ⟨hrest, marks, hfaults, hmarks, hplaces⟩ := h
  obtain ⟨hrest', marks', hfaults', hmarks', hplaces'⟩ := h'
  refine ⟨hrest'.trans hrest, marks ++ marks', ?_, ?_, ?_⟩
  · rw [hfaults', hfaults, List.map_append, List.append_assoc]
  · refine List.pairwise_append.mpr ⟨hmarks, hmarks', fun m hm m' hm' => Or.inl ?_⟩
    exact Nat.le_trans (hplaces m hm).2.1 (hplaces' m' hm').1
  · intro m hm
    have hle : s.place tokens ≤ s'.place tokens := place_le hrest
    have hle' : s'.place tokens ≤ s''.place tokens := place_le hrest'
    rcases List.mem_append.mp hm with hm | hm
    · obtain ⟨hlow, hhigh, hcause⟩ := hplaces m hm
      exact ⟨hlow, by omega, hcause⟩
    · obtain ⟨hlow, hhigh, hcause⟩ := hplaces' m hm
      exact ⟨by omega, hhigh, hcause⟩

theorem mono {allowed' : SyntaxCause → Prop} (h : s.Passes tokens allowed s')
    (himp : ∀ c, allowed c → allowed' c) : s.Passes tokens allowed' s' := by
  obtain ⟨hrest, marks, hfaults, hmarks, hplaces⟩ := h
  refine ⟨hrest, marks, hfaults, hmarks, fun m hm => ?_⟩
  obtain ⟨hlow, hhigh, hcause⟩ := hplaces m hm
  exact ⟨hlow, hhigh, himp _ hcause⟩

/-- A report at the next token. -/
theorem report (hs : s.rest <:+ tokens) {f : Fault} (hsite : f.site = s.rest.head?)
    (hcause : allowed f.cause) :
    s.Passes tokens allowed { s with faults := s.faults ++ [f] } := by
  refine ⟨List.suffix_refl _, [⟨s.place tokens, f.cause⟩], ?_, List.pairwise_singleton _ _, ?_⟩
  · rw [List.map_singleton, Mark.fault, getElem?_place hs, ← hsite]
  · intro m hm
    rw [List.mem_singleton.mp hm]
    exact ⟨Nat.le_refl _, Nat.le_refl _, hcause⟩

/-- The report of an assignment is at a token before its value, but comes behind. -/
theorem assignmentTarget (hs : s.rest <:+ tokens) {equals : Token} {rest : List Token}
    (hequals : s.rest = equals :: rest)
    (h : State.Passes tokens (·.isPassing = true) { s with rest } s') :
    s.Passes tokens (·.isPassing = true)
      { s' with faults := s'.faults ++ [⟨some equals, .assignmentTarget⟩] } := by
  obtain ⟨hrest, marks, hfaults, hmarks, hplaces⟩ := h
  have htaken : rest <:+ s.rest := ⟨[equals], hequals.symm⟩
  have hle : s.place tokens ≤ State.place tokens { s with rest } := place_le htaken
  have hle' : State.place tokens { s with rest } ≤ s'.place tokens := place_le hrest
  have hplaces' : ∀ m ∈ marks ++ [⟨s.place tokens, .assignmentTarget⟩], s.place tokens ≤ m.place ∧
      m.place ≤ s'.place tokens ∧ m.cause.isPassing = true := by
    intro m hm
    rcases List.mem_append.mp hm with hm | hm
    · obtain ⟨hlow, hhigh, hcause⟩ := hplaces m hm
      exact ⟨Nat.le_trans hle hlow, hhigh, hcause⟩
    · rw [List.mem_singleton.mp hm]
      exact ⟨Nat.le_refl _, Nat.le_trans hle hle', rfl⟩
  refine ⟨hrest.trans htaken, marks ++ [⟨s.place tokens, .assignmentTarget⟩], ?_, ?_, hplaces'⟩
  · rw [List.map_append, ← List.append_assoc, hfaults, List.map_singleton, Mark.fault,
      getElem?_place hs, hequals, List.head?_cons]
  · refine List.pairwise_append.mpr ⟨hmarks, List.pairwise_singleton _ _, fun m hm m' hm' => ?_⟩
    rw [List.mem_singleton.mp hm']
    exact Or.inr ⟨rfl, (hplaces m hm).2.2⟩

end State.Passes

/-! ## Parsers -/

/-- The outcome leaves reports in order. A fault is one at the next token. -/
def Outcome.Ordered (tokens : List Token) (allowed : SyntaxCause → Prop) (s : State) :
    Outcome α → Prop
  | .ok _ s' => s.Passes tokens allowed s'
  | .fault f s' => s.Passes tokens allowed s' ∧ f.site = s'.rest.head?
  | .exhausted => True

/-- The parser leaves reports in order, wherever it starts. -/
def Ordered (tokens : List Token) (allowed : SyntaxCause → Prop) {α : Type} (p : Parser α) : Prop :=
  ∀ s : State, s.rest <:+ tokens → (p s).Ordered tokens allowed s

theorem Ordered.mono {allowed' : SyntaxCause → Prop} {p : Parser α} (h : Ordered tokens allowed p)
    (himp : ∀ c, allowed c → allowed' c) : Ordered tokens allowed' p := by
  intro s hs
  have hps := h s hs
  cases hv : p s with
  | exhausted => exact trivial
  | ok v s' =>
    rw [hv] at hps
    exact State.Passes.mono hps himp
  | fault f s' =>
    rw [hv] at hps
    exact ⟨hps.1.mono himp, hps.2⟩

theorem ordered_bind {β : Type} {p : Parser β} {k : β → Parser α} (hp : Ordered tokens allowed p)
    (hk : ∀ v, Ordered tokens allowed (k v)) : Ordered tokens allowed (p >>= k) := by
  intro s hs
  have hps := hp s hs
  rw [bind_apply]
  cases hv : p s with
  | exhausted => exact trivial
  | fault f s' =>
    rw [hv] at hps
    exact hps
  | ok v s' =>
    rw [hv] at hps
    have hks := hk v s' (hps.rest.trans hs)
    dsimp only
    cases hu : k v s' with
    | exhausted => exact trivial
    | fault f s'' =>
      rw [hu] at hks
      exact ⟨hps.trans hks.1, hks.2⟩
    | ok u s'' =>
      rw [hu] at hks
      exact hps.trans hks

theorem ordered_takeIf (test : Token → Bool) : Ordered tokens allowed (takeIf test) := by
  intro s _
  unfold takeIf
  split
  · exact .of_rest (List.suffix_refl _) rfl
  · next t rest hrest =>
    split
    · exact .of_rest ⟨[t], hrest.symm⟩ rfl
    · exact .of_rest (List.suffix_refl _) rfl

theorem ordered_closed :
    Parsing.Closed fun α (p _ : Parser α) => Ordered tokens allowed p where
  pure _ := fun _ _ => .of_rest (List.suffix_refl _) rfl
  bind := ordered_bind
  outOfFuel := fun _ _ => trivial
  fail _ := fun _ _ => ⟨.of_rest (List.suffix_refl _) rfl, rfl⟩
  build _ := fun _ _ => .of_rest (List.suffix_refl _) rfl
  nextIs _ := fun _ _ => .of_rest (List.suffix_refl _) rfl
  takeIf _ := ordered_takeIf _

theorem ordered_assignment {p q : Parser Expr} (hp : Ordered tokens (·.isPassing = true) p)
    (hq : Ordered tokens (·.isPassing = true) q) :
    Ordered tokens (·.isPassing = true) (Parsing.assignment p q) := by
  refine ordered_bind hp fun left s hs => ?_
  show Outcome.Ordered tokens _ s ((takeIf _ >>= _ : Parser Expr) s)
  rw [bind_apply, takeIf]
  cases hrest : s.rest with
  | nil => exact .of_rest (List.suffix_refl _) rfl
  | cons t rest =>
    by_cases ht : t.isSymbol .equal = true
    · simp only [ht, if_true]
      have htail : rest <:+ s.rest := ⟨[t], hrest.symm⟩
      have htaken : s.Passes tokens (·.isPassing = true) { s with rest } := .of_rest htail rfl
      have hvalue := hq { s with rest } (htail.trans hs)
      rw [bind_apply]
      cases hv : q { s with rest } with
      | exhausted => exact trivial
      | fault f s' =>
        rw [hv] at hvalue
        exact ⟨htaken.trans hvalue.1, hvalue.2⟩
      | ok value s' =>
        rw [hv] at hvalue
        have htarget := State.Passes.assignmentTarget hs hrest hvalue
        cases left with
        | read target => exact (htaken.trans hvalue).trans (.of_rest (List.suffix_refl _) rfl)
        | _ => exact htarget
    · simp only [ht]
      exact .of_rest (List.suffix_refl _) rfl

/-- Inside an expression reports are in order. -/
theorem ordered_expression (n : Nat) : Ordered tokens (·.isPassing = true) (expression n) :=
  Parsing.ClosedExpr.expression
    { ordered_closed, ordered_closed.sameFuel with
      tooManyArguments := fun _ hs => .report hs rfl rfl
      assignment := ordered_assignment } rfl

theorem recover_suffix (ts : List Token) : recover ts <:+ ts := by
  obtain ⟨skipped, hskipped⟩ := exists_recover ts
  exact ⟨skipped, hskipped.symm⟩

theorem ordered_recovering {p : Parser α} (hp : Ordered tokens (fun _ => True) p) :
    Ordered tokens (fun _ => True) (recovering p) := by
  intro s hs
  have hps := hp s hs
  rw [recovering]
  cases hv : p s with
  | exhausted => exact trivial
  | ok v s' =>
    rw [hv] at hps
    exact hps
  | fault f s' =>
    rw [hv] at hps
    refine (hps.1.trans (.report (hps.1.rest.trans hs) hps.2 trivial)).trans ?_
    exact .of_rest (recover_suffix s'.rest) rfl

/-- **A program leaves reports in order.** -/
theorem ordered_declarations (n : Nat) : Ordered tokens (fun _ => True) (declarations n) :=
  Parsing.ClosedStmt.declarations
    { ordered_closed, ordered_closed.sameFuel with
      takeAny := ordered_takeIf
      expression := fun {n _} _ => (ordered_expression n).mono fun _ _ => trivial
      newFunction := fun _ _ => .of_rest (List.suffix_refl _) rfl
      peek? := fun _ _ => .of_rest (List.suffix_refl _) rfl
      tooManyParameters := fun _ hs => .report hs rfl trivial
      declared := ordered_recovering } rfl

/-! ## Programs -/

/-- The error of a mark is that of its fault, where the end of the input is a token, too. -/
theorem Mark.error_eq {m : Mark} (hm : m.place ≤ tokens.length) (stop : Token) :
    (m.fault tokens).locate stop = m.error (tokens ++ [stop]) := by
  rw [Mark.fault, Fault.locate, Mark.error]
  rcases Nat.lt_or_eq_of_le hm with hlt | heq
  · rw [List.getElem?_append_left hlt, List.getElem?_eq_getElem hlt, Option.getD_some,
      Option.getD_some]
  · rw [List.getElem?_append_right (Nat.le_of_eq heq.symm), heq, Nat.sub_self,
      List.getElem?_eq_none (Nat.le_refl _)]
    rfl

/-- **The errors of a list of tokens are in order.** -/
theorem exists_marks {ts : List Token} {stop : Token} (hstop : splitAtEnd ts = (tokens, stop))
    (nodes functions : Nat) :
    ∃ marks : List Mark,
      (parse ts nodes functions).errors = marks.map (Mark.error (tokens ++ [stop])) ∧
      marks.Pairwise Mark.Precedes ∧ ∀ m ∈ marks, m.place ≤ tokens.length := by
  obtain ⟨slots, s, hread, -⟩ := declarations_fuelFor tokens nodes functions []
  have hall : Ordered tokens (fun _ => True) (declarations (fuelFor tokens)) :=
    ordered_declarations _
  have hordered := hall ⟨tokens, nodes, functions, []⟩ (List.suffix_refl _)
  rw [hread] at hordered
  obtain ⟨marks, hfaults, hmarks, hplaces⟩ := hordered.faults
  have hle : ∀ m ∈ marks, m.place ≤ tokens.length := fun m hm =>
    Nat.le_trans (hplaces m hm).2.1 (Nat.sub_le _ _)
  refine ⟨marks, ?_, hmarks, hle⟩
  have hparse : (parse ts nodes functions).errors = s.faults.map (Fault.locate stop) := by
    rw [parse, hstop]
    dsimp only
    rw [hread]
  rw [hparse, hfaults, List.nil_append, List.map_map]
  exact List.map_congr_left fun m hm => Mark.error_eq (hle m hm) stop

end Parse

/-- The lines of the tokens of a source never go back. -/
theorem scannedTokens_lines (source : String) :
    (scannedTokens (scan source)).Pairwise fun t t' => t.line ≤ t'.line := by
  have hitems : (scan source).Pairwise fun item item' => item.line ≤ item'.line := by
    refine List.pairwise_iff_getElem.mpr fun i j hi hj hlt => ?_
    exact Scanner.line_mono source (Nat.le_of_lt hlt) (List.getElem?_eq_getElem hi)
      (List.getElem?_eq_getElem hj)
  refine List.Pairwise.filterMap _ ?_ hitems
  intro item item' hle t ht t' ht'
  cases item with
  | error e => cases ht
  | ok u =>
    cases item' with
    | error e => cases ht'
    | ok u' =>
      cases ht
      cases ht'
      exact hle

namespace Parse

/-- Marks that stand in order are so by their lines. -/
theorem Mark.Precedes.lines {source : String} {m m' : Mark} (h : m.Precedes m')
    (hm : m.place < (scannedTokens (scan source)).length)
    (hm' : m'.place < (scannedTokens (scan source)).length) :
    (m.error (scannedTokens (scan source))).token.line ≤
        (m'.error (scannedTokens (scan source))).token.line ∨
      m'.cause = .assignmentTarget ∧ m.cause.isPassing = true := by
  refine h.imp_left fun hle => ?_
  rw [Mark.error, Mark.error, List.getElem?_eq_getElem hm, List.getElem?_eq_getElem hm',
    Option.getD_some, Option.getD_some]
  rcases Nat.lt_or_eq_of_le hle with hlt | heq
  · exact List.pairwise_iff_getElem.mp (scannedTokens_lines source) _ _ hm hm' hlt
  · simp only [heq, Nat.le_refl]

/--
**Errors come in the order of the source, but for those about assignments.** Each error is at a
token of the source, and none is at a token before that of an error that was reported earlier,
unless it says that an assignment has no proper target: then the earlier errors that are behind its
token did not end an expression, and are in the value that is assigned. The same goes for lines.
-/
theorem errors_in_order (source : String) (nodes functions : Nat) :
    let tokens := scannedTokens (scan source)
    let errors := (parse tokens nodes functions).errors
    (∃ marks : List Mark, errors = marks.map (Mark.error tokens) ∧
      (∀ m ∈ marks, m.place < tokens.length) ∧ marks.Pairwise Mark.Precedes) ∧
    errors.Pairwise fun e e' => e.token.line ≤ e'.token.line ∨
      e'.cause = .assignmentTarget ∧ e.cause.isPassing = true := by
  intro tokens errors
  obtain ⟨marks, herrors, hmarks, hplaces⟩ := exists_marks (splitAtEnd_scan source) nodes functions
  rw [← scannedTokens_scan] at herrors
  have hlt : ∀ m ∈ marks, m.place < tokens.length := by
    intro m hm
    have hlength : tokens.length = (sourceTokens source).length + 1 := by
      simp only [tokens, scannedTokens_scan, List.length_append, List.length_singleton]
    have hle := hplaces m hm
    omega
  refine ⟨⟨marks, herrors, hlt, hmarks⟩, ?_⟩
  have herrors' : errors = marks.map (Mark.error tokens) := herrors
  rw [herrors', List.pairwise_map]
  refine hmarks.imp_of_mem fun hm hm' h => ?_
  exact h.lines (hlt _ hm) (hlt _ hm')

/-- Of two assignments without a target the inner one, on a later line, is reported first. -/
theorem errors_inside_out :
    (parse (scannedTokens (scan "twue o/\ntwue o/\nnuww;")) 0 0).errors.map
      (fun e => (e.token.line, e.cause)) = [(2, .assignmentTarget), (1, .assignmentTarget)] := by
  decide +kernel

end Parse

end Nya
