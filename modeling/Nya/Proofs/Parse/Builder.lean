import Nya.Proofs.Parse.Closure
import Nya.Proofs.Parse.Outcome
import Nya.Proofs.Tree.Arena

/-!
# Parsing into an arena

The parser numbers the nodes of expressions as it builds them. A *builder* does the same and also
keeps every node in an arena, at the place of its number: the nodes of trees that are dropped later
are in the arena, too. Without its arena a builder reads as the parser does (`erases_declarations`).

`Grows` says that a builder keeps an arena in order: the roots that it is given are operands of new
nodes afterwards, roots again, or dropped. There is one rule for each way in which builders are put
together. That the grammar obeys them is shown in `Parse/Growth.lean`.
-/

namespace Nya.Parse

/-- A parser that keeps the nodes of the expressions it builds. -/
def Builder (α : Type) := State → List Node → Outcome α × List Node

namespace Builder

variable {α β : Type}

instance : Monad Builder where
  pure value := fun s arena => (.ok value s, arena)
  bind b k := fun s arena =>
    match b s arena with
    | (.ok value next, arena) => k value next arena
    | (.fault f next, arena) => (.fault f next, arena)
    | (.exhausted, arena) => (.exhausted, arena)

theorem bind_apply (b : Builder α) (k : α → Builder β) (s : State) (arena : List Node) :
    (b >>= k) s arena =
      match b s arena with
      | (.ok value next, arena) => k value next arena
      | (.fault f next, arena) => (.fault f next, arena)
      | (.exhausted, arena) => (.exhausted, arena) := rfl

/-- A parser that builds no nodes. -/
def lift (p : Parser α) : Builder α := fun s arena => (p s, arena)

/-- Builds an expression of the next number and keeps its node. -/
def build (make : Nat → Expr) : Builder Expr := fun s arena =>
  (.ok (make s.nodes) { s with nodes := s.nodes + 1 }, arena ++ [(make s.nodes).node])

/-- Records a fault of a declaration and skips to where reading goes on. The nodes stay. -/
def recovering (b : Builder α) : Builder (Option α) := fun s arena =>
  match b s arena with
  | (.ok value next, arena) => (.ok (some value) next, arena)
  | (.fault f next, arena) =>
    (.ok none { next with rest := recover next.rest, faults := next.faults ++ [f] }, arena)
  | (.exhausted, arena) => (.exhausted, arena)

instance : Parsing Builder where
  outOfFuel := lift outOfFuel
  fail cause := lift (fail cause)
  report token cause := lift (report ⟨some token, cause⟩)
  reportHere cause := lift (reportHere cause)
  build := build
  newFunction := lift newFunction
  peek? := lift peek?
  takeIf test := lift (takeIf test)
  declared := recovering

/-- The declarations up to the end of the input. -/
def declarations (n : Nat) : Builder (List (Option Stmt)) := Parsing.declarations n

/-- Parses a list of tokens into an arena. -/
def parse (tokens : List Token) (functions : Nat) (arena : List Node) : Parsed × List Node :=
  let (rest, stop) := splitAtEnd tokens
  match declarations (fuelFor rest) ⟨rest, arena.length, functions, []⟩ arena with
  | (.ok statements s, arena) =>
    (⟨statements, s.faults.map (Fault.locate stop), s.nodes, s.functions⟩, arena)
  | (.fault f s, arena) => (⟨[], [f.locate stop], s.nodes, s.functions⟩, arena)
  | (.exhausted, _) => (⟨[], [], arena.length, functions⟩, arena)

end Builder

/-! ## Without the arena -/

/-- The builder reads what the parser reads. -/
def Erases ⦃α : Type⦄ (b : Builder α) (p : Parser α) : Prop := ∀ s arena, (b s arena).1 = p s

/-- What follows reads as the parser does, from the same state. -/
theorem Erases.bind {α β : Type} {b : Builder β} {p : Parser β} {k : β → Builder α}
    {k' : β → Parser α} (h : Erases b p) (hk : ∀ v, Erases (k v) (k' v)) :
    Erases (b >>= k) (p >>= k') := by
  intro s arena
  rw [Builder.bind_apply, bind_apply, ← h s arena]
  rcases b s arena with ⟨_ | _ | _, arena'⟩
  · exact hk _ _ _
  · rfl
  · rfl

/-- Recovery does not look at the arena. -/
theorem Erases.recovering {α : Type} {b : Builder α} {p : Parser α} (h : Erases b p) :
    Erases (Builder.recovering b) (Parse.recovering p) := by
  intro s arena
  rw [Builder.recovering, Parse.recovering, ← h s arena]
  rcases b s arena with ⟨_ | _ | _, arena'⟩ <;> rfl

theorem erases_closed : Parsing.Closed Erases where
  pure _ := fun _ _ => rfl
  bind := Erases.bind
  outOfFuel := fun _ _ => rfl
  fail _ := fun _ _ => rfl
  build _ := fun _ _ => rfl
  nextIs _ := fun _ _ => rfl
  takeIf _ := fun _ _ => rfl

/-- Without its arena, the builder reads an expression as the parser does. -/
theorem erases_expression (n : Nat) : Erases (Parsing.expression n) (expression n) :=
  Parsing.ClosedExpr.expression
    { erases_closed, erases_closed.sameFuel with
      tooManyArguments := fun _ _ => rfl
      assignment := erases_closed.assignment fun _ _ _ => rfl } rfl

/-- **Without its arena, the builder for a program is the parser.** -/
theorem erases_declarations (n : Nat) : Erases (Builder.declarations n) (declarations n) :=
  Parsing.ClosedStmt.declarations
    { erases_closed, erases_closed.sameFuel with
      takeAny := fun _ _ _ => rfl
      expression := fun {n _} hk => hk ▸ erases_expression n
      newFunction := fun _ _ => rfl
      peek? := fun _ _ => rfl
      tooManyParameters := fun _ _ => rfl
      declared := Erases.recovering } rfl

/-! ## Rules -/

/-- What a builder makes of an arena, with the roots that are left in each case. -/
def Grown {α : Type} (lo : Nat) (arena : List Node) (roots : α → List Expr) (left : List Expr) :
    Outcome α × List Node → Prop
  | (.ok v s, arena') => arena <+: arena' ∧ s.nodes = arena'.length ∧ Sprout lo arena' (roots v)
  | (.fault _ s, arena') => arena <+: arena' ∧ s.nodes = arena'.length ∧ Sprout lo arena' left
  | (.exhausted, _) => True

/-- An arena that has grown from a later one has grown from an earlier one. -/
theorem Grown.mono {α : Type} {lo : Nat} {arena arena' : List Node} {roots : α → List Expr}
    {left : List Expr} {result : Outcome α × List Node} (h : Grown lo arena' roots left result)
    (hle : arena <+: arena') : Grown lo arena roots left result := by
  rcases result with ⟨_ | _ | _, arena''⟩
  · exact ⟨hle.trans h.1, h.2⟩
  · exact ⟨hle.trans h.1, h.2⟩
  · trivial

/--
If the builder is given some of the roots, then those of its result take their place; all other
roots stay.
-/
def Grows {α : Type} (given : List Expr) (roots : α → List Expr) (b : Builder α) : Prop :=
  ∀ lo others s arena, s.nodes = arena.length → Sprout lo arena (given ++ others) →
    Grown lo arena (fun v => roots v ++ others) others (b s arena)

/-- A builder that leaves the arena and the numbers for nodes alone, and what is known of its
result. -/
def Silent {α : Type} (known : α → Prop) (b : Builder α) : Prop :=
  ∀ s arena, (b s arena).2 = arena ∧
    (b s arena).1.Meets (fun v s' => known v ∧ s'.nodes = s.nodes) (fun s' => s'.nodes = s.nodes)
      True

section

variable {α β : Type} {given : List Expr} {roots : α → List Expr} {b : Builder α}

/-- Fewer roots than there are may be asked for. -/
theorem Grows.of_subperm (h : Grows given roots b) {given' : List Expr}
    (hle : given.Subperm given') : Grows given' roots b := by
  intro lo others s arena hs hsprout
  exact h lo others s arena hs (hsprout.subperm ((List.subperm_append_right others).mpr hle))

/-- A value may keep some of the roots and drop the others. -/
theorem grows_pure (v : α) (h : (roots v).Subperm given) :
    Grows given roots (pure v) := by
  intro _ others _ _ hs hsprout
  exact ⟨List.prefix_rfl, hs, hsprout.subperm ((List.subperm_append_right others).mpr h)⟩

theorem grows_outOfFuel : Grows given roots (Parsing.outOfFuel) := fun _ _ _ _ _ _ => trivial

/-- A fault drops the roots that were given. -/
theorem grows_fail (cause : SyntaxCause) : Grows given roots (Parsing.fail cause) := by
  intro _ others _ _ hs hsprout
  exact ⟨List.prefix_rfl, hs, hsprout.subperm (List.sublist_append_right given others).subperm⟩

/-- In a sequence, what the first part does not need is there for the second part. -/
theorem Grows.bind {given' : List Expr} {roots' : β → List Expr} {k : α → Builder β}
    (h : Grows given roots b) (kept : List Expr) (hle : (given ++ kept).Subperm given')
    (hk : ∀ v, Grows (roots v ++ kept) roots' (k v)) : Grows given' roots' (b >>= k) := by
  intro lo others s arena hs hsprout
  have hgiven := hsprout.subperm ((List.subperm_append_right others).mpr hle)
  rw [List.append_assoc] at hgiven
  have hfirst := h lo (kept ++ others) s arena hs hgiven
  rw [Builder.bind_apply]
  generalize b s arena = result at hfirst ⊢
  rcases result with ⟨⟨v, s'⟩ | ⟨f, s'⟩ | _, arena'⟩
  · obtain ⟨hle, hs', hsprout'⟩ := hfirst
    refine (hk v lo others s' arena' hs' ?_).mono hle
    rw [List.append_assoc]
    exact hsprout'
  · obtain ⟨hle, hs', hsprout'⟩ := hfirst
    exact ⟨hle, hs', hsprout'.subperm (List.sublist_append_right kept others).subperm⟩
  · trivial

/-- A part that needs no roots leaves all of them for the rest. -/
theorem Grows.next {roots' : β → List Expr} {k : α → Builder β} (h : Grows [] roots b)
    (hk : ∀ v, Grows (roots v ++ given) roots' (k v)) : Grows given roots' (b >>= k) :=
  h.bind given (.refl _) hk

/-- A silent builder needs no roots. -/
theorem Silent.grows {known : α → Prop} {roots' : β → List Expr} {k : α → Builder β}
    (h : Silent known b) (hk : ∀ v, known v → Grows given roots' (k v)) :
    Grows given roots' (b >>= k) := by
  intro lo others s arena hs hsprout
  obtain ⟨harena, hmeets⟩ := h s arena
  rw [Builder.bind_apply]
  generalize b s arena = result at harena hmeets ⊢
  obtain ⟨outcome, arena'⟩ := result
  obtain rfl : arena' = arena := harena
  cases outcome with
  | ok v s' => exact hk v hmeets.1 lo others s' arena' (hmeets.2.trans hs) hsprout
  | fault f s' =>
    exact ⟨List.prefix_rfl, Eq.trans hmeets hs,
      hsprout.subperm (List.sublist_append_right given others).subperm⟩
  | exhausted => trivial

/-- A new node takes its operands from the roots. -/
theorem grows_build (make : Nat → Expr) {parts : List Expr} (hid : ∀ i, (make i).id = i)
    (hparts : ∀ i, (make i).parts = parts) (hapt : ∀ i, (make i).node.Apt) :
    Grows parts (fun e => [e]) (Parsing.build make) := by
  intro lo others s arena hs hsprout
  refine ⟨List.prefix_append _ _, ?_, ?_⟩
  · show s.nodes + 1 = (arena ++ [(make s.nodes).node]).length
    rw [List.length_append, hs, List.length_singleton]
  · rw [← hparts s.nodes] at hsprout
    exact hsprout.add ((hid s.nodes).trans hs) (hapt s.nodes)

/-- The result may have fewer roots than what it was made of. -/
theorem Grows.map {roots' : β → List Expr} (h : Grows given roots b) (f : α → β)
    (hle : ∀ v, (roots' (f v)).Subperm (roots v)) :
    Grows given roots' (do return f (← b)) := by
  have hgiven : (given ++ []).Perm given := .of_eq (List.append_nil given)
  exact h.bind [] hgiven.subperm fun v => grows_pure (f v) (by simpa using hle v)

/-- A declaration that fails has no roots, but its nodes stay in the arena. -/
theorem Grows.declared (h : Grows given roots b) :
    Grows given (fun v => v.elim [] roots) (Parsing.declared b) := by
  intro lo others s arena hs hsprout
  have hresult := h lo others s arena hs hsprout
  show Grown lo arena _ others (Builder.recovering b s arena)
  rw [Builder.recovering]
  generalize b s arena = result at hresult ⊢
  rcases result with ⟨_ | _ | _, arena'⟩ <;> exact hresult

end

/-! ## Silent builders -/

section

variable {α β : Type}

/-- What follows a silent builder may use what is known of its result. -/
theorem Silent.bind {known : α → Prop} {known' : β → Prop} {b : Builder α} {k : α → Builder β}
    (h : Silent known b) (hk : ∀ v, known v → Silent known' (k v)) : Silent known' (b >>= k) := by
  intro s arena
  obtain ⟨harena, hmeets⟩ := h s arena
  rw [Builder.bind_apply]
  generalize b s arena = result at harena hmeets ⊢
  obtain ⟨outcome, arena'⟩ := result
  obtain rfl : arena' = arena := harena
  cases outcome with
  | ok v s' =>
    obtain ⟨hv, hs'⟩ := hmeets
    obtain ⟨harena, hmeets⟩ := hk v hv s' arena'
    refine ⟨harena, hmeets.mono ?_ ?_ id⟩
    · exact fun u s'' hu => ⟨hu.1, hu.2.trans hs'⟩
    · exact fun s'' hs'' => hs''.trans hs'
  | fault f s' => exact ⟨rfl, hmeets⟩
  | exhausted => exact ⟨rfl, trivial⟩

theorem silent_pure {known : α → Prop} {v : α} (h : known v) :
    Silent known (pure v) :=
  fun _ _ => ⟨rfl, h, rfl⟩

theorem silent_fail {known : α → Prop} (cause : SyntaxCause) :
    Silent known (Parsing.fail cause) :=
  fun _ _ => ⟨rfl, rfl⟩

/-- A token that was taken passes the test. -/
theorem silent_takeIf (test : Token → Bool) :
    Silent (fun found => ∀ t, found = some t → test t = true) (Parsing.takeIf test) := by
  intro s arena
  refine ⟨rfl, ?_⟩
  show (Parse.takeIf test s).Meets _ _ _
  rw [Parse.takeIf]
  cases s.rest with
  | nil => simp [Outcome.Meets]
  | cons t rest => cases ht : test t <;> simp [Outcome.Meets, ht]

theorem silent_expect (symbol : Symbol) (cause : SyntaxCause) :
    Silent (fun _ => True) (Parsing.expect symbol cause) := by
  refine (silent_takeIf _).bind ?_
  intro found _
  cases found with
  | none => exact silent_fail cause
  | some t => exact silent_pure trivial

theorem silent_expectName (cause : SyntaxCause) :
    Silent (fun _ => True) (Parsing.expectName cause) := by
  refine (silent_takeIf _).bind ?_
  intro found _
  cases found with
  | none => exact silent_fail cause
  | some t => exact silent_pure trivial

theorem silent_nextIs (symbol : Symbol) : Silent (fun _ => True) (Parsing.nextIs symbol) :=
  fun _ _ => ⟨rfl, trivial, rfl⟩

theorem silent_peek? : Silent (fun _ => True) (Parsing.peek?) :=
  fun _ _ => ⟨rfl, trivial, rfl⟩

theorem silent_report (t : Token) (cause : SyntaxCause) :
    Silent (fun _ => True) (Parsing.report t cause) :=
  fun _ _ => ⟨rfl, trivial, rfl⟩

/-- Functions have numbers of their own, apart from those of the nodes. -/
theorem silent_newFunction : Silent (fun _ => True) (Parsing.newFunction) :=
  fun _ _ => ⟨rfl, trivial, rfl⟩

theorem silent_limit (count : Nat) (cause : SyntaxCause) :
    Silent (fun _ => True) (Parsing.limit count cause) := by
  unfold Parsing.limit
  split
  · exact fun _ _ => ⟨rfl, trivial, rfl⟩
  · exact silent_pure trivial

/-- Parameters are names, and no nodes. -/
theorem silent_parameters (n count : Nat) :
    Silent (fun _ => True) (Parsing.parameters n count) := by
  induction n generalizing count with
  | zero => exact fun _ _ => ⟨rfl, trivial⟩
  | succ n ih =>
    rw [Parsing.parameters]
    refine (silent_limit count _).bind fun _ _ => (silent_expectName _).bind fun first _ => ?_
    refine (silent_takeIf _).bind fun comma _ => ?_
    cases comma with
    | none => exact silent_pure trivial
    | some t => exact (ih (count + 1)).bind fun _ _ => silent_pure trivial

theorem silent_parameterList (n : Nat) :
    Silent (fun _ => True) (Parsing.listBefore .rightParen (Parsing.parameters n 0)) := by
  refine (silent_nextIs _).bind fun close _ => ?_
  cases close with
  | true => exact silent_pure trivial
  | false => exact silent_parameters n 0

/-- A list that is left out has no roots. -/
theorem grows_listBefore {items : Builder (List Expr)} (stop : Symbol)
    (h : Grows [] (fun es => es) items) :
    Grows [] (fun es => es) (Parsing.listBefore stop items) := by
  refine (silent_nextIs stop).grows fun found _ => ?_
  cases found with
  | true => exact grows_pure [] (.refl _)
  | false => exact h

end

end Nya.Parse
