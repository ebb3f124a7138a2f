import Nya.Proofs.Parse.Outcome

/-!
# Progress and fuel

Every rule of the grammar takes a token before it succeeds, and none puts a token back. Between two
tokens the calls go down the levels once, so sixteen units of fuel for each token are enough:
reading the declarations of a program ends at the end of the input.
-/

namespace Nya.Parse

/--
At least `least` of `length` tokens were taken, or a fault put none back; the fuel is used up only
if `out`.
-/
def Outcome.Takes {α : Type} (least length : Nat) (out : Prop) (o : Outcome α) : Prop :=
  o.Meets (fun _ s => s.rest.length + least ≤ length) (fun s => s.rest.length ≤ length) out

variable {α β : Type} {least length : Nat} {out : Prop} {s : State}

/-! ## Small parsers -/

/-- A value takes nothing more than was taken before it. -/
theorem takes_pure {v : α} (h : s.rest.length + least ≤ length) :
    ((pure v : Parser α) s).Takes least length out :=
  h

/-- The bounds may be loosened, on what is taken and on what there is. -/
theorem Outcome.Takes.widen {o : Outcome α} {least₁ length₁ : Nat} {out₁ : Prop}
    (h : o.Takes least₁ length₁ out₁) (hle : length₁ ≤ length)
    (hleast : length₁ + least ≤ length + least₁) (hout : out₁ → out) :
    o.Takes least length out := by
  refine Outcome.Meets.mono h ?_ (fun _ h' => Nat.le_trans h' hle) hout
  intro _ s hs
  omega

/-- The second part of a sequence takes what the first one did not. -/
theorem Outcome.Takes.seq {p : Parser β} {k : β → Parser α} {least₁ : Nat} {out₁ : Prop}
    (h : (p s).Takes least₁ s.rest.length out₁) (hle : s.rest.length ≤ length) (hout : out₁ → out)
    (hk : ∀ v s', s'.rest.length + least₁ ≤ s.rest.length → (k v s').Takes least length out) :
    ((p >>= k) s).Takes least length out :=
  Outcome.Meets.seq h (fun _ h' => Nat.le_trans h' hle) hout hk

/-- A token that is taken leaves one less for what follows. -/
theorem takes_takeIf {test : Token → Bool} {k : Option Token → Parser α}
    (hnone : (k none s).Takes least length out)
    (hsome : ∀ t s', s'.rest.length + 1 = s.rest.length →
      (k (some t) s').Takes least length out) :
    ((takeIf test >>= k) s).Takes least length out := by
  refine meets_takeIf hnone ?_
  intro t rest hr _
  exact hsome t _ (congrArg List.length hr).symm

/-- A symbol that is expected is a token taken, or a fault. -/
theorem takes_expect {symbol : Symbol} {cause : SyntaxCause} {k : Token → Parser α}
    (hle : s.rest.length ≤ length)
    (hk : ∀ t s', s'.rest.length + 1 = s.rest.length → (k t s').Takes least length out) :
    ((expect symbol cause >>= k) s).Takes least length out := by
  refine meets_expect hle ?_
  intro t rest hr _
  exact hk t _ (congrArg List.length hr).symm

theorem takes_expectName {cause : SyntaxCause} {k : Token → Parser α} (hle : s.rest.length ≤ length)
    (hk : ∀ t s', s'.rest.length + 1 = s.rest.length → (k t s').Takes least length out) :
    ((expectName cause >>= k) s).Takes least length out := by
  refine meets_expectName hle ?_
  intro t rest hr _
  exact hk t _ (congrArg List.length hr).symm

theorem takes_nextIs {symbol : Symbol} {k : Bool → Parser α}
    (h : ∀ b, (k b s).Takes least length out) :
    ((nextIs symbol >>= k) s).Takes least length out :=
  meets_nextIs h

/-- A limit takes nothing, and cannot run out of fuel. -/
theorem limit_takes (count : Nat) (cause : SyntaxCause) (s : State) :
    (limit count cause s).Takes 0 s.rest.length False := by
  rw [limit_eq]
  split
  · exact Nat.le_refl _
  · exact Nat.le_refl _

/-- A list may be empty, whatever its items take. -/
theorem listBefore_takes {items : Parser (List α)} {stop : Symbol}
    (h : (items s).Takes 1 s.rest.length out) :
    (Parsing.listBefore stop items s).Takes 0 s.rest.length out :=
  meets_listBefore (Nat.le_refl _) (h.widen (Nat.le_refl _) (by omega) id)

theorem newNode_takes (s : State) : (newNode s).Takes 0 s.rest.length False := Nat.le_refl _

theorem newFunction_takes (s : State) : (newFunction s).Takes 0 s.rest.length False :=
  Nat.le_refl _

/-! ## Expressions -/

mutual

/-- An expression takes a token at least. It runs out of fuel only below sixteen for each token left
and eleven for the levels that it goes down through. -/
theorem expression_takes : ∀ (n : Nat) (s : State),
    (expression n s).Takes 1 s.rest.length (n < 16 * s.rest.length + 11)
  | 0, _ => Nat.succ_pos _
  | n + 1, s => by
    rw [expression_succ]
    refine (level_takes n levels s (Nat.le_refl _)).seq (Nat.le_refl _) Nat.succ_lt_succ ?_
    intro left s₁ h₁
    refine takes_takeIf (takes_pure h₁) ?_
    intro equals s₂ h₂
    refine (expression_takes n s₂).seq (by omega) (by omega) ?_
    intro value s₃ h₃
    have h : s₃.rest.length + 1 ≤ s.rest.length := by omega
    cases left with
    | read target => exact h
    | _ => exact h

/-- Each level on the way down costs one unit of fuel. -/
theorem level_takes : ∀ (n : Nat) (ls : List Level) (s : State), ls.length ≤ levels.length →
    (level n ls s).Takes 1 s.rest.length (n < 16 * s.rest.length + 3 + ls.length)
  | 0, _, _, _ => by
    show 0 < _
    omega
  | n + 1, [], s, _ => by
    rw [level_nil]
    exact (unary_takes n s).widen (Nat.le_refl _) (Nat.le_refl _) Nat.succ_lt_succ
  | n + 1, l :: tighter, s, hlevels => by
    rw [level_cons]
    have htighter : tighter.length ≤ levels.length := Nat.le_of_succ_le hlevels
    refine (level_takes n tighter s htighter).seq (Nat.le_refl _) Nat.succ_lt_succ ?_
    intro left s₁ h₁
    exact (chain_takes n l tighter left s₁ htighter).widen (by omega) (by omega) (by omega)

/-- A chain may take nothing, as its first operand is read before it. -/
theorem chain_takes : ∀ (n : Nat) (l : Level) (tighter : List Level) (left : Expr) (s : State),
    tighter.length ≤ levels.length →
    (chain n l tighter left s).Takes 0 s.rest.length (n < 16 * s.rest.length + 1)
  | 0, _, _, _, _, _ => Nat.succ_pos _
  | n + 1, l, tighter, left, s, htighter => by
    have hlevels : levels.length = 7 := rfl
    rw [chain_succ]
    refine takes_takeIf (takes_pure (Nat.le_refl _)) ?_
    intro operator s₁ h₁
    -- A token was taken, so there is fuel for all the levels again.
    refine (level_takes n tighter s₁ htighter).seq (by omega) (by omega) ?_
    intro right s₂ h₂
    refine (newNode_takes s₂).seq (by omega) False.elim ?_
    intro id s₃ h₃
    exact (chain_takes n l tighter _ s₃ htighter).widen (by omega) (by omega) (by omega)

theorem unary_takes : ∀ (n : Nat) (s : State),
    (unary n s).Takes 1 s.rest.length (n < 16 * s.rest.length + 2)
  | 0, _ => Nat.succ_pos _
  | n + 1, s => by
    rw [unary_succ]
    refine takes_takeIf ?_ ?_
    · refine (primary_takes n s).seq (Nat.le_refl _) Nat.succ_lt_succ ?_
      intro callee s₁ h₁
      exact (calls_takes n callee s₁).widen (by omega) (by omega) (by omega)
    · intro operator s₁ h₁
      refine (unary_takes n s₁).seq (by omega) (by omega) ?_
      intro right s₂ h₂
      show s₂.rest.length + 1 ≤ s.rest.length
      omega

/-- A callee may be called no time at all. -/
theorem calls_takes : ∀ (n : Nat) (callee : Expr) (s : State),
    (calls n callee s).Takes 0 s.rest.length (n < 16 * s.rest.length + 1)
  | 0, _, _ => Nat.succ_pos _
  | n + 1, callee, s => by
    rw [calls_succ]
    refine takes_takeIf (takes_pure (Nat.le_refl _)) ?_
    intro paren s₁ h₁
    refine (listBefore_takes (arguments_takes n 0 s₁)).seq (by omega) (by omega) ?_
    intro args s₂ h₂
    refine takes_expect (by omega) ?_
    intro close s₃ h₃
    refine (newNode_takes s₃).seq (by omega) False.elim ?_
    intro id s₄ h₄
    exact (calls_takes n _ s₄).widen (by omega) (by omega) (by omega)

theorem arguments_takes : ∀ (n count : Nat) (s : State),
    (arguments n count s).Takes 1 s.rest.length (n < 16 * s.rest.length + 12)
  | 0, _, _ => Nat.succ_pos _
  | n + 1, count, s => by
    rw [arguments_succ]
    refine (limit_takes count _ s).seq (Nat.le_refl _) False.elim ?_
    intro _ s₁ h₁
    refine (expression_takes n s₁).seq h₁ (by omega) ?_
    intro first s₂ h₂
    refine takes_takeIf (takes_pure (by omega)) ?_
    intro comma s₃ h₃
    refine (arguments_takes n (count + 1) s₃).seq (by omega) (by omega) ?_
    intro others s₄ h₄
    exact takes_pure (by omega)

/-- A primary takes a token in any case, and comes back to expressions only behind a parenthesis. -/
theorem primary_takes : ∀ (n : Nat) (s : State),
    (primary n s).Takes 1 s.rest.length (n < 16 * s.rest.length + 1)
  | 0, _ => Nat.succ_pos _
  | n + 1, s => by
    rw [primary_succ]
    refine takes_takeIf (takes_takeIf (takes_takeIf (Nat.le_refl _) ?_) ?_) ?_
    · intro paren s₁ h₁
      refine (expression_takes n s₁).seq (by omega) (by omega) ?_
      intro inner s₂ h₂
      refine takes_expect (by omega) ?_
      intro close s₃ h₃
      show s₃.rest.length + 1 ≤ s.rest.length
      omega
    · intro name s₁ h₁
      exact Nat.le_of_eq h₁
    · intro literal s₁ h₁
      exact Nat.le_of_eq h₁

end

/-! ## Statements -/

theorem terminated_takes (n : Nat) (cause : SyntaxCause) (s : State) :
    (terminated n cause s).Takes 1 s.rest.length (n < 16 * s.rest.length + 11) := by
  refine (expression_takes n s).seq (Nat.le_refl _) id ?_
  intro e s₁ h₁
  refine takes_expect (by omega) ?_
  intro close s₂ h₂
  exact takes_pure (by omega)

/-- An optional expression may take nothing. -/
theorem expressionUnless_takes (n : Nat) (stop : Symbol) (s : State) :
    (expressionUnless n stop s).Takes 0 s.rest.length (n < 16 * s.rest.length + 11) := by
  refine takes_nextIs ?_
  intro b
  cases b with
  | true => exact takes_pure (Nat.le_refl _)
  | false =>
    refine (expression_takes n s).seq (Nat.le_refl _) id ?_
    intro e s₁ h₁
    exact takes_pure (by omega)

theorem initialValue_takes (n : Nat) (s : State) :
    (initialValue n s).Takes 0 s.rest.length (n < 16 * s.rest.length) := by
  refine takes_takeIf (takes_pure (Nat.le_refl _)) ?_
  intro equals s₁ h₁
  refine (expression_takes n s₁).seq (by omega) (by omega) ?_
  intro e s₂ h₂
  exact takes_pure (by omega)

/-- A declaration takes its name at least, so that what follows has less to read. -/
theorem variableDecl_takes (n : Nat) (s : State) :
    (variableDecl n s).Takes 1 s.rest.length (n < 16 * s.rest.length) := by
  rw [variableDecl_eq]
  refine takes_expectName (Nat.le_refl _) ?_
  intro name s₁ h₁
  refine (initialValue_takes n s₁).seq (by omega) (by omega) ?_
  intro init s₂ h₂
  refine takes_expect (by omega) ?_
  intro close s₃ h₃
  exact takes_pure (by omega)

/-- Each parameter takes its name and comes at the cost of one unit of fuel. -/
theorem parameters_takes : ∀ (n count : Nat) (s : State),
    (parameters n count s).Takes 1 s.rest.length (n < 16 * s.rest.length + 1)
  | 0, _, _ => Nat.succ_pos _
  | n + 1, count, s => by
    rw [parameters_succ]
    refine (limit_takes count _ s).seq (Nat.le_refl _) False.elim ?_
    intro _ s₁ h₁
    refine takes_expectName h₁ ?_
    intro first s₂ h₂
    refine takes_takeIf (takes_pure (by omega)) ?_
    intro comma s₃ h₃
    refine (parameters_takes n (count + 1) s₃).seq (by omega) (by omega) ?_
    intro others s₄ h₄
    exact takes_pure (by omega)

theorem initializer_takes (n : Nat) (s : State) :
    (initializer n s).Takes 1 s.rest.length (n < 16 * s.rest.length + 11) := by
  refine takes_takeIf (takes_takeIf ?_ ?_) ?_
  · refine (terminated_takes n _ s).seq (Nat.le_refl _) id ?_
    intro e s₁ h₁
    exact takes_pure h₁
  · intro var s₁ h₁
    refine (variableDecl_takes n s₁).seq (by omega) (by omega) ?_
    intro decl s₂ h₂
    exact takes_pure (by omega)
  · intro close s₁ h₁
    exact takes_pure (Nat.le_of_eq h₁)

/-- A condition that is left out takes nothing and needs no fuel. -/
theorem conditionOr_takes (condition : Option Expr) (s : State) :
    (conditionOr condition s).Takes 0 s.rest.length False := by
  cases condition with
  | some condition => exact Nat.le_refl _
  | none => exact Nat.le_refl _

/-! ## Recovery -/

/-- Skipping never makes the tokens more. -/
theorem skip_length_le : ∀ (last : Token) (ts : List Token), (skip last ts).length ≤ ts.length
  | _, [] => Nat.le_refl _
  | last, t :: ts => by
    rw [skip]
    split
    · exact Nat.le_refl _
    · exact Nat.le_succ_of_le (skip_length_le t ts)

/-- Recovery drops at least one token if there is one, which is why the loop around it ends. -/
theorem recover_length_le (ts : List Token) : (recover ts).length ≤ ts.length - 1 := by
  cases ts with
  | nil => exact Nat.le_refl _
  | cons t ts => exact skip_length_le t ts

/-- Recovery goes on behind the faulty token. -/
theorem recovering_takes {p : Parser α} (h : (p s).Takes 1 s.rest.length out) (hs : s.rest ≠ []) :
    (recovering p s).Meets (fun _ s' => s'.rest.length + 1 ≤ s.rest.length) (fun _ => False)
      out := by
  refine meets_recovering h ?_
  intro s' f h'
  have hrecover := recover_length_le s'.rest
  have hpos := List.length_pos_iff.mpr hs
  show (recover s'.rest).length + 1 ≤ s.rest.length
  omega

/-! ## Declarations -/

mutual

theorem declaration_takes : ∀ (n : Nat) (s : State),
    (declaration n s).Takes 1 s.rest.length (n < 16 * s.rest.length + 13)
  | 0, _ => Nat.succ_pos _
  | n + 1, s => by
    rw [declaration_succ]
    refine takes_takeIf (takes_takeIf ?_ ?_) ?_
    · exact (statement_takes n s).widen (Nat.le_refl _) (Nat.le_refl _) Nat.succ_lt_succ
    · intro var s₁ h₁
      exact (variableDecl_takes n s₁).widen (by omega) (by omega) (by omega)
    · intro function s₁ h₁
      exact (functionDecl_takes n s₁).widen (by omega) (by omega) (by omega)

theorem functionDecl_takes : ∀ (n : Nat) (s : State),
    (functionDecl n s).Takes 1 s.rest.length (n < 16 * s.rest.length + 1)
  | 0, _ => Nat.succ_pos _
  | n + 1, s => by
    rw [functionDecl_succ]
    refine takes_expectName (Nat.le_refl _) ?_
    intro name s₁ h₁
    refine takes_expect (by omega) ?_
    intro paren s₂ h₂
    refine (listBefore_takes (parameters_takes n 0 s₂)).seq (by omega) (by omega) ?_
    intro params s₃ h₃
    refine takes_expect (by omega) ?_
    intro close s₄ h₄
    refine takes_expect (by omega) ?_
    intro start s₅ h₅
    refine (block_takes n s₅).seq (by omega) (by omega) ?_
    intro body s₆ h₆
    refine (newFunction_takes s₆).seq (by omega) False.elim ?_
    intro id s₇ h₇
    exact takes_pure (by omega)

theorem statement_takes : ∀ (n : Nat) (s : State),
    (statement n s).Takes 1 s.rest.length (n < 16 * s.rest.length + 12)
  | 0, _ => Nat.succ_pos _
  | n + 1, s => by
    rw [statement_succ]
    refine takes_takeIf ?_ ?_
    · refine (terminated_takes n _ s).seq (Nat.le_refl _) Nat.succ_lt_succ ?_
      intro e s₁ h₁
      exact takes_pure h₁
    · intro t s₁ h₁
      -- what is told by a token is behind it, so there is fuel for declarations again
      refine statementFrom_cases
        (motive := fun p => (p s₁).Takes 1 s.rest.length (n + 1 < 16 * s.rest.length + 12)) n t
        ?_ ?_ ?_ ?_ ?_ ?_
      · exact (forLoop_takes n s₁).widen (by omega) (by omega) (by omega)
      · exact (branch_takes n s₁).widen (by omega) (by omega) (by omega)
      · refine (terminated_takes n _ s₁).seq (by omega) (by omega) ?_
        intro e s₂ h₂
        exact takes_pure (by omega)
      · refine (expressionUnless_takes n _ s₁).seq (by omega) (by omega) ?_
        intro value s₂ h₂
        refine takes_expect (by omega) ?_
        intro close s₃ h₃
        exact takes_pure (by omega)
      · exact (whileLoop_takes n s₁).widen (by omega) (by omega) (by omega)
      · refine (block_takes n s₁).seq (by omega) (by omega) ?_
        intro body s₂ h₂
        exact takes_pure (by omega)

/-- A `^o^` loop takes its parenthesis before it needs the fuel of any part. -/
theorem forLoop_takes : ∀ (n : Nat) (s : State),
    (forLoop n s).Takes 1 s.rest.length (n < 16 * s.rest.length + 1)
  | 0, _ => Nat.succ_pos _
  | n + 1, s => by
    rw [forLoop_succ]
    refine takes_expect (Nat.le_refl _) ?_
    intro paren s₁ h₁
    refine (initializer_takes n s₁).seq (by omega) (by omega) ?_
    intro init s₂ h₂
    refine (expressionUnless_takes n _ s₂).seq (by omega) (by omega) ?_
    intro condition s₃ h₃
    refine takes_expect (by omega) ?_
    intro semicolon s₄ h₄
    refine (expressionUnless_takes n _ s₄).seq (by omega) (by omega) ?_
    intro increment s₅ h₅
    refine takes_expect (by omega) ?_
    intro close s₆ h₆
    refine (statement_takes n s₆).seq (by omega) (by omega) ?_
    intro body s₇ h₇
    refine (conditionOr_takes condition s₇).seq (by omega) False.elim ?_
    intro condition' s₈ h₈
    exact takes_pure (by omega)

theorem branch_takes : ∀ (n : Nat) (s : State),
    (branch n s).Takes 1 s.rest.length (n < 16 * s.rest.length + 1)
  | 0, _ => Nat.succ_pos _
  | n + 1, s => by
    rw [branch_succ]
    refine takes_expect (Nat.le_refl _) ?_
    intro paren s₁ h₁
    refine (expression_takes n s₁).seq (by omega) (by omega) ?_
    intro condition s₂ h₂
    refine takes_expect (by omega) ?_
    intro close s₃ h₃
    refine (statement_takes n s₃).seq (by omega) (by omega) ?_
    intro thenBranch s₄ h₄
    refine takes_takeIf (takes_pure (by omega)) ?_
    intro otherwise s₅ h₅
    refine (statement_takes n s₅).seq (by omega) (by omega) ?_
    intro elseBranch s₆ h₆
    exact takes_pure (by omega)

theorem whileLoop_takes : ∀ (n : Nat) (s : State),
    (whileLoop n s).Takes 1 s.rest.length (n < 16 * s.rest.length + 1)
  | 0, _ => Nat.succ_pos _
  | n + 1, s => by
    rw [whileLoop_succ]
    refine takes_expect (Nat.le_refl _) ?_
    intro paren s₁ h₁
    refine (expression_takes n s₁).seq (by omega) (by omega) ?_
    intro condition s₂ h₂
    refine takes_expect (by omega) ?_
    intro close s₃ h₃
    refine (statement_takes n s₃).seq (by omega) (by omega) ?_
    intro body s₄ h₄
    exact takes_pure (by omega)

/-- A block takes a brace at least, and each turn in it takes a token or ends. -/
theorem block_takes : ∀ (n : Nat) (s : State),
    (block n s).Takes 1 s.rest.length (n < 16 * s.rest.length + 14)
  | 0, _ => Nat.succ_pos _
  | n + 1, s => by
    rw [block_succ]
    refine meets_peek? ?_ ?_
    · intro _
      exact Nat.le_refl _
    · intro t rest hs
      have hne : s.rest ≠ [] := by simp [hs]
      dsimp only
      split
      · refine takes_expect (Nat.le_refl _) ?_
        intro close s₁ h₁
        exact takes_pure (Nat.le_of_eq h₁)
      · refine (recovering_takes (declaration_takes n s) hne).seq (fun _ h => h.elim)
          Nat.succ_lt_succ ?_
        intro first s₁ h₁
        refine (block_takes n s₁).seq (by omega) (by omega) ?_
        intro others s₂ h₂
        exact takes_pure (by omega)

end

/-- **Reading the declarations of a program ends at the end of the input.** -/
theorem declarations_end : ∀ (n : Nat) (s : State),
    (declarations n s).Meets (fun _ s' => s'.rest = []) (fun _ => False)
      (n < 16 * s.rest.length + 14)
  | 0, _ => Nat.succ_pos _
  | n + 1, s => by
    rw [declarations_succ]
    refine meets_peek? (fun hs => hs) ?_
    intro t rest hs
    have hne : s.rest ≠ [] := by simp [hs]
    refine (recovering_takes (declaration_takes n s) hne).seq (fun _ h => h) Nat.succ_lt_succ ?_
    intro first s₁ h₁
    refine (declarations_end n s₁).seq (fun _ h => h) (by omega) ?_
    intro others s₂ h₂
    exact h₂

/-- The fuel that a source is given is enough to read all of its tokens. -/
theorem declarations_fuelFor (tokens : List Token) (nodes functions : Nat) (faults : List Fault) :
    ∃ slots s, declarations (fuelFor tokens) ⟨tokens, nodes, functions, faults⟩ = .ok slots s ∧
      s.rest = [] := by
  have h := declarations_end (fuelFor tokens) ⟨tokens, nodes, functions, faults⟩
  cases hp : declarations (fuelFor tokens) ⟨tokens, nodes, functions, faults⟩ with
  | ok slots s =>
    rw [hp] at h
    exact ⟨slots, s, rfl, h⟩
  | fault f s =>
    rw [hp] at h
    exact h.elim
  | exhausted =>
    rw [hp] at h
    have hlt : 16 * (tokens.length + 1) < 16 * tokens.length + 14 := h
    omega

end Nya.Parse
