import Nya.Proofs.Parse.Outcome
import Nya.Proofs.Scope.Scoped
import Nya.Session

/-!
# What parsing builds

Every node and every function of a parsed tree has a number of its own, given out during the parse,
and no branch and no loop has a bare declaration as its body.

A list of numbers is *fresh* between two bounds if it has no number twice and all lie between them.
Each parser takes the numbers from the lower bounds to the upper ones. A `^o^` loop rearranges its
parts, so freshness, which does not look at the order, is what is kept.

* `Reading.program_formed` is the result for a source text
-/

namespace Nya

/-! ## Numbers of a tree -/

mutual

/-- The numbers of the nodes of an expression. -/
def Expr.numbers : Expr → List Nat
  | .literal id _ => [id]
  | .read target => [target.id]
  | .assign target value => value.numbers ++ [target.id]
  | .unary id _ right => right.numbers ++ [id]
  | .binary id left _ right | .logical id left _ right => left.numbers ++ right.numbers ++ [id]
  | .group id inner => inner.numbers ++ [id]
  | .call id callee arguments _ => callee.numbers ++ Expr.numbersAll arguments ++ [id]

/-- The numbers of the nodes of a list of expressions. -/
def Expr.numbersAll : List Expr → List Nat
  | [] => []
  | e :: es => e.numbers ++ Expr.numbersAll es

end

/-- The numbers of the nodes of an expression that may be missing. -/
def Expr.numbersOption : Option Expr → List Nat
  | none => []
  | some e => e.numbers

mutual

/-- The numbers of the nodes of a statement. -/
def Stmt.numbers : Stmt → List Nat
  | .expression e | .print e => e.numbers
  | .var _ init => Expr.numbersOption init
  | .block body => Stmt.numbersAll body
  | .branch condition thenBranch none => condition.numbers ++ thenBranch.numbers
  | .branch condition thenBranch (some elseBranch) =>
    condition.numbers ++ thenBranch.numbers ++ elseBranch.numbers
  | .loop condition body => condition.numbers ++ body.numbers
  | .function _ _ _ body => Stmt.numbersAll body
  | .ret _ value => Expr.numbersOption value

/-- The numbers of the nodes of a list of statements. -/
def Stmt.numbersAll : List Stmt → List Nat
  | [] => []
  | s :: ss => s.numbers ++ Stmt.numbersAll ss

end

mutual

/-- The numbers of the functions that a statement declares. -/
def Stmt.functionNumbers : Stmt → List Nat
  | .block body => Stmt.functionNumbersAll body
  | .branch _ thenBranch none => thenBranch.functionNumbers
  | .branch _ thenBranch (some elseBranch) =>
    thenBranch.functionNumbers ++ elseBranch.functionNumbers
  | .loop _ body => body.functionNumbers
  | .function id _ _ body => Stmt.functionNumbersAll body ++ [id]
  | .expression _ | .print _ | .var _ _ | .ret _ _ => []

/-- The numbers of the functions that statements declare. -/
def Stmt.functionNumbersAll : List Stmt → List Nat
  | [] => []
  | s :: ss => s.functionNumbers ++ Stmt.functionNumbersAll ss

end

theorem Stmt.functionNumbersAll_append (ss ss' : List Stmt) :
    Stmt.functionNumbersAll (ss ++ ss') =
      Stmt.functionNumbersAll ss ++ Stmt.functionNumbersAll ss' := by
  induction ss with
  | nil => rfl
  | cons s ss ih =>
    rw [List.cons_append, functionNumbersAll, functionNumbersAll, ih, List.append_assoc]

theorem Stmt.numbersAll_append (ss ss' : List Stmt) :
    Stmt.numbersAll (ss ++ ss') = Stmt.numbersAll ss ++ Stmt.numbersAll ss' := by
  induction ss with
  | nil => rfl
  | cons s ss ih => rw [List.cons_append, numbersAll, numbersAll, ih, List.append_assoc]

/-! ## Fresh numbers -/

/-- The numbers were given out between two moments, each to one node. -/
structure Fresh (lo hi : Nat) (ids : List Nat) : Prop where
  le : lo ≤ hi
  nodup : ids.Nodup
  range : ∀ i ∈ ids, lo ≤ i ∧ i < hi

namespace Fresh

variable {a b c d : Nat} {xs ys : List Nat}

theorem nil (h : a ≤ b) : Fresh a b [] := ⟨h, List.nodup_nil, fun _ hi => by cases hi⟩

/-- Numbers that are fresh in an interval are fresh in any that holds it. -/
theorem widen (h : Fresh b c xs) (hab : a ≤ b) (hcd : c ≤ d) : Fresh a d xs := by
  refine ⟨Nat.le_trans hab (Nat.le_trans h.le hcd), h.nodup, ?_⟩
  intro i hi
  have hr := h.range i hi
  exact ⟨Nat.le_trans hab hr.1, Nat.lt_of_lt_of_le hr.2 hcd⟩

/-- Numbers given out later do not clash with earlier ones. -/
theorem append (h : Fresh a b xs) (h' : Fresh b c ys) : Fresh a c (xs ++ ys) := by
  refine ⟨Nat.le_trans h.le h'.le, List.nodup_append.mpr ⟨h.nodup, h'.nodup, ?_⟩, ?_⟩
  · intro i hi j hj
    have hlt := (h.range i hi).2
    have hle := (h'.range j hj).1
    omega
  · intro i hi
    rcases List.mem_append.mp hi with hi | hi
    · exact (h.widen (Nat.le_refl a) h'.le).range i hi
    · exact (h'.widen h.le (Nat.le_refl c)).range i hi

/-- The next number is fresh. -/
theorem concat (h : Fresh a b xs) : Fresh a (b + 1) (xs ++ [b]) := by
  have hone : Fresh b (b + 1) [b] :=
    ⟨Nat.le_succ b, by simp, fun i hi => by rw [List.mem_singleton.mp hi]; omega⟩
  exact h.append hone

/-- The order of the numbers does not matter. -/
theorem perm (h : Fresh a b xs) (hp : xs.Perm ys) : Fresh a b ys :=
  ⟨h.le, hp.nodup_iff.mp h.nodup, fun i hi => h.range i (hp.mem_iff.mpr hi)⟩

/-- Some of the numbers that are fresh are fresh. -/
theorem sublist (h : Fresh a b ys) (hs : xs.Sublist ys) : Fresh a b xs :=
  ⟨h.le, hs.nodup h.nodup, fun i hi => h.range i (hs.subset hi)⟩

end Fresh

namespace Parse

/-- The numbers for the next node and for the next function. -/
structure Count where
  nodes : Nat
  functions : Nat

/-- The numbers that a state has come to. -/
def State.count (s : State) : Count := ⟨s.nodes, s.functions⟩

/-- Numbers of nodes and of functions that were given out between two moments. -/
structure Given (lo hi : Count) (nodes functions : List Nat) : Prop where
  nodes : Fresh lo.nodes hi.nodes nodes
  functions : Fresh lo.functions hi.functions functions

/-- The second moment is not before the first. -/
def Count.Le (a b : Count) : Prop := a.nodes ≤ b.nodes ∧ a.functions ≤ b.functions

namespace Given

variable {a b c d : Count} {xs ys us vs : List Nat}

theorem le (h : Given a b xs us) : a.Le b := ⟨h.nodes.le, h.functions.le⟩

theorem nil (h : a.Le b) : Given a b [] [] := ⟨.nil h.1, .nil h.2⟩

theorem widen (h : Given b c xs us) (hab : a.Le b) (hcd : c.Le d) : Given a d xs us :=
  ⟨h.nodes.widen hab.1 hcd.1, h.functions.widen hab.2 hcd.2⟩

/-- Numbers given one stretch after the other are given by both together. -/
theorem append (h : Given a b xs us) (h' : Given b c ys vs) :
    Given a c (xs ++ ys) (us ++ vs) :=
  ⟨h.nodes.append h'.nodes, h.functions.append h'.functions⟩

/-- A number for one more node. -/
theorem node (h : Given a b xs us) :
    Given a ⟨b.nodes + 1, b.functions⟩ (xs ++ [b.nodes]) us :=
  ⟨h.nodes.concat, h.functions⟩

/-- A number for one more function. -/
theorem function (h : Given a b xs us) :
    Given a ⟨b.nodes, b.functions + 1⟩ xs (us ++ [b.functions]) :=
  ⟨h.nodes, h.functions.concat⟩

end Given

namespace Count.Le

theorem refl (a : Count) : a.Le a := ⟨Nat.le_refl _, Nat.le_refl _⟩

theorem trans {a b c : Count} (h : a.Le b) (h' : b.Le c) : a.Le c :=
  ⟨Nat.le_trans h.1 h'.1, Nat.le_trans h.2 h'.2⟩

end Count.Le

/-! ## Expressions -/

/-- Every node that was read has a number of its own, given out since `lo`. -/
def Numbers (lo : Count) (o : Outcome Expr) : Prop :=
  o.Meets (fun e s => Given lo s.count e.numbers []) (fun s => lo.Le s.count) True

/-- The same of several expressions. -/
def NumbersAll (lo : Count) (o : Outcome (List Expr)) : Prop :=
  o.Meets (fun es s => Given lo s.count (Expr.numbersAll es) []) (fun s => lo.Le s.count) True

/-- An operator takes its own number last, behind those of its operands. -/
theorem Level.numbers_node (l : Level) (id : Nat) (left : Expr) (operator : Token) (right : Expr) :
    (l.node id left operator right).numbers = left.numbers ++ right.numbers ++ [id] := by
  unfold Level.node
  split <;> rw [Expr.numbers]

/-- A count that is too large is reported, and gives out no number. -/
theorem limit_meets (count : Nat) (cause : SyntaxCause) (s : State) :
    (limit count cause s).Meets (fun _ s' => s'.count = s.count) (fun _ => False) True := by
  rw [limit_eq]
  split <;> rfl

mutual

theorem expression_numbers : ∀ (n : Nat) (s : State), Numbers s.count (expression n s)
  | 0, _ => trivial
  | n + 1, s => by
    rw [expression_succ]
    refine (level_numbers n levels s).seq (fun _ h => h) id ?_
    intro left s₁ hl
    refine meets_takeIf hl ?_
    intro equals rest hr ht
    refine (expression_numbers n { s₁ with rest }).seq (fun _ h => hl.le.trans h) id ?_
    intro value s₂ hv
    cases left with
    | read target => exact hv.node.widen hl.le (Count.Le.refl _)
    | _ => exact hl.widen (Count.Le.refl _) hv.le

theorem level_numbers : ∀ (n : Nat) (ls : List Level) (s : State),
    Numbers s.count (level n ls s)
  | 0, _, _ => trivial
  | n + 1, [], s => unary_numbers n s
  | n + 1, l :: tighter, s => by
    rw [level_cons]
    refine (level_numbers n tighter s).seq (fun _ h => h) id ?_
    intro left s₁ hl
    exact chain_numbers n l tighter left s.count s₁ hl

/-- The operands of a chain are numbered from left to right, behind the one it starts from. -/
theorem chain_numbers : ∀ (n : Nat) (l : Level) (tighter : List Level) (left : Expr) (lo : Count)
    (s : State), Given lo s.count left.numbers [] → Numbers lo (chain n l tighter left s)
  | 0, _, _, _, _, _, _ => trivial
  | n + 1, l, tighter, left, lo, s, hl => by
    rw [chain_succ]
    refine meets_takeIf hl ?_
    intro operator rest hr ht
    refine (level_numbers n tighter { s with rest }).seq (fun _ h => hl.le.trans h) id ?_
    intro right s₁ hright
    refine chain_numbers n l tighter _ lo _ ?_
    rw [Level.numbers_node]
    exact (hl.append hright).node

theorem unary_numbers : ∀ (n : Nat) (s : State), Numbers s.count (unary n s)
  | 0, _ => trivial
  | n + 1, s => by
    rw [unary_succ]
    refine meets_takeIf ?_ ?_
    · refine (primary_numbers n s).seq (fun _ h => h) id ?_
      intro callee s₁ hc
      exact calls_numbers n callee s.count s₁ hc
    · intro operator rest hr ht
      refine (unary_numbers n { s with rest }).seq (fun _ h => h) id ?_
      intro right s₁ hright
      exact hright.node

/-- The calls of a chain are numbered behind their callee. -/
theorem calls_numbers : ∀ (n : Nat) (callee : Expr) (lo : Count) (s : State),
    Given lo s.count callee.numbers [] → Numbers lo (calls n callee s)
  | 0, _, _, _, _ => trivial
  | n + 1, callee, lo, s, hc => by
    rw [calls_succ]
    refine meets_takeIf hc ?_
    intro paren rest hr ht
    -- the arguments of a call are numbered in order, and none is numbered twice
    have harguments : NumbersAll { s with rest }.count (argumentList n { s with rest }) :=
      meets_listBefore (Given.nil (Count.Le.refl _)) (arguments_numbers n 0 _)
    refine harguments.seq (fun _ h => hc.le.trans h) id ?_
    intro args s₁ hargs
    refine meets_expect (hc.le.trans hargs.le) ?_
    intro close rest' hr' ht'
    exact calls_numbers n _ lo _ (hc.append hargs).node

theorem arguments_numbers : ∀ (n count : Nat) (s : State),
    NumbersAll s.count (arguments n count s)
  | 0, _, _ => trivial
  | n + 1, count, s => by
    rw [arguments_succ]
    refine (limit_meets count _ s).seq (fun _ h => h.elim) id ?_
    intro _ s₀ h₀
    rw [← h₀]
    refine (expression_numbers n s₀).seq (fun _ h => h) id ?_
    intro first s₁ hfirst
    refine meets_takeIf ?_ ?_
    · exact hfirst.append (Given.nil (Count.Le.refl _))
    · intro comma rest hr ht
      refine (arguments_numbers n (count + 1) { s₁ with rest }).seq
        (fun _ h => hfirst.le.trans h) id ?_
      intro others s₂ hothers
      exact hfirst.append hothers

theorem primary_numbers : ∀ (n : Nat) (s : State), Numbers s.count (primary n s)
  | 0, _ => trivial
  | n + 1, s => by
    rw [primary_succ]
    refine meets_takeIf ?_ ?_
    · refine meets_takeIf ?_ ?_
      · refine meets_takeIf (Count.Le.refl _) ?_
        intro paren rest hr ht
        refine (expression_numbers n { s with rest }).seq (fun _ h => h) id ?_
        intro inner s₁ hi
        refine meets_expect hi.le ?_
        intro close rest' hr' ht'
        exact hi.node
      · intro name rest hr ht
        exact (Given.nil (Count.Le.refl _)).node
    · intro t rest hr ht
      exact (Given.nil (Count.Le.refl _)).node

end

/-! ## Statements -/

/-- Statements that were read: their nodes have numbers of their own, and they are regular. -/
structure Formed (lo hi : Count) (ss : List Stmt) : Prop where
  given : Given lo hi (Stmt.numbersAll ss) (Stmt.functionNumbersAll ss)
  regular : ∀ s ∈ ss, s.Regular

namespace Formed

variable {a b c : Count}

theorem nil (h : a.Le b) : Formed a b [] := ⟨Given.nil h, fun _ hs => by cases hs⟩

theorem append {ss ss' : List Stmt} (h : Formed a b ss) (h' : Formed b c ss') :
    Formed a c (ss ++ ss') := by
  refine ⟨?_, ?_⟩
  · rw [Stmt.numbersAll_append, Stmt.functionNumbersAll_append]
    exact h.given.append h'.given
  · intro s hs
    rcases List.mem_append.mp hs with hs | hs
    · exact h.regular s hs
    · exact h'.regular s hs

/-- A statement on its own. -/
theorem one {s : Stmt} (hg : Given a b s.numbers s.functionNumbers) (hr : s.Regular) :
    Formed a b [s] := by
  refine ⟨?_, ?_⟩
  · rw [Stmt.numbersAll, Stmt.numbersAll, List.append_nil, Stmt.functionNumbersAll,
      Stmt.functionNumbersAll, List.append_nil]
    exact hg
  · intro s' hs
    rw [List.mem_singleton.mp hs]
    exact hr

theorem given_one {s : Stmt} (h : Formed a b [s]) : Given a b s.numbers s.functionNumbers := by
  have hg := h.given
  rwa [Stmt.numbersAll, Stmt.numbersAll, List.append_nil, Stmt.functionNumbersAll,
    Stmt.functionNumbersAll, List.append_nil] at hg

theorem regular_one {s : Stmt} (h : Formed a b [s]) : s.Regular := h.regular s List.mem_cons_self

end Formed

/-- A declaration was read. -/
def Forms (lo : Count) (o : Outcome Stmt) : Prop :=
  o.Meets (fun st s => Formed lo s.count [st]) (fun s => lo.Le s.count) True

/-- A statement was read that declares nothing. -/
def FormsInner (lo : Count) (o : Outcome Stmt) : Prop :=
  o.Meets (fun st s => Formed lo s.count [st] ∧ st.declares = false) (fun s => lo.Le s.count) True

/-- The expression that was read, if there is one, has numbers of its own. -/
def NumbersOption (lo : Count) (o : Outcome (Option Expr)) : Prop :=
  o.Meets (fun e s => Given lo s.count (Expr.numbersOption e) []) (fun s => lo.Le s.count) True

/-- The semicolon behind an expression takes no number. -/
theorem terminated_numbers (n : Nat) (cause : SyntaxCause) (s : State) :
    Numbers s.count (terminated n cause s) := by
  refine (expression_numbers n s).seq (fun _ h => h) id ?_
  intro e s₁ he
  refine meets_expect he.le ?_
  intro t rest hr ht
  exact he

theorem expressionUnless_numbers (n : Nat) (stop : Symbol) (s : State) :
    NumbersOption s.count (expressionUnless n stop s) := by
  refine meets_nextIs ?_
  intro b
  cases b with
  | true => exact Given.nil (Count.Le.refl _)
  | false => exact (expression_numbers n s).seq (fun _ h => h) id (fun _ _ he => he)

theorem initialValue_numbers (n : Nat) (s : State) :
    NumbersOption s.count (initialValue n s) := by
  refine meets_takeIf (Given.nil (Count.Le.refl _)) ?_
  intro equals rest hr ht
  exact (expression_numbers n { s with rest }).seq (fun _ h => h) id (fun _ _ he => he)

theorem variableDecl_forms (n : Nat) (s : State) : Forms s.count (variableDecl n s) := by
  rw [variableDecl_eq]
  refine meets_expectName (Count.Le.refl _) ?_
  intro name rest hr ht
  refine (initialValue_numbers n { s with rest }).seq (fun _ h => h) id ?_
  intro init s₁ hi
  refine meets_expect hi.le ?_
  intro semicolon rest' hr' ht'
  exact Formed.one hi trivial

theorem initializer_forms (n : Nat) (s : State) :
    (initializer n s).Meets (fun init s' => Formed s.count s'.count init.toList)
      (fun s' => s.count.Le s'.count) True := by
  refine meets_takeIf ?_ ?_
  · refine meets_takeIf ?_ ?_
    · refine (terminated_numbers n .expressionEnd s).seq (fun _ h => h) id ?_
      intro e s₁ he
      exact Formed.one he trivial
    · intro var rest hr ht
      exact (variableDecl_forms n { s with rest }).seq (fun _ h => h) id (fun _ _ h => h)
  · intro semicolon rest hr ht
    exact Formed.nil (Count.Le.refl _)

/-- Parameters are not numbered: they are declared and not referred to. -/
theorem parameters_meets : ∀ (n count : Nat) (s : State),
    (parameters n count s).Meets (fun _ s' => s'.count = s.count) (fun s' => s.count.Le s'.count)
      True
  | 0, _, _ => trivial
  | n + 1, count, s => by
    rw [parameters_succ]
    refine (limit_meets count _ s).seq (fun _ h => h.elim) id ?_
    intro _ s₀ h₀
    rw [← h₀]
    refine meets_expectName (Count.Le.refl _) ?_
    intro first rest hr ht
    refine meets_takeIf rfl ?_
    intro comma rest' hr' ht'
    exact (parameters_meets n (count + 1) _).seq (fun _ h => h) id (fun _ _ h => h)

theorem parameterList_meets (n : Nat) (s : State) :
    (parameterList n s).Meets (fun _ s' => s'.count = s.count) (fun s' => s.count.Le s'.count)
      True :=
  meets_listBefore rfl (parameters_meets n 0 s)

/-- The number of an initializer stands before those of its loop. -/
theorem numbers_withInitializer (loop : Stmt) (init : Option Stmt) :
    (withInitializer loop init).numbers = Stmt.numbersAll init.toList ++ loop.numbers := by
  cases init with
  | none => rfl
  | some s => simp [withInitializer, Stmt.numbers, Stmt.numbersAll]

/-- The numbers of an increment stand behind those of the body, where it is run. -/
theorem numbers_withIncrement (body : Stmt) (increment : Option Expr) :
    (withIncrement body increment).numbers = body.numbers ++ Expr.numbersOption increment := by
  cases increment with
  | none => simp [withIncrement, Expr.numbersOption]
  | some e => simp [withIncrement, Stmt.numbers, Stmt.numbersAll, Expr.numbersOption]

theorem functionNumbers_withInitializer (loop : Stmt) (init : Option Stmt) :
    (withInitializer loop init).functionNumbers =
      Stmt.functionNumbersAll init.toList ++ loop.functionNumbers := by
  cases init with
  | none => rfl
  | some s => simp [withInitializer, Stmt.functionNumbers, Stmt.functionNumbersAll]

/-- An increment is an expression, and declares no function. -/
theorem functionNumbers_withIncrement (body : Stmt) (increment : Option Expr) :
    (withIncrement body increment).functionNumbers = body.functionNumbers := by
  cases increment with
  | none => rfl
  | some e => simp [withIncrement, Stmt.functionNumbers, Stmt.functionNumbersAll]

/-- A loop is regular as soon as its parts are: what it is read as has no declaration in the place
of a body. -/
theorem regular_withInitializer {init : Option Stmt} {increment : Option Expr} {body : Stmt}
    (hinit : ∀ s ∈ init, s.Regular) (hdeclares : body.declares = false) (hregular : body.Regular)
    (condition : Expr) :
    (withInitializer (.loop condition (withIncrement body increment)) init).Regular := by
  have hloop : (Stmt.loop condition (withIncrement body increment)).Regular := by
    cases increment with
    | none => exact ⟨hdeclares, hregular⟩
    | some e => exact ⟨rfl, hregular, trivial, trivial⟩
  cases init with
  | none => exact hloop
  | some s => exact ⟨hinit s rfl, hloop, trivial⟩

/-- The parts of a `^o^` loop, read in the order of the source, make a regular loop. -/
theorem formed_forLoop {a b c d e f : Count} {init : Option Stmt}
    {condition increment : Option Expr} {body : Stmt} {test : Expr}
    (hinit : Formed a b init.toList) (hcondition : Given b c (Expr.numbersOption condition) [])
    (hincrement : Given c d (Expr.numbersOption increment) []) (hbody : Formed d e [body])
    (hdeclares : body.declares = false)
    (htest : (condition = some test ∧ f = e) ∨
      (condition = none ∧ f = ⟨e.nodes + 1, e.functions⟩ ∧ test.numbers = [e.nodes])) :
    Formed a f [withInitializer (.loop test (withIncrement body increment)) init] ∧
      (withInitializer (.loop test (withIncrement body increment)) init).declares = false := by
  have hall := ((hinit.given.append hcondition).append hincrement).append hbody.given_one
  refine ⟨Formed.one ⟨?_, ?_⟩ ?_, ?_⟩
  · rw [numbers_withInitializer, Stmt.numbers, numbers_withIncrement]
    have hnodes := hall.nodes
    generalize Expr.numbersOption increment = tail at hnodes ⊢
    have hswap : (tail ++ body.numbers).Perm (body.numbers ++ tail) := List.perm_append_comm
    rcases htest with ⟨rfl, rfl⟩ | ⟨rfl, rfl, ht⟩
    · refine hnodes.perm ?_
      simp only [Expr.numbersOption, List.append_assoc]
      exact (hswap.append_left _).append_left _
    · refine hnodes.concat.perm ?_
      simp only [Expr.numbersOption, List.append_assoc, List.nil_append, ht]
      rw [← List.append_assoc tail]
      exact ((hswap.append_right [e.nodes]).trans List.perm_append_comm).append_left _
  · rw [functionNumbers_withInitializer, Stmt.functionNumbers, functionNumbers_withIncrement]
    have hfunctions := hall.functions
    rw [List.append_nil, List.append_nil] at hfunctions
    rcases htest with ⟨-, rfl⟩ | ⟨-, rfl, -⟩ <;> exact hfunctions
  · exact regular_withInitializer (fun s hs => hinit.regular s (by simpa using hs)) hdeclares
      hbody.regular_one test
  · cases init <;> rfl

/-- A declaration that fails may use up numbers, and no later one gets them. -/
theorem recovering_forms {p : Parser Stmt} {s : State} (h : Forms s.count (p s)) :
    (recovering p s).Meets (fun first s' => Formed s.count s'.count first.toList) (fun _ => False)
      True :=
  meets_recovering h fun _ _ hle => Formed.nil hle

mutual

theorem declaration_forms : ∀ (n : Nat) (s : State), Forms s.count (declaration n s)
  | 0, _ => trivial
  | n + 1, s => by
    rw [declaration_succ]
    refine meets_takeIf ?_ ?_
    · refine meets_takeIf ?_ ?_
      · exact (statement_forms n s).mono (fun _ _ h => h.1) (fun _ h => h) id
      · intro var rest hr ht
        exact variableDecl_forms n { s with rest }
    · intro function rest hr ht
      exact functionDecl_forms n { s with rest }

/-- A function takes its number behind its body, and so behind the functions in it. -/
theorem functionDecl_forms : ∀ (n : Nat) (s : State), Forms s.count (functionDecl n s)
  | 0, _ => trivial
  | n + 1, s => by
    rw [functionDecl_succ]
    refine meets_expectName (Count.Le.refl _) ?_
    intro name rest₁ _ _
    refine meets_expect (Count.Le.refl _) ?_
    intro openParen rest₂ _ _
    refine (parameterList_meets n _).seq (fun _ h => h) id ?_
    intro params s₁ h₁
    have hle : s.count.Le s₁.count := h₁ ▸ Count.Le.refl _
    refine meets_expect hle ?_
    intro closeParen rest₃ _ _
    refine meets_expect hle ?_
    intro start rest₄ _ _
    refine (block_forms n _).seq (fun _ h => hle.trans h) id ?_
    intro body s₂ hb
    exact Formed.one (hb.given.widen hle (Count.Le.refl _)).function
      (Stmt.regularAll_iff.mpr hb.regular)

theorem statement_forms : ∀ (n : Nat) (s : State), FormsInner s.count (statement n s)
  | 0, _ => trivial
  | n + 1, s => by
    rw [statement_succ]
    refine meets_takeIf ?_ ?_
    · refine (terminated_numbers n _ s).seq (fun _ h => h) id ?_
      intro e s₁ he
      exact ⟨Formed.one he trivial, rfl⟩
    · intro t rest hr ht
      refine statementFrom_cases (motive := fun p => FormsInner s.count (p { s with rest })) n t
        (forLoop_forms n _) (branch_forms n _) ?_ ?_ (whileLoop_forms n _) ?_
      · refine (terminated_numbers n _ _).seq (fun _ h => h) id ?_
        intro e s₁ he
        exact ⟨Formed.one he trivial, rfl⟩
      · refine (expressionUnless_numbers n _ _).seq (fun _ h => h) id ?_
        intro value s₁ hv
        refine meets_expect hv.le ?_
        intro semicolon rest' hr' ht'
        exact ⟨Formed.one hv trivial, rfl⟩
      · refine (block_forms n _).seq (fun _ h => h) id ?_
        intro body s₁ hb
        exact ⟨Formed.one hb.given (Stmt.regularAll_iff.mpr hb.regular), rfl⟩

/-- The numbers of a `^o^` loop are fresh, though its increment is put behind its body. -/
theorem forLoop_forms : ∀ (n : Nat) (s : State), FormsInner s.count (forLoop n s)
  | 0, _ => trivial
  | n + 1, s => by
    rw [forLoop_succ]
    refine meets_expect (Count.Le.refl _) ?_
    intro openParen rest₁ _ _
    refine (initializer_forms n _).seq (fun _ h => h) id ?_
    intro init s₁ hinit
    refine (expressionUnless_numbers n _ s₁).seq (fun _ h => hinit.given.le.trans h) id ?_
    intro condition s₂ hcondition
    have hle := hinit.given.le.trans hcondition.le
    refine meets_expect hle ?_
    intro semicolon rest₂ _ _
    refine (expressionUnless_numbers n _ _).seq (fun _ h => hle.trans h) id ?_
    intro increment s₃ hincrement
    have hle := hle.trans hincrement.le
    refine meets_expect hle ?_
    intro closeParen rest₃ _ _
    refine (statement_forms n _).seq (fun _ h => hle.trans h) id ?_
    intro body s₄ hbody
    cases condition with
    | some test =>
      exact formed_forLoop hinit hcondition hincrement hbody.1 hbody.2 (Or.inl ⟨rfl, rfl⟩)
    | none =>
      exact formed_forLoop hinit hcondition hincrement hbody.1 hbody.2 (Or.inr ⟨rfl, rfl, rfl⟩)

/-- Neither branch of a conditional is a declaration. -/
theorem branch_forms : ∀ (n : Nat) (s : State), FormsInner s.count (branch n s)
  | 0, _ => trivial
  | n + 1, s => by
    rw [branch_succ]
    refine meets_expect (Count.Le.refl _) ?_
    intro openParen rest₁ _ _
    refine (expression_numbers n _).seq (fun _ h => h) id ?_
    intro condition s₁ hcondition
    refine meets_expect hcondition.le ?_
    intro closeParen rest₂ _ _
    refine (statement_forms n _).seq (fun _ h => hcondition.le.trans h) id ?_
    intro thenBranch s₂ hthen
    have hboth := hcondition.append hthen.1.given_one
    refine meets_takeIf ?_ ?_
    · exact ⟨Formed.one hboth ⟨hthen.2, hthen.1.regular_one⟩, rfl⟩
    · intro ifElse rest₃ _ _
      refine (statement_forms n _).seq (fun _ h => hboth.le.trans h) id ?_
      intro elseBranch s₃ helse
      exact ⟨Formed.one (hboth.append helse.1.given_one)
        ⟨⟨hthen.2, hthen.1.regular_one⟩, helse.2, helse.1.regular_one⟩, rfl⟩

/-- The body of a loop is no declaration. -/
theorem whileLoop_forms : ∀ (n : Nat) (s : State), FormsInner s.count (whileLoop n s)
  | 0, _ => trivial
  | n + 1, s => by
    rw [whileLoop_succ]
    refine meets_expect (Count.Le.refl _) ?_
    intro openParen rest₁ _ _
    refine (expression_numbers n _).seq (fun _ h => h) id ?_
    intro condition s₁ hcondition
    refine meets_expect hcondition.le ?_
    intro closeParen rest₂ _ _
    refine (statement_forms n _).seq (fun _ h => hcondition.le.trans h) id ?_
    intro body s₂ hbody
    exact ⟨Formed.one (hcondition.append hbody.1.given_one) ⟨hbody.2, hbody.1.regular_one⟩, rfl⟩

/-- The statements of a block are formed one after the other, with their numbers in order. -/
theorem block_forms : ∀ (n : Nat) (s : State),
    (block n s).Meets (fun ss s' => Formed s.count s'.count ss) (fun s' => s.count.Le s'.count) True
  | 0, _ => trivial
  | n + 1, s => by
    rw [block_succ]
    refine meets_peek? ?_ ?_
    · intro _
      exact Count.Le.refl _
    · intro t rest _
      dsimp only
      split
      · refine meets_expect (Count.Le.refl _) ?_
        intro stop rest' _ _
        exact Formed.nil (Count.Le.refl _)
      · refine (recovering_forms (declaration_forms n s)).seq (fun _ h => h.elim) id ?_
        intro first s₁ hfirst
        refine (block_forms n s₁).seq (fun _ h => hfirst.given.le.trans h) id ?_
        intro others s₂ hothers
        exact hfirst.append hothers

end

/-! ## Programs -/

/-- All the declarations of a source together are formed. -/
theorem declarations_forms : ∀ (n : Nat) (s : State),
    (declarations n s).Meets (fun slots s' => Formed s.count s'.count (slots.filterMap id))
      (fun _ => False) True
  | 0, _ => trivial
  | n + 1, s => by
    rw [declarations_succ]
    refine meets_peek? ?_ ?_
    · intro _
      exact Formed.nil (Count.Le.refl _)
    · intro t rest _
      refine (recovering_forms (declaration_forms n s)).seq (fun _ h => h) id ?_
      intro first s₁ hfirst
      refine (declarations_forms n s₁).seq (fun _ h => h) id ?_
      intro others s₂ hothers
      have hslots : (first :: others).filterMap id = first.toList ++ others.filterMap id := by
        cases first <;> rfl
      show Formed s.count s₂.count ((first :: others).filterMap id)
      rw [hslots]
      exact hfirst.append hothers

end Parse

/-- **A parsed program is regular, and its nodes and functions have numbers of their own.** -/
theorem parse_formed (tokens : List Token) (nodes functions : Nat) :
    Parse.Formed ⟨nodes, functions⟩
      ⟨(parse tokens nodes functions).nodes, (parse tokens nodes functions).functions⟩
      ((parse tokens nodes functions).statements.filterMap id) := by
  unfold parse
  have h := Parse.declarations_forms (Parse.fuelFor (splitAtEnd tokens).1)
    ⟨(splitAtEnd tokens).1, nodes, functions, []⟩
  cases hp : Parse.declarations (Parse.fuelFor (splitAtEnd tokens).1)
      ⟨(splitAtEnd tokens).1, nodes, functions, []⟩ with
  | ok statements s =>
    rw [hp] at h
    simp only [hp]
    exact h
  | fault f s =>
    rw [hp] at h
    exact h.elim
  | exhausted =>
    simp only [hp]
    exact Parse.Formed.nil (Parse.Count.Le.refl _)

/-- The numbers of a program lie between those that its reading starts from and those it leaves. -/
theorem Reading.program_formed (source : String) (nodes functions : Nat) :
    Parse.Formed ⟨nodes, functions⟩
      ⟨(Reading.ofSource source nodes functions).parsed.nodes,
        (Reading.ofSource source nodes functions).parsed.functions⟩
      (Reading.ofSource source nodes functions).program :=
  parse_formed _ nodes functions

/-! ## Numbers of references -/

mutual

/-- Each reference of a resolved expression has the number of a node of that expression. -/
theorem Expr.references_sublist : ∀ (scopes : Scopes) (e : Expr),
    ((e.resolve scopes).references.map (·.2.id)).Sublist e.numbers
  | scopes, .literal id _ => List.nil_sublist _
  | scopes, .read target => List.Sublist.refl _
  | scopes, .assign target value => by
    rw [Expr.resolve, Expr.references, Expr.numbers, List.map_append]
    exact (Expr.references_sublist scopes value).append (List.Sublist.refl _)
  | scopes, .unary id _ right => by
    rw [Expr.resolve, Expr.references, Expr.numbers]
    exact (Expr.references_sublist scopes right).trans (List.sublist_append_left _ _)
  | scopes, .binary id left _ right | scopes, .logical id left _ right => by
    rw [Expr.resolve, Expr.references, Expr.numbers, List.map_append]
    exact ((Expr.references_sublist scopes left).append
      (Expr.references_sublist scopes right)).trans (List.sublist_append_left _ _)
  | scopes, .group id inner => by
    rw [Expr.resolve, Expr.references, Expr.numbers]
    exact (Expr.references_sublist scopes inner).trans (List.sublist_append_left _ _)
  | scopes, .call id callee arguments _ => by
    rw [Expr.resolve, Expr.references, Expr.numbers, List.map_append]
    exact ((Expr.references_sublist scopes callee).append
      (Expr.referencesAll_sublist scopes arguments)).trans (List.sublist_append_left _ _)

theorem Expr.referencesAll_sublist : ∀ (scopes : Scopes) (es : List Expr),
    ((Expr.referencesAll (Expr.resolveAll scopes es)).map (·.2.id)).Sublist (Expr.numbersAll es)
  | _, [] => List.Sublist.refl _
  | scopes, e :: es => by
    rw [Expr.resolveAll, Expr.referencesAll, Expr.numbersAll, List.map_append]
    exact (Expr.references_sublist scopes e).append (Expr.referencesAll_sublist scopes es)

end

/-- The visits to an expression carry numbers of its nodes, each at most once and in their order. -/
theorem Expr.visits_sublist (levels : Levels) (e : Expr) :
    ((e.visits levels).map (·.reference.id)).Sublist e.numbers := by
  rw [Expr.visits, List.map_map]
  exact Expr.references_sublist levels.scopes e

theorem Expr.visitsOption_sublist (levels : Levels) (e : Option Expr) :
    ((Expr.visitsOption levels e).map (·.reference.id)).Sublist (Expr.numbersOption e) := by
  cases e with
  | none => exact List.Sublist.refl _
  | some e => exact Expr.visits_sublist levels e

mutual

/-- The same of a statement, with the scopes that its parts are resolved in. -/
theorem Stmt.visits_sublist : ∀ (levels : Levels) (s : Stmt),
    ((s.visits levels).map (·.reference.id)).Sublist s.numbers
  | levels, .expression e | levels, .print e => Expr.visits_sublist levels e
  | levels, .var _ init => Expr.visitsOption_sublist _ init
  | levels, .block body => Stmt.visitsAll_sublist _ body
  | levels, .branch c t none => by
    rw [Stmt.visits, Stmt.numbers, List.map_append]
    exact (Expr.visits_sublist _ c).append (Stmt.visits_sublist _ t)
  | levels, .branch c t (some e) => by
    rw [Stmt.visits, Stmt.numbers, List.map_append, List.map_append]
    exact ((Expr.visits_sublist _ c).append (Stmt.visits_sublist _ t)).append
      (Stmt.visits_sublist _ e)
  | levels, .loop c body => by
    rw [Stmt.visits, Stmt.numbers, List.map_append]
    exact (Expr.visits_sublist _ c).append (Stmt.visits_sublist _ body)
  | levels, .function _ _ _ body => Stmt.visitsAll_sublist _ body
  | levels, .ret _ value => Expr.visitsOption_sublist _ value

theorem Stmt.visitsAll_sublist : ∀ (levels : Levels) (ss : List Stmt),
    ((Stmt.visitsAll levels ss).map (·.reference.id)).Sublist (Stmt.numbersAll ss)
  | _, [] => List.Sublist.refl _
  | levels, s :: ss => by
    rw [Stmt.visitsAll, Stmt.numbersAll, List.map_append]
    exact (Stmt.visits_sublist levels s).append (Stmt.visitsAll_sublist _ ss)

end

end Nya
