import Nya.Proofs.Machine.Realm
import Nya.Proofs.Parse.Growth

/-!
# Arenas of parsed programs

A parse keeps the arena that it is given, and adds nodes that share no operands. All operators that
it builds are those of their kind of node. Resolution changes no operator, and a run executes parts
of programs only; so no session ever comes to a fault about an operator that there is not.

* `operators` for the realm of code with such operators
* `Session.arena_wellFormed`
-/

namespace Nya

/-! ## The realm of proper operators -/

theorem proper_of_applyUnary {operator : Token} {v : Value} {e : RuntimeError}
    (hoperator : operator.IsOneOf unarySymbols) (h : applyUnary operator v = .error e) :
    e.cause.Proper := by
  obtain ⟨s, hs, hsymbol⟩ := hoperator
  unfold applyUnary at h
  split at h
  · cases h
  · split at h
    · cases h
    · cases h
      trivial
  · next hbang hminus =>
    rw [hsymbol] at hbang hminus
    rcases List.mem_pair.mp hs with rfl | rfl
    · exact absurd rfl hbang
    · exact absurd rfl hminus

theorem proper_of_applyBinary {operator : Token} {u v : Value} {e : RuntimeError}
    (hoperator : operator.IsOneOf binarySymbols) (h : applyBinary operator u v = .error e) :
    e.cause.Proper := by
  obtain ⟨s, hs, hsymbol⟩ := hoperator
  unfold applyBinary at h
  split at h
  · cases h
  · cases h
  · unfold add at h
    split at h <;> cases h
    trivial
  · next hequal hbang hplus =>
    split at h
    · unfold arithmetic at h
      split at h <;> cases h
      -- None of the eight symbols is left, nor of the three before.
      simp_all [binarySymbols]
    · cases h
      trivial

/-- Code whose operators are apt, in all frames. -/
def operators : Realm where
  expr := Expr.Apt
  stmt s := ∀ e ∈ s.fields, e.Apt
  unary operator := operator.IsOneOf unarySymbols
  binary operator := operator.IsOneOf binarySymbols
  fault := RuntimeCause.Proper
  frame _ := True
  expr_parts := by
    rintro e ⟨-, hparts⟩
    exact hparts
  stmt_exprs h e he := h e (Stmt.mem_fields_of_exprs he)
  stmt_parts h part hpart e he := h e (Stmt.mem_fields_of_parts hpart he)
  unary_of_expr := by
    rintro id operator right ⟨hnode, -⟩
    exact hnode
  binary_of_expr := by
    rintro id left operator right ⟨hnode, -⟩
    exact hnode
  fault_unary := proper_of_applyUnary
  fault_binary := proper_of_applyBinary
  fault_of_proper := id

/-! ## Resolution -/

theorem Expr.resolveAll_eq_map (scopes : Scopes) (es : List Expr) :
    Expr.resolveAll scopes es = es.map (Expr.resolve scopes) := by
  induction es with
  | nil => rfl
  | cons e es ih => rw [resolveAll, ih, List.map_cons]

theorem Expr.id_resolve (scopes : Scopes) (e : Expr) : (e.resolve scopes).id = e.id := by
  cases e <;> rfl

theorem Expr.parts_resolve (scopes : Scopes) (e : Expr) :
    (e.resolve scopes).parts = e.parts.map (Expr.resolve scopes) := by
  cases e with
  | call id callee arguments paren =>
    rw [resolve, parts, parts, resolveAll_eq_map, List.map_cons]
  | _ => rfl

/-- Resolution changes no node, since a node has no depth. -/
theorem Expr.node_resolve (scopes : Scopes) (e : Expr) : (e.resolve scopes).node = e.node := by
  cases e with
  | call id callee arguments paren =>
    simp [resolve, node, resolveAll_eq_map, id_resolve, Function.comp_def]
  | _ => simp [resolve, node, id_resolve, Reference.resolve]

theorem Expr.Apt.resolve {e : Expr} (h : e.Apt) (scopes : Scopes) : (e.resolve scopes).Apt := by
  induction h with
  | mk node _ ih =>
    refine ⟨by rwa [Expr.node_resolve], ?_⟩
    intro part hpart
    rw [Expr.parts_resolve] at hpart
    obtain ⟨operand, hoperand, rfl⟩ := List.mem_map.mp hpart
    exact ih operand hoperand

mutual

theorem Stmt.apt_resolve : ∀ (scopes : Scopes) (s : Stmt), (∀ e ∈ s.fields, e.Apt) →
    ∀ e ∈ (s.resolve scopes).fields, e.Apt
  | scopes, .expression e, h | scopes, .print e, h => by
    simp only [Stmt.resolve, Stmt.fields, List.mem_singleton, forall_eq] at h ⊢
    exact h.resolve scopes
  | scopes, .var _ none, h | scopes, .ret _ none, h => h
  | scopes, .var name (some e), h => by
    simp only [Stmt.resolve, Stmt.fields, Option.map_some, Option.toList_some,
      List.mem_singleton, forall_eq] at h ⊢
    exact h.resolve _
  | scopes, .ret _ (some e), h => by
    simp only [Stmt.resolve, Stmt.fields, Option.map_some, Option.toList_some,
      List.mem_singleton, forall_eq] at h ⊢
    exact h.resolve scopes
  | scopes, .block body, h => Stmt.apt_resolveAll _ body h
  | scopes, .function _ _ _ body, h => Stmt.apt_resolveAll _ body h
  | scopes, .branch c t none, h => by
    rw [Stmt.fields, List.forall_mem_cons] at h
    rw [Stmt.resolve, Stmt.fields, List.forall_mem_cons]
    exact ⟨h.1.resolve scopes, Stmt.apt_resolve scopes t h.2⟩
  | scopes, .branch c t (some e), h => by
    rw [Stmt.fields, List.forall_mem_cons, List.forall_mem_append] at h
    rw [Stmt.resolve, Stmt.fields, List.forall_mem_cons, List.forall_mem_append]
    exact ⟨h.1.resolve scopes, Stmt.apt_resolve scopes t h.2.1, Stmt.apt_resolve _ e h.2.2⟩
  | scopes, .loop c body, h => by
    rw [Stmt.fields, List.forall_mem_cons] at h
    rw [Stmt.resolve, Stmt.fields, List.forall_mem_cons]
    exact ⟨h.1.resolve scopes, Stmt.apt_resolve scopes body h.2⟩

theorem Stmt.apt_resolveAll : ∀ (scopes : Scopes) (ss : List Stmt),
    (∀ e ∈ Stmt.fieldsAll ss, e.Apt) → ∀ e ∈ Stmt.fieldsAll (Stmt.resolveAll scopes ss), e.Apt
  | _, [], h => h
  | scopes, s :: ss, h => by
    rw [Stmt.fieldsAll, List.forall_mem_append] at h
    rw [Stmt.resolveAll, Stmt.fieldsAll, List.forall_mem_append]
    exact ⟨Stmt.apt_resolve scopes s h.1, Stmt.apt_resolveAll _ ss h.2⟩

end

namespace Session

/-- Whatever is read has apt operators. The arena does not matter, only how many nodes it has. -/
theorem operators_of_read (s : Session) (source : String) (program : List Stmt)
    (h : (s.read source).1 = .ok program) : ∀ stmt ∈ program, operators.stmt stmt := by
  obtain ⟨-, -, rfl⟩ := Reading.check_ok h
  have hfields : ∀ e ∈ Stmt.fieldsAll (Reading.ofSource source s.nodes s.functions).program,
      e.Apt := by
    intro e he
    let arena : List Node := List.replicate s.nodes (.literal .nil)
    obtain ⟨-, -, hsprout⟩ :=
      Parse.Builder.parse_snd (scannedTokens (scan source)) s.functions arena
    rw [Parse.Builder.parse_fst, List.length_replicate] at hsprout
    exact hsprout.apt_of_mem he
  intro stmt hstmt e he
  exact Stmt.apt_resolveAll [] _ hfields e (Stmt.mem_fieldsAll_iff.mpr ⟨stmt, hstmt, he⟩)

/--
**Arenas are well-formed.** Parsed into an arena, a list of tokens gives what it gives without one.
The nodes of the arena stay; each node that is added has operands among those that were added before
it; none is two times an operand or an expression of a statement, so that there is one way at most
from the statements to a node. Each operator is one of its kind of node. So no session comes to a
fault about an operator that there is not.
-/
theorem arena_wellFormed :
    (∀ (tokens : List Token) (functions : Nat) (arena : List Node),
      ∃ parsed arena' roots, Parse.Builder.parse tokens functions arena = (parsed, arena') ∧
        parsed = parse tokens arena.length functions ∧
        roots = (Parse.slotFields parsed.statements).map Expr.id ∧
        arena <+: arena' ∧ parsed.nodes = arena'.length ∧
        (∀ e ∈ Parse.slotFields parsed.statements, arena.length ≤ e.id ∧ e.Held arena') ∧
        (∀ i node, arena.length ≤ i → arena'[i]? = some node →
          node.Apt ∧ ∀ child ∈ node.children, arena.length ≤ child ∧ child < i) ∧
        ((arena'.drop arena.length).flatMap Node.children ++ roots).Nodup ∧
        (Closed arena → Closed arena' ∧
          ∀ i, arena.length ≤ i → (arena'.flatMap Node.children ++ roots).count i ≤ 1) ∧
        ∀ start start' turns turns' i, Leads arena' roots start turns i →
          Leads arena' roots start' turns' i → start = start' ∧ turns = turns') ∧
    ∀ (natives : List Native) (console : Console), (∀ n ∈ natives, n.Honest) →
      ∀ (fuel : Nat) (sources : List String), ∀ c ∈ (new natives console).trace fuel sources,
        ∀ error, c.focus = .raise error →
          error.cause ≠ .invalidUnary ∧ error.cause ≠ .invalidBinary := by
  constructor
  · intro tokens functions arena
    obtain ⟨hle, hnodes, hsprout⟩ := Parse.Builder.parse_snd tokens functions arena
    refine ⟨_, _, _, rfl, Parse.Builder.parse_fst tokens functions arena, rfl, hle, hnodes,
      hsprout.held, ?_, hsprout.once, ?_, ?_⟩
    · intro i node hi hnode
      exact ⟨hsprout.apt i node hi hnode, hsprout.below i node hi hnode⟩
    · intro hclosed
      exact ⟨hsprout.closed hle hclosed, fun i hi => hsprout.count_le_one hle hclosed hi⟩
    · intro start start' turns turns' i hleads hleads'
      exact hsprout.leads_unique hleads hleads'
  · intro natives console hn fuel sources c hc error herror
    have hnew : (new natives console).Keeps operators :=
      new_keeps (fun n hmem => (hn n hmem).keeps operators) (fun _ => trivial) console
    have hfocus := (hnew.trace operators_of_read fuel c hc).focus
    rw [herror] at hfocus
    exact RuntimeCause.Proper.ne hfocus

/-- A function that negates its argument. -/
def negation : String := ":D f(x) :> c: -.- x; <: >.< x;"

/-- A call of it with a value that has no negation. -/
def badCall : String := "f(x o/ ~nuww);"

/--
The call comes to a fault, which is not about the operator. Behind the nodes of an arena it adds
its own; the one that was to read `x` is an operand of none.
-/
theorem arena_wellFormed_badCall :
    (∃ c ∈ (new Native.standard {}).trace 100 [negation, badCall], ∃ error,
      c.focus = .raise error ∧ error.cause ≠ .invalidUnary ∧ error.cause ≠ .invalidBinary) ∧
    ∃ parsed arena', Parse.Builder.parse (scannedTokens (scan badCall)) 1
        [.literal .nil, .group 0] = (parsed, arena') ∧
      arena'.map Node.children = [[], [0], [], [], [], [4], [5], [2, 6]] ∧ Closed arena' := by
  constructor
  · have hraise : ((new Native.standard {}).trace 100 [negation, badCall]).any
        (fun c => match c.focus with | .raise _ => true | _ => false) = true := by
      decide +kernel
    obtain ⟨c, hc, hfocus⟩ := List.any_eq_true.mp hraise
    split at hfocus
    · next error herror =>
      exact ⟨c, hc, error, herror,
        arena_wellFormed.2 _ {} Native.standard_honest 100 _ c hc error herror⟩
    · cases hfocus
  · have hstart : Closed [.literal .nil, .group 0] := by simp [Closed, Node.children]
    have hchildren : (Parse.Builder.parse (scannedTokens (scan badCall)) 1
        [.literal .nil, .group 0]).2.map Node.children =
        [[], [0], [], [], [], [4], [5], [2, 6]] := by
      decide +kernel
    obtain ⟨parsed, arena', roots, hparse, -, -, -, -, -, -, -, hclosed, -⟩ :=
      arena_wellFormed.1 (scannedTokens (scan badCall)) 1 [.literal .nil, .group 0]
    rw [hparse] at hchildren
    exact ⟨parsed, arena', hparse, hchildren, (hclosed hstart).1⟩

/-! ## The number of binary operators -/

/-- The operator of a binary expression. -/
def binaryOperator? : Expr → Option Symbol
  | .binary _ _ operator _ => operator.symbol?
  | _ => none

/-- A statement for each binary operator. -/
def everyOperator : String :=
  "twue _o_ twue;\ntwue \\o/ twue;\ntwue \\o\\ twue;\ntwue \\o_ twue;\ntwue /o/ twue;\n" ++
  "twue _o/ twue;\ntwue %.% twue;\ntwue -.- twue;\ntwue +.+ twue;\ntwue -.* twue;\ntwue +.* twue;"

/-- Ten symbols are not enough for the operators of binary expressions. There are eleven. -/
theorem binaryOperators_not_ten : ¬ ∃ kinds : List Symbol, kinds.length = 10 ∧
    ∀ (tokens : List Token) (nodes functions : Nat),
      ∀ e ∈ Parse.slotFields (parse tokens nodes functions).statements,
      ∀ id left operator right, e = .binary id left operator right → operator.IsOneOf kinds := by
  rintro ⟨kinds, hlength, hkinds⟩
  have hoperators : (Parse.slotFields
      (parse (scannedTokens (scan everyOperator)) 0 0).statements).filterMap binaryOperator? =
      binarySymbols := by
    decide +kernel
  have hsubset : binarySymbols ⊆ kinds := by
    intro symbol hsymbol
    rw [← hoperators] at hsymbol
    obtain ⟨e, he, hsymbol⟩ := List.mem_filterMap.mp hsymbol
    unfold binaryOperator? at hsymbol
    split at hsymbol
    · next id left operator right =>
      obtain ⟨s, hs, hoperator⟩ := hkinds _ 0 0 _ he id left operator right rfl
      obtain rfl : s = symbol := Option.some.inj (hoperator.symm.trans hsymbol)
      exact hs
    · cases hsymbol
  have hle : binarySymbols.length ≤ kinds.length :=
    List.Nodup.length_le_of_subset (by decide) hsubset
  rw [hlength] at hle
  exact absurd hle (by decide)

end Session

end Nya
