import Mathlib.Data.List.Nodup
import Mathlib.Data.List.Perm.Subperm
import Nya.Tree.Basic

/-!
# Arenas

The nodes of expressions, each at the place of its number: a node knows its operands by their
numbers. An expression is *held* by an arena if its nodes are there.

While expressions are built, each new node takes operands that nothing else has, and there is a list
of *roots*, the expressions that are not operands of anything yet. `Sprout` says that this is so of
all nodes from some number on. It does not matter what becomes of the roots: they may be dropped
(`Sprout.subperm`), or made the operands of a new node (`Sprout.add`).

* `Sprout.leads_unique` says that there is one way only from the roots to a node
* `Sprout.apt` says that the operators of the roots are those of their kind of node
-/

namespace Nya

/-! ## Parts of a tree -/

/-- The expressions that an expression is made of. -/
def Expr.parts : Expr → List Expr
  | .literal _ _ | .read _ => []
  | .assign _ e | .unary _ _ e | .group _ e => [e]
  | .binary _ left _ right | .logical _ left _ right => [left, right]
  | .call _ callee arguments _ => callee :: arguments

/-- The expressions that a statement itself has. -/
def Stmt.exprs : Stmt → List Expr
  | .expression e | .print e | .branch e _ _ | .loop e _ => [e]
  | .var _ e | .ret _ e => e.toList
  | .block _ | .function _ _ _ _ => []

/-- The statements that a statement is made of. -/
def Stmt.parts : Stmt → List Stmt
  | .block body | .function _ _ _ body => body
  | .branch _ thenBranch elseBranch => thenBranch :: elseBranch.toList
  | .loop _ body => [body]
  | .expression _ | .print _ | .var _ _ | .ret _ _ => []

mutual

/-- The expressions that a statement and its parts have. -/
def Stmt.fields : Stmt → List Expr
  | .expression e | .print e => [e]
  | .var _ e | .ret _ e => e.toList
  | .block body | .function _ _ _ body => Stmt.fieldsAll body
  | .branch condition thenBranch none => condition :: thenBranch.fields
  | .branch condition thenBranch (some elseBranch) =>
    condition :: (thenBranch.fields ++ elseBranch.fields)
  | .loop condition body => condition :: body.fields

/-- The expressions that some statements and their parts have. -/
def Stmt.fieldsAll : List Stmt → List Expr
  | [] => []
  | s :: ss => s.fields ++ Stmt.fieldsAll ss

end

theorem Stmt.fieldsAll_append (ss ts : List Stmt) :
    Stmt.fieldsAll (ss ++ ts) = Stmt.fieldsAll ss ++ Stmt.fieldsAll ts := by
  induction ss with
  | nil => rfl
  | cons s ss ih => rw [List.cons_append, fieldsAll, fieldsAll, ih, List.append_assoc]

theorem Stmt.mem_fieldsAll_iff {ss : List Stmt} {e : Expr} :
    e ∈ Stmt.fieldsAll ss ↔ ∃ s ∈ ss, e ∈ s.fields := by
  induction ss with
  | nil => simp [fieldsAll]
  | cons s ss ih => simp [fieldsAll, ih]

theorem Stmt.mem_fields_of_exprs {s : Stmt} {e : Expr} (h : e ∈ s.exprs) : e ∈ s.fields := by
  cases s with
  | branch condition thenBranch elseBranch =>
    obtain rfl : e = condition := List.mem_singleton.mp h
    cases elseBranch <;> exact List.mem_cons_self
  | loop condition body =>
    obtain rfl : e = condition := List.mem_singleton.mp h
    exact List.mem_cons_self
  | block body | function id name params body => cases h
  | _ => exact h

theorem Stmt.mem_fields_of_parts {s part : Stmt} {e : Expr} (hpart : part ∈ s.parts)
    (h : e ∈ part.fields) : e ∈ s.fields := by
  cases s with
  | block body | function id name params body =>
    exact Stmt.mem_fieldsAll_iff.mpr ⟨part, hpart, h⟩
  | branch condition thenBranch elseBranch =>
    cases elseBranch with
    | none =>
      obtain rfl : part = thenBranch := List.mem_singleton.mp hpart
      exact List.mem_cons_of_mem _ h
    | some elseBranch =>
      rcases List.mem_pair.mp hpart with rfl | rfl
      · exact List.mem_cons_of_mem _ (List.mem_append_left _ h)
      · exact List.mem_cons_of_mem _ (List.mem_append_right _ h)
  | loop condition body =>
    obtain rfl : part = body := List.mem_singleton.mp hpart
    exact List.mem_cons_of_mem _ h
  | _ => cases hpart

/-! ## Nodes -/

/-- A node of an expression, with the numbers of its operands. -/
inductive Node where
  | literal (value : Literal)
  | read (name : Token)
  | assign (name : Token) (value : Nat)
  | unary (operator : Token) (right : Nat)
  | binary (left : Nat) (operator : Token) (right : Nat)
  | logical (left : Nat) (operator : Token) (right : Nat)
  | group (inner : Nat)
  | call (callee : Nat) (arguments : List Nat) (paren : Token)

/-- The numbers of the operands. -/
def Node.children : Node → List Nat
  | .literal _ | .read _ => []
  | .assign _ child | .unary _ child | .group child => [child]
  | .binary left _ right | .logical left _ right => [left, right]
  | .call callee arguments _ => callee :: arguments

/-- The number of the node of an expression. -/
def Expr.id : Expr → Nat
  | .literal id _ | .unary id _ _ | .binary id _ _ _ | .logical id _ _ _ | .group id _
  | .call id _ _ _ => id
  | .read target | .assign target _ => target.id

/-- The node of an expression. -/
def Expr.node : Expr → Node
  | .literal _ value => .literal value
  | .read target => .read target.name
  | .assign target value => .assign target.name value.id
  | .unary _ operator right => .unary operator right.id
  | .binary _ left operator right => .binary left.id operator right.id
  | .logical _ left operator right => .logical left.id operator right.id
  | .group _ inner => .group inner.id
  | .call _ callee arguments paren => .call callee.id (arguments.map Expr.id) paren

@[simp] theorem Expr.children_node (e : Expr) : e.node.children = e.parts.map Expr.id := by
  cases e <;> rfl

/-- The nodes of the expression are in the arena, each at the place of its number. -/
inductive Expr.Held (arena : List Node) : Expr → Prop
  | mk {e : Expr} (node : arena[e.id]? = some e.node)
    (parts : ∀ part ∈ e.parts, Expr.Held arena part) : Expr.Held arena e

theorem Expr.Held.node {arena : List Node} {e : Expr} (h : e.Held arena) :
    arena[e.id]? = some e.node := by
  cases h with
  | mk node _ => exact node

theorem Expr.Held.lt {arena : List Node} {e : Expr} (h : e.Held arena) : e.id < arena.length :=
  (List.getElem?_eq_some_iff.mp h.node).1

theorem Expr.Held.mono {arena arena' : List Node} {e : Expr} (h : e.Held arena)
    (hle : arena <+: arena') : e.Held arena' := by
  obtain ⟨more, rfl⟩ := hle
  induction h with
  | mk node _ ih =>
    refine ⟨?_, ih⟩
    rwa [List.getElem?_append_left (List.getElem?_eq_some_iff.mp node).1]

/-! ## Operators -/

/-- The operators that stand before their operand. -/
def unarySymbols : List Symbol := [.bang, .minus]

/-- The operators that may leave their right operand unevaluated. -/
def logicalSymbols : List Symbol := [.and, .or]

/-- The operators that stand between their operands, which are always both evaluated. -/
def binarySymbols : List Symbol :=
  [.bangEqual, .equalEqual, .greater, .greaterEqual, .less, .lessEqual, .percent, .minus, .plus,
    .slash, .star]

/-- The token is one of the symbols. -/
def Token.IsOneOf (t : Token) (symbols : List Symbol) : Prop := ∃ s ∈ symbols, t.symbol? = some s

/-- The operator of the node is one of those for this kind of node. -/
def Node.Apt : Node → Prop
  | .unary operator _ => operator.IsOneOf unarySymbols
  | .binary _ operator _ => operator.IsOneOf binarySymbols
  | .logical _ operator _ => operator.IsOneOf logicalSymbols
  | .literal _ | .read _ | .assign _ _ | .group _ | .call _ _ _ => True

/-- All operators of the expression are apt. -/
inductive Expr.Apt : Expr → Prop
  | mk {e : Expr} (node : e.node.Apt) (parts : ∀ part ∈ e.parts, part.Apt) : e.Apt

/-! ## Sprouts -/

/-- The operands of all nodes are in the arena. -/
def Closed (arena : List Node) : Prop :=
  ∀ node ∈ arena, ∀ child ∈ node.children, child < arena.length

/--
The nodes from `lo` on, and the expressions among them that are not operands yet: an operand comes
before the node that has it, and no expression is two times an operand or a root.
-/
structure Sprout (lo : Nat) (arena : List Node) (roots : List Expr) : Prop where
  le_length : lo ≤ arena.length
  below : ∀ i node, lo ≤ i → arena[i]? = some node →
    ∀ child ∈ node.children, lo ≤ child ∧ child < i
  once : ((arena.drop lo).flatMap Node.children ++ roots.map Expr.id).Nodup
  held : ∀ e ∈ roots, lo ≤ e.id ∧ e.Held arena
  apt : ∀ i node, lo ≤ i → arena[i]? = some node → node.Apt

namespace Sprout

variable {lo : Nat} {arena : List Node} {roots others : List Expr}

/-- Before anything is built there are no roots. -/
theorem start (arena : List Node) : Sprout arena.length arena [] where
  le_length := Nat.le_refl _
  below i node hi hnode := absurd (List.getElem?_eq_some_iff.mp hnode).1 (Nat.not_lt.mpr hi)
  once := by simp
  held e he := absurd he List.not_mem_nil
  apt i node hi hnode := absurd (List.getElem?_eq_some_iff.mp hnode).1 (Nat.not_lt.mpr hi)

/-- Roots may be dropped, and their order does not matter. -/
theorem subperm (h : Sprout lo arena roots) {roots' : List Expr} (hle : roots'.Subperm roots) :
    Sprout lo arena roots' where
  le_length := h.le_length
  below := h.below
  once := by
    obtain ⟨kept, hperm, hsublist⟩ := hle
    have honce := h.once.sublist ((hsublist.map Expr.id).append_left _)
    exact ((hperm.map Expr.id).append_left _).nodup_iff.mp honce
  held e he := h.held e (hle.subset he)
  apt := h.apt

theorem mem_children_lt (h : Sprout lo arena roots) {child : Nat}
    (hchild : child ∈ (arena.drop lo).flatMap Node.children) : child < arena.length := by
  obtain ⟨node, hnode, hchild⟩ := List.mem_flatMap.mp hchild
  obtain ⟨i, hi⟩ := List.mem_iff_getElem?.mp hnode
  rw [List.getElem?_drop] at hi
  have hlt := (h.below _ node (Nat.le_add_right lo i) hi child hchild).2
  exact Nat.lt_trans hlt (List.getElem?_eq_some_iff.mp hi).1

theorem getElem?_append_cases {arena : List Node} {node node' : Node} {i : Nat}
    (h : (arena ++ [node])[i]? = some node') :
    arena[i]? = some node' ∨ i = arena.length ∧ node' = node := by
  rw [List.getElem?_append] at h
  split at h
  · exact Or.inl h
  · next hle =>
    obtain ⟨hi, hnode⟩ := List.getElem?_eq_some_iff.mp h
    rw [List.length_singleton] at hi
    refine Or.inr ⟨by omega, ?_⟩
    rw [← hnode, List.getElem_singleton]

/-- **A new node** takes its operands from the roots and becomes a root itself. -/
theorem add {e : Expr} (h : Sprout lo arena (e.parts ++ others)) (hid : e.id = arena.length)
    (hapt : e.node.Apt) : Sprout lo (arena ++ [e.node]) (e :: others) where
  le_length := Nat.le_trans h.le_length (by simp)
  below := by
    intro i node hi hnode child hchild
    rcases getElem?_append_cases hnode with hold | ⟨rfl, rfl⟩
    · exact h.below i node hi hold child hchild
    · rw [Expr.children_node] at hchild
      obtain ⟨part, hpart, rfl⟩ := List.mem_map.mp hchild
      obtain ⟨hle, hheld⟩ := h.held part (List.mem_append_left _ hpart)
      exact ⟨hle, hheld.lt⟩
  once := by
    have honce := h.once
    rw [List.map_append, ← List.append_assoc] at honce
    rw [List.drop_append_of_le_length h.le_length, List.flatMap_append, List.flatMap_singleton,
      Expr.children_node, List.map_cons, List.perm_middle.nodup_iff, List.nodup_cons]
    refine ⟨?_, honce⟩
    -- All numbers so far lie below that of the new node.
    intro hmem
    rw [hid, List.append_assoc, ← List.map_append, List.mem_append] at hmem
    rcases hmem with hmem | hmem
    · exact Nat.lt_irrefl _ (h.mem_children_lt hmem)
    · obtain ⟨root, hroot, heq⟩ := List.mem_map.mp hmem
      exact Nat.lt_irrefl _ (heq ▸ (h.held root hroot).2.lt)
  held := by
    have hmono : arena <+: arena ++ [e.node] := List.prefix_append _ _
    rw [List.forall_mem_cons]
    refine ⟨⟨hid ▸ h.le_length, ?_, ?_⟩, ?_⟩
    · rw [hid, List.getElem?_append_right (Nat.le_refl _), Nat.sub_self]
      rfl
    · exact fun part hpart => (h.held part (List.mem_append_left _ hpart)).2.mono hmono
    · intro root hroot
      obtain ⟨hle, hheld⟩ := h.held root (List.mem_append_right _ hroot)
      exact ⟨hle, hheld.mono hmono⟩
  apt := by
    intro i node hi hnode
    rcases getElem?_append_cases hnode with hold | ⟨-, rfl⟩
    · exact h.apt i node hi hold
    · exact hapt

/-- The operators of a root are apt, since those of all new nodes are. -/
theorem apt_of_mem (h : Sprout lo arena roots) {e : Expr} (he : e ∈ roots) : e.Apt := by
  obtain ⟨hle, hheld⟩ := h.held e he
  clear he
  induction hheld with
  | @mk e node _ ih =>
    refine ⟨h.apt e.id e.node hle node, ?_⟩
    intro part hpart
    have hchild : part.id ∈ e.node.children := by
      rw [Expr.children_node]
      exact List.mem_map_of_mem hpart
    exact ih part hpart (h.below e.id e.node hle node part.id hchild).1

/-- An arena that is closed stays so, since new nodes have new operands. -/
theorem closed {start : List Node} (h : Sprout start.length arena roots) (hle : start <+: arena)
    (hstart : Closed start) : Closed arena := by
  obtain ⟨more, rfl⟩ := hle
  intro node hnode child hchild
  rcases List.mem_append.mp hnode with hold | hnew
  · have hlt := hstart node hold child hchild
    exact Nat.lt_of_lt_of_le hlt h.le_length
  · apply h.mem_children_lt
    rw [List.drop_left]
    exact List.mem_flatMap.mpr ⟨node, hnew, hchild⟩

/-- **In all of a closed arena, a new node is an operand or a root, and once, or neither.** -/
theorem count_le_one {start : List Node} (h : Sprout start.length arena roots)
    (hle : start <+: arena) (hstart : Closed start) {i : Nat} (hi : start.length ≤ i) :
    (arena.flatMap Node.children ++ roots.map Expr.id).count i ≤ 1 := by
  obtain ⟨more, rfl⟩ := hle
  have honce := h.once
  rw [List.drop_left] at honce
  have hold : i ∉ start.flatMap Node.children := by
    intro hmem
    obtain ⟨node, hnode, hchild⟩ := List.mem_flatMap.mp hmem
    exact Nat.not_lt.mpr hi (hstart node hnode i hchild)
  rw [List.flatMap_append, List.append_assoc, List.count_append, List.count_eq_zero.mpr hold,
    Nat.zero_add]
  exact List.nodup_iff_count_le_one.mp honce i

end Sprout

/-! ## Paths -/

/--
A way through an arena: from the root at the position `start`, to the operand at each of the
positions `turns`, the last of which comes first.
-/
inductive Leads (arena : List Node) (roots : List Nat) (start : Nat) : List Nat → Nat → Prop
  | root {i : Nat} : roots[start]? = some i → Leads arena roots start [] i
  | child {turns : List Nat} {i j turn : Nat} {node : Node} : Leads arena roots start turns i →
    arena[i]? = some node → node.children[turn]? = some j →
    Leads arena roots start (turn :: turns) j

namespace Sprout

variable {lo : Nat} {arena : List Node} {roots : List Expr}

theorem le_of_leads (h : Sprout lo arena roots) {start i : Nat} {turns : List Nat}
    (hleads : Leads arena (roots.map Expr.id) start turns i) : lo ≤ i := by
  induction hleads with
  | root hroot =>
    obtain ⟨e, he, rfl⟩ := List.mem_map.mp (List.mem_of_getElem? hroot)
    exact (h.held e he).1
  | child _ hnode hchild ih =>
    exact (h.below _ _ ih hnode _ (List.mem_of_getElem? hchild)).1

theorem getElem?_drop_of_le {i : Nat} (hi : lo ≤ i) : (arena.drop lo)[i - lo]? = arena[i]? := by
  rw [List.getElem?_drop, Nat.add_sub_cancel' hi]

/-- A node is the operand of one node at most, and once. -/
theorem parent_unique (h : Sprout lo arena roots) {i i' j turn turn' : Nat} {node node' : Node}
    (hi : lo ≤ i) (hi' : lo ≤ i') (hnode : arena[i]? = some node)
    (hnode' : arena[i']? = some node') (hchild : node.children[turn]? = some j)
    (hchild' : node'.children[turn']? = some j) : i = i' ∧ turn = turn' := by
  obtain ⟨honce, hdisjoint⟩ := List.nodup_flatMap.mp h.once.of_append_left
  have hj : j ∈ node.children := List.mem_of_getElem? hchild
  have hj' : j ∈ node'.children := List.mem_of_getElem? hchild'
  rw [← getElem?_drop_of_le hi] at hnode
  rw [← getElem?_drop_of_le hi'] at hnode'
  obtain ⟨hlt, rfl⟩ := List.getElem?_eq_some_iff.mp hnode
  obtain ⟨hlt', rfl⟩ := List.getElem?_eq_some_iff.mp hnode'
  have hapart := List.pairwise_iff_getElem.mp hdisjoint
  obtain hless | hsame | hless := Nat.lt_trichotomy (i - lo) (i' - lo)
  · exact absurd hj' (hapart _ _ hlt hlt' hless hj)
  · obtain rfl : i = i' := by omega
    refine ⟨rfl, ?_⟩
    have hturn : turn < ((arena.drop lo)[i - lo]).children.length :=
      (List.getElem?_eq_some_iff.mp hchild).1
    exact (List.getElem?_inj hturn (honce _ (List.getElem_mem hlt))).mp (hchild.trans hchild'.symm)
  · exact absurd hj (hapart _ _ hlt' hlt hless hj')

/-- A root is not an operand. -/
theorem root_not_child (h : Sprout lo arena roots) {i j turn : Nat} {node : Node} (hi : lo ≤ i)
    (hnode : arena[i]? = some node) (hchild : node.children[turn]? = some j) :
    j ∉ roots.map Expr.id := by
  rw [← getElem?_drop_of_le hi] at hnode
  have hj : j ∈ (arena.drop lo).flatMap Node.children :=
    List.mem_flatMap.mpr ⟨node, List.mem_of_getElem? hnode, List.mem_of_getElem? hchild⟩
  exact fun hroot => List.disjoint_of_nodup_append h.once hj hroot

/-- **There is one way to a node at most.** -/
theorem leads_unique (h : Sprout lo arena roots) {start start' i : Nat} {turns turns' : List Nat}
    (hleads : Leads arena (roots.map Expr.id) start turns i)
    (hleads' : Leads arena (roots.map Expr.id) start' turns' i) :
    start = start' ∧ turns = turns' := by
  induction hleads generalizing turns' with
  | root hroot =>
    cases hleads' with
    | root hroot' =>
      have hstart := (List.getElem?_eq_some_iff.mp hroot).1
      exact ⟨(List.getElem?_inj hstart h.once.of_append_right).mp (hroot.trans hroot'.symm), rfl⟩
    | child hrest hnode hchild =>
      have hnot := h.root_not_child (h.le_of_leads hrest) hnode hchild
      exact absurd (List.mem_of_getElem? hroot) hnot
  | child hrest hnode hchild ih =>
    cases hleads' with
    | root hroot =>
      have hnot := h.root_not_child (h.le_of_leads hrest) hnode hchild
      exact absurd (List.mem_of_getElem? hroot) hnot
    | child hrest' hnode' hchild' =>
      obtain ⟨rfl, rfl⟩ := h.parent_unique (h.le_of_leads hrest) (h.le_of_leads hrest') hnode hnode'
        hchild hchild'
      obtain ⟨rfl, rfl⟩ := ih hrest'
      exact ⟨rfl, rfl⟩

end Sprout

end Nya
