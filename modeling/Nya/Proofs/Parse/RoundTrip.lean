import Nya.Proofs.Parse.Reads
import Nya.Proofs.Parse.Yields

/-!
# Reading an expression back

A levelled expression is read back from its tokens, and the tokens of whatever was read are those
that were taken.

The grammar has no left recursion where the tree has one: a level reads its first operand and then
pursues what follows. So reading is followed along the left edge of a tree. `Expr.Leads k` says that
a reader of the rank `k`, put before the tokens of the expression, gets as far as to pursue what
comes behind them. From there it goes down to the looser levels (`Expr.Leads.loosen`) or stops
(`Expr.Leads.regained`).
-/

namespace Nya

variable {t : Token} {k : Nat} {e : Expr}

/-! ## First tokens -/

/-- The symbols at which an expression may start. -/
def Symbol.openings : List Symbol :=
  [.yes, .no, .nil, .typeNumber, .typeString, .typeBoolean, .leftParen, .bang, .minus]

/-- Whether an expression may start with the token. -/
def Token.isOpening (t : Token) : Bool :=
  match t.kind with
  | .identifier | .number _ | .string _ => true
  | .symbol s => s ∈ Symbol.openings
  | .eof => false

theorem Token.isSymbol_of_isOpening (h : t.isOpening = true) {s : Symbol}
    (hs : s ∉ Symbol.openings) : t.isSymbol s = false := by
  rw [Bool.eq_false_iff]
  intro ht
  rw [isSymbol_iff] at ht
  rw [isOpening, ht] at h
  exact hs (of_decide_eq_true h)

theorem Token.isOpening_of_isSymbol {s : Symbol} (h : t.isSymbol s = true)
    (hs : s ∈ Symbol.openings) : t.isOpening = true := by
  rw [isSymbol_iff] at h
  rw [isOpening, h]
  exact decide_eq_true hs

theorem Token.isOpening_of_literal? {value : Literal} (h : Parse.literal? t = some value) :
    t.isOpening = true := by
  unfold Parse.literal? at h
  rw [isOpening]
  split at h <;> simp_all [Symbol.openings]

/-- Every expression has a token to start with. -/
theorem Expr.Spelled.opening : ∀ {e : Expr} {ts : List Token}, e.Leveled → e.Spelled ts →
    ∃ t us, ts = t :: us ∧ t.isOpening = true
  | .literal _ _, _, _, ⟨t, hts, ht⟩ => ⟨t, [], hts, Token.isOpening_of_literal? ht⟩
  | .read target, _, hname, ⟨t, hts, ht⟩ => by
    refine ⟨t, [], hts, ?_⟩
    rw [Token.isOpening, Token.kind_of_unlined ht, hname]
  | .assign target _, _, hleveled, ⟨t, equals, us, hts, ht, _⟩ => by
    refine ⟨t, equals :: us, hts, ?_⟩
    rw [Token.isOpening, Token.kind_of_unlined ht, hleveled.1]
  | .unary _ operator _, _, ⟨hoperator, _⟩, ⟨t, us, hts, ht, _⟩ => by
    refine ⟨t, us, hts, ?_⟩
    rw [← Token.isSymbol_of_unlined ht, ← Token.isSymbol_of_unlined ht] at hoperator
    rcases hoperator with h | h
    · exact Token.isOpening_of_isSymbol h (by decide)
    · exact Token.isOpening_of_isSymbol h (by decide)
  | .logical _ left _ _, _, ⟨_, _, _, hleft, _⟩, ⟨us, t, vs, hts, hus, _⟩
  | .binary _ left _ _, _, ⟨_, _, _, hleft, _⟩, ⟨us, t, vs, hts, hus, _⟩
  | .call _ left _ _, _, ⟨hleft, _⟩, ⟨us, t, vs, _, hts, hus, _⟩ => by
    obtain ⟨first, us', rfl, hfirst⟩ := Expr.Spelled.opening hleft hus
    exact ⟨first, _, hts, hfirst⟩
  | .group _ _, _, _, ⟨start, us, stop, hts, hstart, _⟩ =>
    ⟨start, us ++ [stop], hts, Token.isOpening_of_isSymbol hstart (by decide)⟩

namespace Parse

/-! ## Readers and where they stop -/

/-- The parser of the expressions that hold together at least as tightly as a rank. -/
def reader : Nat → Nat → Parser Expr
  | 0, n => expression n
  | k + 1, n => level n (levels.drop k)

/-- How the parser of a rank goes on after the first operand. -/
def pursue (k : Nat) (left : Expr) (n : Nat) : Parser Expr :=
  match levels.drop (k - 1) with
  | l :: tighter => chain n l tighter left
  | [] => if k = 8 then pure left else calls n left

/-- No token follows that would hold on to an expression at least as tightly as the rank. -/
def Stops (k : Nat) (rest : List Token) : Prop :=
  ∀ t ∈ rest.head?, ∀ r, t.rank? = some r → r < k

theorem Stops.mono {j k : Nat} {rest : List Token} (h : Stops j rest) (hjk : j ≤ k) :
    Stops k rest :=
  fun t ht r hr => Nat.lt_of_lt_of_le (h t ht r hr) hjk

theorem stops_cons {k r : Nat} {rest : List Token} (ht : t.rank? = some r) (hr : r < k) :
    Stops k (t :: rest) := by
  intro t' ht' r' hr'
  cases ht'
  rw [ht] at hr'
  cases hr'
  exact hr

/-- A symbol that is not an operator stops every reader. -/
theorem stops_of_isSymbol {rest : List Token} {s : Symbol} (ht : t.isSymbol s = true)
    (hs : s.rank? = none) : Stops k (t :: rest) := by
  intro t' ht' r hr
  cases ht'
  rw [Token.rank?_of_isSymbol ht hs] at hr
  cases hr

/-- No operator of the rank of the unary ones stands behind an expression. -/
theorem Stops.unary {rest : List Token} (h : Stops 9 rest) : Stops 8 rest := by
  intro t ht r hr
  have hlt := h t ht r hr
  have hne : r ≠ 8 := by
    rintro rfl
    obtain ⟨s, -, hs⟩ := Option.bind_eq_some_iff.mp hr
    cases s <;> cases hs
  omega

theorem levels_drop_nil (h : 7 ≤ k) : levels.drop k = [] :=
  List.drop_eq_nil_of_le h

theorem pursue_eq_chain {l : Level} {tighter : List Level} (hl : levels.drop k = l :: tighter)
    (left : Expr) :
    pursue (k + 1) left = fun n => chain n l tighter left := by
  funext n
  simp only [pursue, Nat.add_sub_cancel, hl]

theorem pursue_eq_calls (hk : 9 ≤ k) (left : Expr) :
    pursue k left = fun n => calls n left := by
  have hdrop : levels.drop (k - 1) = [] := levels_drop_nil (by omega)
  funext n
  simp only [pursue, hdrop, if_neg (Nat.ne_of_gt hk)]

/-- The unary level stands for all that are tighter than the binary ones. -/
theorem yields_reader_iff {s s' : State} (hk : 8 ≤ k) :
    Yields (reader k) s e s' ↔ Yields unary s e s' := by
  obtain ⟨j, rfl⟩ : ∃ j, k = j + 1 := ⟨k - 1, by omega⟩
  rw [← yields_succ_iff]
  simp only [reader, levels_drop_nil (Nat.le_of_succ_le_succ hk), level_nil]

/-- Nothing is pursued where the reader stops. -/
theorem pursue_stops {s : State} (hk : 1 ≤ k ∧ k ≤ 9) (hs : Stops k s.rest) :
    Yields (pursue k e) s e s := by
  rcases Nat.lt_trichotomy k 8 with hlt | rfl | hgt
  · obtain ⟨j, rfl⟩ : ∃ j, k = j + 1 := ⟨k - 1, by omega⟩
    obtain ⟨l, hl, hsymbols, -⟩ := levels_drop (Nat.lt_of_succ_lt_succ hlt)
    rw [pursue_eq_chain hl]
    refine .succ ?_
    simp only [chain_succ]
    refine yields_takeIf_none ?_ (yields_pure e s)
    intro t ht
    rw [Bool.eq_false_iff]
    intro hany
    exact Nat.lt_irrefl _ (hs t ht _ ((hsymbols t).mp hany))
  · exact yields_pure e s
  · obtain rfl : k = 9 := by omega
    rw [pursue_eq_calls (Nat.le_refl 9)]
    refine .succ ?_
    simp only [calls_succ]
    refine yields_takeIf_none ?_ (yields_pure e s)
    intro t ht
    rw [Bool.eq_false_iff]
    intro hparen
    exact Nat.lt_irrefl _ (hs t ht 9 (Token.rank?_of_isSymbol hparen rfl))

end Parse

/-! ## Following the left edge -/

open Parse

/-- A reader of the rank, put before the tokens of the expression, gets to pursue what follows. -/
def Expr.Leads (k : Nat) (e : Expr) (ts rest : List Token) : Prop :=
  ∀ nodes functions faults, ∃ e' nodes', e'.plain = e.plain ∧ ∀ v s',
    Yields (pursue k e') ⟨rest, nodes', functions, faults⟩ v s' →
    Yields (reader k) ⟨ts ++ rest, nodes, functions, faults⟩ v s'

/-- A reader of the rank reads the expression back from its tokens. -/
def Expr.Regained (k : Nat) (e : Expr) (ts rest : List Token) : Prop :=
  ∀ nodes functions faults, ∃ e' nodes', e'.plain = e.plain ∧
    Yields (reader k) ⟨ts ++ rest, nodes, functions, faults⟩ e' ⟨rest, nodes', functions, faults⟩

variable {ts us vs rest : List Token}

theorem Expr.Leads.stop {k : Nat} {e : Expr} (h : e.Leads k ts rest) (hk : 1 ≤ k ∧ k ≤ 9)
    (hrest : Stops k rest) : e.Regained k ts rest := by
  intro nodes functions faults
  obtain ⟨e', nodes', heq, h⟩ := h nodes functions faults
  exact ⟨e', nodes', heq, h e' _ (pursue_stops hk hrest)⟩

/-- What a tighter level leads to is the first operand of a looser one. -/
theorem Expr.Leads.loosenOne (h : e.Leads (k + 1) ts rest) (hk : 1 ≤ k ∧ k ≤ 9)
    (hrest : Stops (k + 1) rest) : e.Leads k ts rest := by
  rcases Nat.lt_trichotomy k 8 with hlt | rfl | hgt
  · obtain ⟨j, rfl⟩ : ∃ j, k = j + 1 := ⟨k - 1, by omega⟩
    obtain ⟨l, hl, -, -⟩ := levels_drop (Nat.lt_of_succ_lt_succ hlt)
    intro nodes functions faults
    obtain ⟨e', nodes', heq, hread⟩ := h.stop (by omega) hrest nodes functions faults
    refine ⟨e', nodes', heq, fun v s' hv => .succ ?_⟩
    rw [pursue_eq_chain hl] at hv
    simp only [reader, hl, level_cons]
    exact hread.bind hv
  · -- A unary expression is not pursued any further.
    intro nodes functions faults
    obtain ⟨e', nodes', heq, hread⟩ := h.stop (by omega) hrest nodes functions faults
    refine ⟨e', nodes', heq, fun v s' hv => ?_⟩
    obtain ⟨rfl, rfl⟩ := (yields_pure e' _).unique hv
    exact hread
  · obtain rfl : k = 9 := by omega
    exact h

theorem Expr.Leads.loosen {j k : Nat} (hj : 1 ≤ j) (hjk : j ≤ k) (hk : k ≤ 10)
    (h : e.Leads k ts rest) (hrest : Stops (j + 1) rest) : e.Leads j ts rest := by
  induction hjk with
  | refl => exact h
  | @step k hle ih =>
    have hle' : j ≤ k := hle
    exact ih (by omega) (h.loosenOne (by omega) (hrest.mono (by omega)))

/-- A reader that does not look for anything that follows reads the expression and stops. -/
theorem Expr.Leads.regained {j k : Nat} (h : e.Leads k ts rest) (hjk : j ≤ k) (hk : 1 ≤ k ∧ k ≤ 10)
    (hj : j ≤ 9) (hrest : Stops j rest) : e.Regained j ts rest := by
  cases j with
  | succ j =>
    exact (h.loosen (by omega) hjk hk.2 (hrest.mono (by omega))).stop (by omega) hrest
  | zero =>
    have hone : e.Regained 1 ts rest :=
      (h.loosen (Nat.le_refl 1) hk.1 hk.2 (hrest.mono (by omega))).stop (by omega)
        (hrest.mono (by omega))
    intro nodes functions faults
    obtain ⟨e', nodes', heq, hread⟩ := hone nodes functions faults
    refine ⟨e', nodes', heq, .succ ?_⟩
    simp only [reader, expression_succ]
    refine Yields.bind hread (yields_takeIf_none ?_ (yields_pure _ _))
    intro t ht
    rw [Bool.eq_false_iff]
    intro hequal
    exact Nat.not_lt_zero 0 (hrest t ht 0 (Token.rank?_of_isSymbol hequal rfl))

/-! ## Nodes -/

/-- What stands alone is read as the callee of whatever calls may follow. -/
theorem Expr.leads_of_primary (hbang : t.isSymbol .bang = false)
    (hminus : t.isSymbol .minus = false)
    (h : ∀ nodes functions faults, ∃ e' nodes', e'.plain = e.plain ∧
      Yields primary ⟨t :: (us ++ rest), nodes, functions, faults⟩ e'
        ⟨rest, nodes', functions, faults⟩) : e.Leads 10 (t :: us) rest := by
  intro nodes functions faults
  obtain ⟨e', nodes', heq, hread⟩ := h nodes functions faults
  refine ⟨e', nodes', heq, fun v s' hv => (yields_reader_iff (by decide)).mpr (.succ ?_)⟩
  rw [pursue_eq_calls (by decide)] at hv
  simp only [Parse.unary_succ]
  refine yields_takeIf_none ?_ (hread.bind hv)
  intro t' ht'
  cases ht'
  simp [hbang, hminus]

theorem Expr.leads_literal (id : Nat) {value : Literal} (ht : literal? t = some value) :
    (Expr.literal id value).Leads 10 [t] rest := by
  have hnot : ∀ s ∈ [Symbol.bang, Symbol.minus], t.isSymbol s = false := by
    intro s hs
    rw [Bool.eq_false_iff]
    intro hsymbol
    rw [Token.isSymbol_iff] at hsymbol
    rw [literal?, hsymbol] at ht
    simp only [List.mem_cons, List.not_mem_nil, or_false] at hs
    rcases hs with rfl | rfl <;> cases ht
  refine leads_of_primary (hnot _ (by simp)) (hnot _ (by simp)) ?_
  intro nodes functions faults
  refine ⟨.literal nodes value, nodes + 1, rfl, .succ ?_⟩
  simp only [primary_succ]
  refine yields_takeIf (by rw [ht]; rfl) (yields_newNode ?_)
  rw [ht]
  exact yields_pure _ _

theorem Expr.leads_read {target : Reference} (hname : target.name.kind = .identifier)
    (ht : t.unlined = target.name.unlined) : (Expr.read target).Leads 10 [t] rest := by
  have hkind : t.kind = .identifier := (Token.kind_of_unlined ht).trans hname
  refine leads_of_primary (by simp [Token.isSymbol, hkind]) (by simp [Token.isSymbol, hkind]) ?_
  intro nodes functions faults
  refine ⟨.read ⟨nodes, t, none⟩, nodes + 1, ?_, .succ ?_⟩
  · simp only [Expr.plain, Reference.plain, ht]
  · simp only [primary_succ]
    refine yields_takeIf_none ?_ (yields_takeIf (by rw [hkind]; rfl) (yields_newNode ?_))
    · intro t' ht'
      cases ht'
      rw [literal?, hkind]
      rfl
    · exact yields_pure _ _

theorem Expr.leads_group (id : Nat) {start stop : Token} {inner : Expr}
    (hstart : start.isSymbol .leftParen = true) (hinner : inner.Regained 0 us (stop :: rest))
    (hstop : stop.isSymbol .rightParen = true) :
    (Expr.group id inner).Leads 10 (start :: (us ++ [stop])) rest := by
  have hkind := Token.isSymbol_iff.mp hstart
  refine leads_of_primary (by simp [Token.isSymbol, hkind]) (by simp [Token.isSymbol, hkind]) ?_
  intro nodes functions faults
  obtain ⟨inner', nodes', heq, hread⟩ := hinner nodes functions faults
  refine ⟨.group nodes' inner', nodes' + 1, ?_, .succ ?_⟩
  · simp only [Expr.plain, heq]
  · simp only [primary_succ, List.append_assoc, List.singleton_append]
    refine yields_takeIf_none ?_ (yields_takeIf_none ?_ (yields_takeIf hstart ?_))
    · intro t ht
      cases ht
      rw [literal?, hkind]
      rfl
    · intro t ht
      cases ht
      rw [hkind]
      rfl
    · exact hread.bind (yields_expect hstop (yields_newNode (yields_pure _ _)))

theorem Expr.leads_unary (id : Nat) {t operator : Token} {right : Expr}
    (ht : t.unlined = operator.unlined)
    (hoperator : operator.isSymbol .bang = true ∨ operator.isSymbol .minus = true)
    (hright : right.Regained 8 us rest) :
    (Expr.unary id operator right).Leads 8 (t :: us) rest := by
  intro nodes functions faults
  obtain ⟨right', nodes', heq, hread⟩ := hright nodes functions faults
  refine ⟨.unary nodes' t right', nodes' + 1, ?_, fun v s' hv => ?_⟩
  · simp only [Expr.plain, heq, ht]
  · obtain ⟨rfl, rfl⟩ := (yields_pure _ _).unique hv
    rw [yields_reader_iff (by decide)] at hread
    refine (yields_reader_iff (by decide)).mpr (.succ ?_)
    simp only [Parse.unary_succ]
    refine yields_takeIf ?_ (hread.bind (yields_newNode (yields_pure _ _)))
    rw [← Token.isSymbol_of_unlined ht, ← Token.isSymbol_of_unlined ht] at hoperator
    simpa using hoperator

/-- A level pursues the operator behind a first operand and the operand behind that. -/
theorem Expr.leads_node {l : Level} {e left right : Expr}
    (hl : levels.drop k = l :: levels.drop (k + 1)) (ht : l.symbols.any t.isSymbol = true)
    (he : ∀ id left' right', left'.plain = left.plain → right'.plain = right.plain →
      (l.node id left' t right').plain = e.plain)
    (hleft : left.Leads (k + 1) us (t :: (vs ++ rest))) (hright : right.Regained (k + 2) vs rest) :
    e.Leads (k + 1) (us ++ t :: vs) rest := by
  intro nodes functions faults
  obtain ⟨left', nodes₁, heql, hleft⟩ := hleft nodes functions faults
  obtain ⟨right', nodes₂, heqr, hright⟩ := hright nodes₁ functions faults
  refine ⟨l.node nodes₂ left' t right', nodes₂ + 1, he _ _ _ heql heqr, fun v s' hv => ?_⟩
  rw [pursue_eq_chain hl] at hv
  rw [List.append_assoc, List.cons_append]
  refine hleft v s' ?_
  rw [pursue_eq_chain hl]
  refine .succ ?_
  simp only [chain_succ]
  exact yields_takeIf ht (hright.bind (yields_newNode hv))

theorem Expr.leads_call (id : Nat) {callee : Expr} {arguments : List Expr}
    {start stop paren : Token} (hcallee : callee.Leads 9 us (start :: (vs ++ stop :: rest)))
    (hstart : start.isSymbol .leftParen = true)
    (harguments : ∀ nodes functions faults, ∃ es nodes',
      Expr.plainAll es = Expr.plainAll arguments ∧
      Yields argumentList ⟨vs ++ stop :: rest, nodes, functions, faults⟩ es
        ⟨stop :: rest, nodes', functions, faults⟩)
    (hparen : paren.isSymbol .rightParen = true) (hstop : stop.unlined = paren.unlined) :
    (Expr.call id callee arguments paren).Leads 9 (us ++ start :: (vs ++ [stop])) rest := by
  intro nodes functions faults
  obtain ⟨callee', nodes₁, heqc, hcallee⟩ := hcallee nodes functions faults
  obtain ⟨es, nodes₂, heqa, harguments⟩ := harguments nodes₁ functions faults
  refine ⟨.call nodes₂ callee' es stop, nodes₂ + 1, ?_, fun v s' hv => ?_⟩
  · simp only [Expr.plain, heqc, heqa, hstop]
  · rw [pursue_eq_calls (Nat.le_refl 9)] at hv hcallee
    simp only [List.append_assoc, List.cons_append, List.nil_append]
    refine hcallee v s' (.succ ?_)
    simp only [calls_succ]
    rw [← Token.isSymbol_of_unlined hstop] at hparen
    exact yields_takeIf hstart (harguments.bind (yields_expect hparen (yields_newNode hv)))

/-- The right side of an assignment is read to its end. -/
theorem Expr.regained_assign {t equals : Token} {target : Reference} {value : Expr}
    (hname : target.name.kind = .identifier) (ht : t.unlined = target.name.unlined)
    (hequals : equals.isSymbol .equal = true) (hvalue : value.Regained 0 us rest) :
    (Expr.assign target value).Regained 0 (t :: equals :: us) rest := by
  have hstops : Stops 1 (equals :: (us ++ rest)) :=
    stops_cons (Token.rank?_of_isSymbol hequals rfl) (Nat.lt_add_one 0)
  have hleft := (leads_read hname ht).regained (j := 1) (by decide) (by decide) (by decide) hstops
  intro nodes functions faults
  obtain ⟨left, nodes₁, heql, hleft⟩ := hleft nodes functions faults
  obtain ⟨value', nodes₂, heqv, hvalue⟩ := hvalue nodes₁ functions faults
  obtain ⟨target', rfl, htarget⟩ : ∃ target', left = .read target' ∧
      target'.plain = target.plain := by
    cases left with
    | read target' => exact ⟨target', rfl, Expr.read.inj heql⟩
    | _ => cases heql
  refine ⟨.assign { target' with id := nodes₂ } value', nodes₂ + 1, ?_, .succ ?_⟩
  · have hname' : ({ target' with id := nodes₂ } : Reference).plain = target'.plain := rfl
    simp only [Expr.plain, hname', htarget, heqv]
  · simp only [reader, expression_succ]
    refine Yields.bind hleft (yields_takeIf hequals (Yields.bind hvalue ?_))
    exact yields_newNode (yields_pure _ _)

/-! ## Whole expressions -/

/--
An expression that is not an assignment leads on from its own rank. An assignment is read to its
end.
-/
def Expr.Reread (e : Expr) (ts : List Token) : Prop :=
  (1 ≤ e.rank ∧ e.rank ≤ 10 ∧ ∀ rest, Stops (e.rank + 1) rest → e.Leads e.rank ts rest) ∨
    (e.rank = 0 ∧ ∀ rest, Stops 0 rest → e.Regained 0 ts rest)

theorem Expr.reread_of_leads (k : Nat) (hrank : e.rank = k) (hk : 1 ≤ k ∧ k ≤ 10)
    (h : ∀ rest, Stops (k + 1) rest → e.Leads k ts rest) : e.Reread ts := by
  subst hrank
  exact Or.inl ⟨hk.1, hk.2, h⟩

theorem Expr.Reread.leads {j : Nat} (h : e.Reread ts) (hj : 1 ≤ j) (hje : j ≤ e.rank)
    (hrest : Stops (j + 1) rest) : e.Leads j ts rest := by
  rcases h with ⟨-, hle, h⟩ | ⟨hzero, -⟩
  · exact (h rest (hrest.mono (by omega))).loosen hj hje hle hrest
  · omega

theorem Expr.Reread.regained {j : Nat} (h : e.Reread ts) (hje : j ≤ e.rank) (hj : j ≤ 9)
    (hrest : Stops j rest) : e.Regained j ts rest := by
  rcases h with ⟨hpos, hle, h⟩ | ⟨hzero, h⟩
  · exact (h rest (hrest.mono (by omega))).regained hje ⟨hpos, hle⟩ hj hrest
  · obtain rfl : j = 0 := by omega
    exact h rest hrest

/-- Two operands and the operator between them are read back if the operands are. -/
theorem Expr.reread_node {e left right : Expr} {operator t : Token} (hrank : e.rank = k)
    (hk : 1 ≤ k ∧ k ≤ 7) (hoperator : operator.rank? = some k) (ht : t.unlined = operator.unlined)
    (he : ∀ (l : Level) id left' right', (l.isLogical = true ↔ k ≤ 2) →
      left'.plain = left.plain → right'.plain = right.plain →
      (l.node id left' t right').plain = e.plain)
    (hleft : left.Reread us) (hlrank : k ≤ left.rank) (hright : right.Reread vs)
    (hrrank : k < right.rank) : e.Reread (us ++ t :: vs) := by
  refine reread_of_leads k hrank (by omega) fun rest hrest => ?_
  obtain ⟨j, rfl⟩ : ∃ j, k = j + 1 := ⟨k - 1, by omega⟩
  obtain ⟨l, hl, hsymbols, hlogical⟩ := levels_drop (j := j) (by omega)
  rw [← Token.rank?_of_unlined ht] at hoperator
  have hlead : left.Leads (j + 1) us (t :: (vs ++ rest)) :=
    hleft.leads (by omega) hlrank (stops_cons hoperator (by omega))
  have hregain : right.Regained (j + 2) vs rest := hright.regained hrrank (by omega) hrest
  refine leads_node hl ((hsymbols t).mpr hoperator) ?_ hlead hregain
  intro id left' right'
  exact he l id left' right' (by rw [hlogical]; omega)

/-- Arguments that are read back one by one are read back as a list. -/
theorem Expr.arguments_regained {stop : Token} (hstop : stop.isSymbol .rightParen = true) :
    ∀ (count : Nat) {e : Expr} {es : List Expr} {ts : List Token},
    (∀ a ∈ e :: es, ∀ ts, a.Spelled ts → a.Reread ts) → Expr.SpelledAll (e :: es) ts →
    count + (e :: es).length ≤ maxArguments → ∀ nodes functions faults, ∃ es' nodes',
      Expr.plainAll es' = Expr.plainAll (e :: es) ∧
      Yields (fun n => arguments n count) ⟨ts ++ stop :: rest, nodes, functions, faults⟩ es'
        ⟨stop :: rest, nodes', functions, faults⟩
  | count, e, [], _, hreread, ⟨us, _, rfl, hus, rfl⟩, hlength, nodes, functions, faults => by
    have hfirst : e.Regained 0 us (stop :: rest) :=
      (hreread e List.mem_cons_self us hus).regained (Nat.zero_le _) (by decide)
        (stops_of_isSymbol hstop rfl)
    obtain ⟨e', nodes', heq, hread⟩ := hfirst nodes functions faults
    refine ⟨[e'], nodes', by simp only [Expr.plainAll, heq], .succ ?_⟩
    simp only [arguments_succ, List.append_nil]
    refine yields_limit hlength (Yields.bind hread (yields_takeIf_none ?_ (yields_pure _ _)))
    intro t ht
    cases ht
    simp [Token.isSymbol, Token.isSymbol_iff.mp hstop]
  | count, e, a :: es, _, hreread, ⟨us, _, rfl, hus, comma, vs, ws, rfl, hcomma, hvs, hws⟩,
      hlength, nodes, functions, faults => by
    have hfirst : e.Regained 0 us (comma :: (vs ++ ws ++ stop :: rest)) :=
      (hreread e List.mem_cons_self us hus).regained (Nat.zero_le _) (by decide)
        (stops_of_isSymbol hcomma rfl)
    obtain ⟨e', nodes₁, heq, hread⟩ := hfirst nodes functions faults
    rw [List.length_cons] at hlength
    obtain ⟨es', nodes₂, heqs, hothers⟩ := Expr.arguments_regained hstop (count + 1)
      (fun b hb => hreread b (List.mem_cons_of_mem e hb)) ⟨vs, ws, rfl, hvs, hws⟩ (by omega)
      nodes₁ functions faults
    refine ⟨e' :: es', nodes₂, by rw [Expr.plainAll, Expr.plainAll, heq, heqs], .succ ?_⟩
    simp only [arguments_succ, List.append_assoc, List.cons_append] at hread hothers ⊢
    refine yields_limit (by omega) (Yields.bind hread (yields_takeIf hcomma ?_))
    exact hothers.bind (yields_pure _ _)

theorem Expr.argumentList_regained {stop : Token} {es : List Expr}
    (hstop : stop.isSymbol .rightParen = true) (hleveled : Expr.LeveledAll es)
    (hreread : ∀ a ∈ es, ∀ ts, a.Spelled ts → a.Reread ts) (hspelled : Expr.SpelledAll es ts)
    (hlength : es.length ≤ maxArguments) (nodes functions : Nat) (faults : List Fault) :
    ∃ es' nodes', Expr.plainAll es' = Expr.plainAll es ∧
      Yields argumentList ⟨ts ++ stop :: rest, nodes, functions, faults⟩ es'
        ⟨stop :: rest, nodes', functions, faults⟩ := by
  cases es with
  | nil =>
    obtain rfl : ts = [] := hspelled
    exact ⟨[], nodes, rfl, yields_nextIs hstop (yields_pure _ _)⟩
  | cons e es =>
    obtain ⟨us, vs, rfl, hus, hvs⟩ := hspelled
    obtain ⟨first, us', rfl, hfirst⟩ := hus.opening hleveled.1
    obtain ⟨es', nodes', heq, hread⟩ := arguments_regained hstop 0 hreread
      ⟨_, vs, rfl, hus, hvs⟩ (by omega) nodes functions faults
    refine ⟨es', nodes', heq, yields_nextIs (b := false) ?_ hread⟩
    exact Token.isSymbol_of_isOpening hfirst (by decide)

mutual

/-- Every levelled expression is read back from tokens that spell it. -/
theorem Expr.reread : ∀ {e : Expr} {ts : List Token}, e.Leveled → e.Spelled ts → e.Reread ts
  | .literal id _, _, _, ⟨t, rfl, ht⟩ =>
    reread_of_leads 10 rfl (by decide) fun _ _ => leads_literal id ht
  | .read target, _, hname, ⟨t, rfl, ht⟩ =>
    reread_of_leads 10 rfl (by decide) fun _ _ => leads_read hname ht
  | .assign target value, _, ⟨hname, hvalue⟩, ⟨t, equals, us, rfl, ht, hequals, hus⟩ => by
    refine Or.inr ⟨rfl, fun rest hrest => regained_assign hname ht hequals ?_⟩
    exact (Expr.reread hvalue hus).regained (Nat.zero_le _) (by decide) hrest
  | .unary id operator right, _, ⟨hoperator, hright, hrank⟩, ⟨t, us, rfl, ht, hus⟩ => by
    refine reread_of_leads 8 rfl (by decide) fun rest hrest => leads_unary id ht hoperator ?_
    exact (Expr.reread hright hus).regained hrank (by decide) hrest.unary
  | .logical _ left operator right, _, ⟨k, hoperator, hk, hleft, hlrank, hright, hrrank⟩,
      ⟨us, t, vs, rfl, hus, ht, hvs⟩ => by
    refine reread_node (by simp [Expr.rank, hoperator]) (by omega) hoperator ht ?_
      (Expr.reread hleft hus) hlrank (Expr.reread hright hvs) hrrank
    intro l id left' right' hl heql heqr
    simp only [Level.node, if_pos (hl.mpr hk.2), Expr.plain, heql, heqr, ht]
  | .binary _ left operator right, _, ⟨k, hoperator, hk, hleft, hlrank, hright, hrrank⟩,
      ⟨us, t, vs, rfl, hus, ht, hvs⟩ => by
    refine reread_node (by simp [Expr.rank, hoperator]) (by omega) hoperator ht ?_
      (Expr.reread hleft hus) hlrank (Expr.reread hright hvs) hrrank
    intro l id left' right' hl heql heqr
    have hnot : ¬ l.isLogical = true := fun h => by have := hl.mp h; omega
    simp only [Level.node, if_neg hnot, Expr.plain, heql, heqr, ht]
  | .group id inner, _, hleveled, ⟨start, us, stop, rfl, hstart, hus, hstop⟩ => by
    have hinner : inner.Leveled := hleveled
    refine reread_of_leads 10 rfl (by decide) fun rest _ => leads_group id hstart ?_ hstop
    exact (Expr.reread hinner hus).regained (Nat.zero_le _) (by decide)
      (stops_of_isSymbol hstop rfl)
  | .call id callee arguments paren, _, ⟨hcallee, hrank, harguments, hlength, hparen⟩,
      ⟨us, start, vs, stop, rfl, hus, hstart, hvs, hstop⟩ => by
    refine reread_of_leads 9 rfl (by decide) fun rest _ => leads_call id ?_ hstart ?_ hparen hstop
    · exact (Expr.reread hcallee hus).leads (by decide) hrank
        (stops_cons (Token.rank?_of_isSymbol hstart rfl) (by decide))
    · rw [← Token.isSymbol_of_unlined hstop] at hparen
      exact argumentList_regained hparen harguments (Expr.reread_of_mem harguments) hvs hlength

theorem Expr.reread_of_mem : ∀ {es : List Expr}, Expr.LeveledAll es → ∀ e ∈ es, ∀ ts,
    e.Spelled ts → e.Reread ts
  | e :: es, ⟨he, hes⟩, a, ha, ts, hts => by
    cases ha with
    | head => exact Expr.reread he hts
    | tail _ ha => exact Expr.reread_of_mem hes a ha ts hts

end

namespace Parse

/--
Parsing is the inverse of flattening. A levelled expression is read back from its tokens, whatever
their lines, if a semicolon follows, and reading stops there without a fault. And the tokens taken
for an expression that was read without a fault are its tokens, with the name of a type counting as
its text.
-/
theorem expression_inverts_tokens :
    (∀ (e : Expr) (ts : List Token) (stop : Token) (rest : List Token) (nodes functions : Nat)
        (faults : List Fault) (fuel : Nat), e.Leveled →
      ts.map Token.unlined = e.tokens.map Token.unlined → stop.isSymbol .semicolon = true →
      fuelFor (ts ++ stop :: rest) ≤ fuel →
      ∃ e' nodes', expression fuel ⟨ts ++ stop :: rest, nodes, functions, faults⟩ =
          .ok e' ⟨stop :: rest, nodes', functions, faults⟩ ∧ e'.plain = e.plain) ∧
    (∀ (fuel : Nat) (s s' : State) (e : Expr), expression fuel s = .ok e s' →
      s'.faults = s.faults → ∃ ts, s.rest = ts ++ s'.rest ∧ e.Leveled ∧
        ts.map Token.meaning = e.tokens.map Token.meaning) := by
  constructor
  · intro e ts stop rest nodes functions faults fuel hleveled hts hstop hfuel
    have hregain : e.Regained 0 ts (stop :: rest) :=
      (Expr.reread hleveled (Expr.spelled_of_unlined e hts)).regained (Nat.zero_le _) (by decide)
        (stops_of_isSymbol hstop rfl)
    obtain ⟨e', nodes', heq, hread⟩ := hregain nodes functions faults
    refine ⟨e', nodes', expression_of_yields hread ?_, heq⟩
    rw [fuelFor] at hfuel
    show 16 * (ts ++ stop :: rest).length + 11 ≤ fuel
    omega
  · intro fuel s s' e h hfaults
    have hreads := expression_reads fuel s
    rw [h] at hreads
    obtain ⟨ts, hts, hspelled⟩ := hreads.2 (by rw [hfaults])
    exact ⟨ts, hts, hspelled.leveled, hspelled.spelled.meaning⟩

/-- An assignment of a difference of three operands: a call of a call, a text and a group. -/
def differenceTree : Expr :=
  let name (lexeme : String) : Reference := ⟨0, ⟨.identifier, lexeme, 3⟩, none⟩
  let call (callee : Expr) (arguments : List Expr) : Expr :=
    .call 0 callee arguments Symbol.rightParen.token
  .assign (name "x") <| .binary 0
    (.binary 0
      (.unary 0 Symbol.bang.token
        (call (call (.read (name "f")) [.literal 0 (.boolean false)])
          [.read (name "y"), .read (name "z")]))
      Symbol.minus.token (.literal 0 (.string "Numbew")))
    Symbol.minus.token
    (.group 0 (.logical 0 (.read (name "a")) Symbol.or.token (.read (name "b"))))

/-- The tree is read back before a semicolon, and what was taken for it are its tokens. -/
theorem expression_inverts_tokens_difference :
    ∃ e' nodes', expression (fuelFor (differenceTree.tokens ++ [Symbol.semicolon.token]))
        ⟨differenceTree.tokens ++ [Symbol.semicolon.token], 0, 0, []⟩ =
      .ok e' ⟨[Symbol.semicolon.token], nodes', 0, []⟩ ∧ e'.plain = differenceTree.plain ∧
      differenceTree.tokens.map Token.meaning = e'.tokens.map Token.meaning := by
  have hleveled : differenceTree.Leveled := by
    have hminus : Symbol.minus.token.rank? = some 6 := rfl
    have hor : Symbol.or.token.rank? = some 1 := rfl
    simp [differenceTree, Expr.Leveled, Expr.LeveledAll, Expr.rank, hminus, hor, maxArguments,
      Symbol.isSymbol_token]
  obtain ⟨e', nodes', hread, heq⟩ := expression_inverts_tokens.1 differenceTree
    differenceTree.tokens Symbol.semicolon.token [] 0 0 [] _ hleveled rfl rfl (Nat.le_refl _)
  obtain ⟨ts, hts, -, hmeaning⟩ := expression_inverts_tokens.2 _ _ _ e' hread rfl
  refine ⟨e', nodes', hread, heq, ?_⟩
  rwa [List.append_cancel_right hts]

end Parse

end Nya
