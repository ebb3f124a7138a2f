import Nya.Proofs.Grammar.Spelling
import Nya.Proofs.Parse.Outcome

/-!
# What is read without a fault

Faults are never forgotten. So a parser that ends with as many faults as it started with has found
none on the way, and what it took then spells what it yields.

* `Outcome.Reads` says so of an outcome; `Outcome.Reads.seq` takes a sequence apart
* `expression_reads` for expressions: the tree is levelled, and the tokens taken spell it
-/

namespace Nya.Parse

/--
No fault was forgotten since the state, and if none was added, the tokens taken since then have to
do with what was read as `P` says.
-/
def Outcome.Reads {α : Type} (s : State) (P : α → List Token → Prop) (o : Outcome α) : Prop :=
  o.Meets
    (fun v s' => s.faults.length ≤ s'.faults.length ∧
      (s'.faults.length = s.faults.length → ∃ ts, s.rest = ts ++ s'.rest ∧ P v ts))
    (fun s' => s.faults.length ≤ s'.faults.length) True

variable {α β : Type} {P Q : α → List Token → Prop} {s : State}

/-! ## Small parsers -/

theorem reads_pure {v : α} (h : P v []) : ((pure v : Parser α) s).Reads s P :=
  ⟨Nat.le_refl _, fun _ => ⟨[], rfl, h⟩⟩

theorem Outcome.Reads.imp {o : Outcome α} (h : o.Reads s P) (himp : ∀ v ts, P v ts → Q v ts) :
    o.Reads s Q := by
  refine Outcome.Meets.mono h ?_ (fun _ hs => hs) id
  rintro v s' ⟨hle, hP⟩
  refine ⟨hle, fun heq => ?_⟩
  obtain ⟨ts, hts, hv⟩ := hP heq
  exact ⟨ts, hts, himp v ts hv⟩

/-- In a sequence, what the second part takes comes after what the first one took. -/
theorem Outcome.Reads.seq {p : Parser β} {k : β → Parser α} {R : β → List Token → Prop}
    (h : (p s).Reads s R) (hk : ∀ v s' ts, (k v s').Reads s' fun u us => R v ts → P u (ts ++ us)) :
    ((p >>= k) s).Reads s P := by
  refine Outcome.Meets.seq h (fun _ hs => hs) id ?_
  rintro v s₁ ⟨hle, hR⟩
  by_cases heq : s₁.faults.length = s.faults.length
  · obtain ⟨ts, hts, hv⟩ := hR heq
    refine Outcome.Meets.mono (hk v s₁ ts) ?_ (fun _ => Nat.le_trans hle) id
    rintro u s₂ ⟨hle₂, hP⟩
    refine ⟨Nat.le_trans hle hle₂, fun heq₂ => ?_⟩
    obtain ⟨us, hus, hu⟩ := hP (heq₂.trans heq.symm)
    exact ⟨ts ++ us, by rw [hts, hus, List.append_assoc], hu hv⟩
  · -- A fault was added already, so nothing has to be shown of the tokens.
    refine Outcome.Meets.mono (hk v s₁ []) ?_ (fun _ => Nat.le_trans hle) id
    rintro u s₂ ⟨hle₂, -⟩
    exact ⟨Nat.le_trans hle hle₂, fun heq₂ => by omega⟩

theorem reads_takeIf {test : Token → Bool} {k : Option Token → Parser α}
    (hnone : (k none s).Reads s P)
    (hsome : ∀ t s', test t = true → (k (some t) s').Reads s' fun v ts => P v (t :: ts)) :
    ((takeIf test >>= k) s).Reads s P := by
  refine meets_takeIf hnone ?_
  intro t rest hs ht
  refine Outcome.Meets.mono (hsome t _ ht) ?_ (fun _ hs' => hs') id
  rintro v s' ⟨hle, hP⟩
  refine ⟨hle, fun heq => ?_⟩
  obtain ⟨ts, hts, hv⟩ := hP heq
  exact ⟨t :: ts, by rw [hs, List.cons_append, ← hts], hv⟩

theorem reads_expect {symbol : Symbol} {cause : SyntaxCause} {k : Token → Parser α}
    (hk : ∀ t s', t.isSymbol symbol = true → (k t s').Reads s' fun v ts => P v (t :: ts)) :
    ((expect symbol cause >>= k) s).Reads s P := by
  rw [expect_eq, bind_assoc]
  refine reads_takeIf (Nat.le_refl s.faults.length) ?_
  intro t s' ht
  exact hk t s' ht

theorem reads_expectName {cause : SyntaxCause} {k : Token → Parser α}
    (hk : ∀ t s', t.kind = .identifier → (k t s').Reads s' fun v ts => P v (t :: ts)) :
    ((expectName cause >>= k) s).Reads s P := by
  rw [expectName_eq, bind_assoc]
  refine reads_takeIf (Nat.le_refl s.faults.length) ?_
  intro t s' ht
  exact hk t s' (eq_of_beq ht)

theorem reads_nextIs {symbol : Symbol} {k : Bool → Parser α} (h : ∀ b, (k b s).Reads s P) :
    ((nextIs symbol >>= k) s).Reads s P :=
  h _

/-- A list is empty, or its items are read. -/
theorem reads_listBefore {P : List α → List Token → Prop} {items : Parser (List α)} {stop : Symbol}
    (hnil : P [] []) (h : (items s).Reads s P) : (Parsing.listBefore stop items s).Reads s P :=
  meets_listBefore (reads_pure hnil) h

/-- A number for a new node takes no token. -/
theorem reads_newNode {k : Nat → Parser α} (h : ∀ id s', (k id s').Reads s' P) :
    ((newNode >>= k) s).Reads s P :=
  h s.nodes { s with nodes := s.nodes + 1 }

theorem reads_newFunction {k : Nat → Parser α} (h : ∀ id s', (k id s').Reads s' P) :
    ((newFunction >>= k) s).Reads s P :=
  h s.functions { s with functions := s.functions + 1 }

/-- A reported fault is one more. -/
theorem reads_report (f : Fault) (v : α) (s : State) :
    ((report f >>= fun _ => (pure v : Parser α)) s).Reads s P := by
  have hlength : (s.faults ++ [f]).length = s.faults.length + 1 := List.length_append
  refine ⟨?_, ?_⟩
  · show s.faults.length ≤ (s.faults ++ [f]).length
    omega
  · intro (heq : (s.faults ++ [f]).length = s.faults.length)
    omega

/-- A list that has room for one more item has not reached the limit. -/
theorem limit_reads (count : Nat) (cause : SyntaxCause) (s : State) :
    (limit count cause s).Reads s fun _ ts => ts = [] ∧ count < maxArguments := by
  rw [limit_eq]
  split
  · refine ⟨?_, ?_⟩
    · rw [List.length_append]
      exact Nat.le_add_right _ _
    · intro heq
      rw [List.length_append, List.length_singleton] at heq
      omega
  · next h => exact ⟨Nat.le_refl _, fun _ => ⟨[], rfl, rfl, Nat.not_le.mp h⟩⟩

/-! ## Levels -/

/-- A level whose symbols are those of a rank is at the tokens of that rank. -/
theorem any_isSymbol_iff {symbols : List Symbol} {k : Nat}
    (h : ∀ s, s ∈ symbols ↔ Symbol.rank? s = some k) (t : Token) :
    symbols.any t.isSymbol = true ↔ t.rank? = some k := by
  simp only [List.any_eq_true, Token.isSymbol_iff, Token.rank?, Token.symbol?]
  constructor
  · rintro ⟨s, hs, ht⟩
    rw [ht]
    exact (h s).mp hs
  · intro ht
    cases hkind : t.kind with
    | symbol s =>
      rw [hkind] at ht
      exact ⟨s, (h s).mpr ht, rfl⟩
    | _ =>
      rw [hkind] at ht
      cases ht

/-- The levels have the symbols of the ranks one to seven, and the two loosest are logical. -/
theorem levels_drop : ∀ {j : Nat}, j < 7 → ∃ l : Level, levels.drop j = l :: levels.drop (j + 1) ∧
    (∀ t : Token, l.symbols.any t.isSymbol = true ↔ t.rank? = some (j + 1)) ∧
    (l.isLogical = true ↔ j < 2)
  | 0, _ | 1, _ | 2, _ | 3, _ | 4, _ | 5, _ | 6, _ =>
    ⟨_, rfl, any_isSymbol_iff (by intro s; cases s <;> decide), by decide⟩
  | _ + 7, h => absurd h (by omega)

/-! ## Expressions -/

mutual

theorem expression_reads : ∀ (n : Nat) (s : State), (expression n s).Reads s (Expr.SpelledAt 0)
  | 0, _ => trivial
  | n + 1, s => by
    rw [expression_succ]
    refine (level_reads n (Nat.zero_le 7) s).seq ?_
    intro left s₁ us
    refine reads_takeIf (reads_pure ?_) ?_
    · intro hleft
      rw [List.append_nil]
      exact hleft.mono (Nat.zero_le _)
    · intro equals s₂ hequals
      refine (expression_reads n s₂).seq ?_
      intro value s₃ vs
      cases left with
      | read target =>
        refine reads_newNode fun id s₄ => reads_pure ?_
        intro hvalue hleft
        rw [List.append_nil]
        exact hleft.assign id hequals hvalue
      | _ => exact reads_report _ _ s₃

theorem level_reads : ∀ (n : Nat) {j : Nat}, j ≤ 7 → ∀ s : State,
    (level n (levels.drop j) s).Reads s (Expr.SpelledAt (j + 1))
  | 0, _, _, _ => trivial
  | n + 1, j, hj, s => by
    rcases Nat.lt_or_eq_of_le hj with hlt | rfl
    · obtain ⟨l, hl, hsymbols, hlogical⟩ := levels_drop hlt
      rw [hl, level_cons]
      refine (level_reads n hlt s).seq ?_
      intro left s₁ us
      refine (chain_reads n hlt hsymbols hlogical left s₁).imp ?_
      intro e ts h hleft
      exact h us (hleft.mono (Nat.le_succ _))
    · exact unary_reads n s

theorem chain_reads : ∀ (n : Nat) {j : Nat} {l : Level}, j < 7 →
    (∀ t : Token, l.symbols.any t.isSymbol = true ↔ t.rank? = some (j + 1)) →
    (l.isLogical = true ↔ j < 2) → ∀ (left : Expr) (s : State),
    (chain n l (levels.drop (j + 1)) left s).Reads s fun e ts =>
      ∀ us, left.SpelledAt (j + 1) us → e.SpelledAt (j + 1) (us ++ ts)
  | 0, _, _, _, _, _, _, _ => trivial
  | n + 1, j, l, hj, hsymbols, hlogical, left, s => by
    rw [chain_succ]
    refine reads_takeIf (reads_pure ?_) ?_
    · intro us hleft
      rwa [List.append_nil]
    · intro operator s₁ hoperator
      refine (level_reads n hj s₁).seq ?_
      intro right s₂ vs
      refine reads_newNode fun id s₃ => ?_
      refine (chain_reads n hj hsymbols hlogical (l.node id left operator right) s₃).imp ?_
      intro e ts h hright us hleft
      have hnode := Expr.SpelledAt.node (l := l) id ⟨Nat.succ_pos j, hj⟩
        (by rw [hlogical]; omega) hleft ((hsymbols operator).mp hoperator) hright
      have he := h _ hnode
      rwa [List.append_assoc, List.cons_append] at he

theorem unary_reads : ∀ (n : Nat) (s : State), (unary n s).Reads s (Expr.SpelledAt 8)
  | 0, _ => trivial
  | n + 1, s => by
    rw [unary_succ]
    refine reads_takeIf ?_ ?_
    · refine (primary_reads n s).seq ?_
      intro callee s₁ us
      refine (calls_reads n callee s₁).imp ?_
      intro e ts h hcallee
      exact (h us (hcallee.mono (by decide))).mono (by decide)
    · intro operator s₁ hoperator
      refine (unary_reads n s₁).seq ?_
      intro right s₂ vs
      refine reads_newNode fun id s₃ => reads_pure ?_
      intro hright
      rw [List.append_nil]
      exact .unary id (by simpa using hoperator) hright

theorem calls_reads : ∀ (n : Nat) (callee : Expr) (s : State),
    (calls n callee s).Reads s fun e ts =>
      ∀ us, callee.SpelledAt 9 us → e.SpelledAt 9 (us ++ ts)
  | 0, _, _ => trivial
  | n + 1, callee, s => by
    rw [calls_succ]
    refine reads_takeIf (reads_pure ?_) ?_
    · intro us hcallee
      rwa [List.append_nil]
    · intro start s₁ hstart
      have harguments : (argumentList n s₁).Reads s₁ fun es ts =>
          Expr.LeveledAll es ∧ Expr.SpelledAll es ts ∧ es.length ≤ maxArguments := by
        refine reads_listBefore ⟨trivial, rfl, Nat.zero_le _⟩ ((arguments_reads n 0 s₁).imp ?_)
        rintro es ts ⟨e, es', rfl, hleveled, hspelled, hlength⟩
        exact ⟨hleveled, hspelled, by omega⟩
      refine harguments.seq ?_
      intro args s₂ vs
      refine reads_expect ?_
      intro paren s₃ hparen
      refine reads_newNode fun id s₄ => ?_
      refine (calls_reads n (.call id callee args paren) s₄).imp ?_
      rintro e ts h ⟨hleveled, hspelled, hlength⟩ us hcallee
      have he := h _ (hcallee.call id hstart hleveled hspelled hlength hparen)
      simpa using he

theorem arguments_reads : ∀ (n count : Nat) (s : State),
    (arguments n count s).Reads s fun es ts => ∃ e es', es = e :: es' ∧ Expr.LeveledAll es ∧
      Expr.SpelledAll es ts ∧ count + es.length ≤ maxArguments
  | 0, _, _ => trivial
  | n + 1, count, s => by
    rw [arguments_succ]
    refine (limit_reads count _ s).seq ?_
    intro _ s₁ ts₀
    refine (expression_reads n s₁).seq ?_
    intro first s₂ us
    refine reads_takeIf (reads_pure ?_) ?_
    · rintro hfirst ⟨rfl, hcount⟩
      exact ⟨first, [], rfl, ⟨hfirst.leveled, trivial⟩, ⟨us, [], rfl, hfirst.spelled, rfl⟩, hcount⟩
    · intro comma s₃ hcomma
      refine (arguments_reads n (count + 1) s₃).seq ?_
      intro others s₄ vs
      refine reads_pure ?_
      rintro ⟨e, es, rfl, hleveled, ⟨us', vs', rfl, he, hes⟩, hlength⟩ hfirst ⟨rfl, -⟩
      refine ⟨first, e :: es, rfl, ⟨hfirst.leveled, hleveled⟩, ?_, ?_⟩
      · exact ⟨us, comma :: (us' ++ vs'), by simp, hfirst.spelled, comma, us', vs', rfl, hcomma, he,
          hes⟩
      · rw [List.length_cons]
        omega

theorem primary_reads : ∀ (n : Nat) (s : State), (primary n s).Reads s (Expr.SpelledAt 10)
  | 0, _ => trivial
  | n + 1, s => by
    rw [primary_succ]
    refine reads_takeIf (reads_takeIf (reads_takeIf (Nat.le_refl s.faults.length) ?_) ?_) ?_
    · intro start s₁ hstart
      refine (expression_reads n s₁).seq ?_
      intro inner s₂ us
      refine reads_expect fun stop s₃ hstop => ?_
      refine reads_newNode fun id s₄ => reads_pure ?_
      intro hinner
      exact .group id hstart hinner hstop
    · intro name s₁ hname
      exact reads_newNode fun id s₂ => reads_pure (.read (eq_of_beq hname))
    · intro t s₁ ht
      obtain ⟨value, hvalue⟩ := Option.isSome_iff_exists.mp ht
      refine reads_newNode fun id s₂ => reads_pure ?_
      rw [hvalue]
      exact .literal id hvalue

end

end Nya.Parse
