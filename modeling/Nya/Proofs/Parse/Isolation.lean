import Nya.Proofs.Grammar.Statements
import Nya.Proofs.Parse.Assembled
import Nya.Proofs.Parse.Extend
import Nya.Proofs.Parse.ReadsProgram
import Nya.Proofs.Token.Seam

/-!
# A faulty declaration between others

A declaration with a fault does no harm to its neighbours, if it ends at the first semicolon and
holds nothing that looks like the start of another one: each of them is read as if the others were
not there.

What matters is where reading goes on. Whether the declaration is read or not, and whichever of its
tokens has the fault, that is right behind the semicolon: up to there no token is taken or skipped
that does not belong to it (`declaration_along`).

* `Confined` for what such a declaration may hold
* `faults_isolated`
-/

namespace Nya

namespace Parse

variable {α β : Type} {extra : List Token}

/-! ## Up to the semicolon -/

/-- None of the tokens is one of the symbols. -/
def Lacks (symbols : List Symbol) (ts : List Token) : Prop :=
  ∀ t ∈ ts, ∀ symbol ∈ symbols, t.isSymbol symbol = false

instance (symbols : List Symbol) (ts : List Token) : Decidable (Lacks symbols ts) :=
  inferInstanceAs (Decidable (∀ t ∈ ts, ∀ symbol ∈ symbols, t.isSymbol symbol = false))

theorem Lacks.of_append {symbols : List Symbol} {a b : List Token} (h : Lacks symbols (a ++ b)) :
    Lacks symbols b :=
  fun t ht => h t (List.mem_append_right a ht)

/-- The tokens stay within one declaration; the first one may be the start of it. -/
structure Loose (b : List Token) : Prop where
  stays : Lacks [.semicolon, .blockStart, .forLoop] b
  tail : Lacks starters b.tail

/-- The tokens stay within one declaration that has started before. -/
def Tight (b : List Token) : Prop := Lacks (.semicolon :: .blockStart :: starters) b

/-- A declaration that has started does not start again. -/
theorem Tight.loose {b : List Token} (h : Tight b) : Loose b := by
  refine ⟨fun t ht symbol hsymbol => h t ht symbol ?_, fun t ht symbol hsymbol => ?_⟩
  · revert hsymbol
    revert symbol
    decide
  · exact h t (List.mem_of_mem_tail ht) symbol (by simp [hsymbol])

/-- Behind its first token a declaration has started. -/
theorem Loose.tight_tail {t : Token} {b : List Token} (h : Loose (t :: b)) : Tight b := by
  intro t' ht' symbol hsymbol
  rcases List.mem_cons.mp hsymbol with rfl | hsymbol
  · exact h.stays t' (List.mem_cons_of_mem t ht') _ (by decide)
  rcases List.mem_cons.mp hsymbol with rfl | hsymbol
  · exact h.stays t' (List.mem_cons_of_mem t ht') _ (by decide)
  · exact h.tail t' ht' symbol hsymbol

/-- An end of such tokens is one: the start of the declaration may be missing. -/
theorem Loose.of_append {a b : List Token} (h : Loose (a ++ b)) : Loose b := by
  cases a with
  | nil => exact h
  | cons t a =>
    have htight : Tight b := Lacks.of_append h.tight_tail
    exact htight.loose

/-- The tokens are some that pass, and the semicolon. -/
def Upto (P : List Token → Prop) (semi : Token) (ts : List Token) : Prop :=
  ∃ b, ts = b ++ [semi] ∧ P b

theorem Upto.loose {semi : Token} {ts : List Token} (h : Upto Tight semi ts) :
    Upto Loose semi ts := by
  obtain ⟨b, hb, htight⟩ := h
  exact ⟨b, hb, htight.loose⟩

/-- After a fault at the first token, reading goes on right behind the tokens. -/
def Skipped (ts : List Token) : Prop := ∀ more, recover (ts ++ more) = more

variable {semi : Token}

/-- The semicolon is no other symbol. -/
theorem isSymbol_semi (hsemi : semi.isSymbol .semicolon = true) {symbol : Symbol}
    (h : symbol ≠ .semicolon) : semi.isSymbol symbol = false := by
  have hkind : semi.kind = .symbol .semicolon := by simpa [Token.isSymbol] using hsemi
  rw [isSymbol_of_kind hkind]
  exact decide_eq_false h.symm

/-- Skipping stops right behind a semicolon. -/
theorem skip_of_semicolon (hsemi : semi.isSymbol .semicolon = true) (more : List Token) :
    skip semi more = more := by
  cases more with
  | nil => rfl
  | cons t more => rw [skip, hsemi, Bool.true_or, if_pos rfl]

/-- Skipping goes over all that stays within the declaration, and over its semicolon. -/
theorem skip_append_semicolon (hsemi : semi.isSymbol .semicolon = true) {t : Token}
    {b : List Token} (ht : t.isSymbol .semicolon = false) (hb : Tight b) (more : List Token) :
    skip t (b ++ semi :: more) = more := by
  induction b generalizing t with
  | nil =>
    have hstart : starters.any semi.isSymbol = false := by
      simp [starters, isSymbol_semi hsemi]
    rw [List.nil_append, skip, ht, hstart, if_neg (by decide), skip_of_semicolon hsemi]
  | cons t' b ih =>
    have hlacks := hb t' List.mem_cons_self
    have hstart : starters.any t'.isSymbol = false := by
      refine List.any_eq_false.mpr fun symbol hsymbol => ?_
      simp [hlacks symbol (by simp [hsymbol])]
    rw [List.cons_append, skip, ht, hstart, if_neg (by decide)]
    exact ih (hlacks _ (by simp)) fun t ht => hb t (List.mem_cons_of_mem t' ht)

/-- Wherever in the declaration a fault is, recovery ends behind its semicolon. -/
theorem skipped_of_upto (hsemi : semi.isSymbol .semicolon = true) {ts : List Token}
    (h : Upto Loose semi ts) : Skipped ts := by
  obtain ⟨b, rfl, hb⟩ := h
  intro more
  cases b with
  | nil => exact skip_of_semicolon hsemi more
  | cons t b =>
    rw [List.append_assoc]
    exact skip_append_semicolon hsemi (hb.stays t List.mem_cons_self _ (by decide)) hb.tight_tail
      more

/-! ## With more behind -/

/-- Every fault that was added has its token. -/
def State.Sited (s s' : State) : Prop := ∀ f ∈ s'.faults, f ∈ s.faults ∨ f.site ≠ none

theorem State.Sited.trans {s s' s'' : State} (h : s.Sited s') (h' : s'.Sited s'') :
    s.Sited s'' :=
  fun f hf => (h' f hf).elim (h f) Or.inr

/--
The second outcome is the first one with more tokens behind. What is left after the first one is
as `after` says; at a fault, reading goes on behind all of it.
-/
def Outcome.Along (extra : List Token) (after : List Token → Prop) (s : State) :
    Outcome α → Outcome α → Prop
  | .ok v s', o => after s'.rest ∧ s.Sited s' ∧ o = .ok v (s'.extend extra)
  | .fault f s', o =>
    Skipped s'.rest ∧ s.Sited s' ∧ f.site ≠ none ∧ o = .fault f (s'.extend extra)
  | .exhausted, _ => True

/-- From such states on, the second parser reads what the first one does, with more behind. -/
def Along (extra : List Token) (before after : List Token → Prop) (p q : Parser α) : Prop :=
  ∀ s, before s.rest → (p s).Along extra after s (q (s.extend extra))

namespace Along

variable {before mid after : List Token → Prop} {p q : Parser β} {k k' : β → Parser α}

theorem outOfFuel {q : Parser α} : Along extra before after outOfFuel q := fun _ _ => trivial

theorem pure (v : α) : Along extra before before (pure v) (pure v) :=
  fun _ hs => ⟨hs, fun _ => Or.inl, rfl⟩

/-- What follows starts from what the first parser leaves; after a fault there is nothing to
show. -/
theorem bind (hp : Along extra before mid p q)
    (hk : ∀ v, Along extra mid after (k v) (k' v)) :
    Along extra before after (p >>= k) (q >>= k') := by
  intro s hs
  have hps := hp s hs
  rw [bind_apply, bind_apply]
  cases hp : p s with
  | exhausted => exact trivial
  | fault f s₁ =>
    rw [hp] at hps
    obtain ⟨hskipped, hsited, hsite, hq⟩ := hps
    rw [hq]
    exact ⟨hskipped, hsited, hsite, rfl⟩
  | ok v s₁ =>
    rw [hp] at hps
    obtain ⟨hmid, hsited, hq⟩ := hps
    have hks := hk v s₁ hmid
    rw [hq]
    dsimp only
    cases hv : k v s₁ with
    | exhausted => exact trivial
    | fault f s₂ =>
      rw [hv] at hks
      exact ⟨hks.1, hsited.trans hks.2.1, hks.2.2⟩
    | ok u s₂ =>
      rw [hv] at hks
      exact ⟨hks.1, hsited.trans hks.2.1, hks.2.2⟩

/-- With no fuel nothing has to be shown. -/
theorem of_le {p : Nat → Parser α} (hzero : p 0 = Parse.outOfFuel)
    (hsucc : ∀ {n m : Nat}, n ≤ m → Along extra before after (p (n + 1)) (p (m + 1)))
    {n m : Nat} (h : n ≤ m) : Along extra before after (p n) (p m) := by
  cases n with
  | zero =>
    rw [hzero]
    exact .outOfFuel
  | succ n =>
    cases m with
    | zero => exact absurd h (Nat.not_succ_le_zero n)
    | succ m => exact hsucc (Nat.le_of_succ_le_succ h)

/-- It may be known of more states than asked for. -/
theorem weaken {before' : List Token → Prop} (h : Along extra before after p q)
    (himp : ∀ ts, before' ts → before ts) : Along extra before' after p q :=
  fun s hs => h s (himp _ hs)

end Along

/-- What takes no semicolon leaves it. -/
theorem Upto.of_follows {P : List Token → Prop} (hP : ∀ {a b}, P (a ++ b) → P b)
    (hsemi : semi.isSymbol .semicolon = true) {s s' : State} (h : s.Follows Inside s')
    (hs : Upto P semi s.rest) : Upto P semi s'.rest ∧ s.Sited s' := by
  obtain ⟨b, hb, hPb⟩ := hs
  obtain ⟨⟨taken, hrest, htaken⟩, ⟨added, hfaults, hadded⟩⟩ := h
  have hupto : Upto P semi s'.rest := by
    rcases List.append_eq_append_iff.mp (hb.symm.trans hrest) with
      ⟨left, rfl, hleft⟩ | ⟨left, rfl, hleft⟩
    · cases left with
      | nil => exact ⟨[], hleft.symm, hP (List.append_nil b ▸ hPb)⟩
      | cons t left =>
        -- The semicolon itself would have been taken.
        obtain ⟨rfl, -⟩ := List.cons.inj hleft
        have hinside : semi.isSymbol .semicolon = false := htaken semi (by simp)
        simp [hsemi] at hinside
    · exact ⟨left, hleft, hP hPb⟩
  refine ⟨hupto, fun f hf => ?_⟩
  rw [hfaults] at hf
  rcases List.mem_append.mp hf with hf | hf
  · exact Or.inl hf
  · refine Or.inr fun hsite => ?_
    obtain ⟨left, hleft, -⟩ := hupto
    simp [hadded f hf hsite] at hleft

/-- What takes no semicolon reads the same with more tokens behind the semicolon. -/
theorem along_of_assembled {P : List Token → Prop} (hP : ∀ {a b}, P (a ++ b) → P b)
    (hloose : ∀ {b}, P b → Loose b) (hsemi : semi.isSymbol .semicolon = true)
    {p q : Parser α} (hextends : Extends extra False p q) (hassembled : Assembled Inside p) :
    Along extra (Upto P semi) (Upto P semi) p q := by
  intro s hs
  have hfollows := hassembled.follows s
  have hsecond := hextends s
  cases hp : p s with
  | exhausted => exact trivial
  | ok v s' =>
    rw [hp] at hfollows hsecond
    obtain ⟨hupto, hsited⟩ := Upto.of_follows hP hsemi hfollows hs
    have hne : s'.rest ≠ [] := by
      obtain ⟨b, hb, -⟩ := hupto
      simp [hb]
    exact ⟨hupto, hsited, hsecond.2 (Or.inr (Or.inl hne))⟩
  | fault f s' =>
    rw [hp] at hfollows hsecond
    obtain ⟨hupto, hsited⟩ := Upto.of_follows hP hsemi hfollows.1 hs
    obtain ⟨b, hb, hPb⟩ := hupto
    have hne : s'.rest ≠ [] := by simp [hb]
    exact ⟨skipped_of_upto hsemi ⟨b, hb, hloose hPb⟩, hsited, fun hsite => hne (hfollows.2 hsite),
      hsecond.2 (Or.inr (Or.inl hne))⟩

section

variable {n m : Nat} (hsemi : semi.isSymbol .semicolon = true)

include hsemi

/-- An expression may be where the declaration starts. -/
theorem loose_along {p q : Parser α} (hextends : Extends extra False p q)
    (hassembled : Assembled Inside p) :
    Along extra (Upto Loose semi) (Upto Loose semi) p q :=
  along_of_assembled Loose.of_append id hsemi hextends hassembled

/-- An expression may be anywhere in the declaration. -/
theorem tight_along {p q : Parser α} (hextends : Extends extra False p q)
    (hassembled : Assembled Inside p) :
    Along extra (Upto Tight semi) (Upto Tight semi) p q :=
  along_of_assembled Lacks.of_append Tight.loose hsemi hextends hassembled

end

/-! ## The next token -/

/-- The next token is the semicolon, or one before it. -/
theorem Upto.exists_cons {P : List Token → Prop} {ts : List Token} (h : Upto P semi ts) :
    ∃ t rest, ts = t :: rest ∧
      (t = semi ∧ rest = [] ∨ ∃ b, P (t :: b) ∧ rest = b ++ [semi]) := by
  obtain ⟨b, rfl, hb⟩ := h
  cases b with
  | nil => exact ⟨semi, [], rfl, Or.inl ⟨rfl, rfl⟩⟩
  | cons t b => exact ⟨t, b ++ [semi], rfl, Or.inr ⟨b, hb, rfl⟩⟩

theorem extend_cons {s : State} {t : Token} {rest : List Token} (hs : s.rest = t :: rest) :
    (s.extend extra).rest = t :: (rest ++ extra) := by
  rw [State.extend, hs, List.cons_append]

theorem expect_cons {symbol : Symbol} {cause : SyntaxCause} {s : State} {t : Token}
    {rest : List Token} (hs : s.rest = t :: rest) :
    expect symbol cause s =
      if t.isSymbol symbol then .ok t { s with rest } else .fault ⟨some t, cause⟩ s := by
  rw [expect_eq, bind_apply, take?, takeIf_cons hs]
  by_cases ht : t.isSymbol symbol = true
  · rw [if_pos ht, if_pos ht]
    rfl
  · rw [if_neg ht, if_neg ht]
    simp only [fail, hs, List.head?_cons]

section

variable {n m : Nat} (hsemi : semi.isSymbol .semicolon = true) {after : List Token → Prop}
  {test : Token → Bool} {k k' : Option Token → Parser α}

include hsemi

/-- Behind the semicolon nothing is left. -/
theorem expect_semicolon_along (cause : SyntaxCause) :
    Along extra (Upto Loose semi) (· = []) (expect .semicolon cause)
      (expect .semicolon cause) := by
  intro s hs
  obtain ⟨t, rest, hrest, hnext⟩ := hs.exists_cons
  rw [expect_cons hrest, expect_cons (extend_cons hrest)]
  rcases hnext with ⟨rfl, rfl⟩ | ⟨b, hb, -⟩
  · rw [if_pos hsemi, if_pos hsemi]
    exact ⟨rfl, fun _ => Or.inl, rfl⟩
  · have ht : ¬ t.isSymbol .semicolon = true := by
      simp [hb.stays t List.mem_cons_self .semicolon (by decide)]
    rw [if_neg ht, if_neg ht]
    exact ⟨skipped_of_upto hsemi hs, fun _ => Or.inl, nofun, rfl⟩

/-- Within the declaration the next token does not lead out of it. -/
theorem Upto.exists_lacks {ts : List Token} (h : Upto Tight semi ts) :
    ∃ t rest, ts = t :: rest ∧ ∀ symbol ∈ .blockStart :: starters, t.isSymbol symbol = false := by
  obtain ⟨t, rest, hrest, hnext⟩ := h.exists_cons
  refine ⟨t, rest, hrest, fun symbol hsymbol => ?_⟩
  rcases hnext with ⟨rfl, -⟩ | ⟨b, hb, -⟩
  · refine isSymbol_semi hsemi ?_
    rintro rfl
    exact absurd hsymbol (by decide)
  · exact hb t List.mem_cons_self symbol (List.mem_cons_of_mem _ hsymbol)

/-- A symbol that would lead out of the declaration is not found in it, so this is a fault. -/
theorem expect_along_of_mem {symbol : Symbol} {cause : SyntaxCause} {k k' : Token → Parser α}
    (hsymbol : symbol ∈ .blockStart :: starters) :
    Along extra (Upto Tight semi) after (expect symbol cause >>= k)
      (expect symbol cause >>= k') := by
  intro s hs
  obtain ⟨t, rest, hrest, hlacks⟩ := Upto.exists_lacks hsemi hs
  have ht : ¬ t.isSymbol symbol = true := by simp [hlacks symbol hsymbol]
  rw [bind_apply, bind_apply, expect_cons hrest, expect_cons (extend_cons hrest), if_neg ht,
    if_neg ht]
  exact ⟨skipped_of_upto hsemi hs.loose, fun _ => Or.inl, nofun, rfl⟩

/-- Symbols that would lead out of the declaration are not found in it. -/
theorem takeAny?_along {symbols : List Symbol}
    (hsymbols : ∀ symbol ∈ symbols, symbol ∈ .blockStart :: starters)
    (hnone : Along extra (Upto Tight semi) after (k none) (k' none)) :
    Along extra (Upto Tight semi) after (takeAny? symbols >>= k) (takeAny? symbols >>= k') := by
  intro s hs
  obtain ⟨t, rest, hrest, hlacks⟩ := Upto.exists_lacks hsemi hs
  have ht : ¬ symbols.any t.isSymbol = true := by
    rw [List.any_eq_true]
    rintro ⟨symbol, hsymbol, hfound⟩
    simp [hlacks symbol (hsymbols symbol hsymbol)] at hfound
  rw [bind_apply, bind_apply, takeAny?, takeIf_cons hrest, takeIf_cons (extend_cons hrest),
    if_neg ht, if_neg ht]
  exact hnone s hs

/-- A token that may start the declaration is taken, or not. -/
theorem takeIf_along (htest : test semi = false)
    (hnone : Along extra (Upto Loose semi) after (k none) (k' none))
    (hsome : ∀ t, test t = true → Lacks [.semicolon, .blockStart, .forLoop] [t] →
      Along extra (Upto Tight semi) after (k (some t)) (k' (some t))) :
    Along extra (Upto Loose semi) after (takeIf test >>= k) (takeIf test >>= k') := by
  intro s hs
  obtain ⟨t, rest, hrest, hnext⟩ := hs.exists_cons
  rw [bind_apply, bind_apply, takeIf_cons hrest, takeIf_cons (extend_cons hrest)]
  by_cases ht : test t = true
  · rw [if_pos ht, if_pos ht]
    rcases hnext with ⟨rfl, -⟩ | ⟨b, hb, rfl⟩
    · rw [htest] at ht
      cases ht
    · have hlacks : Lacks [.semicolon, .blockStart, .forLoop] [t] :=
        fun t' ht' => hb.stays t' (List.mem_singleton.mp ht' ▸ List.mem_cons_self)
      exact hsome t ht hlacks { s with rest := b ++ [semi] } ⟨b, rfl, hb.tight_tail⟩
  · rw [if_neg ht, if_neg ht]
    exact hnone s hs

end

/-- Behind the declaration no `^e^` is found. -/
theorem take?_ifElse_along (hextra : Unattached extra) {k k' : Option Token → Parser α}
    (hnone : Along extra (· = []) (· = []) (k none) (k' none)) :
    Along extra (· = []) (· = []) (take? .ifElse >>= k) (take? .ifElse >>= k') := by
  intro s hs
  have htake : take? .ifElse s = .ok none s := by rw [take?, takeIf, hs]
  have hextends : (take? .ifElse s).Extends extra
      (extra.head?.any (fun t => t.isSymbol .ifElse) = false) s (take? .ifElse (s.extend extra)) :=
    takeIf_extends _ s
  rw [htake] at hextends
  have htake' : take? .ifElse (s.extend extra) = .ok none (s.extend extra) :=
    hextends.2 (Or.inr (Or.inr ⟨hextra, rfl⟩))
  rw [bind_apply, bind_apply, htake, htake']
  exact hnone s hs

/-! ## Statements -/

section

variable {n m : Nat} (hsemi : semi.isSymbol .semicolon = true)

include hsemi

/-- A statement of one expression reaches to the semicolon and no further. -/
theorem terminated_along (h : n ≤ m) (cause : SyntaxCause) :
    Along extra (Upto Loose semi) (· = []) (terminated n cause) (terminated m cause) := by
  refine (loose_along hsemi (expression_extends h) (expression_assembled n)).bind fun e => ?_
  exact (expect_semicolon_along hsemi cause).bind fun _ => .pure e

/-- So does a variable. -/
theorem variableDecl_along (h : n ≤ m) :
    Along extra (Upto Loose semi) (· = []) (variableDecl n) (variableDecl m) := by
  rw [variableDecl_eq, variableDecl_eq]
  refine (loose_along hsemi (expectName_extends _)
    ((assembled_closed fun _ => id).expectName _)).bind fun name => ?_
  refine (loose_along hsemi (extends_statements.initialValue h)
    (initialValue_assembled n)).bind fun init => ?_
  exact (expect_semicolon_along hsemi _).bind fun _ => .pure _

theorem expect_along {symbol : Symbol} (h : symbol ≠ .semicolon) (cause : SyntaxCause) :
    Along extra (Upto Tight semi) (Upto Tight semi) (expect symbol cause) (expect symbol cause) :=
  tight_along hsemi (expect_extends symbol cause) (expect_inside h cause)

/-- A function has no body, so it is not read. -/
theorem functionDecl_along (h : n ≤ m) :
    Along extra (Upto Tight semi) (· = []) (functionDecl n) (functionDecl m) := by
  refine Along.of_le rfl (fun {n m} h => ?_) h
  rw [functionDecl_succ, functionDecl_succ]
  refine (tight_along hsemi (expectName_extends _)
    ((assembled_closed fun _ => id).expectName _)).bind fun name => ?_
  refine (expect_along hsemi (by decide) _).bind fun paren => ?_
  refine (tight_along hsemi (parameterList_extends h) (parameterList_assembled n)).bind
    fun params => ?_
  refine (expect_along hsemi (by decide) _).bind fun close => ?_
  exact expect_along_of_mem hsemi List.mem_cons_self

/-- The statement inside of another one is an expression. -/
theorem inner_statement_along (h : n ≤ m) :
    Along extra (Upto Tight semi) (· = []) (statement n) (statement m) := by
  refine Along.of_le rfl (fun {n m} h => ?_) h
  rw [statement_succ, statement_succ]
  refine takeAny?_along hsemi (by decide) ?_
  exact ((terminated_along hsemi h _).weaken fun _ => Upto.loose).bind fun e => .pure _

/-- The first branch ends at the semicolon, and no second one is found behind it. -/
theorem branch_along (hextra : Unattached extra) (h : n ≤ m) :
    Along extra (Upto Tight semi) (· = []) (branch n) (branch m) := by
  refine Along.of_le rfl (fun {n m} h => ?_) h
  rw [branch_succ, branch_succ]
  refine (expect_along hsemi (by decide) _).bind fun paren => ?_
  refine (tight_along hsemi (expression_extends h) (expression_assembled n)).bind
    fun condition => ?_
  refine (expect_along hsemi (by decide) _).bind fun close => ?_
  refine (inner_statement_along hsemi h).bind fun thenBranch => ?_
  exact take?_ifElse_along hextra (.pure _)

/-- The body of a loop is an expression, which ends at the semicolon. -/
theorem whileLoop_along (h : n ≤ m) :
    Along extra (Upto Tight semi) (· = []) (whileLoop n) (whileLoop m) := by
  refine Along.of_le rfl (fun {n m} h => ?_) h
  rw [whileLoop_succ, whileLoop_succ]
  refine (expect_along hsemi (by decide) _).bind fun paren => ?_
  refine (tight_along hsemi (expression_extends h) (expression_assembled n)).bind
    fun condition => ?_
  refine (expect_along hsemi (by decide) _).bind fun close => ?_
  exact (inner_statement_along hsemi h).bind fun body => .pure _

theorem statementFrom_along (hextra : Unattached extra) (h : n ≤ m) {t : Token}
    (ht : [Symbol.forLoop, .ifThen, .print, .ret, .whileLoop, .blockStart].any t.isSymbol = true)
    (hlacks : Lacks [.semicolon, .blockStart, .forLoop] [t]) :
    Along extra (Upto Tight semi) (· = []) (statementFrom n t) (statementFrom m t) := by
  have hlacks := hlacks t (List.mem_singleton.mpr rfl)
  have hfor := hlacks .forLoop (by decide)
  have hblock := hlacks .blockStart (by decide)
  simp only [List.any_cons, List.any_nil, hfor, hblock, Bool.false_or, Bool.or_false,
    Bool.or_eq_true] at ht
  have hsymbol : ∀ symbol, t.isSymbol symbol = true → t.symbol? = some symbol := by
    intro symbol hsymbol
    have hkind : t.kind = .symbol symbol := by simpa [Token.isSymbol] using hsymbol
    rw [Token.symbol?, hkind]
  rcases ht with ht | ht | ht | ht <;>
    rw [statementFrom, statementFrom, hsymbol _ ht]
  · exact branch_along hsemi hextra h
  · exact ((terminated_along hsemi h _).weaken fun _ => Upto.loose).bind fun e => .pure _
  · refine (tight_along hsemi (expressionUnless_extends h _)
      (expressionUnless_assembled n _)).bind fun value => ?_
    exact ((expect_semicolon_along hsemi _).weaken fun _ => Upto.loose).bind fun _ => .pure _
  · exact whileLoop_along hsemi h

/-- A statement is read up to the semicolon, or has its fault before it. -/
theorem statement_along (hextra : Unattached extra) (h : n ≤ m) :
    Along extra (Upto Loose semi) (· = []) (statement n) (statement m) := by
  refine Along.of_le rfl (fun {n m} h => ?_) h
  rw [statement_succ, statement_succ]
  refine takeIf_along hsemi ?_ ?_ fun t ht hlacks => ?_
  · simp [isSymbol_semi hsemi]
  · exact (terminated_along hsemi h _).bind fun e => .pure _
  · exact statementFrom_along hsemi hextra h ht hlacks

/-- **A declaration that is confined reads the same, whatever is behind its semicolon.** -/
theorem declaration_along (hextra : Unattached extra) (h : n ≤ m) :
    Along extra (Upto Loose semi) (· = []) (declaration n) (declaration m) := by
  refine Along.of_le rfl (fun {n m} h => ?_) h
  rw [declaration_succ, declaration_succ]
  refine takeIf_along hsemi (isSymbol_semi hsemi (by decide)) ?_ fun function _ _ => ?_
  · refine takeIf_along hsemi (isSymbol_semi hsemi (by decide)) ?_ fun var _ _ => ?_
    · exact statement_along hsemi hextra h
    · exact (variableDecl_along hsemi h).weaken fun _ => Upto.loose
  · exact functionDecl_along hsemi h

end

/-! ## Programs -/

/-- After a declaration that is confined, reading goes on behind its semicolon. -/
theorem recovering_along {n m : Nat} (hsemi : semi.isSymbol .semicolon = true)
    (hextra : Unattached extra) (h : n ≤ m) {s s₁ : State} {first : Option Stmt}
    (hs : Upto Loose semi s.rest) (hfirst : recovering (declaration n) s = .ok first s₁) :
    s₁.rest = [] ∧ s.Sited s₁ ∧
      recovering (declaration m) (s.extend extra) = .ok first (s₁.extend extra) := by
  have hboth := declaration_along hsemi hextra h s hs
  rw [recovering] at hfirst ⊢
  cases hd : declaration n s with
  | exhausted =>
    rw [hd] at hfirst
    cases hfirst
  | ok v s' =>
    rw [hd] at hfirst hboth
    obtain ⟨rfl, rfl⟩ := Outcome.ok.inj hfirst
    obtain ⟨hrest, hsited, hmore⟩ := hboth
    exact ⟨hrest, hsited, by rw [hmore]⟩
  | fault f s' =>
    rw [hd] at hfirst hboth
    obtain ⟨rfl, rfl⟩ := Outcome.ok.inj hfirst
    obtain ⟨hskipped, hsited, hsite, hmore⟩ := hboth
    have hend : recover s'.rest = [] := by simpa using hskipped []
    have hgo : recover (s'.rest ++ extra) = extra := hskipped extra
    refine ⟨hend, ?_, ?_⟩
    · intro f' hf'
      rcases List.mem_append.mp hf' with hf' | hf'
      · exact hsited f' hf'
      · exact Or.inr (List.mem_singleton.mp hf' ▸ hsite)
    · rw [hmore]
      simp only [State.extend, hend, hgo, List.nil_append]

/-- A declaration that is confined leaves one slot, and faults that have their tokens. -/
theorem exists_slot (hsemi : semi.isSymbol .semicolon = true) {b : List Token} (hb : Loose b)
    (nodes functions : Nat) :
    ∃ slot s, declarations (fuelFor (b ++ [semi])) ⟨b ++ [semi], nodes, functions, []⟩ =
        .ok [slot] s ∧ s.rest = [] ∧ (∀ f ∈ s.faults, f.site ≠ none) ∧
      ∀ extra n, Unattached extra → fuelFor (b ++ [semi]) ≤ n →
        recovering (declaration n) ⟨b ++ [semi] ++ extra, nodes, functions, []⟩ =
          .ok slot (s.extend extra) := by
  obtain ⟨slots, s, hread, -⟩ := declarations_fuelFor (b ++ [semi]) nodes functions []
  have hne : b ++ [semi] ≠ [] := by simp
  obtain ⟨k, hk⟩ : ∃ k, fuelFor (b ++ [semi]) = k + 2 := ⟨16 * (b ++ [semi]).length + 14, by
    rw [fuelFor]
    omega⟩
  rw [hk] at hread ⊢
  obtain ⟨slot, s₁, others, hslot, hothers, rfl⟩ := exists_of_declarations hne hread
  have hupto : Upto Loose semi (b ++ [semi]) := ⟨b, rfl, hb⟩
  have hnil : Unattached [] := rfl
  obtain ⟨hend, hsited, -⟩ := recovering_along hsemi hnil (Nat.le_refl _) hupto hslot
  rw [declarations_nil k hend] at hothers
  obtain ⟨rfl, rfl⟩ := Outcome.ok.inj hothers
  refine ⟨slot, s₁, hread, hend, fun f hf => (hsited f hf).resolve_left (by simp), ?_⟩
  intro extra n hextra hn
  exact (recovering_along hsemi hextra (Nat.le_of_succ_le hn) hupto hslot).2.2

/--
The declarations of a list without a fault, of one that is confined, and of a third list, read one
after the other.
-/
theorem declarations_isolated (hsemi : semi.isSymbol .semicolon = true) {p b q : List Token}
    (hb : Loose b) (hunattached : Unattached (b ++ [semi])) (hq : Unattached q)
    {nodes functions nodes₁ functions₁ : Nat} {slots : List (Option Stmt)}
    (hp : declarations (fuelFor p) ⟨p, nodes, functions, []⟩ =
      .ok slots ⟨[], nodes₁, functions₁, []⟩) :
    ∃ slot s, declarations (fuelFor (b ++ [semi])) ⟨b ++ [semi], nodes₁, functions₁, []⟩ =
        .ok [slot] s ∧ (∀ f ∈ s.faults, f.site ≠ none) ∧
      ∀ others s', declarations (fuelFor q) ⟨q, s.nodes, s.functions, []⟩ = .ok others s' →
        declarations (fuelFor (p ++ (b ++ [semi] ++ q)))
          ⟨p ++ (b ++ [semi] ++ q), nodes, functions, []⟩ =
            .ok (slots ++ slot :: others) (s'.recording s.faults) := by
  obtain ⟨slot, s, hslot, hend, hsites, hmore⟩ := exists_slot hsemi hb nodes₁ functions₁
  refine ⟨slot, s, hslot, hsites, fun others s' hothers => ?_⟩
  have hfirst := hmore q (fuelFor (b ++ [semi]) + fuelFor q) hq (Nat.le_add_right _ _)
  have hnext : s.extend q = State.recording s.faults ⟨q, s.nodes, s.functions, []⟩ := by
    rw [State.extend, hend, State.recording, List.nil_append, List.append_nil]
  -- What was reported for the second list does not matter for the third one.
  have hrest : declarations (fuelFor (b ++ [semi]) + fuelFor q) (s.extend q) =
      .ok others (s'.recording s.faults) := by
    rw [hnext, (declarations_assembled _).recording,
      declarations_of_le (Nat.le_add_left _ _) hothers]
    rfl
  have hne : b ++ [semi] ++ q ≠ [] := by simp
  have hboth := declarations_cons (s := ⟨b ++ [semi] ++ q, nodes₁, functions₁, []⟩) hne hfirst hrest
  have hextra : Unattached (b ++ [semi] ++ q) := by
    cases b <;> exact hunattached
  exact declarations_fuelFor_eq (declarations_append hextra hp rfl hboth)

/-! ## What is parsed -/

/-- The tokens are read to their end, and there is nothing to report. -/
def Faultless (tokens : List Token) (nodes functions : Nat) : Prop :=
  ∃ slots s, declarations (fuelFor tokens) ⟨tokens, nodes, functions, []⟩ = .ok slots s ∧
    s.faults = []

/--
What a declaration may hold before its semicolon, if it is to be told from its neighbours. It has
no block and no `^o^`, and only its first token may be the start of a declaration.
-/
structure Confined (b : List Token) : Prop where
  unattached : Unattached b
  isEof : ∀ t ∈ b, t.isEof = false
  stays : Lacks [.semicolon, .blockStart, .forLoop] b
  tail : Lacks [.function, .var, .const, .ifThen, .whileLoop, .print, .ret] b.tail

variable {p b q : List Token} {stop : Token} {nodes functions : Nat}

/-- What is confined stays within one declaration. -/
theorem Confined.loose (h : Confined b) : Loose b := by
  refine ⟨h.stays, fun t ht symbol hsymbol => ?_⟩
  by_cases hfor : symbol = .forLoop
  · exact h.stays t (List.mem_of_mem_tail ht) symbol (by simp [hfor])
  · refine h.tail t ht symbol ?_
    simp only [starters, List.mem_cons, hfor, false_or] at hsymbol ⊢
    exact hsymbol

/-- A confined declaration does not go on with an `^e^`. -/
theorem Confined.unattached_append (h : Confined b) (hsemi : semi.isSymbol .semicolon = true) :
    Unattached (b ++ [semi]) := by
  cases b with
  | nil => exact isSymbol_semi hsemi (by decide)
  | cons t b => exact h.unattached

theorem Confined.isEof_append (h : Confined b) (hsemi : semi.isSymbol .semicolon = true) :
    ∀ t ∈ b ++ [semi], t.isEof = false := by
  have hkind : semi.kind = .symbol .semicolon := by simpa [Token.isSymbol] using hsemi
  intro t ht
  rcases List.mem_append.mp ht with ht | ht
  · exact h.isEof t ht
  · rw [List.mem_singleton.mp ht, Token.isEof, hkind]
    rfl

/-- A faultless list of tokens is read to its end. -/
theorem Faultless.exists_end (h : Faultless p nodes functions) :
    ∃ slots nodes' functions', declarations (fuelFor p) ⟨p, nodes, functions, []⟩ =
      .ok slots ⟨[], nodes', functions', []⟩ := by
  obtain ⟨slots, s, hread, hfaults⟩ := h
  obtain ⟨slots', s', hread', hrest⟩ := declarations_fuelFor p nodes functions []
  rw [hread] at hread'
  obtain ⟨rfl, rfl⟩ := Outcome.ok.inj hread'
  refine ⟨slots, s.nodes, s.functions, ?_⟩
  rw [hread, ← hrest, ← hfaults]

/-- What is read to its end without a fault has no mark of the end. -/
theorem Faultless.isEof (h : Faultless p nodes functions) : ∀ t ∈ p, t.isEof = false := by
  obtain ⟨slots, nodes', functions', hread⟩ := h.exists_end
  have hreads := declarations_reads (fuelFor p) ⟨p, nodes, functions, []⟩
  rw [hread] at hreads
  obtain ⟨ts, hts, program, -, hspelled⟩ := hreads.2 rfl
  obtain rfl : p = ts := by rwa [List.append_nil] at hts
  obtain ⟨words, rfl, hwords⟩ := Grammar.words_of_spelledAll hspelled
  exact (Grammar.Derives.many hwords).isEof

/-- The parse of a source, from what its declarations give. -/
theorem parse_eq {tokens ts : List Token} (hsplit : splitAtEnd tokens = (ts, stop))
    {slots : List (Option Stmt)} {s : State}
    (h : declarations (fuelFor ts) ⟨ts, nodes, functions, []⟩ = .ok slots s) :
    parse tokens nodes functions =
      ⟨slots, s.faults.map (Fault.locate stop), s.nodes, s.functions⟩ := by
  simp only [parse, hsplit, h]

/-- Tokens are read to their end without a fault if they have no mark of the end, where parsing
stops, and are parsed without an error. -/
theorem faultless_iff (hstop : stop.isEof = true) :
    Faultless p nodes functions ↔
      (∀ t ∈ p, t.isEof = false) ∧ (parse (p ++ [stop]) nodes functions).errors = [] := by
  constructor
  · intro h
    obtain ⟨slots, nodes', functions', hread⟩ := h.exists_end
    exact ⟨h.isEof, by rw [parse_eq (splitAtEnd_concat h.isEof hstop) hread, List.map_nil]⟩
  · rintro ⟨heof, herrors⟩
    obtain ⟨slots, s, hread, -⟩ := declarations_fuelFor p nodes functions []
    rw [parse_eq (splitAtEnd_concat heof hstop) hread] at herrors
    exact ⟨slots, s, hread, List.map_eq_nil_iff.mp herrors⟩

/-- Faults that have their tokens do not depend on the mark of the end. -/
theorem map_locate_of_sites {faults : List Fault} (h : ∀ f ∈ faults, f.site ≠ none)
    (mark stop : Token) : faults.map (Fault.locate mark) = faults.map (Fault.locate stop) := by
  refine List.map_congr_left fun f hf => ?_
  obtain ⟨t, ht⟩ := Option.ne_none_iff_exists'.mp (h f hf)
  rw [Fault.locate, Fault.locate, ht]
  rfl

/-- Before the first mark of the end nothing goes on with a conditional that did not before. -/
theorem Unattached.splitAtEnd (h : Unattached q) (hstop : stop.isEof = true) :
    Unattached (splitAtEnd (q ++ [stop])).1 := by
  cases q with
  | nil =>
    rw [List.nil_append, Nya.splitAtEnd, if_pos hstop]
    rfl
  | cons t q =>
    rw [List.cons_append, Nya.splitAtEnd]
    split
    · rfl
    · exact h

end Parse

/--
What is parsed of two lists of tokens in a row: the numbers of the second one come behind those of
the first.
-/
def Parsed.followedBy (a b : Parsed) : Parsed :=
  ⟨a.statements ++ b.statements.map (Option.map (Stmt.relabel (.shift a.nodes a.functions))),
    a.errors ++ b.errors, a.nodes + b.nodes, a.functions + b.functions⟩

/-- What follows is read from the numbers that the first part has come to. -/
theorem Parsed.followedBy_parse {tokens : List Token} (h : ∃ t ∈ tokens, t.isEof = true)
    {a : Parsed} {statements : List (Option Stmt)} {errors : List SyntaxError}
    {nodes functions : Nat}
    (hparse : parse tokens a.nodes a.functions = ⟨statements, errors, nodes, functions⟩) :
    a.followedBy (parse tokens 0 0) =
      ⟨a.statements ++ statements, a.errors ++ errors, nodes, functions⟩ := by
  rw [parse_shift h] at hparse
  have herrors : (parse tokens 0 0).errors.map (SyntaxError.relabel (.shift a.nodes a.functions)) =
      (parse tokens 0 0).errors := List.map_id' _
  obtain ⟨hstatements, herrors', hnodes, hfunctions⟩ := Parsed.mk.inj hparse
  rw [herrors] at herrors'
  rw [followedBy, hstatements, herrors', ← hnodes, ← hfunctions]
  rfl

namespace Parse

variable {p b q : List Token} {semi stop : Token} {nodes functions : Nat}

/--
**A faulty declaration is confined to itself.** It stands between tokens that are read without a
fault and any others. The whole is then parsed as the three are on their own: what the first ones
yield, one slot for the declaration, and what the others yield, with the faults of the declaration
before theirs.
-/
theorem faults_isolated (hp : Faultless p nodes functions) (hb : Confined b) (hq : Unattached q)
    (hsemi : semi.isSymbol .semicolon = true) (hstop : stop.isEof = true) :
    let first := parse (p ++ [stop]) nodes functions
    let middle := parse (b ++ [semi, stop]) 0 0
    let last := parse (q ++ [stop]) 0 0
    first.errors = [] ∧ (∃ slot, middle.statements = [slot]) ∧
      parse (p ++ b ++ [semi] ++ q ++ [stop]) nodes functions =
        (first.followedBy middle).followedBy last := by
  intro first middle last
  obtain ⟨hpeof, hnone⟩ := (faultless_iff hstop).mp hp
  obtain ⟨slots, nodes₁, functions₁, hread⟩ := hp.exists_end
  have hbeof := hb.isEof_append hsemi
  have hsplit : splitAtEnd (b ++ [semi, stop]) = (b ++ [semi], stop) := by
    rw [← List.singleton_append, ← List.append_assoc]
    exact splitAtEnd_concat hbeof hstop
  -- The third list may have a mark of the end before its last one.
  obtain ⟨rest, mark, hrest⟩ : ∃ rest mark, splitAtEnd (q ++ [stop]) = (rest, mark) := ⟨_, _, rfl⟩
  have hunattached : Unattached rest := by
    have hq := hq.splitAtEnd hstop
    rwa [hrest] at hq
  obtain ⟨slot, s, hslot, hsites, hwhole⟩ :=
    declarations_isolated hsemi hb.loose (hb.unattached_append hsemi) hunattached hread
  obtain ⟨others, s', hothers, -⟩ := declarations_fuelFor rest s.nodes s.functions []
  refine ⟨hnone, ?_, ?_⟩
  · obtain ⟨slot, s, hslot, -⟩ := exists_slot hsemi hb.loose 0 0
    exact ⟨slot, congrArg Parsed.statements (parse_eq hsplit hslot)⟩
  · have hfirst : first = ⟨slots, [], nodes₁, functions₁⟩ :=
      parse_eq (splitAtEnd_concat hpeof hstop) hread
    have hmiddle : first.followedBy middle =
        ⟨slots ++ [slot], s.faults.map (Fault.locate mark), s.nodes, s.functions⟩ := by
      rw [hfirst, Parsed.followedBy_parse ⟨stop, by simp, hstop⟩ (parse_eq hsplit hslot),
        map_locate_of_sites hsites mark stop]
      rfl
    have htokens : p ++ b ++ [semi] ++ q ++ [stop] = p ++ (b ++ [semi]) ++ (q ++ [stop]) := by
      simp only [List.append_assoc]
    have hend : splitAtEnd (p ++ (b ++ [semi]) ++ (q ++ [stop])) =
        (p ++ (b ++ [semi] ++ rest), mark) := by
      rw [splitAtEnd_append, hrest, List.append_assoc p]
      exact fun t ht => (List.mem_append.mp ht).elim (hpeof t) (hbeof t)
    rw [htokens, parse_eq hend (hwhole others s' hothers), hmiddle,
      Parsed.followedBy_parse ⟨stop, by simp, hstop⟩ (parse_eq hrest hothers), ← List.map_append,
      List.append_assoc]
    rfl

/-- A conditional without an `^e^`. -/
def soundTokens : List Token :=
  [Symbol.ifThen.token, Symbol.leftParen.token, Symbol.yes.token, Symbol.rightParen.token,
    Symbol.print.token, Symbol.nil.token, Symbol.semicolon.token]

/-- An assignment to a literal, with another expression behind it. -/
def faultyTokens : List Token :=
  [Symbol.nil.token, Symbol.equal.token, ⟨.identifier, "a", 1⟩, ⟨.identifier, "a", 1⟩]

/-- A conditional that breaks off. -/
def brokenTokens : List Token := [Symbol.ifThen.token, Symbol.leftParen.token, Symbol.yes.token]

/-- The faulty declaration has two faults, and the one behind it is found to have one. -/
theorem faults_isolated_between :
    Faultless soundTokens 0 0 ∧ Confined faultyTokens ∧ Unattached brokenTokens ∧
      (parse (soundTokens ++ faultyTokens ++ [Symbol.semicolon.token] ++ brokenTokens ++
        [⟨.eof, "", 1⟩]) 0 0).errors.length = 3 ∧
      parse (soundTokens ++ faultyTokens ++ [Symbol.semicolon.token] ++ brokenTokens ++
        [⟨.eof, "", 1⟩]) 0 0 =
        ((parse (soundTokens ++ [⟨.eof, "", 1⟩]) 0 0).followedBy
          (parse (faultyTokens ++ [Symbol.semicolon.token, ⟨.eof, "", 1⟩]) 0 0)).followedBy
          (parse (brokenTokens ++ [⟨.eof, "", 1⟩]) 0 0) := by
  have hstop : Token.isEof ⟨.eof, "", 1⟩ = true := rfl
  have hsound : Faultless soundTokens 0 0 :=
    (faultless_iff hstop).mpr ⟨by decide, by decide +kernel⟩
  have hfaulty : Confined faultyTokens := ⟨rfl, by decide, by decide, by decide⟩
  have hbroken : Unattached brokenTokens := rfl
  exact ⟨hsound, hfaulty, hbroken, by decide +kernel,
    (faults_isolated hsound hfaulty hbroken rfl hstop).2.2⟩

end Parse

end Nya
