import Nya.Proofs.Parse.Yields

/-!
# How a parser ends

`Ends p ts e` says which tokens a parser leaves of the list `ts` and which faults it adds, from some
amount of fuel on, whatever was numbered and recorded before. What was read drops out, and with it
the numbers: two lists of tokens can be compared by their ends, though all nodes in the one have
other numbers than those in the other.

Each small parser has one rule, in which the end of a sequence is that of its second part.
-/

namespace Nya.Parse

/-- The tokens that are left and the faults that were added, at success or at a fault. -/
inductive End where
  | ok (rest : List Token) (added : List Fault)
  | fault (f : Fault) (rest : List Token) (added : List Fault)

namespace End

/-- The end when faults were added before. -/
def after (earlier : List Fault) : End → End
  | ok rest added => ok rest (earlier ++ added)
  | fault f rest added => fault f rest (earlier ++ added)

@[simp] theorem after_nil (e : End) : e.after [] = e := by cases e <;> rfl

theorem after_after (a b : List Fault) (e : End) : (e.after b).after a = e.after (a ++ b) := by
  cases e <;> simp [after]

/-- The tokens at which a list of declarations goes on. -/
def resume : End → List Token
  | ok rest _ => rest
  | fault _ rest _ => recover rest

/-- The faults that a declaration leaves behind. -/
def recorded : End → List Fault
  | ok _ added => added
  | fault f _ added => added ++ [f]

@[simp] theorem resume_after (earlier : List Fault) (e : End) :
    (e.after earlier).resume = e.resume := by
  cases e <;> rfl

@[simp] theorem recorded_after (earlier : List Fault) (e : End) :
    (e.after earlier).recorded = earlier ++ e.recorded := by
  cases e <;> simp [after, recorded]

end End

variable {α β : Type} {ts us rest : List Token} {e : End} {cause : SyntaxCause}
  {p : Nat → Parser α} {k : Nat → β → Parser α}

/-- The outcome has that end, where so many faults were recorded before. -/
def Outcome.HasEnd (faults : List Fault) : Outcome α → End → Prop
  | .ok _ s, .ok rest added => s.rest = rest ∧ s.faults = faults ++ added
  | .fault f s, .fault f' rest added => f = f' ∧ s.rest = rest ∧ s.faults = faults ++ added
  | _, _ => False

theorem Outcome.HasEnd.after {faults added : List Fault} {o : Outcome α}
    (h : o.HasEnd (faults ++ added) e) : o.HasEnd faults (e.after added) := by
  cases o <;> cases e <;> simp_all [HasEnd, End.after]

/-- An outcome has one end only. -/
theorem Outcome.HasEnd.unique {faults : List Fault} {o : Outcome α} {e' : End}
    (h : o.HasEnd faults e) (h' : o.HasEnd faults e') : e = e' := by
  cases o <;> cases e <;> cases e' <;> simp_all [HasEnd]

/-- With enough fuel the parser, put before the tokens, has that end. -/
def Ends (p : Nat → Parser α) (ts : List Token) (e : End) : Prop :=
  ∀ nodes functions faults, ∃ o : Outcome α, o.HasEnd faults e ∧
    ∃ least, ∀ n, least ≤ n → p n ⟨ts, nodes, functions, faults⟩ = o

/--
With enough fuel the parser, put before the first list of tokens, finds no fault and stops at the
second one.
-/
def Reaches (p : Nat → Parser α) (ts rest : List Token) : Prop := Ends p ts (.ok rest [])

theorem Ends.unique {e' : End} (h : Ends p ts e) (h' : Ends p ts e') :
    e = e' := by
  obtain ⟨o, hend, least, ho⟩ := h 0 0 []
  obtain ⟨o', hend', least', ho'⟩ := h' 0 0 []
  have heq :=
    (ho _ (Nat.le_max_left least least')).symm.trans (ho' _ (Nat.le_max_right least least'))
  exact hend.unique (heq ▸ hend')

/-- What is read where no fault is found. -/
theorem Reaches.yields (h : Reaches p ts rest) (nodes functions : Nat) (faults : List Fault) :
    ∃ v nodes' functions',
      Yields p ⟨ts, nodes, functions, faults⟩ v ⟨rest, nodes', functions', faults⟩ := by
  obtain ⟨o, hend, hread⟩ := h nodes functions faults
  cases o with
  | ok v s =>
    obtain ⟨rfl, hfaults⟩ := hend
    rw [List.append_nil] at hfaults
    subst hfaults
    exact ⟨v, s.nodes, s.functions, hread⟩
  | fault f s => exact hend.elim
  | exhausted => exact hend.elim

theorem reaches_of_yields (h : ∀ nodes functions faults,
      ∃ v nodes' functions', Yields p ⟨ts, nodes, functions, faults⟩ v
        ⟨rest, nodes', functions', faults⟩) : Reaches p ts rest := by
  intro nodes functions faults
  obtain ⟨v, nodes', functions', hread⟩ := h nodes functions faults
  exact ⟨.ok v ⟨rest, nodes', functions', faults⟩, ⟨rfl, (List.append_nil _).symm⟩, hread⟩

/-! ## Rules -/

theorem reaches_pure (v : α) (ts : List Token) : Reaches (fun _ => (pure v : Parser α)) ts ts :=
  reaches_of_yields fun _ _ _ => ⟨v, _, _, yields_pure v _⟩

theorem Ends.succ (h : Ends (fun n => p (n + 1)) ts e) : Ends p ts e := by
  intro nodes functions faults
  obtain ⟨o, hend, least, ho⟩ := h nodes functions faults
  refine ⟨o, hend, least + 1, fun n hn => ?_⟩
  obtain ⟨m, rfl⟩ : ∃ m, n = m + 1 := ⟨n - 1, by omega⟩
  exact ho m (by omega)

/-- The second part goes on with what the first one has read. -/
theorem ends_seq {p : Nat → Parser β} {added : List Fault}
    (h : ∀ nodes functions faults, ∃ v nodes' functions',
      Yields p ⟨ts, nodes, functions, faults⟩ v ⟨us, nodes', functions', faults ++ added⟩ ∧
        Ends (fun n => k n v) us e) : Ends (fun n => p n >>= k n) ts (e.after added) := by
  intro nodes functions faults
  obtain ⟨v, nodes', functions', ⟨least, hread⟩, hk⟩ := h nodes functions faults
  obtain ⟨o, hend, least', ho⟩ := hk nodes' functions' (faults ++ added)
  refine ⟨o, hend.after, max least least', fun n hn => ?_⟩
  show (p n >>= k n) _ = o
  rw [bind_apply, hread n (Nat.le_trans (Nat.le_max_left _ _) hn)]
  exact ho n (Nat.le_trans (Nat.le_max_right _ _) hn)

theorem ends_step {p : Nat → Parser β} (h : ∀ nodes functions faults, ∃ v nodes' functions',
      Yields p ⟨ts, nodes, functions, faults⟩ v ⟨us, nodes', functions', faults⟩ ∧
        Ends (fun n => k n v) us e) : Ends (fun n => p n >>= k n) ts e := by
  rw [← e.after_nil]
  refine @ends_seq _ _ _ us _ _ _ _ fun nodes functions faults => ?_
  rw [List.append_nil]
  exact h nodes functions faults

/-- After a first part that succeeds. -/
theorem Ends.bind {p : Nat → Parser β} {k : Nat → β → Parser α} {added : List Fault}
    (hp : Ends p ts (.ok us added)) (hk : ∀ v, Ends (fun n => k n v) us e) :
    Ends (fun n => p n >>= k n) ts (e.after added) := by
  refine @ends_seq _ _ _ us _ _ _ _ fun nodes functions faults => ?_
  obtain ⟨o, hend, hread⟩ := hp nodes functions faults
  cases o with
  | ok v s =>
    obtain ⟨rfl, hfaults⟩ := hend
    obtain ⟨rest, nodes', functions', faults'⟩ := s
    subst hfaults
    exact ⟨v, nodes', functions', hread, hk v⟩
  | fault f s => exact hend.elim
  | exhausted => exact hend.elim

/-- After a first part that finds no fault. -/
theorem Reaches.bind {p : Nat → Parser β} {k : Nat → β → Parser α} (hp : Reaches p ts us)
    (hk : ∀ v, Ends (fun n => k n v) us e) : Ends (fun n => p n >>= k n) ts e := by
  have h := Ends.bind hp hk
  rwa [End.after_nil] at h

/-- A fault ends a sequence. -/
theorem Ends.bind_fault {p : Nat → Parser β} {f : Fault} {added : List Fault}
    (hp : Ends p ts (.fault f us added)) (k : Nat → β → Parser α) :
    Ends (fun n => p n >>= k n) ts (.fault f us added) := by
  intro nodes functions faults
  obtain ⟨o, hend, least, ho⟩ := hp nodes functions faults
  cases o with
  | ok v s => exact hend.elim
  | exhausted => exact hend.elim
  | fault f' s =>
    refine ⟨.fault f' s, hend, least, fun n hn => ?_⟩
    show (p n >>= k n) _ = _
    rw [bind_apply, ho n hn]

/-- A second part that takes no token and finds no fault leaves the end as it is. -/
theorem Ends.followed {p : Nat → Parser β} (hp : Ends p ts e)
    (hk : ∀ v us, Reaches (fun n => k n v) us us) : Ends (fun n => p n >>= k n) ts e := by
  cases e with
  | fault f us added => exact hp.bind_fault k
  | ok us added =>
    have h := hp.bind fun v => hk v us
    rwa [End.after, List.append_nil] at h

/-! ## Small parsers -/

theorem ends_takeIf {test : Token → Bool} {k : Nat → Option Token → Parser α} {t : Token}
    (ht : test t = true) (hk : Ends (fun n => k n (some t)) ts e) :
    Ends (fun n => takeIf test >>= k n) (t :: ts) e :=
  ends_step fun _ _ _ => ⟨some t, _, _, yields_of_eq fun _ => if_pos ht, hk⟩

theorem ends_takeIf_none {test : Token → Bool} {k : Nat → Option Token → Parser α}
    (hts : ∀ t ∈ ts.head?, test t = false) (hk : Ends (fun n => k n none) ts e) :
    Ends (fun n => takeIf test >>= k n) ts e := by
  have hread : ∀ s : State, s.rest = ts → takeIf test s = .ok none s := by
    intro s hs
    cases ts with
    | nil => rw [takeIf, hs]
    | cons t rest => rw [takeIf_cons hs, hts t rfl, if_neg Bool.false_ne_true]
  exact ends_step fun _ _ _ => ⟨none, _, _, yields_of_eq fun _ => hread _ rfl, hk⟩

theorem ends_expect {symbol : Symbol} {k : Nat → Token → Parser α} {t : Token}
    (ht : t.isSymbol symbol = true) (hk : Ends (fun n => k n t) ts e) :
    Ends (fun n => expect symbol cause >>= k n) (t :: ts) e := by
  simp only [expect_eq, bind_assoc]
  exact ends_takeIf ht hk

theorem ends_fail (cause : SyntaxCause) (ts : List Token) :
    Ends (fun _ => (fail cause : Parser α)) ts (.fault ⟨ts.head?, cause⟩ ts []) := by
  intro nodes functions faults
  refine ⟨.fault ⟨ts.head?, cause⟩ ⟨ts, nodes, functions, faults⟩, ?_, 0, fun _ _ => rfl⟩
  exact ⟨rfl, rfl, (List.append_nil _).symm⟩

/-- A symbol that is missing is a fault at the next token. -/
theorem ends_expect_fault {symbol : Symbol} (k : Nat → Token → Parser α)
    (hts : ∀ t ∈ ts.head?, t.isSymbol symbol = false) :
    Ends (fun n => expect symbol cause >>= k n) ts (.fault ⟨ts.head?, cause⟩ ts []) := by
  simp only [expect_eq, bind_assoc]
  exact ends_takeIf_none hts ((ends_fail cause ts).bind_fault k)

theorem ends_expectName {k : Nat → Token → Parser α} {t : Token} (ht : t.kind = .identifier)
    (hk : Ends (fun n => k n t) ts e) :
    Ends (fun n => expectName cause >>= k n) (t :: ts) e := by
  simp only [expectName_eq, bind_assoc]
  exact ends_takeIf (by rw [ht]; rfl) hk

theorem ends_nextIs {symbol : Symbol} {k : Nat → Bool → Parser α} {b : Bool}
    (hts : (ts.head?.any fun t => t.isSymbol symbol) = b) (hk : Ends (fun n => k n b) ts e) :
    Ends (fun n => nextIs symbol >>= k n) ts e := by
  subst hts
  exact ends_step fun _ _ _ => ⟨_, _, _, yields_of_eq fun _ => rfl, hk⟩

theorem ends_newNode {k : Nat → Nat → Parser α} (hk : ∀ id, Ends (fun n => k n id) ts e) :
    Ends (fun n => newNode >>= k n) ts e :=
  ends_step fun nodes _ _ => ⟨nodes, _, _, yields_of_eq fun _ => rfl, hk nodes⟩

theorem ends_newFunction {k : Nat → Nat → Parser α} (hk : ∀ id, Ends (fun n => k n id) ts e) :
    Ends (fun n => newFunction >>= k n) ts e :=
  ends_step fun _ functions _ => ⟨functions, _, _, yields_of_eq fun _ => rfl, hk functions⟩

theorem ends_limit {count : Nat} {k : Nat → Unit → Parser α} (hcount : count < maxArguments)
    (hk : Ends (fun n => k n ()) ts e) :
    Ends (fun n => limit count cause >>= k n) ts e := by
  simp only [limit_eq, if_neg (Nat.not_le.mpr hcount)]
  exact hk

theorem ends_peek? {k : Nat → Option Token → Parser α} (hk : Ends (fun n => k n ts.head?) ts e) :
    Ends (fun n => peek? >>= k n) ts e :=
  hk

/-- After a fault the tokens up to a likely start are dropped, and the fault is recorded. -/
theorem Ends.recovering (h : Ends p ts e) :
    Ends (fun n => recovering (p n)) ts (.ok e.resume e.recorded) := by
  intro nodes functions faults
  obtain ⟨o, hend, least, ho⟩ := h nodes functions faults
  cases o with
  | exhausted => exact hend.elim
  | ok v s =>
    cases e with
    | fault => exact hend.elim
    | ok rest added =>
      exact ⟨.ok (some v) s, hend, least, fun n hn => by simp only [Parse.recovering, ho n hn]⟩
  | fault f s =>
    cases e with
    | ok => exact hend.elim
    | fault f' rest added =>
      obtain ⟨rfl, rfl, hfaults⟩ := hend
      have hrecorded : s.faults ++ [f] = faults ++ (added ++ [f]) := by
        rw [hfaults, List.append_assoc]
      refine ⟨.ok none { s with rest := recover s.rest, faults := s.faults ++ [f] },
        ⟨rfl, hrecorded⟩, least, fun n hn => ?_⟩
      simp only [Parse.recovering, ho n hn]

end Nya.Parse
