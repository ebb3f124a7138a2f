import Nya.Proofs.Parse.Extend

/-!
# What is read with enough fuel

`Yields p s v s'` says that the parser reads `v` and ends in the state `s'` from some amount of fuel
on. In this form the fuel drops out of an argument: each rule of the grammar has its outcome if its
parts have theirs.

Where a bound on the fuel is known, as in `Parse.Progress`, the outcome is there from that bound on:
see `expression_of_yields`.
-/

namespace Nya.Parse

/-- With enough fuel the parser reads the value and ends in the state. -/
def Yields {α : Type} (p : Nat → Parser α) (s : State) (v : α) (s' : State) : Prop :=
  ∃ least, ∀ n, least ≤ n → p n s = .ok v s'

variable {α β : Type} {s s₁ s' : State}

/-! ## Rules -/

theorem yields_of_eq {p : Nat → Parser α} {v : α} (h : ∀ n, p n s = .ok v s') : Yields p s v s' :=
  ⟨0, fun n _ => h n⟩

theorem yields_pure (v : α) (s : State) : Yields (fun _ => (pure v : Parser α)) s v s :=
  yields_of_eq fun _ => rfl

/-- One unit of fuel makes no difference. -/
theorem yields_succ_iff {p : Nat → Parser α} {v : α} :
    Yields (fun n => p (n + 1)) s v s' ↔ Yields p s v s' := by
  constructor
  · rintro ⟨least, hp⟩
    refine ⟨least + 1, fun n hn => ?_⟩
    obtain ⟨m, rfl⟩ : ∃ m, n = m + 1 := ⟨n - 1, by omega⟩
    exact hp m (by omega)
  · rintro ⟨least, hp⟩
    exact ⟨least, fun n hn => hp (n + 1) (by omega)⟩

theorem Yields.succ {p : Nat → Parser α} {v : α} (h : Yields (fun n => p (n + 1)) s v s') :
    Yields p s v s' :=
  yields_succ_iff.mp h

theorem Yields.bind {p : Nat → Parser β} {k : Nat → β → Parser α} {u : β} {v : α}
    (hp : Yields p s u s₁) (hk : Yields (fun n => k n u) s₁ v s') :
    Yields (fun n => p n >>= k n) s v s' := by
  obtain ⟨least, hp⟩ := hp
  obtain ⟨least', hk⟩ := hk
  refine ⟨max least least', fun n hn => ?_⟩
  show (p n >>= k n) s = .ok v s'
  rw [bind_apply, hp n (Nat.le_trans (Nat.le_max_left _ _) hn)]
  exact hk n (Nat.le_trans (Nat.le_max_right _ _) hn)

/-- From what was read at first nothing else can be read later. -/
theorem Yields.unique {p : Nat → Parser α} {u v : α} (h : Yields p s u s₁)
    (h' : Yields p s v s') : u = v ∧ s₁ = s' := by
  obtain ⟨least, h⟩ := h
  obtain ⟨least', h'⟩ := h'
  have heq := (h _ (Nat.le_max_left least least')).symm.trans (h' _ (Nat.le_max_right least least'))
  exact Outcome.ok.inj heq

/-! ## Small parsers -/

section

variable {rest : List Token} {nodes functions : Nat} {faults : List Fault} {v : α}

theorem yields_takeIf {test : Token → Bool} {k : Nat → Option Token → Parser α} {t : Token}
    (ht : test t = true)
    (hk : Yields (fun n => k n (some t)) ⟨rest, nodes, functions, faults⟩ v s') :
    Yields (fun n => takeIf test >>= k n) ⟨t :: rest, nodes, functions, faults⟩ v s' :=
  Yields.bind (yields_of_eq fun _ => if_pos ht) hk

theorem yields_takeIf_none {test : Token → Bool} {k : Nat → Option Token → Parser α}
    (hs : ∀ t ∈ s.rest.head?, test t = false) (hk : Yields (fun n => k n none) s v s') :
    Yields (fun n => takeIf test >>= k n) s v s' := by
  refine Yields.bind (yields_of_eq fun _ => ?_) hk
  rw [takeIf]
  split
  · rfl
  · next t rest hrest =>
    rw [hs t (by rw [hrest]; rfl)]
    rfl

theorem yields_expect {symbol : Symbol} {cause : SyntaxCause} {k : Nat → Token → Parser α}
    {t : Token} (ht : t.isSymbol symbol = true)
    (hk : Yields (fun n => k n t) ⟨rest, nodes, functions, faults⟩ v s') :
    Yields (fun n => expect symbol cause >>= k n) ⟨t :: rest, nodes, functions, faults⟩ v s' := by
  simp only [expect_eq, bind_assoc]
  exact yields_takeIf ht hk

theorem yields_nextIs {symbol : Symbol} {k : Nat → Bool → Parser α} {t : Token} {b : Bool}
    (ht : t.isSymbol symbol = b)
    (hk : Yields (fun n => k n b) ⟨t :: rest, nodes, functions, faults⟩ v s') :
    Yields (fun n => nextIs symbol >>= k n) ⟨t :: rest, nodes, functions, faults⟩ v s' := by
  subst ht
  exact hk

theorem yields_newNode {k : Nat → Nat → Parser α}
    (hk : Yields (fun n => k n nodes) ⟨rest, nodes + 1, functions, faults⟩ v s') :
    Yields (fun n => newNode >>= k n) ⟨rest, nodes, functions, faults⟩ v s' :=
  hk

theorem yields_limit {count : Nat} {cause : SyntaxCause} {k : Nat → Unit → Parser α}
    (hcount : count < maxArguments) (hk : Yields (fun n => k n ()) s v s') :
    Yields (fun n => limit count cause >>= k n) s v s' := by
  simp only [limit_eq, if_neg (Nat.not_le.mpr hcount)]
  exact hk

end

/-! ## The fuel that is enough -/

/-- An expression that is read with some fuel is read with any that is enough for its tokens. -/
theorem expression_of_yields {e : Expr} {n : Nat} (h : Yields expression s e s')
    (hn : 16 * s.rest.length + 11 ≤ n) : expression n s = .ok e s' := by
  obtain ⟨least, h⟩ := h
  have hlater := h _ (Nat.le_max_right n least)
  have hext : (expression n s).Extends [] False s (expression (max n least) (s.extend [])) :=
    expression_extends (Nat.le_max_left n least) s
  rw [State.extend_nil, hlater] at hext
  have htakes := expression_takes n s
  cases hp : expression n s with
  | ok e' s₁ =>
    rw [hp] at hext
    have heq := hext.2 (Or.inl rfl)
    rw [State.extend_nil] at heq
    exact heq.symm
  | fault f s₁ =>
    rw [hp] at hext
    have heq := hext.2 (Or.inl rfl)
    cases heq
  | exhausted =>
    rw [hp] at htakes
    have hlt : n < 16 * s.rest.length + 11 := htakes
    omega

end Nya.Parse
