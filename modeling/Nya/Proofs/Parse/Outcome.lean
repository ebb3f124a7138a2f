import Nya.Proofs.Parse.Clauses

/-!
# Reasoning about parsers

`Outcome.Meets` says what is required of each kind of outcome. A parser is reasoned about step by
step: `Outcome.Meets.seq` takes the requirement of a sequence apart, and each of the small parsers
has one rule that says when a sequence starting with it meets a requirement.
-/

namespace Nya.Parse

/--
What is required of an outcome: `ok` of what was read and the state after it, `bad` of the state at
a fault, and `out` if the fuel is used up.
-/
def Outcome.Meets {α : Type} (ok : α → State → Prop) (bad : State → Prop) (out : Prop) :
    Outcome α → Prop
  | .ok value next => ok value next
  | .fault _ next => bad next
  | .exhausted => out

variable {α β : Type} {ok : α → State → Prop} {bad : State → Prop} {out : Prop} {s : State}

theorem Outcome.Meets.mono {ok' : α → State → Prop} {bad' : State → Prop} {out' : Prop}
    {o : Outcome α} (h : o.Meets ok bad out) (hok : ∀ v s, ok v s → ok' v s)
    (hbad : ∀ s, bad s → bad' s) (hout : out → out') : o.Meets ok' bad' out' := by
  cases o with
  | ok v s => exact hok v s h
  | fault f s => exact hbad s h
  | exhausted => exact hout h

/-! ## Sequences -/

theorem bind_apply (p : Parser α) (k : α → Parser β) (s : State) :
    (p >>= k) s =
      match p s with
      | .ok value next => k value next
      | .fault f next => .fault f next
      | .exhausted => .exhausted := rfl

instance : LawfulMonad Parser :=
  LawfulMonad.mk' Parser
    (by
      intro α p
      funext s
      show ((p >>= pure) s : Outcome α) = p s
      rw [bind_apply]
      cases p s <;> rfl)
    (by intros; rfl)
    (by
      intro α β γ p k k'
      funext s
      rw [bind_apply, bind_apply, bind_apply]
      cases p s <;> rfl)

/-- A sequence meets a requirement if its second part does so from wherever the first may end. -/
theorem Outcome.Meets.seq {p : Parser β} {k : β → Parser α} {ok₁ : β → State → Prop}
    {bad₁ : State → Prop} {out₁ : Prop} (h : (p s).Meets ok₁ bad₁ out₁)
    (hbad : ∀ s', bad₁ s' → bad s') (hout : out₁ → out)
    (hk : ∀ v s', ok₁ v s' → (k v s').Meets ok bad out) : ((p >>= k) s).Meets ok bad out := by
  rw [bind_apply]
  cases hp : p s with
  | ok v s' =>
    rw [hp] at h
    exact hk v s' h
  | fault f s' =>
    rw [hp] at h
    exact hbad s' h
  | exhausted =>
    rw [hp] at h
    exact hout h

/-! ## Small parsers -/

theorem meets_takeIf {test : Token → Bool} {k : Option Token → Parser α}
    (hnone : (k none s).Meets ok bad out)
    (hsome : ∀ t rest, s.rest = t :: rest → test t = true →
      (k (some t) { s with rest }).Meets ok bad out) :
    ((takeIf test >>= k) s).Meets ok bad out := by
  rw [bind_apply, takeIf]
  cases hr : s.rest with
  | nil => exact hnone
  | cons t rest =>
    cases ht : test t with
    | false => simpa [ht] using hnone
    | true => simpa [ht] using hsome t rest hr ht

theorem meets_expect {symbol : Symbol} {cause : SyntaxCause} {k : Token → Parser α} (hbad : bad s)
    (hk : ∀ t rest, s.rest = t :: rest → t.isSymbol symbol = true →
      (k t { s with rest }).Meets ok bad out) :
    ((expect symbol cause >>= k) s).Meets ok bad out := by
  have hstep : (expect symbol cause s).Meets (fun t s' => (k t s').Meets ok bad out) bad out :=
    meets_takeIf hbad hk
  exact hstep.seq (fun _ h => h) id (fun _ _ h => h)

theorem meets_expectName {cause : SyntaxCause} {k : Token → Parser α} (hbad : bad s)
    (hk : ∀ t rest, s.rest = t :: rest → (t.kind == .identifier) = true →
      (k t { s with rest }).Meets ok bad out) :
    ((expectName cause >>= k) s).Meets ok bad out := by
  have hstep : (expectName cause s).Meets (fun t s' => (k t s').Meets ok bad out) bad out :=
    meets_takeIf hbad hk
  exact hstep.seq (fun _ h => h) id (fun _ _ h => h)

theorem meets_nextIs {symbol : Symbol} {k : Bool → Parser α} (h : ∀ b, (k b s).Meets ok bad out) :
    ((nextIs symbol >>= k) s).Meets ok bad out :=
  h _

/-- A list is empty or what is read as its items. -/
theorem meets_listBefore {ok : List α → State → Prop} {items : Parser (List α)} {stop : Symbol}
    (hnil : ok [] s) (h : (items s).Meets ok bad out) :
    (Parsing.listBefore stop items s).Meets ok bad out := by
  refine meets_nextIs ?_
  intro b
  cases b with
  | true => exact hnil
  | false => exact h

theorem meets_peek? {k : Option Token → Parser α}
    (hnone : s.rest = [] → (k none s).Meets ok bad out)
    (hsome : ∀ t rest, s.rest = t :: rest → (k (some t) s).Meets ok bad out) :
    ((peek? >>= k) s).Meets ok bad out := by
  rw [bind_apply, peek?]
  cases hr : s.rest with
  | nil => exact hnone hr
  | cons t rest => exact hsome t rest hr

theorem meets_recovering {p : Parser α} {bad₁ : State → Prop} {ok₁ : Option α → State → Prop}
    (h : (p s).Meets (fun v s' => ok₁ (some v) s') bad₁ out)
    (hbad : ∀ s' f, bad₁ s' →
      ok₁ none { s' with rest := recover s'.rest, faults := s'.faults ++ [f] }) :
    (recovering p s).Meets ok₁ bad out := by
  rw [recovering]
  cases hp : p s with
  | ok v s' =>
    rw [hp] at h
    exact h
  | fault f s' =>
    rw [hp] at h
    exact hbad s' f h
  | exhausted =>
    rw [hp] at h
    exact h

end Nya.Parse
