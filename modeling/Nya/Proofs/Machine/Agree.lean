import Nya.Proofs.Machine.BigStep
import Nya.Proofs.Machine.Thin

/-!
# Actions with and without spare frames

Two actions *agree* where some frames are spare if, whenever one of them does something in a world,
the other does the same in the world with or without the spare frames. What is put together of
actions that agree agrees, and so does an action in a scope of its own with one that does without
the scope, as long as nothing is bound there.

* `Follows` for one direction, in any relation between worlds
* `Agrees` for both directions
* `agrees_executesTo`, `agrees_tests`, `agrees_performs`
* `Agrees.andThen`, `Agrees.iterates`, `Agrees.inScope`, `Agrees.inSpareScope`
-/

namespace Nya.Machine

variable {natives : Array Native}

/-! ## One direction -/

/-- What the first action does from one of two related worlds, the second does from the other. -/
def Follows {α β : Type} (rel : Thinning → World → World → Prop) (res : Thinning → α → β → Prop)
    (A : Action α) (B : Action β) : Prop :=
  ∀ ⦃Λ : Thinning⦄ ⦃w v : World⦄, rel Λ w v → ∀ ⦃r : α⦄ ⦃w' : World⦄, A w r w' →
    ∃ Λ' q v', Λ.Extends Λ' ∧ rel Λ' w' v' ∧ res Λ' r q ∧ B v q v'

/-- Ways to compare how statements ended by which one goes on just where the other does. -/
structure Comparable (res : Thinning → Except RuntimeError Flow → Except RuntimeError Flow → Prop) :
    Prop where
  completed : ∀ Λ, res Λ (.ok .completed) (.ok .completed)
  error : ∀ Λ e, res Λ (.error e) (.error e)
  completed_iff : ∀ {Λ r q}, res Λ r q → (r = .ok .completed ↔ q = .ok .completed)

section

variable {rel : Thinning → World → World → Prop}
  {res : Thinning → Except RuntimeError Flow → Except RuntimeError Flow → Prop}
  {A A' B B' : Action (Except RuntimeError Flow)} {T T' : Action (Except RuntimeError Bool)}

theorem Follows.andThen (hres : Comparable res) (h : Follows rel res A B)
    (h' : Follows rel res A' B') : Follows rel res (Then A A') (Then B B') := by
  intro Λ w v hw r w' hthen
  cases hthen with
  | stopped hA hr =>
    obtain ⟨Λ', q, v', hΛ, hw', hq, hB⟩ := h hw hA
    exact ⟨Λ', q, v', hΛ, hw', hq, .stopped hB fun hc => hr ((hres.completed_iff hq).mpr hc)⟩
  | passed hA hA' =>
    obtain ⟨Λ₁, q₁, v₁, hΛ₁, hw₁, hq₁, hB⟩ := h hw hA
    obtain rfl := (hres.completed_iff hq₁).mp rfl
    obtain ⟨Λ', q, v', hΛ, hw', hq, hB'⟩ := h' hw₁ hA'
    exact ⟨Λ', q, v', hΛ₁.trans hΛ, hw', hq, .passed hB hB'⟩

-- By induction on the turns of the first action: each is followed by one of the second.
theorem Follows.iterates (hres : Comparable res) (htest : Follows rel (fun _ b b' => b = b') T T')
    (h : Follows rel res A B) : Follows rel res (Iterates T A) (Iterates T' B) := by
  intro Λ w v hw r w' hiterates
  induction hiterates generalizing Λ v with
  | ended hT =>
    obtain ⟨Λ', _, v', hΛ, hw', rfl, hT'⟩ := htest hw hT
    exact ⟨Λ', _, v', hΛ, hw', hres.completed Λ', .ended hT'⟩
  | faulty hT =>
    obtain ⟨Λ', _, v', hΛ, hw', rfl, hT'⟩ := htest hw hT
    exact ⟨Λ', _, v', hΛ, hw', hres.error Λ' _, .faulty hT'⟩
  | stopped hT hA hr =>
    obtain ⟨Λ₁, _, v₁, hΛ₁, hw₁, rfl, hT'⟩ := htest hw hT
    obtain ⟨Λ', q, v', hΛ, hw', hq, hB⟩ := h hw₁ hA
    exact ⟨Λ', q, v', hΛ₁.trans hΛ, hw', hq,
      .stopped hT' hB fun hc => hr ((hres.completed_iff hq).mpr hc)⟩
  | again hT hA _ ih =>
    obtain ⟨Λ₁, _, v₁, hΛ₁, hw₁, rfl, hT'⟩ := htest hw hT
    obtain ⟨Λ₂, q₂, v₂, hΛ₂, hw₂, hq₂, hB⟩ := h hw₁ hA
    obtain rfl := (hres.completed_iff hq₂).mp rfl
    obtain ⟨Λ', q, v', hΛ, hw', hq, hrest⟩ := ih hw₂
    exact ⟨Λ', q, v', (hΛ₁.trans hΛ₂).trans hΛ, hw', hq, .again hT' hB hrest⟩

end

/-! ## Both directions -/

/-- The worlds are the same at the given place, whose frames are spare as the marks say. -/
structure ThinAt (marks : Marks) (env : Env) (Λ : Thinning) (w v : World) : Prop where
  thin : w.Thin Λ v
  env_eq : w.env = env
  marks_eq : Λ.marks env = marks

/-- What one of the actions does, where frames are spare as the marks say, the other does too. -/
structure Agrees {α β : Type} (res : Thinning → α → β → Prop) (marks : Marks) (A : Action α)
    (B : Action β) : Prop where
  forth : ∀ env, Follows (ThinAt marks env) res A B
  back : ∀ env, Follows (fun Λ v w => ThinAt marks env Λ w v) (fun Λ q r => res Λ r q) B A

namespace ThinAt

variable {marks marks' : Marks} {env env' : Env} {Λ Λ' : Thinning} {w w' v v' : World}

/-- Later worlds at the same place. -/
theorem later (h : ThinAt marks env Λ w v) (hΛ : Λ.Extends Λ') (h' : w'.Thin Λ' v')
    (henv : w'.env = w.env) : ThinAt marks env Λ' w' v' := by
  have hknown := h.thin.known
  rw [h.env_eq] at hknown henv
  exact ⟨h', henv, (hknown.marks_eq hΛ).trans h.marks_eq⟩

theorem enter (h : ThinAt marks env Λ w v) :
    ThinAt (marks.push false) (w.enter w.env).env (Λ.push false w.env) (w.enter w.env)
      (v.enter v.env) where
  thin := by
    rw [h.thin.env]
    exact h.thin.enter h.thin.known
  env_eq := rfl
  marks_eq := by rw [h.thin.marks_enter h.thin.known, h.env_eq, h.marks_eq]

theorem leave (h : ThinAt marks env Λ w v) (hΛ : Λ.Extends Λ') (h' : ThinAt marks' env' Λ' w' v') :
    ThinAt marks env Λ' (w'.leave w.env) (v'.leave v.env) := by
  refine h.later hΛ ?_ rfl
  rw [h.thin.env, ← h.thin.known.thin_eq hΛ]
  exact h'.thin.leave (h.thin.known.mono hΛ)

theorem enterSpare (h : ThinAt marks env Λ w v) :
    ThinAt (marks.push true) (w.enter w.env).env (Λ.push true w.env) (w.enter w.env) v where
  thin := h.thin.enterSpare
  env_eq := rfl
  marks_eq := by rw [h.thin.marks_enter h.thin.known, h.env_eq, h.marks_eq]

/-- Without its spare frame the place is the one around it. -/
theorem leaveSpare (h : ThinAt marks env Λ w v) (hΛ : (Λ.push true w.env).Extends Λ')
    (h' : ThinAt (marks.push true) (w.enter w.env).env Λ' w' v') :
    ThinAt marks env Λ' (w'.leave w.env) v' := by
  have hout := (Λ.extends_push true w.env).trans hΛ
  refine h.later hout { h'.thin with env := ?_, known := h.thin.known.mono hout } rfl
  have hentered := h.thin.enterSpare
  calc v'.env
      = Λ'.thin (w.enter w.env).env := by rw [h'.thin.env, h'.env_eq]
    _ = v.env := by rw [hentered.known.thin_eq hΛ, ← hentered.env]
    _ = Λ'.thin w.env := by rw [h.thin.env, ← h.thin.known.thin_eq hout]

end ThinAt

theorem comparable_thin : Comparable ResultThin where
  completed _ := .ok .completed
  error _ _ := .error rfl
  completed_iff h := by
    cases h with
    | ok h => cases h <;> simp
    | error e => simp

theorem comparable_flip : Comparable fun Λ q r => ResultThin Λ r q where
  completed _ := .ok .completed
  error _ _ := .error rfl
  completed_iff h := (comparable_thin.completed_iff h).symm

namespace Agrees

variable {marks : Marks} {A A' B B' : Action (Except RuntimeError Flow)}
  {T T' : Action (Except RuntimeError Bool)}

theorem andThen (h : Agrees ResultThin marks A B) (h' : Agrees ResultThin marks A' B') :
    Agrees ResultThin marks (Then A A') (Then B B') where
  forth env := (h.forth env).andThen comparable_thin (h'.forth env)
  back env := (h.back env).andThen comparable_flip (h'.back env)

theorem done : Agrees ResultThin marks Done Done where
  forth env := by
    rintro Λ w v hw r w' ⟨⟩
    exact ⟨Λ, _, v, .refl Λ, hw, .ok .completed, .intro v⟩
  back env := by
    rintro Λ v w hw r v' ⟨⟩
    exact ⟨Λ, _, w, .refl Λ, hw, .ok .completed, .intro w⟩

theorem passes : Agrees (fun _ b b' => b = b') marks Passes Passes where
  forth env := by
    rintro Λ w v hw r w' ⟨⟩
    exact ⟨Λ, _, v, .refl Λ, hw, rfl, .intro v⟩
  back env := by
    rintro Λ v w hw r v' ⟨⟩
    exact ⟨Λ, _, w, .refl Λ, hw, rfl, .intro w⟩

theorem iterates (htest : Agrees (fun _ b b' => b = b') marks T T')
    (h : Agrees ResultThin marks A B) :
    Agrees ResultThin marks (Iterates T A) (Iterates T' B) where
  forth env := (htest.forth env).iterates comparable_thin (h.forth env)
  back env := by
    have hback := htest.back env
    simp only [eq_comm] at hback
    exact hback.iterates comparable_flip (h.back env)

/-- Both open a scope. -/
theorem inScope (h : Agrees ResultThin (marks.push false) A B) :
    Agrees ResultThin marks (InScope A) (InScope B) where
  forth env := by
    rintro Λ w v hw r _ ⟨hA⟩
    obtain ⟨Λ', q, v', hΛ, hw', hq, hB⟩ := h.forth _ hw.enter hA
    have hout := (Λ.extends_push false w.env).trans hΛ
    exact ⟨Λ', q, _, hout, hw.leave hout hw', hq, .intro hB⟩
  back env := by
    rintro Λ v w hw q _ ⟨hB⟩
    obtain ⟨Λ', r, w', hΛ, hw', hr, hA⟩ := h.back _ hw.enter hB
    have hout := (Λ.extends_push false w.env).trans hΛ
    exact ⟨Λ', r, _, hout, hw.leave hout hw', hr, .intro hA⟩

/-- Only the first one opens a scope, in which nothing is bound. -/
theorem inSpareScope (h : Agrees ResultThin (marks.push true) A B) :
    Agrees ResultThin marks (InScope A) B where
  forth env := by
    rintro Λ w v hw r _ ⟨hA⟩
    obtain ⟨Λ', q, v', hΛ, hw', hq, hB⟩ := h.forth _ hw.enterSpare hA
    exact ⟨Λ', q, v', (Λ.extends_push true w.env).trans hΛ, hw.leaveSpare hΛ hw', hq, hB⟩
  back env := by
    intro Λ v w hw q v' hB
    obtain ⟨Λ', r, w', hΛ, hw', hr, hA⟩ := h.back _ hw.enterSpare hB
    exact ⟨Λ', r, _, (Λ.extends_push true w.env).trans hΛ, hw.leaveSpare hΛ hw', hr, .intro hA⟩

end Agrees

/-! ## Parts of programs -/

section

variable {marks : Marks} {focus focus' : Focus}

/-- Runs of the same agree. -/
theorem agrees_ends (hn : ∀ n ∈ natives, n.Discreet)
    (h : ∀ Λ : Thinning, focus.Thin Λ marks focus') :
    Agrees ResultThin marks (fun w => Ends natives ⟨focus, [], w⟩)
      (fun w => Ends natives ⟨focus', [], w⟩) := by
  have hrun {env : Env} {Λ : Thinning} {w v : World} (hw : ThinAt marks env Λ w v) (fuel : Nat) :
      thinning.EndedLike thinning.FlowLike Λ (run natives fuel ⟨focus, [], w⟩)
        (run natives fuel ⟨focus', [], v⟩) := by
    refine run_thin hn fuel ⟨?_, .nil w.env, hw.thin⟩
    show focus.Thin Λ (Λ.marks w.env) focus'
    rw [hw.env_eq, hw.marks_eq]
    exact h Λ
  refine ⟨fun env => ?_, fun env => ?_⟩
  · rintro Λ w v hw r w' ⟨fuel, hends⟩
    have hended := hrun hw fuel
    have hplace := run_place fuel hends
    rw [hends] at hended
    generalize hv : run natives fuel ⟨focus', [], v⟩ = ended at hended
    cases hended with
    | some hΛ hresult hthin =>
      exact ⟨_, _, _, hΛ, hw.later hΛ hthin (congrArg Prod.fst hplace), hresult, fuel, hv⟩
  · rintro Λ v w hw q v' ⟨fuel, hends⟩
    have hended := hrun hw fuel
    rw [hends] at hended
    generalize hw' : run natives fuel ⟨focus, [], w⟩ = ended at hended
    cases hended with
    | some hΛ hresult hthin =>
      have hplace := run_place fuel hw'
      exact ⟨_, _, _, hΛ, hw.later hΛ hthin (congrArg Prod.fst hplace), hresult, fuel, hw'⟩

theorem agrees_executesTo (hn : ∀ n ∈ natives, n.Discreet) {s s' : Stmt} (h : s.Thin marks s') :
    Agrees ResultThin marks (ExecutesTo natives s) (ExecutesTo natives s') :=
  agrees_ends hn fun _ => .exec h

/-- What is made of results that are alike is alike. -/
theorem Agrees.map {α β α' β' : Type} {res : Thinning → α → β → Prop}
    {res' : Thinning → α' → β' → Prop} {A : Action α} {B : Action β} {f : α → α'} {g : β → β'}
    (h : Agrees res marks A B) (hfg : ∀ {Λ a b}, res Λ a b → res' Λ (f a) (g b)) :
    Agrees res' marks (fun w r w' => ∃ a, A w a w' ∧ r = f a)
      (fun v q v' => ∃ b, B v b v' ∧ q = g b) where
  forth env := by
    rintro Λ w v hw _ w' ⟨a, hA, rfl⟩
    obtain ⟨Λ', b, v', hΛ, hw', hres, hB⟩ := h.forth env hw hA
    exact ⟨Λ', g b, v', hΛ, hw', hfg hres, b, hB, rfl⟩
  back env := by
    rintro Λ v w hw _ v' ⟨b, hB, rfl⟩
    obtain ⟨Λ', a, w', hΛ, hw', hres, hA⟩ := h.back env hw hB
    exact ⟨Λ', f a, w', hΛ, hw', hfg hres, a, hA, rfl⟩

theorem ResultThin.value {Λ : Thinning} {r q : Except RuntimeError Flow} (h : ResultThin Λ r q) :
    Value.ResultMatches Λ.Closed (r.map Flow.result) (q.map Flow.result) := by
  cases h with
  | ok h => exact .ok h.result
  | error h =>
    obtain rfl := h
    exact .error _

theorem agrees_evaluatesTo (hn : ∀ n ∈ natives, n.Discreet) {e e' : Expr} (h : e.Thin marks e') :
    Agrees (fun Λ => Value.ResultMatches Λ.Closed) marks (EvaluatesTo natives e)
      (EvaluatesTo natives e') := by
  rw [evaluatesTo_eq, evaluatesTo_eq]
  exact (agrees_ends hn fun _ => .eval h ⟨.nil, .ret⟩).map ResultThin.value

theorem agrees_tests (hn : ∀ n ∈ natives, n.Discreet) {e e' : Expr} (h : e.Thin marks e') :
    Agrees (fun _ b b' => b = b') marks (Tests natives e) (Tests natives e') := by
  refine (agrees_evaluatesTo hn h).map fun hresult => ?_
  cases hresult with
  | ok hv => exact congrArg Except.ok (Value.Matches.isTruthy_eq hv).symm
  | error e => rfl

theorem agrees_performs (hn : ∀ n ∈ natives, n.Discreet) {e e' : Expr} (h : e.Thin marks e') :
    Agrees ResultThin marks (Performs natives e) (Performs natives e') := by
  refine (agrees_evaluatesTo hn h).map fun hresult => ?_
  cases hresult with
  | ok _ => exact .ok .completed
  | error e => exact .error rfl

end

end Nya.Machine
