import Nya.Proofs.Machine.Balance
import Nya.Proofs.Machine.Correspondence
import Nya.Proofs.Machine.Thinning

/-!
# Runs with and without spare frames

Two worlds are the same but for spare frames if their stores are, and the current environment of the
second one is that of the first without its spare frames. This is a correspondence of runs: a frame
that the first machine opens is opened by the second one too, and becomes its twin. So both take the
same steps and end in the same way. Spare frames come in only where two programs differ.

* `Machine.thinning`, `Machine.thinning_lawful`
* `Machine.run_thin` for runs
-/

namespace Nya

section

variable {marks : Marks}

/-- Statements in a row are related one by one. -/
theorem Stmt.ThinAll.forall₂ : ∀ {ss ss' : List Stmt}, Stmt.ThinAll marks ss ss' →
    List.Forall₂ (Stmt.Thin marks) ss ss'
  | _, _, .nil _ => .nil
  | _, _, .cons h hs => .cons h hs.forall₂

/-- What statements that are the same but for spare scopes consist of. -/
theorem Stmt.Thin.layer {s s' : Stmt} (h : s.Thin marks s') :
    Stmt.Layer (Expr.Thin marks) (Stmt.Thin marks)
      (fun name name' => name' = name ∧ marks 0 = false) (Stmt.ThinAll (marks.push false))
      (fun d d' => d.Thin marks d' ∧ marks 0 = false) s s' := by
  cases h with
  | expression h => exact .expression h
  | print h => exact .print h
  | var name hkept h => exact .var ⟨rfl, hkept⟩ h
  | block h => exact .block h
  | branch hcondition hthen => exact .branch hcondition hthen .none
  | branchElse hcondition hthen helse => exact .branch hcondition hthen (.some helse)
  | loop hcondition hbody => exact .loop hcondition hbody
  | @function _ body body' id name params hkept h =>
    exact .function ⟨id, name, params, body⟩ ⟨id, name, params, body'⟩ ⟨⟨rfl, rfl, rfl, h⟩, hkept⟩
  | ret keyword h => exact .ret keyword h

end

namespace Machine

/-- Runs with and without spare frames. Nothing is bound in a spare frame. -/
abbrev thinning : Correspondence where
  Stage := Thinning
  Later := Thinning.Extends
  Knows := Thinning.Knows
  env := Thinning.thin
  marks := Thinning.marks
  Ref := Reference.Thin
  Var marks name name' := name' = name ∧ marks 0 = false
  Code := Stmt.Thin
  Body marks := Stmt.ThinAll (marks.push false)
  Decl marks d d' := d.Thin marks d' ∧ marks 0 = false
  Closed := Thinning.Closed
  Stored := Store.Thin
  Fault := Eq

/-! ## Worlds -/

/-- The worlds are the same, with and without the spare frames. -/
abbrev World.Thin (Λ : Thinning) (w w' : World) : Prop := thinning.WorldLike Λ w w'

namespace World.Thin

variable {Λ : Thinning} {w w' : World}

theorem store (h : w.Thin Λ w') : w.store.Thin Λ w'.store := Correspondence.WorldLike.store h

theorem env (h : w.Thin Λ w') : w'.env = Λ.thin w.env := Correspondence.WorldLike.env h

theorem known (h : w.Thin Λ w') : Λ.Knows w.env := Correspondence.WorldLike.known h

/-- A reference has the same value. -/
theorem read? (h : w.Thin Λ w') {r r' : Reference} (hr : r.Thin (Λ.marks w.env) r') :
    Option.Rel (Value.Thin Λ) (w.read? r) (w'.read? r') := by
  cases hr with
  | global id name => exact h.store.lookup?_globals name.lexeme
  | @depth depth id name hkept =>
    show Option.Rel _ (w.store.read? (w.env.ancestor depth) _)
      (w'.store.read? (w'.env.ancestor _) _)
    rw [h.env, Λ.thin_ancestor]
    rw [← Λ.marks_ancestor] at hkept
    exact h.store.read? (h.known.ancestor depth) hkept name.lexeme

/-- An assignment changes a frame and its twin. -/
theorem overwrite (h : w.Thin Λ w') {holder : Env} (hknown : Λ.Knows holder)
    (hkept : Λ.marks holder 0 = false) (name : String) {v v' : Value} (hv : v.Thin Λ v') :
    (w.overwrite holder name v).Thin Λ (w'.overwrite (Λ.thin holder) name v') :=
  { h with store := h.store.define hknown hkept name hv }

/-- A reference is held by a frame and its twin. -/
theorem holder? (h : w.Thin Λ w') {r r' : Reference} (hr : r.Thin (Λ.marks w.env) r')
    {v v' : Value} (hv : v.Thin Λ v') :
    Option.Rel (fun holder holder' => (w.overwrite holder r.name.lexeme v).Thin Λ
      (w'.overwrite holder' r'.name.lexeme v')) (w.holder? r) (w'.holder? r') := by
  cases hr with
  | global id name =>
    have hkept : Λ.marks globals 0 = false := by rw [Λ.marks_globals]; rfl
    have hbinds := h.store.binds_eq .globals hkept name.lexeme
    have hwrite := h.overwrite .globals hkept name.lexeme hv
    rw [Λ.thin_globals] at hbinds hwrite
    simp only [World.holder?, globals, Store.holder?, Env.frame] at hbinds ⊢
    rw [hbinds]
    split
    · exact .some hwrite
    · exact .none
  | @depth depth id name hkept =>
    rw [← Λ.marks_ancestor] at hkept
    have hknown := h.known.ancestor depth
    have hbinds := h.store.binds_eq hknown hkept name.lexeme
    simp only [World.holder?, Store.holderAt?, h.env, Λ.thin_ancestor, hbinds]
    split
    · exact .some (h.overwrite hknown hkept name.lexeme hv)
    · exact .none

/-- A variable is defined in a frame that is not spare, and in its twin. -/
theorem define (h : w.Thin Λ w') (hkept : Λ.marks w.env 0 = false) (name : String) {v v' : Value}
    (hv : v.Thin Λ v') : (w.define name v).Thin Λ (w'.define name v') := by
  refine { h with store := ?_ }
  show Store.Thin Λ _ (w'.store.define w'.env name v')
  rw [h.env]
  exact h.store.define h.known hkept name hv

theorem declare (h : w.Thin Λ w') (hkept : Λ.marks w.env 0 = false) {d d' : Declaration}
    (hd : d.Thin (Λ.marks w.env) d') : (w.declare d).Thin Λ (w'.declare d') := by
  refine { h with store := ?_ }
  show Store.Thin Λ _ (w'.store.declare w'.env d')
  rw [h.env]
  exact h.store.declare h.known hkept hd

/-- Going back to an environment is going back to it without its spare frames. -/
theorem leave (h : w.Thin Λ w') {env : Env} (henv : Λ.Knows env) :
    (w.leave env).Thin Λ (w'.leave (Λ.thin env)) :=
  { h with env := rfl, known := henv }

/-- Both enter a scope, and the new frames are twins. -/
theorem enter (h : w.Thin Λ w') {outer : Env} (houter : Λ.Knows outer) :
    (w.enter outer).Thin (Λ.push false outer) (w'.enter (Λ.thin outer)) where
  store := h.store.push false outer
  env := by
    show Env.child w'.store.next _ = (Λ.push false outer).thin (.child w.store.next outer)
    rw [h.store.next, h.store.next', houter.thin_push]
    rfl
  known := by
    show (Λ.push false outer).Knows (.child w.store.next outer)
    rw [h.store.next]
    exact houter.push
  calls := h.calls
  console := h.console

/-- The first one enters a scope, and the new frame is spare. -/
theorem enterSpare (h : w.Thin Λ w') : (w.enter w.env).Thin (Λ.push true w.env) w' where
  store := h.store.push true w.env
  env := by
    show w'.env = (Λ.push true w.env).thin (.child w.store.next w.env)
    rw [h.store.next, h.known.thin_push, h.env]
    rfl
  known := by
    show (Λ.push true w.env).Knows (.child w.store.next w.env)
    rw [h.store.next]
    exact h.known.push
  calls := h.calls
  console := h.console

/-- The scope that was entered is marked if its frame is spare. -/
theorem marks_enter (h : w.Thin Λ w') {outer : Env} (houter : Λ.Knows outer) (spare : Bool) :
    (Λ.push spare outer).marks (w.enter outer).env = (Λ.marks outer).push spare := by
  show (Λ.push spare outer).marks (.child w.store.next outer) = _
  rw [h.store.next]
  exact houter.marks_push

/-- Parameters are bound in a frame that is not spare, to arguments that match. -/
theorem bindParams : ∀ (params : List Token) {args args' : List Value} {w w' : World},
    w.Thin Λ w' → Λ.marks w.env 0 = false → List.Forall₂ (Value.Thin Λ) args args' →
    (w.bindParams params args).Thin Λ (w'.bindParams params args')
  | [], _, _, _, _, h, _, _ => h
  | _ :: _, [], _, _, _, h, _, .nil => h
  | param :: params, _ :: _, _, _, _, h, hkept, .cons hv hargs =>
    bindParams params (h.define hkept param.lexeme hv) hkept hargs

/-- A block is entered in twins. -/
theorem enterBlock (h : w.Thin Λ w') {body body' : List Stmt}
    (hbody : Stmt.ThinAll ((Λ.marks w.env).push false) body body') :
    ∃ Λ', Λ.Extends Λ' ∧ (w.enter w.env).Thin Λ' (w'.enter w'.env) ∧
      List.Forall₂ (Stmt.Thin (Λ'.marks (w.enter w.env).env)) body body' := by
  refine ⟨Λ.push false w.env, Λ.extends_push false w.env, ?_, ?_⟩
  · rw [h.env]
    exact h.enter h.known
  · rw [h.marks_enter h.known]
    exact hbody.forall₂

/-- So is the body of a function. -/
theorem enterCall (h : w.Thin Λ w') {d d' : Declaration} {env env' : Env}
    (hd : Λ.Closed d env d' env') {args args' : List Value}
    (hargs : List.Forall₂ (Value.Thin Λ) args args') :
    ∃ Λ', Λ.Extends Λ' ∧ ((w.enter env).bindParams d.params args).Thin Λ'
        ((w'.enter env').bindParams d'.params args') ∧
      List.Forall₂ (Stmt.Thin (Λ'.marks ((w.enter env).bindParams d.params args).env)) d.body
        d'.body := by
  obtain ⟨hknown, -, rfl, hcode⟩ := hd
  have hΛ := Λ.extends_push false env
  have hmarks := h.marks_enter hknown false
  refine ⟨Λ.push false env, hΛ, ?_, ?_⟩
  · rw [hcode.params]
    exact World.Thin.bindParams d.params (h.enter hknown) (by rw [hmarks]; rfl)
      (hargs.imp fun _ _ hv => hv.mono hΛ)
  · rw [World.bindParams_env, hmarks]
    exact hcode.body.forall₂

end World.Thin

/-! ## Runs -/

/-- **Running with and without spare frames is lawful**: nothing the machine does tells them
apart. -/
theorem thinning_lawful : thinning.Lawful where
  later_refl := Thinning.Extends.refl
  later_trans hΛ hΛ' := Thinning.Extends.trans hΛ hΛ'
  knows_later hΛ h := Thinning.Knows.mono h hΛ
  env_later hΛ h := Thinning.Knows.thin_eq h hΛ
  marks_later hΛ h := Thinning.Knows.marks_eq h hΛ
  closed_later hΛ _ _ _ _ h := Thinning.Closed.mono h hΛ
  faithful Λ := Thinning.faithful_closed Λ
  layer h := Stmt.Thin.layer h
  fault_refl _ := rfl
  fault_undefined h := congrArg RuntimeError.undefined (Reference.Thin.name_eq h).symm
  global? h := (World.Thin.store h).lookup?_globals
  read? h hr := World.Thin.read? h hr
  holder? h hr hv := World.Thin.holder? h hr hv
  define h hname hv := by
    obtain ⟨rfl, hkept⟩ := hname
    exact World.Thin.define h hkept _ hv
  declare h hd := World.Thin.declare h hd.2 hd.1
  enter_block h hbody := World.Thin.enterBlock h hbody
  enter_call h hd hargs := World.Thin.enterCall h hd hargs

/-- The tasks are the same, each seen from its environment. -/
abbrev TasksThin (Λ : Thinning) : Env → List Task → List Task → Prop := thinning.TasksLike Λ

/-- What is to be done is the same, with and without the spare frames. -/
abbrev Focus.Thin (Λ : Thinning) (marks : Marks) (focus focus' : Focus) : Prop :=
  thinning.FocusLike Λ marks focus focus'

/-- The configurations are the same, with and without the spare frames. -/
abbrev Config.Thin (Λ : Thinning) (c c' : Config) : Prop := thinning.ConfigLike Λ c c'

/-- Both ended with the same fault, or both without one, in the same way. -/
abbrev ResultThin (Λ : Thinning) : Except RuntimeError Flow → Except RuntimeError Flow → Prop :=
  thinning.ResultLike (thinning.FlowLike Λ)

/-- **Runs with and without spare frames end in the same way.** -/
theorem run_thin {natives : Array Native} (hn : ∀ n ∈ natives, n.Discreet) (fuel : Nat)
    {Λ : Thinning} {c c' : Config} (h : c.Thin Λ c') :
    thinning.EndedLike thinning.FlowLike Λ (run natives fuel c) (run natives fuel c') :=
  thinning_lawful.run_like (fun n hmem Λ => hn n hmem _ (Thinning.faithful_closed Λ)) fuel h

/-! ## Without spare frames -/

section

variable {g : Ground} {levels : Levels}

theorem Hole.thin_plain {hole : Hole} (h : g.Fills levels hole) :
    thinning.HoleLike (.plain g.births) Marks.none hole hole := by
  cases hole with
  | assign target => exact .assign target.thin_refl
  | unary operator => exact .unary operator
  | binaryLeft operator right => exact .binaryLeft operator right.thin_refl
  | binaryRight left operator => exact .binaryRight operator (Ground.Valid.thin_plain h)
  | logical operator right => exact .logical operator right.thin_refl
  | callee arguments paren => exact .callee paren (List.forall₂_same.mpr fun e _ => e.thin_refl)
  | argument callee done rest paren =>
    obtain ⟨hcallee, hdone, -⟩ := h
    exact .argument paren hcallee.thin_plain
      (List.forall₂_same.mpr fun v hv => (hdone v hv).thin_plain)
      (List.forall₂_same.mpr fun e _ => e.thin_refl)

/-- Where no scope is spare, a purpose is its own counterpart. -/
theorem Purpose.thin_refl (purpose : Purpose) :
    thinning.PurposeLike Marks.none purpose purpose := by
  cases purpose with
  | discard => exact .discard
  | print => exact .print
  | define name => exact .define ⟨rfl, rfl⟩
  | choose thenBranch elseBranch =>
    cases elseBranch with
    | none => exact .choose thenBranch.thin_refl .none
    | some elseBranch => exact .choose thenBranch.thin_refl (.some elseBranch.thin_refl)
  | iterate condition body => exact .iterate condition.thin_refl body.thin_refl
  | ret => exact .ret

/-- What is left to do beside itself. -/
theorem TasksThin.plain {env : Env} {stack : List Task} (h : g.Stacks env levels stack) :
    TasksThin (.plain g.births) env stack stack := by
  induction h with
  | nil _ => exact .nil _
  | sequence _ _ ih => exact .sequence (Stmt.thinAll_refl _).forall₂ ih
  | again _ _ _ _ ih => exact .again (Expr.thin_refl _) (Stmt.thin_refl _) ih
  | @leave env outer levels around stack hfits _ ih =>
    have hleave : TasksThin (.plain g.births) env (.leave outer :: stack)
        (.leave (Thinning.thin _ outer) :: stack) :=
      .leave hfits.born.knows_plain ih
    rwa [Thinning.plain_thin] at hleave
  | @back env outer levels around after caller stack hfits hholes _ _ ih =>
    have hcaller : thinning.ContextLike (.plain g.births) Marks.none caller caller :=
      ⟨List.forall₂_same.mpr fun hole hhole => Hole.thin_plain (hholes hole hhole),
        caller.purpose.thin_refl⟩
    have hback : TasksThin (.plain g.births) env (.back outer caller :: stack)
        (.back (Thinning.thin _ outer) caller :: stack) :=
      .back hfits.born.knows_plain hcaller ih
    rwa [Thinning.plain_thin] at hback

end

end Machine

end Nya
