import Nya.Proofs.Machine.Balance
import Nya.Proofs.Machine.Correspondence
import Nya.Proofs.Machine.Layout

/-!
# Runs that differ in the names of locals

Two worlds are alike if their stores are the same up to the names of locals, and their environment
is the same. This is a correspondence of runs: a step that opens a frame extends the layout, and the
new frame is marked if the scope it belongs to is. Which fault is raised may differ, as a fault can
mention a name.

* `Machine.swapping`, `Machine.swapping_lawful`
* `Machine.interpret_alike` for runs: they end in the same way, with the same lines written
-/

namespace Nya

mutual

/-- An expression is like itself with its references changed. -/
theorem Expr.like_mapReferences (f : Reference → Reference) : ∀ e : Expr,
    Expr.Like (fun r r' => r' = f r) e (e.mapReferences f)
  | .literal id value => .literal id value
  | .read _ => .read rfl
  | .assign _ value => .assign rfl (value.like_mapReferences f)
  | .unary id operator right => .unary id operator (right.like_mapReferences f)
  | .binary id left operator right =>
    .binary id operator (left.like_mapReferences f) (right.like_mapReferences f)
  | .logical id left operator right =>
    .logical id operator (left.like_mapReferences f) (right.like_mapReferences f)
  | .group id inner => .group id (inner.like_mapReferences f)
  | .call id callee arguments paren =>
    .call id paren (callee.like_mapReferences f) (Expr.likeAll_mapReferences f arguments)

theorem Expr.likeAll_mapReferences (f : Reference → Reference) : ∀ es : List Expr,
    List.Forall₂ (Expr.Like fun r r' => r' = f r) es (Expr.mapReferencesAll f es)
  | [] => .nil
  | e :: es => .cons (e.like_mapReferences f) (Expr.likeAll_mapReferences f es)

end

section

variable {ρ : Swap} {marks : Marks}

theorem Expr.likeOption_swapped (e : Option Expr) :
    Option.Rel (Expr.Like fun r r' => r' = r.swapped ρ marks) e (e.map (Expr.swapped ρ marks)) := by
  cases e with
  | none => exact .none
  | some e => exact .some (e.like_mapReferences _)

/-- Statements in a row are related one by one. -/
theorem Stmt.AlphaAll.forall₂ : ∀ {ss ss' : List Stmt}, Stmt.AlphaAll ρ marks ss ss' →
    List.Forall₂ (Stmt.Alpha ρ marks) ss ss'
  | _, _, .nil _ => .nil
  | _, _, .cons h hs => .cons h hs.forall₂

/-- What statements that differ in the names of locals consist of. -/
theorem Stmt.Alpha.layer {s s' : Stmt} (h : s.Alpha ρ marks s') :
    Stmt.Layer (Expr.Like fun r r' => r' = r.swapped ρ marks) (Stmt.Alpha ρ marks)
      (fun name name' => name' = name.swapped ρ (marks 0))
      (fun body body' => ∃ marked, Stmt.AlphaAll ρ (marks.push marked) body body')
      (fun d d' => d.Alpha ρ marks d' ∧ ρ.apply (marks 0) d.name.lexeme = d.name.lexeme) s s' := by
  cases h with
  | expression _ e => exact .expression (e.like_mapReferences _)
  | print _ e => exact .print (e.like_mapReferences _)
  | var _ name init => exact .var rfl (Expr.likeOption_swapped init)
  | block marked h => exact .block ⟨marked, h⟩
  | branch condition h => exact .branch (condition.like_mapReferences _) h .none
  | branchElse condition hthen helse =>
    exact .branch (condition.like_mapReferences _) hthen (.some helse)
  | loop condition h => exact .loop (condition.like_mapReferences _) h
  | @function _ name body body' id params marked hname h =>
    exact .function ⟨id, name, params, body⟩ ⟨id, name, _, body'⟩
      ⟨⟨rfl, rfl, marked, rfl, h⟩, hname⟩
  | ret _ keyword value => exact .ret keyword (Expr.likeOption_swapped value)

end

namespace Machine

/-- Runs that differ in the names of locals. The names of functions stay. -/
abbrev swapping (ρ : Swap) : Correspondence where
  Stage := Layout
  Later := Layout.Extends
  Knows := Layout.Knows
  env _ env := env
  marks := Layout.marks
  Ref marks r r' := r' = r.swapped ρ marks
  Var marks name name' := name' = name.swapped ρ (marks 0)
  Code := Stmt.Alpha ρ
  Body marks body body' := ∃ marked, Stmt.AlphaAll ρ (marks.push marked) body body'
  Decl marks d d' := d.Alpha ρ marks d' ∧ ρ.apply (marks 0) d.name.lexeme = d.name.lexeme
  Closed Λ := Λ.Closed ρ
  Stored := Store.Alike ρ
  Fault _ _ := True

/-! ## Worlds -/

/-- The worlds are the same up to the names of locals. -/
abbrev World.Alike (ρ : Swap) (Λ : Layout) (w w' : World) : Prop := (swapping ρ).WorldLike Λ w w'

namespace World.Alike

variable {ρ : Swap} {Λ : Layout} {w w' : World}

theorem store (h : w.Alike ρ Λ w') : w.store.Alike ρ Λ w'.store := Correspondence.WorldLike.store h

theorem env (h : w.Alike ρ Λ w') : w'.env = w.env := Correspondence.WorldLike.env h

theorem known (h : w.Alike ρ Λ w') : Λ.Knows w.env := Correspondence.WorldLike.known h

/-- References are read alike. -/
theorem read? (h : w.Alike ρ Λ w') (r : Reference) :
    Option.Rel (Value.Alike ρ Λ) (w.read? r) (w'.read? (r.swapped ρ (Λ.marks w.env))) := by
  obtain ⟨id, name, depth⟩ := r
  cases depth with
  | some depth =>
    show Option.Rel _ (w.store.readAt? w.env depth _) (w'.store.readAt? w'.env depth _)
    rw [h.env]
    exact h.store.read? (h.known.ancestor depth) name.lexeme
  | none => exact h.store.lookup?_globals name.lexeme

/-- An assignment is to the name that stands for the other in the frame it changes. -/
theorem overwrite (h : w.Alike ρ Λ w') {holder : Env} (hholder : Λ.Knows holder) (name : String)
    {v v' : Value} (hv : v.Alike ρ Λ v') :
    (w.overwrite holder name v).Alike ρ Λ
      (w'.overwrite holder (ρ.apply (Λ.mark holder.frame) name) v') :=
  { h with store := h.store.define hholder name hv }

/-- References are held by the same frame. -/
theorem holder? (h : w.Alike ρ Λ w') (r : Reference) {v v' : Value} (hv : v.Alike ρ Λ v') :
    Option.Rel (fun holder holder' => (w.overwrite holder r.name.lexeme v).Alike ρ Λ
        (w'.overwrite holder' (r.swapped ρ (Λ.marks w.env)).name.lexeme v'))
      (w.holder? r) (w'.holder? (r.swapped ρ (Λ.marks w.env))) := by
  obtain ⟨id, name, depth⟩ := r
  cases depth with
  | some depth =>
    show Option.Rel _ (w.store.holderAt? name.lexeme depth w.env) (w'.store.holderAt?
      (ρ.apply (Λ.mark (w.env.ancestor depth).frame) name.lexeme) depth w'.env)
    rw [h.env, Store.holderAt?, Store.holderAt?, h.store.binds_eq]
    split
    · exact .some (h.overwrite (h.known.ancestor depth) name.lexeme hv)
    · exact .none
  | none =>
    have hbinds := h.store.binds_eq 0 name.lexeme
    have hwrite := h.overwrite Λ.knows_globals name.lexeme hv
    rw [show Λ.mark globals.frame = false from Λ.mark_zero] at hwrite
    rw [Λ.mark_zero, Swap.apply_false] at hbinds
    show Option.Rel _ (w.store.holder? name.lexeme globals) (w'.store.holder? name.lexeme globals)
    simp only [globals, Store.holder?, hbinds]
    split
    · exact .some hwrite
    · exact .none

theorem define (h : w.Alike ρ Λ w') (name : String) {v v' : Value} (hv : v.Alike ρ Λ v') :
    (w.define name v).Alike ρ Λ (w'.define (ρ.apply (Λ.mark w.env.frame) name) v') := by
  refine { h with store := ?_ }
  show Store.Alike ρ Λ _ (w'.store.define w'.env _ v')
  rw [h.env]
  exact h.store.define h.known name hv

/-- A function is declared under its own name, which no renaming touches. -/
theorem declare (h : w.Alike ρ Λ w') {d d' : Declaration} (hd : d.Alpha ρ (Λ.marks w.env) d')
    (hname : ρ.apply (Λ.marks w.env 0) d.name.lexeme = d.name.lexeme) :
    (w.declare d).Alike ρ Λ (w'.declare d') := by
  refine { h with store := ?_ }
  show Store.Alike ρ Λ _ (w'.store.declare w'.env d')
  rw [h.env]
  rw [Λ.marks_zero] at hname
  exact h.store.declare ⟨rfl, h.known, hd⟩ hname

/-- Entering a scope opens the same frame, with the mark of the scope. -/
theorem enter (h : w.Alike ρ Λ w') {outer : Env} (houter : Λ.Knows outer) (marked : Bool) :
    (w.enter outer).Alike ρ (Λ.push marked outer) (w'.enter outer) where
  store := h.store.push marked outer
  env := by
    show Env.child w'.store.next outer = .child w.store.next outer
    rw [h.store.next, h.store.next']
  known := by
    show (Λ.push marked outer).Knows (.child w.store.next outer)
    rw [h.store.next]
    exact houter.push
  calls := h.calls
  console := h.console

/-- The scope that was entered has its own mark, before those of the scopes around it. -/
theorem marks_enter (h : w.Alike ρ Λ w') {outer : Env} (houter : Λ.Knows outer) (marked : Bool) :
    (Λ.push marked outer).marks (w.enter outer).env = (Λ.marks outer).push marked := by
  show (Λ.push marked outer).marks (.child w.store.next outer) = _
  rw [h.store.next]
  exact houter.marks_push

theorem mark_enter (h : w.Alike ρ Λ w') {outer : Env} (houter : Λ.Knows outer) (marked : Bool) :
    (Λ.push marked outer).mark (w.enter outer).env.frame = marked := by
  rw [← Layout.marks_zero, h.marks_enter houter]
  rfl

/-- Parameters are bound under their names in the new frame. -/
theorem bindParams : ∀ (params : List Token) {args args' : List Value} {w w' : World},
    w.Alike ρ Λ w' → List.Forall₂ (Value.Alike ρ Λ) args args' →
    (w.bindParams params args).Alike ρ Λ
      (w'.bindParams (params.map (Token.swapped ρ (Λ.mark w.env.frame))) args')
  | [], _, _, _, _, h, _ => h
  | _ :: _, [], _, _, _, h, .nil => h
  | param :: params, _ :: _, _, _, _, h, .cons hv hargs => by
    have hdefine := h.define param.lexeme hv
    exact hdefine.bindParams params hargs

/-- A block is entered alike, marked or not. -/
theorem enterBlock (h : w.Alike ρ Λ w') {body body' : List Stmt} {marked : Bool}
    (hbody : Stmt.AlphaAll ρ ((Λ.marks w.env).push marked) body body') :
    ∃ Λ', Λ.Extends Λ' ∧ (w.enter w.env).Alike ρ Λ' (w'.enter w'.env) ∧
      List.Forall₂ (Stmt.Alpha ρ (Λ'.marks (w.enter w.env).env)) body body' := by
  refine ⟨Λ.push marked w.env, Λ.extends_push marked w.env, ?_, ?_⟩
  · rw [h.env]
    exact h.enter h.known marked
  · rw [h.marks_enter h.known]
    exact hbody.forall₂

/-- So is the body of a function. -/
theorem enterCall (h : w.Alike ρ Λ w') {d d' : Declaration} {env env' : Env}
    (hd : Λ.Closed ρ d env d' env') {args args' : List Value}
    (hargs : List.Forall₂ (Value.Alike ρ Λ) args args') :
    ∃ Λ', Λ.Extends Λ' ∧ ((w.enter env).bindParams d.params args).Alike ρ Λ'
        ((w'.enter env').bindParams d'.params args') ∧
      List.Forall₂ (Stmt.Alpha ρ (Λ'.marks ((w.enter env).bindParams d.params args).env)) d.body
        d'.body := by
  obtain ⟨rfl, hknown, hd⟩ := hd
  obtain ⟨marked, hparams, hbody⟩ := hd.inner
  have hΛ := Λ.extends_push marked env'
  have hbind := (h.enter hknown marked).bindParams d.params
    (hargs.imp fun _ _ hv => hv.mono hΛ)
  rw [h.mark_enter hknown, ← hparams] at hbind
  refine ⟨Λ.push marked env', hΛ, hbind, ?_⟩
  rw [World.bindParams_env, h.marks_enter hknown]
  exact hbody.forall₂

end World.Alike

/-! ## Runs -/

/-- **Running under other names of locals is lawful**: nothing the machine does depends on them. -/
theorem swapping_lawful (ρ : Swap) : (swapping ρ).Lawful where
  later_refl := Layout.Extends.refl
  later_trans hΛ hΛ' := Layout.Extends.trans hΛ hΛ'
  knows_later hΛ h := Layout.Knows.mono h hΛ
  env_later _ _ := rfl
  marks_later hΛ h := Layout.Knows.marks_eq h hΛ
  closed_later hΛ _ _ _ _ h := Layout.Closed.mono h hΛ
  faithful Λ := Layout.faithful_closed Λ ρ
  layer h := Stmt.Alpha.layer h
  fault_refl _ := trivial
  fault_undefined _ := trivial
  global? h := (World.Alike.store h).lookup?_globals
  read? h hr := by
    obtain rfl := hr
    exact World.Alike.read? h _
  holder? h hr hv := by
    obtain rfl := hr
    exact World.Alike.holder? h _ hv
  define {Λ w w' name name' v v'} h hname hv := by
    obtain rfl := hname
    have hdefine := World.Alike.define h name.lexeme hv
    rwa [← Layout.marks_zero] at hdefine
  declare h hd := World.Alike.declare h hd.1 hd.2
  enter_block h hbody := World.Alike.enterBlock h hbody.choose_spec
  enter_call h hd hargs := World.Alike.enterCall h hd hargs

section

variable {ρ : Swap} {natives : Array Native} (hn : ∀ n ∈ natives, n.Blind)
include hn

/-- Statements run alike among the globals. -/
theorem execute_alike (fuel : Nat) {Λ : Layout} {s s' : Stmt} {w w' : World}
    (h : s.Alpha ρ Marks.none s') (hw : w.Alike ρ Λ w') (henv : w.env = globals) :
    (swapping ρ).EndedLike (swapping ρ).FlowLike Λ (execute natives fuel s w)
      (execute natives fuel s' w') := by
  have hrespects : ∀ n ∈ natives, ∀ Λ : Layout, n.Respects (Λ.Closed ρ) := fun n hmem Λ =>
    hn n hmem _ (Λ.faithful_closed ρ) fun _ _ _ _ hd => hd.env_eq
  refine (swapping_lawful ρ).run_like hrespects fuel ⟨.exec ?_, .nil _, hw⟩
  show s.Alpha ρ (Λ.marks w.env) s'
  rwa [henv, Λ.marks_globals]

/-- **Programs that differ in the names of locals end alike**, and write the same lines. -/
theorem interpret_alike (fuel : Nat) : ∀ {Λ : Layout} {ss ss' : List Stmt} {w w' : World},
    Stmt.AlphaAll ρ Marks.none ss ss' → w.Alike ρ Λ w' → w.env = globals →
    (swapping ρ).EndedLike (fun _ _ _ => True) Λ (interpret natives fuel ss w)
      (interpret natives fuel ss' w')
  | Λ, _, _, _, _, .nil _, hw, _ => .some (.refl Λ) (.ok trivial) hw
  | Λ, s :: ss, s' :: ss', w, w', .cons h hss, hw, henv => by
    have hexec := execute_alike hn fuel h hw henv
    -- between two statements the machine is back among the globals, where no scope is marked
    have hplace : ∀ result v, execute natives fuel s w = some (result, v) → v.env = globals := by
      intro result v hrun
      exact (congrArg Prod.fst (run_place fuel hrun)).trans henv
    rw [interpret_cons, interpret_cons]
    generalize execute natives fuel s w = r at hexec hplace ⊢
    generalize execute natives fuel s' w' = r' at hexec ⊢
    cases hexec with
    | none => exact .none
    | some hΛ hresult hv =>
      cases hresult with
      | ok _ =>
        exact (swapping_lawful ρ).ended_later hΛ (interpret_alike fuel hss hv (hplace _ _ rfl))
      | error h => exact .some hΛ (.error h) hv

end

end Machine

end Nya
