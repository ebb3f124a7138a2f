import Nya.Proofs.Env.Forest

/-!
# Functions kept as values

A frame keeps a function that is declared in it as the declaration alone; the function value is made
anew by each read, closed over the chain at whose start the declaration is found. Here the other way
is set beside it: to make the value once, when the function is declared, closed over the chain of
the declaring scope.

As long as no two chains in use start with the same frame, both ways give the same values. Which
chains are in use is a parameter.

* `Store.Early` for stores that differ in this alone, with a lemma for each operation
* `Forest.run_early`: operations on scopes have the same answers
-/

namespace Nya

/-- Binds the name of a declaration to the function value closed over the chain. -/
def Store.declareEarly (s : Store) (env : Env) (d : Declaration) : Store :=
  s.define env d.name.lexeme (.closure d env)

/-- The binding of a frame, and what it is if functions are kept as values. -/
inductive Binding.Early (known : Env → Prop) (f : FrameId) : Binding → Binding → Prop
  | value (v : Value) : Early known f (.value v) (.value v)
  | function {env : Env} (d : Declaration) (hframe : env.frame = f) (hknown : known env) :
    Early known f (.function d) (.value (.closure d env))

/-- The second store is the first one with functions kept as values. -/
structure Store.Early (known : Env → Prop) (s s' : Store) : Prop where
  next : s'.next = s.next
  get? : ∀ f name,
    Option.Rel (Binding.Early known f) ((s.frame f).get? name) ((s'.frame f).get? name)

namespace Store.Early

variable {known known' : Env → Prop} {s s' : Store} {env : Env} {name : String}

theorem refl_empty (known : Env → Prop) : Store.Early known {} {} where
  next := rfl
  get? _ _ := by simp [frame, Frame.get?]

theorem mono (h : s.Early known s') (hknown : ∀ env, known env → known' env) :
    s.Early known' s' where
  next := h.next
  get? f name := optionRel_imp (h.get? f name) fun b b' hb => by
    cases hb with
    | value v => exact .value v
    | function d hframe hd => exact .function d hframe (hknown _ hd)

theorem push (h : s.Early known s') : s.push.Early known s'.push where
  next := by rw [next_push, next_push, h.next]
  get? f name := by
    rw [frame_push, frame_push]
    exact h.get? f name

theorem bind (h : s.Early known s') (f : FrameId) (name : String) {b b' : Binding}
    (hb : b.Early known f b') : (s.bind f name b).Early known (s'.bind f name b') where
  next := by rw [next_bind, next_bind, h.next]
  get? g other := by
    by_cases hf : f < s.next
    · rw [get?_frame_bind hf, get?_frame_bind (h.next ▸ hf)]
      split
      · next hc =>
        rw [hc.1]
        exact .some hb
      · exact h.get? g other
    · have hle := Nat.le_of_not_lt hf
      rw [frame_bind_of_le hle, frame_bind_of_le (h.next ▸ hle)]
      exact h.get? g other

theorem define (h : s.Early known s') (env : Env) (name : String) (v : Value) :
    (s.define env name v).Early known (s'.define env name v) :=
  h.bind env.frame name (.value v)

theorem declare (h : s.Early known s') (henv : known env) (d : Declaration) :
    (s.declare env d).Early known (s'.declareEarly env d) :=
  h.bind env.frame d.name.lexeme (.function d rfl henv)

theorem binds_eq (h : s.Early known s') (f : FrameId) (name : String) :
    s'.binds f name = s.binds f name :=
  optionRel_isSome (h.get? f name)

theorem holder?_eq (h : s.Early known s') (env : Env) (name : String) :
    s'.holder? name env = s.holder? name env := by
  induction env with
  | root f => rw [holder?, holder?, h.binds_eq]
  | child f outer ih => rw [holder?, holder?, h.binds_eq, ih]

theorem holderAt?_eq (h : s.Early known s') (env : Env) (distance : Nat) (name : String) :
    s'.holderAt? name distance env = s.holderAt? name distance env := by
  rw [holderAt?, holderAt?, h.binds_eq]

theorem define_holder (h : s.Early known s') (found : Option Env) (name : String) (v : Value) :
    Option.Rel (Store.Early known) (found.map fun holder => s.define holder name v)
      (found.map fun holder => s'.define holder name v) := by
  cases found with
  | none => exact .none
  | some holder => exact .some (h.define holder name v)

variable (hapart : Env.Apart known)
include hapart

/-- What is read from a frame is the same value: its chain is the one of the declaration. -/
theorem read?_eq (h : s.Early known s') (henv : known env) (name : String) :
    s'.read? env name = s.read? env name := by
  have hget := h.get? env.frame name
  unfold Store.read?
  generalize (s.frame env.frame).get? name = b at hget ⊢
  generalize (s'.frame env.frame).get? name = b' at hget ⊢
  cases hget with
  | none => rfl
  | some hb =>
    cases hb with
    | value v => rfl
    | function d hframe hd => rw [hapart hd henv hframe]; rfl

theorem lookup?_eq (h : s.Early known s')
    (hholder : ∀ holder, s.Holds name env holder → known holder) :
    s'.lookup? env name = s.lookup? env name := by
  unfold Store.lookup?
  rw [h.holder?_eq]
  cases hfound : s.holder? name env with
  | none => rfl
  | some holder => exact h.read?_eq hapart (hholder holder (holder?_eq_some_iff.mp hfound)) name

end Store.Early

/-! ## Forests -/

namespace Forest

variable {F G : Forest} {op : ScopeOp}

theorem Grown.apart (h : F.Grown) : Env.Apart (· ∈ F.scopes) :=
  fun henv henv' => h.eq_of_frame _ henv _ henv'

/-- The second forest is the first one with functions kept as values. -/
structure Early (F G : Forest) : Prop where
  store : F.store.Early (· ∈ F.scopes) G.store
  scopes : G.scopes = F.scopes
  reads : G.reads = F.reads

theorem Early.value?_eq (h : F.Early G) (operand : Operand) :
    G.value? operand = F.value? operand := by
  cases operand with
  | given v => rfl
  | earlier read => rw [value?, value?, h.reads]

theorem Early.grow (h : F.Early G) (env : Env) : (F.grow env).Early (G.grow env) where
  store := h.store.push.mono fun _ he => List.mem_append_left _ he
  scopes := congrArg (· ++ [env]) h.scopes
  reads := h.reads

theorem Early.update (h : F.Early G) {found found' : Option Store}
    (hfound : Option.Rel (Store.Early (· ∈ F.scopes)) found found') :
    (G.update found').1 = (F.update found).1 ∧ (F.update found).2.Early (G.update found').2 := by
  cases hfound with
  | none => exact ⟨rfl, h⟩
  | some hstore => exact ⟨rfl, hstore, h.scopes, h.reads⟩

theorem Early.write (h : F.Early G) (scope : Nat) (operand : Operand)
    {f g : Env → Value → Option Store}
    (hfg : ∀ env v, Option.Rel (Store.Early (· ∈ F.scopes)) (f env v) (g env v)) :
    (G.write scope operand g).1 = (F.write scope operand f).1 ∧
      (F.write scope operand f).2.Early (G.write scope operand g).2 := by
  refine h.update ?_
  rw [h.scopes, h.value?_eq]
  cases F.scopes[scope]? with
  | none => exact .none
  | some env =>
    cases F.value? operand with
    | none => exact .none
    | some v => exact hfg env v

theorem Early.read (h : F.Early G) (scope : Nat) {f g : Env → Option Value}
    (hfg : ∀ env ∈ F.scopes, g env = f env) :
    (G.read scope g).1 = (F.read scope f).1 ∧ (F.read scope f).2.Early (G.read scope g).2 := by
  have hfound : G.scopes[scope]?.bind g = F.scopes[scope]?.bind f := by
    rw [h.scopes]
    cases henv : F.scopes[scope]? with
    | none => rfl
    | some env => exact hfg env (List.mem_of_getElem? henv)
  unfold Forest.read
  rw [hfound]
  cases F.scopes[scope]?.bind f with
  | none => exact ⟨rfl, h⟩
  | some v => exact ⟨rfl, h.store, h.scopes, congrArg (· ++ [v]) h.reads⟩

/-- **An operation has the same answer both ways.** -/
theorem Early.step (h : F.Early G) (hgrown : F.Grown) (op : ScopeOp) :
    (G.step Store.declareEarly op).1 = (F.step Store.declare op).1 ∧
      (F.step Store.declare op).2.Early (G.step Store.declareEarly op).2 := by
  cases op with
  | new =>
    refine ⟨rfl, ?_⟩
    show (F.grow (.root F.store.next)).Early (G.grow (.root G.store.next))
    rw [h.store.next]
    exact h.grow _
  | child outer =>
    simp only [Forest.step, h.scopes, h.store.next]
    cases F.scopes[outer]? with
    | none => exact ⟨rfl, h⟩
    | some env => exact ⟨rfl, h.grow _⟩
  | define scope name value =>
    exact h.write scope value fun env v => .some (h.store.define env name v)
  | declare scope d =>
    refine h.update ?_
    rw [h.scopes]
    cases henv : F.scopes[scope]? with
    | none => exact .none
    | some env => exact .some (h.store.declare (List.mem_of_getElem? henv) d)
  | assign scope name value =>
    refine h.write scope value fun env v => ?_
    rw [Store.assign?, Store.assign?, h.store.holder?_eq]
    exact h.store.define_holder _ name v
  | assignAt scope distance name value =>
    refine h.write scope value fun env v => ?_
    rw [Store.writeAt?, Store.writeAt?, h.store.holderAt?_eq]
    exact h.store.define_holder _ name v
  | get scope name =>
    refine h.read scope fun env henv => ?_
    exact h.store.lookup?_eq hgrown.apart fun _ hholds => hgrown.holder_mem henv hholds
  | getAt scope distance name =>
    refine h.read scope fun env henv => ?_
    exact h.store.read?_eq hgrown.apart (hgrown.ancestor_mem env distance henv) name

/-- **Operations have the same answers both ways.** -/
theorem Early.run : ∀ (ops : List ScopeOp) {F G : Forest}, F.Early G → F.Grown →
    (Forest.run Store.declareEarly ops G).1 = (Forest.run Store.declare ops F).1 ∧
      (Forest.run Store.declare ops F).2.Early (Forest.run Store.declareEarly ops G).2
  | [], _, _, h, _ => ⟨rfl, h⟩
  | op :: ops, F, G, h, hgrown => by
    obtain ⟨hreply, hstep⟩ := h.step hgrown op
    have hnext : (F.step Store.declare op).2.Grown :=
      hgrown.step (fun _ _ _ => Store.next_bind ..) op
    obtain ⟨hreplies, hrun⟩ := Early.run ops hstep hnext
    refine ⟨?_, hrun⟩
    show (G.step Store.declareEarly op).1 :: _ = (F.step Store.declare op).1 :: _
    rw [hreply]
    exact congrArg _ hreplies

/-- Nothing is kept at first. -/
theorem early_empty : Early {} {} := ⟨.refl_empty _, rfl, rfl⟩

/-! ## The same function -/

/--
Functions that are read are equal if they come from the same declaration in the same scope, however
far away from it they are read.
-/
theorem Grown.equals_iff (h : F.Grown) {env env' holder holder' : Env} {name name' : String}
    {d d' : Declaration} (henv : env ∈ F.scopes) (henv' : env' ∈ F.scopes)
    (hholds : F.store.Holds name env holder) (hholds' : F.store.Holds name' env' holder')
    (hd : (F.store.frame holder.frame).get? name = some (.function d))
    (hd' : (F.store.frame holder'.frame).get? name' = some (.function d')) :
    ∃ u v, F.store.lookup? env name = some u ∧ F.store.lookup? env' name' = some v ∧
      (u.equals v = true ↔ d.id = d'.id ∧ holder = holder') := by
  refine ⟨.closure d holder, .closure d' holder', ?_, ?_, ?_⟩
  · rw [hholds.lookup?_eq, Store.read?, hd]
    rfl
  · rw [hholds'.lookup?_eq, Store.read?, hd']
    rfl
  · simp only [Value.equals, Bool.and_eq_true, beq_iff_eq]
    have hmem := h.holder_mem henv hholds
    have hmem' := h.holder_mem henv' hholds'
    constructor
    · rintro ⟨hid, hframe⟩
      exact ⟨hid, h.eq_of_frame holder hmem holder' hmem' hframe⟩
    · rintro ⟨hid, rfl⟩
      exact ⟨hid, rfl⟩

end Forest

end Nya
