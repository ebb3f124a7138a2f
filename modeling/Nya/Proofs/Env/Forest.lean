import Nya.Proofs.Env.Frames

/-!
# Forests of scopes

Scopes are opened one after the other, alone or inside another scope, and names are bound, read and
assigned in them in any order. A value to store comes from outside or is one that was read before.

How a function is kept when it is declared is a parameter of the operations: `Store.declare` keeps
the declaration alone.

* `Forest.Grown` is what every sequence of operations keeps: the scopes form a forest, and no two of
  them have the same frame
* `Forest.assign_reaches_holder` says which reads an assignment changes
-/

namespace Nya

/-- A value to store: one from outside, or what an earlier read gave. -/
inductive Operand where
  | given (v : Value)
  | earlier (read : Nat)

/-- An operation on scopes, which are known by the order in which they were opened. -/
inductive ScopeOp where
  | new
  | child (outer : Nat)
  | define (scope : Nat) (name : String) (value : Operand)
  | declare (scope : Nat) (d : Declaration)
  | assign (scope : Nat) (name : String) (value : Operand)
  | assignAt (scope distance : Nat) (name : String) (value : Operand)
  | get (scope : Nat) (name : String)
  | getAt (scope distance : Nat) (name : String)

/-- What an operation answers. -/
inductive Reply where
  | done
  | value (v : Value)
  | failed

/-- The scopes that were opened and the values that were read, the oldest first. -/
structure Forest where
  store : Store := {}
  scopes : List Env := []
  reads : List Value := []

namespace Forest

/-- The value of an operand. -/
def value? (F : Forest) : Operand → Option Value
  | .given v => some v
  | .earlier read => F.reads[read]?

/-- Opens the scope of a chain that starts with a new frame. -/
def grow (F : Forest) (env : Env) : Forest :=
  { F with store := F.store.push, scopes := F.scopes ++ [env] }

/-- Takes over a store, if there is one. -/
def update (F : Forest) : Option Store → Reply × Forest
  | some s => (.done, { F with store := s })
  | none => (.failed, F)

/-- Takes over the store that a scope and a value lead to. -/
def write (F : Forest) (scope : Nat) (operand : Operand) (f : Env → Value → Option Store) :
    Reply × Forest :=
  F.update (F.scopes[scope]?.bind fun env => (F.value? operand).bind (f env))

/-- Answers with a value, if there is one. -/
def answer (F : Forest) : Option Value → Reply × Forest
  | some v => (.value v, { F with reads := F.reads ++ [v] })
  | none => (.failed, F)

/-- Answers with the value that a scope leads to. -/
def read (F : Forest) (scope : Nat) (f : Env → Option Value) : Reply × Forest :=
  F.answer (F.scopes[scope]?.bind f)

/-- Runs one operation. One that fails changes nothing. -/
def step (declare : Store → Env → Declaration → Store) (F : Forest) : ScopeOp → Reply × Forest
  | .new => (.done, F.grow (.root F.store.next))
  | .child outer =>
    match F.scopes[outer]? with
    | some env => (.done, F.grow (.child F.store.next env))
    | none => (.failed, F)
  | .define scope name value => F.write scope value fun env v => some (F.store.define env name v)
  | .declare scope d => F.update (F.scopes[scope]?.map fun env => declare F.store env d)
  | .assign scope name value => F.write scope value fun env v => F.store.assign? env name v
  | .assignAt scope distance name value =>
    F.write scope value fun env v => F.store.writeAt? env distance name v
  | .get scope name => F.read scope fun env => F.store.lookup? env name
  | .getAt scope distance name => F.read scope fun env => F.store.readAt? env distance name

/-- Runs operations one after the other. -/
def run (declare : Store → Env → Declaration → Store) : List ScopeOp → Forest → List Reply × Forest
  | [], F => ([], F)
  | op :: ops, F =>
    let (reply, G) := F.step declare op
    let (replies, H) := run declare ops G
    (reply :: replies, H)

/-- The forest that operations make out of nothing. -/
def built (ops : List ScopeOp) : Forest := (run Store.declare ops {}).2

/-! ## The shape of a forest -/

/-- Scopes lie in scopes, down to one without another around it, and each has its own frame. -/
structure Grown (F : Forest) : Prop where
  frame_lt : ∀ env ∈ F.scopes, env.frame < F.store.next
  outer_mem : ∀ f outer, Env.child f outer ∈ F.scopes → outer ∈ F.scopes
  eq_of_frame : ∀ env ∈ F.scopes, ∀ env' ∈ F.scopes, env.frame = env'.frame → env = env'

theorem grown_empty : Grown {} where
  frame_lt _ h := absurd h (List.not_mem_nil)
  outer_mem _ _ h := absurd h (List.not_mem_nil)
  eq_of_frame _ h := absurd h (List.not_mem_nil)

/-- A forest with the same scopes and no fewer frames is as grown. -/
theorem Grown.of_scopes_eq {F G : Forest} (h : F.Grown) (hscopes : G.scopes = F.scopes)
    (hnext : F.store.next ≤ G.store.next) : G.Grown where
  frame_lt env henv := Nat.lt_of_lt_of_le (h.frame_lt env (hscopes ▸ henv)) hnext
  outer_mem f outer henv := hscopes ▸ h.outer_mem f outer (hscopes ▸ henv)
  eq_of_frame env henv env' henv' := h.eq_of_frame env (hscopes ▸ henv) env' (hscopes ▸ henv')

theorem Grown.grow {F : Forest} (h : F.Grown) {env : Env} (hframe : env.frame = F.store.next)
    (houter : ∀ f outer, env = .child f outer → outer ∈ F.scopes) : (F.grow env).Grown where
  frame_lt e he := by
    show e.frame < F.store.push.next
    rw [Store.next_push]
    rcases List.mem_append.mp he with he | he
    · exact Nat.lt_succ_of_lt (h.frame_lt e he)
    · rw [List.mem_singleton.mp he, hframe]
      exact Nat.lt_succ_self _
  outer_mem f outer he := by
    refine List.mem_append_left _ ?_
    rcases List.mem_append.mp he with he | he
    · exact h.outer_mem f outer he
    · exact houter f outer (List.mem_singleton.mp he).symm
  eq_of_frame e he e' he' hee' := by
    rcases List.mem_append.mp he with he | he <;> rcases List.mem_append.mp he' with he' | he'
    · exact h.eq_of_frame e he e' he' hee'
    · -- An older scope has an older frame.
      have hlt := h.frame_lt e he
      rw [hee', List.mem_singleton.mp he', hframe] at hlt
      exact absurd hlt (Nat.lt_irrefl _)
    · have hlt := h.frame_lt e' he'
      rw [← hee', List.mem_singleton.mp he, hframe] at hlt
      exact absurd hlt (Nat.lt_irrefl _)
    · rw [List.mem_singleton.mp he, List.mem_singleton.mp he']

theorem Grown.ancestor_mem {F : Forest} (h : F.Grown) :
    ∀ (env : Env) (hops : Nat), env ∈ F.scopes → env.ancestor hops ∈ F.scopes
  | env, 0, henv => by rwa [Env.ancestor]
  | .root _, _ + 1, henv => henv
  | .child f outer, hops + 1, henv => h.ancestor_mem outer hops (h.outer_mem f outer henv)

/-- What holds a name for a scope is a scope. -/
theorem Grown.holder_mem {F : Forest} (h : F.Grown) {name : String} {env holder : Env}
    (henv : env ∈ F.scopes) (hholds : F.store.Holds name env holder) : holder ∈ F.scopes := by
  obtain ⟨hops, rfl, -⟩ := hholds
  exact h.ancestor_mem env hops henv

theorem Grown.update {F : Forest} (h : F.Grown) {found : Option Store}
    (hnext : ∀ s, found = some s → s.next = F.store.next) : (F.update found).2.Grown := by
  cases found with
  | none => exact h
  | some s => exact h.of_scopes_eq rfl (Nat.le_of_eq (hnext s rfl).symm)

theorem Grown.write {F : Forest} (h : F.Grown) (scope : Nat) (operand : Operand)
    {f : Env → Value → Option Store} (hnext : ∀ env v s, f env v = some s → s.next = F.store.next) :
    (F.write scope operand f).2.Grown := by
  refine h.update fun s hs => ?_
  obtain ⟨env, -, v, -, hf⟩ := by simpa [Option.bind_eq_some_iff] using hs
  exact hnext env v s hf

theorem Grown.read {F : Forest} (h : F.Grown) (scope : Nat) (f : Env → Option Value) :
    (F.read scope f).2.Grown := by
  unfold Forest.read
  cases F.scopes[scope]?.bind f with
  | none => exact h
  | some v => exact h.of_scopes_eq rfl (Nat.le_refl _)

/-- Every operation keeps the shape, however functions are kept. -/
theorem Grown.step {declare : Store → Env → Declaration → Store}
    (hdeclare : ∀ s env d, (declare s env d).next = s.next) {F : Forest} (h : F.Grown)
    (op : ScopeOp) : (F.step declare op).2.Grown := by
  cases op with
  | new => exact h.grow rfl (fun f outer henv => by cases henv)
  | child outer =>
    rw [Forest.step]
    split
    · next env houter =>
      refine h.grow rfl ?_
      rintro f o heq
      cases heq
      exact List.mem_of_getElem? houter
    · exact h
  | define scope name value =>
    refine h.write scope value fun env v s hs => ?_
    cases hs
    exact Store.next_bind ..
  | declare scope d =>
    refine h.update fun s hs => ?_
    obtain ⟨env, -, rfl⟩ := Option.map_eq_some_iff.mp hs
    exact hdeclare ..
  | assign scope name value =>
    refine h.write scope value fun env v s hs => ?_
    obtain ⟨holder, -, rfl⟩ := Option.map_eq_some_iff.mp hs
    exact Store.next_bind ..
  | assignAt scope distance name value =>
    refine h.write scope value fun env v s hs => ?_
    obtain ⟨holder, -, rfl⟩ := Option.map_eq_some_iff.mp hs
    exact Store.next_bind ..
  | get scope name => exact h.read scope _
  | getAt scope distance name => exact h.read scope _

theorem Grown.run {declare : Store → Env → Declaration → Store}
    (hdeclare : ∀ s env d, (declare s env d).next = s.next) :
    ∀ (ops : List ScopeOp) {F : Forest}, F.Grown → (Forest.run declare ops F).2.Grown
  | [], _, h => h
  | op :: ops, _, h => Grown.run hdeclare ops (h.step hdeclare op)

theorem grown_built (ops : List ScopeOp) : (built ops).Grown :=
  Grown.run (fun _ _ _ => Store.next_bind ..) ops grown_empty

/-! ## Assignments -/

variable {F : Forest} {scope : Nat} {env : Env} {name : String} {operand : Operand} {v : Value}

theorem write_eq (henv : F.scopes[scope]? = some env) (hv : F.value? operand = some v)
    (f : Env → Value → Option Store) : F.write scope operand f = F.update (f env v) := by
  rw [write, henv, hv, Option.bind_some, Option.bind_some]

theorem read_eq (henv : F.scopes[scope]? = some env) (f : Env → Option Value) :
    F.read scope f = F.answer (f env) := by
  rw [read, henv, Option.bind_some]

theorem update_eq_done_iff {found : Option Store} :
    (F.update found).1 = .done ↔ found.isSome = true := by
  cases found <;> simp [update]

theorem answer_eq_value_iff {found : Option Value} :
    (∃ u, (F.answer found).1 = .value u) ↔ found.isSome = true := by
  cases found <;> simp [answer]

theorem update_of_not_done {found : Option Store} (h : (F.update found).1 ≠ .done) :
    (F.update found).2 = F := by
  cases found with
  | none => rfl
  | some s => exact absurd rfl h

/-- Overwriting what is bound adds no name to any scope. -/
theorem binds_update_map {found : Option Env}
    (hfound : ∀ holder, found = some holder → F.store.binds holder.frame name = true)
    (f : FrameId) (other : String) :
    (F.update (found.map fun holder => F.store.define holder name v)).2.store.binds f other =
      F.store.binds f other := by
  cases found with
  | none => rfl
  | some holder => exact Store.binds_bind_eq (hfound holder rfl) _ f other

/--
**An assignment reaches the nearest scope that holds the name, and only that one.** It succeeds just
where a read does. Afterwards the name has the new value for all scopes that share the holder, and
every other read gives what it gave before. At the distance of the holder the operations that count
scopes do the same, and no assignment adds a name anywhere.
-/
theorem assign_reaches_holder (ops : List ScopeOp) (scope : Nat) (env : Env) (name : String)
    (operand : Operand) (v : Value) (henv : (built ops).scopes[scope]? = some env)
    (hv : (built ops).value? operand = some v) :
    let F := built ops
    let assigned := F.step Store.declare (.assign scope name operand)
    (assigned.1 = .done ↔ ∃ u, (F.step Store.declare (.get scope name)).1 = .value u) ∧
    (assigned.1 ≠ .done → assigned.2 = F) ∧
    (assigned.1 = .done → ∃ holder ∈ F.scopes, F.store.Holds name env holder ∧
      (∀ f other, (assigned.2.store.frame f).get? other =
        if f = holder.frame ∧ other = name then some (.value v)
        else (F.store.frame f).get? other) ∧
      (∀ t ∈ F.scopes, F.store.Holds name t holder →
        assigned.2.store.lookup? t name = some v) ∧
      (∀ t ∈ F.scopes, ∀ other, ¬ (other = name ∧ F.store.Holds name t holder) →
        assigned.2.store.lookup? t other = F.store.lookup? t other) ∧
      ∀ distance, env.ancestor distance = holder →
        F.step Store.declare (.getAt scope distance name) =
            F.step Store.declare (.get scope name) ∧
          F.step Store.declare (.assignAt scope distance name operand) = assigned) ∧
    (∀ f other, assigned.2.store.binds f other = F.store.binds f other) ∧
    ∀ distance f other,
      (F.step Store.declare (.assignAt scope distance name operand)).2.store.binds f other =
        F.store.binds f other := by
  intro F assigned
  have hgrown : F.Grown := grown_built ops
  have hassigned : assigned = F.update (F.store.assign? env name v) := write_eq henv hv _
  refine ⟨?_, ?_, ?_, ?_, ?_⟩
  · rw [hassigned, step, read_eq henv, update_eq_done_iff, answer_eq_value_iff,
      Store.isSome_assign?, Store.isSome_lookup?]
  · rw [hassigned]
    exact update_of_not_done
  · intro hdone
    rw [hassigned, update_eq_done_iff, Store.isSome_assign?] at hdone
    obtain ⟨holder, hholds⟩ := hdone
    have hmem : holder ∈ F.scopes := hgrown.holder_mem (List.mem_of_getElem? henv) hholds
    have hlt := hgrown.frame_lt holder hmem
    have hstore : assigned.2.store = F.store.define holder name v := by
      rw [hassigned, hholds.assign?_eq]
      rfl
    refine ⟨holder, hmem, hholds, ?_, ?_, ?_, ?_⟩
    · rw [hstore]
      exact Store.get?_frame_bind hlt name (.value v)
    · intro t _ ht
      rw [hstore]
      exact Store.lookup?_define_of_holds hlt ht v
    · intro t ht other hother
      rw [hstore]
      refine Store.lookup?_define_of_not_holds hlt hholds.binds ?_ v
      -- A holder with the same frame would be the same scope.
      rintro holder' hholds' ⟨hframe, rfl⟩
      have heq := hgrown.eq_of_frame holder' (hgrown.holder_mem ht hholds') holder hmem hframe
      exact hother ⟨rfl, heq ▸ hholds'⟩
    · intro distance hdistance
      obtain ⟨hread, hwrite⟩ := hholds.at_distance hdistance
      rw [hassigned, step, step, step, read_eq henv, read_eq henv, write_eq henv hv, hread, hwrite]
      exact ⟨rfl, rfl⟩
  · rw [hassigned]
    exact binds_update_map fun holder hholder => (Store.holder?_eq_some_iff.mp hholder).binds
  · intro distance
    rw [step, write_eq henv hv]
    exact binds_update_map fun holder hholder => Store.binds_of_holderAt? hholder

/-- A name bound twice, in a scope and in the one around it, with a third scope beside the inner. -/
def shadowing : List ScopeOp :=
  [.new, .define 0 "x" (.given .nil), .child 0, .define 1 "x" (.given (.boolean true)), .child 0]

/-- The assignment from the scope beside goes to the outer binding. -/
theorem assign_reaches_holder_beside :
    (built shadowing).scopes[2]? = some (.child 2 (.root 0)) ∧
    ((built shadowing).step Store.declare (.assign 2 "x" (.given (.boolean false)))).1 = .done ∧
    ((built shadowing).step Store.declare
      (.assign 2 "x" (.given (.boolean false)))).2.store.lookup? (.child 1 (.root 0)) "x" =
        some (.boolean true) := by
  obtain ⟨-, -, hdone, -⟩ := assign_reaches_holder shadowing 2 (.child 2 (.root 0)) "x"
    (.given (.boolean false)) (.boolean false) rfl rfl
  obtain ⟨holder, -, hholds, -, -, hothers, -⟩ := hdone rfl
  refine ⟨rfl, rfl, (hothers (.child 1 (.root 0)) ?_ "x" ?_).trans rfl⟩
  · exact List.mem_of_getElem? (show (built shadowing).scopes[1]? = _ from rfl)
  · rintro ⟨-, hinner⟩
    have h1 := hinner.eq_of_binds rfl
    have h2 := Store.holder?_eq_some_iff.mpr hholds
    rw [h1] at h2
    cases h2

end Forest

end Nya
