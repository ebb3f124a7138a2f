import Nya.Machine.Operator
import Nya.Proofs.Relabel.Tree

/-!
# Relabelling values and stores

A relabelling acts on the functions among the values, and so on frames and stores. If it keeps
functions apart, operators commute with it: no operator shows the number or the line of a function.

* `Store.lookup?_relabel`, `Store.readAt?_relabel` for variables
* `applyUnary_relabel`, `applyBinary_relabel` for operators
-/

namespace Nya

/-- The relabelling keeps functions apart. -/
def Relabel.Faithful (ρ : Relabel) : Prop := ∀ i j, ρ.function i = ρ.function j → i = j

/-! ## Values -/

namespace Value

/-- The value with new numbers and lines in a function. -/
def relabel (ρ : Relabel) : Value → Value
  | closure d env => closure (d.relabel ρ) env
  | number value => number value
  | string text => string text
  | boolean value => boolean value
  | nil => nil
  | native function => native function

variable (ρ : Relabel)

/-- Every function is true, whatever its number. -/
@[simp] theorem isTruthy_relabel (v : Value) : (v.relabel ρ).isTruthy = v.isTruthy := by
  cases v <;> rfl

/-- A function is written by its name, which stays. -/
@[simp] theorem text_relabel (v : Value) : (v.relabel ρ).text = v.text := by
  cases v <;> rfl

/-- Functions that are kept apart are as equal as before. -/
theorem equals_relabel {ρ : Relabel} (hρ : ρ.Faithful) (v v' : Value) :
    (v.relabel ρ).equals (v'.relabel ρ) = v.equals v' := by
  have hid : ∀ i j, (ρ.function i == ρ.function j) = (i == j) := by
    intro i j
    rw [Bool.eq_iff_iff, beq_iff_eq, beq_iff_eq]
    exact ⟨hρ i j, fun h => by rw [h]⟩
  cases v <;> cases v' <;> simp [relabel, equals, Declaration.relabel, hid]

end Value

@[simp] theorem Literal.relabel_toValue (ρ : Relabel) (value : Literal) :
    value.toValue.relabel ρ = value.toValue := by
  cases value <;> rfl

/-! ## Stores -/

/-- The binding with new numbers and lines. -/
def Binding.relabel (ρ : Relabel) : Binding → Binding
  | value v => value (v.relabel ρ)
  | function d => function (d.relabel ρ)

@[simp] theorem Binding.load_relabel (ρ : Relabel) (env : Env) (b : Binding) :
    (b.relabel ρ).load env = (b.load env).relabel ρ := by
  cases b <;> rfl

/-- The frame with new numbers and lines. -/
def Frame.relabel (ρ : Relabel) (f : Frame) : Frame :=
  f.map fun entry => (entry.1, entry.2.relabel ρ)

/-- A name is bound to what it was bound to, relabelled. -/
theorem Frame.get?_relabel (ρ : Relabel) (f : Frame) (name : String) :
    (f.relabel ρ).get? name = (f.get? name).map (Binding.relabel ρ) := by
  induction f with
  | nil => rfl
  | cons entry rest ih =>
    obtain ⟨n, b⟩ := entry
    simp only [get?, relabel, List.map_cons, List.lookup_cons] at ih ⊢
    cases name == n with
    | true => rfl
    | false => exact ih

theorem Frame.set_relabel (ρ : Relabel) (name : String) (b : Binding) (f : Frame) :
    Frame.set name (b.relabel ρ) (f.relabel ρ) = (Frame.set name b f).relabel ρ := by
  induction f with
  | nil => rfl
  | cons entry rest ih =>
    obtain ⟨n, old⟩ := entry
    by_cases h : n = name
    · simp [set, relabel, h]
    · simp only [set, relabel, List.map_cons, h, if_false] at ih ⊢
      rw [ih]

namespace Store

/-- The store with new numbers and lines. -/
def relabel (ρ : Relabel) (s : Store) : Store := ⟨s.frames.map (Frame.relabel ρ)⟩

variable (ρ : Relabel) (s : Store)

@[simp] theorem next_relabel : (s.relabel ρ).next = s.next := by simp [relabel, next]

/-- Frames stay where they are. -/
theorem frame_relabel (id : FrameId) : (s.relabel ρ).frame id = (s.frame id).relabel ρ := by
  by_cases h : id < s.frames.size
  · simp [frame, relabel, h]
  · simp [frame, relabel, h, Frame.relabel]

theorem push_relabel : (s.relabel ρ).push = s.push.relabel ρ := by
  simp [push, relabel, Frame.relabel]

/-- A relabelled binding in a relabelled store is the binding in the store, relabelled. -/
theorem bind_relabel (id : FrameId) (name : String) (b : Binding) :
    (s.relabel ρ).bind id name (b.relabel ρ) = (s.bind id name b).relabel ρ := by
  simp only [bind, relabel, mk.injEq]
  apply Array.ext
  · simp
  · intro i h₁ h₂
    simp only [Array.getElem_modify, Array.getElem_map]
    split
    · exact Frame.set_relabel ρ name b _
    · rfl

theorem define_relabel (env : Env) (name : String) (v : Value) :
    (s.relabel ρ).define env name (v.relabel ρ) = (s.define env name v).relabel ρ :=
  s.bind_relabel ρ env.frame name (.value v)

theorem declare_relabel (env : Env) (d : Declaration) :
    (s.relabel ρ).declare env (d.relabel ρ) = (s.declare env d).relabel ρ :=
  s.bind_relabel ρ env.frame d.name.lexeme (.function d)

/-- The same names are bound. -/
@[simp] theorem binds_relabel (id : FrameId) (name : String) :
    (s.relabel ρ).binds id name = s.binds id name := by
  simp [binds, frame_relabel, Frame.get?_relabel]

theorem read?_relabel (env : Env) (name : String) :
    (s.relabel ρ).read? env name = (s.read? env name).map (Value.relabel ρ) := by
  simp [read?, frame_relabel, Frame.get?_relabel, Function.comp_def]

/-- A name is found in the same frame. -/
@[simp] theorem holder?_relabel (name : String) (env : Env) :
    (s.relabel ρ).holder? name env = s.holder? name env := by
  induction env with
  | root frame => simp [holder?]
  | child frame outer ih => simp [holder?, ih]

@[simp] theorem holderAt?_relabel (name : String) (distance : Nat) (env : Env) :
    (s.relabel ρ).holderAt? name distance env = s.holderAt? name distance env := by
  simp [holderAt?]

/-- What a name stands for is relabelled, and it is found in the same place. -/
theorem lookup?_relabel (env : Env) (name : String) :
    (s.relabel ρ).lookup? env name = (s.lookup? env name).map (Value.relabel ρ) := by
  simp only [lookup?, holder?_relabel]
  cases s.holder? name env with
  | none => rfl
  | some holder => exact s.read?_relabel ρ holder name

/-- So is what is read at a distance. -/
theorem readAt?_relabel (env : Env) (distance : Nat) (name : String) :
    (s.relabel ρ).readAt? env distance name =
      (s.readAt? env distance name).map (Value.relabel ρ) :=
  s.read?_relabel ρ (env.ancestor distance) name

end Store

/-! ## Operators -/

/-- The fault on its new line. -/
def RuntimeError.relabel (ρ : Relabel) (e : RuntimeError) : RuntimeError :=
  { e with line := ρ.line e.line }

/-- What an operator yields, with new numbers and lines. -/
def relabelResult (ρ : Relabel) : Except RuntimeError Value → Except RuntimeError Value
  | .ok v => .ok (v.relabel ρ)
  | .error e => .error (e.relabel ρ)

/-- A unary operator sees no label, and its fault is on the new line. -/
theorem applyUnary_relabel (ρ : Relabel) (operator : Token) (right : Value) :
    applyUnary (operator.relabel ρ) (right.relabel ρ) =
      relabelResult ρ (applyUnary operator right) := by
  simp only [applyUnary, Token.symbol?_relabel, Value.isTruthy_relabel]
  split
  · rfl
  · cases right <;> rfl
  · rfl

theorem add_relabel (ρ : Relabel) (operator : Token) (left right : Value) :
    add (operator.relabel ρ) (left.relabel ρ) (right.relabel ρ) =
      relabelResult ρ (add operator left right) := by
  cases left <;> cases right <;> rfl

theorem arithmetic_relabel (ρ : Relabel) (operator : Token) (x y : Float) :
    arithmetic (operator.relabel ρ) x y = relabelResult ρ (arithmetic operator x y) := by
  simp only [arithmetic, Token.symbol?_relabel]
  split <;> rfl

/-- Functions are equal after the relabelling just if they were before, as it keeps them apart. -/
theorem applyBinary_relabel {ρ : Relabel} (hρ : ρ.Faithful) (operator : Token)
    (left right : Value) :
    applyBinary (operator.relabel ρ) (left.relabel ρ) (right.relabel ρ) =
      relabelResult ρ (applyBinary operator left right) := by
  simp only [applyBinary, Token.symbol?_relabel, Value.equals_relabel hρ]
  split
  · rfl
  · rfl
  · exact add_relabel ρ operator left right
  · cases left <;> cases right <;> first | rfl | exact arithmetic_relabel ρ operator _ _

/-- A logical operator looks at truth only. -/
@[simp] theorem settles_relabel (ρ : Relabel) (operator : Token) (left : Value) :
    settles (operator.relabel ρ) (left.relabel ρ) = settles operator left := by
  simp [settles]

end Nya
