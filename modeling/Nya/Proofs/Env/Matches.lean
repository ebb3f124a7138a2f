import Mathlib.Data.List.Forall2
import Nya.Machine.Step
import Nya.Proofs.Env.Frames

/-!
# Values that match

Two runs that are compared may hold functions that differ in their code or in their environment. The
values of the two runs *match* if they are the same but for functions, and functions are related in
some way. If the relation keeps what a function shows, its name, its number of parameters and
whether it is the same function as another, then no operator can tell values apart that match.

* `Value.Matches`, `Value.ResultMatches`
* `Value.Faithful` for relations of functions
-/

namespace Nya

/-- The declarations look the same to everybody but the machine that calls them. -/
structure Declaration.LooksLike (d d' : Declaration) : Prop where
  id : d'.id = d.id
  name : d'.name = d.name
  arity : d'.params.length = d.params.length

namespace Value

/-- The values are the same, except that functions are only related. -/
inductive Matches (R : Declaration → Env → Declaration → Env → Prop) : Value → Value → Prop
  | number (value : Float) : Matches R (.number value) (.number value)
  | string (text : String) : Matches R (.string text) (.string text)
  | boolean (value : Bool) : Matches R (.boolean value) (.boolean value)
  | nil : Matches R .nil .nil
  | native (function : NativeRef) : Matches R (.native function) (.native function)
  | closure {d d' : Declaration} {env env' : Env} (h : R d env d' env') :
    Matches R (.closure d env) (.closure d' env')

/-- Both fail with the same message, or both yield a value, and these match. -/
inductive ResultMatches {ε : Type} (R : Declaration → Env → Declaration → Env → Prop) :
    Except ε Value → Except ε Value → Prop
  | ok {v v' : Value} (h : v.Matches R v') : ResultMatches R (.ok v) (.ok v')
  | error (e : ε) : ResultMatches R (.error e) (.error e)

/-- Functions that are related look the same, and are the same as each other on both sides. -/
structure Faithful (R : Declaration → Env → Declaration → Env → Prop) : Prop where
  looksLike : ∀ {d env d' env'}, R d env d' env' → d.LooksLike d'
  frame_eq_iff : ∀ {d env d' env' b e b' e'}, R d env d' env' → R b e b' e' →
    (env'.frame = e'.frame ↔ env.frame = e.frame)

namespace Matches

variable {R : Declaration → Env → Declaration → Env → Prop} {v v' u u' : Value}

/-- Values that match are true together. -/
theorem isTruthy_eq (h : v.Matches R v') : v'.isTruthy = v.isTruthy := by cases h <;> rfl

theorem typeName_eq (h : v.Matches R v') : v'.typeName = v.typeName := by cases h <;> rfl

theorem literal (value : Literal) : value.toValue.Matches R value.toValue := by
  cases value <;> constructor

/-- A weaker relation of functions is met by all the values that meet a stronger one. -/
theorem mono {R' : Declaration → Env → Declaration → Env → Prop}
    (hR : ∀ d env d' env', R d env d' env' → R' d env d' env') (h : v.Matches R v') :
    v.Matches R' v' := by
  cases h with
  | closure h => exact .closure (hR _ _ _ _ h)
  | _ => constructor

variable (hR : Faithful R)
include hR

/-- Values that match are written alike. -/
theorem text_eq (h : v.Matches R v') : v'.text = v.text := by
  cases h with
  | closure h => simp only [text, (hR.looksLike h).name]
  | _ => rfl

/-- Equality does not tell values from those that they match. -/
theorem equals_eq (h : v.Matches R v') (hu : u.Matches R u') : v'.equals u' = v.equals u := by
  cases h with
  | closure h =>
    cases hu with
    | closure hu =>
      have hframe := hR.frame_eq_iff h hu
      simp only [equals, (hR.looksLike h).id, (hR.looksLike hu).id]
      rw [Bool.eq_iff_iff]
      simp only [Bool.and_eq_true, beq_iff_eq, hframe]
    | _ => rfl
  | _ => cases hu <;> rfl

/-- Values that match are called with the same number of arguments. -/
theorem arity?_eq (h : v.Matches R v') : Machine.arity? v' = Machine.arity? v := by
  cases h with
  | closure h => simp only [Machine.arity?, (hR.looksLike h).arity]
  | _ => rfl

/-! Operators cannot tell values apart that match. -/

omit hR in
/-- A unary operator yields results that match, and the same faults. -/
theorem applyUnary (operator : Token) (h : v.Matches R v') :
    ResultMatches R (Nya.applyUnary operator v) (Nya.applyUnary operator v') := by
  unfold Nya.applyUnary
  rw [h.isTruthy_eq]
  split
  · exact .ok (.boolean _)
  · cases h <;> constructor
    constructor
  · exact .error _

/-- So does addition, which also joins texts. -/
theorem add (operator : Token) (h : v.Matches R v') (hu : u.Matches R u') :
    ResultMatches R (Nya.add operator v u) (Nya.add operator v' u') := by
  cases h with
  | string x =>
    show ResultMatches R (.ok (.string (x ++ u.text))) (.ok (.string (x ++ u'.text)))
    rw [hu.text_eq hR]
    exact .ok (.string _)
  | number x =>
    cases hu with
    | number y => exact .ok (.number _)
    | string y => exact .ok (.string _)
    | _ => exact .error _
  | @closure d d' env env' h =>
    have htext : (Value.closure d' env').text = (Value.closure d env).text :=
      text_eq hR (.closure h)
    cases hu with
    | string y =>
      show ResultMatches R (.ok (.string (_ ++ y))) (.ok (.string (_ ++ y)))
      rw [htext]
      exact .ok (.string _)
    | _ => exact .error _
  | _ =>
    cases hu with
    | string y => exact .ok (.string _)
    | _ => exact .error _

omit hR in
theorem arithmetic (operator : Token) (x y : Float) :
    ResultMatches R (Nya.arithmetic operator x y) (Nya.arithmetic operator x y) := by
  unfold Nya.arithmetic
  split <;> first | exact .error _ | exact .ok (.number _) | exact .ok (.boolean _)

/-- So do all binary operators. -/
theorem applyBinary (operator : Token) (h : v.Matches R v') (hu : u.Matches R u') :
    ResultMatches R (Nya.applyBinary operator v u) (Nya.applyBinary operator v' u') := by
  unfold Nya.applyBinary
  rw [h.equals_eq hR hu]
  split
  · exact .ok (.boolean _)
  · exact .ok (.boolean _)
  · exact h.add hR operator hu
  · cases h with
    | number x =>
      cases hu with
      | number y => exact arithmetic operator x y
      | _ => exact .error _
    | _ => exact .error _

end Matches

end Value

end Nya
