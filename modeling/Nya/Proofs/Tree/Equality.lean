import Nya.Tree.Basic

/-!
# Equality of trees

Trees can be compared part by part, so it can be decided whether two of them are the same.
-/

namespace Nya

/-! ## Expressions -/

namespace Expr

mutual

/-- Compares two expressions part by part. -/
def same : Expr → Expr → Bool
  | literal i v, literal j w => i == j && decide (v = w)
  | read r, read q => decide (r = q)
  | assign r a, assign q b => decide (r = q) && a.same b
  | unary i o a, unary j p b => i == j && (decide (o = p) && a.same b)
  | binary i a o c, binary j b p d => i == j && (a.same b && (decide (o = p) && c.same d))
  | logical i a o c, logical j b p d => i == j && (a.same b && (decide (o = p) && c.same d))
  | group i a, group j b => i == j && a.same b
  | call i a as o, call j b bs p => i == j && (a.same b && (sameAll as bs && decide (o = p)))
  | _, _ => false

/-- Compares expressions one after another. -/
def sameAll : List Expr → List Expr → Bool
  | [], [] => true
  | a :: as, b :: bs => a.same b && sameAll as bs
  | _, _ => false

end

mutual

theorem same_iff : ∀ a b : Expr, a.same b = true ↔ a = b
  | literal _ _, b | read _, b => by cases b <;> simp [same]
  | assign _ a, b | unary _ _ a, b | group _ a, b => by cases b <;> simp [same, same_iff a]
  | binary _ a _ c, b | logical _ a _ c, b => by
    cases b <;> simp [same, same_iff a, same_iff c]
  | call _ a as _, b => by cases b <;> simp [same, same_iff a, sameAll_iff as]

theorem sameAll_iff : ∀ as bs : List Expr, sameAll as bs = true ↔ as = bs
  | [], bs => by cases bs <;> simp [sameAll]
  | a :: as, bs => by cases bs <;> simp [sameAll, same_iff a, sameAll_iff as]

end

instance : DecidableEq Expr := fun a b => decidable_of_iff _ (same_iff a b)

end Expr

/-! ## Statements -/

namespace Stmt

mutual

/-- Compares two statements part by part. -/
def same : Stmt → Stmt → Bool
  | expression e, expression f => decide (e = f)
  | print e, print f => decide (e = f)
  | var n e, var m f => decide (n = m ∧ e = f)
  | block as, block bs => sameAll as bs
  | branch e a none, branch f b none => decide (e = f) && a.same b
  | branch e a (some c), branch f b (some d) => decide (e = f) && (a.same b && c.same d)
  | loop e a, loop f b => decide (e = f) && a.same b
  | function i n ps as, function j m qs bs =>
    decide (i = j ∧ n = m ∧ ps = qs) && sameAll as bs
  | ret k e, ret l f => decide (k = l ∧ e = f)
  | _, _ => false

/-- Compares statements one after another. -/
def sameAll : List Stmt → List Stmt → Bool
  | [], [] => true
  | a :: as, b :: bs => a.same b && sameAll as bs
  | _, _ => false

end

mutual

theorem same_iff : ∀ a b : Stmt, a.same b = true ↔ a = b
  | expression _, b | print _, b | var _ _, b | ret _ _, b => by cases b <;> simp [same]
  | block as, b => by cases b <;> simp [same, sameAll_iff as]
  | loop _ a, b => by cases b <;> simp [same, same_iff a]
  | function _ _ _ as, b => by cases b <;> simp [same, sameAll_iff as, and_assoc]
  | branch _ a none, b => by
    cases b with
    | branch f b d => cases d <;> simp [same, same_iff a]
    | _ => simp [same]
  | branch _ a (some c), b => by
    cases b with
    | branch f b d => cases d <;> simp [same, same_iff a, same_iff c]
    | _ => simp [same]

theorem sameAll_iff : ∀ as bs : List Stmt, sameAll as bs = true ↔ as = bs
  | [], bs => by cases bs <;> simp [sameAll]
  | a :: as, bs => by cases bs <;> simp [sameAll, same_iff a, sameAll_iff as]

end

instance : DecidableEq Stmt := fun a b => decidable_of_iff _ (same_iff a b)

end Stmt

end Nya
