import Nya.Proofs.Env.Matches
import Nya.Proofs.Machine.Ground
import Nya.Proofs.Scope.Thin

/-!
# Stores with and without spare frames

One run opens a frame where the other one does not. If nothing is ever bound in that frame, it is
*spare*: the other run is the same but for the numbers of the frames and the chains, from which the
spare frames are missing.

A *thinning* says of each frame of the fuller run which frame of the other run is its twin, if it
has one, and which chain it is the innermost frame of. It only grows.

* `Thinning.thin` for chains without their spare frames
* `Thinning.Closed` for functions, and the values that match by it
* `Store.Thin` for stores, with a lemma for each operation
* `Thinning.plain` for a run beside itself
-/

namespace Nya

/-! ## Thinnings -/

/-- The frames of two runs so far, and which of them are twins. -/
structure Thinning where
  next : FrameId
  next' : FrameId
  /-- The twin of a frame. A frame without one is spare. -/
  twin : FrameId → Option FrameId
  chain : FrameId → Env
  next_pos : 0 < next
  chain_zero : chain 0 = Machine.globals
  twin_zero : twin 0 = some 0
  twin_lt : ∀ {f f'}, f < next → twin f = some f' → f' < next'
  twin_inj : ∀ {f g f'}, f < next → g < next → twin f = some f' → twin g = some f' → f = g

namespace Thinning

/-- The chain of the other run: without the spare frames, and with the twins of all others. -/
def thin (Λ : Thinning) : Env → Env
  | .root f => .root f
  | .child f outer =>
    match Λ.twin f with
    | some f' => .child f' (Λ.thin outer)
    | none => Λ.thin outer

/-- Which frames of a chain are spare. -/
def marks (Λ : Thinning) (env : Env) : Marks := fun n => (Λ.twin (env.ancestor n).frame).isNone

/-- All frames of the chain are known, each as the innermost one of its rest. -/
inductive Knows (Λ : Thinning) : Env → Prop
  | globals : Knows Λ Machine.globals
  | child {f : FrameId} {outer : Env} (hf : f < Λ.next) (hchain : Λ.chain f = .child f outer)
    (houter : Knows Λ outer) : Knows Λ (.child f outer)

/-- The second thinning is the first one at a later time. -/
structure Extends (Λ Λ' : Thinning) : Prop where
  next : Λ.next ≤ Λ'.next
  twin : ∀ f < Λ.next, Λ'.twin f = Λ.twin f
  chain : ∀ f < Λ.next, Λ'.chain f = Λ.chain f

/-- The thinning after a new frame was opened, in both runs or in the first one only. -/
def push (Λ : Thinning) (spare : Bool) (outer : Env) : Thinning where
  next := Λ.next + 1
  next' := if spare then Λ.next' else Λ.next' + 1
  twin f := if f = Λ.next then (if spare then none else some Λ.next') else Λ.twin f
  chain f := if f = Λ.next then .child f outer else Λ.chain f
  next_pos := Nat.succ_pos _
  chain_zero := by rw [if_neg (Nat.ne_of_lt Λ.next_pos), Λ.chain_zero]
  twin_zero := by rw [if_neg (Nat.ne_of_lt Λ.next_pos), Λ.twin_zero]
  twin_lt {f f'} hf h := by
    split at h
    · cases spare with
      | true => cases h
      | false =>
        cases h
        exact Nat.lt_succ_self _
    · next hne =>
      have hlt := Λ.twin_lt (Nat.lt_of_le_of_ne (Nat.le_of_lt_succ hf) hne) h
      cases spare with
      | true => exact hlt
      | false => exact Nat.lt_succ_of_lt hlt
  twin_inj {f g f'} hf hg h h' := by
    -- The twin of the new frame is new itself.
    have hnew : ∀ {f}, f < Λ.next + 1 → f ≠ Λ.next → Λ.twin f = some f' →
        (if spare then none else some Λ.next') ≠ some f' := by
      intro f hf hne h
      have hlt := Λ.twin_lt (Nat.lt_of_le_of_ne (Nat.le_of_lt_succ hf) hne) h
      cases spare with
      | true => simp
      | false => simpa using (Nat.ne_of_lt hlt).symm
    split at h
    · split at h'
      · next hf' hg' => rw [hf', hg']
      · next hg' => exact absurd h (hnew hg hg' h')
    · next hf' =>
      split at h'
      · exact absurd h' (hnew hf hf' h)
      · next hg' =>
        exact Λ.twin_inj (Nat.lt_of_le_of_ne (Nat.le_of_lt_succ hf) hf')
          (Nat.lt_of_le_of_ne (Nat.le_of_lt_succ hg) hg') h h'

variable {Λ Λ' Λ'' : Thinning} {env : Env} {spare : Bool}

theorem Extends.refl (Λ : Thinning) : Λ.Extends Λ :=
  ⟨Nat.le_refl _, fun _ _ => rfl, fun _ _ => rfl⟩

theorem Extends.trans (h : Λ.Extends Λ') (h' : Λ'.Extends Λ'') : Λ.Extends Λ'' where
  next := Nat.le_trans h.next h'.next
  twin f hf := by rw [h'.twin f (Nat.lt_of_lt_of_le hf h.next), h.twin f hf]
  chain f hf := by rw [h'.chain f (Nat.lt_of_lt_of_le hf h.next), h.chain f hf]

/-- A new frame leaves the thinning of the others as it was. -/
theorem extends_push (Λ : Thinning) (spare : Bool) (outer : Env) :
    Λ.Extends (Λ.push spare outer) where
  next := Nat.le_succ _
  twin _ hf := if_neg (Nat.ne_of_lt hf)
  chain _ hf := if_neg (Nat.ne_of_lt hf)

/-! Chains that are known -/

/-- Frames of a known chain have been opened. -/
theorem Knows.frame_lt (h : Λ.Knows env) : env.frame < Λ.next := by
  cases h with
  | globals => exact Λ.next_pos
  | child hf _ _ => exact hf

/-- A chain that is known stays so. -/
theorem Knows.mono (h : Λ.Knows env) (hΛ : Λ.Extends Λ') : Λ'.Knows env := by
  induction h with
  | globals => exact .globals
  | child hf hchain _ ih =>
    exact .child (Nat.lt_of_lt_of_le hf hΛ.next) (by rw [hΛ.chain _ hf, hchain]) ih

/-- The chains further out are known, too. -/
theorem Knows.ancestor (h : Λ.Knows env) (n : Nat) : Λ.Knows (env.ancestor n) := by
  induction h generalizing n with
  | globals =>
    rw [Machine.globals, Env.ancestor_root]
    exact .globals
  | child hf hchain houter ih =>
    cases n with
    | zero => exact .child hf hchain houter
    | succ n => exact ih n

/-- A known chain is found by its innermost frame. -/
theorem Knows.chain_eq (h : Λ.Knows env) : Λ.chain env.frame = env := by
  cases h with
  | globals => exact Λ.chain_zero
  | child _ hchain _ => exact hchain

/-- Known chains with the same innermost frame are the same. -/
theorem apart (Λ : Thinning) : Env.Apart Λ.Knows := by
  intro env env' h h' hframe
  rw [← h.chain_eq, hframe, h'.chain_eq]

/-- Which frames of a known chain are spare does not change. -/
theorem Knows.marks_eq (h : Λ.Knows env) (hΛ : Λ.Extends Λ') : Λ'.marks env = Λ.marks env := by
  funext n
  rw [marks, marks, hΛ.twin _ (h.ancestor n).frame_lt]

/-- Nor does the chain of the other run. -/
theorem Knows.thin_eq (h : Λ.Knows env) (hΛ : Λ.Extends Λ') : Λ'.thin env = Λ.thin env := by
  induction h with
  | globals => rfl
  | child hf _ _ ih => rw [thin, thin, hΛ.twin _ hf, ih]

theorem marks_zero (Λ : Thinning) (env : Env) :
    Λ.marks env 0 = (Λ.twin env.frame).isNone := by
  rw [marks, Env.ancestor]

/-- The frames of a chain are marked by their distance. -/
theorem marks_ancestor (Λ : Thinning) (env : Env) (n : Nat) :
    Λ.marks (env.ancestor n) 0 = Λ.marks env n := by
  rw [Λ.marks_zero]
  rfl

/-- Going out by some frames, with and without the spare ones. -/
theorem thin_ancestor (Λ : Thinning) : ∀ (env : Env) (n : Nat),
    (Λ.thin env).ancestor ((Λ.marks env).kept n) = Λ.thin (env.ancestor n)
  | env, 0 => by rw [Marks.kept_zero, Env.ancestor, Env.ancestor]
  | .root f, n + 1 => by rw [thin, Env.ancestor_root, Env.ancestor_root, thin]
  | .child f outer, n + 1 => by
    have ih := Λ.thin_ancestor outer n
    have hkept : (Λ.marks (.child f outer)).kept (n + 1) =
        (if (Λ.twin f).isNone then 0 else 1) + (Λ.marks outer).kept n := rfl
    rw [hkept, thin]
    cases Λ.twin f with
    | none =>
      rw [Option.isNone_none, if_pos rfl, Nat.zero_add]
      exact ih
    | some f' =>
      rw [Option.isNone_some, if_neg Bool.false_ne_true, Nat.add_comm]
      exact ih

/-- The innermost frame of the other chain is the twin. -/
theorem Knows.frame_thin (h : Λ.Knows env) {f' : FrameId} (htwin : Λ.twin env.frame = some f') :
    (Λ.thin env).frame = f' := by
  cases h with
  | globals =>
    rw [Machine.globals, Env.frame, Λ.twin_zero, Option.some.injEq] at htwin
    exact htwin
  | child _ _ _ =>
    rw [Env.frame] at htwin
    rw [thin, htwin, Env.frame]

/-- The innermost frame, unless it is spare, has the innermost frame of the thinned chain as its
twin. -/
theorem Knows.twin_frame (h : Λ.Knows env) (hkept : Λ.marks env 0 = false) :
    Λ.twin env.frame = some (Λ.thin env).frame := by
  rw [marks_zero, Option.isNone_eq_false_iff] at hkept
  obtain ⟨f', hf'⟩ := Option.isSome_iff_exists.mp hkept
  rw [h.frame_thin hf', hf']

/-- There is nothing spare about the globals. -/
@[simp] theorem marks_globals (Λ : Thinning) : Λ.marks Machine.globals = Marks.none := by
  funext n
  rw [marks, Machine.globals, Env.ancestor_root, Env.frame, Λ.twin_zero]
  rfl

@[simp] theorem thin_globals (Λ : Thinning) : Λ.thin Machine.globals = Machine.globals := rfl

/-! A new frame -/

theorem Knows.push (h : Λ.Knows env) : (Λ.push spare env).Knows (.child Λ.next env) :=
  .child (Nat.lt_succ_self _) (if_pos rfl) (h.mono (Λ.extends_push spare env))

/-- A scope that is entered is marked if its frame is spare. -/
theorem Knows.marks_push (h : Λ.Knows env) :
    (Λ.push spare env).marks (.child Λ.next env) = (Λ.marks env).push spare := by
  funext n
  cases n with
  | zero =>
    show Option.isNone (if Λ.next = Λ.next then (if spare then none else some Λ.next') else _) = _
    rw [if_pos rfl]
    cases spare <;> rfl
  | succ n => exact congrFun (h.marks_eq (Λ.extends_push spare env)) n

/-- A spare frame adds nothing to the thinned chain, and any other its twin. -/
theorem Knows.thin_push (h : Λ.Knows env) :
    (Λ.push spare env).thin (.child Λ.next env) =
      if spare then Λ.thin env else .child Λ.next' (Λ.thin env) := by
  have htwin : (Λ.push spare env).twin Λ.next = if spare then none else some Λ.next' := if_pos rfl
  rw [thin, htwin, h.thin_eq (Λ.extends_push spare env)]
  cases spare <;> rfl

end Thinning

/-! ## Values -/

/-- The declarations are the same, with and without the spare scopes around them. -/
structure Declaration.Thin (marks : Marks) (d d' : Declaration) : Prop where
  id : d'.id = d.id
  name : d'.name = d.name
  params : d'.params = d.params
  body : Stmt.ThinAll (marks.push false) d.body d'.body

/-- Without spare scopes around it a declaration is its own counterpart. -/
theorem Declaration.thin_refl (d : Declaration) : d.Thin Marks.none d where
  id := rfl
  name := rfl
  params := rfl
  body := by
    rw [Marks.push_none]
    exact Stmt.thinAll_refl d.body

/-- The functions are the same, in a frame that is not spare and in its twin. -/
structure Thinning.Closed (Λ : Thinning) (d : Declaration) (env : Env) (d' : Declaration)
    (env' : Env) : Prop where
  known : Λ.Knows env
  kept : Λ.marks env 0 = false
  thin : env' = Λ.thin env
  code : d.Thin (Λ.marks env) d'

/-- Functions that match go on matching. -/
theorem Thinning.Closed.mono {Λ Λ' : Thinning} {d d' : Declaration} {env env' : Env}
    (h : Λ.Closed d env d' env') (hΛ : Λ.Extends Λ') : Λ'.Closed d env d' env' where
  known := h.known.mono hΛ
  kept := by rw [h.known.marks_eq hΛ, h.kept]
  thin := by rw [h.known.thin_eq hΛ, h.thin]
  code := by rw [h.known.marks_eq hΛ]; exact h.code

/-- The same function on one side is the same function on the other: twins differ. -/
theorem Thinning.faithful_closed (Λ : Thinning) : Value.Faithful Λ.Closed where
  looksLike h := ⟨h.code.id, h.code.name, by rw [h.code.params]⟩
  frame_eq_iff {d env d' env' b e b' e'} h h' := by
    have htwin := h.known.twin_frame h.kept
    have htwin' := h'.known.twin_frame h'.kept
    rw [h.thin, h'.thin]
    constructor
    · intro hframe
      rw [hframe] at htwin
      exact Λ.twin_inj h.known.frame_lt h'.known.frame_lt htwin htwin'
    · intro hframe
      rw [hframe, htwin', Option.some.injEq] at htwin
      exact htwin.symm

/-- The values are the same, with and without the spare frames. -/
def Value.Thin (Λ : Thinning) : Value → Value → Prop := Value.Matches Λ.Closed

/-- So do values. -/
theorem Value.Thin.mono {Λ Λ' : Thinning} {v v' : Value} (h : v.Thin Λ v') (hΛ : Λ.Extends Λ') :
    v.Thin Λ' v' :=
  Value.Matches.mono (fun _ _ _ _ hd => hd.mono hΛ) h

/-- The bindings of a frame are the same, with and without the spare frames. -/
inductive Binding.Thin (Λ : Thinning) (f : FrameId) : Binding → Binding → Prop
  | value {v v' : Value} (h : v.Thin Λ v') : Thin Λ f (.value v) (.value v')
  | function {env : Env} {d d' : Declaration} (hframe : env.frame = f) (hknown : Λ.Knows env)
    (h : d.Thin (Λ.marks env) d') : Thin Λ f (.function d) (.function d')

/-- So do bindings. -/
theorem Binding.Thin.mono {Λ Λ' : Thinning} {f : FrameId} {b b' : Binding} (h : b.Thin Λ f b')
    (hΛ : Λ.Extends Λ') : b.Thin Λ' f b' := by
  cases h with
  | value h => exact .value (h.mono hΛ)
  | function hframe hknown h =>
    rw [← hknown.marks_eq hΛ] at h
    exact .function hframe (hknown.mono hΛ) h

/-- What is read from a frame and from its twin is the same. -/
theorem Binding.Thin.load {Λ : Thinning} {env : Env} {b b' : Binding}
    (h : b.Thin Λ env.frame b') (hknown : Λ.Knows env) (hkept : Λ.marks env 0 = false) :
    (b.load env).Thin Λ (b'.load (Λ.thin env)) := by
  cases h with
  | value h => exact h
  | function hframe hknown' h =>
    obtain rfl := Λ.apart hknown' hknown hframe
    exact .closure ⟨hknown, hkept, rfl, h⟩

/-! ## Stores -/

/-- Twins bind the same, and spare frames bind nothing. -/
structure Store.Thin (Λ : Thinning) (s s' : Store) : Prop where
  next : s.next = Λ.next
  next' : s'.next = Λ.next'
  get? : ∀ {f f'}, f < Λ.next → Λ.twin f = some f' → ∀ name,
    Option.Rel (Binding.Thin Λ f) ((s.frame f).get? name) ((s'.frame f').get? name)
  spare : ∀ {f}, f < Λ.next → Λ.twin f = none → s.frame f = []

namespace Store.Thin

variable {Λ : Thinning} {s s' : Store} {env : Env}

/-- A frame is opened in both runs, or in the first one only. A new frame is empty. -/
theorem push (h : s.Thin Λ s') (spare : Bool) (outer : Env) :
    s.push.Thin (Λ.push spare outer) (if spare then s' else s'.push) where
  next := by rw [next_push, h.next]; rfl
  next' := by
    cases spare with
    | true => exact h.next'
    | false => exact (next_push s').trans (congrArg (· + 1) h.next')
  get? {f f'} hf htwin name := by
    have hΛ := Λ.extends_push spare outer
    have hframe : ∀ g, (if spare then s' else s'.push).frame g = s'.frame g := by
      intro g
      cases spare with
      | true => rfl
      | false => exact frame_push s' g
    rw [frame_push, hframe]
    by_cases hlt : f < Λ.next
    · rw [hΛ.twin f hlt] at htwin
      exact optionRel_imp (h.get? hlt htwin name) fun _ _ hb => hb.mono hΛ
    · have heq : f = Λ.next := Nat.le_antisymm (Nat.le_of_lt_succ hf) (Nat.le_of_not_lt hlt)
      rw [heq, show (Λ.push spare outer).twin Λ.next = _ from if_pos rfl] at htwin
      cases spare with
      | true => cases htwin
      | false =>
        cases htwin
        rw [heq, frame_of_le (Nat.le_of_eq h.next), frame_of_le (Nat.le_of_eq h.next')]
        exact .none
  spare {f} hf htwin := by
    rw [frame_push]
    by_cases hlt : f < Λ.next
    · rw [(Λ.extends_push spare outer).twin f hlt] at htwin
      exact h.spare hlt htwin
    · exact frame_of_le (Nat.le_trans (Nat.le_of_eq h.next) (Nat.le_of_not_lt hlt))

/-- Binding a name in a frame and in its twin. -/
theorem bind (h : s.Thin Λ s') {f f' : FrameId} (hf : f < Λ.next) (htwin : Λ.twin f = some f')
    (name : String) {b b' : Binding} (hb : b.Thin Λ f b') :
    (s.bind f name b).Thin Λ (s'.bind f' name b') where
  next := by rw [next_bind, h.next]
  next' := by rw [next_bind, h.next']
  get? {g g'} hg hgtwin other := by
    have hf' := Λ.twin_lt hf htwin
    rw [get?_frame_bind (h.next ▸ hf), get?_frame_bind (h.next' ▸ hf')]
    have hiff : g' = f' ↔ g = f := by
      constructor
      · rintro rfl
        exact Λ.twin_inj hg hf hgtwin htwin
      · rintro rfl
        rw [htwin, Option.some.injEq] at hgtwin
        exact hgtwin.symm
    simp only [hiff]
    split
    · next hc =>
      rw [hc.1]
      exact .some hb
    · exact h.get? hg hgtwin other
  spare {g} hg hgtwin := by
    have hne : g ≠ f := by
      rintro rfl
      rw [htwin] at hgtwin
      cases hgtwin
    rw [frame_bind_of_ne hne]
    exact h.spare hg hgtwin

/-- A definition in a frame that is not spare is made in its twin as well. -/
theorem define (h : s.Thin Λ s') (hknown : Λ.Knows env) (hkept : Λ.marks env 0 = false)
    (name : String) {v v' : Value} (hv : v.Thin Λ v') :
    (s.define env name v).Thin Λ (s'.define (Λ.thin env) name v') :=
  h.bind hknown.frame_lt (hknown.twin_frame hkept) name (.value hv)

/-- So is a declaration. -/
theorem declare (h : s.Thin Λ s') (hknown : Λ.Knows env) (hkept : Λ.marks env 0 = false)
    {d d' : Declaration} (hd : d.Thin (Λ.marks env) d') :
    (s.declare env d).Thin Λ (s'.declare (Λ.thin env) d') := by
  rw [Store.declare, Store.declare, hd.name]
  exact h.bind hknown.frame_lt (hknown.twin_frame hkept) _ (.function rfl hknown hd)

/-- Twins bind the same names. -/
theorem binds_eq (h : s.Thin Λ s') (hknown : Λ.Knows env) (hkept : Λ.marks env 0 = false)
    (name : String) : s'.binds (Λ.thin env).frame name = s.binds env.frame name :=
  optionRel_isSome (h.get? hknown.frame_lt (hknown.twin_frame hkept) name)

/-- What is read in a frame that is not spare matches what is read in its twin. -/
theorem read? (h : s.Thin Λ s') (hknown : Λ.Knows env) (hkept : Λ.marks env 0 = false)
    (name : String) :
    Option.Rel (Value.Thin Λ) (s.read? env name) (s'.read? (Λ.thin env) name) :=
  optionRel_map (h.get? hknown.frame_lt (hknown.twin_frame hkept) name)
    fun _ _ hb => hb.load hknown hkept

/-- Globals are the same. -/
theorem lookup?_globals (h : s.Thin Λ s') (name : String) :
    Option.Rel (Value.Thin Λ) (s.lookup? Machine.globals name)
      (s'.lookup? Machine.globals name) := by
  have hkept : Λ.marks Machine.globals 0 = false := by rw [Λ.marks_globals]; rfl
  have hbinds := h.binds_eq .globals hkept name
  have hread := h.read? .globals hkept name
  rw [Λ.thin_globals] at hbinds hread
  simp only [Machine.globals, Env.frame] at hbinds
  simp only [Machine.globals, lookup?, holder?, hbinds]
  split
  · exact hread
  · exact .none

end Store.Thin

/-! ## Without spare frames -/

namespace Thinning

/-- Every frame is its own twin. -/
def plain (births : List Machine.Birth) : Thinning where
  next := births.length + 1
  next' := births.length + 1
  twin := some
  chain
    | 0 => Machine.globals
    | i + 1 => (births[i]?).elim Machine.globals fun birth => .child (i + 1) birth.outer
  next_pos := Nat.succ_pos _
  chain_zero := rfl
  twin_zero := rfl
  twin_lt hf h := by
    cases h
    exact hf
  twin_inj _ _ h h' := by
    cases h
    cases h'
    rfl

variable (births : List Machine.Birth)

/-- Where every frame is its own twin, chains stay as they are. -/
@[simp] theorem plain_thin (env : Env) : (plain births).thin env = env := by
  induction env with
  | root f => rfl
  | child f outer ih => exact congrArg (Env.child f) ih

end Thinning

section

variable {births : List Machine.Birth}

/-- Every chain of frames that were opened is known. -/
theorem Machine.Born.knows_plain {env : Env} (h : Machine.Born births env) :
    (Thinning.plain births).Knows env := by
  induction h with
  | globals => exact .globals
  | @child i opener outer hbirth _ ih =>
    obtain ⟨hlt, -⟩ := List.getElem?_eq_some_iff.mp hbirth
    refine .child (Nat.succ_lt_succ hlt) ?_ ih
    show (births[i]?).elim Machine.globals _ = _
    rw [hbirth]
    rfl

/-- A value that refers to opened frames only matches itself. -/
theorem Machine.Ground.Valid.thin_plain {g : Machine.Ground} {v : Value} (h : g.Valid v) :
    v.Thin (Thinning.plain g.births) v := by
  cases v with
  | closure d env =>
    obtain ⟨levels, hfits, -⟩ := h
    have hthin := (Thinning.plain_thin g.births env).symm
    exact .closure ⟨hfits.born.knows_plain, rfl, hthin, d.thin_refl⟩
  | native f => exact .native f
  | nil => exact .nil
  | boolean b => exact .boolean b
  | number x => exact .number x
  | string s => exact .string s

/-- A sound store beside itself. -/
theorem Machine.Ground.Sound.thin_plain {g : Machine.Ground} (h : g.Sound) :
    g.store.Thin (Thinning.plain g.births) g.store where
  next := h.next
  next' := h.next
  get? {f f'} _ htwin name := by
    cases htwin
    cases hb : (g.store.frame f).get? name with
    | none => exact .none
    | some b =>
      obtain ⟨env, hframe, hvalid⟩ := h.binding f name b hb
      refine .some ?_
      cases b with
      | value v => exact .value hvalid.thin_plain
      | function d =>
        obtain ⟨levels, hfits, -⟩ := hvalid
        exact .function hframe hfits.born.knows_plain d.thin_refl
  spare _ htwin := by cases htwin

end

end Nya
