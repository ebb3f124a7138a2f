import Nya.Proofs.Env.Matches
import Nya.Proofs.Machine.Ground
import Nya.Proofs.Scope.Alpha

/-!
# Stores that differ in the names of locals

Two runs of programs that differ in the names of locals go through the same frames in the same
order. A *layout* says of each frame whether two names are exchanged in it, and which chain of
frames it is the innermost frame of.

Two stores are alike if each frame of the one has, under the name that stands for a name there, what
the frame of the other has under the name itself. A layout only grows, and what is alike stays so.

* `Layout.Closed` for functions, and the values that match by it
* `Store.Alike` for stores, with a lemma for each operation
-/

namespace Nya

/-! ## Layouts -/

/--
What is known of the frames so far: whether two names are exchanged in a frame, and the chain that
the frame is the innermost one of. In the frame of the globals every name stays.
-/
structure Layout where
  next : FrameId
  mark : FrameId → Bool
  chain : FrameId → Env
  next_pos : 0 < next
  mark_zero : mark 0 = false
  chain_zero : chain 0 = Machine.globals

namespace Layout

/-- The marks of the scopes that the frames of an environment belong to. -/
def marks (Λ : Layout) (env : Env) : Marks := fun n => Λ.mark (env.ancestor n).frame

/-- The layout knows all frames of the environment, each as the innermost one of its rest. -/
def Knows (Λ : Layout) (env : Env) : Prop :=
  ∀ n, (env.ancestor n).frame < Λ.next ∧ Λ.chain (env.ancestor n).frame = env.ancestor n

/-- The layout after a new frame was opened inside of an environment. -/
def push (Λ : Layout) (marked : Bool) (outer : Env) : Layout where
  next := Λ.next + 1
  mark f := if f = Λ.next then marked else Λ.mark f
  chain f := if f = Λ.next then .child f outer else Λ.chain f
  next_pos := Nat.succ_pos _
  mark_zero := by rw [if_neg (Nat.ne_of_lt Λ.next_pos), Λ.mark_zero]
  chain_zero := by rw [if_neg (Nat.ne_of_lt Λ.next_pos), Λ.chain_zero]

/-- The second layout knows what the first one knows. -/
structure Extends (Λ Λ' : Layout) : Prop where
  next : Λ.next ≤ Λ'.next
  mark : ∀ f < Λ.next, Λ'.mark f = Λ.mark f
  chain : ∀ f < Λ.next, Λ'.chain f = Λ.chain f

variable {Λ Λ' Λ'' : Layout} {env : Env} {marked : Bool}

theorem Extends.refl (Λ : Layout) : Λ.Extends Λ :=
  ⟨Nat.le_refl _, fun _ _ => rfl, fun _ _ => rfl⟩

theorem Extends.trans (h : Λ.Extends Λ') (h' : Λ'.Extends Λ'') : Λ.Extends Λ'' where
  next := Nat.le_trans h.next h'.next
  mark f hf := by rw [h'.mark f (Nat.lt_of_lt_of_le hf h.next), h.mark f hf]
  chain f hf := by rw [h'.chain f (Nat.lt_of_lt_of_le hf h.next), h.chain f hf]

/-- A new frame leaves what is known of the others as it was. -/
theorem extends_push (Λ : Layout) (marked : Bool) (outer : Env) :
    Λ.Extends (Λ.push marked outer) where
  next := Nat.le_succ _
  mark _ hf := if_neg (Nat.ne_of_lt hf)
  chain _ hf := if_neg (Nat.ne_of_lt hf)

/-- An environment that is known stays so. -/
theorem Knows.mono (h : Λ.Knows env) (hΛ : Λ.Extends Λ') : Λ'.Knows env := by
  intro n
  obtain ⟨hlt, hchain⟩ := h n
  exact ⟨Nat.lt_of_lt_of_le hlt hΛ.next, by rw [hΛ.chain _ hlt, hchain]⟩

/-- Its marks stay the same. -/
theorem Knows.marks_eq (h : Λ.Knows env) (hΛ : Λ.Extends Λ') : Λ'.marks env = Λ.marks env :=
  funext fun n => hΛ.mark _ (h n).1

/-- The frames of a known environment have been opened. -/
theorem Knows.frame_lt (h : Λ.Knows env) : env.frame < Λ.next := by
  have h0 := (h 0).1
  rwa [Env.ancestor] at h0

/-- A known environment is found by its innermost frame. -/
theorem Knows.chain_eq (h : Λ.Knows env) : Λ.chain env.frame = env := by
  have h0 := (h 0).2
  rwa [Env.ancestor] at h0

/-- Two environments that are known and have the same innermost frame are the same. -/
theorem Knows.eq_of_frame {env' : Env} (h : Λ.Knows env) (h' : Λ.Knows env')
    (hframe : env.frame = env'.frame) : env = env' := by
  rw [← h.chain_eq, hframe, h'.chain_eq]

/-- The environments further out are known, too. -/
theorem Knows.ancestor (h : Λ.Knows env) (n : Nat) : Λ.Knows (env.ancestor n) := by
  intro k
  rw [Env.ancestor_ancestor]
  exact h (n + k)

theorem marks_zero (Λ : Layout) (env : Env) : Λ.marks env 0 = Λ.mark env.frame := by
  rw [marks, Env.ancestor]

theorem knows_globals (Λ : Layout) : Λ.Knows Machine.globals := by
  intro n
  rw [Machine.globals, Env.ancestor_root]
  exact ⟨Λ.next_pos, Λ.chain_zero⟩

/-- No name is exchanged among the globals. -/
@[simp] theorem marks_globals (Λ : Layout) : Λ.marks Machine.globals = Marks.none := by
  funext n
  rw [marks, Machine.globals, Env.ancestor_root]
  exact Λ.mark_zero

theorem Knows.push (h : Λ.Knows env) : (Λ.push marked env).Knows (.child Λ.next env) := by
  intro n
  cases n with
  | zero => exact ⟨Nat.lt_succ_self _, if_pos rfl⟩
  | succ n => exact h.mono (Λ.extends_push marked env) n

/-- The mark of a new frame stands before those of the environment around it. -/
theorem Knows.marks_push (h : Λ.Knows env) :
    (Λ.push marked env).marks (.child Λ.next env) = (Λ.marks env).push marked := by
  funext n
  cases n with
  | zero => exact if_pos rfl
  | succ n => exact congrFun (h.marks_eq (Λ.extends_push marked env)) n

end Layout

/-! ## Values, bindings and stores -/

/-- The declarations are the same up to names of locals, one of them perhaps a parameter. -/
structure Declaration.Alpha (ρ : Swap) (marks : Marks) (d d' : Declaration) : Prop where
  id : d'.id = d.id
  name : d'.name = d.name
  inner : ∃ marked, d'.params = d.params.map (Token.swapped ρ marked) ∧
    Stmt.AlphaAll ρ (marks.push marked) d.body d'.body

/-- Where no scope is marked, a declaration is its own counterpart. -/
theorem Declaration.Alpha.refl (ρ : Swap) (d : Declaration) : d.Alpha ρ Marks.none d where
  id := rfl
  name := rfl
  inner := ⟨false, (Token.map_swapped_false ρ d.params).symm,
    by simpa using Stmt.AlphaAll.refl ρ d.body⟩

/-- A renamed function has the same name and as many parameters. -/
theorem Declaration.Alpha.looksLike {ρ : Swap} {marks : Marks} {d d' : Declaration}
    (h : d.Alpha ρ marks d') : d.LooksLike d' where
  id := h.id
  name := h.name
  arity := by
    obtain ⟨marked, hparams, -⟩ := h.inner
    rw [hparams, List.length_map]

/-- The functions are the same up to names of locals, in one environment that is known. -/
structure Layout.Closed (Λ : Layout) (ρ : Swap) (d : Declaration) (env : Env) (d' : Declaration)
    (env' : Env) : Prop where
  env_eq : env' = env
  known : Λ.Knows env
  alpha : d.Alpha ρ (Λ.marks env) d'

/-- Functions that match go on matching. -/
theorem Layout.Closed.mono {Λ Λ' : Layout} {ρ : Swap} {d d' : Declaration} {env env' : Env}
    (h : Λ.Closed ρ d env d' env') (hΛ : Λ.Extends Λ') : Λ'.Closed ρ d env d' env' where
  env_eq := h.env_eq
  known := h.known.mono hΛ
  alpha := by rw [h.known.marks_eq hΛ]; exact h.alpha

/-- Values that match are written alike and are equal to the same values. -/
theorem Layout.faithful_closed (Λ : Layout) (ρ : Swap) : Value.Faithful (Λ.Closed ρ) where
  looksLike h := h.alpha.looksLike
  frame_eq_iff h h' := by rw [h.env_eq, h'.env_eq]

/-- The values are the same up to names of locals. -/
def Value.Alike (ρ : Swap) (Λ : Layout) : Value → Value → Prop := Value.Matches (Λ.Closed ρ)

/-- Like values stay alike. -/
theorem Value.Alike.mono {ρ : Swap} {Λ Λ' : Layout} {v v' : Value} (h : v.Alike ρ Λ v')
    (hΛ : Λ.Extends Λ') : v.Alike ρ Λ' v' :=
  Value.Matches.mono (fun _ _ _ _ hd => hd.mono hΛ) h

/-- The bindings of a frame are the same up to names of locals. -/
inductive Binding.Alike (ρ : Swap) (Λ : Layout) (id : FrameId) : Binding → Binding → Prop
  | value {v v' : Value} (h : v.Alike ρ Λ v') : Alike ρ Λ id (.value v) (.value v')
  | function {env : Env} {d d' : Declaration} (hframe : env.frame = id)
    (h : Λ.Closed ρ d env d' env) : Alike ρ Λ id (.function d) (.function d')

namespace Binding.Alike

variable {ρ : Swap} {Λ Λ' : Layout} {id : FrameId} {b b' : Binding}

theorem mono (h : b.Alike ρ Λ id b') (hΛ : Λ.Extends Λ') : b.Alike ρ Λ' id b' := by
  cases h with
  | value h => exact .value (h.mono hΛ)
  | function hframe h => exact .function hframe (h.mono hΛ)

/-- What is read from a frame along a chain is alike. -/
theorem load {env : Env} (h : b.Alike ρ Λ env.frame b') (hknown : Λ.Knows env) :
    (b.load env).Alike ρ Λ (b'.load env) := by
  cases h with
  | value h => exact h
  | function hframe h =>
    obtain rfl := h.known.eq_of_frame hknown hframe
    exact .closure h

end Binding.Alike

/-- The stores have the same frames, up to names of locals. -/
structure Store.Alike (ρ : Swap) (Λ : Layout) (s s' : Store) : Prop where
  next : s.next = Λ.next
  next' : s'.next = Λ.next
  get? : ∀ id name, Option.Rel (Binding.Alike ρ Λ id) ((s.frame id).get? name)
    ((s'.frame id).get? (ρ.apply (Λ.mark id) name))

namespace Store.Alike

variable {ρ : Swap} {Λ : Layout} {s s' : Store} {env : Env}

/-- A new frame is empty, whether it is marked or not. -/
theorem push (h : s.Alike ρ Λ s') (marked : Bool) (outer : Env) :
    s.push.Alike ρ (Λ.push marked outer) s'.push where
  next := by rw [next_push, h.next]; rfl
  next' := by rw [next_push, h.next']; rfl
  get? id name := by
    rw [frame_push, frame_push]
    have hΛ := Λ.extends_push marked outer
    by_cases hid : id < Λ.next
    · rw [hΛ.mark id hid]
      exact optionRel_imp (h.get? id name) fun _ _ hb => hb.mono hΛ
    · have hle := Nat.le_of_not_lt hid
      rw [frame_of_le (Nat.le_trans (Nat.le_of_eq h.next) hle),
        frame_of_le (Nat.le_trans (Nat.le_of_eq h.next') hle)]
      exact .none

/-- Binding a name here and the name that stands for it there. -/
theorem bind (h : s.Alike ρ Λ s') {id : FrameId} (hid : id < Λ.next) (name : String)
    {b b' : Binding} (hb : b.Alike ρ Λ id b') :
    (s.bind id name b).Alike ρ Λ (s'.bind id (ρ.apply (Λ.mark id) name) b') where
  next := by rw [next_bind, h.next]
  next' := by rw [next_bind, h.next']
  get? f other := by
    rw [get?_frame_bind (h.next ▸ hid), get?_frame_bind (h.next' ▸ hid)]
    by_cases hf : f = id
    · subst hf
      by_cases hother : other = name
      · subst hother
        rw [if_pos ⟨rfl, rfl⟩, if_pos ⟨rfl, rfl⟩]
        exact .some hb
      · -- names that differ stand for names that differ
        rw [if_neg fun hc => hother hc.2, if_neg fun hc => hother (ρ.apply_inj.mp hc.2)]
        exact h.get? f other
    · rw [if_neg fun hc => hf hc.1, if_neg fun hc => hf hc.1]
      exact h.get? f other

/-- A definition under a name is one under the name that stands for it. -/
theorem define (h : s.Alike ρ Λ s') (hknown : Λ.Knows env) (name : String) {v v' : Value}
    (hv : v.Alike ρ Λ v') :
    (s.define env name v).Alike ρ Λ (s'.define env (ρ.apply (Λ.mark env.frame) name) v') :=
  h.bind hknown.frame_lt name (.value hv)

/-- So is a declaration, if its name is not renamed. -/
theorem declare (h : s.Alike ρ Λ s') {d d' : Declaration} (hd : Λ.Closed ρ d env d' env)
    (hname : ρ.apply (Λ.mark env.frame) d.name.lexeme = d.name.lexeme) :
    (s.declare env d).Alike ρ Λ (s'.declare env d') := by
  have hbind := h.bind hd.known.frame_lt d.name.lexeme (.function rfl hd)
  rw [hname] at hbind
  rwa [Store.declare, Store.declare, hd.alpha.name]

/-- A frame binds a name just if the other one binds what stands for it. -/
theorem binds_eq (h : s.Alike ρ Λ s') (id : FrameId) (name : String) :
    s'.binds id (ρ.apply (Λ.mark id) name) = s.binds id name :=
  optionRel_isSome (h.get? id name)

/-- What is read of a name is alike to what is read of the name that stands for it. -/
theorem read? (h : s.Alike ρ Λ s') (hknown : Λ.Knows env) (name : String) :
    Option.Rel (Value.Alike ρ Λ) (s.read? env name)
      (s'.read? env (ρ.apply (Λ.mark env.frame) name)) :=
  optionRel_map (h.get? env.frame name) fun _ _ hb => hb.load hknown

/-- Globals go by the same name. -/
theorem lookup?_globals (h : s.Alike ρ Λ s') (name : String) :
    Option.Rel (Value.Alike ρ Λ) (s.lookup? Machine.globals name)
      (s'.lookup? Machine.globals name) := by
  have hbinds := h.binds_eq 0 name
  have hread := h.read? Λ.knows_globals name
  simp only [Machine.globals, Env.frame, Λ.mark_zero, Swap.apply_false] at hbinds hread
  simp only [Machine.globals, lookup?, holder?, hbinds]
  split
  · exact hread
  · exact .none

end Store.Alike

/-! ## Forgetting the marks -/

/-- The layout with no frame marked. -/
def Layout.clear (Λ : Layout) : Layout := { Λ with mark := fun _ => false, mark_zero := rfl }

section

variable {ρ : Swap} {Λ : Layout}

/-- A value that is alike to some other is alike to itself, with no frame marked. -/
theorem Value.Alike.clear {v v' : Value} (h : v.Alike ρ Λ v') (ρ' : Swap) :
    v.Alike ρ' Λ.clear v := by
  cases h with
  | closure h => exact .closure ⟨rfl, h.known, .refl ρ' _⟩
  | _ => constructor

/-- So is a binding. -/
theorem Binding.Alike.clear {id : FrameId} {b b' : Binding} (h : b.Alike ρ Λ id b') (ρ' : Swap) :
    b.Alike ρ' Λ.clear id b := by
  cases h with
  | value h => exact .value (h.clear ρ')
  | function hframe h => exact .function hframe ⟨rfl, h.known, .refl ρ' _⟩

/-- A store that is like another is like itself, with no name exchanged. -/
theorem Store.Alike.clear {s s' : Store} (h : s.Alike ρ Λ s') (ρ' : Swap) :
    s.Alike ρ' Λ.clear s where
  next := h.next
  next' := h.next
  get? id name := optionRel_left (h.get? id name) fun _ _ hb => hb.clear ρ'

end

end Nya
