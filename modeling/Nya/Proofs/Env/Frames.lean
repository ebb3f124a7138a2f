import Nya.Env.Store

/-!
# Frames and chains

What the operations on a store do to the bindings of its frames, and how a name is found along a
chain: a frame *holds* a name for an environment if it is the first one on the chain that binds it.

* `Store.get?_frame_bind` for the bindings after a name was bound
* `Store.Holds`, and `Store.holder?_eq_some_iff` for the search along a chain
-/

namespace Nya

/-! ## Binding names in a store -/

namespace Store

theorem frame_bind_of_le {s : Store} {id : FrameId} (h : s.next ≤ id) (name : String)
    (b : Binding) (f : FrameId) : (s.bind id name b).frame f = s.frame f := by
  by_cases hf : f = id
  · subst hf
    have h1 : ¬ f < s.frames.size := Nat.not_lt.mpr h
    simp [frame, bind, h1]
  · exact frame_bind_of_ne hf name b

/-- What is bound after a name was bound. -/
theorem get?_frame_bind {s : Store} {id : FrameId} (h : id < s.next) (name : String) (b : Binding)
    (f : FrameId) (other : String) :
    ((s.bind id name b).frame f).get? other =
      if f = id ∧ other = name then some b else (s.frame f).get? other := by
  by_cases hf : f = id
  · subst hf
    rw [frame_bind_self h]
    by_cases ho : other = name
    · subst ho
      simp
    · rw [Frame.get?_set_of_ne ho, if_neg (fun hc => ho hc.2)]
  · rw [frame_bind_of_ne hf, if_neg (fun hc => hf hc.1)]

theorem binds_bind_self {s : Store} {id : FrameId} (h : id < s.next) (name : String)
    (b : Binding) : (s.bind id name b).binds id name = true := by
  simp [binds, get?_frame_bind h]

/-- Binding a name unbinds none. -/
theorem binds_bind_of_binds {s : Store} {f : FrameId} {other : String}
    (h : s.binds f other = true) (id : FrameId) (name : String) (b : Binding) :
    (s.bind id name b).binds f other = true := by
  by_cases hid : id < s.next
  · rw [binds, get?_frame_bind hid]
    split
    · rfl
    · exact h
  · rw [binds, frame_bind_of_le (Nat.not_lt.mp hid)]
    exact h

/-- Binding a name that is bound adds no name to any frame. -/
theorem binds_bind_eq {s : Store} {id : FrameId} {name : String} (h : s.binds id name = true)
    (b : Binding) (f : FrameId) (other : String) :
    (s.bind id name b).binds f other = s.binds f other := by
  by_cases hid : id < s.next
  · rw [binds, get?_frame_bind hid]
    split
    · next hc => rw [hc.1, hc.2, h]; rfl
    · rfl
  · rw [binds, frame_bind_of_le (Nat.not_lt.mp hid)]
    rfl

/-- Binding a name adds no other name. -/
theorem binds_bind_of_ne {s : Store} {name other : String} (h : other ≠ name) (id : FrameId)
    (b : Binding) (f : FrameId) : (s.bind id name b).binds f other = s.binds f other := by
  by_cases hid : id < s.next
  · rw [binds, get?_frame_bind hid, if_neg (fun hc => h hc.2)]
    rfl
  · rw [binds, frame_bind_of_le (Nat.not_lt.mp hid)]
    rfl

/-- A frame that was not opened yet is empty. -/
theorem frame_of_le {s : Store} {id : FrameId} (h : s.next ≤ id) : s.frame id = [] := by
  have hsize : s.frames.size ≤ id := h
  simp [frame, hsize]

end Store

/-! ## Chains -/

theorem Env.ancestor_ancestor : ∀ (env : Env) (n k : Nat),
    (env.ancestor n).ancestor k = env.ancestor (n + k)
  | env, 0, k => by rw [Env.ancestor, Nat.zero_add]
  | .root f, n + 1, k => by
    rw [Nat.add_right_comm]
    cases k <;> rfl
  | .child f outer, n + 1, k => by
    rw [Nat.add_right_comm]
    exact Env.ancestor_ancestor outer n k

theorem Env.ancestor_root (f : FrameId) (n : Nat) : (Env.root f).ancestor n = .root f := by
  cases n <;> rfl

/-- No two of the chains start with the same frame. -/
def Env.Apart (known : Env → Prop) : Prop :=
  ∀ {env env' : Env}, known env → known env' → env.frame = env'.frame → env = env'

/-! ## Searching a chain -/

namespace Store

variable {s : Store} {name : String} {env holder : Env}

/-- The holder lies on the chain and binds the name, and no frame before it does. -/
def Holds (s : Store) (name : String) (env holder : Env) : Prop :=
  ∃ hops, env.ancestor hops = holder ∧ s.binds holder.frame name = true ∧
    ∀ fewer < hops, s.binds (env.ancestor fewer).frame name = false

theorem Holds.binds (h : s.Holds name env holder) : s.binds holder.frame name = true := by
  obtain ⟨-, -, hbinds, -⟩ := h
  exact hbinds

theorem Holds.here (h : s.binds env.frame name = true) : s.Holds name env env :=
  ⟨0, Env.ancestor.eq_1 env, h, fun fewer hfewer => absurd hfewer (Nat.not_lt_zero fewer)⟩

/-- What holds a name for a frame that does not bind it holds it for the frame around. -/
theorem holds_child_iff {f : FrameId} {outer : Env} (h : s.binds f name = false) :
    s.Holds name (.child f outer) holder ↔ s.Holds name outer holder := by
  constructor
  · rintro ⟨hops, rfl, hbinds, hfirst⟩
    cases hops with
    | zero => exact absurd hbinds (by rw [Env.ancestor, Env.frame, h]; exact Bool.false_ne_true)
    | succ hops =>
      exact ⟨hops, rfl, hbinds, fun fewer hfewer => hfirst (fewer + 1) (Nat.succ_lt_succ hfewer)⟩
  · rintro ⟨hops, rfl, hbinds, hfirst⟩
    refine ⟨hops + 1, rfl, hbinds, ?_⟩
    intro fewer hfewer
    cases fewer with
    | zero => exact h
    | succ fewer => exact hfirst fewer (Nat.lt_of_succ_lt_succ hfewer)

/-- Only the frame itself can hold a name that it binds. -/
theorem Holds.eq_of_binds (h : s.Holds name env holder) (hbinds : s.binds env.frame name = true) :
    holder = env := by
  obtain ⟨hops, rfl, -, hfirst⟩ := h
  cases hops with
  | zero => rw [Env.ancestor]
  | succ hops =>
    have hnone := hfirst 0 (Nat.succ_pos hops)
    rw [Env.ancestor, hbinds] at hnone
    cases hnone

/-- **The search finds what holds the name.** -/
theorem holder?_eq_some_iff : s.holder? name env = some holder ↔ s.Holds name env holder := by
  induction env with
  | root f =>
    rw [holder?]
    cases hbinds : s.binds f name with
    | true =>
      rw [if_pos rfl, Option.some.injEq]
      exact ⟨fun h => h ▸ .here hbinds, fun h => (h.eq_of_binds hbinds).symm⟩
    | false =>
      simp only [Bool.false_eq_true, if_false, reduceCtorEq, false_iff]
      rintro ⟨hops, rfl, hholds, -⟩
      rw [Env.ancestor_root, Env.frame, hbinds] at hholds
      cases hholds
  | child f outer ih =>
    rw [holder?]
    cases hbinds : s.binds f name with
    | true =>
      rw [if_pos rfl, Option.some.injEq]
      exact ⟨fun h => h ▸ .here hbinds, fun h => (h.eq_of_binds hbinds).symm⟩
    | false =>
      simp only [Bool.false_eq_true, if_false]
      rw [ih, holds_child_iff hbinds]

/-- The frame that binds a name has a value for it. -/
theorem isSome_read? (env : Env) (name : String) :
    (s.read? env name).isSome = s.binds env.frame name := by
  rw [read?, Option.isSome_map, binds]

theorem Holds.lookup?_eq (h : s.Holds name env holder) :
    s.lookup? env name = s.read? holder name := by
  rw [lookup?, holder?_eq_some_iff.mpr h, Option.bind_some]

/-- A value is found just where something holds the name. -/
theorem isSome_lookup? :
    (s.lookup? env name).isSome = true ↔ ∃ holder, s.Holds name env holder := by
  constructor
  · intro h
    obtain ⟨v, hv⟩ := Option.isSome_iff_exists.mp h
    obtain ⟨holder, hholder, -⟩ := Option.bind_eq_some_iff.mp hv
    exact ⟨holder, holder?_eq_some_iff.mp hholder⟩
  · rintro ⟨holder, h⟩
    rw [h.lookup?_eq, isSome_read?, h.binds]

/-! ## Assigning along a chain -/

variable {other : String} {v : Value}

theorem Holds.assign?_eq (h : s.Holds name env holder) (v : Value) :
    s.assign? env name v = some (s.define holder name v) := by
  rw [assign?, holder?_eq_some_iff.mpr h, Option.map_some]

/-- An assignment succeeds just where something holds the name. -/
theorem isSome_assign? :
    (s.assign? env name v).isSome = true ↔ ∃ holder, s.Holds name env holder := by
  rw [assign?, Option.isSome_map, Option.isSome_iff_exists]
  simp only [holder?_eq_some_iff]

theorem binds_of_holderAt? {distance : Nat} (h : s.holderAt? name distance env = some holder) :
    s.binds holder.frame name = true := by
  unfold holderAt? at h
  split at h
  · next hbinds =>
    cases h
    exact hbinds
  · cases h

/-- At the distance of the holder both ways of reading agree, and both ways of writing. -/
theorem Holds.at_distance (h : s.Holds name env holder) {distance : Nat}
    (hdistance : env.ancestor distance = holder) :
    s.readAt? env distance name = s.lookup? env name ∧
      ∀ v, s.writeAt? env distance name v = s.assign? env name v := by
  constructor
  · rw [readAt?, hdistance, h.lookup?_eq]
  · intro v
    rw [writeAt?, holderAt?, hdistance, if_pos h.binds, h.assign?_eq, Option.map_some]

/-- Overwriting a name moves no holder. -/
theorem holds_define_iff (hbinds : s.binds holder.frame name = true) (v : Value) {env' : Env} :
    (s.define holder name v).Holds other env env' ↔ s.Holds other env env' := by
  simp only [Holds, define, binds_bind_eq hbinds]

theorem read?_define_self (h : holder.frame < s.next) (v : Value) :
    (s.define holder name v).read? holder name = some v := by
  rw [read?, define, get?_frame_bind h, if_pos ⟨rfl, rfl⟩]
  rfl

theorem read?_define_of_ne (h : holder.frame < s.next)
    (hne : ¬ (env.frame = holder.frame ∧ other = name)) (v : Value) :
    (s.define holder name v).read? env other = s.read? env other := by
  rw [read?, define, get?_frame_bind h, if_neg hne]
  rfl

/-- After an assignment the name has the new value wherever it has the same holder. -/
theorem lookup?_define_of_holds {t : Env} (h : holder.frame < s.next)
    (hholds : s.Holds name t holder) (v : Value) :
    (s.define holder name v).lookup? t name = some v := by
  rw [((holds_define_iff hholds.binds v).mpr hholds).lookup?_eq, read?_define_self h]

/-- Elsewhere, and for all other names, an assignment is not seen. -/
theorem lookup?_define_of_not_holds {t : Env} (h : holder.frame < s.next)
    (hbinds : s.binds holder.frame name = true)
    (hother : ∀ holder', s.Holds other t holder' →
      ¬ (holder'.frame = holder.frame ∧ other = name)) (v : Value) :
    (s.define holder name v).lookup? t other = s.lookup? t other := by
  cases hfound : s.holder? other t with
  | some holder' =>
    have hholds := holder?_eq_some_iff.mp hfound
    rw [hholds.lookup?_eq, ((holds_define_iff hbinds v).mpr hholds).lookup?_eq,
      read?_define_of_ne h (hother holder' hholds)]
  | none =>
    have hnone : (s.define holder name v).holder? other t = none := by
      rw [Option.eq_none_iff_forall_ne_some] at hfound ⊢
      intro holder' hholds
      rw [holder?_eq_some_iff, holds_define_iff hbinds] at hholds
      exact hfound holder' (holder?_eq_some_iff.mpr hholds)
    rw [lookup?, lookup?, hfound, hnone]
    rfl

end Store

/-! ## Options that are related -/

theorem optionRel_isSome {α β : Type} {r : α → β → Prop} {a : Option α} {b : Option β}
    (h : Option.Rel r a b) : b.isSome = a.isSome := by
  cases h <;> rfl

theorem optionRel_imp {α β : Type} {r r' : α → β → Prop} {a : Option α} {b : Option β}
    (h : Option.Rel r a b) (hr : ∀ x y, r x y → r' x y) : Option.Rel r' a b := by
  cases h with
  | some h => exact .some (hr _ _ h)
  | none => exact .none

theorem optionRel_map {α β γ δ : Type} {r : α → β → Prop} {r' : γ → δ → Prop} {f : α → γ}
    {g : β → δ} {a : Option α} {b : Option β} (h : Option.Rel r a b)
    (hr : ∀ x y, r x y → r' (f x) (g y)) : Option.Rel r' (a.map f) (b.map g) := by
  cases h with
  | some h => exact .some (hr _ _ h)
  | none => exact .none

theorem optionRel_left {α β : Type} {r : α → β → Prop} {r' : α → α → Prop} {a : Option α}
    {b : Option β} (h : Option.Rel r a b) (hr : ∀ x y, r x y → r' x x) : Option.Rel r' a a := by
  cases h with
  | some h => exact .some (hr _ _ h)
  | none => exact .none

end Nya
