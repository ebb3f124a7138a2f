import Nya.Proofs.Parse.Acceptance
import Nya.Proofs.Parse.Assembled
import Nya.Proofs.Relabel.Parse

/-!
# Every list of tokens has an end

With enough fuel a parser comes to an end, and to the same one with more of it. It never looks at
the faults that were recorded before and uses the numbers it starts with for nothing but new
numbers. So `Ends` is total, and since an end is unique, reading may be followed by ends alone.
-/

namespace Nya.Parse

open Grammar

variable {α β : Type} {ts us rest : List Token} {e : End}

/-- What an outcome leaves, with the faults that are recorded in it. -/
theorem Outcome.exists_hasEnd {o : Outcome α} (h : o ≠ .exhausted) : ∃ e, o.HasEnd [] e := by
  cases o with
  | ok v s => exact ⟨.ok s.rest s.faults, rfl, rfl⟩
  | fault f s => exact ⟨.fault f s.rest s.faults, rfl, rfl, rfl⟩
  | exhausted => exact absurd rfl h

theorem Outcome.HasEnd.recording {o : Outcome α} (h : o.HasEnd [] e) (faults : List Fault) :
    (o.recording faults).HasEnd faults e := by
  cases o <;> cases e <;> simp_all [HasEnd, Outcome.recording, State.recording]

theorem map_shift (nodes functions : Nat) (ts : List Token) :
    ts.map (Token.relabel (.shift nodes functions)) = ts :=
  List.map_id' ts

theorem fault_shift (nodes functions : Nat) (f : Fault) :
    f.relabel (.shift nodes functions) = f := by
  obtain ⟨site, cause⟩ := f
  cases site <;> rfl

/-- New numbers leave an end as it is. -/
theorem Outcome.HasEnd.shift {o : Outcome α} (h : o.HasEnd [] e) (nodes functions : Nat)
    (f : α → β) : (o.relabel (.shift nodes functions) f).HasEnd [] e := by
  have hfaults : ∀ faults : List Fault,
      faults.map (Fault.relabel (.shift nodes functions)) = faults := fun faults =>
    (List.map_congr_left fun f _ => fault_shift nodes functions f).trans (List.map_id' faults)
  cases o <;> cases e <;>
    simp_all [HasEnd, Outcome.relabel, State.relabel, map_shift, fault_shift]

/-- A parser that more fuel does not change comes to an end from any numbers and faults. -/
theorem exists_end {p : Nat → Parser α} {takes : Token → Prop}
    (hassembled : ∀ n, Assembled takes (p n))
    (hnatural : ∀ nodes functions, ∃ f : α → α, ∀ n,
      Natural (.shift nodes functions) f (p n) (p n))
    (hmore : ∀ {n m : Nat} {s : State}, n ≤ m → p n s ≠ .exhausted → p m s = p n s)
    (henough : ∃ n, p n ⟨ts, 0, 0, []⟩ ≠ .exhausted) : ∃ e, Ends p ts e := by
  obtain ⟨least, hleast⟩ := henough
  obtain ⟨e, he⟩ := Outcome.exists_hasEnd hleast
  refine ⟨e, fun nodes functions faults => ?_⟩
  obtain ⟨f, hf⟩ := hnatural nodes functions
  refine ⟨_, (he.shift nodes functions f).recording faults, least, fun n hn => ?_⟩
  have hstart : (⟨ts, nodes, functions, faults⟩ : State) =
      (State.relabel (.shift nodes functions) ⟨ts, 0, 0, []⟩).recording faults := by
    rw [State.relabel, State.recording, map_shift, List.map_nil, List.append_nil]
    rfl
  rw [hstart, (hassembled n).recording, hf n, hmore hn hleast]

/-! ## Statements -/

/-- An outcome is not changed by more fuel. -/
theorem Extends.eq_of_ne {p q : Parser α} (h : Extends [] True p q) {s : State}
    (hp : p s ≠ .exhausted) : q s = p s := by
  have hs := h s
  rw [State.extend_nil] at hs
  cases hv : p s with
  | exhausted => exact absurd hv hp
  | ok v s' =>
    rw [hv] at hs
    rw [hs.2 (Or.inl rfl), State.extend_nil]
  | fault f s' =>
    rw [hv] at hs
    rw [hs.2 (Or.inl rfl), State.extend_nil]

theorem ne_exhausted_of_takes {o : Outcome α} {least length : Nat} {out : Prop}
    (h : o.Takes least length out) (hout : ¬out) : o ≠ .exhausted := by
  rintro rfl
  exact hout h

theorem unattached_nil : Unattached [] := rfl

theorem statement_total (ts : List Token) : ∃ e, Ends statement ts e :=
  exists_end (fun _ => assembled_statements.statement rfl)
    (fun _ _ => ⟨_, statement_natural (Relabel.shift_shifts _ _)⟩)
    (fun h => (statement_extends unattached_nil h).eq_of_ne)
    ⟨_, ne_exhausted_of_takes (statement_takes _ _) (Nat.lt_irrefl _)⟩

theorem declaration_total (ts : List Token) : ∃ e, Ends declaration ts e :=
  exists_end (fun _ => assembled_statements.declaration rfl)
    (fun _ _ => ⟨_, declaration_natural (Relabel.shift_shifts _ _)⟩)
    (fun h => (declaration_extends unattached_nil h).eq_of_ne)
    ⟨_, ne_exhausted_of_takes (declaration_takes _ _) (Nat.lt_irrefl _)⟩

theorem block_total (ts : List Token) : ∃ e, Ends block ts e :=
  exists_end (fun _ => assembled_statements.block rfl)
    (fun _ _ => ⟨_, block_natural (Relabel.shift_shifts _ _)⟩)
    (fun h => (block_extends unattached_nil h).eq_of_ne)
    ⟨_, ne_exhausted_of_takes (block_takes _ _) (Nat.lt_irrefl _)⟩

/-! ## Programs -/

theorem declarations_total (ts : List Token) : ∃ e, Ends declarations ts e := by
  refine exists_end declarations_assembled
    (fun _ _ => ⟨_, declarations_natural (Relabel.shift_shifts _ _)⟩) ?_
    ⟨fuelFor ts, ?_⟩
  · intro n m s hle hp
    have hend := declarations_end n s
    cases hv : declarations n s with
    | exhausted => exact absurd hv hp
    | ok slots s' => exact declarations_of_le hle hv
    | fault f s' =>
      rw [hv] at hend
      exact hend.elim
  · obtain ⟨slots, s, hread, -⟩ := declarations_fuelFor ts 0 0 []
    rw [hread]
    rintro ⟨⟩

/-- A program is read to its end, with the faults that it ends with. -/
theorem exists_of_ends_declarations {w : List Token} {e : End} (h : Ends declarations w e)
    (nodes functions : Nat) : ∃ (added : List Fault) (slots : List (Option Stmt)) (s : State),
      e = .ok [] added ∧ declarations (fuelFor w) ⟨w, nodes, functions, []⟩ = .ok slots s ∧
        s.faults = added := by
  obtain ⟨slots, s, hread, hrest⟩ := declarations_fuelFor w nodes functions []
  obtain ⟨o, hend, least, ho⟩ := h nodes functions []
  have hmore := declarations_of_le (Nat.le_max_left (fuelFor w) least) hread
  rw [ho _ (Nat.le_max_right _ _)] at hmore
  subst hmore
  cases e with
  | fault => exact hend.elim
  | ok rest added =>
    obtain ⟨rfl, hfaults⟩ := hend
    exact ⟨added, slots, s, by rw [hrest], hread, hfaults⟩

/-- The errors of a program are the faults at its end. -/
theorem errors_of_ends {w more : List Token} {stop : Token} {e : End}
    (hw : ∀ t ∈ w, t.isEof = false) (hstop : stop.isEof = true) (h : Ends declarations w e)
    (nodes functions : Nat) :
    ∃ added, e = .ok [] added ∧
      (parse (w ++ stop :: more) nodes functions).errors = added.map (Fault.locate stop) := by
  obtain ⟨added, slots, s, he, hread, hfaults⟩ := exists_of_ends_declarations h nodes functions
  refine ⟨added, he, ?_⟩
  rw [parse, splitAtEnd_append hw, splitAtEnd, if_pos hstop]
  simp only [List.append_nil, hread, hfaults]

end Nya.Parse
