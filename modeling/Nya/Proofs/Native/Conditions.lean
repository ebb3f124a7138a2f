import Nya.Proofs.Env.Matches
import Nya.Proofs.Relabel.Store

/-!
# Conditions on natives

A native is given by the host, and could do more than a program can: make up a function with any
environment, or look into one. What is proved of programs needs natives that do not.

Each condition says that a native *respects* relations of functions: given values that match, it
yields values that match, and does the same to the console. The conditions differ in the relations.

* `Native.Discreet`: those by which no function looks different
* `Native.Blind`: among these, those that keep the environments
* `Native.Honest`: the sets of functions, each function as related to itself
* `Native.Indifferent`: the relabellings

A discreet native is blind, and a blind one honest. Numbers and lines are a matter of their own:
functions that look the same have the same, so a discreet native may look at them, and one that is
indifferent may look at everything else.
-/

namespace Nya.Native

open Value (Matches ResultMatches Faithful)

/-- Given values that match, the native yields values that match, and leaves the same console. -/
def Respects (native : Native) (R : Declaration → Env → Declaration → Env → Prop) : Prop :=
  ∀ (globals globals' : Globals) (args args' : List Value) (console : Console),
    (∀ name, Option.Rel (Matches R) (globals name) (globals' name)) →
    List.Forall₂ (Matches R) args args' →
    ResultMatches R (native.run globals args console).1 (native.run globals' args' console).1 ∧
      (native.run globals' args' console).2 = (native.run globals args console).2

/-- The native cannot tell functions apart that look the same. -/
def Discreet (native : Native) : Prop := ∀ R, Faithful R → native.Respects R

/--
The native cannot tell functions apart that look the same and have the same environment: it may
show a function, hand it on or ask for its type, but it does not look at its code.
-/
def Blind (native : Native) : Prop :=
  ∀ R, Faithful R → (∀ d env d' env', R d env d' env' → env' = env) → native.Respects R

/-- A function that the native yields is one of its arguments or the value of a global. -/
def Honest (native : Native) : Prop :=
  ∀ globals args console d env, (native.run globals args console).1 = .ok (.closure d env) →
    .closure d env ∈ args ∨ ∃ name, globals name = some (.closure d env)

/--
The native does not look at the numbers and lines in a function: if they change, it yields the same
with these changes, and does the same to the console.
-/
def Indifferent (native : Native) : Prop :=
  ∀ ρ : Relabel, ρ.Faithful → ∀ (globals : Globals) (args : List Value) (console : Console),
    native.run (fun name => (globals name).map (Value.relabel ρ)) (args.map (Value.relabel ρ))
        console =
      ((native.run globals args console).1.map (Value.relabel ρ),
        (native.run globals args console).2)

/-! ## Sets of functions -/

/-- Relates each function of a set to itself. -/
def Among (S : Declaration → Env → Prop) (d : Declaration) (env : Env) (d' : Declaration)
    (env' : Env) : Prop :=
  (d' = d ∧ env' = env) ∧ S d env

theorem faithful_among (S : Declaration → Env → Prop) : Faithful (Among S) where
  looksLike := by
    rintro d env d' env' ⟨⟨rfl, rfl⟩, -⟩
    exact ⟨rfl, rfl, rfl⟩
  frame_eq_iff := by
    rintro d env d' env' b e b' e' ⟨⟨rfl, rfl⟩, -⟩ ⟨⟨rfl, rfl⟩, -⟩
    exact Iff.rfl

/-- A value matches the values that are the same, if a function is in the set. -/
theorem matches_among_iff {S : Declaration → Env → Prop} {v v' : Value} :
    v.Matches (Among S) v' ↔ v' = v ∧ ∀ d env, v = .closure d env → S d env := by
  constructor
  · intro h
    cases h with
    | closure h =>
      obtain ⟨⟨rfl, rfl⟩, hS⟩ := h
      refine ⟨rfl, ?_⟩
      rintro d env ⟨⟩
      exact hS
    | _ => exact ⟨rfl, by rintro d env ⟨⟩⟩
  · rintro ⟨rfl, hS⟩
    cases v' with
    | closure d env => exact .closure ⟨⟨rfl, rfl⟩, hS d env rfl⟩
    | _ => constructor

/-- Honest natives keep to any set of functions, and only these do. -/
theorem honest_iff {native : Native} :
    native.Honest ↔ ∀ S : Declaration → Env → Prop, native.Respects (Among S) := by
  constructor
  · intro h S globals globals' args args' console hglobals hargs
    obtain rfl : globals' = globals := by
      funext name
      have hname := hglobals name
      generalize globals name = a at hname ⊢
      generalize globals' name = b at hname ⊢
      cases hname with
      | none => rfl
      | some hv => rw [(matches_among_iff.mp hv).1]
    obtain rfl : args' = args := by
      induction hargs with
      | nil => rfl
      | cons hv _ ih => rw [(matches_among_iff.mp hv).1, ih]
    refine ⟨?_, rfl⟩
    cases hrun : (native.run globals' args' console).1 with
    | error e => exact .error e
    | ok v =>
      refine .ok (matches_among_iff.mpr ⟨rfl, ?_⟩)
      rintro d env rfl
      rcases h _ _ _ d env hrun with hmem | ⟨name, hname⟩
      · have hv := (List.forall₂_same.mp hargs) _ hmem
        exact (matches_among_iff.mp hv).2 d env rfl
      · have hv := hglobals name
        rw [hname] at hv
        cases hv with
        | some hv => exact (matches_among_iff.mp hv).2 d env rfl
  · intro h globals args console d env hrun
    -- the set of the functions that are given
    let S : Declaration → Env → Prop := fun d env =>
      .closure d env ∈ args ∨ ∃ name, globals name = some (.closure d env)
    have hglobals : ∀ name, Option.Rel (Matches (Among S)) (globals name) (globals name) := by
      intro name
      cases hv : globals name with
      | none => exact .none
      | some v =>
        refine .some (matches_among_iff.mpr ⟨rfl, ?_⟩)
        rintro d env rfl
        exact .inr ⟨name, hv⟩
    have hargs : List.Forall₂ (Matches (Among S)) args args := by
      refine List.forall₂_same.mpr fun v hv => matches_among_iff.mpr ⟨rfl, ?_⟩
      rintro d env rfl
      exact .inl hv
    obtain ⟨hresult, -⟩ := h S globals globals args args console hglobals hargs
    rw [hrun] at hresult
    cases hresult with
    | ok hv => exact (matches_among_iff.mp hv).2 d env rfl

/-! ## Relabellings -/

/-- Relates a function to itself with new numbers and lines. -/
def Relabels (ρ : Relabel) (d : Declaration) (env : Env) (d' : Declaration) (env' : Env) : Prop :=
  d' = d.relabel ρ ∧ env' = env

theorem matches_relabels_iff {ρ : Relabel} {v v' : Value} :
    v.Matches (Relabels ρ) v' ↔ v' = v.relabel ρ := by
  constructor
  · intro h
    cases h with
    | closure h =>
      obtain ⟨rfl, rfl⟩ := h
      rfl
    | _ => rfl
  · rintro rfl
    cases v with
    | closure d env => exact .closure ⟨rfl, rfl⟩
    | _ => constructor

/-- Indifferent natives respect the relabellings, and only these do. -/
theorem indifferent_iff {native : Native} :
    native.Indifferent ↔ ∀ ρ : Relabel, ρ.Faithful → native.Respects (Relabels ρ) := by
  constructor
  · intro h ρ hρ globals globals' args args' console hglobals hargs
    obtain rfl : globals' = fun name => (globals name).map (Value.relabel ρ) := by
      funext name
      have hname := hglobals name
      generalize globals name = a at hname ⊢
      generalize globals' name = b at hname ⊢
      cases hname with
      | none => rfl
      | some hv => rw [matches_relabels_iff.mp hv, Option.map_some]
    obtain rfl : args' = args.map (Value.relabel ρ) := by
      induction hargs with
      | nil => rfl
      | cons hv _ ih => rw [matches_relabels_iff.mp hv, ih, List.map_cons]
    rw [h ρ hρ globals args console]
    refine ⟨?_, rfl⟩
    cases (native.run globals args console).1 with
    | ok v => exact .ok (matches_relabels_iff.mpr rfl)
    | error e => exact .error e
  · intro h ρ hρ globals args console
    have hglobals : ∀ name, Option.Rel (Matches (Relabels ρ)) (globals name)
        ((globals name).map (Value.relabel ρ)) := by
      intro name
      cases globals name with
      | none => exact .none
      | some v => exact .some (matches_relabels_iff.mpr rfl)
    have hargs : List.Forall₂ (Matches (Relabels ρ)) args (args.map (Value.relabel ρ)) :=
      List.forall₂_map_right_iff.mpr
        (List.forall₂_same.mpr fun _ _ => matches_relabels_iff.mpr rfl)
    obtain ⟨hresult, hconsole⟩ := h ρ hρ _ _ _ _ console hglobals hargs
    refine Prod.ext ?_ hconsole
    generalize (native.run globals args console).1 = r at hresult ⊢
    generalize (native.run _ _ console).1 = r' at hresult ⊢
    cases hresult with
    | ok hv => rw [matches_relabels_iff.mp hv]; rfl
    | error e => rfl

/-! ## Implications -/

variable {native : Native}

theorem Discreet.blind (h : native.Discreet) : native.Blind := fun R hR _ => h R hR

/-- A blind native makes up no function: it would have to make up one of any set. -/
theorem Blind.honest (h : native.Blind) : native.Honest :=
  honest_iff.mpr fun S => h (Among S) (faithful_among S) fun _ _ _ _ hR => hR.1.2

theorem Discreet.honest (h : native.Discreet) : native.Honest := h.blind.honest

/-! ## The natives of the command line -/

section

variable {R : Declaration → Env → Declaration → Env → Prop}
  (htext : ∀ {v v' : Value}, v.Matches R v' → v'.text = v.text)
include htext

/-- The standard natives respect whatever keeps the texts of values. -/
theorem standard_respects : ∀ n ∈ standard, n.Respects R := by
  intro n hn globals globals' args args' console hglobals hargs
  simp only [standard, List.mem_cons, List.not_mem_nil, or_false] at hn
  rcases hn with rfl | rfl | rfl | rfl
  · exact ⟨.ok (.number _), rfl⟩
  · refine ⟨?_, rfl⟩
    cases hargs with
    | nil => exact .ok (.string _)
    | cons hv _ =>
      simp only [typeOf, Native.pure, List.head?_cons, Option.map_some, hv.typeName_eq]
      exact .ok (.string _)
  · refine ⟨?_, rfl⟩
    cases hargs with
    | nil => exact .ok (.string _)
    | cons hv _ =>
      simp only [uwuify, Native.pure, List.head?_cons, Option.map_some, htext hv]
      exact .ok (.string _)
  · exact ⟨.ok (.string _), rfl⟩

theorem input_respects : input.Respects R := by
  intro globals globals' args args' console hglobals hargs
  -- the prompt is the same, so all that is read is
  have hrun : input.run globals' args' console = input.run globals args console := by
    cases hargs with
    | nil => rfl
    | cons hv _ =>
      cases hv with
      | closure h => simp only [input, List.head?_cons, htext (.closure h)]
      | _ => rfl
  rw [hrun]
  refine ⟨?_, rfl⟩
  simp only [input]
  generalize Console.readLine _ = line
  obtain ⟨line, rest⟩ := line
  cases line with
  | text line => exact .ok (.string _)
  | invalid => exact .error _
  | endOfInput => exact .ok .nil

end

theorem standard_discreet : ∀ n ∈ standard, n.Discreet :=
  fun n hn _ hR => standard_respects (fun h => h.text_eq hR) n hn

theorem input_discreet : input.Discreet := fun _ hR => input_respects fun h => h.text_eq hR

theorem standard_honest : ∀ n ∈ standard, n.Honest := fun n hn => (standard_discreet n hn).honest

theorem standard_indifferent : ∀ n ∈ standard, n.Indifferent := by
  refine fun n hn => indifferent_iff.mpr fun ρ _ => standard_respects ?_ n hn
  intro v v' h
  rw [matches_relabels_iff.mp h, Value.text_relabel]

end Nya.Native
