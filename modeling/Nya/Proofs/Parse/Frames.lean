import Nya.Proofs.Grammar.Places
import Nya.Proofs.Parse.Total

/-!
# Reading around a place

What the parser does before a place in a program it does whatever stands there, and what it does
behind it depends on nothing but the end of what was read there. So if two lists of tokens can be
put at a place, and the one has more faults than the other but leaves the same tokens, then this is
so for the two whole programs. `exists_surrounds` says it of every place.
-/

namespace Nya.Parse

open Grammar

variable {α β γ : Type} {ts us vs w before x y : List Token} {e : End}

/-- The tokens carry ends of the one parser over to ends of the other, and keep earlier faults. -/
def Carries (inner : Nat → Parser α) (outer : Nat → Parser β) (us : List Token) : Prop :=
  ∀ e : End, ∃ e' : End, ∀ (earlier : List Fault) (ts : List Token),
    Ends inner ts (e.after earlier) → Ends outer (us ++ ts) (e'.after earlier)

theorem Carries.comp {p : Nat → Parser α} {q : Nat → Parser β} {r : Nat → Parser γ}
    (h : Carries p q vs) (h' : Carries q r us) : Carries p r (us ++ vs) := by
  intro e
  obtain ⟨e₁, h₁⟩ := h e
  obtain ⟨e₂, h₂⟩ := h' e₁
  refine ⟨e₂, fun earlier ts hend => ?_⟩
  rw [List.append_assoc]
  exact h₂ earlier _ (h₁ earlier ts hend)

/-- Where the end does not change, nothing has to be said of earlier faults. -/
theorem carries_of_ends {p : Nat → Parser α} {q : Nat → Parser β}
    (h : ∀ {ts : List Token} {e : End}, Ends p ts e → Ends q (us ++ ts) e) : Carries p q us :=
  fun e => ⟨e, fun _ _ hend => h hend⟩

/-! ## Headers -/

theorem exists_tails (m : Nat) (ts : List Token) : ∃ e, Tails m ts e := by
  induction m generalizing ts with
  | zero => exact ⟨_, rfl⟩
  | succ m ih =>
    by_cases h : ∀ t ∈ ts.head?, t.isSymbol .ifElse = false
    · obtain ⟨e, he⟩ := ih ts
      exact ⟨e, Or.inl ⟨h, he⟩⟩
    · cases ts with
      | nil => exact absurd (by simp) h
      | cons keyword us =>
        have hkeyword : keyword.isSymbol .ifElse = true := by simpa using h
        obtain ⟨branch, hbranch⟩ := statement_total us
        cases branch with
        | fault f vs added =>
          exact ⟨_, Or.inr ⟨keyword, us, _, rfl, hkeyword, hbranch, rfl⟩⟩
        | ok vs added =>
          obtain ⟨e, he⟩ := ih vs
          exact ⟨_, Or.inr ⟨keyword, us, _, rfl, hkeyword, hbranch, e, he, rfl⟩⟩

theorem exists_resumes (m : Nat) (e : End) : ∃ e', e.Resumes (Tails m) e' := by
  cases e with
  | fault f us added => exact ⟨_, rfl⟩
  | ok us added =>
    obtain ⟨e, he⟩ := exists_tails m us
    exact ⟨_, e, he, rfl⟩

theorem Leads.carries {m : Nat} (h : Leads us m) : Carries statement statement us := by
  intro e
  obtain ⟨e', he⟩ := exists_resumes m e
  exact ⟨e', fun earlier _ hend => h hend (he.after earlier)⟩

theorem exists_leads (h : Header us) : ∃ m, Leads us m := by
  cases h with
  | whileLoop hstart hparen h hclose => exact ⟨0, leads_whileLoop hparen hclose hstart h⟩
  | forLoop hstart hparen hinit hcondition hstop hincrement hclose =>
    refine ⟨0, leads_forLoop hparen hclose hstart ?_ hcondition hstop hincrement⟩
    exact hinit.imp_left fun h => ⟨h, accepted_of_word h⟩
  | ifThen hstart hparen h hclose => exact ⟨1, leads_ifThen hparen hclose hstart h⟩
  | ifElse hstart hparen h hclose hthen hkeyword =>
    exact leads_ifElse hparen hclose hstart h (accepted_of_word hthen).2 hkeyword

theorem starts_header (h : Header us) : Starts foreign us := by
  cases h with
  | whileLoop hstart | forLoop hstart | ifThen hstart | ifElse hstart =>
    exact starts_of_isSymbol hstart (by decide)

theorem starts_headed {T : List Token → Prop} (hT : ∀ {us}, T us → Starts foreign us)
    (h : Headed T us) : Starts foreign us := by
  cases h with
  | here h => exact hT h
  | body h _ => exact (starts_header h).append _

theorem carries_headed {T : List Token → Prop} {p : Nat → Parser α}
    (hT : ∀ {us}, T us → Carries p statement us) (h : Headed T us) : Carries p statement us := by
  induction h with
  | here h => exact hT h
  | body h _ ih =>
    obtain ⟨m, hleads⟩ := exists_leads h
    exact ih.comp hleads.carries

/-- What is read as a statement is read as a declaration, unless the tokens declare something. -/
theorem ends_declaration (hts : Starts [.function, .var] ts) (h : Ends statement ts e) :
    Ends declaration ts e := by
  obtain ⟨t, us, rfl, ht⟩ := hts
  refine .succ ?_
  simp only [declaration_succ]
  refine ends_takeIf_none ?_ (ends_takeIf_none ?_ h)
  · rintro _ ⟨⟩
    exact ht .function (by simp)
  · rintro _ ⟨⟩
    exact ht .var (by simp)

/-! ## Blocks -/

theorem starts_blockStart (h : ∃ start : Token, us = [start] ∧ start.isSymbol .blockStart = true) :
    Starts foreign us := by
  obtain ⟨start, rfl, hstart⟩ := h
  exact starts_of_isSymbol hstart (by decide)

theorem starts_opened (h : Opened us) : Starts [.ifElse, .blockEnd] us := by
  cases h with
  | statement h => exact (starts_headed starts_blockStart h).mono (by decide)
  | function hstart => exact starts_of_isSymbol hstart (by decide)

/-- What a block leaves is what the declaration around it goes on from. -/
theorem carries_opened (h : Opened us) : Carries block declaration us := by
  cases h with
  | statement h =>
    have hstarts := starts_headed starts_blockStart h
    have hcarries : Carries block statement us := by
      refine carries_headed ?_ h
      rintro _ ⟨start, rfl, hstart⟩
      refine carries_of_ends fun {ts e} hend => ?_
      refine ends_statement hstart (by decide) ?_
      simp only [statementFrom, Token.symbol?, Token.isSymbol_iff.mp hstart]
      exact hend.followed fun _ => reaches_pure _
    intro e
    obtain ⟨e', h⟩ := hcarries e
    refine ⟨e', fun earlier ts hend => ends_declaration ?_ (h earlier ts hend)⟩
    exact (hstarts.append ts).mono (by decide)
  | @function start name paren close first params hstart hname hparen hparams hclose hfirst =>
    refine carries_of_ends fun {ts e} hend => .succ ?_
    simp only [declaration_succ, List.cons_append, List.append_assoc, List.nil_append]
    refine ends_takeIf hstart (.succ ?_)
    simp only [functionDecl_succ]
    refine ends_expectName hname (ends_expect hparen ?_)
    refine (reaches_parameterList hparams hclose).bind fun _ => ?_
    refine ends_expect hclose (ends_expect hfirst (hend.followed fun _ us => ?_))
    exact ends_newFunction fun _ => reaches_pure _ _

/-! ## Places -/

/-- The loop reads declarations at the place behind the tokens. -/
structure Surrounds (before : List Token) (loop : Nat → Parser α) : Prop where
  loops : Loops loop
  total : ∀ ts, ∃ e, Ends loop ts e
  carries : ∀ e : End, ∃ e' : End, ∀ (earlier : List Fault) (ts : List Token), Unattached ts →
    Ends loop ts (e.after earlier) → Ends declarations (before ++ ts) (e'.after earlier)

theorem unattached_iff {ts : List Token} :
    Unattached ts ↔ ∀ t ∈ ts.head?, t.isSymbol .ifElse = false := by
  cases ts <;> simp [Unattached]

theorem Starts.unattached {symbols : List Symbol} (h : Starts symbols ts)
    (hmem : .ifElse ∈ symbols) : Unattached ts := by
  obtain ⟨t, us, rfl, ht⟩ := h
  simp [Unattached, ht _ hmem]

theorem exists_surrounds (h : Around before) :
    ∃ (α : Type) (loop : Nat → Parser α), Surrounds before loop := by
  induction h with
  | program h =>
    refine ⟨_, declarations, declarations_loops, declarations_total, fun e => ⟨e, ?_⟩⟩
    intro earlier ts hts hend
    exact declarations_loops.words (fun u hu => accepted_of_word (h u hu)) (unattached_iff.mp hts)
      hend
  | @block before us words _ hus h ih =>
    obtain ⟨_, loop, outer⟩ := ih
    refine ⟨_, block, block_loops, block_total, fun e => ?_⟩
    -- The block is part of a declaration of the loop outside, which goes on behind it.
    obtain ⟨e₁, h₁⟩ := carries_opened hus e
    obtain ⟨e₂, h₂⟩ := outer.total e₁.resume
    obtain ⟨e₃, h₃⟩ := outer.carries (e₂.after e₁.recorded)
    refine ⟨e₃, fun earlier ts hts hend => ?_⟩
    have hstarts : Starts [.ifElse, .blockEnd] (us ++ (words.flatten ++ ts)) :=
      (starts_opened hus).append _
    have hwords : Ends block (words.flatten ++ ts) (e.after earlier) :=
      block_loops.words (fun u hu => accepted_of_word (h u hu)) (unattached_iff.mp hts) hend
    have hfirst := h₁ earlier _ hwords
    rw [← End.resume_after earlier] at h₂
    have hloop := outer.loops (hstarts.mono (by simp)) hfirst h₂
    rw [End.recorded_after, ← End.after_after] at hloop
    have hall := h₃ earlier _ (hstarts.unattached (by simp)) hloop
    rwa [List.append_assoc, List.append_assoc]

end Nya.Parse
