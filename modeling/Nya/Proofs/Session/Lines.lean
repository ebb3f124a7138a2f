import Nya.Proofs.Session.Rejected
import Nya.Proofs.Session.Split
import Nya.Proofs.Token.Lexeme

/-!
# Texts that differ in their layout

Blanks, comments and line ends part the lexemes of a text and number its lines, and do nothing else:
texts with the same lexemes have the same runs, but for the lines in what they report.

The lexemes determine the tokens up to their lines. With all lines forgotten the two texts are read
alike, and a session makes the same of them.

* `Session.outcome` for what is compared
* `Session.layout_invariant`
-/

namespace Nya

namespace Session

theorem unlined_shifts : unlined.Shifts := ⟨fun _ => rfl, fun _ => rfl⟩

/-- Tokens that are cut out of texts are the same up to their lines if their lexemes are. -/
theorem map_unlined_of_lexemes {ts ts' : List Token} (h : ∀ t ∈ ts, t.Legible)
    (h' : ∀ t ∈ ts', t.Legible) (hlexemes : ts.map Token.lexeme = ts'.map Token.lexeme) :
    ts.map (Token.relabel unlined) = ts'.map (Token.relabel unlined) := by
  induction ts generalizing ts' with
  | nil =>
    rw [List.map_nil, List.nil_eq, List.map_eq_nil_iff] at hlexemes
    rw [hlexemes]
  | cons t ts ih =>
    cases ts' with
    | nil => cases hlexemes
    | cons t' ts' =>
      obtain ⟨ht, hts⟩ := List.forall_mem_cons.mp h
      obtain ⟨ht', hts'⟩ := List.forall_mem_cons.mp h'
      obtain ⟨hlexeme, hrest⟩ := List.cons.inj hlexemes
      have hsame : t.relabel unlined = t'.relabel unlined := by
        rw [Token.relabel, Token.relabel, ht.kind_eq ht' hlexeme, hlexeme]
        rfl
      rw [List.map_cons, List.map_cons, hsame, ih hts hts' hrest]

theorem scannedTokens_unlined {a b : String}
    (h : (scannedTokens (scan a)).map Token.lexeme = (scannedTokens (scan b)).map Token.lexeme) :
    (scannedTokens (scan a)).map (Token.relabel unlined) =
      (scannedTokens (scan b)).map (Token.relabel unlined) := by
  simp only [scannedTokens_scan, List.map_append] at h ⊢
  obtain ⟨hlexemes, -⟩ := List.append_inj' h rfl
  rw [map_unlined_of_lexemes (fun _ => legible_of_mem_sourceTokens)
    (fun _ => legible_of_mem_sourceTokens) hlexemes]
  rfl

/-- Without lines the two texts are read alike. -/
theorem ofSource_unlined {a b : String} (ha : scanErrors (scan a) = [])
    (hb : scanErrors (scan b) = [])
    (h : (scannedTokens (scan a)).map Token.lexeme = (scannedTokens (scan b)).map Token.lexeme)
    (nodes functions : Nat) :
    (Reading.ofSource a nodes functions).relabel unlined =
      (Reading.ofSource b nodes functions).relabel unlined := by
  have hparsed : (parse (scannedTokens (scan a)) nodes functions).relabel unlined =
      (parse (scannedTokens (scan b)) nodes functions).relabel unlined := by
    rw [← parse_relabel unlined_shifts (exists_eof_scan a), scannedTokens_unlined h,
      parse_relabel unlined_shifts (exists_eof_scan b)]
  have herrors := congrArg (fun p => p.errors.map Diagnostic.parse) hparsed
  simp only [Parsed.relabel, List.map_map] at herrors
  simp only [Reading.ofSource, Reading.relabel, ha, hb, hparsed, List.map_nil, List.nil_append,
    List.map_map]
  exact congrArg _ herrors

/--
What a run comes to: what is seen of it, but for the lines in what it reports, and the numbers that
the session has reached.
-/
def outcome : Status × List Diagnostic × Session → Observation × Parse.Count
  | (status, diagnostics, s) =>
    (s.observe status (diagnostics.map (Diagnostic.relabel unlined)), s.count)

/-- What a run comes to does not depend on any line. -/
theorem outcome_congr {r r' : Status × List Diagnostic × Session}
    (h : relabelRun unlined r = relabelRun unlined r') : outcome r = outcome r' := by
  obtain ⟨status, diagnostics, s⟩ := r
  obtain ⟨status', diagnostics', s'⟩ := r'
  simp only [relabelRun, relabel, Prod.mk.injEq, Session.mk.injEq] at h
  obtain ⟨rfl, hdiagnostics, -, hworld, hnodes, hfunctions⟩ := h
  obtain ⟨hconsole, hglobals⟩ := Machine.World.seen_of_relabel hworld
  have hnodes : s.nodes = s'.nodes := hnodes
  have hfunctions : s.functions = s'.functions := hfunctions
  simp only [outcome, observe, count, hdiagnostics, hconsole, hnodes, hfunctions, Session.global?,
    hglobals]

/--
**Layout does not matter.** Two texts without faults of scanning that have the same lexemes, and so
the same tokens on other lines, have the same run in any session: it ends alike, writes the same,
reports the same faults at the same places but for their lines, gives out as many numbers, and
leaves the same globals. If one has no result within the given steps, then neither has the other.
-/
theorem layout_invariant {s : Session} (hn : ∀ n ∈ s.natives, n.Indifferent) {a b : String}
    (ha : scanErrors (scan a) = []) (hb : scanErrors (scan b) = [])
    (h : (scannedTokens (scan a)).map Token.lexeme = (scannedTokens (scan b)).map Token.lexeme)
    (fuel : Nat) : (s.run fuel a).map outcome = (s.run fuel b).map outcome := by
  have hfaithful : unlined.Faithful := fun _ _ hij => hij
  have hruns : (s.run fuel a).map (relabelRun unlined) =
      (s.run fuel b).map (relabelRun unlined) := by
    rw [run_eq_proceed, run_eq_proceed, ← proceed_relabel hfaithful hn,
      ← proceed_relabel hfaithful hn, ofSource_unlined ha hb h]
  cases hb : s.run fuel b with
  | none =>
    rw [hb, Option.map_none, Option.map_eq_none_iff] at hruns
    rw [hruns]
  | some r =>
    rw [hb] at hruns
    obtain ⟨r', ha, hr⟩ := Option.map_eq_some_iff.mp hruns
    rw [ha, Option.map_some, Option.map_some, outcome_congr hr]

/-- A text without room around its lexemes. -/
def dense : String := ">.<a o/\"nya\n\"+.+nuww;pwint a;pwint missing;"

/-- The same text with room around its lexemes, and comments. -/
def airy : String :=
  "\n>.< a o/ // the sum\n  \"nya\n\" +.+ nuww;\r\n\tpwint a;\n\npwint missing ; // not known"

/-- Both texts stop at the name that is not known, on different lines. -/
theorem layout_invariant_airy :
    scanErrors (scan dense) = [] ∧ scanErrors (scan airy) = [] ∧
      (scannedTokens (scan dense)).map Token.lexeme =
        (scannedTokens (scan airy)).map Token.lexeme ∧
      ((new Native.standard {}).run 100 dense).map Prod.fst = some .runtimeError ∧
      ((new Native.standard {}).run 100 dense).map outcome =
        ((new Native.standard {}).run 100 airy).map outcome := by
  have hdense : scanErrors (scan dense) = [] := by decide +kernel
  have hairy : scanErrors (scan airy) = [] := by decide +kernel
  have hlexemes : (scannedTokens (scan dense)).map Token.lexeme =
      (scannedTokens (scan airy)).map Token.lexeme := by decide +kernel
  have hn := forall_natives_new Native.standard_indifferent {}
  exact ⟨hdense, hairy, hlexemes, by decide +kernel,
    layout_invariant hn hdense hairy hlexemes 100⟩

end Session

end Nya
