import Nya.Proofs.Token.Stream

/-!
# Where the items of a text stand

A scanner that was asked for some items has read a part of the source and has the rest before it.
The item it hands out next is a piece of that rest, behind blanks and comments, and the scanner
stops right behind it. So each item has its place in the source: what comes before it, its lexeme,
and what follows.

From the place of an item one reads off its line, of what class of texts its lexeme is, and that the
lexeme could not have been longer.

* `ScanItem.Stands` for an item with its lexeme, what follows, and the line on which it ends
* `Scanner.exists_place` for the place of every item
* `Scanner.lexemes_classified`
* `Scanner.lines_exact`
-/

namespace Nya

/-! ## Items in place -/

/-- The item is read from the lexeme, which ends on the given line, with the rest behind it. -/
inductive ScanItem.Stands : ScanItem → List Char → List Char → Nat → Prop
  | token {c : Char} {cs : List Char} {kind : Kind} {n line : Nat} :
    Scan.Found c cs (.token kind) n →
    Stands (.ok ⟨kind, String.ofList (c :: cs.take n), line⟩) (c :: cs.take n) (cs.drop n) line
  | unexpected {c : Char} {rest : List Char} {line : Nat} :
    Scan.Found c rest (.unexpected c) 0 → Stands (.error ⟨line, .unexpected c⟩) [c] rest line
  | unterminated {body : List Char} {line : Nat} : '"' ∉ body →
    Stands (.error ⟨line, .unterminated⟩) ('"' :: body) [] line
  | eof {line : Nat} : Stands (.ok ⟨.eof, "", line⟩) [] [] line

/-- What a piece yields stands where the piece does. -/
theorem Scan.Found.stands {c : Char} {cs : List Char} {piece : Piece} {n line : Nat}
    (h : Scan.Found c cs piece n) {item : ScanItem}
    (hitem : Segment.item? ⟨piece, c :: cs.take n, line⟩ = some item) :
    item.Stands (c :: cs.take n) (cs.drop n) line := by
  cases piece with
  | token kind =>
    cases hitem
    exact .token h
  | unexpected d =>
    cases hitem
    cases h with
    | unexpected hplain hblank hquote hdigit hword =>
      exact .unexpected (.unexpected hplain hblank hquote hdigit hword)
  | unterminated =>
    cases hitem
    obtain ⟨⟨body, htext, hbody⟩, hrest, -⟩ := h.isPiece line
    rw [hrest, show c :: cs.take n = '"' :: body from htext]
    exact .unterminated hbody
  | blank | comment => cases hitem

namespace Scanner

/-- The scanner after the given number of requests. -/
def after : Nat → Scanner → Scanner
  | 0, s => s
  | n + 1, s => after n s.next.2

theorem request_eq_next (n : Nat) (s : Scanner) : s.request n = (s.after n).next.1 := by
  induction n generalizing s with
  | zero => rfl
  | succ n ih => exact ih s.next.2

theorem after_succ (n : Nat) (s : Scanner) : s.after (n + 1) = (s.after n).next.2 := by
  induction n generalizing s with
  | zero => rfl
  | succ n ih => exact ih s.next.2

/-- The scanner has read the first part of the text, and is on the line where that ends. -/
structure Within (s : Scanner) (text read : List Char) : Prop where
  text : text = read ++ s.rest
  line : s.line = 1 + newlines read

variable {s s' : Scanner} {slice : Segment} {text read : List Char}

/-- A scan step cuts off what is found at the start of the rest. -/
theorem exists_found (h : s.slice? = some (slice, s')) :
    ∃ c cs piece n, s.rest = c :: cs ∧ Scan.Found c cs piece n ∧
      slice = ⟨piece, c :: cs.take n, s'.line⟩ ∧ s'.rest = cs.drop n ∧
      s'.line = s.line + newlines slice.text := by
  unfold slice? at h
  split at h
  · cases h
  · next c cs hrest =>
    cases h
    exact ⟨c, cs, _, _, hrest, Scan.found_recognise c cs, rfl, rfl, rfl⟩

theorem Within.slice? (hs : s.Within text read) (h : s.slice? = some (slice, s')) :
    s'.Within text (read ++ slice.text) := by
  obtain ⟨c, cs, piece, n, hrest, -, hslice, hrest', hline⟩ := exists_found h
  refine ⟨?_, by rw [hline, hs.line, newlines_append, Nat.add_assoc]⟩
  rw [hs.text, hrest, hrest', hslice, List.append_assoc, List.cons_append, List.take_append_drop]

/-- **A request goes on to the item that it hands out, and stops right behind it.** -/
theorem Within.next (hs : s.Within text read) :
    ∃ before lexeme, read <+: before ∧ s.next.2.Within text (before ++ lexeme) ∧
      ∀ item, s.next.1 = some item → item.Stands lexeme s.next.2.rest s.next.2.line := by
  fun_induction Scanner.next s generalizing read with
  | case1 s hnone hended =>
    refine ⟨read, [], List.prefix_rfl, ?_, fun item h => by cases h⟩
    rw [List.append_nil]
    exact hs
  | case2 s hnone hended =>
    refine ⟨read, [], List.prefix_rfl, ?_, ?_⟩
    · rw [List.append_nil]
      exact ⟨hs.text, hs.line⟩
    · rintro item ⟨⟩
      rw [rest_eq_nil hnone]
      exact .eof
  | case3 s slice s' hsome item hitem =>
    refine ⟨read, slice.text, List.prefix_rfl, hs.slice? hsome, ?_⟩
    rintro item ⟨⟩
    obtain ⟨c, cs, piece, n, -, hfound, rfl, hrest', -⟩ := exists_found hsome
    rw [hrest']
    exact hfound.stands hitem
  | case4 s slice s' hsome hitem ih =>
    obtain ⟨before, lexeme, hprefix, hnext⟩ := ih (hs.slice? hsome)
    exact ⟨before, lexeme, (List.prefix_append _ _).trans hprefix, hnext⟩

theorem Within.after (hs : s.Within text read) (n : Nat) :
    ∃ read', (s.after n).Within text read' := by
  induction n generalizing s read with
  | zero => exact ⟨read, hs⟩
  | succ n ih =>
    obtain ⟨before, lexeme, -, hnext, -⟩ := hs.next
    exact ih hnext

theorem within_ofSource (source : String) :
    ∃ read, (ofSource source).Within source.toList read := by
  rcases toList_eq_mark_append source with ⟨htext, -⟩ | htext
  · exact ⟨[], htext, rfl⟩
  · exact ⟨['\ufeff'], htext, rfl⟩

/-- **Every item of a source has its place in it.** -/
theorem exists_place {source : String} {n : Nat} {item : ScanItem}
    (h : (scan source)[n]? = some item) :
    ∃ before lexeme, ((ofSource source).after (n + 1)).Within source.toList (before ++ lexeme) ∧
      item.Stands lexeme ((ofSource source).after (n + 1)).rest
        ((ofSource source).after (n + 1)).line := by
  rw [← request_eq, request_eq_next] at h
  obtain ⟨start, hstart⟩ := within_ofSource source
  obtain ⟨read, hread⟩ := hstart.after n
  obtain ⟨before, lexeme, -, hnext, hstands⟩ := hread.next
  rw [after_succ]
  exact ⟨before, lexeme, hnext, hstands item h⟩

end Scanner

/-! ## Classes of lexemes -/

namespace Scan

/-- A piece of a program, whatever it is, begins with this text. -/
inductive Begins : List Char → Prop
  | operator {s : Symbol} {text : List Char} : s ∈ Symbol.operators →
    s.spelling.toList <+: text → Begins text
  | word {c : Char} {cs : List Char} : c.isAlpha = true ∨ c = '_' → Begins (c :: cs)
  | number {c : Char} {cs : List Char} : c.isDigit = true → Begins (c :: cs)
  | string {cs : List Char} : Begins ('"' :: cs)
  | comment {cs : List Char} : Begins ('/' :: '/' :: cs)
  | blank {c : Char} {cs : List Char} : c ∈ [' ', '\r', '\t', '\n'] → Begins (c :: cs)

end Scan

/-- The text of such a token, with what follows it, is not part of a longer token. -/
def Kind.Ends : Kind → List Char → List Char → Prop
  | .identifier, text, rest =>
    ¬ "_o_".toList <+: text ∧ ∀ d, rest.head? = some d → ¬ (d.isAlphanum = true ∨ d = '_')
  | .number _, text, rest =>
    (∀ d, rest.head? = some d → d.isDigit = false) ∧
    ('.' ∉ text → ∀ d ds, rest = '.' :: d :: ds → d.isDigit = false)
  | _, _, _ => True

/--
The text is one of those that tokens of the kind are read from, and it could not be a longer one
with what follows it. The mark at the end has no text, and nothing follows it.
-/
def Kind.Exact (kind : Kind) (text rest : List Char) : Prop :=
  match kind with
  | .eof => text = [] ∧ rest = []
  | kind => kind.Lexeme text ∧ kind.Ends text rest

namespace Scan

variable {c : Char} {cs : List Char}

/-- What follows a run of characters does not belong to it. -/
theorem test_of_head?_drop {test : Char → Bool} {d : Char}
    (h : (cs.drop (cs.takeWhile test).length).head? = some d) : test d = false := by
  by_cases hlt : (cs.takeWhile test).length < cs.length
  · obtain ⟨d', rest, htest, hdrop⟩ := exists_drop_of_takeWhile_lt hlt
    rw [hdrop] at h
    cases h
    exact htest
  · rw [List.drop_eq_nil_of_le (Nat.le_of_not_lt hlt)] at h
    cases h

theorem fraction_cons (d : Char) (ds : List Char) :
    fraction ('.' :: d :: ds) = (d :: ds).takeWhile Char.isDigit := rfl

/-- **A number is as long as it can be.** -/
theorem number_ends (c : Char) (cs : List Char) :
    (Kind.number (number c cs).1).Ends (c :: cs.take (number c cs).2)
      (cs.drop (number c cs).2) := by
  unfold number
  dsimp only
  split
  · next hempty =>
    have hempty := List.isEmpty_iff.mp hempty
    refine ⟨fun d => test_of_head?_drop, fun _ d ds hrest => ?_⟩
    rw [hrest, fraction_cons] at hempty
    cases hd : d.isDigit with
    | false => rfl
    | true => simp [hd] at hempty
  · next hne =>
    have hne : fraction (cs.drop (cs.takeWhile Char.isDigit).length) ≠ [] := by simpa using hne
    obtain ⟨after, hdrop, hfraction⟩ := exists_of_fraction hne
    -- The point and the fraction stand right behind the whole digits.
    have htake : ∀ n, cs.take ((cs.takeWhile Char.isDigit).length + 1 + n) =
        cs.takeWhile Char.isDigit ++ '.' :: after.take n := by
      intro n
      rw [Nat.add_assoc, List.take_add, take_length_takeWhile, hdrop, Nat.add_comm 1,
        List.take_succ_cons]
    have hrest : ∀ n, cs.drop ((cs.takeWhile Char.isDigit).length + 1 + n) = after.drop n := by
      intro n
      rw [Nat.add_assoc, ← List.drop_drop, hdrop, Nat.add_comm 1, List.drop_succ_cons]
    rw [htake, hrest, hfraction]
    refine ⟨fun d => test_of_head?_drop, fun hpoint => absurd ?_ hpoint⟩
    simp

/-- **A word is as long as it can be.** -/
theorem word_ends (hplain : Plain c cs) :
    Kind.identifier.Ends (c :: cs.takeWhile isWordPart)
      (cs.drop (cs.takeWhile isWordPart).length) := by
  refine ⟨fun hstart => ?_, fun d hd hpart => ?_⟩
  · -- The operator would have been found before the word.
    refine operator?_eq_none_iff.mp hplain.operator .bangEqual (by decide) (hstart.trans ?_)
    exact List.cons_prefix_cons.mpr ⟨rfl, List.takeWhile_prefix _⟩
  · rw [← isWordPart_iff, test_of_head?_drop hd] at hpart
    cases hpart

/-- **A token is read from a lexeme of its kind, and takes all that belongs to it.** -/
theorem Found.exact {kind : Kind} {n : Nat} (h : Found c cs (.token kind) n) :
    kind.Exact (c :: cs.take n) (cs.drop n) := by
  have hlexeme := h.lexeme
  cases h with
  | operator hcomment hoperator => exact ⟨hlexeme, trivial⟩
  | string hplain hquote hlt => exact ⟨hlexeme, trivial⟩
  | number hplain hdigit => exact ⟨hlexeme, number_ends c cs⟩
  | word hplain hword =>
    rw [take_length_takeWhile] at hlexeme ⊢
    unfold wordKind at hlexeme ⊢
    split
    · next entry hentry =>
      rw [hentry] at hlexeme
      exact ⟨hlexeme, trivial⟩
    · next hnone =>
      rw [hnone] at hlexeme
      exact ⟨hlexeme, word_ends hplain⟩

/-- A character is a fault only where nothing begins. -/
theorem Found.not_begins {n : Nat} (h : Found c cs (.unexpected c) n) : ¬ Begins (c :: cs) := by
  cases h with
  | unexpected hplain hblank hquote hdigit hword =>
    intro hbegins
    cases hbegins with
    | operator hs hstart => exact operator?_eq_none_iff.mp hplain.operator _ hs hstart
    | word hc =>
      rw [← isWordStart_iff, hword] at hc
      cases hc
    | number hc =>
      rw [hdigit] at hc
      cases hc
    | string => exact hquote rfl
    | comment => exact hplain.comment ⟨rfl, rfl⟩
    | blank hc => simp_all [isBlank]

end Scan

/--
What is said of an item with its lexeme and what follows it: a token is one of its kind, an
unexpected character stands where nothing begins, and a string that is not closed goes to the end.
-/
def ScanItem.Exact (item : ScanItem) (lexeme rest : List Char) : Prop :=
  match item with
  | .ok t => t.lexeme.toList = lexeme ∧ t.kind.Exact lexeme rest
  | .error ⟨_, .unexpected c⟩ => lexeme = [c] ∧ ¬ Scan.Begins (lexeme ++ rest)
  | .error ⟨_, .unterminated⟩ => (∃ body, lexeme = '"' :: body ∧ '"' ∉ body) ∧ rest = []

theorem ScanItem.Stands.exact {item : ScanItem} {lexeme rest : List Char} {line : Nat}
    (h : item.Stands lexeme rest line) : item.Exact lexeme rest := by
  cases h with
  | token hfound => exact ⟨String.toList_ofList, hfound.exact⟩
  | unexpected hfound => exact ⟨rfl, hfound.not_begins⟩
  | unterminated hbody => exact ⟨⟨_, rfl, hbody⟩, rfl⟩
  | eof => exact ⟨rfl, rfl, rfl⟩

namespace Scanner

/--
**Lexemes are classified.** Every item of a source stands in it right before what the scanner has
left when it hands the item out. The lexeme of a token is a text of its kind and takes all that
belongs to it; a character is unexpected only where no piece of a program begins.
-/
theorem lexemes_classified {source : String} {n : Nat} {item : ScanItem}
    (h : (scan source)[n]? = some item) :
    ∃ before lexeme, source.toList = before ++ lexeme ++ ((ofSource source).after (n + 1)).rest ∧
      item.Exact lexeme ((ofSource source).after (n + 1)).rest := by
  obtain ⟨before, lexeme, hs, hstands⟩ := exists_place h
  exact ⟨before, lexeme, hs.text, hstands.exact⟩

/-- An identifier right behind an operator that could have been part of it. -/
theorem lexemes_classified_adjacent :
    (scan "_o_x_o+")[1]? = some (.ok ⟨.identifier, "x_o", 1⟩) ∧
      ∃ before lexeme, "_o_x_o+".toList =
          before ++ lexeme ++ ((ofSource "_o_x_o+").after 2).rest ∧
        ScanItem.Exact (.ok ⟨.identifier, "x_o", 1⟩) lexeme
          ((ofSource "_o_x_o+").after 2).rest := by
  have htoken : (scan "_o_x_o+")[1]?.bind Except.toOption = some ⟨.identifier, "x_o", 1⟩ := by
    decide +kernel
  obtain ⟨item, hitem, hok⟩ := Option.bind_eq_some_iff.mp htoken
  cases item with
  | error e => cases hok
  | ok t =>
    cases hok
    exact ⟨hitem, lexemes_classified hitem⟩

end Scanner

/-! ## Lines -/

/-- The line of an item. -/
def ScanItem.line : ScanItem → Nat
  | .ok t => t.line
  | .error e => e.line

theorem ScanItem.Stands.line_eq {item : ScanItem} {lexeme rest : List Char} {line : Nat}
    (h : item.Stands lexeme rest line) : item.line = line := by
  cases h <;> rfl

/--
What is said of the line of an item, with what comes before it: the line is that on which its lexeme
ends, and for what goes to the end of the source the last one.
-/
def ScanItem.LineExact (item : ScanItem) (source before lexeme : List Char) : Prop :=
  match item with
  | .ok t => t.lexeme.toList = lexeme ∧ t.line = 1 + newlines (before ++ lexeme) ∧
    (t.kind = .eof → t.line = 1 + newlines source)
  | .error ⟨line, .unexpected c⟩ => lexeme = [c] ∧ line = 1 + newlines before
  | .error ⟨line, .unterminated⟩ => lexeme.head? = some '"' ∧ line = 1 + newlines source

namespace Scanner

variable {source before lexeme : List Char} {s : Scanner} {item : ScanItem}

theorem Within.lineExact (hs : s.Within source (before ++ lexeme))
    (h : item.Stands lexeme s.rest s.line) : item.LineExact source before lexeme := by
  have hend : s.rest = [] → s.line = 1 + newlines source := by
    intro hrest
    rw [hs.text, hrest, List.append_nil, hs.line]
  generalize hrest : s.rest = rest at h hend
  generalize hline : s.line = line at h hend
  have hread : line = 1 + newlines (before ++ lexeme) := hline ▸ hs.line
  cases h with
  | token hfound =>
    refine ⟨String.toList_ofList, hread, ?_⟩
    rintro rfl
    exact absurd rfl hfound.ne_eof
  | @unexpected c _ _ hfound =>
    -- A line end is a blank, so it is never unexpected.
    have hc : c ≠ '\n' := by
      cases hfound with
      | unexpected _ hblank _ _ _ =>
        rintro rfl
        cases hblank
    have hnone : newlines [c] = 0 := List.count_singleton.trans (if_neg (by simpa using hc))
    rw [newlines_append, hnone] at hread
    exact ⟨rfl, hread⟩
  | unterminated _ => exact ⟨rfl, hend rfl⟩
  | eof => exact ⟨rfl, hread, fun _ => hend rfl⟩

/-- Lines are never counted back. -/
theorem Within.line_le_after {text read : List Char} (hs : s.Within text read) (n : Nat) :
    s.line ≤ (s.after n).line := by
  induction n generalizing s read with
  | zero => exact Nat.le_refl _
  | succ n ih =>
    obtain ⟨before, lexeme, ⟨skipped, hbefore⟩, hnext, -⟩ := hs.next
    refine Nat.le_trans ?_ (ih hnext)
    rw [hs.line, hnext.line, ← hbefore, newlines_append, newlines_append]
    omega

theorem after_add (m n : Nat) (s : Scanner) : s.after (m + n) = (s.after m).after n := by
  induction m generalizing s with
  | zero => rw [Nat.zero_add]; rfl
  | succ m ih => rw [Nat.add_right_comm]; exact ih s.next.2

/-- Items that are handed out later are on the same line or on a later one. -/
theorem line_mono (source : String) {m n : Nat} (hle : m ≤ n) {item item' : ScanItem}
    (h : (scan source)[m]? = some item) (h' : (scan source)[n]? = some item') :
    item.line ≤ item'.line := by
  obtain ⟨before, lexeme, hs, hstands⟩ := exists_place h
  obtain ⟨before', lexeme', hs', hstands'⟩ := exists_place h'
  obtain ⟨k, rfl⟩ := Nat.exists_eq_add_of_le hle
  rw [hstands.line_eq, hstands'.line_eq, Nat.add_right_comm m k 1, after_add (m + 1) k]
  exact hs.line_le_after k

/--
**Lines are exact.** The line of a token is that on which its lexeme ends, the line of an unexpected
character that on which it stands, and a string that is not closed and the mark of the end are on
the last line of the source. So the lines of the items never go back.
-/
theorem lines_exact (source : String) :
    (∀ n item, (scan source)[n]? = some item →
      ∃ before lexeme, source.toList = before ++ lexeme ++ ((ofSource source).after (n + 1)).rest ∧
        item.LineExact source.toList before lexeme) ∧
    ((scan source).map ScanItem.line).Pairwise (· ≤ ·) := by
  constructor
  · intro n item h
    obtain ⟨before, lexeme, hs, hstands⟩ := exists_place h
    exact ⟨before, lexeme, hs.text, hs.lineExact hstands⟩
  · rw [List.pairwise_map, List.pairwise_iff_getElem]
    intro i j hi hj hij
    exact line_mono source (Nat.le_of_lt hij) (List.getElem?_eq_getElem hi)
      (List.getElem?_eq_getElem hj)

end Scanner

end Nya
