import Nya.Proofs.Relabel.Parse
import Nya.Proofs.Token.Found

/-!
# Scanning across a blank

No piece of a text goes on over a blank, strings and comments apart; and a comment ends with its
line. So the tokens of two texts with a line end between them are the tokens of the one and then
those of the other, with the lines of the second counted on.
-/

namespace Nya

/-! ## Pieces -/

/-- The piece does not go on over the blank. -/
def Piece.StopsAt (blank : Char) : Piece → Prop
  | .unterminated => False
  | .comment => blank = '\n'
  | .token _ | .blank | .unexpected _ => True

namespace Scan

variable {blank : Char}

/-- No operator has a blank in it. -/
theorem isBlank_of_mem_spelling : ∀ s ∈ Symbol.operators, ∀ c ∈ s.spelling.toList,
    isBlank c = false := by
  have hall : Symbol.operators.all (fun s => s.spelling.toList.all fun c => !isBlank c) = true := by
    decide
  intro s hs c hc
  have hspelling := List.all_eq_true.mp (List.all_eq_true.mp hall s hs) c hc
  simpa using hspelling

theorem ne_of_isBlank {c d : Char} (h : isBlank c = true) (hd : isBlank d = false) : c ≠ d := by
  rintro rfl
  rw [h] at hd
  cases hd

/-- A spelling that lacks a character does not reach over it. -/
theorem prefix_append_cons_iff {spelling : List Char} (h : blank ∉ spelling) (a b : List Char) :
    spelling <+: a ++ blank :: b ↔ spelling <+: a := by
  induction spelling generalizing a with
  | nil => simp
  | cons x xs ih =>
    obtain ⟨hx, hxs⟩ := not_or.mp (mt List.mem_cons.mpr h)
    cases a with
    | nil => simp [List.cons_prefix_cons, Ne.symm hx]
    | cons y ys => rw [List.cons_append, List.cons_prefix_cons, List.cons_prefix_cons, ih hxs]

/-- The operator at the start of a text does not depend on what stands behind a blank. -/
theorem operator?_append_blank (h : isBlank blank = true) (a b : List Char) :
    operator? (a ++ blank :: b) = operator? a := by
  have hstart : ∀ s ∈ Symbol.operators,
      (s.spelling.toList <+: a ++ blank :: b ↔ s.spelling.toList <+: a) := fun s hs =>
    prefix_append_cons_iff
      (fun hmem => ne_of_isBlank h (isBlank_of_mem_spelling s hs blank hmem) rfl) a b
  ext entry
  obtain ⟨s, n⟩ := entry
  rw [operator?_eq_some_iff, operator?_eq_some_iff]
  exact and_congr_right fun hs => and_congr_left fun _ => hstart s hs

/-- A run ends at the first character that fails the test. -/
theorem takeWhile_append_cons {test : Char → Bool} (h : test blank = false) (a b : List Char) :
    (a ++ blank :: b).takeWhile test = a.takeWhile test := by
  induction a with
  | nil => simp [h]
  | cons c cs ih => cases hc : test c <;> simp [hc, ih]

/-- A fraction ends at a blank. -/
theorem fraction_append_blank (h : isBlank blank = true) (a b : List Char) :
    fraction (a ++ blank :: b) = fraction a := by
  cases a with
  | nil => simp [fraction, ne_of_isBlank h (d := '.') rfl]
  | cons c cs =>
    by_cases hc : c = '.'
    · subst hc
      exact takeWhile_append_cons (isDigit_of_isBlank h) cs b
    · simp [fraction, hc]

/-- So does a literal. -/
theorem number_append_blank (h : isBlank blank = true) (c : Char) (a b : List Char) :
    number c (a ++ blank :: b) = number c a := by
  have hwhole : (a ++ blank :: b).takeWhile Char.isDigit = a.takeWhile Char.isDigit :=
    takeWhile_append_cons (isDigit_of_isBlank h) a b
  have hle : (a.takeWhile Char.isDigit).length ≤ a.length := (List.takeWhile_sublist _).length_le
  rw [number, number, hwhole, List.drop_append_of_le_length hle, fraction_append_blank h]

/-- A blank is no slash, so that it makes no comment. -/
theorem not_comment_append_blank (hblank : isBlank blank = true) {c : Char} {a : List Char}
    (h : ¬ (c = '/' ∧ a.head? = some '/')) (b : List Char) :
    ¬ (c = '/' ∧ (a ++ blank :: b).head? = some '/') := by
  rintro ⟨hc, hhead⟩
  cases a with
  | nil => exact ne_of_isBlank hblank rfl (Option.some.inj hhead)
  | cons d ds => exact h ⟨hc, hhead⟩

/-- What does not go on over a blank is found in front of it. -/
theorem Found.append_blank (hblank : isBlank blank = true) {c : Char} {a : List Char}
    {piece : Piece} {n : Nat} (h : Found c a piece n) (hstop : piece.StopsAt blank)
    (b : List Char) : Found c (a ++ blank :: b) piece n := by
  have hoperator : operator? (c :: (a ++ blank :: b)) = operator? (c :: a) :=
    operator?_append_blank hblank (c :: a) b
  have hplain : Plain c a → Plain c (a ++ blank :: b) := fun h =>
    ⟨not_comment_append_blank hblank h.comment b, hoperator.trans h.operator⟩
  cases h with
  | comment hc hhead =>
    obtain rfl : blank = '\n' := hstop
    have hline : (a ++ '\n' :: b).takeWhile (· != '\n') = a.takeWhile (· != '\n') :=
      takeWhile_append_cons rfl a b
    rw [← hline]
    exact .comment hc (by simp [hhead])
  | operator hcomment hfound =>
    exact .operator (not_comment_append_blank hblank hcomment b) (hoperator.trans hfound)
  | blank h hc => exact .blank (hplain h) hc
  | string h hquote hlt =>
    -- The closing quote stands in `a`.
    have hbody : (a ++ blank :: b).takeWhile (· != '"') = a.takeWhile (· != '"') := by
      rw [List.takeWhile_append, if_neg (by omega)]
    rw [← hbody]
    refine .string (hplain h) hquote ?_
    rw [hbody, List.length_append]
    omega
  | unterminated _ _ _ => exact hstop.elim
  | number h hdigit =>
    rw [← number_append_blank hblank c a b]
    exact .number (hplain h) hdigit
  | word h hword =>
    rw [← takeWhile_append_cons (isWordPart_of_isBlank hblank) a b]
    exact .word (hplain h) hword
  | unexpected h hc hquote hdigit hword => exact .unexpected (hplain h) hc hquote hdigit hword

end Scan

/-! ## Segments -/

theorem newlines_append (a b : List Char) : newlines (a ++ b) = newlines a + newlines b :=
  List.count_append

/-- The first part of a text is cut as if the blank behind it ended the text. -/
theorem segments_append_blank {blank : Char} (hblank : Scan.isBlank blank = true) (line : Nat)
    (a b : List Char) (h : ∀ s ∈ segments line a, s.piece.StopsAt blank) :
    segments line (a ++ blank :: b) =
      segments line a ++ segments (line + newlines a) (blank :: b) := by
  induction line, a using segments.induct with
  | case1 line => simp [newlines, segments]
  | case2 line c cs found text last ih =>
    rw [segments] at h
    obtain ⟨hfirst, hothers⟩ := List.forall_mem_cons.mp h
    have hfound := Scan.found_recognise c cs
    have hle := hfound.le
    have hline : newlines (c :: cs) = newlines text + newlines (cs.drop found.2) := by
      rw [← newlines_append, List.cons_append, List.take_append_drop]
    rw [List.cons_append, segments, (hfound.append_blank hblank hfirst _).recognise_eq,
      segments.eq_2, List.take_append_of_le_length hle, List.drop_append_of_le_length hle,
      ih hothers, hline, List.cons_append, Nat.add_assoc]

/-- A blank is a segment of its own. -/
theorem segments_blank {blank : Char} (hblank : Scan.isBlank blank = true) (line : Nat)
    (text : List Char) :
    segments line (blank :: text) =
      ⟨.blank, [blank], line + newlines [blank]⟩ :: segments (line + newlines [blank]) text := by
  have hoperator : Scan.operator? (blank :: text) = none :=
    Scan.operator?_append_blank hblank [] text
  have hplain : Scan.Plain blank text :=
    ⟨fun h => Scan.ne_of_isBlank hblank rfl h.1, hoperator⟩
  rw [segments, (Scan.Found.blank hplain hblank).recognise_eq]
  simp

/-- A segment with its line counted on. -/
def Segment.later (lines : Nat) (s : Segment) : Segment := { s with line := s.line + lines }

/-- Where the count of lines starts does not matter but for the lines. -/
theorem segments_add (line lines : Nat) (text : List Char) :
    segments (line + lines) text = (segments line text).map (Segment.later lines) := by
  induction line, text using segments.induct with
  | case1 line => simp [segments]
  | case2 line c cs found text last ih =>
    rw [segments, segments.eq_2, List.map_cons, ← ih, Nat.add_right_comm]
    rfl

/-! ## Items -/

/-- An item with its line counted on. -/
def ScanItem.later (lines : Nat) : ScanItem → ScanItem
  | .ok t => .ok { t with line := t.line + lines }
  | .error e => .error { e with line := e.line + lines }

/-- A later segment yields its item on the later line. -/
theorem Segment.item?_later (lines : Nat) (s : Segment) :
    (s.later lines).item? = s.item?.map (ScanItem.later lines) := by
  unfold item? later
  cases s.piece <;> rfl

/-- The tokens and faults of a source text, without the mark at the end. -/
def sourceItems (source : String) : List ScanItem :=
  (segments 1 (dropMark source.toList)).filterMap Segment.item?

theorem scanErrors_append (items items' : List ScanItem) :
    scanErrors (items ++ items') = scanErrors items ++ scanErrors items' :=
  List.filterMap_append

/-- The mark at the end is no fault. -/
theorem scanErrors_scan (source : String) :
    scanErrors (scan source) = scanErrors (sourceItems source) := by
  rw [scan, scanErrors_append]
  exact List.append_nil _

/-- In a text without a fault every string is closed, so no piece goes on over a line end. -/
theorem stopsAt_newline_of_scanErrors {source : String} (h : scanErrors (scan source) = []) :
    ∀ s ∈ segments 1 (dropMark source.toList), s.piece.StopsAt '\n' := by
  intro s hs
  cases hpiece : s.piece with
  | unterminated =>
    have hitem : s.item? = some (.error ⟨s.line, .unterminated⟩) := by rw [Segment.item?, hpiece]
    have hmem : (⟨s.line, .unterminated⟩ : ScanError) ∈ scanErrors (scan source) := by
      rw [scanErrors_scan]
      exact List.mem_filterMap.mpr ⟨_, List.mem_filterMap.mpr ⟨s, hs, hitem⟩, rfl⟩
    rw [h] at hmem
    exact absurd hmem List.not_mem_nil
  | comment => rfl
  | token _ | blank | unexpected _ => trivial

/-- A mark at the start stays at the start. -/
theorem dropMark_append_newline (a b : List Char) :
    dropMark (a ++ '\n' :: b) = dropMark a ++ '\n' :: b := by
  cases a with
  | nil => rfl
  | cons c cs =>
    simp only [List.cons_append, dropMark]
    split <;> rfl

theorem dropMark_of_head? {text : List Char} (h : text.head? ≠ some '\ufeff') :
    dropMark text = text := by
  cases text with
  | nil => rfl
  | cons c cs =>
    have hc : c ≠ '\ufeff' := fun hc => h (congrArg some hc)
    simp [dropMark, hc]

/-- How many lines further down a text stands behind another one. -/
def linesBefore (source : String) : Nat := newlines (dropMark source.toList) + 1

/-- **The items of two texts with a line end between them are those of the one and the other.** -/
theorem sourceItems_append {a b : String} (ha : scanErrors (scan a) = [])
    (hb : b.toList.head? ≠ some '\ufeff') :
    sourceItems (a ++ "\n" ++ b) =
      sourceItems a ++ (sourceItems b).map (ScanItem.later (linesBefore a)) := by
  have htext : (a ++ "\n" ++ b).toList = a.toList ++ '\n' :: b.toList := by
    simp
  have hlater : segments (1 + newlines (dropMark a.toList) + newlines ['\n']) b.toList =
      (segments 1 b.toList).map (Segment.later (linesBefore a)) := by
    rw [← segments_add]
    rfl
  unfold sourceItems
  rw [htext, dropMark_append_newline, dropMark_of_head? hb,
    segments_append_blank rfl _ _ _ (stopsAt_newline_of_scanErrors ha), segments_blank rfl, hlater,
    List.filterMap_append, List.filterMap_cons_none rfl, List.filterMap_map, List.map_filterMap]
  congr 2
  funext s
  exact Segment.item?_later _ s

/-! ## Tokens -/

/-- The tokens of a source text, without the mark at the end. -/
def sourceTokens (source : String) : List Token := scannedTokens (sourceItems source)

/-- Lines counted on; the numbers stay. -/
def Relabel.later (lines : Nat) : Relabel := ⟨id, id, (· + lines)⟩

/-- The numbers stay, so they stay next to each other. -/
theorem Relabel.later_shifts (lines : Nat) : (Relabel.later lines).Shifts :=
  ⟨fun _ => rfl, fun _ => rfl⟩

/-- Tokens of later lines are the tokens, relabelled. -/
theorem scannedTokens_later (lines : Nat) (items : List ScanItem) :
    scannedTokens (items.map (ScanItem.later lines)) =
      (scannedTokens items).map (Token.relabel (.later lines)) := by
  rw [scannedTokens, List.filterMap_map, scannedTokens, List.map_filterMap]
  congr 1
  funext item
  cases item <;> rfl

/-- No fault comes up on later lines. -/
theorem scanErrors_later {items : List ScanItem} (h : scanErrors items = []) (lines : Nat) :
    scanErrors (items.map (ScanItem.later lines)) = [] := by
  rw [scanErrors, List.filterMap_map]
  rw [scanErrors, List.filterMap_eq_nil_iff] at h
  refine List.filterMap_eq_nil_iff.mpr fun item hitem => ?_
  have hnone := h item hitem
  cases item with
  | ok t => rfl
  | error e => cases hnone

/-- The tokens of two texts are those of the one and those of the other, on later lines. -/
theorem sourceTokens_append {a b : String} (ha : scanErrors (scan a) = [])
    (hb : b.toList.head? ≠ some '\ufeff') :
    sourceTokens (a ++ "\n" ++ b) =
      sourceTokens a ++ (sourceTokens b).map (Token.relabel (.later (linesBefore a))) := by
  rw [sourceTokens, sourceItems_append ha hb, scannedTokens_append, scannedTokens_later]
  rfl

/-- Two texts without faults make one without faults. -/
theorem scanErrors_scan_append {a b : String} (ha : scanErrors (scan a) = [])
    (hmark : b.toList.head? ≠ some '\ufeff') (hb : scanErrors (scan b) = []) :
    scanErrors (scan (a ++ "\n" ++ b)) = [] := by
  rw [scanErrors_scan] at hb
  rw [scanErrors_scan, sourceItems_append ha hmark, scanErrors_append, ← scanErrors_scan, ha,
    scanErrors_later hb, List.append_nil]

/-! ## The mark at the end -/

/-- No piece of a text marks its end. -/
theorem piece_ne_eof (line : Nat) (text : List Char) :
    ∀ s ∈ segments line text, s.piece ≠ .token .eof := by
  induction line, text using segments.induct with
  | case1 line => simp [segments]
  | case2 line c cs found text last ih =>
    rw [segments]
    exact List.forall_mem_cons.mpr ⟨(Scan.found_recognise c cs).ne_eof, ih⟩

/-- A token of a text comes from a segment of it. -/
theorem exists_segment_of_mem_sourceTokens {source : String} {t : Token}
    (h : t ∈ sourceTokens source) :
    ∃ s ∈ segments 1 (dropMark source.toList),
      s.piece = .token t.kind ∧ t.lexeme = String.ofList s.text := by
  obtain ⟨item, hitem, htoken⟩ := List.mem_filterMap.mp h
  obtain ⟨s, hs, hsome⟩ := List.mem_filterMap.mp hitem
  refine ⟨s, hs, ?_⟩
  unfold Segment.item? at hsome
  split at hsome
  · next kind hkind =>
    obtain rfl := Option.some.inj hsome
    obtain rfl := Option.some.inj htoken
    exact ⟨hkind, rfl⟩
  · obtain rfl := Option.some.inj hsome
    cases htoken
  · obtain rfl := Option.some.inj hsome
    cases htoken
  · cases hsome
  · cases hsome

/-- Nor does any token of a source. -/
theorem isEof_of_mem_sourceTokens {source : String} {t : Token} (h : t ∈ sourceTokens source) :
    t.isEof = false := by
  obtain ⟨s, hs, hkind, -⟩ := exists_segment_of_mem_sourceTokens h
  have hne : t.kind ≠ .eof := fun heof => piece_ne_eof _ _ s hs (heof ▸ hkind)
  simpa [Token.isEof] using hne

/-- Tokens that mark no end stay in front when others are split. -/
theorem splitAtEnd_append {a : List Token} (h : ∀ t ∈ a, t.isEof = false) (b : List Token) :
    splitAtEnd (a ++ b) = (a ++ (splitAtEnd b).1, (splitAtEnd b).2) := by
  induction a with
  | nil => rfl
  | cons t a ih =>
    obtain ⟨ht, ha⟩ := List.forall_mem_cons.mp h
    simp [splitAtEnd, ht, ih ha]

theorem splitAtEnd_concat {tokens : List Token} {stop : Token}
    (h : ∀ t ∈ tokens, t.isEof = false) (hstop : stop.isEof = true) :
    splitAtEnd (tokens ++ [stop]) = (tokens, stop) := by
  simp [splitAtEnd_append h, splitAtEnd, hstop]

/-- The tokens of a source are those of its text and the mark, on the last line. -/
theorem scannedTokens_scan (source : String) :
    scannedTokens (scan source) =
      sourceTokens source ++ [⟨.eof, "", 1 + newlines (dropMark source.toList)⟩] :=
  scannedTokens_append _ _

/-- The tokens of a source are split right before the mark. -/
theorem splitAtEnd_scan (source : String) :
    splitAtEnd (scannedTokens (scan source)) =
      (sourceTokens source, ⟨.eof, "", 1 + newlines (dropMark source.toList)⟩) := by
  rw [scannedTokens_scan]
  exact splitAtEnd_concat (fun _ => isEof_of_mem_sourceTokens) rfl

end Nya
