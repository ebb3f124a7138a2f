import Nya.Proofs.Grammar.Spelling
import Nya.Proofs.Token.Seam

/-!
# Lexemes

Which texts the tokens of a kind are read from is said by `Kind.Lexeme`.

A token was recognised with the text behind it in view. Its lexeme alone is still the same token:
no rule takes less of a text that ends where the token did (`Scan.Found.take`). As no token goes on
over a blank, the lexemes of a text with a space between each two of them are a text with the same
tokens.

* `Scan.Found.lexeme`
* `Token.Legible` for tokens that are read off their own lexeme
* `rescan_lexemes`
-/

namespace Nya

/-- The texts that tokens of a kind are read from. The mark at the end is read from none. -/
def Kind.Lexeme : Kind → List Char → Prop
  | .symbol s, text => text = s.spelling.toList
  | .identifier, text =>
    (∃ c cs, text = c :: cs ∧ (c.isAlpha = true ∨ c = '_') ∧
      ∀ d ∈ cs, d.isAlphanum = true ∨ d = '_') ∧
    ∀ s ∈ Symbol.keywords, text ≠ s.spelling.toList
  | .string body, text => text = '"' :: (body.toList ++ ['"']) ∧ '"' ∉ body.toList
  | .number value, text => ∃ whole part, whole ≠ [] ∧ (∀ d ∈ whole ++ part, d.isDigit = true) ∧
    text = (if part = [] then whole else whole ++ '.' :: part) ∧
    value = Float.ofScientific (Scan.digitsValue (whole ++ part)) true part.length
  | .eof, _ => False

namespace Scan

variable {c : Char} {cs : List Char}

/-! ## A piece without what follows it -/

theorem not_comment_take (h : ¬ (c = '/' ∧ cs.head? = some '/')) (n : Nat) :
    ¬ (c = '/' ∧ (cs.take n).head? = some '/') := by
  rintro ⟨hc, hhead⟩
  refine h ⟨hc, ?_⟩
  cases n with
  | zero => simp at hhead
  | succ n => rwa [List.head?_take, if_neg (Nat.succ_ne_zero n)] at hhead

theorem Plain.take (h : Plain c cs) (n : Nat) : Plain c (cs.take n) := by
  refine ⟨not_comment_take h.comment n, operator?_eq_none_iff.mpr fun s hs hstart => ?_⟩
  have htake : c :: cs.take n <+: c :: cs :=
    List.cons_prefix_cons.mpr ⟨rfl, List.take_prefix n cs⟩
  exact operator?_eq_none_iff.mp h.operator s hs (hstart.trans htake)

theorem takeWhile_take {test : Char → Bool} {n : Nat} (h : (cs.takeWhile test).length ≤ n) :
    (cs.take n).takeWhile test = cs.takeWhile test := by
  rw [← List.take_takeWhile, List.take_of_length_le h]

theorem fraction_take {ds : List Char} (h : fraction ds ≠ []) :
    fraction (ds.take (1 + (fraction ds).length)) = fraction ds := by
  obtain ⟨rest, rfl, hfraction⟩ := exists_of_fraction h
  rw [hfraction, Nat.add_comm, List.take_succ_cons]
  exact takeWhile_take (Nat.le_refl _)

theorem number_take (c : Char) (cs : List Char) :
    number c (cs.take (number c cs).2) = number c cs := by
  have hle : (cs.takeWhile Char.isDigit).length ≤ (number c cs).2 := by
    unfold number
    dsimp only
    split <;> omega
  have hpart : fraction ((cs.take (number c cs).2).drop (cs.takeWhile Char.isDigit).length) =
      fraction (cs.drop (cs.takeWhile Char.isDigit).length) := by
    rw [List.drop_take]
    unfold number
    dsimp only
    split
    · next hempty =>
      rw [Nat.sub_self, List.take_zero, List.isEmpty_iff.mp hempty]
      rfl
    · next hne =>
      rw [Nat.add_assoc, Nat.add_sub_cancel_left]
      exact fraction_take (by simpa using hne)
  generalize hn : (number c cs).2 = n at hle hpart
  rw [number, number, takeWhile_take hle, hpart]

theorem spelling_eq_cons {s : Symbol} (hs : s ∈ Symbol.operators)
    (hstart : s.spelling.toList <+: c :: cs) :
    s.spelling.toList = c :: cs.take (s.spelling.toList.length - 1) := by
  rw [← List.take_succ_cons, Nat.sub_add_cancel (spelling_length_pos s hs)]
  exact List.prefix_iff_eq_take.mp hstart

/-- **A token is found at the start of its lexeme, and takes it whole.** -/
theorem Found.take {kind : Kind} {n : Nat} (h : Found c cs (.token kind) n) :
    Found c (cs.take n) (.token kind) n := by
  cases h with
  | operator hcomment hoperator =>
    obtain ⟨hs, hstart, rfl⟩ := operator?_eq_some_iff.mp hoperator
    refine .operator (not_comment_take hcomment _) (operator?_eq_some_iff.mpr ⟨hs, ?_, rfl⟩)
    exact ⟨[], (List.append_nil _).trans (spelling_eq_cons hs hstart)⟩
  | string hplain hquote hlt =>
    have hbody := takeWhile_take (Nat.le_succ (cs.takeWhile (· != '"')).length)
    have hlength : ((cs.take ((cs.takeWhile (· != '"')).length + 1)).takeWhile (· != '"')).length <
        (cs.take ((cs.takeWhile (· != '"')).length + 1)).length := by
      rw [hbody, List.length_take]
      omega
    have hfound := Found.string (hplain.take _) hquote hlength
    rwa [hbody] at hfound
  | number hplain hdigit =>
    have hfound := Found.number (hplain.take (Scan.number c cs).2) hdigit
    rwa [number_take] at hfound
  | word hplain hword =>
    have hfound := Found.word (hplain.take (cs.takeWhile isWordPart).length) hword
    rwa [takeWhile_take (Nat.le_refl _)] at hfound

/-! ## Pieces by kind -/

/-- A run of characters that is not the whole text stops at one that does not belong to it. -/
theorem exists_drop_of_takeWhile_lt {test : Char → Bool}
    (h : (cs.takeWhile test).length < cs.length) :
    ∃ d rest, test d = false ∧ cs.drop (cs.takeWhile test).length = d :: rest := by
  have hsplit : cs.drop (cs.takeWhile test).length = cs.dropWhile test := by
    have hdrop : (cs.takeWhile test ++ cs.dropWhile test).drop (cs.takeWhile test).length =
        cs.dropWhile test := List.drop_left
    rwa [List.takeWhile_append_dropWhile] at hdrop
  have hhead := List.head?_dropWhile_not test cs
  rw [← hsplit] at hhead
  cases hdrop : cs.drop (cs.takeWhile test).length with
  | nil => exact absurd h (Nat.not_lt.mpr (List.drop_eq_nil_iff.mp hdrop))
  | cons d rest => exact ⟨d, rest, by simpa [hdrop] using hhead, rfl⟩

theorem isWordStart_iff : isWordStart c = true ↔ c.isAlpha = true ∨ c = '_' := by
  simp [isWordStart]

theorem isWordPart_iff : isWordPart c = true ↔ c.isAlphanum = true ∨ c = '_' := by
  simp [isWordPart]

theorem wordKind_lexeme (hc : isWordStart c = true) (hcs : ∀ d ∈ cs, isWordPart d = true) :
    (wordKind (c :: cs)).Lexeme (c :: cs) := by
  unfold wordKind
  split
  · next s hword => exact (spelling_of_keyword? hword).symm
  · next hnone =>
    exact ⟨⟨c, cs, rfl, isWordStart_iff.mp hc, fun d hd => isWordPart_iff.mp (hcs d hd)⟩,
      fun s hs hword => keyword?_eq_none_iff.mp hnone s hs hword.symm⟩

theorem number_lexeme (hc : c.isDigit = true) :
    (Kind.number (number c cs).1).Lexeme (c :: cs.take (number c cs).2) := by
  have hwhole : ∀ d ∈ cs.takeWhile Char.isDigit, d.isDigit = true :=
    fun d => test_of_mem_takeWhile
  refine ⟨c :: cs.takeWhile Char.isDigit, fraction (cs.drop (cs.takeWhile Char.isDigit).length),
    List.cons_ne_nil _ _, ?_, ?_, rfl⟩
  · rintro d hd
    rcases List.mem_append.mp hd with hd | hd
    · rcases List.mem_cons.mp hd with rfl | hd
      · exact hc
      · exact hwhole d hd
    · obtain ⟨rest, -, hfraction⟩ := exists_of_fraction (List.ne_nil_of_mem hd)
      rw [hfraction] at hd
      exact test_of_mem_takeWhile hd
  · unfold number
    dsimp only
    split
    · next hempty =>
      rw [if_pos (List.isEmpty_iff.mp hempty), take_length_takeWhile]
    · next hne =>
      have hne : fraction (cs.drop (cs.takeWhile Char.isDigit).length) ≠ [] := by simpa using hne
      obtain ⟨rest, hdrop, hfraction⟩ := exists_of_fraction hne
      rw [if_neg hne, hfraction, Nat.add_assoc, List.take_add, take_length_takeWhile, hdrop,
        Nat.add_comm 1, List.take_succ_cons, take_length_takeWhile]
      rfl

/-- **A token is read from a lexeme of its kind.** -/
theorem Found.lexeme {kind : Kind} {n : Nat} (h : Found c cs (.token kind) n) :
    kind.Lexeme (c :: cs.take n) := by
  cases h with
  | operator hcomment hoperator =>
    obtain ⟨hs, hstart, rfl⟩ := operator?_eq_some_iff.mp hoperator
    exact (spelling_eq_cons hs hstart).symm
  | string hplain hquote hlt =>
    obtain ⟨d, rest, hd, hdrop⟩ := exists_drop_of_takeWhile_lt hlt
    obtain rfl : d = '"' := by simpa using hd
    have htake : cs.take ((cs.takeWhile (· != '"')).length + 1) =
        cs.takeWhile (· != '"') ++ ['"'] := by
      rw [List.take_add, take_length_takeWhile, hdrop]
      rfl
    rw [Kind.Lexeme, String.toList_ofList, htake, hquote]
    refine ⟨rfl, fun hmem => ?_⟩
    simpa using test_of_mem_takeWhile hmem
  | number hplain hdigit => exact number_lexeme hdigit
  | word hplain hword =>
    rw [take_length_takeWhile]
    exact wordKind_lexeme hword fun d => test_of_mem_takeWhile

/-- The mark that a text may start with starts no token. -/
theorem found_mark (cs : List Char) : Found '\ufeff' cs (.unexpected '\ufeff') 0 := by
  have hspelling : ∀ s ∈ Symbol.operators, s.spelling.toList.head? ≠ some '\ufeff' := by decide
  refine .unexpected ⟨fun h => absurd h.1 (by decide), operator?_eq_none_iff.mpr ?_⟩ rfl
    (by decide) rfl rfl
  intro s hs hstart
  have hpos := spelling_length_pos s hs
  have hhead := hspelling s hs
  cases htext : s.spelling.toList with
  | nil => simp [htext] at hpos
  | cons d ds =>
    rw [htext, List.cons_prefix_cons] at hstart
    simp [htext, hstart.1] at hhead

end Scan

/-! ## Tokens and their lexemes -/

/-- The token is what its lexeme is read as on its own. -/
def Token.Legible (t : Token) : Prop :=
  ∀ line, segments line t.lexeme.toList =
    [⟨.token t.kind, t.lexeme.toList, line + newlines t.lexeme.toList⟩]

/-- The lexeme of a token, cut out of its text, is one segment. -/
theorem segments_text {line : Nat} {text : List Char} {s : Segment} {kind : Kind}
    (hs : s ∈ segments line text) (hkind : s.piece = .token kind) (line' : Nat) :
    segments line' s.text = [⟨.token kind, s.text, line' + newlines s.text⟩] := by
  induction line, text using segments.induct with
  | case1 line => simp [segments] at hs
  | case2 line c cs found text last ih =>
    rw [segments] at hs
    rcases List.mem_cons.mp hs with rfl | hs
    · have hfound := Scan.found_recognise c cs
      rw [show (Scan.recognise c cs).1 = .token kind from hkind] at hfound
      rw [segments, hfound.take.recognise_eq]
      simp [List.take_take, segments]
    · exact ih hs

theorem legible_of_mem_sourceTokens {source : String} {t : Token} (h : t ∈ sourceTokens source) :
    t.Legible := by
  obtain ⟨s, hs, hkind, hlexeme⟩ := exists_segment_of_mem_sourceTokens h
  intro line
  rw [hlexeme, String.toList_ofList]
  exact segments_text hs hkind line

/-- The lexeme decides what a token is. -/
theorem Token.Legible.kind_eq {t t' : Token} (h : t.Legible) (h' : t'.Legible)
    (hlexeme : t.lexeme = t'.lexeme) : t.kind = t'.kind := by
  have hsegments := (h 0).symm.trans (hlexeme ▸ h' 0)
  simpa using congrArg (List.map Segment.piece) hsegments

/-- A lexeme is not empty and does not start with the mark that is dropped from texts. -/
theorem Token.Legible.exists_cons {t : Token} (h : t.Legible) :
    ∃ c cs, t.lexeme.toList = c :: cs ∧ c ≠ '\ufeff' := by
  have hsegments := h 0
  cases htext : t.lexeme.toList with
  | nil => simp [htext, segments] at hsegments
  | cons c cs =>
    refine ⟨c, cs, rfl, ?_⟩
    rintro rfl
    rw [htext, segments, (Scan.found_mark cs).recognise_eq] at hsegments
    simp at hsegments

/-! ## Lexemes in a row -/

/-- The lexemes of some tokens, with a space behind each of them. -/
def spaced (ts : List Token) : List Char :=
  [' '].intercalate (ts.map (fun t => t.lexeme.toList) ++ [[]])

theorem spaced_cons (t : Token) (ts : List Token) :
    spaced (t :: ts) = t.lexeme.toList ++ ' ' :: spaced ts := by
  rw [spaced, List.map_cons, List.cons_append, List.intercalate_cons_of_ne_nil (by simp),
    List.append_assoc]
  rfl

theorem dropMark_spaced {ts : List Token} (h : ∀ t ∈ ts, t.Legible) :
    dropMark (spaced ts) = spaced ts := by
  refine dropMark_of_head? ?_
  cases ts with
  | nil => exact nofun
  | cons t ts =>
    obtain ⟨c, cs, htext, hc⟩ := (h t List.mem_cons_self).exists_cons
    simpa [spaced_cons, htext] using hc

/-- Each lexeme of a row is read as its token. -/
theorem exists_tokens_spaced {ts : List Token} (h : ∀ t ∈ ts, t.Legible) (line : Nat) :
    ∃ ts' : List Token, (segments line (spaced ts)).filterMap Segment.item? = ts'.map .ok ∧
      ts'.map Token.unlined = ts.map Token.unlined := by
  induction ts generalizing line with
  | nil => exact ⟨[], by simp [spaced, segments], rfl⟩
  | cons t ts ih =>
    obtain ⟨ht, hts⟩ := List.forall_mem_cons.mp h
    obtain ⟨ts', hitems, hsame⟩ := ih hts (line + newlines t.lexeme.toList + newlines [' '])
    have hstop : ∀ s ∈ segments line t.lexeme.toList, s.piece.StopsAt ' ' := by
      simp [ht line, Piece.StopsAt]
    refine ⟨⟨t.kind, t.lexeme, line + newlines t.lexeme.toList⟩ :: ts', ?_, ?_⟩
    · rw [spaced_cons, segments_append_blank rfl _ _ _ hstop, ht, segments_blank rfl]
      simp only [List.filterMap_cons, Segment.item?, hitems, String.ofList_toList, List.map_cons,
        List.singleton_append]
    · rw [List.map_cons, List.map_cons, hsame]
      rfl

theorem scannedTokens_map_ok (ts : List Token) : scannedTokens (ts.map .ok) = ts := by
  rw [scannedTokens, List.filterMap_map]
  exact List.filterMap_some

theorem scanErrors_map_ok (ts : List Token) : scanErrors (ts.map .ok) = [] := by
  rw [scanErrors, List.filterMap_map]
  exact List.filterMap_eq_nil_iff.mpr fun _ _ => rfl

/--
**Scanning lexemes again.** The lexemes of the tokens of a text, whether it has faults or not, with
a single space between each two of them, are a text without a fault, and its tokens are the same
but for their lines.
-/
theorem rescan_lexemes (source : String) :
    let tokens := scannedTokens (scan source)
    let again := scan (" ".intercalate (tokens.map Token.lexeme))
    scanErrors again = [] ∧
      (scannedTokens again).map Token.unlined = tokens.map Token.unlined := by
  have hlegible : ∀ t ∈ sourceTokens source, t.Legible := fun t => legible_of_mem_sourceTokens
  obtain ⟨ts, hitems, hsame⟩ := exists_tokens_spaced hlegible 1
  intro tokens again
  have htokens : tokens =
      sourceTokens source ++ [⟨.eof, "", 1 + newlines (dropMark source.toList)⟩] :=
    scannedTokens_scan source
  -- The mark at the end has an empty lexeme, so a space stands behind every token.
  have htext : (" ".intercalate (tokens.map Token.lexeme)).toList =
      spaced (sourceTokens source) := by
    rw [String.toList_intercalate, htokens, List.map_map, List.map_append]
    rfl
  have hsource : sourceItems (" ".intercalate (tokens.map Token.lexeme)) = ts.map .ok := by
    rw [sourceItems, htext, dropMark_spaced hlegible, hitems]
  constructor
  · rw [scanErrors_scan, hsource, scanErrors_map_ok]
  · calc (scannedTokens again).map Token.unlined
      _ = ts.map Token.unlined ++ [⟨.eof, "", 0⟩] := by
        rw [scannedTokens_scan, sourceTokens, hsource, scannedTokens_map_ok, List.map_append]
        rfl
      _ = tokens.map Token.unlined := by
        rw [hsame, htokens, List.map_append]
        rfl

end Nya
