import Nya.Token.Scan

/-!
# What stands at the start of a text

`Scan.Found` gives the rules by which a text is cut, one for each kind of piece, and the recogniser
follows them (`Scan.Found.recognise_eq`). Proofs about scanning go by these rules and do not open
the recogniser.

No operator begins another one, so which operator a text starts with does not depend on the order
of the table (`Scan.operator?_eq_some_iff`).
-/

namespace Nya.Scan

/-! ## Operators -/

/-- No operator begins another one. -/
theorem eq_of_prefix_spelling : ∀ s ∈ Symbol.operators, ∀ t ∈ Symbol.operators,
    s.spelling.toList <+: t.spelling.toList → s = t := by decide

theorem spelling_length_pos : ∀ s ∈ Symbol.operators, 0 < s.spelling.toList.length := by decide

/-- No operator is found just if none stands at the start. -/
theorem operator?_eq_none_iff {text : List Char} :
    operator? text = none ↔ ∀ s ∈ Symbol.operators, ¬ s.spelling.toList <+: text := by
  simp [operator?, operatorTable]

/-- The operator that is found is the only one that stands at the start. -/
theorem operator?_eq_some_iff {text : List Char} {s : Symbol} {n : Nat} :
    operator? text = some (s, n) ↔
      s ∈ Symbol.operators ∧ s.spelling.toList <+: text ∧ n = s.spelling.toList.length := by
  have hfound : ∀ {t : Symbol} {m : Nat}, operator? text = some (t, m) →
      t ∈ Symbol.operators ∧ t.spelling.toList <+: text ∧ m = t.spelling.toList.length := by
    intro t m h
    rw [operator?] at h
    obtain ⟨entry, hentry, heq⟩ := Option.map_eq_some_iff.mp h
    obtain ⟨u, hu, rfl⟩ := List.mem_map.mp (List.mem_of_find?_eq_some hentry)
    have hstart := List.find?_some hentry
    rw [List.isPrefixOf_iff_prefix] at hstart
    cases heq
    exact ⟨hu, hstart, rfl⟩
  refine ⟨hfound, ?_⟩
  rintro ⟨hs, hstart, rfl⟩
  cases h : operator? text with
  | none => exact absurd hstart (operator?_eq_none_iff.mp h s hs)
  | some entry =>
    obtain ⟨t, m⟩ := entry
    obtain ⟨ht, hstart', rfl⟩ := hfound h
    -- Of two operators at the start of one text the shorter one begins the longer one.
    have hst : t = s := by
      rcases List.prefix_or_prefix_of_prefix hstart hstart' with hle | hle
      · exact (eq_of_prefix_spelling s hs t ht hle).symm
      · exact eq_of_prefix_spelling t ht s hs hle
    rw [hst]

/-! ## Numbers and words -/

/-- The digits of the fraction, if a point and a digit follow. -/
def fraction : List Char → List Char
  | '.' :: ds => ds.takeWhile Char.isDigit
  | _ => []

/-- The number literal that starts with the digit `c`, and how many characters follow it. -/
def number (c : Char) (cs : List Char) : Float × Nat :=
  let whole := cs.takeWhile Char.isDigit
  let part := fraction (cs.drop whole.length)
  let value := Float.ofScientific (digitsValue (c :: whole ++ part)) true part.length
  (value, if part.isEmpty then whole.length else whole.length + 1 + part.length)

/-- A keyword is spelled as its word. -/
theorem spelling_of_keyword? {word : List Char} {s : Symbol} (h : keyword? word = some s) :
    s.spelling.toList = word := by
  obtain ⟨entry, hentry, rfl⟩ := Option.map_eq_some_iff.mp h
  obtain ⟨s, -, rfl⟩ := List.mem_map.mp (List.mem_of_find?_eq_some hentry)
  have hword := List.find?_some hentry
  exact beq_iff_eq.mp hword

/-- A word is no keyword just if it is spelled like none. -/
theorem keyword?_eq_none_iff {word : List Char} :
    keyword? word = none ↔ ∀ s ∈ Symbol.keywords, s.spelling.toList ≠ word := by
  simp [keyword?, keywordTable]

/-- The kind of an identifier-like word. -/
def wordKind (word : List Char) : Kind :=
  match keyword? word with
  | some symbol => .symbol symbol
  | none => .identifier

/-! ## The rules -/

/-- Neither a comment nor an operator stands at the start of the text. -/
structure Plain (c : Char) (cs : List Char) : Prop where
  comment : ¬ (c = '/' ∧ cs.head? = some '/')
  operator : operator? (c :: cs) = none

/-- The rules for the piece at the start of the text `c :: cs`, and how much of `cs` it takes. -/
inductive Found (c : Char) (cs : List Char) : Piece → Nat → Prop
  | comment : c = '/' → cs.head? = some '/' →
    Found c cs .comment (cs.takeWhile (· != '\n')).length
  | operator {s : Symbol} {n : Nat} : ¬ (c = '/' ∧ cs.head? = some '/') →
    operator? (c :: cs) = some (s, n) → Found c cs (.token (.symbol s)) (n - 1)
  | blank : Plain c cs → isBlank c = true → Found c cs .blank 0
  | string : Plain c cs → c = '"' → (cs.takeWhile (· != '"')).length < cs.length →
    Found c cs (.token (.string (String.ofList (cs.takeWhile (· != '"')))))
      ((cs.takeWhile (· != '"')).length + 1)
  | unterminated : Plain c cs → c = '"' → cs.takeWhile (· != '"') = cs →
    Found c cs .unterminated cs.length
  | number : Plain c cs → c.isDigit = true →
    Found c cs (.token (.number (number c cs).1)) (number c cs).2
  | word : Plain c cs → isWordStart c = true →
    Found c cs (.token (wordKind (c :: cs.takeWhile isWordPart))) (cs.takeWhile isWordPart).length
  | unexpected : Plain c cs → isBlank c = false → c ≠ '"' → c.isDigit = false →
    isWordStart c = false → Found c cs (.unexpected c) 0

variable {c : Char} {cs : List Char} {piece : Piece} {n : Nat}

/-! The first characters of the plain pieces differ. -/

/-- There are four blanks. -/
theorem isBlank_cases (h : isBlank c = true) : c = ' ' ∨ c = '\r' ∨ c = '\t' ∨ c = '\n' := by
  simpa [isBlank, or_assoc] using h

theorem isDigit_of_isBlank (h : isBlank c = true) : c.isDigit = false := by
  rcases isBlank_cases h with rfl | rfl | rfl | rfl <;> rfl

theorem isWordPart_of_isBlank (h : isBlank c = true) : isWordPart c = false := by
  rcases isBlank_cases h with rfl | rfl | rfl | rfl <;> rfl

theorem isWordPart_of_isDigit (h : c.isDigit = true) : isWordPart c = true := by
  simp [isWordPart, Char.isAlphanum, h]

/-- A word may go on with what it may start with. -/
theorem isWordPart_of_isWordStart (h : isWordStart c = true) : isWordPart c = true := by
  rcases Bool.or_eq_true_iff.mp h with h | h <;> simp [isWordPart, Char.isAlphanum, h]

theorem isDigit_of_isWordStart (h : isWordStart c = true) : c.isDigit = false := by
  rcases Bool.or_eq_true_iff.mp h with halpha | hunderscore
  · have halpha : (decide (c.val ≥ 'A'.val ∧ c.val ≤ 'Z'.val) ||
        (c.val ≥ 'a'.val && c.val ≤ 'z'.val)) = true := halpha
    show (c.val ≥ '0'.val && c.val ≤ '9'.val) = false
    grind
  · rw [beq_iff_eq.mp hunderscore]
    rfl

theorem isBlank_of_isWordPart (h : isWordPart c = true) : isBlank c = false :=
  Bool.eq_false_iff.mpr fun hblank => by simp [isWordPart_of_isBlank hblank] at h

theorem ne_quote_of_isWordPart (h : isWordPart c = true) : c ≠ '"' := by
  rintro rfl
  cases h

/-! ## Reading numbers -/

theorem take_length_takeWhile (test : Char → Bool) (cs : List Char) :
    cs.take (cs.takeWhile test).length = cs.takeWhile test :=
  (List.prefix_iff_eq_take.mp (List.takeWhile_prefix test)).symm

theorem test_of_mem_takeWhile {test : Char → Bool} {d : Char} (h : d ∈ cs.takeWhile test) :
    test d = true :=
  List.all_eq_true.mp List.all_takeWhile d h

/-- A run is empty just if it does not start. -/
theorem isEmpty_takeWhile (test : Char → Bool) (cs : List Char) :
    (cs.takeWhile test).isEmpty = !cs.head?.any test := by
  cases cs with
  | nil => rfl
  | cons c cs => cases hc : test c <;> simp [hc]

/-- The literal is whole digits only. -/
theorem numberValue_of_digits (h : ∀ d ∈ cs, d.isDigit = true) :
    numberValue cs = Float.ofScientific (digitsValue cs) true 0 := by
  have hwhole : (cs ++ []).takeWhile Char.isDigit = cs ++ [].takeWhile Char.isDigit :=
    List.takeWhile_append_of_pos h
  rw [List.takeWhile_nil, List.append_nil] at hwhole
  rw [numberValue, hwhole, List.drop_eq_nil_of_le (Nat.le_succ _), List.append_nil]
  rfl

/-- The literal has a fraction. -/
theorem numberValue_of_point {part : List Char} (h : ∀ d ∈ cs, d.isDigit = true) :
    numberValue (cs ++ '.' :: part) =
      Float.ofScientific (digitsValue (cs ++ part)) true part.length := by
  have hwhole : (cs ++ '.' :: part).takeWhile Char.isDigit = cs := by
    rw [List.takeWhile_append_of_pos h, List.takeWhile_cons_of_neg (by decide), List.append_nil]
  rw [numberValue, hwhole, List.drop_length_add_append]
  rfl

/-- How much of a text is a point and the digits behind it. -/
def fractionLength (text : List Char) : Nat :=
  if (fraction text).isEmpty then 0 else 1 + (fraction text).length

/-- A literal takes its whole digits and its fraction. -/
theorem number_snd (c : Char) (cs : List Char) :
    (number c cs).2 = (cs.takeWhile Char.isDigit).length +
      fractionLength (cs.drop (cs.takeWhile Char.isDigit).length) := by
  unfold number fractionLength
  dsimp only
  split <;> omega

/-- The characters of a literal are its whole digits and those of its fraction. -/
theorem take_number (c : Char) (cs : List Char) :
    cs.take (number c cs).2 = cs.takeWhile Char.isDigit ++
      (cs.drop (cs.takeWhile Char.isDigit).length).take
        (fractionLength (cs.drop (cs.takeWhile Char.isDigit).length)) := by
  rw [number_snd, List.take_add, take_length_takeWhile]

/-- A fraction is a point and digits. -/
theorem exists_of_fraction {ds : List Char} (h : fraction ds ≠ []) :
    ∃ rest, ds = '.' :: rest ∧ fraction ds = rest.takeWhile Char.isDigit := by
  unfold fraction at h ⊢
  split
  · next rest => exact ⟨rest, rfl, rfl⟩
  · simp at h

/-- **The value of a number literal is read off its text.** -/
theorem numberValue_take (hc : c.isDigit = true) :
    numberValue (c :: cs.take (number c cs).2) = (number c cs).1 := by
  have hwhole : ∀ d ∈ c :: cs.takeWhile Char.isDigit, d.isDigit = true :=
    List.forall_mem_cons.mpr ⟨hc, fun _ => test_of_mem_takeWhile⟩
  rw [take_number, number, fractionLength]
  generalize cs.drop (cs.takeWhile Char.isDigit).length = rest
  by_cases hempty : fraction rest = []
  · rw [hempty, List.isEmpty_nil, if_pos rfl, List.take_zero, List.append_nil, List.append_nil]
    exact numberValue_of_digits hwhole
  · obtain ⟨ds, rfl, hfraction⟩ := exists_of_fraction hempty
    have htake : ('.' :: ds).take (1 + (fraction ('.' :: ds)).length) =
        '.' :: fraction ('.' :: ds) := by
      rw [Nat.add_comm, List.take_succ_cons, hfraction, take_length_takeWhile]
    rw [if_neg (by simpa using hempty), htake]
    exact numberValue_of_point hwhole

/-! ## The recogniser -/

/-- The scan of a lexeme finds the piece, and so many characters belong to it. -/
def Finds (r : TextScan Piece) (s : TextScanner) (piece : Piece) (taken : Nat) : Prop :=
  (r s).1 = piece ∧ (r s).2.taken = taken

/-- A piece is found by what follows, from where the first part has come to. -/
theorem finds_bind {α : Type} {r : TextScan α} {k : α → TextScan Piece} {s s' : TextScanner}
    {v : α} {taken : Nat} (h : r s = (v, s')) (hk : Finds (k v) s' piece taken) :
    Finds (r >>= k) s piece taken := by
  have hbind : (r >>= k) s = k (r s).1 (r s).2 := rfl
  rw [Finds, hbind, h]
  exact hk

/-- A string is found up to its quote. -/
theorem finds_string (hlt : (cs.takeWhile (· != '"')).length < cs.length) :
    Finds Scanning.string ⟨'"' :: cs, cs, 1⟩
      (.token (.string (String.ofList (cs.takeWhile (· != '"')))))
      ((cs.takeWhile (· != '"')).length + 1 + 1) := by
  have hend : (cs.drop (cs.takeWhile (· != '"')).length).isEmpty = false := by
    rw [List.isEmpty_eq_false_iff, Ne, List.drop_eq_nil_iff]
    omega
  have hinner : (('"' :: cs).take (1 + (cs.takeWhile (· != '"')).length + 1)).tail.dropLast =
      cs.takeWhile (· != '"') := by
    have hlength : min (min (1 + (cs.takeWhile (· != '"')).length) cs.length - 1)
        (1 + (cs.takeWhile (· != '"')).length) = (cs.takeWhile (· != '"')).length := by omega
    rw [List.take_succ_cons, List.tail_cons, List.dropLast_eq_take, List.take_take,
      List.length_take, hlength, take_length_takeWhile]
  refine finds_bind rfl (finds_bind (congrArg (·, _) hend) (finds_bind rfl (finds_bind rfl ?_)))
  refine ⟨congrArg (fun body => Piece.token (.string (String.ofList body))) hinner, ?_⟩
  show 1 + (cs.takeWhile (· != '"')).length + 1 = _
  omega

/-- Without a second quote the rest of the text is passed. -/
theorem finds_unterminated (hall : cs.takeWhile (· != '"') = cs) :
    Finds Scanning.string ⟨'"' :: cs, cs, 1⟩ .unterminated (cs.length + 1) := by
  have hend : (cs.drop (cs.takeWhile (· != '"')).length).isEmpty = true := by
    rw [hall, List.drop_length]
    rfl
  refine finds_bind rfl (finds_bind (congrArg (·, _) hend) ⟨rfl, ?_⟩)
  show 1 + (cs.takeWhile (· != '"')).length = _
  rw [hall, Nat.add_comm]

/-- There is no fraction without a point. -/
theorem fraction_of_ne (hc : c ≠ '.') (cs : List Char) : fraction (c :: cs) = [] := by
  unfold fraction
  split
  · next heq => exact absurd (List.cons.inj heq).1 hc
  · rfl

/-- The end of the text counts as no digit. -/
theorem headD_isDigit (cs : List Char) : (cs.headD '\x00').isDigit = cs.head?.any Char.isDigit := by
  cases cs <;> rfl

/-- Characters are passed one after the other. -/
theorem pass_pass (s : TextScanner) (n k : Nat) : (s.pass n).pass k = s.pass (n + k) := by
  unfold TextScanner.pass
  rw [List.drop_drop, Nat.add_assoc]

/-- A point and the digits behind it are passed. -/
theorem fraction_apply (text rest : List Char) (taken : Nat) :
    (Scanning.fraction : TextScan Unit) ⟨text, rest, taken⟩ =
      ((), TextScanner.pass ⟨text, rest, taken⟩ (fractionLength rest)) := by
  unfold Scanning.fraction
  cases rest with
  | nil => rfl
  | cons d ds =>
    show (if d == '.' && (ds.headD '\x00').isDigit then _ else _ : TextScan Unit) _ = _
    by_cases hd : d = '.'
    · subst hd
      have hempty : (fraction ('.' :: ds)).isEmpty = !ds.head?.any Char.isDigit :=
        isEmpty_takeWhile _ _
      rw [headD_isDigit, fractionLength, hempty]
      cases ds.head?.any Char.isDigit with
      | false => rfl
      | true => exact congrArg (Prod.mk ()) (pass_pass _ _ _)
    · rw [beq_false_of_ne hd, fractionLength, fraction_of_ne hd]
      rfl

/-- A literal is found with its fraction, if a digit follows the point. -/
theorem finds_number (hc : c.isDigit = true) :
    Finds Scanning.number ⟨c :: cs, cs, 1⟩ (.token (.number (number c cs).1))
      ((number c cs).2 + 1) := by
  have htaken : 1 + (cs.takeWhile Char.isDigit).length +
      fractionLength (cs.drop (cs.takeWhile Char.isDigit).length) = (number c cs).2 + 1 := by
    rw [number_snd]
    omega
  have hvalue : numberValue (String.ofList ((c :: cs).take (1 +
      (cs.takeWhile Char.isDigit).length +
      fractionLength (cs.drop (cs.takeWhile Char.isDigit).length)))).toList = (number c cs).1 := by
    rw [String.toList_ofList, htaken, List.take_succ_cons, numberValue_take hc]
  refine finds_bind rfl (finds_bind (fraction_apply _ _ _) (finds_bind rfl ⟨?_, htaken⟩))
  exact congrArg (fun value => Piece.token (.number value)) hvalue

/-- A word is found as far as it goes, keyword or not. -/
theorem finds_word :
    Finds Scanning.word ⟨c :: cs, cs, 1⟩
      (.token (wordKind (c :: cs.takeWhile isWordPart)))
      ((cs.takeWhile isWordPart).length + 1) := by
  have htaken : 1 + (cs.takeWhile isWordPart).length = (cs.takeWhile isWordPart).length + 1 :=
    Nat.add_comm ..
  refine finds_bind rfl (finds_bind rfl (finds_bind rfl ?_))
  show Finds (match keyword? ((c :: cs).take (1 + (cs.takeWhile isWordPart).length)) with
    | some symbol => pure (.token (.symbol symbol))
    | none => pure (.token .identifier)) _ _ _
  rw [htaken, List.take_succ_cons, take_length_takeWhile, wordKind]
  cases keyword? (c :: cs.takeWhile isWordPart) with
  | some symbol => exact ⟨rfl, htaken⟩
  | none => exact ⟨rfl, htaken⟩

/-- What the scanner of a text finds is what is recognised, one character having been looked at. -/
theorem recognise_eq_of_finds (h : Finds TextScan.scanToken ⟨c :: cs, c :: cs, 0⟩ piece (n + 1)) :
    recognise c cs = (piece, n) :=
  Prod.ext h.1 (congrArg (· - 1) h.2)

/-- Behind a slash another one is looked for. -/
theorem slash_apply (h : ¬ (c = '/' ∧ cs.head? = some '/')) :
    (if CodeUnit.test (· == '/') c then Scanning.matchText ['/'] else pure false : TextScan Bool)
      ⟨c :: cs, cs, 1⟩ = (false, ⟨c :: cs, cs, 1⟩) := by
  show (if c == '/' then Scanning.matchText ['/'] else pure false : TextScan Bool) _ = _
  by_cases hc : c = '/'
  · have hstart : ['/'].isPrefixOf cs = false := by
      cases cs with
      | nil => rfl
      | cons d ds =>
        have hd : '/' ≠ d := fun hd => h ⟨hc, congrArg some hd.symm⟩
        rw [List.isPrefixOf, beq_false_of_ne hd, Bool.false_and]
    rw [if_pos (beq_iff_eq.mpr hc)]
    show (if ['/'].isPrefixOf cs then _ else _) = _
    rw [hstart]
    rfl
  · rw [if_neg (by simpa using hc)]
    rfl

theorem test_char (test : Char → Bool) (c : Char) : CodeUnit.test test c = test c := rfl

theorem ne_newline_of_not_isBlank (h : isBlank c = false) : c ≠ '\n' := by
  rintro rfl
  cases h

/-- Where no comment and no operator stands, the first character tells the piece. -/
theorem Plain.recognise_eq (h : Plain c cs)
    (hfinds : Finds (Scanning.plain c) ⟨c :: cs, cs, 1⟩ piece (n + 1)) :
    recognise c cs = (piece, n) := by
  have hoperator : TextScan.matchOperator ⟨c :: cs, cs, 1⟩ = (none, ⟨c :: cs, cs, 1⟩) := by
    simp only [TextScan.matchOperator, h.operator]
  refine recognise_eq_of_finds (finds_bind rfl (finds_bind (slash_apply h.comment) ?_))
  exact finds_bind hoperator hfinds

/-- **What the rules give is what the recogniser finds.** -/
theorem Found.recognise_eq (h : Found c cs piece n) : recognise c cs = (piece, n) := by
  cases h with
  | comment hc hhead =>
    obtain ⟨rest, rfl⟩ := List.head?_eq_some_iff.mp hhead
    subst hc
    refine recognise_eq_of_finds (finds_bind rfl (finds_bind rfl (finds_bind rfl ⟨rfl, ?_⟩)))
    show 1 + 1 + (rest.takeWhile (· != '\n')).length = _
    rw [List.takeWhile_cons_of_pos (by decide), List.length_cons]
    omega
  | @operator s n hcomment hoperator =>
    have hmatch : TextScan.matchOperator ⟨c :: cs, cs, 1⟩ =
        (some s, ⟨c :: cs, (c :: cs).drop n, n⟩) := by
      simp only [TextScan.matchOperator, hoperator, TextScanner.moveTo]
    have hpos : n - 1 + 1 = n := by
      obtain ⟨hs, -, rfl⟩ := operator?_eq_some_iff.mp hoperator
      exact Nat.sub_add_cancel (spelling_length_pos s hs)
    refine recognise_eq_of_finds (finds_bind rfl (finds_bind (slash_apply hcomment) ?_))
    exact finds_bind hmatch ⟨rfl, hpos.symm⟩
  | blank hplain hblank =>
    refine hplain.recognise_eq ?_
    simp only [Scanning.plain, test_char]
    rw [if_pos hblank]
    split
    · exact finds_bind rfl ⟨rfl, rfl⟩
    · exact ⟨rfl, rfl⟩
  | string hplain hquote hlt =>
    subst hquote
    exact hplain.recognise_eq (finds_string hlt)
  | unterminated hplain hquote hall =>
    subst hquote
    exact hplain.recognise_eq (finds_unterminated hall)
  | number hplain hdigit =>
    have hblank := isBlank_of_isWordPart (isWordPart_of_isDigit hdigit)
    have hquote := ne_quote_of_isWordPart (isWordPart_of_isDigit hdigit)
    refine hplain.recognise_eq ?_
    simp only [Scanning.plain, test_char]
    rw [if_neg (by simp [ne_newline_of_not_isBlank hblank]), if_neg (by simp [hblank]),
      if_neg (by simp [hquote]), if_pos hdigit]
    exact finds_number hdigit
  | word hplain hword =>
    have hblank := isBlank_of_isWordPart (isWordPart_of_isWordStart hword)
    have hquote := ne_quote_of_isWordPart (isWordPart_of_isWordStart hword)
    refine hplain.recognise_eq ?_
    simp only [Scanning.plain, test_char]
    rw [if_neg (by simp [ne_newline_of_not_isBlank hblank]), if_neg (by simp [hblank]),
      if_neg (by simp [hquote]), if_neg (by simp [isDigit_of_isWordStart hword]), if_pos hword]
    exact finds_word
  | unexpected hplain hblank hquote hdigit hword =>
    refine hplain.recognise_eq ?_
    simp only [Scanning.plain, test_char]
    rw [if_neg (by simp [ne_newline_of_not_isBlank hblank]), if_neg (by simp [hblank]),
      if_neg (by simp [hquote]), if_neg (by simp [hdigit]), if_neg (by simp [hword])]
    exact finds_bind rfl ⟨rfl, rfl⟩

/-- Some rule applies to each text. -/
theorem exists_found (c : Char) (cs : List Char) : ∃ piece n, Found c cs piece n := by
  by_cases hcomment : c = '/' ∧ cs.head? = some '/'
  · exact ⟨_, _, .comment hcomment.1 hcomment.2⟩
  cases hoperator : operator? (c :: cs) with
  | some entry => exact ⟨_, _, .operator hcomment hoperator⟩
  | none =>
    have hplain : Plain c cs := ⟨hcomment, hoperator⟩
    by_cases hblank : isBlank c = true
    · exact ⟨_, _, .blank hplain hblank⟩
    by_cases hquote : c = '"'
    · by_cases hlt : (cs.takeWhile (· != '"')).length < cs.length
      · exact ⟨_, _, .string hplain hquote hlt⟩
      · have hall := (List.takeWhile_prefix (· != '"')).eq_of_length_le (Nat.le_of_not_lt hlt)
        exact ⟨_, _, .unterminated hplain hquote hall⟩
    by_cases hdigit : c.isDigit = true
    · exact ⟨_, _, .number hplain hdigit⟩
    by_cases hword : isWordStart c = true
    · exact ⟨_, _, .word hplain hword⟩
    · exact ⟨_, _, .unexpected hplain (Bool.eq_false_iff.mpr hblank) hquote
        (Bool.eq_false_iff.mpr hdigit) (Bool.eq_false_iff.mpr hword)⟩

/-- The recogniser follows the rules. -/
theorem found_recognise (c : Char) (cs : List Char) :
    Found c cs (recognise c cs).1 (recognise c cs).2 := by
  obtain ⟨piece, n, hfound⟩ := exists_found c cs
  rw [hfound.recognise_eq]
  exact hfound

/-- A literal does not reach behind the end of the text. -/
theorem number_le (c : Char) (cs : List Char) : (number c cs).2 ≤ cs.length := by
  have hwhole : (cs.takeWhile Char.isDigit).length ≤ cs.length :=
    (List.takeWhile_sublist _).length_le
  have hpart : ∀ ds, fraction ds ≠ [] → 1 + (fraction ds).length ≤ ds.length := by
    intro ds hds
    unfold fraction at hds ⊢
    split
    · next ds =>
      have := (List.takeWhile_sublist Char.isDigit (l := ds)).length_le
      simp only [List.length_cons]
      omega
    · simp at hds
  unfold number
  simp only
  split
  · exact hwhole
  · next hne =>
    have := hpart _ (by simpa using hne)
    rw [List.length_drop] at this
    omega

/-- A piece does not go on over the end of the text. -/
theorem Found.le (h : Found c cs piece n) : n ≤ cs.length := by
  have hle : ∀ test : Char → Bool, (cs.takeWhile test).length ≤ cs.length :=
    fun test => (List.takeWhile_sublist test).length_le
  cases h with
  | comment _ _ => exact hle _
  | operator _ hoperator =>
    obtain ⟨-, hstart, rfl⟩ := operator?_eq_some_iff.mp hoperator
    have := hstart.length_le
    simp only [List.length_cons] at this
    omega
  | string _ _ hlt => exact hlt
  | number _ _ => exact number_le c cs
  | word _ _ => exact hle _
  | unterminated _ _ _ => exact Nat.le_refl _
  | blank _ _ | unexpected _ _ _ _ _ => exact Nat.zero_le _

/-- No piece of a text marks its end. -/
theorem Found.ne_eof (h : Found c cs piece n) : piece ≠ .token .eof := by
  have hword : ∀ word, wordKind word ≠ .eof := by
    intro word
    unfold wordKind
    split <;> exact nofun
  cases h with
  | word _ _ => exact fun h => hword _ (Piece.token.inj h)
  | _ => exact nofun

end Nya.Scan
