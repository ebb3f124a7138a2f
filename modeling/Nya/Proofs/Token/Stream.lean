import Nya.Proofs.Token.Lexeme

/-!
# A scanner that is asked for its items one by one

A scanner keeps the text that is left and hands out one item at each request. It cuts one slice
after another off the text and passes over blanks and comments. At the end it hands out the mark of
the end once, and nothing from then on.

The requests yield the items of `scan`, one each (`Scanner.request_eq`). Nothing of a text is lost,
and nothing is made up: the slices put together are the text, and each is a lexeme, a blank, a
comment, or what exactly one fault reports.

* `Segment.IsPiece` for what a slice may be
* `Scanner.slices_partition_source`
-/

namespace Nya

/-- A scanner: the text that is left, its line, and whether the mark of the end was handed out. -/
structure Scanner where
  rest : List Char
  line : Nat
  ended : Bool
  deriving DecidableEq, Repr

namespace Scanner

/-- The scanner at the start of a source text. -/
def ofSource (source : String) : Scanner := ⟨dropMark source.toList, 1, false⟩

/-- One scan step: the slice cut off the text, and the scanner behind it. -/
def slice? (s : Scanner) : Option (Segment × Scanner) :=
  match s.rest with
  | [] => none
  | c :: cs =>
    let found := Scan.recognise c cs
    let text := c :: cs.take found.2
    let line := s.line + newlines text
    some (⟨found.1, text, line⟩, ⟨cs.drop found.2, line, s.ended⟩)

variable {s s' : Scanner} {slice : Segment}

theorem rest_eq_nil (h : s.slice? = none) : s.rest = [] := by
  unfold slice? at h
  split at h
  · next hrest => exact hrest
  · cases h

/-- A scan step cuts off the first segment of the text that is left. -/
theorem segments_eq_cons (h : s.slice? = some (slice, s')) :
    segments s.line s.rest = slice :: segments s'.line s'.rest ∧ s'.ended = s.ended ∧
      s'.line + newlines s'.rest = s.line + newlines s.rest := by
  unfold slice? at h
  split at h
  · cases h
  · next c cs hrest =>
    cases h
    refine ⟨by rw [hrest, segments], rfl, ?_⟩
    rw [hrest, Nat.add_assoc, ← newlines_append, List.cons_append, List.take_append_drop]

theorem length_rest_lt (h : s.slice? = some (slice, s')) : s'.rest.length < s.rest.length := by
  unfold slice? at h
  split at h
  · cases h
  · next c cs hrest =>
    cases h
    rw [hrest, List.length_drop, List.length_cons]
    omega

/-- The slices of successive scan steps. -/
def slices (s : Scanner) : List Segment :=
  match _h : s.slice? with
  | none => []
  | some (slice, s') => slice :: s'.slices
termination_by s.rest.length
decreasing_by exact length_rest_lt _h

/-- Hands out the next item. -/
def next (s : Scanner) : Option ScanItem × Scanner :=
  match _h : s.slice? with
  | none =>
    if s.ended then (none, s) else (some (.ok ⟨.eof, "", s.line⟩), { s with ended := true })
  | some (slice, s') =>
    match slice.item? with
    | some item => (some item, s')
    | none => s'.next
termination_by s.rest.length
decreasing_by exact length_rest_lt _h

/-- What a request yields that comes after the given number of others. -/
def request : Nat → Scanner → Option ScanItem
  | 0, s => s.next.1
  | n + 1, s => request n s.next.2

/-! ## Requests -/

theorem slices_eq_segments (s : Scanner) : s.slices = segments s.line s.rest := by
  fun_induction slices with
  | case1 s hnone => rw [rest_eq_nil hnone, segments]
  | case2 s slice s' hsome ih => rw [(segments_eq_cons hsome).1, ih]

/-- The items that are still to be handed out. -/
def remaining (s : Scanner) : List ScanItem :=
  (segments s.line s.rest).filterMap Segment.item? ++
    if s.ended then [] else [.ok ⟨.eof, "", s.line + newlines s.rest⟩]

theorem remaining_of_slice? (h : s.slice? = some (slice, s')) :
    s.remaining = slice.item?.toList ++ s'.remaining := by
  obtain ⟨hsegments, hended, hline⟩ := segments_eq_cons h
  rw [remaining, remaining, hsegments, hended, hline, List.filterMap_cons]
  cases slice.item? <;> rfl

/-- A request takes the first of the remaining items. -/
theorem next_remaining (s : Scanner) :
    s.next.1 = s.remaining.head? ∧ s.next.2.remaining = s.remaining.tail := by
  fun_induction next with
  | case1 s hnone hended => simp [remaining, rest_eq_nil hnone, segments, hended]
  | case2 s hnone hended => simp [remaining, rest_eq_nil hnone, segments, hended, newlines]
  | case3 s slice s' hsome item hitem => simp [remaining_of_slice? hsome, hitem]
  | case4 s slice s' hsome hitem ih => simpa [remaining_of_slice? hsome, hitem] using ih

theorem request_eq_remaining (n : Nat) (s : Scanner) : s.request n = s.remaining[n]? := by
  induction n generalizing s with
  | zero => rw [request, (next_remaining s).1, List.head?_eq_getElem?]
  | succ n ih => rw [request, ih, (next_remaining s).2, List.getElem?_tail]

/-- **The requests yield the items of the text, one each, and then nothing.** -/
theorem request_eq (source : String) (n : Nat) :
    (ofSource source).request n = (scan source)[n]? :=
  request_eq_remaining n (ofSource source)

end Scanner

/-! ## Slices -/

/--
The slice is a piece of the given sort, with the text that follows it, and yields what such a piece
yields.
-/
def Segment.IsPiece (s : Segment) (rest : List Char) : Piece → Prop
  | .token kind =>
    kind.Lexeme s.text ∧ s.item? = some (.ok ⟨kind, String.ofList s.text, s.line⟩)
  | .blank => (∃ c ∈ [' ', '\t', '\r', '\n'], s.text = [c]) ∧ s.item? = none
  | .comment => (∃ body, s.text = '/' :: '/' :: body ∧ '\n' ∉ body) ∧
    (rest = [] ∨ rest.head? = some '\n') ∧ s.item? = none
  | .unexpected c => s.text = [c] ∧ s.item? = some (.error ⟨s.line, .unexpected c⟩) ∧
    (ScanCause.unexpected c).message = "Unexpected character: " ++ String.singleton c
  | .unterminated => (∃ body, s.text = '"' :: body ∧ '"' ∉ body) ∧ rest = [] ∧
    s.item? = some (.error ⟨s.line, .unterminated⟩)

namespace Scan

theorem not_mem_takeWhile_ne (c : Char) (cs : List Char) : c ∉ cs.takeWhile (· != c) := by
  intro hmem
  simpa using test_of_mem_takeWhile hmem

theorem head?_drop_takeWhile_ne (c : Char) (cs : List Char) :
    cs.drop (cs.takeWhile (· != c)).length = [] ∨
      (cs.drop (cs.takeWhile (· != c)).length).head? = some c := by
  by_cases hlt : (cs.takeWhile (· != c)).length < cs.length
  · obtain ⟨d, rest, hd, hdrop⟩ := exists_drop_of_takeWhile_lt hlt
    have hd : d = c := by simpa using hd
    rw [hdrop, hd]
    exact .inr rfl
  · exact .inl (List.drop_eq_nil_of_le (Nat.le_of_not_lt hlt))

theorem Found.isPiece {c : Char} {cs : List Char} {piece : Piece} {n : Nat}
    (h : Found c cs piece n) (line : Nat) :
    Segment.IsPiece ⟨piece, c :: cs.take n, line⟩ (cs.drop n) piece := by
  cases piece with
  | token kind => exact ⟨h.lexeme, rfl⟩
  | blank =>
    cases h with
    | blank _ hblank =>
      refine ⟨⟨c, ?_, rfl⟩, rfl⟩
      rcases isBlank_cases hblank with rfl | rfl | rfl | rfl <;> simp
  | comment =>
    cases h with
    | comment hc hhead =>
      obtain ⟨cs, rfl⟩ : ∃ rest, cs = '/' :: rest := List.head?_eq_some_iff.mp hhead
      refine ⟨⟨cs.takeWhile (· != '\n'), ?_, not_mem_takeWhile_ne _ cs⟩,
        head?_drop_takeWhile_ne _ _, rfl⟩
      rw [take_length_takeWhile, hc]
      rfl
  | unexpected d =>
    cases h with
    | unexpected _ _ _ _ _ => exact ⟨rfl, rfl, rfl⟩
  | unterminated =>
    cases h with
    | unterminated _ hquote hall =>
      refine ⟨⟨cs, by rw [hquote, List.take_length], ?_⟩, List.drop_length, rfl⟩
      exact hall ▸ not_mem_takeWhile_ne _ cs

end Scan

/-- Each segment of a text is such a piece. -/
theorem isPiece_of_segments_eq {line : Nat} {text : List Char} {s : Segment}
    {after : List Segment} (before : List Segment) (h : segments line text = before ++ s :: after) :
    s.IsPiece (after.flatMap Segment.text) s.piece := by
  fun_induction segments line text generalizing before with
  | case1 line => simp at h
  | case2 line c cs found text last ih =>
    cases before with
    | nil =>
      obtain ⟨rfl, rfl⟩ := List.cons.inj h
      rw [flatMap_text_segments]
      exact (Scan.found_recognise c cs).isPiece _
    | cons first before => exact ih before (List.cons.inj h).2

/-- A slice is a piece of one sort only. -/
theorem Segment.IsPiece.unique {s : Segment} {rest : List Char} {p q : Piece}
    (hp : s.IsPiece rest p) (hq : s.IsPiece rest q) : p = q := by
  -- What a piece yields tells the sorts apart, except for blanks and comments, which yield nothing.
  cases p <;> cases q <;> grind [Segment.IsPiece]

/-! ## The source and its slices -/

namespace Scanner

theorem toList_eq_mark_append (source : String) :
    source.toList = dropMark source.toList ∧ source.toList.head? ≠ some '\ufeff' ∨
      source.toList = '\ufeff' :: dropMark source.toList := by
  cases htext : source.toList with
  | nil => exact .inl ⟨rfl, nofun⟩
  | cons c cs =>
    by_cases hmark : c = '\ufeff'
    · exact .inr (by simp [dropMark, hmark])
    · exact .inl (by simp [dropMark, hmark])

/--
**The slices of a source.** Its slices in order, behind a single mark that it may start with, are
the source. Each slice is a piece of exactly one sort, with what a piece of that sort yields. The
requests yield the items of the slices and then one mark of the end, each of them once, and nothing
ever after.
-/
theorem slices_partition_source (source : String) :
    let slices := (ofSource source).slices
    let text := slices.flatMap Segment.text
    let items := slices.filterMap Segment.item? ++ [.ok ⟨.eof, "", 1 + newlines text⟩]
    (source.toList = text ∧ source.toList.head? ≠ some '\ufeff' ∨
      source.toList = '\ufeff' :: text) ∧
    (∀ before s after, slices = before ++ s :: after →
      ∃ p, s.IsPiece (after.flatMap Segment.text) p ∧ p ≠ .token .eof ∧
        ∀ q, s.IsPiece (after.flatMap Segment.text) q → q = p) ∧
    scan source = items ∧ ∀ n, (ofSource source).request n = items[n]? := by
  intro slices text items
  have hslices : slices = segments 1 (dropMark source.toList) := slices_eq_segments _
  have htext : text = dropMark source.toList := by
    rw [show text = slices.flatMap Segment.text from rfl, hslices, flatMap_text_segments]
  have hitems : scan source = items := by
    rw [show items = slices.filterMap Segment.item? ++ _ from rfl, htext, hslices]
    rfl
  refine ⟨htext ▸ toList_eq_mark_append source, ?_, hitems, ?_⟩
  · intro before s after hcut
    have hpiece := isPiece_of_segments_eq before (hslices ▸ hcut)
    refine ⟨s.piece, hpiece, ?_, fun q hq => hq.unique hpiece⟩
    intro heof
    rw [heof] at hpiece
    exact hpiece.1
  · intro n
    rw [request_eq, hitems]

end Scanner

end Nya
