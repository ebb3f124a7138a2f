import Nya.Proofs.Token.Bytes
import Nya.Proofs.Token.Stream

/-!
# Scanning by bytes keeps to the boundaries

`Yields` says what a part of a scan gives and where it leaves the cursor, and that no position on
the way was outside the source. Each part has one rule. The bytes of a lexeme are looked at one by
one, but all tests are for characters below 128, so the cursor stops at boundaries only
(`Text.Agrees`): a scanner by bytes finds what `Scan.recognise` finds.

* `ByteScan.yields_scanToken` for one lexeme
* `ByteScan.scan_by_bytes`
-/

namespace Nya.ByteScan

open Text

variable {α β : Type} {source : String} {s s' : ByteScanner} {curr line : Nat}
  {text : List Char} {more : List UInt8 → ByteScanner → Bool}

/-! ## Moving within the source -/

/-- All positions of the cursor from one state of the scanner to another are in the source. -/
def StaysWithin (source : String) (s s' : ByteScanner) : Prop :=
  ∃ positions, s'.trail = s.trail ++ positions ∧ ∀ p ∈ positions, p ≤ source.utf8ByteSize

/-- A scanner whose cursor has not moved has stayed within the source. -/
theorem StaysWithin.of_trail_eq (h : s'.trail = s.trail) : StaysWithin source s s' :=
  ⟨[], by rw [h, List.append_nil], fun _ hp => absurd hp List.not_mem_nil⟩

theorem StaysWithin.trans {s'' : ByteScanner} (h : StaysWithin source s s')
    (h' : StaysWithin source s' s'') : StaysWithin source s s'' := by
  obtain ⟨positions, htrail, hle⟩ := h
  obtain ⟨positions', htrail', hle'⟩ := h'
  refine ⟨positions ++ positions', by rw [htrail', htrail, List.append_assoc], ?_⟩
  exact List.forall_mem_append.mpr ⟨hle, hle'⟩

/-- The scanner has gone on to a position on a line, within the source and in the same lexeme. -/
structure Reached (source : String) (s : ByteScanner) (curr line : Nat) (s' : ByteScanner) :
    Prop where
  curr : s'.curr = curr
  line : s'.line = line
  start : s'.start = s.start
  calls : s'.calls = s.calls
  within : StaysWithin source s s'

theorem Reached.refl (s : ByteScanner) : Reached source s s.curr s.line s :=
  ⟨rfl, rfl, rfl, rfl, .of_trail_eq rfl⟩

theorem Reached.trans {s'' : ByteScanner} {curr' line' : Nat} (h : Reached source s curr line s')
    (h' : Reached source s' curr' line' s'') : Reached source s curr' line' s'' :=
  ⟨h'.curr, h'.line, h'.start.trans h.start, h'.calls.trans h.calls, h.within.trans h'.within⟩

/-- A move of the cursor reaches the position that it is given. -/
theorem Reached.moveTo (s : ByteScanner) (h : curr ≤ source.utf8ByteSize) :
    Reached source s curr s.line (s.moveTo curr) :=
  ⟨rfl, rfl, rfl, rfl, [curr], rfl, fun _ hp => List.mem_singleton.mp hp ▸ h⟩

/-- The part of a scan gives a value and leaves the cursor at a position on a line. -/
def Yields (source : String) (r : ByteScan α) (s : ByteScanner) (v : α) (curr line : Nat) : Prop :=
  ∃ s', r source s = .ok (v, s') ∧ Reached source s curr line s'

theorem bind_apply (r : ByteScan α) (k : α → ByteScan β) (source : String) (s : ByteScanner) :
    (r >>= k) source s =
      match r source s with
      | .ok (value, next) => k value source next
      | .error mishap => .error mishap := rfl

/-- A value is yielded where the scanner stands. -/
theorem yields_pure {v : α} (hcurr : s.curr = curr) (hline : s.line = line) :
    Yields source (pure v) s v curr line :=
  ⟨s, rfl, hcurr ▸ hline ▸ .refl s⟩

/-- What follows a part of a scan starts from where that part has ended. -/
theorem Yields.bind {r : ByteScan α} {k : α → ByteScan β} {v : α} {w : β} {curr' line' : Nat}
    (h : Yields source r s v curr line)
    (hk : ∀ s', Reached source s curr line s' → Yields source (k v) s' w curr' line') :
    Yields source (r >>= k) s w curr' line' := by
  obtain ⟨s', hr, hreached⟩ := h
  obtain ⟨s'', hk, hreached'⟩ := hk s' hreached
  refine ⟨s'', ?_, hreached.trans hreached'⟩
  rw [bind_apply, hr]
  exact hk

theorem yields_scanner {k : ByteScanner → ByteScan α} {v : α}
    (h : Yields source (k s) s v curr line) : Yields source (scanner >>= k) s v curr line := h

theorem yields_bytes {k : List UInt8 → ByteScan α} {v : α}
    (h : Yields source (k (sourceBytes source)) s v curr line) :
    Yields source (bytes >>= k) s v curr line := h

theorem yields_isAtEnd {k : Bool → ByteScan α} {v : α}
    (h : Yields source (k (s.isAtEnd (sourceBytes source))) s v curr line) :
    Yields source (Scanning.isAtEnd >>= k) s v curr line := h

theorem yields_peek {k : UInt8 → ByteScan α} {v : α}
    (h : Yields source (k (s.peek (sourceBytes source))) s v curr line) :
    Yields source (Scanning.peek >>= k) s v curr line := h

theorem yields_peekNext {k : UInt8 → ByteScan α} {v : α}
    (h : Yields source (k (s.peekNext (sourceBytes source))) s v curr line) :
    Yields source (Scanning.peekNext >>= k) s v curr line := h

/-- Counting a line moves no cursor. -/
theorem yields_newLine : Yields source Scanning.newLine s () s.curr (s.line + 1) :=
  ⟨{ s with line := s.line + 1 }, rfl, rfl, rfl, rfl, rfl, .of_trail_eq rfl⟩

theorem yields_moveTo (h : curr ≤ source.utf8ByteSize) :
    Yields source (moveTo curr) s () curr s.line :=
  ⟨s.moveTo curr, rfl, .moveTo s h⟩

/-! ## Bytes ahead -/

/-- The bytes from the cursor on. -/
structure Ahead (source : String) (s : ByteScanner) (bs : List UInt8) : Prop where
  le : s.curr ≤ source.utf8ByteSize
  drop : (sourceBytes source).drop s.curr = bs

variable {bs : List UInt8} {b : UInt8}

/-- The byte at the cursor is the first of those ahead. -/
theorem Ahead.getElem? (h : Ahead source s bs) : (sourceBytes source)[s.curr]? = bs.head? := by
  rw [← h.drop, List.head?_drop]

/-- The bytes ahead reach to the end of the source. -/
theorem Ahead.length (h : Ahead source s bs) : s.curr + bs.length = source.utf8ByteSize := by
  have hle := h.le
  rw [← h.drop, List.length_drop, length_sourceBytes]
  omega

/-- After some of the bytes ahead, the others are ahead. -/
theorem Ahead.of_reached {n : Nat} (h : Ahead source s bs) (hn : n ≤ bs.length)
    (hreached : Reached source s (s.curr + n) line s') : Ahead source s' (bs.drop n) where
  le := by
    have hlength := h.length
    rw [hreached.curr]
    omega
  drop := by rw [hreached.curr, ← List.drop_drop, h.drop]

/-- Moving on yields the byte ahead, and there is no mishap if there is one. -/
theorem yields_advance (h : Ahead source s (b :: bs)) :
    Yields source Scanning.advance s b (s.curr + 1) s.line := by
  have hlength := h.length
  show Yields source advance s b (s.curr + 1) s.line
  refine yields_scanner (yields_bytes ?_)
  rw [h.getElem?]
  refine (yields_moveTo ?_).bind fun s' hs' => ?_
  · rw [List.length_cons] at hlength
    omega
  · exact yields_pure hs'.curr hs'.line

theorem yields_remaining (h : Ahead source s bs) :
    Yields source remaining s bs s.curr s.line := by
  refine yields_scanner (yields_bytes ?_)
  rw [if_pos (show s.curr ≤ (sourceBytes source).length from h.le), h.drop]
  exact yields_pure rfl rfl

/-- Bytes are matched just if they are ahead, and the cursor moves behind them. -/
theorem yields_matchBytes {tail : List UInt8} (h : Ahead source s bs) :
    Yields source (matchBytes tail) s (tail.isPrefixOf bs)
      (if tail.isPrefixOf bs then s.curr + tail.length else s.curr) s.line := by
  refine (yields_remaining h).bind fun s₁ h₁ => ?_
  have hlength := h.length
  by_cases hstart : tail.isPrefixOf bs = true
  · have hle := (List.isPrefixOf_iff_prefix.mp hstart).length_le
    rw [if_pos hstart, if_pos hstart, hstart]
    refine yields_scanner ((yields_moveTo (by rw [h₁.curr]; omega)).bind fun s₂ h₂ => ?_)
    exact yields_pure (by rw [h₂.curr, h₁.curr]) (h₂.line.trans h₁.line)
  · rw [if_neg hstart, if_neg hstart, Bool.eq_false_iff.mpr hstart]
    exact yields_pure h₁.curr h₁.line

/-- A text is matched by its bytes. -/
theorem yields_matchText (h : Ahead source s bs) :
    Yields source (Scanning.matchText text) s ((bytesOf text).isPrefixOf bs)
      (if (bytesOf text).isPrefixOf bs then s.curr + (bytesOf text).length else s.curr) s.line :=
  yields_matchBytes h

/-- One turn of the loop, for a byte that is passed. -/
theorem advanceWhile_of_true {endsLine : UInt8 → Bool} (hmore : more (sourceBytes source) s = true)
    (hb : (sourceBytes source)[s.curr]? = some b) :
    advanceWhile more endsLine source s =
      advanceWhile more endsLine source
        { s.moveTo (s.curr + 1) with line := if endsLine b then s.line + 1 else s.line } := by
  rw [advanceWhile, if_pos hmore]
  split
  · next hnone => cases hnone.symm.trans hb
  · next b' hb' =>
    cases hb'.symm.trans hb
    rfl

/-- The loop ends where its condition does not hold. -/
theorem advanceWhile_of_false {endsLine : UInt8 → Bool}
    (hmore : more (sourceBytes source) s = false) :
    advanceWhile more endsLine source s = .ok ((), s) := by
  rw [advanceWhile, if_neg (Bool.eq_false_iff.mp hmore)]

/-- Bytes are passed as long as they pass the test that the condition makes of the next one. -/
theorem yields_advanceWhile {endsLine test : UInt8 → Bool}
    (hmore : ∀ s, more (sourceBytes source) s = (sourceBytes source)[s.curr]?.any test)
    (h : Ahead source s bs) :
    Yields source (advanceWhile more endsLine) s () (s.curr + (bs.takeWhile test).length)
      (s.line + (bs.takeWhile test).countP endsLine) := by
  induction bs generalizing s with
  | nil =>
    have hstop : more (sourceBytes source) s = false := by
      rw [hmore, h.getElem?]
      rfl
    exact ⟨s, advanceWhile_of_false hstop, .refl s⟩
  | cons b bs ih =>
    have hnext := hmore s
    rw [h.getElem?] at hnext
    cases hb : test b with
    | false =>
      rw [List.takeWhile_cons_of_neg (by simp [hb])]
      exact ⟨s, advanceWhile_of_false (hnext.trans hb), .refl s⟩
    | true =>
      have hle : s.curr + 1 ≤ source.utf8ByteSize := by
        have hlength := h.length
        rw [List.length_cons] at hlength
        omega
      have hline : Reached source s (s.curr + 1) (if endsLine b then s.line + 1 else s.line)
          { s.moveTo (s.curr + 1) with line := if endsLine b then s.line + 1 else s.line } :=
        ⟨rfl, rfl, rfl, rfl, (Reached.moveTo s hle).within⟩
      obtain ⟨s', hrun, hs'⟩ := ih (h.of_reached (Nat.succ_le_succ (Nat.zero_le _)) hline)
      refine ⟨s', (advanceWhile_of_true (hnext.trans hb) h.getElem?).trans hrun, ?_⟩
      rw [List.takeWhile_cons_of_pos hb, List.length_cons, List.countP_cons]
      have hreached := hline.trans hs'
      have hcurr : s.curr + 1 + (bs.takeWhile test).length =
          s.curr + ((bs.takeWhile test).length + 1) := by omega
      have hlines : (if endsLine b then s.line + 1 else s.line) +
          (bs.takeWhile test).countP endsLine =
          s.line + ((bs.takeWhile test).countP endsLine + if endsLine b then 1 else 0) := by
        split <;> omega
      exact hcurr ▸ hlines ▸ hreached

/-! ## Characters ahead -/

/-- The cursor is at the boundary between two parts of the source. -/
structure Standing (source : String) (s : ByteScanner) (before after : List Char) : Prop where
  curr : s.curr = byteLength before
  text : source.toList = before ++ after

variable {before after cs : List Char} {c : Char} {onByte : UInt8 → Bool} {onChar : Char → Bool}

/-- Where the cursor stands between characters, the bytes of the others are ahead. -/
theorem Standing.ahead (h : Standing source s before after) : Ahead source s (bytesOf after) where
  le := h.curr ▸ (isBoundary_byteLength h.text).le
  drop := by rw [h.curr, drop_sourceBytes h.text]

/-- A test that agrees on bytes and characters agrees on what comes first. -/
theorem head?_bytesOf_any (hagrees : Agrees onByte onChar) (cs : List Char) :
    (bytesOf cs).head?.any onByte = cs.head?.any onChar := by
  cases cs with
  | nil => rfl
  | cons c cs =>
    cases hbytes : bytesOf (c :: cs) with
    | nil => simp [String.utf8EncodeChar_ne_nil] at hbytes
    | cons b bs => exact hagrees.head hbytes

/-- The bytes of a character are ahead just if the character is. -/
theorem isPrefixOf_bytesOf_singleton (q : Char) (cs : List Char) :
    (bytesOf [q]).isPrefixOf (bytesOf cs) = decide (cs.head? = some q) := by
  rw [Bool.eq_iff_iff, List.isPrefixOf_iff_prefix, bytesOf_prefix_iff, decide_eq_true_eq]
  cases cs with
  | nil => simp
  | cons c cs => simp [List.cons_prefix_cons, @eq_comm Char]

theorem any_eq_getD {o : Option UInt8} (hzero : onByte 0 = false) :
    onByte (o.getD 0) = o.any onByte := by
  cases o with
  | none => exact hzero
  | some b => rfl

/-- A test of the next byte is one of the next character. -/
theorem Standing.peek (h : Standing source s before after) (hagrees : Agrees onByte onChar)
    (hzero : onByte 0 = false) :
    onByte (s.peek (sourceBytes source)) = after.head?.any onChar := by
  rw [ByteScanner.peek, List.getD_eq_getElem?_getD, any_eq_getD hzero, h.ahead.getElem?,
    head?_bytesOf_any hagrees]

/-- The byte behind that at the cursor is tested like the next character. -/
theorem Standing.peekNext (h : Standing source s before (c :: after)) (hc : c.toNat < 128)
    (hagrees : Agrees onByte onChar) (hzero : onByte 0 = false) :
    onByte (s.peekNext (sourceBytes source)) = after.head?.any onChar := by
  have hdrop : (sourceBytes source).drop (s.curr + 1) = bytesOf after := by
    rw [← List.drop_drop, h.ahead.drop, bytesOf_cons, utf8EncodeChar_of_lt hc]
    rfl
  rw [ByteScanner.peekNext, List.getD_eq_getElem?_getD, any_eq_getD hzero, ← List.head?_drop, hdrop,
    head?_bytesOf_any hagrees]

/-- A run of bytes that pass a test ends where that of the characters does. -/
theorem Standing.yields_advanceWhile {endsLine : UInt8 → Bool} (h : Standing source s before after)
    (hagrees : Agrees onByte onChar)
    (hmore : ∀ s, more (sourceBytes source) s = (sourceBytes source)[s.curr]?.any onByte) :
    Yields source (advanceWhile more endsLine) s ()
      (byteLength (before ++ after.takeWhile onChar))
      (s.line + (bytesOf (after.takeWhile onChar)).countP endsLine) := by
  have hrun : Yields source (advanceWhile more endsLine) s () _ _ :=
    ByteScan.yields_advanceWhile hmore h.ahead
  rw [hagrees.takeWhile_bytesOf, h.curr] at hrun
  rwa [byteLength_append]

/-- The body of a string is passed up to the quote, and its lines are counted. -/
theorem Standing.yields_stringBody (h : Standing source s before after) :
    Yields source (Scanning.advanceUntil (isChar '"')) s ()
      (byteLength (before ++ after.takeWhile (· != '"')))
      (s.line + newlines (after.takeWhile (· != '"'))) := by
  rw [newlines, ← countP_isChar_bytesOf (by decide)]
  refine h.yields_advanceWhile (agrees_isChar (by decide)).not fun s => ?_
  rw [ByteScanner.isAtEnd, ByteScanner.peek, List.getD_eq_getElem?_getD]
  by_cases hlt : s.curr < (sourceBytes source).length
  · rw [List.getElem?_eq_getElem hlt, decide_eq_false (Nat.not_le.mpr hlt)]
    rfl
  · rw [List.getElem?_eq_none (Nat.le_of_not_lt hlt), decide_eq_true (Nat.le_of_not_lt hlt)]
    rfl

/-- A run of plain characters is passed byte by byte. -/
theorem Standing.yields_run {test : Char → Bool} (h : Standing source s before after)
    (htest : ∀ c, test c = true → c.toNat < 128) (hzero : test '\x00' = false) :
    Yields source (Scanning.advanceWhile (testByte test)) s ()
      (byteLength (before ++ after.takeWhile test)) s.line := by
  have hmore : ∀ s : ByteScanner, testByte test (s.peek (sourceBytes source)) =
      (sourceBytes source)[s.curr]?.any (testByte test) := by
    intro s
    rw [ByteScanner.peek, List.getD_eq_getElem?_getD]
    exact any_eq_getD hzero
  have hrun : Yields source (advanceWhile (fun all s => testByte test (s.peek all)) fun _ => false)
      s () _ _ := h.yields_advanceWhile (agrees_testByte htest) hmore
  rwa [List.countP_false] at hrun

theorem Standing.yields_advance (h : Standing source s before (c :: after)) (hc : c.toNat < 128) :
    Yields source Scanning.advance s (UInt8.ofNat c.toNat) (byteLength (before ++ [c])) s.line := by
  have hahead := h.ahead
  rw [bytesOf_cons, utf8EncodeChar_of_lt hc] at hahead
  rw [byteLength_append, byteLength_cons_of_lt hc, byteLength_nil, ← h.curr]
  exact ByteScan.yields_advance hahead

/-- The scanner is at the end just if no character is left. -/
theorem Standing.isAtEnd (h : Standing source s before after) :
    s.isAtEnd (sourceBytes source) = after.isEmpty := by
  have hlength := h.ahead.length
  have hpos := length_le_byteLength after
  rw [byteLength] at hpos
  rw [ByteScanner.isAtEnd, length_sourceBytes, ← hlength]
  cases after with
  | nil => exact decide_eq_true (Nat.le_refl _)
  | cons c cs =>
    rw [List.length_cons] at hpos
    exact decide_eq_false (by omega)

/-- A slice between two characters is the text between them. -/
theorem yields_slice (h : source.toList = before ++ text ++ after) :
    Yields source (slice (byteLength before) (byteLength (before ++ text))) s
      (String.ofList text) s.curr s.line :=
  ⟨s, by simp only [slice, slice?_byteLength h], .refl s⟩

/-- The bytes between two characters are those of the text between them. -/
theorem yields_bytesBetween (h : source.toList = before ++ text ++ after) :
    Yields source (bytesBetween (byteLength before) (byteLength (before ++ text))) s
      (bytesOf text) s.curr s.line := by
  have hle : byteLength before ≤ byteLength (before ++ text) := by
    rw [byteLength_append]
    exact Nat.le_add_right _ _
  have hbetween : ((sourceBytes source).drop (byteLength before)).take
      (byteLength (before ++ text) - byteLength before) = bytesOf text := by
    rw [drop_sourceBytes (h.trans (List.append_assoc _ _ _)), byteLength_append,
      Nat.add_sub_cancel_left, bytesOf_append]
    exact List.take_left
  refine yields_bytes ?_
  rw [if_pos ⟨hle, (isBoundary_byteLength h).le⟩, hbetween]
  exact yields_pure rfl rfl

/-! ## Lexemes -/

/-- The characters of words have one byte each. -/
theorem toNat_lt_of_isWordPart (c : Char) (h : Scan.isWordPart c = true) : c.toNat < 128 := by
  rcases Bool.or_eq_true_iff.mp h with halphanum | hunderscore
  · have hranges : ((decide (c.val ≥ 'A'.val ∧ c.val ≤ 'Z'.val) ||
        (c.val ≥ 'a'.val && c.val ≤ 'z'.val)) || (c.val ≥ '0'.val && c.val ≤ '9'.val)) = true :=
      halphanum
    have hle : c.val ≤ 'z'.val := by grind
    exact Nat.lt_of_le_of_lt (UInt32.le_iff_toNat_le.mp hle) (by decide)
  · rw [beq_iff_eq.mp hunderscore]
    decide

theorem toNat_lt_of_isWordStart (c : Char) (h : Scan.isWordStart c = true) : c.toNat < 128 :=
  toNat_lt_of_isWordPart c (Scan.isWordPart_of_isWordStart h)

theorem toNat_lt_of_isBlank (c : Char) (h : Scan.isBlank c = true) : c.toNat < 128 := by
  rcases Scan.isBlank_cases h with rfl | rfl | rfl | rfl <;> decide

theorem toNat_lt_of_isDigit (c : Char) (h : c.isDigit = true) : c.toNat < 128 :=
  toNat_lt_of_isWordPart c (Scan.isWordPart_of_isDigit h)

/-- The first byte of the lexeme `c :: ...` was just passed. -/
structure Lead (source : String) (s : ByteScanner) (before : List Char) (c : Char)
    (cs : List Char) : Prop where
  text : source.toList = before ++ c :: cs
  start : s.start = byteLength before
  curr : s.curr = byteLength before + 1

/-- Behind the first byte of a lexeme the other bytes are ahead. -/
theorem Lead.ahead (h : Lead source s before c cs) (hbytes : bytesOf (c :: cs) = b :: bs) :
    Ahead source s bs := by
  have hdrop : (sourceBytes source).drop (byteLength before) = b :: bs :=
    (drop_sourceBytes h.text).trans hbytes
  constructor
  · have hlength := congrArg List.length hdrop
    rw [List.length_drop, length_sourceBytes, List.length_cons] at hlength
    rw [h.curr]
    omega
  · rw [h.curr, ← List.drop_drop, hdrop]
    rfl

theorem Lead.of_reached (h : Lead source s before c cs)
    (hreached : Reached source s s.curr line s') : Lead source s' before c cs :=
  ⟨h.text, hreached.start.trans h.start, hreached.curr.trans h.curr⟩

/-- Behind a character below 128 the cursor is at a boundary. -/
theorem Lead.standing (h : Lead source s before c cs) (hc : c.toNat < 128) :
    Standing source s (before ++ [c]) cs where
  curr := by rw [h.curr, byteLength_append, byteLength_cons_of_lt hc, byteLength_nil]
  text := by rw [h.text, List.append_assoc, List.singleton_append]

/-- A string that is closed is read up to its second quote. -/
theorem Lead.yields_string (h : Lead source s before '"' cs)
    (hlt : (cs.takeWhile (· != '"')).length < cs.length) :
    Yields source Scanning.string s (.token (.string (String.ofList (cs.takeWhile (· != '"')))))
      (byteLength (before ++ '"' :: cs.take ((cs.takeWhile (· != '"')).length + 1)))
      (s.line + newlines ('"' :: cs.take ((cs.takeWhile (· != '"')).length + 1))) := by
  obtain ⟨q, rest, hq, hdrop⟩ := Scan.exists_drop_of_takeWhile_lt hlt
  obtain rfl : q = '"' := by simpa using hq
  have htake : cs.take ((cs.takeWhile (· != '"')).length + 1) =
      cs.takeWhile (· != '"') ++ ['"'] := by
    rw [List.take_add, Scan.take_length_takeWhile, hdrop]
    rfl
  have hcs : cs = cs.takeWhile (· != '"') ++ '"' :: rest := by
    rw [← hdrop]
    exact (List.prefix_iff_eq_append.mp (List.takeWhile_prefix _)).symm
  have hbody := (h.standing (by decide)).yields_stringBody
  rw [htake]
  generalize cs.takeWhile (· != '"') = body at hcs hbody
  have htext : source.toList = before ++ ['"'] ++ body ++ '"' :: rest := by
    rw [h.text, hcs]
    simp
  have hlines : newlines ('"' :: (body ++ ['"'])) = newlines body := by simp [newlines]
  rw [hlines]
  refine hbody.bind fun s₁ h₁ => yields_isAtEnd ?_
  have hs₁ : Standing source s₁ (before ++ ['"'] ++ body) ('"' :: rest) := ⟨h₁.curr, htext⟩
  rw [hs₁.isAtEnd, if_neg (by simp)]
  refine (hs₁.yields_advance (by decide)).bind fun s₂ h₂ => ?_
  have hlow : s₂.start + 1 = byteLength (before ++ ['"']) := by
    rw [h₂.start, h₁.start, h.start, byteLength_append]
    rfl
  have hhigh : s₂.curr - 1 = byteLength (before ++ ['"'] ++ body) := by
    rw [h₂.curr, byteLength_append _ ['"']]
    rfl
  have hinner : Yields source Scanning.inner s₂ (String.ofList body) s₂.curr s₂.line := by
    refine yields_scanner ?_
    rw [hlow, hhigh]
    exact yields_slice htext
  refine hinner.bind fun s₃ h₃ => ?_
  refine yields_pure ?_ (h₃.line.trans (h₂.line.trans h₁.line))
  rw [h₃.curr, h₂.curr]
  simp

/-- A string that is not closed is read to the end. -/
theorem Lead.yields_unterminated (h : Lead source s before '"' cs)
    (hall : cs.takeWhile (· != '"') = cs) :
    Yields source Scanning.string s .unterminated (byteLength (before ++ '"' :: cs))
      (s.line + newlines ('"' :: cs)) := by
  have hbody := (h.standing (by decide)).yields_stringBody
  rw [hall] at hbody
  have htext : source.toList = before ++ ['"'] ++ cs ++ [] := by
    rw [h.text]
    simp
  have hlines : newlines ('"' :: cs) = newlines cs := by simp [newlines]
  refine hbody.bind fun s₁ h₁ => yields_isAtEnd ?_
  have hs₁ : Standing source s₁ (before ++ ['"'] ++ cs) [] := ⟨h₁.curr, htext⟩
  rw [hs₁.isAtEnd, if_pos List.isEmpty_nil, hlines]
  refine yields_pure ?_ h₁.line
  rw [h₁.curr]
  simp

/-- Digits are passed byte by byte. -/
theorem Standing.yields_digits (h : Standing source s before after) :
    Yields source (Scanning.advanceWhile (testByte Char.isDigit)) s ()
      (byteLength (before ++ after.takeWhile Char.isDigit)) s.line :=
  h.yields_run toNat_lt_of_isDigit rfl

/-- A point is passed if a digit follows, and then all digits behind it. -/
theorem Standing.yields_fraction (h : Standing source s before after) :
    Yields source Scanning.fraction s ()
      (byteLength (before ++ after.take (Scan.fractionLength after)))
      s.line := by
  have hpoint := h.peek (agrees_isChar (q := '.') (by decide)) rfl
  refine yields_peek (yields_peekNext ?_)
  rw [show CodeUnit.test (· == '.') (s.peek (sourceBytes source)) = _ from hpoint]
  cases after with
  | nil => exact yields_pure (h.curr.trans (by simp)) rfl
  | cons c after =>
    by_cases hc : c = '.'
    · subst hc
      have hdigit := h.peekNext (by decide) (agrees_testByte toNat_lt_of_isDigit) rfl
      have hempty : (Scan.fraction ('.' :: after)).isEmpty = !after.head?.any Char.isDigit :=
        Scan.isEmpty_takeWhile _ _
      rw [show CodeUnit.test Char.isDigit (s.peekNext (sourceBytes source)) = _ from hdigit,
        Scan.fractionLength, hempty]
      cases after.head?.any Char.isDigit with
      | false => exact yields_pure (h.curr.trans (by simp)) rfl
      | true =>
        refine (h.yields_advance (by decide)).bind fun s₁ h₁ => ?_
        have hs₁ : Standing source s₁ (before ++ ['.']) after :=
          ⟨h₁.curr, by rw [h.text, List.append_assoc, List.singleton_append]⟩
        have hdigits := hs₁.yields_digits
        rw [h₁.line, List.append_assoc] at hdigits
        have htake : ('.' :: after).take (1 + (Scan.fraction ('.' :: after)).length) =
            ['.'] ++ after.takeWhile Char.isDigit := by
          rw [Nat.add_comm, List.take_succ_cons]
          exact congrArg _ (Scan.take_length_takeWhile _ _)
        rw [if_neg (by decide), htake]
        exact hdigits
    · rw [Scan.fractionLength, Scan.fraction_of_ne hc]
      have hpoint : ((c :: after).head?.any fun d => d == '.') = false := by simpa using hc
      rw [hpoint]
      exact yields_pure (h.curr.trans (by simp)) rfl

theorem newlines_eq_zero (h : '\n' ∉ text) : newlines text = 0 :=
  List.count_eq_zero.mpr h

/-- A number has no line end in it. -/
theorem newlines_number (hdigit : c.isDigit = true) :
    newlines (c :: cs.take (Scan.number c cs).2) = 0 := by
  have hlexeme : (Kind.number (Scan.number c cs).1).Lexeme (c :: cs.take (Scan.number c cs).2) :=
    Scan.number_lexeme hdigit
  obtain ⟨whole, part, -, hdigits, htext, -⟩ := hlexeme
  have hnone : '\n' ∉ whole ++ part := fun hmem => absurd (hdigits _ hmem) (by decide)
  rw [htext]
  refine newlines_eq_zero ?_
  split <;> simp_all

/-- A number is read by bytes as it is by characters. -/
theorem Lead.yields_number (h : Lead source s before c cs) (hdigit : c.isDigit = true) :
    Yields source Scanning.number s (.token (.number (Scan.number c cs).1))
      (byteLength (before ++ c :: cs.take (Scan.number c cs).2)) s.line := by
  refine (h.standing (toNat_lt_of_isDigit c hdigit)).yields_digits.bind fun s₁ h₁ => ?_
  have hs₁ : Standing source s₁ (before ++ [c] ++ cs.takeWhile Char.isDigit)
      (cs.drop (cs.takeWhile Char.isDigit).length) := by
    refine ⟨h₁.curr, ?_⟩
    rw [List.append_assoc, List.prefix_iff_eq_append.mp (List.takeWhile_prefix _), h.text,
      List.append_assoc, List.singleton_append]
  refine hs₁.yields_fraction.bind fun s₂ h₂ => ?_
  have hcurr : s₂.curr = byteLength (before ++ c :: cs.take (Scan.number c cs).2) := by
    rw [h₂.curr, Scan.take_number]
    simp
  have htext : source.toList =
      before ++ (c :: cs.take (Scan.number c cs).2) ++ cs.drop (Scan.number c cs).2 := by
    rw [h.text, List.append_assoc, List.cons_append, List.take_append_drop]
  have hlexeme : Yields source Scanning.lexeme s₂
      (String.ofList (c :: cs.take (Scan.number c cs).2)) s₂.curr s₂.line := by
    refine yields_scanner ?_
    rw [h₂.start, h₁.start, h.start, hcurr]
    exact hcurr ▸ yields_slice htext
  refine hlexeme.bind fun s₃ h₃ => ?_
  rw [String.toList_ofList, Scan.numberValue_take hdigit]
  exact yields_pure (h₃.curr.trans hcurr) (h₃.line.trans (h₂.line.trans h₁.line))

/-- The bytes of a word tell which keyword it is. -/
theorem find?_keywords_bytesOf (word : List Char) :
    (Symbol.keywords.find? fun symbol => bytesOf symbol.spelling.toList == bytesOf word) =
      Scan.keyword? word := by
  have htest : (fun symbol : Symbol => bytesOf symbol.spelling.toList == bytesOf word) =
      fun symbol => symbol.spelling.toList == word := by
    funext symbol
    rw [Bool.eq_iff_iff, beq_iff_eq, beq_iff_eq, bytesOf_inj]
  have hcomp : ((fun entry : Symbol × List Char => entry.2 == word) ∘
      fun symbol : Symbol => (symbol, symbol.spelling.toList)) =
      fun symbol => symbol.spelling.toList == word := rfl
  rw [Scan.keyword?, Scan.keywordTable, List.find?_map, htest, hcomp]
  cases Symbol.keywords.find? fun symbol => symbol.spelling.toList == word with
  | none => rfl
  | some symbol => rfl

theorem yields_keyword? (h : source.toList = before ++ text ++ after)
    (hstart : s.start = byteLength before) (hcurr : s.curr = byteLength (before ++ text)) :
    Yields source Scanning.keyword? s (Scan.keyword? text) s.curr s.line := by
  show Yields source keyword? s (Scan.keyword? text) s.curr s.line
  refine yields_scanner ?_
  rw [hstart, hcurr]
  refine (yields_bytesBetween h).bind fun s₁ h₁ => ?_
  rw [find?_keywords_bytesOf]
  exact yields_pure (h₁.curr.trans hcurr) h₁.line

/-- A word is read by bytes as it is by characters. -/
theorem Lead.yields_word (h : Lead source s before c cs) (hword : Scan.isWordStart c = true) :
    Yields source Scanning.word s (.token (Scan.wordKind (c :: cs.takeWhile Scan.isWordPart)))
      (byteLength (before ++ c :: cs.takeWhile Scan.isWordPart)) s.line := by
  have hs := h.standing (toNat_lt_of_isWordStart c hword)
  have hlead : s.start + 1 = s.curr := by rw [h.start, h.curr]
  have hrestart : Yields source Scanning.restart s () (s.start + 1) s.line :=
    yields_scanner (yields_moveTo (hlead ▸ hs.ahead.le))
  refine hrestart.bind fun s₁ h₁ => ?_
  have hs₁ : Standing source s₁ (before ++ [c]) cs :=
    ⟨h₁.curr.trans (hlead.trans hs.curr), hs.text⟩
  refine (hs₁.yields_run toNat_lt_of_isWordPart rfl).bind fun s₂ h₂ => ?_
  have hcurr : s₂.curr = byteLength (before ++ c :: cs.takeWhile Scan.isWordPart) := by
    rw [h₂.curr, List.append_assoc, List.singleton_append]
  have htext : source.toList = before ++ (c :: cs.takeWhile Scan.isWordPart) ++
      cs.drop (cs.takeWhile Scan.isWordPart).length := by
    rw [h.text, List.append_assoc, List.cons_append,
      List.prefix_iff_eq_append.mp (List.takeWhile_prefix _)]
  have hstart : s₂.start = byteLength before := h₂.start.trans (h₁.start.trans h.start)
  refine (yields_keyword? htext hstart hcurr).bind fun s₃ h₃ => ?_
  rw [Scan.wordKind]
  have hline := h₃.line.trans (h₂.line.trans h₁.line)
  cases Scan.keyword? (c :: cs.takeWhile Scan.isWordPart) with
  | none => exact yields_pure (h₃.curr.trans hcurr) hline
  | some symbol => exact yields_pure (h₃.curr.trans hcurr) hline

/-- The first character of a lexeme is cut out whole, however many bytes it has. -/
theorem Lead.yields_firstChar (h : Lead source s before c cs) :
    Yields source Scanning.firstChar s c (byteLength (before ++ [c])) s.line := by
  have htext : source.toList = before ++ (c :: cs) ++ [] := by rw [h.text, List.append_nil]
  have hall : (sourceBytes source).length = byteLength (before ++ c :: cs) := by
    rw [sourceBytes_eq, h.text]
    rfl
  have hbehind : source.toList = before ++ [c] ++ cs := by
    rw [h.text, List.append_assoc, List.singleton_append]
  have hcurr : byteLength before + c.utf8Size = byteLength (before ++ [c]) := by
    rw [byteLength_append, byteLength_cons, byteLength_nil, Nat.add_zero]
  show Yields source firstChar s c (byteLength (before ++ [c])) s.line
  refine yields_scanner (yields_bytes ?_)
  rw [h.start, hall]
  refine (yields_slice htext).bind fun s₁ h₁ => ?_
  rw [String.toList_ofList, List.headD_cons]
  dsimp only
  rw [hcurr]
  refine (yields_moveTo (isBoundary_byteLength hbehind).le).bind fun s₂ h₂ => ?_
  exact yields_pure h₂.curr (h₂.line.trans h₁.line)

/-- The first byte of a plain character is where the character is. -/
theorem findIdx_bytesOf {q : Char} (hq : q.toNat < 128) (cs : List Char) :
    (bytesOf cs).findIdx (isChar q) = byteLength (cs.takeWhile (· != q)) := by
  have htake : (bytesOf cs).takeWhile (fun b => !isChar q b) = bytesOf (cs.takeWhile (· != q)) :=
    (agrees_isChar hq).not.takeWhile_bytesOf cs
  rw [byteLength, ← htake, List.takeWhile_eq_take_findIdx_not, List.length_take]
  simp only [Bool.not_not]
  exact (Nat.min_eq_left List.findIdx_le_length).symm

/-- A comment is passed up to the end of its line. -/
theorem Standing.yields_comment (h : Standing source s before after) :
    Yields source Scanning.comment s .comment (byteLength (before ++ after.takeWhile (· != '\n')))
      s.line := by
  have htext : source.toList = before ++ after.takeWhile (· != '\n') ++
      after.drop (after.takeWhile (· != '\n')).length := by
    rw [List.append_assoc, List.prefix_iff_eq_append.mp (List.takeWhile_prefix _), h.text]
  have hskip : Yields source Scanning.skipLine s ()
      (byteLength (before ++ after.takeWhile (· != '\n'))) s.line := by
    refine (yields_remaining h.ahead).bind fun s₁ h₁ => yields_scanner ?_
    rw [findIdx_bytesOf (by decide), h₁.curr, h.curr, ← byteLength_append, ← h₁.line]
    exact yields_moveTo (isBoundary_byteLength htext).le
  exact hskip.bind fun s₁ h₁ => yields_pure h₁.curr h₁.line

/-- Behind the two slashes that open it, a comment is the rest of its line. -/
theorem Lead.yields_comment (h : Lead source s before '/' ('/' :: cs))
    (hreached : Reached source s (s.curr + 1) line s') :
    Yields source Scanning.comment s' .comment
      (byteLength (before ++ '/' :: ('/' :: cs).takeWhile (· != '\n'))) s'.line := by
  have hs' : Standing source s' (before ++ ['/', '/']) cs := by
    refine ⟨?_, by rw [h.text, List.append_assoc]; rfl⟩
    rw [hreached.curr, h.curr, byteLength_append]
    rfl
  have hrun := hs'.yields_comment
  rw [List.append_assoc] at hrun
  exact hrun

/-! ## Operators -/

variable {tail : List UInt8} {symbol : Symbol} {tails : List (List UInt8 × Symbol)}

/-- The tails of a byte are the rests of the operators that start with it. -/
theorem mem_operatorTails : (tail, symbol) ∈ operatorTails b ↔
    symbol ∈ Symbol.operators ∧ bytesOf symbol.spelling.toList = b :: tail := by
  rw [operatorTails, List.mem_filterMap]
  constructor
  · rintro ⟨t, ht, heq⟩
    cases hspelling : bytesOf t.spelling.toList with
    | nil =>
      rw [hspelling] at heq
      cases heq
    | cons lead rest =>
      rw [hspelling] at heq
      dsimp only at heq
      by_cases hlead : lead = b
      · rw [if_pos hlead] at heq
        cases heq
        exact ⟨ht, hlead ▸ hspelling⟩
      · rw [if_neg hlead] at heq
        cases heq
  · rintro ⟨hsymbol, hspelling⟩
    refine ⟨symbol, hsymbol, ?_⟩
    rw [hspelling]
    exact if_pos rfl

/-- The other bytes of an operator are next if the operator stands there. -/
theorem tail_prefix_iff (hbytes : bytesOf (c :: cs) = b :: bs)
    (hspelling : bytesOf symbol.spelling.toList = b :: tail) :
    tail <+: bs ↔ symbol.spelling.toList <+: c :: cs := by
  rw [← bytesOf_prefix_iff, hbytes, hspelling, List.cons_prefix_cons]
  exact (and_iff_right rfl).symm

theorem prefix_of_find?
    (h : tails.find? (fun entry => entry.1.isPrefixOf bs) = some (tail, symbol)) : tail <+: bs := by
  have hstart := List.find?_some h
  exact List.isPrefixOf_iff_prefix.mp hstart

/-- Where no operator starts, no tail is found. -/
theorem find?_operatorTails_eq_none (hbytes : bytesOf (c :: cs) = b :: bs)
    (h : Scan.operator? (c :: cs) = none) :
    (operatorTails b).find? (fun entry => entry.1.isPrefixOf bs) = none := by
  refine List.find?_eq_none.mpr fun entry hentry hstart => ?_
  obtain ⟨hsymbol, hspelling⟩ := mem_operatorTails.mp hentry
  exact Scan.operator?_eq_none_iff.mp h _ hsymbol
    ((tail_prefix_iff hbytes hspelling).mp (List.isPrefixOf_iff_prefix.mp hstart))

/-- Where an operator starts, its tail is found. -/
theorem exists_find?_operatorTails {n : Nat} (hbytes : bytesOf (c :: cs) = b :: bs)
    (h : Scan.operator? (c :: cs) = some (symbol, n)) :
    ∃ tail, (operatorTails b).find? (fun entry => entry.1.isPrefixOf bs) = some (tail, symbol) ∧
      bytesOf symbol.spelling.toList = b :: tail := by
  obtain ⟨hsymbol, hstart, -⟩ := Scan.operator?_eq_some_iff.mp h
  cases hfind : (operatorTails b).find? fun entry => entry.1.isPrefixOf bs with
  | none =>
    obtain ⟨tail, hspelling⟩ : ∃ tail, bytesOf symbol.spelling.toList = b :: tail := by
      have hprefix := bytesOf_prefix_iff.mpr hstart
      rw [hbytes, List.prefix_cons_iff] at hprefix
      rcases hprefix with hnil | ⟨tail, htail, -⟩
      · have hpos := Scan.spelling_length_pos symbol hsymbol
        have hle := length_le_byteLength symbol.spelling.toList
        rw [byteLength, hnil, List.length_nil] at hle
        omega
      · exact ⟨tail, htail⟩
    have hprefix := (tail_prefix_iff hbytes hspelling).mpr hstart
    exact absurd (List.isPrefixOf_iff_prefix.mpr hprefix)
      (List.find?_eq_none.mp hfind _ (mem_operatorTails.mpr ⟨hsymbol, hspelling⟩))
  | some entry =>
    obtain ⟨tail, found⟩ := entry
    obtain ⟨hfound, hspelling⟩ := mem_operatorTails.mp (List.mem_of_find?_eq_some hfind)
    have hprefix := prefix_of_find? hfind
    -- Of all operators at most one stands at the start of a text.
    have hsame := Scan.operator?_eq_some_iff.mpr
      ⟨hfound, (tail_prefix_iff hbytes hspelling).mp hprefix, rfl⟩
    cases h.symm.trans hsame
    exact ⟨tail, rfl, hspelling⟩

theorem yields_matchOperator_none (h : Ahead source s bs)
    (hfind : tails.find? (fun entry => entry.1.isPrefixOf bs) = none) :
    Yields source (matchOperator tails) s none s.curr s.line := by
  refine (yields_remaining h).bind fun s₁ h₁ => ?_
  rw [hfind]
  exact yields_pure h₁.curr h₁.line

theorem yields_matchOperator_some (h : Ahead source s bs)
    (hfind : tails.find? (fun entry => entry.1.isPrefixOf bs) = some (tail, symbol)) :
    Yields source (matchOperator tails) s (some symbol) (s.curr + tail.length) s.line := by
  have hle := (prefix_of_find? hfind).length_le
  have hlength := h.length
  refine (yields_remaining h).bind fun s₁ h₁ => ?_
  rw [hfind]
  refine yields_scanner ?_
  rw [h₁.curr]
  refine (yields_moveTo (by omega)).bind fun s₂ h₂ => ?_
  exact yields_pure h₂.curr (h₂.line.trans h₁.line)

/-- An operator is read by bytes as it is by characters. -/
theorem Lead.yields_operator {n : Nat} (h : Lead source s before c cs)
    (hbytes : bytesOf (c :: cs) = b :: bs)
    (hoperator : Scan.operator? (c :: cs) = some (symbol, n)) :
    Yields source (Scanning.operatorOrPlain b) s (.token (.symbol symbol))
      (byteLength (before ++ c :: cs.take (n - 1))) s.line := by
  obtain ⟨tail, hfind, hspelling⟩ := exists_find?_operatorTails hbytes hoperator
  obtain ⟨hsymbol, hstart, rfl⟩ := Scan.operator?_eq_some_iff.mp hoperator
  have hcurr : s.curr + tail.length =
      byteLength (before ++ c :: cs.take (symbol.spelling.toList.length - 1)) := by
    rw [← Scan.spelling_eq_cons hsymbol hstart, byteLength_append, h.curr,
      show byteLength symbol.spelling.toList = (b :: tail).length from congrArg _ hspelling,
      List.length_cons]
    omega
  refine (yields_matchOperator_some (h.ahead hbytes) hfind).bind fun s₁ h₁ => ?_
  exact yields_pure (h₁.curr.trans hcurr) h₁.line

/-! ## One lexeme -/

variable {piece : Piece} {n : Nat}

theorem newlines_singleton (hc : c ≠ '\n') : newlines [c] = 0 :=
  newlines_eq_zero (by simpa using hc.symm)

theorem newlines_word (hword : Scan.isWordStart c = true) :
    newlines (c :: cs.takeWhile Scan.isWordPart) = 0 := by
  have hparts : ∀ d ∈ c :: cs.takeWhile Scan.isWordPart, Scan.isWordPart d = true :=
    List.forall_mem_cons.mpr
      ⟨Scan.isWordPart_of_isWordStart hword, fun _ => Scan.test_of_mem_takeWhile⟩
  exact newlines_eq_zero fun hmem => absurd (hparts _ hmem) (by decide)

theorem newlines_operator (hoperator : Scan.operator? (c :: cs) = some (symbol, n)) :
    newlines (c :: cs.take (n - 1)) = 0 := by
  obtain ⟨hsymbol, hstart, rfl⟩ := Scan.operator?_eq_some_iff.mp hoperator
  rw [← Scan.spelling_eq_cons hsymbol hstart]
  exact newlines_eq_zero fun hmem =>
    absurd (Scan.isBlank_of_mem_spelling symbol hsymbol _ hmem) (by decide)

theorem newlines_comment (cs : List Char) :
    newlines ('/' :: cs.take (cs.takeWhile (· != '\n')).length) = 0 := by
  rw [Scan.take_length_takeWhile]
  refine newlines_eq_zero fun hmem => ?_
  rcases List.mem_cons.mp hmem with hslash | hmem
  · cases hslash
  · exact Scan.not_mem_takeWhile_ne '\n' cs hmem

/-- A blank is passed, and counted if it ends a line. -/
theorem Lead.yields_blank (h : Lead source s before c cs) (hblank : Scan.isBlank c = true) :
    Yields source
      (if c == '\n' then do
        Scanning.newLine
        pure Piece.blank
      else pure .blank) s .blank (byteLength (before ++ [c])) (s.line + newlines [c]) := by
  have hcurr := (h.standing (toNat_lt_of_isBlank c hblank)).curr
  by_cases hc : c = '\n'
  · subst hc
    exact yields_newLine.bind fun s₁ h₁ => yields_pure (h₁.curr.trans hcurr) h₁.line
  · rw [if_neg (by simpa using hc), newlines_singleton hc]
    exact yields_pure hcurr rfl

/-- Whatever is found where neither a comment nor an operator starts, is read by bytes too. -/
theorem Lead.yields_plain (h : Lead source s before c cs) (hbytes : bytesOf (c :: cs) = b :: bs)
    (hplain : Scan.Plain c cs) (hfound : Scan.Found c cs piece n) :
    Yields source (Scanning.plain b) s piece (byteLength (before ++ c :: cs.take n))
      (s.line + newlines (c :: cs.take n)) := by
  have hlineByte : CodeUnit.test (· == '\n') b = (c == '\n') :=
    (agrees_isChar (by decide)).head hbytes
  have hblankByte : CodeUnit.test Scan.isBlank b = Scan.isBlank c :=
    (agrees_testByte toNat_lt_of_isBlank).head hbytes
  have hquoteByte : CodeUnit.test (· == '"') b = (c == '"') :=
    (agrees_isChar (by decide)).head hbytes
  have hdigitByte : CodeUnit.test Char.isDigit b = c.isDigit :=
    (agrees_testByte toNat_lt_of_isDigit).head hbytes
  have hwordByte : CodeUnit.test Scan.isWordStart b = Scan.isWordStart c :=
    (agrees_testByte toNat_lt_of_isWordStart).head hbytes
  rw [Scanning.plain, hlineByte, hblankByte, hquoteByte, hdigitByte, hwordByte]
  cases hfound with
  | comment hc hhead => exact absurd ⟨hc, hhead⟩ hplain.comment
  | operator _ hoperator => cases hplain.operator.symm.trans hoperator
  | blank _ hblank =>
    rw [if_pos hblank]
    exact h.yields_blank hblank
  | string _ hquote hlt =>
    subst hquote
    exact h.yields_string hlt
  | unterminated _ hquote hall =>
    subst hquote
    rw [List.take_length]
    exact h.yields_unterminated hall
  | number _ hdigit =>
    have hpart := Scan.isWordPart_of_isDigit hdigit
    have hblank := Scan.isBlank_of_isWordPart hpart
    rw [if_neg (by simp [Scan.ne_newline_of_not_isBlank hblank]), if_neg (by simp [hblank]),
      if_neg (by simp [Scan.ne_quote_of_isWordPart hpart]), if_pos hdigit, newlines_number hdigit]
    exact h.yields_number hdigit
  | word _ hword =>
    have hpart := Scan.isWordPart_of_isWordStart hword
    have hblank := Scan.isBlank_of_isWordPart hpart
    rw [if_neg (by simp [Scan.ne_newline_of_not_isBlank hblank]), if_neg (by simp [hblank]),
      if_neg (by simp [Scan.ne_quote_of_isWordPart hpart]),
      if_neg (by simp [Scan.isDigit_of_isWordStart hword]), if_pos hword,
      Scan.take_length_takeWhile, newlines_word hword]
    exact h.yields_word hword
  | unexpected _ hblank hquote hdigit hword =>
    have hc := Scan.ne_newline_of_not_isBlank hblank
    rw [if_neg (by simp [hc]), if_neg (by simp [hblank]), if_neg (by simp [hquote]),
      if_neg (by simp [hdigit]), if_neg (by simp [hword]), List.take_zero, newlines_singleton hc]
    exact h.yields_firstChar.bind fun s₁ h₁ => yields_pure h₁.curr h₁.line

/-- A second slash is looked for behind a first one. -/
theorem Lead.yields_slash (h : Lead source s before c cs) :
    Yields source (if c == '/' then Scanning.matchText ['/'] else pure false) s
      (decide (c = '/' ∧ cs.head? = some '/'))
      (if c = '/' ∧ cs.head? = some '/' then s.curr + 1 else s.curr) s.line := by
  by_cases hc : c = '/'
  · subst hc
    have hmatch : Yields source (Scanning.matchText ['/']) s _ _ _ :=
      yields_matchText (h.standing (by decide)).ahead
    have hlength : (bytesOf ['/']).length = 1 := rfl
    rw [isPrefixOf_bytesOf_singleton, hlength] at hmatch
    simpa using hmatch
  · rw [if_neg (by simpa using hc), if_neg (fun hslash => hc hslash.1),
      decide_eq_false (fun hslash => hc hslash.1)]
    exact yields_pure rfl rfl

/-- **A lexeme is scanned as it is recognised, and the cursor left at the boundary behind it.** -/
theorem yields_scanToken (h : Standing source s before (c :: cs)) (hstart : s.start = s.curr)
    (hfound : Scan.Found c cs piece n) :
    Yields source Scanning.scanToken s piece (byteLength (before ++ c :: cs.take n))
      (s.line + newlines (c :: cs.take n)) := by
  obtain ⟨b, bs, hbytes⟩ : ∃ b bs, bytesOf (c :: cs) = b :: bs := by
    refine List.exists_cons_of_ne_nil ?_
    simp [String.utf8EncodeChar_ne_nil]
  have hslash : CodeUnit.test (· == '/') b = (c == '/') := (agrees_isChar (by decide)).head hbytes
  have hahead := h.ahead
  rw [hbytes] at hahead
  refine (yields_advance hahead).bind fun s₁ h₁ => ?_
  have hs₁ : Lead source s₁ before c cs :=
    ⟨h.text, h₁.start.trans (hstart.trans h.curr), by rw [h₁.curr, h.curr]⟩
  rw [hslash, ← h₁.line]
  refine hs₁.yields_slash.bind fun s₂ h₂ => ?_
  by_cases hcomment : c = '/' ∧ cs.head? = some '/'
  · rw [if_pos hcomment] at h₂
    rw [if_pos (decide_eq_true hcomment)]
    obtain ⟨rfl, hhead⟩ := hcomment
    cases hfound.recognise_eq.symm.trans (Scan.Found.comment rfl hhead).recognise_eq
    obtain ⟨rest, rfl⟩ := List.head?_eq_some_iff.mp hhead
    rw [newlines_comment, Scan.take_length_takeWhile, ← h₂.line]
    exact hs₁.yields_comment h₂
  · rw [if_neg hcomment] at h₂
    have hs₂ := hs₁.of_reached h₂
    rw [if_neg (by simpa using hcomment), ← h₂.line]
    cases hoperator : Scan.operator? (c :: cs) with
    | some entry =>
      obtain ⟨symbol, m⟩ := entry
      cases hfound.recognise_eq.symm.trans (Scan.Found.operator hcomment hoperator).recognise_eq
      rw [newlines_operator hoperator]
      exact hs₂.yields_operator hbytes hoperator
    | none =>
      refine (yields_matchOperator_none (hs₂.ahead hbytes)
        (find?_operatorTails_eq_none hbytes hoperator)).bind fun s₃ h₃ => ?_
      rw [← h₃.line]
      exact (hs₂.of_reached h₃).yields_plain hbytes ⟨hcomment, hoperator⟩ hfound

/-! ## All items -/

/-- From one state of the scanner to another the cursor stays within the source, and the lexemes
that are scanned are the given segments, each from a boundary on to a later one. -/
structure Kept (source : String) (s s' : ByteScanner) (taken : List Segment) : Prop where
  within : StaysWithin source s s'
  calls : ∃ calls, s'.calls = s.calls ++ calls ∧
    calls.map (fun call => slice? source call.1 call.2) =
      taken.map (fun segment => some (String.ofList segment.text)) ∧
    ∀ call ∈ calls, call.1 < call.2 ∧ IsBoundary source call.1 ∧ IsBoundary source call.2

theorem Kept.refl (s : ByteScanner) : Kept source s s [] :=
  ⟨.of_trail_eq rfl, [], (List.append_nil _).symm, rfl, fun _ h => absurd h List.not_mem_nil⟩

/-- What two rounds have kept, both have kept together. -/
theorem Kept.trans {s'' : ByteScanner} {taken taken' : List Segment} (h : Kept source s s' taken)
    (h' : Kept source s' s'' taken') : Kept source s s'' (taken ++ taken') := by
  obtain ⟨calls, heq, hslices, hcalls⟩ := h.calls
  obtain ⟨calls', heq', hslices', hcalls'⟩ := h'.calls
  refine ⟨h.within.trans h'.within, calls ++ calls', ?_, ?_, ?_⟩
  · rw [heq', heq, List.append_assoc]
  · rw [List.map_append, List.map_append, hslices, hslices']
  · exact List.forall_mem_append.mpr ⟨hcalls, hcalls'⟩

/-- The item of a piece is made from its slice of the source. -/
theorem Standing.yields_itemOf (hs : Standing source s (before ++ text) after)
    (hstart : s.start = byteLength before) (piece : Piece) :
    Yields source (itemOf piece) s (Segment.item? ⟨piece, text, s.line⟩) s.curr s.line := by
  cases piece with
  | token kind =>
    refine yields_scanner ?_
    rw [hstart, hs.curr]
    exact (yields_slice hs.text).bind fun s₁ h₁ =>
      yields_pure (h₁.curr.trans hs.curr) h₁.line
  | unexpected c => exact yields_pure rfl rfl
  | unterminated => exact yields_pure rfl rfl
  | blank => exact yields_pure rfl rfl
  | comment => exact yields_pure rfl rfl

/-- A round takes a segment, and at least one byte. -/
theorem exists_round (h : Standing source s before (c :: cs)) (hfound : Scan.Found c cs piece n) :
    let segment : Segment := ⟨piece, c :: cs.take n, s.line + newlines (c :: cs.take n)⟩
    ∃ s', round source s = .ok (segment.item?, s') ∧
      Standing source s' (before ++ segment.text) (cs.drop n) ∧
      s'.line = segment.line ∧ s.curr < s'.curr ∧ Kept source s s' [segment] := by
  intro segment
  have htext : source.toList = before ++ (c :: cs.take n) ++ cs.drop n := by
    rw [h.text, List.append_assoc, List.cons_append, List.take_append_drop]
  have hbegin : Standing source { s with start := s.curr } before (c :: cs) := ⟨h.curr, h.text⟩
  obtain ⟨s₁, hscan, h₁⟩ := yields_scanToken hbegin rfl hfound
  have hs₁ : Standing source { s₁ with calls := s₁.calls ++ [(s₁.start, s₁.curr)] }
      (before ++ c :: cs.take n) (cs.drop n) := ⟨h₁.curr, htext⟩
  obtain ⟨s₂, hitem, h₂⟩ := hs₁.yields_itemOf (h₁.start.trans h.curr) piece
  have hlt : s.curr < s₁.curr := by
    have hpos := length_le_byteLength (c :: cs.take n)
    rw [List.length_cons] at hpos
    rw [h.curr, h₁.curr, byteLength_append]
    omega
  have hround : round source s = .ok (Segment.item? ⟨piece, c :: cs.take n, s₁.line⟩, s₂) := by
    show (Scanning.scanToken >>= fun piece => recordCall >>= fun _ => itemOf piece) source
      { s with start := s.curr } = _
    rw [bind_apply, hscan]
    exact hitem
  rw [h₁.line] at hround
  refine ⟨s₂, hround, ⟨h₂.curr.trans h₁.curr, htext⟩, h₂.line.trans h₁.line, h₂.curr ▸ hlt, ?_⟩
  refine ⟨h₁.within.trans h₂.within, [(s₁.start, s₁.curr)], ?_, ?_, ?_⟩
  · rw [h₂.calls, h₁.calls]
  · have hstart : s₁.start = byteLength before := h₁.start.trans h.curr
    rw [List.map_singleton, List.map_singleton, hstart, h₁.curr, slice?_byteLength htext]
  · intro call hcall
    obtain rfl := List.mem_singleton.mp hcall
    rw [h₁.start]
    refine ⟨hlt, ?_, ?_⟩
    · exact h.curr ▸ isBoundary_byteLength h.text
    · exact h₁.curr ▸ isBoundary_byteLength htext

/-- A round that moves on is followed by the others. -/
theorem items_of_round {item : Option ScanItem} {others : List ScanItem} {last : ByteScanner}
    (h : Standing source s before (c :: cs)) (hround : round source s = .ok (item, s'))
    (hlt : s.curr < s'.curr) (hothers : items source s' = .ok (others, last)) :
    items source s = .ok (item.toList ++ others, last) := by
  have hsize : s.curr < (sourceBytes source).length := by
    have hend := h.isAtEnd
    rw [ByteScanner.isAtEnd, List.isEmpty_cons, decide_eq_false_iff_not] at hend
    omega
  rw [items, if_neg (by omega), if_neg (by omega), hround]
  show (if s.curr < s'.curr then _ else _) = _
  rw [if_pos hlt, hothers]

/-- **The items from a boundary on are those of the segments there.** -/
theorem exists_items (line : Nat) (rest : List Char) :
    ∀ s before, Standing source s before rest → s.line = line →
      ∃ last, items source s = .ok ((segments line rest).filterMap Segment.item? ++
          [.ok ⟨.eof, "", line + newlines rest⟩], last.moveTo (source.utf8ByteSize + 1)) ∧
        Kept source s last (segments line rest) := by
  induction line, rest using segments.induct with
  | case1 line =>
    intro s before h hline
    have hsize : s.curr = (sourceBytes source).length := h.ahead.length
    rw [segments]
    refine ⟨s, ?_, .refl s⟩
    rw [items, if_neg (by omega), if_pos hsize, hsize, hline]
    rfl
  | case2 line c cs found text last ih =>
    intro s before h hline
    obtain ⟨s', hround, hs', hline', hlt, hkept⟩ := exists_round h (Scan.found_recognise c cs)
    rw [hline] at hround hline' hkept
    obtain ⟨final, hitems, hkept'⟩ := ih s' _ hs' hline'
    rw [segments]
    refine ⟨final, ?_, hkept.trans hkept'⟩
    have hlines : last + newlines (cs.drop found.2) = line + newlines (c :: cs) := by
      rw [show last = line + newlines text from rfl, Nat.add_assoc, ← newlines_append,
        List.cons_append, List.take_append_drop]
    rw [items_of_round h hround hlt hitems, hlines, List.filterMap_cons]
    cases Segment.item? ⟨found.1, text, last⟩ with
    | none => rfl
    | some item => rfl

/-- There are no more pieces than characters. -/
theorem length_segments_le (line : Nat) (text : List Char) :
    (segments line text).length ≤ text.length := by
  induction line, text using segments.induct with
  | case1 line => simp [segments]
  | case2 line c cs found text last ih =>
    rw [List.length_drop] at ih
    rw [segments]
    exact Nat.succ_le_succ (Nat.le_trans ih (Nat.sub_le _ _))

/-- The first lexeme starts at a boundary, behind a mark or at the start of the source. -/
theorem exists_standing_start (source : String) :
    ∃ before, Standing source (start source) before (dropMark source.toList) := by
  have hcurr : (start source).curr =
      if source.toList.head? = some '\ufeff' then byteLength ['\ufeff'] else 0 := by
    have hmark := isPrefixOf_bytesOf_singleton '\ufeff' source.toList
    rw [start, sourceBytes_eq, hmark]
    simp only [decide_eq_true_eq]
    rfl
  rcases Scanner.toList_eq_mark_append source with ⟨htext, hhead⟩ | htext
  · exact ⟨[], hcurr.trans (if_neg hhead), htext⟩
  · exact ⟨['\ufeff'], hcurr.trans (if_pos (by rw [htext]; rfl)), htext⟩

/-- There are no more items than bytes, with the mark of the end. -/
theorem length_scan_le (source : String) : (scan source).length ≤ source.utf8ByteSize + 1 := by
  obtain ⟨before, hs⟩ := exists_standing_start source
  have hbytes := hs.ahead.length
  calc (scan source).length
      = ((segments 1 (dropMark source.toList)).filterMap Segment.item?).length + 1 :=
        List.length_append
    _ ≤ (segments 1 (dropMark source.toList)).length + 1 :=
        Nat.succ_le_succ (List.length_filterMap_le _ _)
    _ ≤ (dropMark source.toList).length + 1 := Nat.succ_le_succ (length_segments_le _ _)
    _ ≤ byteLength (dropMark source.toList) + 1 := Nat.succ_le_succ (length_le_byteLength _)
    _ ≤ source.utf8ByteSize + 1 := by
        rw [byteLength]
        omega

/--
**Scanning by bytes is safe.** A scanner with a cursor among the bytes of the source, which looks at
one byte at a time, never has a mishap, whatever the characters are: no byte is asked for behind the
end, no slice cuts a character, no round takes nothing. It yields what `scan` does. The lexemes that
it scans are the segments of the source in their order, each from a boundary on to a later one, and
there are at most as many items as bytes, and one more for the end. The cursor never leaves the
source before the mark of the end is handed out; that is noted by moving it one behind the end,
where nothing is read.
-/
theorem scan_by_bytes (source : String) :
    ∃ s positions, ByteScan.run source = .ok (scan source, s) ∧
      s.trail = positions ++ [source.utf8ByteSize + 1] ∧
      (∀ p ∈ positions, p ≤ source.utf8ByteSize) ∧
      s.calls.map (fun call => slice? source call.1 call.2) =
        (segments 1 (dropMark source.toList)).map
          (fun segment => some (String.ofList segment.text)) ∧
      (∀ call ∈ s.calls, call.1 < call.2 ∧ IsBoundary source call.1 ∧ IsBoundary source call.2) ∧
      (scan source).length ≤ source.utf8ByteSize + 1 := by
  obtain ⟨before, hs⟩ := exists_standing_start source
  obtain ⟨last, hitems, hkept⟩ := exists_items 1 _ _ before hs rfl
  obtain ⟨positions, htrail, hle⟩ := hkept.within
  obtain ⟨calls, heq, hslices, hcalls⟩ := hkept.calls
  -- No lexeme is scanned before the first round, and none when the end is handed out.
  have heq : (last.moveTo (source.utf8ByteSize + 1)).calls = calls := heq
  refine ⟨last.moveTo (source.utf8ByteSize + 1), (start source).curr :: positions, hitems,
    ?_, ?_, heq ▸ hslices, heq ▸ hcalls, length_scan_le source⟩
  · exact congrArg (· ++ [source.utf8ByteSize + 1]) htrail
  · exact List.forall_mem_cons.mpr ⟨hs.ahead.le, hle⟩

end Nya.ByteScan
