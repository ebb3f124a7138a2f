import Nya.Tree.Printer

/-!
# Nested lists of words

A printed tree is a list in brackets whose items are words and such lists, with a blank between any
two of them. A word has neither blanks nor brackets, unless it stands in quotes.

Such a text is read in one way only: `render_injective`.
-/

namespace Nya

/-- A word, or a list of words and lists. -/
inductive Sexp where
  | word (text : String)
  | list (items : List Sexp)

namespace Sexp

mutual

/-- The text of a word or a list. -/
def render : Sexp → List Char
  | word text => text.toList
  | list items => '(' :: renderItems items

/-- The items of a list and the bracket that closes it. -/
def renderItems : List Sexp → List Char
  | [] => [')']
  | s :: ss => s.render ++ renderMore ss

/-- The same of the items that follow another one. -/
def renderMore : List Sexp → List Char
  | [] => [')']
  | s :: ss => ' ' :: (s.render ++ renderMore ss)

end

@[simp] theorem render_word (text : String) : (word text).render = text.toList := rfl

/-! ## Words -/

/-- Whether a character can be part of a word without quotes. -/
def isPlain (c : Char) : Bool := c ∉ [' ', '(', ')', '"']

/-- A text in quotes that has none in it, or one of other characters. -/
def IsWord (text : List Char) : Prop :=
  (∃ body, text = '"' :: (body ++ ['"']) ∧ '"' ∉ body) ∨
    ∃ c cs, text = c :: cs ∧ ∀ d ∈ c :: cs, isPlain d = true

mutual

/-- All words in it are words. -/
def Worded : Sexp → Prop
  | word text => IsWord text.toList
  | list items => WordedAll items

/-- The same of some items. -/
def WordedAll : List Sexp → Prop
  | [] => True
  | s :: ss => s.Worded ∧ WordedAll ss

end

/-- What may follow an item does not go on with a word. -/
def Follows (rest : List Char) : Prop := ∀ c ∈ rest.head?, isPlain c = false

/-- Two texts are cut at the first character that fails the test in one way. -/
theorem append_inj_of_test {test : Char → Bool} {a a' r r' : List Char}
    (ha : ∀ c ∈ a, test c = true) (ha' : ∀ c ∈ a', test c = true)
    (hr : ∀ c ∈ r.head?, test c = false) (hr' : ∀ c ∈ r'.head?, test c = false)
    (h : a ++ r = a' ++ r') : a = a' ∧ r = r' := by
  have htake : ∀ {a r : List Char}, (∀ c ∈ a, test c = true) → (∀ c ∈ r.head?, test c = false) →
      (a ++ r).takeWhile test = a := by
    intro a r ha hr
    rw [List.takeWhile_append_of_pos ha]
    cases r with
    | nil => simp
    | cons c r => simp [hr c rfl]
  have heq : a = a' := by rw [← htake ha hr, ← htake ha' hr', h]
  rw [heq] at h
  exact ⟨heq, List.append_cancel_left h⟩

theorem isWord_unique {text text' rest rest' : List Char} (h : IsWord text) (h' : IsWord text')
    (hrest : Follows rest) (hrest' : Follows rest') (heq : text ++ rest = text' ++ rest') :
    text = text' ∧ rest = rest' := by
  have hquote : ∀ {body : List Char}, '"' ∉ body → ∀ c ∈ body, (c != '"') = true :=
    fun hbody c hc => bne_iff_ne.mpr fun heq => hbody (heq ▸ hc)
  rcases h with ⟨body, rfl, hbody⟩ | ⟨c, cs, rfl, hplain⟩
  · rcases h' with ⟨body', rfl, hbody'⟩ | ⟨c', cs', rfl, hplain'⟩
    · simp only [List.cons_append, List.append_assoc, List.nil_append, List.cons.injEq,
        true_and] at heq
      obtain ⟨rfl, hall⟩ :=
        append_inj_of_test (hquote hbody) (hquote hbody') (by simp) (by simp) heq
      exact ⟨rfl, List.tail_eq_of_cons_eq hall⟩
    · -- One starts with a quote and the other does not.
      obtain ⟨rfl, -⟩ := List.cons.inj heq
      cases (List.forall_mem_cons.mp hplain').1
  · rcases h' with ⟨body', rfl, hbody'⟩ | ⟨c', cs', rfl, hplain'⟩
    · obtain ⟨rfl, -⟩ := List.cons.inj heq
      cases (List.forall_mem_cons.mp hplain).1
    · exact append_inj_of_test hplain hplain' hrest hrest' heq

/-! ## Reading -/

/-- The text of an item does not start with a closing bracket. -/
theorem exists_render {s : Sexp} (h : s.Worded) : ∃ c cs, s.render = c :: cs ∧ c ≠ ')' := by
  cases s with
  | word text =>
    rcases h with ⟨body, htext, -⟩ | ⟨c, cs, htext, hplain⟩
    · exact ⟨'"', _, htext, by decide⟩
    · refine ⟨c, cs, htext, ?_⟩
      rintro rfl
      cases (List.forall_mem_cons.mp hplain).1
  | list items => exact ⟨'(', _, rfl, by decide⟩

/-- No word starts like a list. -/
theorem render_word_ne {text : String} {items : List Sexp} {rest rest' : List Char}
    (h : (word text).Worded) : (word text).render ++ rest ≠ (list items).render ++ rest' := by
  intro heq
  rcases h with ⟨body, htext, -⟩ | ⟨c, cs, htext, hplain⟩
  · rw [render, htext] at heq
    cases (List.cons.inj heq).1
  · rw [render, htext] at heq
    obtain ⟨rfl, -⟩ := List.cons.inj heq
    cases (List.forall_mem_cons.mp hplain).1

theorem renderItems_ne {s : Sexp} {ss : List Sexp} {rest rest' : List Char} (h : s.Worded) :
    renderItems (s :: ss) ++ rest ≠ renderItems [] ++ rest' := by
  intro heq
  obtain ⟨c, cs, hrender, hc⟩ := exists_render h
  simp only [renderItems, hrender, List.cons_append, List.cons.injEq] at heq
  exact hc heq.1

theorem follows_renderMore (ss : List Sexp) (rest : List Char) :
    Follows (renderMore ss ++ rest) := by
  cases ss with
  | nil => simp [renderMore, Follows, isPlain]
  | cons s ss => simp [renderMore, Follows, isPlain]

mutual

/-- **A text is read in one way.** -/
theorem render_unique : ∀ (s s' : Sexp) {rest rest' : List Char}, s.Worded → s'.Worded →
    Follows rest → Follows rest' → s.render ++ rest = s'.render ++ rest' → s = s' ∧ rest = rest'
  | word text, word text', _, _, h, h', hrest, hrest', heq => by
    obtain ⟨htext, hall⟩ := isWord_unique h h' hrest hrest' heq
    exact ⟨congrArg word (String.toList_inj.mp htext), hall⟩
  | word text, list items', _, _, h, _, _, _, heq => absurd heq (render_word_ne h)
  | list items, word text', _, _, _, h', _, _, heq => absurd heq.symm (render_word_ne h')
  | list items, list items', _, _, h, h', _, _, heq => by
    obtain ⟨rfl, hall⟩ := renderItems_unique items items' h h' (List.tail_eq_of_cons_eq heq)
    exact ⟨rfl, hall⟩

theorem renderItems_unique : ∀ (ss ss' : List Sexp) {rest rest' : List Char}, WordedAll ss →
    WordedAll ss' → renderItems ss ++ rest = renderItems ss' ++ rest' → ss = ss' ∧ rest = rest'
  | [], [], _, _, _, _, heq => ⟨rfl, List.tail_eq_of_cons_eq heq⟩
  | [], s' :: ss', _, _, _, h', heq => absurd heq.symm (renderItems_ne h'.1)
  | s :: ss, [], _, _, h, _, heq => absurd heq (renderItems_ne h.1)
  | s :: ss, s' :: ss', _, _, h, h', heq => by
    simp only [renderItems, List.append_assoc] at heq
    obtain ⟨rfl, hmore⟩ := render_unique s s' h.1 h'.1 (follows_renderMore ss _)
      (follows_renderMore ss' _) heq
    obtain ⟨rfl, hall⟩ := renderMore_unique ss ss' h.2 h'.2 hmore
    exact ⟨rfl, hall⟩

theorem renderMore_unique : ∀ (ss ss' : List Sexp) {rest rest' : List Char}, WordedAll ss →
    WordedAll ss' → renderMore ss ++ rest = renderMore ss' ++ rest' → ss = ss' ∧ rest = rest'
  | [], [], _, _, _, _, heq => ⟨rfl, List.tail_eq_of_cons_eq heq⟩
  | [], s' :: ss', _, _, _, _, heq => by cases (List.cons.inj heq).1
  | s :: ss, [], _, _, _, _, heq => by cases (List.cons.inj heq).1
  | s :: ss, s' :: ss', _, _, h, h', heq => by
    simp only [renderMore, List.cons_append, List.append_assoc, List.cons.injEq, true_and] at heq
    obtain ⟨rfl, hmore⟩ := render_unique s s' h.1 h'.1 (follows_renderMore ss _)
      (follows_renderMore ss' _) heq
    obtain ⟨rfl, hall⟩ := renderMore_unique ss ss' h.2 h'.2 hmore
    exact ⟨rfl, hall⟩

end

theorem render_injective {s s' : Sexp} (h : s.Worded) (h' : s'.Worded)
    (heq : s.render = s'.render) : s = s' := by
  have hnil : Follows [] := by simp [Follows]
  exact (render_unique s s' h h' hnil hnil (by rw [heq])).1

/-! ## Brackets -/

theorem renderMore_eq (ss : List Sexp) (parts : List String)
    (h : ss.map render = parts.map String.toList) (t : String) :
    t.toList ++ renderMore ss = (" ".intercalate (t :: parts)).toList ++ [')'] := by
  induction ss generalizing parts t with
  | nil =>
    obtain rfl : parts = [] := by simpa using h.symm
    rw [String.intercalate_singleton]
    rfl
  | cons s ss ih =>
    cases parts with
    | nil => cases h
    | cons u parts =>
      obtain ⟨hu, hparts⟩ := List.cons.inj h
      rw [renderMore, hu, ih parts hparts u, String.intercalate_cons_cons]
      simp

/-- What is put in brackets is a list. -/
theorem render_list {items : List Sexp} {parts : List String}
    (h : items.map render = parts.map String.toList) :
    (list items).render = (bracketed parts).toList := by
  rw [render, bracketed]
  cases items with
  | nil =>
    obtain rfl : parts = [] := by simpa using h.symm
    rfl
  | cons s ss =>
    cases parts with
    | nil => cases h
    | cons t parts =>
      obtain ⟨ht, hparts⟩ := List.cons.inj h
      rw [renderItems, ht, renderMore_eq ss parts hparts t]
      simp

end Sexp

end Nya
