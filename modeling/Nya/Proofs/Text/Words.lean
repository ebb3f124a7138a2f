import Nya.Proofs.Token.Seam
import Nya.Text.Uwu

/-!
# Cute text, word by word

The second pass replaces in the whole text. No word has a blank in it, though, so nothing is
replaced across one, and the pass goes through the words separately: each of them meets the
replacements of all words that lose their `e`, one after the other (`trimWords_joinBlanks`).

That is not the same as each word losing its own `e`. A word also loses an `e` where one that loses
its own occurs in it: `tables` becomes `tabls` next to `table`. If such words occur in others at the
end only, there is no difference.

* `uwuByWords` for cute text in which each word loses its own `e` only
* `uwu_by_words`
-/

namespace Nya.Text

/-! ## Replacing -/

variable {old new text : List Char}

theorem replaceAll_of_start {c : Char} {cs : List Char} (h : old <+: c :: cs) :
    replaceAll old new (c :: cs) = new ++ replaceAll old new (cs.drop (old.length - 1)) := by
  rw [replaceAll, if_pos (List.isPrefixOf_iff_prefix.mpr h)]

theorem replaceAll_of_later {c : Char} {cs : List Char} (h : ¬ old <+: c :: cs) :
    replaceAll old new (c :: cs) = c :: replaceAll old new cs := by
  rw [replaceAll, if_neg fun hstarts => h (List.isPrefixOf_iff_prefix.mp hstarts)]

/-- A part that does not occur is not replaced. -/
theorem replaceAll_of_absent (h : ¬ old <:+: text) : replaceAll old new text = text := by
  induction text with
  | nil => rw [replaceAll]
  | cons c cs ih =>
    rw [replaceAll_of_later fun hstarts => h hstarts.isInfix,
      ih fun hoccurs => h (List.infix_cons hoccurs)]

/-- Nothing is replaced across a blank. -/
theorem replaceAll_append_blank (hne : old ≠ []) (hold : ' ' ∉ old) (a b : List Char) :
    replaceAll old new (a ++ ' ' :: b) = replaceAll old new a ++ ' ' :: replaceAll old new b := by
  have hstarts := Scan.prefix_append_cons_iff hold
  fun_induction replaceAll old new a with
  | case1 =>
    rw [List.nil_append, List.nil_append, replaceAll_of_later]
    exact fun h => hne (List.prefix_nil.mp ((hstarts [] b).mp h))
  | case2 c cs hstart ih =>
    have hstart := List.isPrefixOf_iff_prefix.mp hstart
    have hlength : old.length - 1 ≤ cs.length := by
      have hle := hstart.length_le
      rw [List.length_cons] at hle
      omega
    have hstart' : old <+: c :: (cs ++ ' ' :: b) := (hstarts (c :: cs) b).mpr hstart
    rw [List.cons_append, replaceAll_of_start hstart', List.drop_append_of_le_length hlength, ih,
      List.append_assoc]
  | case3 c cs hstart ih =>
    have hstart' : ¬ old <+: c :: (cs ++ ' ' :: b) := fun h =>
      hstart (List.isPrefixOf_iff_prefix.mpr ((hstarts (c :: cs) b).mp h))
    rw [List.cons_append, replaceAll_of_later hstart', ih, List.cons_append]

/-! ## Words and blanks -/

/-- The words with a blank between any two of them. -/
def joinBlanks (words : List (List Char)) : List Char := [' '].intercalate words

theorem joinBlanks_cons (word next : List Char) (words : List (List Char)) :
    joinBlanks (word :: next :: words) = word ++ ' ' :: joinBlanks (next :: words) := by
  rw [joinBlanks, List.intercalate_cons_of_ne_nil (List.cons_ne_nil _ _), List.append_assoc]
  rfl

theorem splitBlanks_ne_nil (text : List Char) : splitBlanks text ≠ [] := by
  fun_cases splitBlanks text <;> simp

theorem joinBlanks_splitBlanks (text : List Char) : joinBlanks (splitBlanks text) = text := by
  fun_induction splitBlanks text with
  | case1 => rfl
  | case2 c cs hblank ih =>
    obtain ⟨word, words, hwords⟩ := List.exists_cons_of_ne_nil (splitBlanks_ne_nil cs)
    rw [hwords, joinBlanks_cons, ← hwords, ih, beq_iff_eq.mp hblank]
    rfl
  | case3 c cs hblank hnil ih => exact absurd hnil (splitBlanks_ne_nil cs)
  | case4 c cs hblank word words hwords ih =>
    rw [hwords] at ih
    rw [← ih]
    cases words with
    | nil => simp [joinBlanks]
    | cons next words => rw [joinBlanks_cons, joinBlanks_cons, List.cons_append]

/-- There is no blank in a word. -/
theorem not_mem_of_mem_splitBlanks (text : List Char) : ∀ word ∈ splitBlanks text, ' ' ∉ word := by
  fun_induction splitBlanks text with
  | case1 => simp
  | case2 c cs hblank ih => exact List.forall_mem_cons.mpr ⟨List.not_mem_nil, ih⟩
  | case3 c cs hblank hnil ih => exact absurd hnil (splitBlanks_ne_nil cs)
  | case4 c cs hblank first words hwords ih =>
    rw [hwords] at ih
    obtain ⟨hfirst, hothers⟩ := List.forall_mem_cons.mp ih
    have hc : ' ' ≠ c := fun heq => hblank (beq_iff_eq.mpr heq.symm)
    exact List.forall_mem_cons.mpr ⟨fun h => (List.mem_cons.mp h).elim hc hfirst, hothers⟩

/-- What has no blank is replaced in each word separately. -/
theorem replaceAll_joinBlanks (hne : old ≠ []) (hold : ' ' ∉ old) (words : List (List Char)) :
    replaceAll old new (joinBlanks words) = joinBlanks (words.map (replaceAll old new)) := by
  induction words with
  | nil => rw [joinBlanks, List.intercalate_nil, replaceAll]; rfl
  | cons word words ih =>
    cases words with
    | nil => simp [joinBlanks]
    | cons next words =>
      rw [joinBlanks_cons, replaceAll_append_blank hne hold, ih]
      simp only [List.map_cons, joinBlanks_cons]

/-! ## The second pass -/

variable {word u v : List Char} {words : List (List Char)}

theorem ne_nil_of_losesE (h : losesE word = true) : word ≠ [] := by
  rintro rfl
  simp [losesE] at h

theorem losesE_append (a : List Char) (h : losesE u = true) : losesE (a ++ u) = true := by
  have hlast : (a ++ u).getLast? = u.getLast? := by
    rw [List.getLast?_append, Option.or_of_isSome]
    simpa using ne_nil_of_losesE h
  simp only [losesE, Bool.and_eq_true, decide_eq_true_eq, hlast, List.length_append] at h ⊢
  exact ⟨by omega, h.2⟩

theorem trimWords_cons (word : List Char) (words : List (List Char)) (out : List Char) :
    trimWords (word :: words) out =
      trimWords words (if losesE word then replaceAll word word.dropLast out else out) := rfl

/-- **The second pass goes through the words of a text separately.** -/
theorem trimWords_joinBlanks (hwords : ∀ word ∈ words, ' ' ∉ word) (parts : List (List Char)) :
    trimWords words (joinBlanks parts) = joinBlanks (parts.map (trimWords words)) := by
  induction words generalizing parts with
  | nil => exact congrArg joinBlanks (List.map_id' parts).symm
  | cons word words ih =>
    obtain ⟨hword, hwords⟩ := List.forall_mem_cons.mp hwords
    rw [trimWords_cons]
    cases hloses : losesE word with
    | false =>
      rw [if_neg (by decide), ih hwords]
      congr 1
      refine List.map_congr_left fun part _ => ?_
      rw [trimWords_cons, hloses, if_neg (by decide)]
    | true =>
      rw [if_pos rfl, replaceAll_joinBlanks (ne_nil_of_losesE hloses) hword, ih hwords,
        List.map_map]
      congr 1
      refine List.map_congr_left fun part _ => ?_
      rw [Function.comp_apply, trimWords_cons, hloses, if_pos rfl]

/-! ### Words that stay -/

/-- Replacing a word by a shorter one makes no text longer. -/
theorem length_replaceAll_le (h : u ≠ []) (text : List Char) :
    (replaceAll u u.dropLast text).length ≤ text.length := by
  have hu := List.length_pos_iff.mpr h
  fun_induction replaceAll u u.dropLast text with
  | case1 => exact Nat.le_refl _
  | case2 c cs hstart ih =>
    have hle := (List.isPrefixOf_iff_prefix.mp hstart).length_le
    simp only [List.length_append, List.length_dropLast, List.length_cons, List.length_drop] at *
    omega
  | case3 c cs hstart ih => simpa using ih

theorem length_replaceAll_lt (h : u ≠ []) (hoccurs : u <:+: text) :
    (replaceAll u u.dropLast text).length < text.length := by
  have hu := List.length_pos_iff.mpr h
  induction text with
  | nil => exact absurd (List.infix_nil.mp hoccurs) h
  | cons c cs ih =>
    by_cases hstart : u <+: c :: cs
    · have hle := hstart.length_le
      have hrest := length_replaceAll_le h (cs.drop (u.length - 1))
      rw [replaceAll_of_start hstart]
      simp only [List.length_append, List.length_dropLast, List.length_cons, List.length_drop] at *
      omega
    · rw [replaceAll_of_later hstart, List.length_cons, List.length_cons]
      exact Nat.succ_lt_succ (ih ((List.infix_cons_iff.mp hoccurs).resolve_left hstart))

theorem length_trimWords_le (words : List (List Char)) (out : List Char) :
    (trimWords words out).length ≤ out.length := by
  induction words generalizing out with
  | nil => exact Nat.le_refl _
  | cons word words ih =>
    rw [trimWords_cons]
    split
    · next hloses => exact Nat.le_trans (ih _) (length_replaceAll_le (ne_nil_of_losesE hloses) out)
    · exact ih out

/-- A text stays as it is if and only if no word that loses its `e` occurs in it. -/
theorem trimWords_eq_self_iff :
    trimWords words v = v ↔ ∀ u ∈ words, losesE u = true → ¬ u <:+: v := by
  induction words with
  | nil => simp [trimWords]
  | cons word words ih =>
    rw [trimWords_cons, List.forall_mem_cons, ← ih]
    cases hloses : losesE word with
    | false => simp
    | true =>
      rw [if_pos rfl]
      by_cases hoccurs : word <:+: v
      · have hlt := length_replaceAll_lt (ne_nil_of_losesE hloses) hoccurs
        have hle := length_trimWords_le words (replaceAll word word.dropLast v)
        have hne : trimWords words (replaceAll word word.dropLast v) ≠ v := by
          intro heq
          rw [heq] at hle
          omega
        simp [hne, hoccurs]
      · rw [replaceAll_of_absent hoccurs]
        simp [hoccurs]

/-! ### Words that lose their own `e` -/

/-- The first text occurs in the second one at its end only, if at all. -/
def OnlyAtEnd (u v : List Char) : Prop := ∀ a b, v = a ++ u ++ b → b = []

theorem OnlyAtEnd.of_cons {c : Char} (h : OnlyAtEnd u (c :: v)) : OnlyAtEnd u v :=
  fun a b hv => h (c :: a) b (by rw [hv]; rfl)

/-- Replacing a part at the end of a text by itself less a character takes that character off. -/
theorem replaceAll_onlyAtEnd (h : u ≠ []) (hend : OnlyAtEnd u v) (hoccurs : u <:+: v) :
    replaceAll u u.dropLast v = v.dropLast := by
  induction v with
  | nil => exact absurd (List.infix_nil.mp hoccurs) h
  | cons c cs ih =>
    by_cases hstart : u <+: c :: cs
    · obtain ⟨b, hb⟩ := hstart
      obtain rfl : b = [] := hend [] b hb.symm
      rw [List.append_nil] at hb
      rw [replaceAll_of_start ⟨[], by rw [List.append_nil, hb]⟩, hb, List.length_cons,
        Nat.add_sub_cancel, List.drop_length, replaceAll, List.append_nil]
    · have hrest := (List.infix_cons_iff.mp hoccurs).resolve_left hstart
      have hcs : cs ≠ [] := by
        rintro rfl
        exact h (List.infix_nil.mp hrest)
      rw [replaceAll_of_later hstart, ih hend.of_cons hrest, List.dropLast_cons_of_ne_nil hcs]

/-- What occurs at the end only does not occur before the last character. -/
theorem onlyAtEnd_iff (hu : u ≠ []) : OnlyAtEnd u v ↔ ¬ u <:+: v.dropLast := by
  constructor
  · rintro hend ⟨a, b, hab⟩
    have hv : v ≠ [] := by
      rintro rfl
      simp [hu] at hab
    have hsplit : v = a ++ u ++ (b ++ [v.getLast hv]) := by
      rw [← List.append_assoc, hab, List.dropLast_concat_getLast]
    exact absurd (hend a _ hsplit) (by simp)
  · rintro hoccurs a b rfl
    refine Classical.byContradiction fun hb => hoccurs ⟨a, b.dropLast, ?_⟩
    rw [List.dropLast_append_of_ne_nil hb]

/-- A word loses just its own `e` if words that lose theirs occur in it at the end only. -/
theorem trimWords_of_onlyAtEnd (hmem : v ∈ words) (hv : losesE v = true)
    (hend : ∀ u ∈ words, losesE u = true → OnlyAtEnd u v) : trimWords words v = v.dropLast := by
  induction words with
  | nil => exact absurd hmem List.not_mem_nil
  | cons word words ih =>
    obtain ⟨hword, hwords⟩ := List.forall_mem_cons.mp hend
    rw [trimWords_cons]
    split
    · next hloses =>
      by_cases hoccurs : word <:+: v
      · rw [replaceAll_onlyAtEnd (ne_nil_of_losesE hloses) (hword hloses) hoccurs]
        -- Without its last character the word is out of reach of the words that come later.
        exact trimWords_eq_self_iff.mpr fun u hu hu' =>
          (onlyAtEnd_iff (ne_nil_of_losesE hu')).mp (hwords u hu hu')
      · rw [replaceAll_of_absent hoccurs]
        have hne : v ≠ word := fun heq => hoccurs (heq ▸ List.infix_refl v)
        exact ih ((List.mem_cons.mp hmem).resolve_left hne) hwords
    · next hloses =>
      have hne : v ≠ word := fun heq => hloses (heq ▸ hv)
      exact ih ((List.mem_cons.mp hmem).resolve_left hne) hwords

/-! ## All passes -/

/-- The text after the first pass. -/
def squeezed (chars : List Char) : List Char :=
  match chars.getLast? with
  | none => chars
  | some last => squeeze last chars chars

/-- The third pass. -/
def softened (chars : List Char) : List Char :=
  replaceAll ['y', 'o', 'u'] ['c', 'h', 'u'] (chars.map soften)

/-- A word without the `e` that it ends with, if it is one that loses it. -/
def trimmed (word : List Char) : List Char := if losesE word then word.dropLast else word

/-- Makes a text cute in the same three passes, but in the second one each word loses its own `e`
and nothing else. -/
def uwuByWords (text : String) : String :=
  String.ofList (softened (joinBlanks ((splitBlanks (squeezed text.toList)).map trimmed)))

/--
**The second pass by words.** Between the first pass and the third one each word on its own meets
the replacements of all words of the text that lose their `e`.

So a word that should stay does so if and only if none of those occurs in it. If they occur in other
words at the end only, then each word loses its own `e` and no other one.
-/
theorem uwu_by_words (text : String) :
    let words := splitBlanks (squeezed text.toList)
    uwu text = String.ofList (softened (joinBlanks (words.map (trimWords words)))) ∧
    (∀ v ∈ words, losesE v = false →
      (trimWords words v = trimmed v ↔ ∀ u ∈ words, losesE u = true → ¬ u <:+: v)) ∧
    ((∀ u ∈ words, losesE u = true → ∀ v ∈ words, OnlyAtEnd u v) →
      uwu text = uwuByWords text) := by
  intro words
  have hblanks : ∀ word ∈ words, ' ' ∉ word := not_mem_of_mem_splitBlanks _
  have huwu : uwu text = String.ofList (softened (joinBlanks (words.map (trimWords words)))) := by
    rw [← trimWords_joinBlanks hblanks, joinBlanks_splitBlanks]
    rfl
  have hstays : ∀ v ∈ words, losesE v = false →
      (trimWords words v = trimmed v ↔ ∀ u ∈ words, losesE u = true → ¬ u <:+: v) := by
    intro v _ hv
    rw [trimmed, hv, if_neg (by decide)]
    exact trimWords_eq_self_iff
  refine ⟨huwu, hstays, fun hend => ?_⟩
  have htrimmed : ∀ v ∈ words, trimWords words v = trimmed v := by
    intro v hv
    cases hloses : losesE v with
    | true =>
      rw [trimmed, hloses, if_pos rfl]
      exact trimWords_of_onlyAtEnd hv hloses fun u hu hu' => hend u hu hu' v hv
    | false =>
      -- A word that ends with one that loses its `e` loses its own, so none occurs in this one.
      refine (hstays v hv hloses).mpr ?_
      rintro u hu hu' ⟨a, b, rfl⟩
      obtain rfl : b = [] := hend u hu hu' _ hv a b rfl
      rw [List.append_nil, losesE_append a hu'] at hloses
      cases hloses
  rw [huwu, uwuByWords, List.map_congr_left htrimmed]

/-- A word that loses its `e` and occurs at the end of another one. -/
theorem uwu_by_words_stable :
    let words := splitBlanks (squeezed "the table is stable".toList)
    (∀ u ∈ words, losesE u = true → ∀ v ∈ words, OnlyAtEnd u v) ∧
      uwu "the table is stable" = "the tabw is stabw" := by
  intro words
  have hend : ∀ u ∈ words, losesE u = true → ∀ v ∈ words, OnlyAtEnd u v := by
    intro u hu hloses v hv
    rw [onlyAtEnd_iff (ne_nil_of_losesE hloses)]
    revert v hv
    revert u
    decide +kernel
  refine ⟨hend, ?_⟩
  rw [(uwu_by_words _).2.2 hend]
  decide +kernel

/-- A word with another one inside that loses its `e` loses an `e`, too, but not the one at its
end. -/
theorem uwu_tables :
    uwu "tables table" = "tabws tabw" ∧ uwuByWords "tables table" = "tabwes tabw" := by
  decide +kernel

end Nya.Text
