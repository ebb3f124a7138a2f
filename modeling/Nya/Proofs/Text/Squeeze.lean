import Nya.Proofs.Text.Words

/-!
# Cute text, position by position

The first pass goes through the text it was given, and for each squeezed `o` it replaces the three
characters around it in what the pass has made of the text so far, wherever they occur without
overlap. One such round may miss an `o`, as in `bobobob`, and it may change one that the pass has
not come to yet.

All rounds together change each squeezed `o` of the text and nothing else. What a round finds
stands in the text as well, since an `o` is turned into another vowel and the characters around a
squeezed one are none. And where the pass comes to a squeezed `o` that no round has changed, all
those before it are changed, so that this is the first one found.

* `IsSqueezedAt` for the positions that change
* `Rounds` for what holds between two rounds
* `squeezed_by_positions`
-/

namespace Nya.Text

/-! ## Where something is replaced -/

variable {old new text out : List Char} {i j k : Nat}

/-- What replaces a part of the same length stands where the part stood. -/
theorem getElem?_replaceAll (hne : old ≠ []) (hlength : new.length = old.length)
    (text : List Char) (i : Nat) :
    (replaceAll old new text)[i]? = text[i]? ∨
      ∃ j d, i = j + d ∧ d < old.length ∧ old <+: text.drop j ∧
        (replaceAll old new text)[i]? = new[d]? := by
  have hpos := List.length_pos_iff.mpr hne
  fun_induction replaceAll old new text generalizing i with
  | case1 => exact .inl rfl
  | case2 c cs hstart ih =>
    by_cases hi : i < old.length
    · refine .inr ⟨0, i, (Nat.zero_add i).symm, hi, List.isPrefixOf_iff_prefix.mp hstart, ?_⟩
      exact List.getElem?_append_left (hlength ▸ hi)
    · have hshift : old.length - 1 + (i - old.length) = i - 1 := by omega
      have hrest : (c :: cs)[i]? = (cs.drop (old.length - 1))[i - old.length]? := by
        rw [List.getElem?_drop, hshift, List.getElem?_cons, if_neg (by omega)]
      rw [List.getElem?_append_right (by omega), hlength, hrest]
      refine (ih (i - old.length)).imp_right ?_
      rintro ⟨j, d, hi', hd, hoccurs, hvalue⟩
      refine ⟨old.length + j, d, by omega, hd, ?_, hvalue⟩
      rw [List.drop_drop] at hoccurs
      rwa [show old.length + j = (old.length - 1 + j) + 1 by omega, List.drop_succ_cons]
  | case3 c cs hstart ih =>
    cases i with
    | zero => exact .inl rfl
    | succ i =>
      refine (ih i).imp_right ?_
      rintro ⟨j, d, hi, hd, hoccurs, hvalue⟩
      exact ⟨j + 1, d, by omega, hd, hoccurs, hvalue⟩

/-- The first occurrence of a part is replaced. -/
theorem replaceAll_of_first (hne : old ≠ []) (hoccurs : old <+: text.drop j)
    (hfirst : ∀ i < j, ¬ old <+: text.drop i) :
    ∃ rest, replaceAll old new text = text.take j ++ new ++ rest := by
  induction j generalizing text with
  | zero =>
    cases text with
    | nil => exact absurd (List.prefix_nil.mp hoccurs) hne
    | cons c cs => exact ⟨_, replaceAll_of_start hoccurs⟩
  | succ j ih =>
    cases text with
    | nil => exact absurd (List.prefix_nil.mp hoccurs) hne
    | cons c cs =>
      obtain ⟨rest, hrest⟩ := ih hoccurs fun i hi => hfirst (i + 1) (Nat.succ_lt_succ hi)
      refine ⟨rest, ?_⟩
      rw [replaceAll_of_later (hfirst 0 (Nat.succ_pos j)), hrest]
      rfl

theorem prefix_drop_three_iff {a b c : Char} :
    [a, b, c] <+: text.drop j ↔
      text[j]? = some a ∧ text[j + 1]? = some b ∧ text[j + 2]? = some c := by
  have hdrop : ∀ d, text[j + d]? = (text.drop j)[d]? := fun d => List.getElem?_drop.symm
  rw [hdrop 1, hdrop 2, ← Nat.add_zero j, hdrop 0, Nat.add_zero]
  rcases text.drop j with _ | ⟨x, _ | ⟨y, _ | ⟨z, rest⟩⟩⟩ <;> simp [@eq_comm Char]

/-! ## Squeezed characters -/

/-- Neither a vowel nor white space. -/
def IsSolid (c : Char) : Prop := isVowel c = false ∧ isBlank c = false

instance : DecidablePred IsSolid := fun c =>
  inferInstanceAs (Decidable (isVowel c = false ∧ isBlank c = false))

/--
At the position stands an `o` between two characters that are neither vowels nor white space, and
the second of them is not the one at the end of the text.
-/
def IsSqueezedAt (text : List Char) (i : Nat) : Prop :=
  (text[i]? = some 'o' ∨ text[i]? = some 'O') ∧
    (0 < i ∧ ∃ before ∈ text[i - 1]?, IsSolid before) ∧
    ∃ after ∈ text[i + 1]?, IsSolid after ∧ text.getLast? ≠ some after

instance (text : List Char) : DecidablePred (IsSqueezedAt text) := fun i =>
  inferInstanceAs (Decidable ((text[i]? = some 'o' ∨ text[i]? = some 'O') ∧
    (0 < i ∧ ∃ before ∈ text[i - 1]?, IsSolid before) ∧
    ∃ after ∈ text[i + 1]?, IsSolid after ∧ text.getLast? ≠ some after))

/-- A squeezed character has one behind it. -/
theorem IsSqueezedAt.lt_length (h : IsSqueezedAt text i) : i + 1 < text.length := by
  obtain ⟨after, hafter, -⟩ := h.2.2
  exact (List.getElem?_eq_some_iff.mp hafter).1

/-- The window of the pass that makes it replace. -/
theorem isSqueezed_iff {last a b c : Char} :
    isSqueezed last a b c = true ↔
      (b = 'o' ∨ b = 'O') ∧ IsSolid a ∧ IsSolid c ∧ last ≠ c := by
  simp only [isSqueezed, IsSolid, Bool.and_eq_true, Bool.or_eq_true, beq_iff_eq, bne_iff_ne,
    Bool.not_eq_true', ne_comm (a := last)]
  grind

/-- The pass replaces at a window if and only if its middle one is squeezed. -/
theorem isSqueezedAt_succ_iff {last a b c : Char} (hlast : text.getLast? = some last)
    (hwindow : [a, b, c] <+: text.drop k) :
    IsSqueezedAt text (k + 1) ↔ isSqueezed last a b c = true := by
  obtain ⟨ha, hb, hc⟩ := prefix_drop_three_iff.mp hwindow
  simp [IsSqueezedAt, isSqueezed_iff, ha, hb, hc, hlast]

theorem squeezedO_eq_or (c : Char) : squeezedO c = 'u' ∨ squeezedO c = 'U' := by
  unfold squeezedO
  split
  · exact .inl rfl
  · exact .inr rfl

theorem IsSolid.ne_squeezedO {c : Char} (h : IsSolid c) (d : Char) : c ≠ squeezedO d := by
  rintro rfl
  rcases squeezedO_eq_or d with hd | hd <;> rw [hd] at h <;> exact absurd h.1 (by decide)

theorem ne_squeezedO_of_o {c : Char} (h : c = 'o' ∨ c = 'O') (d : Char) : c ≠ squeezedO d := by
  rcases squeezedO_eq_or d with hd | hd <;> rw [hd] <;> rcases h with rfl | rfl <;> decide

theorem not_isSolid_of_o {c : Char} (h : c = 'o' ∨ c = 'O') : ¬ IsSolid c := by
  rcases h with rfl | rfl <;> decide

/-! ## Rounds of the first pass -/

/--
What the first pass has made of the text when it comes to the window at position `k`: only squeezed
characters have changed, and those up to the position all have.
-/
structure Rounds (text : List Char) (k : Nat) (out : List Char) : Prop where
  only : ∀ i, out[i]? = text[i]? ∨ IsSqueezedAt text i ∧ out[i]? = text[i]?.map squeezedO
  reached : ∀ i ≤ k, IsSqueezedAt text i → out[i]? = text[i]?.map squeezedO

theorem Rounds.start (text : List Char) : Rounds text 0 text where
  only _ := .inl rfl
  reached i hi h := absurd h.2.1.1 (by omega)

namespace Rounds

variable {a b c last : Char}

/-- What no round writes stands in the text. -/
theorem text_of_out (h : Rounds text k out) (hc : ∀ d, c ≠ squeezedO d) (hout : out[i]? = some c) :
    text[i]? = some c := by
  rcases h.only i with heq | ⟨-, heq⟩
  · rw [← heq, hout]
  · obtain ⟨d, -, hd⟩ := Option.map_eq_some_iff.mp (heq ▸ hout)
    exact absurd hd.symm (hc d)

/-- No round changes a character that is not squeezed. -/
theorem out_of_text (h : Rounds text k out) (hi : ¬ IsSqueezedAt text i) : out[i]? = text[i]? :=
  (h.only i).resolve_right fun hsqueezed => hi hsqueezed.1

theorem out_of_isSolid (h : Rounds text k out) (hc : IsSolid c) (htext : text[i]? = some c) :
    out[i]? = some c := by
  rw [h.out_of_text, htext]
  intro hsqueezed
  have ho : c = 'o' ∨ c = 'O' := by simpa [htext] using hsqueezed.1
  exact not_isSolid_of_o ho hc

/-- What a round finds stands in the text, and its middle one is squeezed there. -/
theorem text_of_found (h : Rounds text k out) (hlast : text.getLast? = some last)
    (hwindow : isSqueezed last a b c = true) (hfound : [a, b, c] <+: out.drop j) :
    IsSqueezedAt text (j + 1) ∧ text[j + 1]? = some b := by
  obtain ⟨hb, ha, hc, -⟩ := isSqueezed_iff.mp hwindow
  obtain ⟨houta, houtb, houtc⟩ := prefix_drop_three_iff.mp hfound
  have htextb := h.text_of_out (ne_squeezedO_of_o hb) houtb
  have htext : [a, b, c] <+: text.drop j := prefix_drop_three_iff.mpr
    ⟨h.text_of_out ha.ne_squeezedO houta, htextb, h.text_of_out hc.ne_squeezedO houtc⟩
  exact ⟨(isSqueezedAt_succ_iff hlast htext).mpr hwindow, htextb⟩

/-- A round changes only squeezed characters. -/
theorem only_replaceAll (h : Rounds text k out) (hlast : text.getLast? = some last)
    (hwindow : isSqueezed last a b c = true) (i : Nat) :
    (replaceAll [a, b, c] [a, squeezedO b, c] out)[i]? = out[i]? ∨
      IsSqueezedAt text i ∧
        (replaceAll [a, b, c] [a, squeezedO b, c] out)[i]? = text[i]?.map squeezedO := by
  have hne : [a, b, c] ≠ [] := List.cons_ne_nil a [b, c]
  have hlength : [a, squeezedO b, c].length = [a, b, c].length := rfl
  refine (getElem?_replaceAll hne hlength out i).elim .inl ?_
  rintro ⟨j, d, rfl, hd, hfound, hvalue⟩
  obtain ⟨houta, -, houtc⟩ := prefix_drop_three_iff.mp hfound
  have hcases : d = 0 ∨ d = 1 ∨ d = 2 := by
    simp only [List.length_cons, List.length_nil] at hd
    omega
  rcases hcases with rfl | rfl | rfl
  · exact .inl (hvalue.trans houta.symm)
  · obtain ⟨hsqueezed, htext⟩ := h.text_of_found hlast hwindow hfound
    refine .inr ⟨hsqueezed, ?_⟩
    rw [hvalue, htext]
    rfl
  · exact .inl (hvalue.trans houtc.symm)

/-- If no round has changed the squeezed character of this window, then this one does: all squeezed
characters before it have changed, so none of them is found first. -/
theorem reached_replaceAll (h : Rounds text k out) (hlast : text.getLast? = some last)
    (hwindow : isSqueezed last a b c = true) (htext : [a, b, c] <+: text.drop k)
    (hout : out[k + 1]? = some b) :
    (replaceAll [a, b, c] [a, squeezedO b, c] out)[k + 1]? = some (squeezedO b) := by
  obtain ⟨hb, ha, hc, -⟩ := isSqueezed_iff.mp hwindow
  obtain ⟨htexta, -, htextc⟩ := prefix_drop_three_iff.mp htext
  have hfound : [a, b, c] <+: out.drop k := prefix_drop_three_iff.mpr
    ⟨h.out_of_isSolid ha htexta, hout, h.out_of_isSolid hc htextc⟩
  have hfirst : ∀ j < k, ¬ [a, b, c] <+: out.drop j := by
    intro j hj hearlier
    obtain ⟨hsqueezed, htextb⟩ := h.text_of_found hlast hwindow hearlier
    have hchanged := h.reached (j + 1) hj hsqueezed
    rw [(prefix_drop_three_iff.mp hearlier).2.1, htextb] at hchanged
    exact ne_squeezedO_of_o hb b (Option.some.inj hchanged)
  have hlength : (out.take k).length = k := by
    have hlt := (List.getElem?_eq_some_iff.mp hout).1
    rw [List.length_take]
    omega
  obtain ⟨rest, hrest⟩ : ∃ rest, replaceAll [a, b, c] [a, squeezedO b, c] out =
      out.take k ++ [a, squeezedO b, c] ++ rest :=
    replaceAll_of_first (List.cons_ne_nil a [b, c]) hfound hfirst
  rw [hrest, List.append_assoc, List.getElem?_append_right (by omega), hlength,
    Nat.add_sub_cancel_left]
  rfl

/-- **A round at a window keeps the invariant.** -/
theorem round (h : Rounds text k out) (hlast : text.getLast? = some last)
    (hwindow : isSqueezed last a b c = true) (htext : [a, b, c] <+: text.drop k) :
    Rounds text (k + 1) (replaceAll [a, b, c] [a, squeezedO b, c] out) where
  only i := by
    rcases h.only_replaceAll hlast hwindow i with heq | hchanged
    · exact heq ▸ h.only i
    · exact .inr hchanged
  reached i hi hsqueezed := by
    rcases h.only_replaceAll hlast hwindow i with heq | hchanged
    · rcases Nat.le_succ_iff.mp hi with hi | rfl
      · rw [heq, h.reached i hi hsqueezed]
      · have htextb := (prefix_drop_three_iff.mp htext).2.1
        rcases h.only (k + 1) with hout | ⟨-, hout⟩
        · rw [htextb] at hout ⊢
          exact h.reached_replaceAll hlast hwindow htext hout
        · rw [heq, hout]
    · exact hchanged.2

/-- A window whose middle character is not squeezed is passed over. -/
theorem pass (h : Rounds text k out) (hpass : ¬ IsSqueezedAt text (k + 1)) :
    Rounds text (k + 1) out where
  only := h.only
  reached i hi hsqueezed := by
    rcases Nat.le_succ_iff.mp hi with hi | rfl
    · exact h.reached i hi hsqueezed
    · exact absurd hsqueezed hpass

/-- The windows from a position on. -/
theorem run (hlast : text.getLast? = some last) (rest : List Char)
    (hrest : text.drop k = rest) (h : Rounds text k out) :
    Rounds text text.length (squeeze last rest out) := by
  fun_induction squeeze last rest out generalizing k with
  | case1 a b c rest out ih =>
    have htext : [a, b, c] <+: text.drop k := hrest ▸ ⟨rest, rfl⟩
    refine ih (k := k + 1) ?_ ?_
    · rw [← List.drop_drop, hrest]
      rfl
    · split
      · next hwindow => exact h.round hlast hwindow htext
      · next hwindow => exact h.pass (mt (isSqueezedAt_succ_iff hlast htext).mp hwindow)
  | case2 rest out hshort =>
    refine ⟨h.only, fun i _ hsqueezed => h.reached i ?_ hsqueezed⟩
    -- Fewer than three characters are left, so there is no squeezed one behind the position.
    have hlength : text.length ≤ k + 2 := by
      have hle : rest.length ≤ 2 := by
        rcases rest with _ | ⟨a, _ | ⟨b, _ | ⟨c, rest⟩⟩⟩
        · exact Nat.zero_le _
        · exact Nat.le_succ 1
        · exact Nat.le_refl 2
        · exact absurd rfl (hshort a b c rest)
      rw [← hrest, List.length_drop] at hle
      omega
    have hlt := hsqueezed.lt_length
    omega

end Rounds

/-! ## The first pass -/

/-- The text with each squeezed `o` replaced where it stands. -/
def squeezedByPositions (text : List Char) : List Char :=
  text.mapIdx fun i c => if IsSqueezedAt text i then (if c = 'o' then 'u' else 'U') else c

theorem rounds_squeezed (text : List Char) : Rounds text text.length (squeezed text) := by
  unfold squeezed
  split
  · next hnone =>
    obtain rfl := List.getLast?_eq_none_iff.mp hnone
    exact .start []
  · next last hlast => exact Rounds.run hlast text rfl (.start text)

/--
**The first pass by positions.** What it makes of a text is the text in which each squeezed `o` is
replaced by a `u` of the same case and every other character stays, whichever of them the rounds of
the pass come to first. The other two passes go on from there.
-/
theorem squeezed_by_positions (text : String) :
    let out := squeezedByPositions text.toList
    squeezed text.toList = out ∧
      uwu text = String.ofList (softened (trimWords (splitBlanks out) out)) := by
  intro out
  have hrounds := rounds_squeezed text.toList
  have hout : squeezed text.toList = out := by
    refine List.ext_getElem? fun i => ?_
    rw [show out = squeezedByPositions text.toList from rfl, squeezedByPositions,
      List.getElem?_mapIdx]
    by_cases hsqueezed : IsSqueezedAt text.toList i
    · have hlt := hsqueezed.lt_length
      rw [hrounds.reached i (by omega) hsqueezed]
      refine congrArg (Option.map · _) (funext fun c => ?_)
      rw [if_pos hsqueezed, squeezedO]
      simp only [beq_iff_eq]
    · rw [hrounds.out_of_text hsqueezed]
      simp only [if_neg hsqueezed, Option.map_id']
  refine ⟨hout, ?_⟩
  rw [← hout]
  rfl

/-- The first round changes every other `o`, and the second round the others. -/
example : squeezed "bobobobs".toList = "bubububs".toList := by decide +kernel

end Nya.Text
