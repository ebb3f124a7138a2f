/-!
# The bytes of a text

In UTF-8 a character below 128 is one byte, its own number, and all bytes of any other character
are 128 or more. So a test for characters below 128 can be made byte by byte: it holds of all bytes
of a character or of none.

A position in the bytes of a text is a boundary if it is that of a character or the end. A slice
between two boundaries is a text again.
-/

namespace Nya.Text

/-- The bytes of a text. -/
def bytesOf (text : List Char) : List UInt8 := text.flatMap String.utf8EncodeChar

@[simp] theorem bytesOf_nil : bytesOf [] = [] := rfl

@[simp] theorem bytesOf_cons (c : Char) (cs : List Char) :
    bytesOf (c :: cs) = String.utf8EncodeChar c ++ bytesOf cs := List.flatMap_cons

@[simp] theorem bytesOf_append (a b : List Char) : bytesOf (a ++ b) = bytesOf a ++ bytesOf b :=
  List.flatMap_append

theorem toByteArray_bytesOf (text : List Char) : (bytesOf text).toByteArray = text.utf8Encode := rfl

/-- The bytes of a text are those of another one from its start only if the characters are. -/
theorem bytesOf_prefix_iff {a b : List Char} : bytesOf a <+: bytesOf b ↔ a <+: b := by
  constructor
  · rintro ⟨rest, hrest⟩
    refine List.isPrefix_of_utf8Encode_append_eq_utf8Encode rest.toByteArray ?_
    rw [← toByteArray_bytesOf, ← toByteArray_bytesOf, ← List.toByteArray_append, hrest]
  · rintro ⟨rest, rfl⟩
    exact ⟨bytesOf rest, (bytesOf_append a rest).symm⟩

/-- Texts of the same bytes are the same. -/
theorem bytesOf_inj {a b : List Char} : bytesOf a = bytesOf b ↔ a = b := by
  refine ⟨fun h => ?_, congrArg bytesOf⟩
  have hab : a <+: b := bytesOf_prefix_iff.mp (h ▸ List.prefix_refl _)
  have hba : b <+: a := bytesOf_prefix_iff.mp (h ▸ List.prefix_refl _)
  exact hab.eq_of_length_le hba.length_le

/-! ## Single characters -/

variable {c q : Char} {b : UInt8}

/-- A plain character is one byte. -/
theorem utf8EncodeChar_of_lt (h : c.toNat < 128) :
    String.utf8EncodeChar c = [UInt8.ofNat c.toNat] := by
  have hsize : c.utf8Size = 1 := Char.utf8Size_eq_one_iff.mpr (Nat.le_of_lt_succ h)
  exact String.utf8EncodeChar_eq_singleton hsize

/-- All other characters consist of bytes that are no plain characters. -/
theorem utf8EncodeChar_of_le (h : 128 ≤ c.toNat) (hb : b ∈ String.utf8EncodeChar c) :
    128 ≤ b.toNat := by
  have hor : ∀ x y : UInt8, 128 ≤ y.toNat → 128 ≤ (x ||| y).toNat := by
    intro x y hy
    rw [UInt8.toNat_or]
    exact Nat.le_trans hy Nat.right_le_or
  rcases Char.utf8Size_eq c with hsize | hsize | hsize | hsize
  · have hle : c.toNat ≤ 127 := Char.utf8Size_eq_one_iff.mp hsize
    omega
  · rw [String.utf8EncodeChar_eq_cons_cons hsize] at hb
    simp only [List.mem_cons, List.not_mem_nil, or_false] at hb
    rcases hb with rfl | rfl <;> exact hor _ _ (by decide)
  · rw [String.utf8EncodeChar_eq_cons_cons_cons hsize] at hb
    simp only [List.mem_cons, List.not_mem_nil, or_false] at hb
    rcases hb with rfl | rfl | rfl <;> exact hor _ _ (by decide)
  · rw [String.utf8EncodeChar_eq_cons_cons_cons_cons hsize] at hb
    simp only [List.mem_cons, List.not_mem_nil, or_false] at hb
    rcases hb with rfl | rfl | rfl | rfl <;> exact hor _ _ (by decide)

theorem ofNat_of_lt (h : c.toNat < 128) : (UInt8.ofNat c.toNat).toNat = c.toNat :=
  UInt8.toNat_ofNat_of_lt' (Nat.lt_trans h (by decide))

/-! ## Tests -/

/-- The byte is that of a character below 128 which passes the test. -/
def testByte (test : Char → Bool) (b : UInt8) : Bool :=
  decide (b.toNat < 128) && test (Char.ofNat b.toNat)

/-- The byte is that of the given character, if this is below 128. -/
def isChar (q : Char) : UInt8 → Bool := testByte (· == q)

/-- The test of bytes holds of all bytes of a character, or of none, as the other one does. -/
def Agrees (onByte : UInt8 → Bool) (onChar : Char → Bool) : Prop :=
  ∀ c, ∀ b ∈ String.utf8EncodeChar c, onByte b = onChar c

/-- A test that only plain characters pass is decided by a single byte. -/
theorem agrees_testByte {test : Char → Bool} (htest : ∀ c, test c = true → c.toNat < 128) :
    Agrees (testByte test) test := by
  intro c b hb
  unfold testByte
  by_cases hc : c.toNat < 128
  · rw [utf8EncodeChar_of_lt hc, List.mem_singleton] at hb
    subst hb
    rw [ofNat_of_lt hc, Char.ofNat_toNat, decide_eq_true hc, Bool.true_and]
  · have hle := utf8EncodeChar_of_le (Nat.le_of_not_lt hc) hb
    have hfalse : test c = false := Bool.eq_false_iff.mpr fun h => hc (htest c h)
    rw [hfalse, decide_eq_false (Nat.not_lt.mpr hle), Bool.false_and]

/-- So is whether a character is a given plain one. -/
theorem agrees_isChar (hq : q.toNat < 128) : Agrees (isChar q) (· == q) :=
  agrees_testByte fun c hc => by rwa [beq_iff_eq.mp hc]

variable {onByte : UInt8 → Bool} {onChar : Char → Bool}

/-- So is the opposite of such a test. -/
theorem Agrees.not (h : Agrees onByte onChar) : Agrees (fun b => !onByte b) (fun c => !onChar c) :=
  fun c b hb => congrArg Bool.not (h c b hb)

/-- The first byte passes if the first character does. -/
theorem Agrees.head (h : Agrees onByte onChar) {cs : List Char} {bs : List UInt8}
    (hbytes : bytesOf (c :: cs) = b :: bs) : onByte b = onChar c := by
  refine h c b ?_
  obtain ⟨b', rest, hchar⟩ := List.exists_cons_of_ne_nil (String.utf8EncodeChar_ne_nil (c := c))
  rw [bytesOf_cons, hchar, List.cons_append] at hbytes
  rw [hchar, (List.cons.inj hbytes).1]
  exact List.mem_cons_self

/-- A run of bytes that pass is that of the characters that do. -/
theorem Agrees.takeWhile_bytesOf (h : Agrees onByte onChar) (cs : List Char) :
    (bytesOf cs).takeWhile onByte = bytesOf (cs.takeWhile onChar) := by
  induction cs with
  | nil => rfl
  | cons c cs ih =>
    rw [bytesOf_cons]
    cases hc : onChar c with
    | true =>
      have hall : ∀ b ∈ String.utf8EncodeChar c, onByte b = true := fun b hb => (h c b hb).trans hc
      rw [List.takeWhile_append_of_pos hall, ih, List.takeWhile_cons_of_pos hc, bytesOf_cons]
    | false =>
      obtain ⟨b, rest, hchar⟩ := List.exists_cons_of_ne_nil (String.utf8EncodeChar_ne_nil (c := c))
      have hb : onByte b = false := (h c b (hchar ▸ List.mem_cons_self)).trans hc
      rw [hchar, List.cons_append, List.takeWhile_cons_of_neg (by simp [hb]),
        List.takeWhile_cons_of_neg (by simp [hc]), bytesOf_nil]

/-- A character below 128 occurs as often as its byte. -/
theorem countP_isChar_bytesOf (hq : q.toNat < 128) (cs : List Char) :
    (bytesOf cs).countP (isChar q) = cs.count q := by
  induction cs with
  | nil => rfl
  | cons c cs ih =>
    rw [bytesOf_cons, List.countP_append, ih, List.count_cons, Nat.add_comm]
    congr 1
    have hbyte := agrees_isChar hq c
    split
    · next hc =>
      obtain rfl := beq_iff_eq.mp hc
      rw [utf8EncodeChar_of_lt hq] at hbyte ⊢
      simp [hbyte]
    · next hc =>
      refine List.countP_eq_zero.mpr fun b hb => ?_
      rw [hbyte b hb]
      exact hc

/-! ## Sources -/

/-- The bytes of a source text. -/
def sourceBytes (source : String) : List UInt8 := source.toByteArray.data.toList

/-- The bytes of a source are those of its characters. -/
theorem sourceBytes_eq (source : String) : sourceBytes source = bytesOf source.toList := by
  rw [sourceBytes, ← String.utf8Encode_toList, ← toByteArray_bytesOf]
  exact List.toList_data_toByteArray

theorem length_sourceBytes (source : String) : (sourceBytes source).length = source.utf8ByteSize :=
  rfl

/-- How many bytes a text has. -/
def byteLength (text : List Char) : Nat := (bytesOf text).length

@[simp] theorem byteLength_nil : byteLength [] = 0 := rfl

@[simp] theorem byteLength_append (a b : List Char) :
    byteLength (a ++ b) = byteLength a + byteLength b := by
  simp [byteLength]

theorem byteLength_cons (c : Char) (cs : List Char) :
    byteLength (c :: cs) = c.utf8Size + byteLength cs := by
  simp [byteLength]

theorem byteLength_cons_of_lt (h : c.toNat < 128) (cs : List Char) :
    byteLength (c :: cs) = 1 + byteLength cs := by
  rw [byteLength, bytesOf_cons, utf8EncodeChar_of_lt h]
  exact List.length_append

variable {source : String} {before text after : List Char}

/-- The bytes from a boundary on. -/
theorem drop_sourceBytes (h : source.toList = before ++ after) :
    (sourceBytes source).drop (byteLength before) = bytesOf after := by
  rw [sourceBytes_eq, h, bytesOf_append]
  exact List.drop_left

/-- There are no more characters than bytes. -/
theorem length_le_byteLength (text : List Char) : text.length ≤ byteLength text := by
  induction text with
  | nil => exact Nat.le_refl 0
  | cons c cs ih =>
    have hc := Char.utf8Size_pos c
    rw [byteLength_cons, List.length_cons]
    omega

/-- The position lies in the source and cuts no character. -/
def IsBoundary (source : String) (position : Nat) : Prop :=
  (⟨position⟩ : String.Pos.Raw).IsValid source

instance (source : String) : DecidablePred (IsBoundary source) := fun position =>
  inferInstanceAs (Decidable ((⟨position⟩ : String.Pos.Raw).IsValid source))

/-- A boundary is within the source. -/
theorem IsBoundary.le {position : Nat} (h : IsBoundary source position) :
    position ≤ source.utf8ByteSize :=
  h.le_utf8ByteSize

/-- The boundary as a position of the source. -/
def IsBoundary.pos {position : Nat} (h : IsBoundary source position) : source.Pos :=
  String.pos source ⟨position⟩ h

theorem IsBoundary.byteIdx_pos {position : Nat} (h : IsBoundary source position) :
    h.pos.offset.byteIdx = position :=
  congrArg String.Pos.Raw.byteIdx String.offset_pos

/-- The slice of a source between two boundaries. -/
def slice? (source : String) (low high : Nat) : Option String :=
  if h : IsBoundary source low ∧ IsBoundary source high ∧ low ≤ high then
    some (source.extract h.1.pos h.2.1.pos)
  else none

/-- There is a boundary behind every character. -/
theorem isBoundary_byteLength (h : source.toList = before ++ after) :
    IsBoundary source (byteLength before) := by
  refine String.Pos.Raw.isValid_iff_exists_append.mpr
    ⟨String.ofList before, String.ofList after, ?_, ?_⟩
  · rw [← String.ofList_append, ← h, String.ofList_toList]
  · rw [String.Pos.Raw.ext_iff, String.byteIdx_rawEndPos, ← length_sourceBytes, sourceBytes_eq,
      String.toList_ofList]
    rfl

theorem size_utf8Encode (text : List Char) : text.utf8Encode.size = byteLength text := by
  rw [← toByteArray_bytesOf, List.size_toByteArray]
  rfl

/-- A slice between the boundaries before and behind a part of the source is that part. -/
theorem slice?_byteLength (h : source.toList = before ++ text ++ after) :
    slice? source (byteLength before) (byteLength (before ++ text)) =
      some (String.ofList text) := by
  have hlow : IsBoundary source (byteLength before) :=
    isBoundary_byteLength (h.trans (List.append_assoc before text after))
  have hhigh : IsBoundary source (byteLength (before ++ text)) := isBoundary_byteLength h
  have hle : byteLength before ≤ byteLength (before ++ text) := by
    rw [byteLength_append]
    exact Nat.le_add_right _ _
  rw [slice?, dif_pos ⟨hlow, hhigh, hle⟩]
  refine congrArg some (String.toByteArray_inj.mp ?_)
  have hbytes : source.toByteArray =
      before.utf8Encode ++ (text.utf8Encode ++ after.utf8Encode) := by
    rw [← String.utf8Encode_toList, h, List.append_assoc, List.utf8Encode_append,
      List.utf8Encode_append]
  have hextract : source.toByteArray.extract (byteLength before + 0)
      (byteLength before + byteLength text) = text.utf8Encode := by
    rw [hbytes, ByteArray.extract_append_size_add' (size_utf8Encode before).symm,
      ByteArray.extract_append_eq_left (size_utf8Encode text).symm]
  rw [String.toByteArray_extract, String.toByteArray_ofList, ← hextract, hlow.byteIdx_pos,
    hhigh.byteIdx_pos, byteLength_append, Nat.add_zero]

end Nya.Text
