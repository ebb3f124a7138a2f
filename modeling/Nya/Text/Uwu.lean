import Nya.Text.Replace
import Nya.Text.Blank

/-!
# Cute text

A text is made cute in three passes:

1. an `o` squeezed between two consonants inside a word becomes a `u`, together with every other
   occurrence of the same three characters;
2. a word of more than three characters loses the `e` at its end, wherever its text occurs;
3. `r` and `l` become `w`, and then `you` becomes `chu`.
-/

namespace Nya.Text

/-- Whether a character is one of the five vowels. -/
def isVowel (c : Char) : Bool := "aeiouAEIOU".toList.contains c

/-- What a squeezed `o` becomes. -/
def squeezedO (c : Char) : Char := if c == 'o' then 'u' else 'U'

/--
Whether the middle one of three characters is squeezed, in a text that ends with `last`. It is not
if the character after it is the one at the end of the text.
-/
def isSqueezed (last before c after : Char) : Bool :=
  (c == 'o' || c == 'O') && !isVowel before && !isVowel after && !isBlank before &&
    !isBlank after && after != last

/-- The first pass: goes through the characters of `text` and replaces in `out`. -/
def squeeze (last : Char) : List Char → List Char → List Char
  | a :: b :: c :: rest, out =>
    squeeze last (b :: c :: rest)
      (if isSqueezed last a b c then replaceAll [a, b, c] [a, squeezedO b, c] out else out)
  | _, out => out

/-- Whether the second pass shortens a word. -/
def losesE (word : List Char) : Bool :=
  3 < word.length && (word.getLast? == some 'e' || word.getLast? == some 'E')

/-- The second pass: each long word that ends with an `e` is replaced without it. -/
def trimWords (words : List (List Char)) (out : List Char) : List Char :=
  words.foldl (fun out word => if losesE word then replaceAll word word.dropLast out else out) out

/-- One liquid consonant in the third pass. -/
def soften (c : Char) : Char := if c == 'r' || c == 'l' then 'w' else c

/-- Makes a text cute. -/
def uwu (text : String) : String :=
  let chars := text.toList
  let squeezed := match chars.getLast? with
    | none => chars
    | some last => squeeze last chars chars
  let trimmed := trimWords (splitBlanks squeezed) squeezed
  String.ofList (replaceAll ['y', 'o', 'u'] ['c', 'h', 'u'] (trimmed.map soften))

end Nya.Text
