/-!
# Replacing parts of a text

`replaceAll` goes through a text from left to right and replaces every occurrence of a part that
does not overlap one already replaced. It ends because each round leaves a shorter text.
-/

namespace Nya.Text

/-- Replaces all occurrences of `old`, from left to right and without overlap. -/
def replaceAll (old new : List Char) : List Char → List Char
  | [] => []
  | c :: cs =>
    if old.isPrefixOf (c :: cs) then new ++ replaceAll old new (cs.drop (old.length - 1))
    else c :: replaceAll old new cs
termination_by text => text.length

/-- The parts of a text between blanks. -/
def splitBlanks : List Char → List (List Char)
  | [] => [[]]
  | c :: cs =>
    if c == ' ' then [] :: splitBlanks cs
    else
      match splitBlanks cs with
      | [] => [[c]]
      | word :: words => (c :: word) :: words

end Nya.Text
