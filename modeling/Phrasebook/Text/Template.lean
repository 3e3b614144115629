/-!
# Templates

Text in which a pattern stands for something else. Occurrences are replaced from
the left and do not overlap.
-/

namespace Phrasebook.Text

/-- Replaces every occurrence of a pattern; an empty pattern occurs nowhere. -/
def replaceAll (pattern value : List Char) (text : List Char) : List Char :=
  match text with
  | [] => []
  | c :: rest =>
      if !pattern.isEmpty && pattern.isPrefixOf (c :: rest) then
        value ++ replaceAll pattern value (rest.drop (pattern.length - 1))
      else c :: replaceAll pattern value rest
termination_by text.length
decreasing_by all_goals simp only [List.length_drop, List.length_cons]; omega

def languageMark : String := "\x7blanguage\x7d"

def fillLanguage (template language : String) : String :=
  String.ofList (replaceAll languageMark.toList language.toList template.toList)

end Phrasebook.Text
