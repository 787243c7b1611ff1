/-!
# Annotation markup

An annotation is an empty element that carries an identifier, once to be found by and once to be
read out. `escape` makes any text fit for an attribute value in double quotes.
-/

namespace AccessPatch.Accessibility

/-- The tag of annotations. -/
def tag : String := "accessibility"

/-- The value of an annotation's `key` attribute. -/
def key : String := "accessibilityConfiguration"

/-- The text that stands for a character inside an attribute value. -/
def escapeChar : Char → List Char
  | '&' => "&amp;".toList
  | '<' => "&lt;".toList
  | '>' => "&gt;".toList
  | '"' => "&quot;".toList
  | '\'' => "&#x27;".toList
  | c => [c]

/-- A text as an attribute value. -/
def escape (s : String) : String :=
  String.ofList (s.toList.flatMap escapeChar)

/-- The annotation element for an identifier. -/
def markup (identifier : String) : String :=
  let value := escape identifier
  "<" ++ tag ++ " key=\"" ++ key ++ "\" identifier=\"" ++ value ++ "\" label=\"" ++ value ++ "\"/>"

end AccessPatch.Accessibility
