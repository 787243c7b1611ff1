import AccessPatch.Xml.Source

/-!
# Namespaces

A check of a whole document, stricter than reading its tags: names of elements and attributes may
have one prefix, other names none, prefixes have to be bound, and identifiers have to be unique.
`check` says whether a document passes it.

Findings are weighed as they come: one that is only a warning hides the errors before it, which is
the verdict that reports and tools agree on.
-/

namespace AccessPatch.Xml

/-- How bad a finding is. -/
inductive Severity where
  | warning
  | error
deriving DecidableEq, Repr

namespace Namespace

/-- The namespace of the prefix `xml`. -/
def xmlUri : String := "http://www.w3.org/XML/1998/namespace"

/-- The namespace of the prefix `xmlns`. -/
def xmlnsUri : String := "http://www.w3.org/2000/xmlns/"

/-- The alphabet of the names in the check. -/
def alphabet : Alphabet := { broad := true }

/-- A name cut at its colon: the prefix, if there is one, and the local part. None if there are more
colons, or if a part is missing or begins with no letter. -/
def splitName? (name : String) : Option (Option String × String) :=
  match name.toList.splitOn ':' with
  | [_] => some (none, name)
  | [before, after] =>
    if before.head?.any alphabet.isNameStart && after.head?.any alphabet.isNameStart then
      some (some (String.ofList before), String.ofList after)
    else none
  | _ => none

/-! ## Names of namespaces -/

/-- The characters that stand for themselves in any part of a resource identifier. -/
def isPlainUriChar (c : Char) : Bool :=
  c.isAlphanum || "-._~!$&'()*+,;=:@".toList.contains c

/-- Whether each character may stand in a part of a resource identifier in which also those of
`extra` may. A percent sign needs two hexadecimal digits. -/
def isUriPart (extra : List Char) : List Char → Bool
  | [] => true
  | '%' :: a :: b :: rest =>
    (hexDigit? a).isSome && (hexDigit? b).isSome && isUriPart extra rest
  | c :: rest => (isPlainUriChar c || extra.contains c) && isUriPart extra rest

/-- The scheme of a resource identifier, and what follows the colon. -/
def splitScheme (cs : List Char) : Option (List Char × List Char) :=
  let (scheme, rest) := cs.span fun c => c.isAlphanum || c == '+' || c == '-' || c == '.'
  match scheme, rest with
  | first :: _, ':' :: rest => if first.isAlpha then some (scheme, rest) else none
  | _, _ => none

/-- Whether the part of a resource identifier after the scheme is well-formed. -/
def isUriRest (cs : List Char) : Bool :=
  let (beforeFragment, fragment) := cs.span (· ≠ '#')
  let (path, query) := beforeFragment.span (· ≠ '?')
  isUriPart ['/', '[', ']'] path && isUriPart ['/', '?'] query &&
    isUriPart ['/', '?'] (fragment.drop 1)

/-- Whether the text is a resource identifier, and whether it has a scheme. -/
def uriKind? (uri : String) : Option Bool :=
  match splitScheme uri.toList with
  | some (_, rest) => if isUriRest rest then some true else none
  | none =>
    let firstPart := uri.toList.takeWhile fun c => c ≠ '/' && c ≠ '?' && c ≠ '#'
    if isUriRest uri.toList && ! firstPart.contains ':' then some false else none

/-! ## Bindings -/

/-- The bindings of prefixes in scope, innermost first; the empty prefix is that of names without
one. -/
abbrev Scope := List (String × String)

/-- The namespace of a prefix, if it is bound. -/
def Scope.uri? (scope : Scope) (pre : String) : Option String :=
  if pre = "xml" then some xmlUri else scope.lookup pre

/-- The binding that an attribute makes, and the findings about it. -/
def bindingOf (name value : String) : List Severity × Scope :=
  if name = "xmlns" then
    let findings := if value = "" then [] else match uriKind? value with
      | none => [.error]
      | some hasScheme => if hasScheme then [] else [.warning]
    if value = xmlUri then (findings ++ [.error], [])
    else if value = xmlnsUri then (findings ++ [.error], [])
    else (findings, [("", value)])
  else match splitName? name with
    | some (some "xmlns", pre) =>
      if pre = "xml" then (if value = xmlUri then [] else [.error], [])
      else if value = xmlUri ∨ pre = "xmlns" ∨ value = xmlnsUri ∨ value = "" then ([.error], [])
      else (if (uriKind? value).isSome then [] else [.error], [(pre, value)])
    | some _ => ([], [])
    | none => ([.error], [])

/-- The findings about the value of an attribute by itself. -/
def valueFindings (name value : String) : List Severity :=
  if name = "xml:space" ∧ value ≠ "default" ∧ value ≠ "preserve" then [.warning] else []

/-- Whether an attribute makes a binding. -/
def isBinding (name : String) : Bool :=
  name == "xmlns" || (match splitName? name with
    | some (some pre, _) => pre == "xmlns"
    | _ => false)

/-- The findings about the prefixes of attributes that make no binding: unbound ones, and two that
give one name in the same namespace. -/
def attributeFindings (scope : Scope) (names : List String) : List Severity :=
  let split := names.filterMap splitName?
  let unbound := split.filter fun (pre, _) => match pre with
    | some p => (scope.uri? p).isNone
    | none => false
  let expanded := split.filterMap fun (pre, part) => match pre with
    | some p => (scope.uri? p).map fun uri => (uri, part)
    | none => none
  unbound.map (fun _ => .error) ++
    (if expanded.eraseDups.length < expanded.length then [.error] else [])

/-- The findings about the name of an element. -/
def elementFindings (scope : Scope) (name : String) : List Severity :=
  match splitName? name with
  | some (some pre, _) => if (scope.uri? pre).isNone then [.error] else []
  | _ => []

/-! ## Other names -/

/-- The findings about a name that has no namespace. -/
def plainNameFindings (name : String) : List Severity :=
  if name.toList.contains ':' then [.error] else []

/-- The reserved targets of instructions that have a meaning. -/
def reservedTargets : List String := ["xml-stylesheet", "xml-model"]

/-- The findings about the target of an instruction: those that begin with `xml` are reserved. -/
def targetFindings (target : String) : List Severity :=
  if reservedTargets.contains target then []
  else
    (if (target.toList.take 3).map Char.toLower = ['x', 'm', 'l'] then [.warning] else []) ++
      plainNameFindings target

/-! ## Identifiers -/

/-- Whether the text is a name without colon. -/
def isPlainName (s : String) : Bool :=
  match s.toList with
  | [] => false
  | c :: rest => plain.isNameStart c && c != ':' && rest.all fun d => plain.isNameChar d && d != ':'
where
  plain : Alphabet := {}

/-- A value without the white space at its ends. -/
def trimSpace (s : String) : String :=
  String.ofList (((s.toList.dropWhile isSpace).reverse.dropWhile isSpace).reverse)

/-! ## The check -/

/-- The scopes of the open elements, innermost first, the identifiers met, and the findings, last
one first. -/
structure Checker where
  scopes : List Scope := []
  ids : List String := []
  findings : List Severity := []
deriving DecidableEq, Repr

/-- Notes the identifiers that an element has; `idNames` are its attributes that are declared to
hold one. -/
def Checker.addIds (c : Checker) (idNames : List String) (attributes : List (String × String)) :
    Checker :=
  attributes.foldl (fun c (name, value) =>
    if name = "xml:id" ∨ idNames.contains name then
      let malformed := name = "xml:id" ∧ ! isPlainName (trimSpace value)
      let findings := (if c.ids.contains value then [.error] else []) ++
        (if malformed then [Severity.error] else [])
      { c with ids := value :: c.ids, findings := findings ++ c.findings }
    else c) c

/-- Takes an event into account. -/
def Checker.step (idNames : String → List String) (c : Checker) (e : Event) : Checker :=
  match e with
  | .closed _ _ => { c with scopes := c.scopes.tail }
  | .instruction target => { c with findings := (targetFindings target).reverse ++ c.findings }
  | .declared name => { c with findings := plainNameFindings name ++ c.findings }
  | .opened name attributes _ _ _ =>
    let bindings := attributes.map fun (name, value) => bindingOf name value
    let scope := (bindings.flatMap Prod.snd).reverse ++ c.scopes.head?.getD []
    let plain := (attributes.map Prod.fst).filter (! isBinding ·)
    let values :=
      attributes.flatMap fun (name, value) => (bindingOf name value).1 ++ valueFindings name value
    let findings := (if (splitName? name).isNone then [.error] else []) ++
      values ++ attributeFindings scope plain ++ elementFindings scope name
    { c with scopes := scope :: c.scopes, findings := findings.reverse ++ c.findings }.addIds
      (idNames name) attributes

/-- Whether findings, in order, leave a document acceptable: no error, or a warning as the last. -/
def acceptable (findings : List Severity) : Bool :=
  findings.all (· == .warning) || findings.getLast? == some .warning

end Namespace

/-- Whether a version number is one of the first version's. -/
def isSupportedVersion (version : String) : Bool :=
  match version.toList with
  | '1' :: '.' :: rest => rest.all (·.isDigit)
  | _ => false

/-- Whether the encoding of a document is plain from its first bytes: 16-bit characters have to be
announced by a byte-order mark or by a declaration. -/
def announcesEncoding (bytes : Bytes) : Bool :=
  match bytes with
  | 0x3C :: 0x00 :: rest => rest.take 2 == [0x3F, 0x00]
  | 0x00 :: rest => rest.take 3 == [0x3C, 0x00, 0x3F]
  | _ => true

/-- Checks that a document is well-formed, its namespaces included; a failure comes with its
reason. -/
def check (bytes : Bytes) : Except String Unit :=
  match Source.ofBytes bytes with
  | .error e => .error e.message
  | .ok source =>
    if ! announcesEncoding bytes then .error "the encoding is not announced"
    else if ! source.version.all isSupportedVersion then .error "the version is not supported"
    else match (source.reader Namespace.alphabet true).readAll source.body source.ragged with
      | .error stop => .error stop.fault.message
      | .ok (events, dtd) =>
        let checker := events.foldl (Namespace.Checker.step dtd.identifyingAttributes) {}
        if Namespace.acceptable checker.findings.reverse then .ok ()
        else .error "the namespaces are not well-formed"

end AccessPatch.Xml
