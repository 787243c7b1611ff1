import AccessPatch.Tag.Pairing
import AccessPatch.Text.Blank

/-!
# Configuration

A `Config` holds the settings of a run. `Overrides` replace some of them, the last layer that
names a setting winning.
-/

namespace AccessPatch

/-- A set of tags: in order, and each once. -/
abbrev TagSet := List String

def TagSet.ofList (tags : List String) : TagSet :=
  tags.eraseDups.mergeSort fun a b => decide (a ≤ b)

/-- The tags in a comma-separated list; a list that names none counts as not given. -/
def TagSet.ofCommas? (s : Option String) : Option TagSet :=
  match Text.splitCommas (s.getD "") with
  | [] => none
  | tags => some (TagSet.ofList tags)

/-- The settings of a run. -/
structure Config where
  /-- The tags of the elements that get annotations. -/
  trackedTags : TagSet := TagSet.ofList defaultTags
  /-- The tags that take the place of the tracked ones, if there are any. -/
  allowlist : Option TagSet := none
  /-- What every generated identifier begins with. -/
  lead : String := ""
  /-- Which files below a directory are documents. -/
  patterns : List String := ["**/*.storyboard", "**/*.xib"]
  /-- Whether a document is saved before it is overwritten. -/
  backup : Bool := true
  /-- Whether repeated identifiers are numbered. -/
  uniqueIds : Bool := false
  /-- Whether the result is checked before it is written. -/
  verify : Bool := true
deriving DecidableEq, Repr

namespace Config

/-- The tags that count in this run. -/
def tagsInForce (c : Config) : TagSet :=
  match c.allowlist with
  | some (tag :: tags) => tag :: tags
  | _ => c.trackedTags

/-- New values of some settings. -/
structure Overrides where
  trackedTags : Option TagSet := none
  allowlist : Option TagSet := none
  lead : Option String := none
  patterns : Option (List String) := none
  backup : Option Bool := none
  uniqueIds : Option Bool := none
  verify : Option Bool := none
deriving DecidableEq, Repr

/-- The configuration with every given setting replaced. -/
def overriddenBy (c : Config) (o : Overrides) : Config where
  trackedTags := o.trackedTags.getD c.trackedTags
  allowlist := o.allowlist <|> c.allowlist
  lead := o.lead.getD c.lead
  patterns := o.patterns.getD c.patterns
  backup := o.backup.getD c.backup
  uniqueIds := o.uniqueIds.getD c.uniqueIds
  verify := o.verify.getD c.verify

end Config

end AccessPatch
