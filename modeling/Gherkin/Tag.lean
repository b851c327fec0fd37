import Gherkin.Text.Blank

/-!
# Tags

A tag is a name written with an `@`.  Lists of tags are merged as ordered unions: the first occurrence
of each tag counts, and tags are compared in their normal form.
-/

namespace Gherkin.Tag

def normalize (tag : String) : String :=
  match Text.trim tag.toList with
  | '@' :: name => String.ofList ('@' :: name)
  | name => String.ofList ('@' :: name)

/-- The tags that were not seen, each where it occurs first, and what is seen when they have been passed. -/
def retain (seen : List String) : List String → List String × List String
  | [] => ([], seen)
  | tag :: tags =>
    if tag ∈ seen then retain seen tags
    else
      let (kept, seen) := retain (tag :: seen) tags
      (tag :: kept, seen)

def push (seen target : List String) : List String → List String
  | [] => target
  | tag :: tags =>
    let formatted := normalize tag
    if formatted ∈ seen then push seen target tags else push (formatted :: seen) (target ++ [formatted]) tags

/-- The tags of `base` in normal form, each kept where it occurs first, and then those of `additions`. -/
def merge (base additions : List String) : List String :=
  let (target, seen) := retain [] (base.map normalize)
  push seen target additions

end Gherkin.Tag
