/-!
Closed sets of words. A value of such a set may have several spellings in shader text, the first of
which is its usual one, and it has one tag under which it is written in JSON.
-/

namespace BindlessHlsl

/-- A type whose values are written as words in shader text. -/
class Keyword (α : Type) where
  /-- Every accepted spelling. The first spelling of a value is its usual one. -/
  spellings : List (String × α)

namespace Keyword

variable {α : Type} [Keyword α]

/-- The value that a word spells. Letter case matters. -/
def ofWord? (word : String) : Option α := spellings.lookup word

/-- The usual spelling of a value. -/
def word [BEq α] (value : α) : String :=
  ((spellings.find? fun s => s.2 == value).map Prod.fst).getD "?"

end Keyword

/-- A type whose values are written as tags in JSON. -/
class Tagged (α : Type) where
  /-- The tag of every value. -/
  tags : List (α × String)

namespace Tagged

variable {α : Type} [Tagged α]

/-- The tag of a value. -/
def tag [BEq α] (value : α) : String := (tags.lookup value).getD "?"

/-- The value with a tag. -/
def ofTag? (tag : String) : Option α := (tags.find? fun t => t.2 == tag).map Prod.fst

end Tagged

end BindlessHlsl
