import Castellano.Category
import Castellano.Gender

/-!
# Castellano.WordClass

A word class is what one list of the vocabulary holds: a category and, for the two categories
that have one, a gender. Verbs, adjectives, prepositions and conjunctions form one class each.

Seen from outside, a list is kept under a category and a gender (`Key`), where the gender is neutral
if the category has none. The keys of the classes are just these (`key_of`, `of_category_gender`).
-/

namespace Castellano

/-- What a list of words is kept under. -/
abbrev Key := Category × Gender

/-- A category together with the gender of its words. -/
inductive WordClass where
  | article (gender : Gender)
  | noun (gender : Gender)
  | verb
  | adjective
  | preposition
  | conjunction
  deriving DecidableEq

namespace WordClass

/-- The classes in order of precedence: by category, then masculine, feminine, neutral. -/
def all : List WordClass :=
  [article .masculine, article .feminine, article .neutral,
    noun .masculine, noun .feminine, noun .neutral,
    verb, adjective, preposition, conjunction]

/-- The class of the words of a category; a gender counts only where the category has one. -/
def of : Category → Gender → WordClass
  | .article, g => article g
  | .noun, g => noun g
  | .verb, _ => verb
  | .adjective, _ => adjective
  | .preposition, _ => preposition
  | .conjunction, _ => conjunction

def category : WordClass → Category
  | article _ => .article
  | noun _ => .noun
  | verb => .verb
  | adjective => .adjective
  | preposition => .preposition
  | conjunction => .conjunction

/-- The gender of a class, neutral where the category has none. -/
def gender : WordClass → Gender
  | article g | noun g => g
  | verb | adjective | preposition | conjunction => .neutral

def key (k : WordClass) : Key := (k.category, k.gender)

theorem of_category_gender (k : WordClass) : of k.category k.gender = k := by
  cases k <;> rfl

theorem category_of (c : Category) (g : Gender) : (of c g).category = c := by
  cases c <;> rfl

theorem gender_of (c : Category) (g : Gender) :
    (of c g).gender = if c.gendered then g else .neutral := by
  cases c <;> rfl

theorem key_of (c : Category) (g : Gender) :
    (of c g).key = (c, if c.gendered then g else .neutral) := by
  rw [key, category_of, gender_of]

theorem key_injective {k j : WordClass} (h : k.key = j.key) : k = j := by
  obtain ⟨hcategory, hgender⟩ := Prod.mk.inj h
  rw [← of_category_gender k, hcategory, hgender, of_category_gender]

theorem key_inj {k j : WordClass} : k.key = j.key ↔ k = j := ⟨key_injective, congrArg key⟩

theorem mem_all (k : WordClass) : k ∈ all := by
  cases k with
  | article g => cases g <;> simp [all]
  | noun g => cases g <;> simp [all]
  | _ => simp [all]

end WordClass
end Castellano
