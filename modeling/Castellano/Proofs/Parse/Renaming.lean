import Castellano.Parse.Basic

/-!
# Castellano.Proofs.Parse.Renaming

The parser looks at categories only. Words are handed on to the leaves of the tree, or to the
faults, as they came, so replacing every word by another one does the same to the result and changes
nothing else (`parse_rename`).

Every reader has this property by itself: on renamed words it gives what `renamed` makes of its
outcome on the words as they were, be it a success with the words that are left or a failure. Where
a reader tries another one, both attempts end alike, and so the alternative is chosen alike.
-/

namespace Castellano

/-! ## Renaming -/

/-- The token with its word replaced. -/
def Token.rename (f : String → String) (t : Token) : Token := ⟨f t.word, t.category⟩

namespace Tree

mutual

/-- The tree with all its words replaced. -/
def rename (f : String → String) : Tree → Tree
  | node s v ts => node s (v.map f) (renameAll f ts)

def renameAll (f : String → String) : List Tree → List Tree
  | [] => []
  | t :: ts => rename f t :: renameAll f ts

end

end Tree

namespace Parse

/-- The fault with all words in it replaced. -/
def Fault.rename (f : String → String) : Fault → Fault
  | unexpectedEnd expected => unexpectedEnd expected
  | unexpectedToken expected found word => unexpectedToken expected found (f word)
  | nounPhrase cause => nounPhrase (cause.rename f)
  | noProduction first second => noProduction (first.rename f) (second.rename f)
  | unconsumed words => unconsumed (words.map f)

/-- The result with all words replaced, in the tree and in the faults. -/
def Result.rename (f : String → String) (r : Result) : Result :=
  ⟨r.valid, r.tree?.map (Tree.rename f), r.faults.map (Fault.rename f)⟩

/-! ## Readers -/

/-- The outcome of a reader with all words replaced, in what it has read and in what is left. -/
def renamed {α : Type} (f : String → String) (g : α → α) :
    Except Fault (α × List Token) → Except Fault (α × List Token)
  | .error fault => .error (fault.rename f)
  | .ok (x, rest) => .ok (g x, rest.map (Token.rename f))

variable (f : String → String) (ts : List Token)

theorem word_rename (c : Category) :
    word c (ts.map (Token.rename f)) = renamed f (Tree.rename f) (word c ts) := by
  cases ts with
  | nil => rfl
  | cons t ts =>
    simp only [List.map_cons, word, Token.rename]
    split <;> rfl

theorem adjective?_rename :
    adjective? (ts.map (Token.rename f)) =
      (Tree.renameAll f (adjective? ts).1, (adjective? ts).2.map (Token.rename f)) := by
  rw [adjective?, word_rename, adjective?]
  cases word .adjective ts <;> rfl

theorem nounPhraseParts_rename :
    nounPhraseParts (ts.map (Token.rename f)) =
      renamed f (Tree.renameAll f) (nounPhraseParts ts) := by
  rw [nounPhraseParts, word_rename, nounPhraseParts]
  rcases word .article ts with fault | ⟨determiner, ts⟩
  · rfl
  simp only [renamed, word_rename]
  -- where no adjective comes first, the noun is read from the same place
  rcases word .adjective ts with fault | ⟨adjective, us⟩
  · rcases word .noun ts with fault | ⟨noun, us⟩
    · rfl
    · simp only [adjective?_rename]
      rfl
  · simp only [word_rename]
    rcases word .noun us with fault | ⟨noun, vs⟩ <;> rfl

theorem nounPhrase_rename :
    nounPhrase (ts.map (Token.rename f)) = renamed f (Tree.rename f) (nounPhrase ts) := by
  rw [nounPhrase, nounPhraseParts_rename, nounPhrase]
  cases nounPhraseParts ts <;> rfl

theorem complement_rename :
    complement (ts.map (Token.rename f)) =
      (Tree.renameAll f (complement ts).1, (complement ts).2.map (Token.rename f)) := by
  rw [complement, nounPhrase_rename, complement]
  cases nounPhrase ts with
  | error _ => exact adjective?_rename f ts
  | ok _ => rfl

theorem verbPhrase_rename :
    verbPhrase (ts.map (Token.rename f)) = renamed f (Tree.rename f) (verbPhrase ts) := by
  rw [verbPhrase, word_rename, verbPhrase]
  rcases word .verb ts with fault | ⟨verb, ts⟩
  · rfl
  · simp only [renamed, complement_rename]
    rfl

theorem prepositional_rename :
    prepositional (ts.map (Token.rename f)) =
      renamed f (Tree.renameAll f) (prepositional ts) := by
  rw [prepositional, word_rename, prepositional]
  rcases word .preposition ts with fault | ⟨preposition, ts⟩
  · rfl
  simp only [renamed, nounPhrase_rename]
  rcases nounPhrase ts with fault | ⟨object, us⟩ <;> rfl

theorem tail_rename :
    tail (ts.map (Token.rename f)) =
      (Tree.renameAll f (tail ts).1, (tail ts).2.map (Token.rename f)) := by
  rw [tail, prepositional_rename, tail]
  cases prepositional ts with
  | error _ => exact adjective?_rename f ts
  | ok _ => rfl

theorem simpleSentence_rename :
    simpleSentence (ts.map (Token.rename f)) =
      renamed f (Tree.rename f) (simpleSentence ts) := by
  rw [simpleSentence, nounPhrase_rename, simpleSentence]
  rcases nounPhrase ts with fault | ⟨subject, ts⟩
  · rfl
  simp only [renamed, verbPhrase_rename]
  rcases verbPhrase ts with fault | ⟨predicate, us⟩
  · rfl
  · simp only [tail_rename]
    rfl

theorem coordinatedSentence_rename :
    coordinatedSentence (ts.map (Token.rename f)) =
      renamed f (Tree.rename f) (coordinatedSentence ts) := by
  rw [coordinatedSentence, nounPhrase_rename, coordinatedSentence]
  rcases nounPhrase ts with fault | ⟨first, ts⟩
  · rfl
  simp only [renamed, word_rename]
  rcases word .conjunction ts with fault | ⟨conjunction, ts⟩
  · rfl
  simp only [renamed, nounPhrase_rename]
  rcases nounPhrase ts with fault | ⟨second, ts⟩
  · rfl
  simp only [renamed, verbPhrase_rename]
  rcases verbPhrase ts with fault | ⟨predicate, ts⟩ <;> rfl

theorem sentence_rename :
    sentence (ts.map (Token.rename f)) = renamed f (Tree.rename f) (sentence ts) := by
  rw [sentence, simpleSentence_rename, sentence]
  cases simpleSentence ts with
  | ok _ => rfl
  | error first =>
    simp only [renamed, coordinatedSentence_rename]
    cases coordinatedSentence ts <;> rfl

end Parse

/-- On renamed words the parser does what it has done, with the words renamed. -/
theorem parse_rename (f : String → String) (ts : List Token) :
    parse (ts.map (Token.rename f)) = (parse ts).rename f := by
  rw [parse, Parse.sentence_rename, parse]
  rcases Parse.sentence ts with fault | ⟨tree, rest⟩
  · rfl
  cases rest with
  | nil => rfl
  | cons t rest =>
    have hwords : ((t :: rest).map (Token.rename f)).map Token.word =
        ((t :: rest).map Token.word).map f := by
      simp only [List.map_map, Function.comp_def, Token.rename]
    exact congrArg (fun words => Parse.Result.refused (.unconsumed words)) hwords

end Castellano
