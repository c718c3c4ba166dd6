import Castellano.Analysis
import Castellano.Proofs.Automaton.Recognition

/-!
# Castellano.Proofs.Analysis.Tokens

The automaton and the index of a vocabulary are one dictionary, and a sentence is classified by
it. `Automaton.Agrees` says the former for every text; it holds of the automaton of a vocabulary
that contributions lead to (`agrees_ofVocabulary`). The latter follows word by word: `Tokenized`
is what classifying the words of a sentence may come to, all of them classified or the first
unknown one reported with its position.
-/

namespace Castellano

/-! ## One dictionary -/

namespace Automaton

/-- The automaton recognizes what the vocabulary has, and says what the vocabulary says of it. -/
def Agrees (a : Automaton) (v : Vocabulary) : Prop :=
  ∀ text, (a.recognize text).ending =
    if v.contains text then .ofWord (normalize text) (v.categoryOf? text) else .nothing

namespace Agrees

variable {a : Automaton} {v : Vocabulary} (h : a.Agrees v) (text : String)
include h

theorem accepted_eq : (a.recognize text).accepted = v.contains text := by
  rw [((Recognition.ending_eq_iff _ _).mp (h text)).1]
  split
  · rename_i hin; exact hin.symm
  · rename_i hout; exact (Bool.eq_false_iff.mpr hout).symm

theorem word_eq :
    (a.recognize text).word = if v.contains text then some (normalize text) else none := by
  rw [((Recognition.ending_eq_iff _ _).mp (h text)).2.1]
  split <;> rfl

theorem category_eq : (a.recognize text).category = v.categoryOf? text := by
  rw [((Recognition.ending_eq_iff _ _).mp (h text)).2.2]
  split
  · rfl
  · rename_i hout
    rw [← Vocabulary.isSome_categoryOf?, Option.not_isSome_iff_eq_none] at hout
    rw [hout]; rfl

end Agrees
end Automaton

theorem Automaton.vocabulary_ofVocabulary (v : Vocabulary) : (ofVocabulary v).vocabulary = v :=
  (knows_ofWords v v.words).vocabulary_eq

theorem Draft.Reachable.agrees_ofVocabulary {d : Draft} (hd : d.Reachable) :
    (Automaton.ofVocabulary d.build).Agrees d.build := by
  intro text
  rw [hd.knows_ofVocabulary.ending_recognize, Vocabulary.categoryOf?_normalize]
  simp only [hd.contains_iff]

/-! ## Classified sentences -/

/-- The token of a word, if the vocabulary has the word. -/
def Vocabulary.tokenOf? (v : Vocabulary) (word : String) : Option Token :=
  (v.categoryOf? word).map (Token.ofWord word)

theorem Vocabulary.tokenOf?_eq_some_iff {v : Vocabulary} {word : String} {token : Token} :
    v.tokenOf? word = some token ↔
      v.categoryOf? word = some token.category ∧ token.word = normalize word := by
  obtain ⟨w, c⟩ := token
  simp only [tokenOf?, Token.ofWord, Option.map_eq_some_iff, Token.mk.injEq]
  constructor
  · rintro ⟨k, hk, rfl, rfl⟩
    exact ⟨hk, rfl⟩
  · rintro ⟨hc, rfl⟩
    exact ⟨c, hc, rfl, rfl⟩

theorem Vocabulary.isSome_tokenOf? (v : Vocabulary) (word : String) :
    (v.tokenOf? word).isSome = v.contains word := by
  rw [tokenOf?, Option.isSome_map, isSome_categoryOf?]

/-- What classifying words comes to, of which the first has the given position. -/
inductive Tokenized (v : Vocabulary) (position : Nat) (words : List String) :
    Except Failure (List Token) → Prop
  | classified {tokens : List Token} :
      words.map v.tokenOf? = tokens.map some → Tokenized v position words (.ok tokens)
  | unknown {known rest : List String} {word : String} :
      words = known ++ word :: rest → (∀ w ∈ known, v.contains w = true) →
      v.contains word = false →
      Tokenized v position words (.error (.unknownWord word (position + known.length)))

namespace Analyzer

theorem tokenizeFrom_cons {a : Analyzer} (ha : a.automaton.Agrees a.vocabulary) (position : Nat)
    (word : String) (words : List String) :
    a.tokenizeFrom position (word :: words) =
      match a.vocabulary.tokenOf? word with
      | none => .error (.unknownWord word position)
      | some token => (a.tokenizeFrom (position + 1) words).map (token :: ·) := by
  rw [tokenizeFrom, Vocabulary.tokenOf?]
  simp only [ha.accepted_eq, ha.category_eq, ← Vocabulary.isSome_categoryOf?]
  cases a.vocabulary.categoryOf? word with
  | none => rfl
  | some c =>
    simp only [Option.isSome_some, Option.map_some]
    cases a.tokenizeFrom (position + 1) words <;> rfl

theorem tokenized_tokenizeFrom {a : Analyzer} (ha : a.automaton.Agrees a.vocabulary)
    (position : Nat) (words : List String) :
    Tokenized a.vocabulary position words (a.tokenizeFrom position words) := by
  induction words generalizing position with
  | nil => exact .classified rfl
  | cons word words ih =>
    have hcontains := a.vocabulary.isSome_tokenOf? word
    have hrest := ih (position + 1)
    rw [tokenizeFrom_cons ha]
    generalize a.tokenizeFrom (position + 1) words = outcome at hrest ⊢
    cases hword : a.vocabulary.tokenOf? word with
    | none =>
      rw [hword] at hcontains
      have hfirst : word :: words = [] ++ word :: words := rfl
      exact .unknown hfirst (fun _ h => absurd h List.not_mem_nil) hcontains.symm
    | some token =>
      rw [hword] at hcontains
      cases hrest with
      | classified htokens =>
        exact .classified (by rw [List.map_cons, List.map_cons, hword, htokens])
      | @unknown known rest bad heq hknown hbad =>
        have hposition : position + 1 + known.length = position + (word :: known).length := by
          rw [List.length_cons]; omega
        simp only [Except.map, hposition]
        refine .unknown (by rw [heq, List.cons_append]) ?_ hbad
        intro u hu
        rcases List.mem_cons.mp hu with rfl | hu
        · exact hcontains.symm
        · exact hknown u hu

theorem tokenized_tokenize {a : Analyzer} (ha : a.automaton.Agrees a.vocabulary)
    (words : List String) : Tokenized a.vocabulary 0 words (a.tokenize words) :=
  tokenized_tokenizeFrom ha 0 words

end Analyzer

namespace Tokenized

variable {v : Vocabulary} {position : Nat} {words : List String}

theorem exists_ok_iff {outcome : Except Failure (List Token)}
    (h : Tokenized v position words outcome) :
    (∃ tokens, outcome = .ok tokens) ↔ ∀ word ∈ words, v.contains word = true := by
  cases h with
  | @classified tokens htokens =>
    refine ⟨fun _ word hword => ?_, fun _ => ⟨tokens, rfl⟩⟩
    have hmem : v.tokenOf? word ∈ tokens.map some := htokens ▸ List.mem_map_of_mem hword
    obtain ⟨token, -, htoken⟩ := List.mem_map.mp hmem
    rw [← Vocabulary.isSome_tokenOf?, ← htoken, Option.isSome_some]
  | @unknown known rest bad heq hknown hbad =>
    constructor
    · rintro ⟨tokens, h⟩
      cases h
    · intro hall
      rw [hall bad (by rw [heq]; simp)] at hbad
      cases hbad

theorem token_of_ok {tokens : List Token} (h : Tokenized v position words (.ok tokens)) :
    tokens.length = words.length ∧ ∀ (i : Nat) (word : String), words[i]? = some word →
      ∃ c, v.categoryOf? word = some c ∧ tokens[i]? = some ⟨normalize word, c⟩ := by
  cases h with
  | classified htokens =>
    constructor
    · have hlength := congrArg List.length htokens
      rw [List.length_map, List.length_map] at hlength
      exact hlength.symm
    · intro i word hword
      have hi : (words.map v.tokenOf?)[i]? = (tokens.map some)[i]? := by rw [htokens]
      rw [List.getElem?_map, List.getElem?_map, hword, Option.map_some, eq_comm,
        Option.map_eq_some_iff] at hi
      obtain ⟨token, htoken, hof⟩ := hi
      obtain ⟨hcategory, hnormal⟩ := Vocabulary.tokenOf?_eq_some_iff.mp hof.symm
      exact ⟨token.category, hcategory, by rw [htoken, ← hnormal]⟩

theorem first_of_error {failure : Failure} (h : Tokenized v 0 words (.error failure)) :
    ∃ (i : Nat) (word : String), words[i]? = some word ∧ failure = .unknownWord word i ∧
      v.contains word = false ∧
      ∀ (j : Nat) (earlier : String), j < i → words[j]? = some earlier →
        v.contains earlier = true := by
  cases h with
  | @unknown known rest bad heq hknown hbad =>
    refine ⟨known.length, bad, by rw [heq]; simp, by rw [Nat.zero_add], hbad, ?_⟩
    intro j earlier hj hearlier
    rw [heq, List.getElem?_append_left hj] at hearlier
    exact hknown earlier (List.mem_of_getElem? hearlier)

end Tokenized

/-- What classifying words comes to as a whole: all of them are known, or there is no token. -/
inductive Classified (v : Vocabulary) (words : List String) :
    Except Failure (List Token) → Prop where
  | known : (∀ word ∈ words, v.contains word = true) →
      Classified v words (.ok (words.filterMap v.tokenOf?))
  | unknown {word : String} {position : Nat} : (¬∀ word ∈ words, v.contains word = true) →
      Classified v words (.error (.unknownWord word position))

theorem Tokenized.classified_all {v : Vocabulary} {words : List String}
    {outcome : Except Failure (List Token)} (h : Tokenized v 0 words outcome) :
    Classified v words outcome := by
  have hknown := h.exists_ok_iff
  cases h with
  | @classified ts hts =>
    have hall := hknown.mp ⟨ts, rfl⟩
    have htokens : words.filterMap v.tokenOf? = ts :=
      calc words.filterMap v.tokenOf?
          = (words.map v.tokenOf?).filterMap id := by rw [List.filterMap_map]; rfl
        _ = (ts.map some).filterMap id := by rw [hts]
        _ = ts := by rw [List.filterMap_map]; exact List.filterMap_some
    rw [← htokens]
    exact .known hall
  | unknown _ _ _ => exact .unknown fun hall => nomatch hknown.mpr hall

/-- The automaton of a vocabulary and its index answer alike on every text, and a sentence is
classified by either: word by word if the vocabulary has them all, and otherwise up to the first
word that it has not. -/
theorem dictionaries_agree {d : Draft} (hd : d.Reachable) :
    let v := d.build
    let a := Automaton.ofVocabulary v
    (∀ text : String,
      (a.recognize text).accepted = v.contains text ∧
      (a.recognize text).category = a.classify text ∧
      a.classify text = v.categoryOf? text ∧
      (a.recognize text).word = if v.contains text then some (normalize text) else none) ∧
    ∀ (checksAgreement : Bool) (words : List String),
      let outcome := Analyzer.tokenize ⟨v, a, checksAgreement⟩ words
      ((∃ tokens, outcome = .ok tokens) ↔ ∀ word ∈ words, v.contains word = true) ∧
      (∀ tokens, outcome = .ok tokens → tokens.length = words.length ∧
        ∀ (i : Nat) (word : String), words[i]? = some word →
          ∃ c, v.categoryOf? word = some c ∧ tokens[i]? = some ⟨normalize word, c⟩) ∧
      ∀ failure, outcome = .error failure →
        ∃ (i : Nat) (word : String), words[i]? = some word ∧ failure = .unknownWord word i ∧
          v.contains word = false ∧
          ∀ (j : Nat) (earlier : String), j < i → words[j]? = some earlier →
            v.contains earlier = true := by
  intro v a
  have hagrees : a.Agrees v := hd.agrees_ofVocabulary
  have hclassify : ∀ text, a.classify text = v.categoryOf? text := fun text => by
    rw [Automaton.classify, Automaton.vocabulary_ofVocabulary]
  refine ⟨fun text => ?_, fun checksAgreement words => ?_⟩
  · refine ⟨hagrees.accepted_eq text, ?_, hclassify text, hagrees.word_eq text⟩
    rw [hclassify, hagrees.category_eq]
  · have houtcome := Analyzer.tokenized_tokenize (a := ⟨v, a, checksAgreement⟩) hagrees words
    refine ⟨houtcome.exists_ok_iff, fun tokens h => ?_, fun failure h => ?_⟩
    · exact Tokenized.token_of_ok (h ▸ houtcome)
    · exact Tokenized.first_of_error (h ▸ houtcome)

/-- A word that has come as a verb and as a noun is a noun, and `ß` is two letters in any case. -/
theorem dictionaries_agree_on_vino :
    let d := (Draft.empty.add .verb .neutral "vino").extend .noun .masculine ["Vino ", "fuß", " "]
    let a := Automaton.ofVocabulary d.build
    d.Reachable ∧
      (a.recognize " víno").category = some .noun ∧
      (a.recognize "Fuss").word = some "FUSS" ∧
      (a.recognize " ").accepted = false ∧
      ¬∃ tokens, Analyzer.tokenize ⟨d.build, a, true⟩ ["fuß", "pan"] = .ok tokens := by
  intro d a
  have hd : d.Reachable := .extend .noun .masculine _ (.add .verb .neutral "vino" .empty)
  obtain ⟨hrecognize, htokenize⟩ := dictionaries_agree hd
  refine ⟨hd, ?_, ?_, ?_, ?_⟩
  · rw [(hrecognize " víno").2.1, (hrecognize " víno").2.2.1]
    decide +kernel
  · rw [(hrecognize "Fuss").2.2.2]
    decide +kernel
  · rw [(hrecognize " ").1]
    decide +kernel
  · rw [(htokenize true ["fuß", "pan"]).1]
    intro hall
    have hpan : d.build.contains "pan" = false := by decide +kernel
    rw [hall "pan" (by simp)] at hpan
    cases hpan

end Castellano
