import Castellano.Proofs.Agreement.Compatible
import Castellano.Proofs.Composition.Run

/-!
# Castellano.Proofs.Composition.Hints

Hints never mislead. Behind an article a hint names nouns from the list of those that the article
can have, while the noun that is offered next is judged by the index: it is taken exactly if it
agrees with the article. For words that are classified as nouns the two come to the same
(`agrees_iff_mem_compatibleNouns`), whatever has happened before the article was taken, since after
any run the article stands there alone (`Progress.Sound.exists_article`).
-/

namespace Castellano

namespace Vocabulary

theorem agrees_noun_iff {v : Vocabulary} {noun : String} {g : Gender}
    (h : v.classOf? noun = some (.noun g)) (determiner : String) :
    v.agrees determiner noun = true ↔
      v.determinerGender determiner = .neutral ∨ g = v.determinerGender determiner := by
  have hg : v.nounGender noun = g := by rw [nounGender, h]
  rw [agrees, Gender.admits_iff, hg]

theorem agrees_normalize_noun (v : Vocabulary) (determiner noun : String) :
    v.agrees determiner (normalize noun) = v.agrees determiner noun := by
  rw [agrees, nounGender_normalize, agrees]

theorem exists_gender_of_noun {v : Vocabulary} {word : String}
    (h : v.categoryOf? word = some .noun) : ∃ g, v.classOf? word = some (.noun g) := by
  obtain ⟨k, hk, hcategory⟩ := Option.map_eq_some_iff.mp h
  cases k with
  | noun g => exact ⟨g, hk⟩
  | _ => cases hcategory

/-- A noun agrees with a determiner exactly if it is listed for it. -/
theorem agrees_iff_mem_compatibleNouns (d : Draft) (determiner : String) {noun : String}
    (h : d.build.categoryOf? noun = some .noun) :
    d.build.agrees determiner noun = true ↔
      normalize noun ∈ d.build.compatibleNouns determiner := by
  obtain ⟨g, hg⟩ := exists_gender_of_noun h
  rw [agrees_noun_iff hg, normalize_mem_compatibleNouns_iff]
  constructor
  · intro hgender
    exact ⟨g, hg, hgender⟩
  · rintro ⟨g', hg', hgender⟩
    rw [hg] at hg'
    cases hg'
    exact hgender

theorem agrees_of_mem_compatibleNouns {v : Vocabulary} {determiner noun : String}
    (h : noun ∈ v.compatibleNouns determiner) : v.agrees determiner noun = true := by
  obtain ⟨-, g, hg, hgender⟩ := (v.mem_compatibleNouns_iff determiner noun).mp h
  exact (agrees_noun_iff hg determiner).mpr hgender

end Vocabulary

namespace Composition

variable {v : Vocabulary}

/-! ## A noun behind its article -/

theorem push_noun_of_not_agrees {a word : String} (h : v.agrees a (normalize word) = false)
    (m : Nat) :
    push v ⟨.ofArticle v a, m⟩ word .noun =
      (⟨.ofArticle v a, m⟩, .disagreement a (normalize word)) := by
  have hopposed : (Progress.ofArticle v a).opposed? v (normalize word) .noun = some a :=
    Progress.opposed?_eq_some_iff.mpr ⟨rfl, rfl, rfl, h⟩
  have hopened : (Progress.ofArticle v a).opened = .ofArticle v a := rfl
  rw [push, hopened, take, hopposed]
  rfl

/-- Behind an article a noun is accepted exactly if it agrees. -/
theorem accepted_push_noun (a word : String) (m : Nat) :
    (push v ⟨.ofArticle v a, m⟩ word .noun).2.accepted = v.agrees a word := by
  rw [← v.agrees_normalize_noun]
  cases h : v.agrees a (normalize word) with
  | true => rw [push_noun h]; rfl
  | false => rw [push_noun_of_not_agrees h]; rfl

theorem progress_run_eq_ofArticle {acts : List Act} {a : String}
    (hstage : (run v start acts).progress.stage = .articleSeen)
    (harticle : (run v start acts).progress.article? = some a) :
    (run v start acts).progress = .ofArticle v a := by
  obtain ⟨b, hb⟩ := (sound_run v acts).exists_article hstage
  rw [hb] at harticle
  cases harticle
  exact hb

/-- Wherever a run leads to an article, a word that is classified as a noun is accepted exactly if
the article can have it. A noun that is accepted is taken down behind the article, and one that is
refused changes nothing. The hint names the first three of the nouns that the article can have, or
all of them if there are fewer, and each of these is accepted. -/
theorem hinted_nouns_accepted (d : Draft) (acts : List Act) {a : String}
    (hstage : (run d.build start acts).progress.stage = .articleSeen)
    (harticle : (run d.build start acts).progress.article? = some a) :
    let v := d.build
    let c := run v start acts
    let nouns := v.compatibleNouns a
    let examples := nouns.take 3
    let named := ", ".intercalate examples
    (∀ n, v.categoryOf? n = some .noun →
      ((c.push v n .noun).2.accepted = true ↔ normalize n ∈ nouns)) ∧
    (∀ n, (c.push v n .noun).2.accepted = true →
      let p : Progress :=
        ⟨.nounSeen, some a, some (v.determinerGender a), some (normalize n), none⟩
      c.push v n .noun = (⟨p, c.completed⟩, .continued)) ∧
    (∀ n, (c.push v n .noun).2.accepted = false →
      c.push v n .noun = (c, .disagreement a (normalize n))) ∧
    c.hint v = s!"Esperando sustantivo {(v.determinerGender a).text} ({named}...)" ∧
    ∀ n ∈ examples, (c.push v n .noun).2.accepted = true := by
  intro v c nouns examples named
  have hprogress : c.progress = .ofArticle v a := progress_run_eq_ofArticle hstage harticle
  clear_value c
  obtain ⟨p, m⟩ := c
  obtain rfl : p = .ofArticle v a := hprogress
  have haccepted : ∀ n, (push v ⟨.ofArticle v a, m⟩ n .noun).2.accepted = v.agrees a n := fun n =>
    accepted_push_noun a n m
  refine ⟨fun n hn => ?_, fun n hn => ?_, fun n hn => ?_, rfl, fun n hn => ?_⟩
  · rw [haccepted]
    exact Vocabulary.agrees_iff_mem_compatibleNouns d a hn
  · rw [haccepted, ← v.agrees_normalize_noun] at hn
    exact push_noun hn m
  · rw [haccepted, ← v.agrees_normalize_noun] at hn
    exact push_noun_of_not_agrees hn m
  · rw [haccepted]
    exact Vocabulary.agrees_of_mem_compatibleNouns (List.mem_of_mem_take hn)

/-- The article comes after one that was given up and after refused nouns, and one noun is listed
under both genders. -/
theorem hinted_nouns_accepted_mar :
    let d := (Draft.empty.load "el|art|m\nla|art|f\nmar|n|f\nluna|n|f\nsol|n|m\nmar|n|m").1
    let acts : List Act := [.push "La" .article, .push "sol" .noun, .reset, .push "el" .article,
      .push "luna" .noun, .push " El" .article]
    let c := run d.build start acts
    (c.progress.stage = .articleSeen ∧ c.progress.article? = some "EL") ∧
    c.hint d.build = "Esperando sustantivo masculino (SOL, MAR...)" ∧
    (c.push d.build "mar" .noun).2 = .continued ∧
    c.push d.build "luna" .noun = (c, .disagreement "EL" (normalize "luna")) := by
  intro d acts c
  have hc : c = run d.build start acts := rfl
  obtain ⟨hstage, harticle⟩ : (run d.build start acts).progress.stage = .articleSeen ∧
      (run d.build start acts).progress.article? = some "EL" := by decide +kernel
  obtain ⟨hmar, hlisted, hluna, hunlisted⟩ : d.build.categoryOf? "mar" = some .noun ∧
      normalize "mar" ∈ d.build.compatibleNouns "EL" ∧ d.build.categoryOf? "luna" = some .noun ∧
      normalize "luna" ∉ d.build.compatibleNouns "EL" := by decide +kernel
  obtain ⟨hiff, htaken, hrefused, hhint, -⟩ := hinted_nouns_accepted d acts hstage harticle
  have haccepted := htaken "mar" ((hiff "mar" hmar).mpr hlisted)
  have hunchanged := hrefused "luna" (Bool.eq_false_iff.mpr (mt (hiff "luna" hluna).mp hunlisted))
  rw [hc]
  exact ⟨⟨hstage, harticle⟩, hhint.trans (by decide +kernel), congrArg Prod.snd haccepted,
    hunchanged⟩

end Composition
end Castellano
