import ContextFree.Proofs.NormalForm

/-!
# What transformations make is well-formed

Every transformation turns a well-formed grammar into a well-formed one
(`Admissible.transform`). So all grammars that can be had at all, by building them and
transforming them any number of times (`Grammar.Made`), are well-formed (`Made.admissible`).
-/

namespace ContextFree.Grammar

variable {g h : Grammar}

lemma Admissible.isolateTerminals (hg : g.Admissible) (hh : g.isolateTerminals.value = .ok h) :
    h.Admissible := by
  obtain ⟨names, -, hr⟩ := isolateTerminals_rewritten hg hh
  refine hr.admissible hg fun src q hsrc hq => ⟨hq.1, fun t ht => ?_⟩
  have hsource := hsrc.isAdmissible hg hr.sound fun _ hletter => isLetter_plain hletter
  rcases hq with ⟨-, ⟨-, hbody⟩ | ⟨-, hbody⟩⟩
  · rw [hbody] at ht
    exact hsource t ht
  · -- a symbol of a mixed body is kept, or a nonterminal takes its place
    obtain ⟨s, hs, ⟨-, hstands⟩ | ⟨-, rfl⟩⟩ := exists_of_mem_isolated hbody ht
    · rw [Symbol.isAdmissible, hstands.isNonterminal hg hr.sound, Bool.true_or]
    · exact hsource t hs

lemma Admissible.normalize (hg : g.Admissible) (hh : g.normalize.value = .ok h) :
    h.Admissible := by
  obtain ⟨b, hb, r, hr, hh⟩ := normalize_eq_ok_iff.1 hh
  exact (simple_of_simplify (hg.binarize hb) hr).admissible.isolateTerminals hh

/-- Every transformation keeps a grammar well-formed. -/
theorem Admissible.transform (hg : g.Admissible) {t : Transformation}
    (hh : (t.run g).value = .ok h) : h.Admissible := by
  cases t with
  | dropNonGenerating =>
    obtain rfl := Except.ok.inj hh
    exact hg.dropNonGenerating
  | dropUnreachable =>
    obtain rfl := Except.ok.inj hh
    exact hg.dropUnreachable
  | eliminateEpsilon => exact (epsilonFree_of_eliminateEpsilon hh).admissible hg
  | eliminateUnits =>
    obtain rfl := Except.ok.inj hh
    exact hg.eliminateUnits
  | binarize => exact hg.binarize hh
  | isolateTerminals => exact hg.isolateTerminals hh
  | simplify => exact (simple_of_simplify hg hh).admissible
  | normalize => exact hg.normalize hh

/-- The grammar was built, or it is the result of a transformation of such a grammar. -/
inductive Made : Grammar → Prop
  | built {g : Grammar} (hg : g.Built) : Made g
  | transformed {g h : Grammar} (hg : Made g) {t : Transformation}
      (hh : (t.run g).value = .ok h) : Made h

/-- All grammars that can be had are well-formed. -/
theorem Made.admissible (hg : g.Made) : g.Admissible := by
  induction hg with
  | built hg => exact hg.admissible
  | transformed _ hh ih => exact ih.transform hh

end ContextFree.Grammar
