import ContextFree.Proofs.Binarization
import ContextFree.Proofs.Isolation
import ContextFree.Proofs.Supply
import Mathlib.Data.List.Infix

/-!
# When nonterminals run short

Which bodies need a name can be read off the grammar, without running a pass. For splitting they are
the ends of long bodies, down to the first one that is the only body of a nonterminal
(`Grammar.unnamedRests`); for isolating they are the terminals of bodies of two symbols, less those
that are the only body of a nonterminal (`Grammar.unnamedTerminals`).

A pass takes a name only for such a body, and when it succeeds each of them has one. So it fails
exactly if there are more of them than nonterminals in the pool, and else takes as many from its
beginning: `exhausted_binarize_iff` and `exhausted_isolateTerminals_iff`.
-/

namespace ContextFree

namespace Grammar

variable {g h : Grammar} {names : Names} {Good : Form → Prop} {head s v t : Symbol}
  {body rest u : Form} {p src q : Production} {ps : List Production} {e : Exhausted}

/-! ## Sole bodies -/

lemma nodup_bodies (g : Grammar) (a : Symbol) : (g.bodies a).Nodup := by
  refine (g.productions.ascending.nodup.filter _).map_on fun p hp q hq hbody => ?_
  have hhead : p.head = q.head := by
    rw [of_decide_eq_true (List.mem_filter.1 hp).2, of_decide_eq_true (List.mem_filter.1 hq).2]
  cases p
  cases q
  simp_all

lemma bodies_eq_singleton_iff :
    g.bodies v = [body] ↔ ∀ u, (⟨v, u⟩ : Production) ∈ g.productions ↔ u = body := by
  simp only [← mem_bodies]
  constructor
  · intro hbodies u
    rw [hbodies, List.mem_singleton]
  · intro hmem
    rw [← List.perm_singleton, List.perm_ext_iff_of_nodup (g.nodup_bodies v) (by simp)]
    simpa using hmem

/-- A nonterminal has the body as its only one. -/
def IsSoleBody (g : Grammar) (body : Form) : Prop := ∃ a, g.bodies a = [body]

lemma isSoleBody_iff : g.IsSoleBody body ↔ ∃ p ∈ g.soleProductions, p.body = body := by
  constructor
  · rintro ⟨a, ha⟩
    have hp : (⟨a, body⟩ : Production) ∈ g.productions := mem_bodies.1 (by simp [ha])
    exact ⟨_, mem_soleProductions.2 ⟨hp, ha⟩, rfl⟩
  · rintro ⟨p, hp, rfl⟩
    exact ⟨p.head, (mem_soleProductions.1 hp).2⟩

instance (g : Grammar) (body : Form) : Decidable (g.IsSoleBody body) :=
  decidable_of_iff' _ isSoleBody_iff

/-- A body without a name is not a sole one. -/
lemma not_isSoleBody_of_find? (hnames : names.established = g.soleProductions)
    (hfind : names.find? body = none) : ¬g.IsSoleBody body := by
  rw [isSoleBody_iff]
  rintro ⟨p, hp, hbody⟩
  rw [← hnames] at hp
  exact Names.body_ne_of_find? hfind (List.mem_append_right _ hp) hbody

/-- What stands for a body that is not a sole one was taken for it. -/
lemma given_of_stands (hs : names.Sound g Good) (hv : names.Stands v body)
    (hsole : ¬g.IsSoleBody body) : (⟨v, body⟩ : Production) ∈ names.given := by
  rcases List.mem_append.1 hv with hv | hv
  · exact hv
  · rw [hs.established] at hv
    exact absurd (isSoleBody_iff.2 ⟨_, hv, rfl⟩) hsole

/-! ## Rests of long bodies -/

/-- No end of a body, from the given one up to but without the whole, is a sole body. -/
def Unshared (g : Grammar) (body rest : Form) : Prop :=
  ∀ u ∈ body.tails, rest.length ≤ u.length → u.length < body.length → ¬g.IsSoleBody u

/-- An end of a long body, of at least two symbols, for which splitting needs a name: neither it nor
a longer end, the whole body apart, is the only body of a nonterminal. -/
def IsUnnamedRest (g : Grammar) (rest : Form) : Prop :=
  2 ≤ rest.length ∧
    ∃ p ∈ g.longProductions, rest <:+ p.body ∧ rest ≠ p.body ∧ g.Unshared p.body rest

instance (g : Grammar) (body rest : Form) : Decidable (g.Unshared body rest) :=
  inferInstanceAs (Decidable (∀ u ∈ body.tails, _ → _ → _))

instance (g : Grammar) (rest : Form) : Decidable (g.IsUnnamedRest rest) :=
  inferInstanceAs (Decidable (_ ∧ ∃ p ∈ g.longProductions, _ ∧ _ ∧ _))

/-- All rests for which splitting needs a name. -/
def unnamedRests (g : Grammar) : SortedSet Form :=
  (SortedSet.ofList (g.longProductions.flatMap fun p => p.body.tails)).filter
    fun rest => decide (g.IsUnnamedRest rest)

lemma mem_unnamedRests : rest ∈ g.unnamedRests ↔ g.IsUnnamedRest rest := by
  simp only [unnamedRests, SortedSet.mem_filter, SortedSet.mem_ofList, List.mem_flatMap,
    List.mem_tails, decide_eq_true_eq]
  apply and_iff_right_of_imp
  rintro ⟨-, p, hp, hsuffix, -⟩
  exact ⟨p, hp, hsuffix⟩

/-- Going on to the next end, which is not a sole body either. -/
lemma Unshared.tail (hunshared : g.Unshared body (s :: rest)) (hsuffix : s :: rest <:+ body)
    (hsole : ¬g.IsSoleBody rest) : g.Unshared body rest := by
  intro u hu hle hlt
  rcases Nat.eq_or_lt_of_le hle with heq | hlonger
  · have hsame : rest <:+ u := by
      refine List.suffix_of_suffix_length_le ?_ ((List.mem_tails _ _).1 hu) hle
      exact (List.suffix_cons s rest).trans hsuffix
    rwa [← hsame.eq_of_length heq]
  · exact hunshared u hu hlonger hlt

/-- The next end of a long body needs a name, if it is not a sole body. -/
lemma mem_unnamedRests_of_cons (hp : p ∈ g.longProductions) (hsuffix : s :: rest <:+ p.body)
    (hunshared : g.Unshared p.body rest) (hrest : 2 ≤ rest.length) :
    rest ∈ g.unnamedRests.toList := by
  have hlength := hsuffix.length_le
  rw [List.length_cons] at hlength
  refine mem_unnamedRests.2 ⟨hrest, p, hp, (List.suffix_cons s rest).trans hsuffix, ?_, hunshared⟩
  rintro rfl
  omega

/-- Splitting an end of a long body takes names for rests that need one. -/
lemma splitBody_runsTo (hnames : names.established = g.soleProductions)
    (hp : p ∈ g.longProductions) (hsuffix : body <:+ p.body) (hunshared : g.Unshared p.body body) :
    names.RunsTo g.unnamedRests.toList (splitBody names head body).2 := by
  fun_induction splitBody names head body with
  | case1 => exact .refl
  | case2 names head s t u rest hfind v names₁ htake edits result hrec ih =>
    have hnext := hunshared.tail hsuffix (not_isSoleBody_of_find? hnames hfind)
    have hneed := mem_unnamedRests_of_cons hp hsuffix hnext (by simp)
    have hrest := ih ((Names.established_of_take? htake).trans hnames)
      ((List.suffix_cons ..).trans hsuffix) hnext
    rw [hrec] at hrest
    exact .prepend (.single ⟨_, v, hneed, hfind, htake⟩) hrest
  | case3 names head s t u rest hfind htake =>
    have hnext := hunshared.tail hsuffix (not_isSoleBody_of_find? hnames hfind)
    exact ⟨names, .refl, _, mem_unnamedRests_of_cons hp hsuffix hnext (by simp), hfind, htake⟩
  | case4 => exact .refl

lemma splitNames_runsTo (g : Grammar) :
    (Names.ofGrammar g).RunsTo g.unnamedRests.toList
      (splitNames (Names.ofGrammar g) g.longProductions) := by
  refine Names.runsTo_foldlM (fun p hp names hnames => ?_) rfl
  refine splitBody_runsTo hnames hp List.suffix_rfl fun u _ hle hlt => ?_
  omega

/-- Splitting reports the production for which the names did not suffice. -/
lemma splitNames_of_failure (hsplit : (splitProductions names ps).2 = some e) :
    splitNames names ps = none ∧ ∃ p ∈ ps, e = .splitting p := by
  induction ps generalizing names with
  | nil => contradiction
  | cons p ps ih =>
    rw [splitProductions] at hsplit
    rw [splitNames, List.foldlM_cons]
    split at hsplit
    · rename_i edits₁ names₁ hbody
      obtain ⟨hnone, q, hq, rfl⟩ := ih hsplit
      rw [hbody]
      exact ⟨hnone, q, List.mem_cons_of_mem _ hq, rfl⟩
    · rename_i edits₁ hbody
      rw [hbody]
      exact ⟨rfl, p, by simp, (Option.some.inj hsplit).symm⟩

/-- In the result, every rest of a source that needs a name has one: what stands for the next rest
was taken for it, and is a source itself. -/
lemma exists_given_of_unshared (hr : g.Rewritten h g.IsRest SplitPiece names)
    (hsrc : g.Source names ⟨head, body⟩) (hsuffix : rest <:+ body) (hne : rest ≠ body)
    (hrest : 2 ≤ rest.length) (hunshared : g.Unshared body rest) :
    ∃ v, (⟨v, rest⟩ : Production) ∈ names.given := by
  induction body generalizing head with
  | nil => exact absurd (List.suffix_nil.1 hsuffix) hne
  | cons s tail ih =>
    have htail : rest <:+ tail := (List.suffix_cons_iff.1 hsuffix).resolve_left hne
    have hle := htail.length_le
    obtain ⟨q, -, -, hpiece⟩ := hr.covered _ hsrc
    rcases hpiece with ⟨hshort, -⟩ | ⟨s', tail', v, heq, -, -, hv⟩
    · rw [List.length_cons] at hshort
      omega
    · obtain ⟨rfl, rfl⟩ := List.cons.inj heq
      have hsole : ¬g.IsSoleBody tail :=
        hunshared tail ((List.mem_tails _ _).2 (List.suffix_cons ..)) hle (by simp)
      have hgiven := given_of_stands hr.sound hv hsole
      by_cases hsame : rest = tail
      · exact ⟨v, hsame ▸ hgiven⟩
      · refine ih (.inr hgiven) htail hsame fun u hu hle hlt => ?_
        rw [List.mem_tails] at hu
        refine hunshared u ((List.mem_tails _ _).2 (hu.trans (List.suffix_cons ..))) hle ?_
        rw [List.length_cons]
        omega

/-- The nonterminals of a piece are those of the grammar and those that were taken. -/
lemma SplitPiece.mem_or_given (hg : g.Admissible) (hs : names.Sound g g.IsRest)
    (hsrc : g.Source names src) (hq : SplitPiece names src q) (hmem : s ∈ q.body)
    (hn : s.isNonterminal = true) :
    s ∈ g.nonterminals ∨ s ∈ names.given.map Production.head := by
  have hplain : s ∈ src.body → s ∈ g.nonterminals := fun hmem =>
    hsrc.mem_nonterminals hg hs (fun _ hrest => hrest.plain hg) hmem hn
  rcases hq with ⟨-, ⟨-, hbody⟩ | ⟨s', rest, v, hsrc', -, hbody, hv⟩⟩
  · exact .inl (hplain (hbody ▸ hmem))
  · rw [hbody, List.mem_cons, List.mem_singleton] at hmem
    rcases hmem with rfl | rfl
    · exact .inl (hplain (by simp [hsrc']))
    · exact mem_or_given_of_stands hs hv

/-- Splitting fails exactly if more rests need a name than there are nonterminals to take, and then
names a long production. Else the nonterminals newly in use are as many as there are such rests,
from the beginning of the pool. -/
theorem exhausted_binarize_iff (hg : g.Built) :
    ((∃ p ∈ g.longProductions, g.binarize.value = .error (.splitting p)) ↔
      g.pool.length < g.unnamedRests.toList.length) ∧
    (g.unnamedRests.toList.length ≤ g.pool.length →
      ∃ r, g.binarize.value = .ok r ∧
        ∀ a, a ∈ r.nonterminals ∧ a ∉ g.nonterminals ↔
          a ∈ g.pool.take g.unnamedRests.toList.length) := by
  have hruns := splitNames_runsTo g
  cases hvalue : g.binarize.value with
  | error e =>
    obtain ⟨hnone, p, hp, rfl⟩ := splitNames_of_failure (failure_of_pass hvalue)
    rw [hnone] at hruns
    have hlt := Names.length_lt_of_runsTo hruns
    exact ⟨iff_of_true ⟨p, hp, rfl⟩ hlt, fun hle => absurd hlt (Nat.not_lt.2 hle)⟩
  | ok r =>
    obtain ⟨names, hnames, hr⟩ := binarize_rewritten hvalue
    rw [hnames] at hruns
    have hturn := Names.inTurn_of_takes hruns
    have hlength : names.given.length = g.unnamedRests.toList.length := by
      refine hturn.length_eq g.unnamedRests.ascending.nodup fun rest hrest => ?_
      obtain ⟨htwo, p, hp, hsuffix, hne, hunshared⟩ := mem_unnamedRests.1 hrest
      have hsrc : g.Source names p := .inl (mem_longProductions.1 hp).1
      exact exists_given_of_unshared hr hsrc hsuffix hne htwo hunshared
    have hfits := hturn.length_le
    refine ⟨iff_of_false (by simp) (by omega), fun _ => ⟨r, rfl, fun a => ?_⟩⟩
    rw [hturn.mem_take_iff hlength, hr.mem_nonterminals_iff fun src q hsrc hq => ⟨hq.1, ?_⟩]
    intro s hs hn
    exact hq.mem_or_given hg.admissible hr.sound hsrc hs hn

/-- A grammar that uses every nonterminal, so that none is left to be taken. -/
def crammed : Grammar :=
  ⟨'S', .ofList [⟨'S', Symbol.nonterminals⟩, ⟨'S', ['a', 'b', 'c']⟩, ⟨'S', ['a', 'b']⟩]⟩

lemma built_crammed : crammed.Built := by
  have hletters : ∀ s ∈ (['a', 'b', 'c'] : Form), s.isTerminal = true :=
    List.all_eq_true.1 (by decide +kernel)
  refine Admissible.built ⟨by decide +kernel, fun p hp => ?_, fun p hp s hs => ?_⟩
  · simp only [crammed, SortedSet.mem_ofList, List.mem_cons, List.not_mem_nil, or_false] at hp
    rcases hp with rfl | rfl | rfl <;> decide +kernel
  · simp only [crammed, SortedSet.mem_ofList, List.mem_cons, List.not_mem_nil, or_false] at hp
    rcases hp with rfl | rfl | rfl
    · rw [Symbol.isAdmissible, Symbol.isNonterminal_iff.2 hs, Bool.true_or]
    · rw [Symbol.isAdmissible, hletters s hs, Bool.or_true]
    · rw [Symbol.isAdmissible, hletters s (List.take_subset 2 _ hs), Bool.or_true]

lemma pool_crammed : crammed.pool = [] := by
  rw [pool, spare, List.filter_eq_nil_iff]
  intro s hs
  have hmem : s ∈ crammed.nonterminals := by
    refine mem_nonterminals.2 (.inr ⟨⟨'S', Symbol.nonterminals⟩, ?_, .inr ⟨hs, ?_⟩⟩)
    · exact SortedSet.mem_ofList.2 (by simp)
    · exact Symbol.isNonterminal_iff.2 hs
  simp [hmem]

theorem exhausted_binarize_sharing :
    (sharing.Built ∧ sharing.unnamedRests.toList = [['A', 'C', 'D'], ['C', 'D']] ∧
      ∃ r, sharing.binarize.value = .ok r ∧
        ∀ a, a ∈ r.nonterminals ∧ a ∉ sharing.nonterminals ↔ a ∈ ['E', 'F']) ∧
    crammed.Built ∧ crammed.pool = [] ∧
      ∃ p ∈ crammed.longProductions, crammed.binarize.value = .error (.splitting p) := by
  have hrests : sharing.unnamedRests.toList = [['A', 'C', 'D'], ['C', 'D']] := by decide +kernel
  have hpool : sharing.pool.take sharing.unnamedRests.toList.length = ['E', 'F'] := by
    decide +kernel
  have hmem : ['b', 'c'] ∈ crammed.unnamedRests.toList := by
    rw [SortedSet.mem_toList, mem_unnamedRests]
    decide +kernel
  refine ⟨⟨built_sharing, hrests, ?_⟩, built_crammed, pool_crammed, ?_⟩
  · rw [← hpool]
    exact (exhausted_binarize_iff built_sharing).2 (by decide +kernel)
  · refine (exhausted_binarize_iff built_crammed).1.2 ?_
    rw [pool_crammed, List.length_nil]
    exact List.length_pos_of_mem hmem

/-! ## Terminals with company -/

/-- All terminals for which isolating needs a name. -/
def unnamedTerminals (g : Grammar) : SortedSet Symbol :=
  g.terminals.filter fun t =>
    decide ((∃ p ∈ g.productions.toList, p.body.length = 2 ∧ t ∈ p.body) ∧ ¬g.IsSoleBody [t])

lemma mem_unnamedTerminals :
    t ∈ g.unnamedTerminals ↔ t.isTerminal = true ∧
      (∃ p ∈ g.productions, p.body.length = 2 ∧ t ∈ p.body) ∧ ¬g.IsSoleBody [t] := by
  simp only [unnamedTerminals, SortedSet.mem_filter, mem_terminals, decide_eq_true_eq,
    SortedSet.mem_toList]
  refine and_congr_left ?_
  rintro ⟨⟨p, hp, -, hmem⟩, -⟩
  constructor
  · rintro ⟨-, -, -, ht⟩
    exact ht
  · intro ht
    exact ⟨p, hp, hmem, ht⟩

/-- The bodies that are to be named: single terminals. -/
def unnamedLetters (g : Grammar) : List Form := g.unnamedTerminals.toList.map fun t => [t]

lemma mem_unnamedLetters : body ∈ g.unnamedLetters ↔ ∃ t ∈ g.unnamedTerminals, body = [t] := by
  simp [unnamedLetters, eq_comm]

lemma nodup_unnamedLetters (g : Grammar) : g.unnamedLetters.Nodup :=
  g.unnamedTerminals.ascending.nodup.map (List.singleton_injective)

lemma length_of_isMixed (hmixed : p.isMixed = true) : p.body.length = 2 := by
  rw [Production.isMixed, Bool.and_eq_true, beq_iff_eq] at hmixed
  exact hmixed.1

/-- Isolating the terminals of a body takes names for those that need one. -/
lemma isolateBody_runsTo (hnames : names.established = g.soleProductions)
    (hneeds : ∀ s ∈ body, s.isTerminal = true → ¬g.IsSoleBody [s] → [s] ∈ g.unnamedLetters) :
    names.RunsTo g.unnamedLetters ((isolateBody names body).2.toOption.map Prod.fst) := by
  induction body generalizing names with
  | nil => exact .refl
  | cons s rest ih =>
    have hrest := fun t ht => hneeds t (List.mem_cons_of_mem _ ht)
    -- what is put before the new body leaves the names as they are
    have hkeep : ∀ (result : Except Symbol (Names × Form)) (v : Symbol),
        (result.map fun x => (x.1, v :: x.2)).toOption.map Prod.fst =
          result.toOption.map Prod.fst := by
      rintro (_ | _) v <;> rfl
    rw [isolateBody]
    split
    · rename_i hterminal
      rw [Names.get?]
      cases hfind : names.find? [s] with
      | some v =>
        rw [hkeep]
        exact ih hnames hrest
      | none =>
        have hneed := hneeds s (by simp) hterminal (not_isSoleBody_of_find? hnames hfind)
        cases htake : names.take? [s] with
        | none => exact ⟨names, .refl, [s], hneed, hfind, htake⟩
        | some taken =>
          obtain ⟨v, names₁⟩ := taken
          have hnames₁ := (Names.established_of_take? htake).trans hnames
          rw [hkeep]
          exact .prepend (.single ⟨[s], v, hneed, hfind, htake⟩) (ih hnames₁ hrest)
    · rw [hkeep]
      exact ih hnames hrest

lemma isolateNames_runsTo (g : Grammar) :
    (Names.ofGrammar g).RunsTo g.unnamedLetters
      (isolateNames (Names.ofGrammar g) g.mixedProductions) := by
  refine Names.runsTo_foldlM (fun p hp names hnames => ?_) rfl
  obtain ⟨hp, hmixed⟩ := mem_mixedProductions.1 hp
  refine isolateBody_runsTo hnames fun s hs hterminal hsole => ?_
  rw [mem_unnamedLetters]
  exact ⟨s, mem_unnamedTerminals.2
    ⟨hterminal, ⟨p, hp, length_of_isMixed hmixed, hs⟩, hsole⟩, rfl⟩

lemma mem_of_isolateBody_error (hbody : (isolateBody names body).2 = .error s) : s ∈ body := by
  induction body generalizing names with
  | nil => contradiction
  | cons t rest ih =>
    have herror : ∀ {result : Except Symbol (Names × Form)} {f : Names × Form → Names × Form},
        result.map f = .error s → result = .error s := by
      rintro (_ | _) f hresult
      · exact hresult
      · contradiction
    rw [isolateBody] at hbody
    split at hbody
    · split at hbody
      · exact List.mem_cons_of_mem _ (ih (herror hbody))
      · rw [Except.error.inj hbody]
        exact List.mem_cons_self
    · exact List.mem_cons_of_mem _ (ih (herror hbody))

/-- Isolating reports the terminal for which no name was left, and where it stands. -/
lemma isolateNames_of_failure (hisolate : (isolateProductions names ps).2 = some e) :
    isolateNames names ps = none ∧ ∃ p ∈ ps, ∃ s ∈ p.body, e = .isolating s p := by
  induction ps generalizing names with
  | nil => contradiction
  | cons p ps ih =>
    rw [isolateProductions] at hisolate
    rw [isolateNames, List.foldlM_cons]
    split at hisolate
    · rename_i edits₁ names₁ body hbody
      obtain ⟨hnone, q, hq, s, hs, rfl⟩ := ih hisolate
      rw [hbody]
      exact ⟨hnone, q, List.mem_cons_of_mem _ hq, s, hs, rfl⟩
    · rename_i edits₁ s hbody
      have hs : s ∈ p.body := mem_of_isolateBody_error (congrArg Prod.snd hbody)
      rw [hbody]
      exact ⟨rfl, p, by simp, s, hs, (Option.some.inj hisolate).symm⟩

lemma exists_stands_of_mem {body' : Form} (hbody : List.Forall₂ names.Isolates body body')
    (ht : t ∈ body) (hterminal : t.isTerminal = true) : ∃ v, names.Stands v [t] := by
  induction hbody with
  | nil => exact absurd ht List.not_mem_nil
  | @cons s v _ _ hv _ ih =>
    rcases List.mem_cons.1 ht with rfl | ht
    · rcases hv with ⟨-, hv⟩ | ⟨hs, -⟩
      · exact ⟨v, hv⟩
      · rw [hterminal] at hs
        contradiction
    · exact ih ht

/-- In the result, every terminal that needs a name has one. -/
lemma exists_given_of_mem_unnamedTerminals
    (hr : g.Rewritten h Form.IsLetter IsolatePiece names) (ht : t ∈ g.unnamedTerminals) :
    ∃ v, (⟨v, [t]⟩ : Production) ∈ names.given := by
  obtain ⟨hterminal, ⟨p, hp, htwo, hmem⟩, hsole⟩ := mem_unnamedTerminals.1 ht
  have hmixed : p.isMixed = true := by
    rw [Production.isMixed, htwo, beq_self_eq_true, Bool.true_and, List.any_eq_true]
    exact ⟨t, hmem, hterminal⟩
  obtain ⟨q, -, -, ⟨hplain, -⟩ | ⟨-, hbody⟩⟩ := hr.covered p (.inl hp)
  · rw [hmixed] at hplain
    contradiction
  · obtain ⟨v, hv⟩ := exists_stands_of_mem hbody hmem hterminal
    exact ⟨v, given_of_stands hr.sound hv hsole⟩

lemma IsolatePiece.mem_or_given (hg : g.Admissible) (hs : names.Sound g Form.IsLetter)
    (hsrc : g.Source names src) (hq : IsolatePiece names src q) (hmem : s ∈ q.body)
    (hn : s.isNonterminal = true) :
    s ∈ g.nonterminals ∨ s ∈ names.given.map Production.head := by
  have hplain : s ∈ src.body → s ∈ g.nonterminals := fun hmem =>
    hsrc.mem_nonterminals hg hs (fun _ hletter => isLetter_plain hletter) hmem hn
  rcases hq with ⟨-, ⟨-, hbody⟩ | ⟨-, hbody⟩⟩
  · exact .inl (hplain (hbody ▸ hmem))
  · obtain ⟨t, ht, ⟨-, hv⟩ | ⟨-, rfl⟩⟩ := exists_of_mem_isolated hbody hmem
    · exact mem_or_given_of_stands hs hv
    · exact .inl (hplain ht)

/-- A nonterminal that was taken has what it was taken for as its only body. -/
lemma bodies_of_given (hr : g.Rewritten h Form.IsLetter IsolatePiece names)
    (hp : p ∈ names.given) : h.bodies p.head = [p.body] := by
  rw [bodies_eq_singleton_iff]
  intro body
  have hletter : p.isMixed = false := by
    obtain ⟨t, ht, -⟩ := hr.sound.good p hp
    simp [Production.isMixed, ht]
  constructor
  · intro hq
    obtain ⟨src, hsrc, hhead, hpiece⟩ := hr.justified _ hq
    have hsame : src = p := by
      rcases hsrc with hsrc | hsrc
      · have hused : p.head ∈ g.nonterminals := by
          rw [show p.head = src.head from hhead]
          exact head_mem_nonterminals hsrc
        exact absurd hused (hr.sound.fresh p hp).1
      · exact List.inj_on_of_nodup_map hr.sound.distinct hsrc hp hhead.symm
    subst hsame
    rcases hpiece with ⟨-, hbody⟩ | ⟨hmixed, -⟩
    · exact hbody
    · rw [hletter] at hmixed
      contradiction
  · rintro rfl
    exact mem_of_source hr (.inr hp) hletter

/-- Isolating fails exactly if more terminals need a name than there are nonterminals to take, and
then names one of them with its production. Else the nonterminals newly in use are as many as there
are such terminals, from the beginning of the pool; each has one of the terminals as its only body,
and each of the terminals has one nonterminal. -/
theorem exhausted_isolateTerminals_iff (hg : g.Built) :
    ((∃ p ∈ g.mixedProductions, ∃ s ∈ p.body,
        g.isolateTerminals.value = .error (.isolating s p)) ↔
      g.pool.length < g.unnamedTerminals.toList.length) ∧
    (g.unnamedTerminals.toList.length ≤ g.pool.length →
      ∃ r, g.isolateTerminals.value = .ok r ∧
        (∀ a, a ∈ r.nonterminals ∧ a ∉ g.nonterminals ↔
          a ∈ g.pool.take g.unnamedTerminals.toList.length) ∧
        (∀ a ∈ g.pool.take g.unnamedTerminals.toList.length,
          ∃ t ∈ g.unnamedTerminals, r.bodies a = [[t]]) ∧
        ∀ t ∈ g.unnamedTerminals,
          ∃! a, a ∈ g.pool.take g.unnamedTerminals.toList.length ∧ r.bodies a = [[t]]) := by
  have hruns := isolateNames_runsTo g
  have hcount : g.unnamedLetters.length = g.unnamedTerminals.toList.length := List.length_map ..
  rw [← hcount]
  cases hvalue : g.isolateTerminals.value with
  | error e =>
    obtain ⟨hnone, p, hp, s, hs, rfl⟩ := isolateNames_of_failure (failure_of_pass hvalue)
    rw [hnone] at hruns
    have hlt := Names.length_lt_of_runsTo hruns
    exact ⟨iff_of_true ⟨p, hp, s, hs, rfl⟩ hlt, fun hle => absurd hlt (Nat.not_lt.2 hle)⟩
  | ok r =>
    obtain ⟨names, hnames, hr⟩ := isolateTerminals_rewritten hg.admissible hvalue
    rw [hnames] at hruns
    have hturn := Names.inTurn_of_takes hruns
    have hlength : names.given.length = g.unnamedLetters.length := by
      refine hturn.length_eq (nodup_unnamedLetters g) fun body hbody => ?_
      obtain ⟨t, ht, rfl⟩ := mem_unnamedLetters.1 hbody
      exact exists_given_of_mem_unnamedTerminals hr ht
    have hfits := hturn.length_le
    simp only [hturn.mem_take_iff hlength]
    refine ⟨iff_of_false (by simp) (by omega), fun _ => ⟨r, rfl, fun a => ?_, fun a ha => ?_,
      fun t ht => ?_⟩⟩
    · refine hr.mem_nonterminals_iff fun src q hsrc hq => ⟨hq.1, fun s hs hn => ?_⟩
      exact hq.mem_or_given hg.admissible hr.sound hsrc hs hn
    · obtain ⟨p, hp, rfl⟩ := List.mem_map.1 ha
      obtain ⟨t, ht, hbody⟩ := mem_unnamedLetters.1 (hturn.needed p hp)
      exact ⟨t, ht, hbody ▸ bodies_of_given hr hp⟩
    · obtain ⟨v, hv⟩ := exists_given_of_mem_unnamedTerminals hr ht
      refine ⟨v, ⟨List.mem_map_of_mem hv, bodies_of_given hr hv⟩, ?_⟩
      rintro a ⟨ha, hbodies⟩
      obtain ⟨p, hp, rfl⟩ := List.mem_map.1 ha
      -- what has the same body was taken for the same body, and none was taken twice
      rw [bodies_of_given hr hp, List.singleton_inj] at hbodies
      rw [List.inj_on_of_nodup_map hturn.bodies hp hv hbodies]

/-- A grammar with three terminals in need of a name, and one that is the only body of `A`. -/
def paired : Grammar :=
  ⟨'S', .ofList [⟨'S', ['a', 'b']⟩, ⟨'S', ['c', 'S']⟩, ⟨'S', ['d', 'B']⟩, ⟨'A', ['d']⟩,
    ⟨'B', ['a']⟩, ⟨'B', ['c']⟩, ⟨'B', ['c', 'a']⟩, ⟨'B', ['e']⟩]⟩

lemma built_paired : paired.Built :=
  @Built.rules _ 'S' [('S', [['a', 'b'], ['c', 'S'], ['d', 'B']]), ('A', [['d']]),
    ('B', [['a'], ['c'], ['c', 'a'], ['e']])] rfl

theorem exhausted_isolateTerminals_paired :
    (paired.Built ∧ paired.unnamedTerminals.toList = ['a', 'b', 'c'] ∧
      ∃ r, paired.isolateTerminals.value = .ok r ∧
        (∀ a, a ∈ r.nonterminals ∧ a ∉ paired.nonterminals ↔ a ∈ ['C', 'D', 'E']) ∧
        (∀ a ∈ ['C', 'D', 'E'], ∃ t ∈ paired.unnamedTerminals, r.bodies a = [[t]]) ∧
        ∀ t ∈ paired.unnamedTerminals, ∃! a, a ∈ ['C', 'D', 'E'] ∧ r.bodies a = [[t]]) ∧
    crammed.Built ∧ crammed.pool = [] ∧
      ∃ p ∈ crammed.mixedProductions, ∃ s ∈ p.body,
        crammed.isolateTerminals.value = .error (.isolating s p) := by
  have hterminals : paired.unnamedTerminals.toList = ['a', 'b', 'c'] := by decide +kernel
  have hpool : paired.pool.take paired.unnamedTerminals.toList.length = ['C', 'D', 'E'] := by
    decide +kernel
  have hmem : 'a' ∈ crammed.unnamedTerminals.toList := by
    rw [SortedSet.mem_toList, mem_unnamedTerminals]
    refine ⟨by decide +kernel, ⟨⟨'S', ['a', 'b']⟩, ?_, rfl, by simp⟩, by decide +kernel⟩
    exact SortedSet.mem_ofList.2 (by simp)
  refine ⟨⟨built_paired, hterminals, ?_⟩, built_crammed, pool_crammed, ?_⟩
  · rw [← hpool]
    exact (exhausted_isolateTerminals_iff built_paired).2 (by decide +kernel)
  · refine (exhausted_isolateTerminals_iff built_crammed).1.2 ?_
    rw [pool_crammed, List.length_nil]
    exact List.length_pos_of_mem hmem

end Grammar

end ContextFree
